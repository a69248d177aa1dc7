import EveryParse.Event
import EveryParse.Grammar.Value
import EveryParse.Sequence

/-!
The expressions in grammars. Arguments are evaluated from left to right, and of a condition only the
branch that is taken. Evaluation never fails: where an operation does not fit the kind of a value,
it works on zero, on false or on the empty list.
-/

namespace EveryParse

inductive Arith where
  | add
  | sub
  | mul
  deriving DecidableEq, Repr

/-- Integers have 64 bits and wrap around. -/
def Arith.apply : Arith → Int64 → Int64 → Int64
  | add, a, b => a + b
  | sub, a, b => a - b
  | mul, a, b => a * b

def Arith.ofChar? : Char → Option Arith
  | '+' => some add
  | '-' => some sub
  | '*' => some mul
  | _ => none

def remainder (a b : Int64) : Int64 :=
  Int64.ofInt (a.toInt % b.toInt)

/-- One step of a calculation: `item` is a list of an operation's sign and its right side. -/
def operate (total : Int64) (item : Value) : Int64 :=
  match item with
  | .list [.chr sign, .int n] =>
    match Arith.ofChar? sign with
    | some op => op.apply total n
    | none => total
  | _ => total

inductive Expr where
  | const (value : Value)
  | var (name : String)
  | arith (op : Arith) (a b : Expr)
  | mod (a b : Expr)
  | eq (a b : Expr)
  | lt (a b : Expr)
  | not (a : Expr)
  | and (a b : Expr)
  | cond (test yes no : Expr)
  | code (a : Expr)
  | size (a : Expr)
  | text (a : Expr)
  | cons (first rest : Expr)
  | append (a b : Expr)
  | sum (items : Expr)
  /-- Takes operations one behind the other, from `start` on. -/
  | calculate (start operations : Expr)
  | note (label : String) (a : Expr)

def Expr.list (items : List Expr) : Expr :=
  items.foldr .cons (.const (.list []))

/-- An unbound name has the empty list for its value. -/
def Bindings.get (bound : Bindings Value) (name : String) : Value :=
  (bound.lookup name).getD (.list [])

def Expr.eval (bound : Bindings Value) : Expr → Logged Value
  | const value => pure value
  | var name => pure (bound.get name)
  | arith op a b => do return .int (op.apply (← a.eval bound).asInt (← b.eval bound).asInt)
  | mod a b => do return .int (remainder (← a.eval bound).asInt (← b.eval bound).asInt)
  | eq a b => do return .bool ((← a.eval bound).same (← b.eval bound))
  | lt a b => do return .bool ((← a.eval bound).asInt < (← b.eval bound).asInt)
  | not a => do return .bool !(← a.eval bound).asBool
  | and a b => do
    let first ← a.eval bound
    let second ← b.eval bound
    return .bool (first.asBool && second.asBool)
  | cond test yes no => do
    if (← test.eval bound).asBool then yes.eval bound else no.eval bound
  | code a => do return .int (← a.eval bound).code
  | size a => do return .int (← a.eval bound).size
  | text a => do return .str (← a.eval bound).text
  | cons first rest => do return .list ((← first.eval bound) :: (← rest.eval bound).asList)
  | append a b => do return .list ((← a.eval bound).asList ++ (← b.eval bound).asList)
  | sum items => do
    return .int ((← items.eval bound).asList.foldl (fun total item => total + item.asInt) 0)
  | calculate start operations => do
    let start ← start.eval bound
    let operations ← operations.eval bound
    return .int (operations.asList.foldl operate start.asInt)
  | note label a => do
    Logged.note label
    a.eval bound

def Expr.test (bound : Bindings Value) (e : Expr) : Logged Bool := do
  return (← e.eval bound).asBool

end EveryParse
