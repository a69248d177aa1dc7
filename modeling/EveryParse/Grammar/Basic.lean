import EveryParse.Grammar.Expr
import EveryParse.Grammar.Token

/-!
Grammars: parsers written down with names for values and for parsers, and the parsers they mean.
The two kinds of names are apart; an inner name hides an outer one.
-/

namespace EveryParse

mutual

inductive Grammar (τ : Type) where
  | result (value : Expr)
  | fail
  | item
  | sat (name : String) (keep : Expr)
  | bind (p : Grammar τ) (name : String) (next : Grammar τ)
  | map (p : Grammar τ) (name : String) (image : Expr)
  | filter (p : Grammar τ) (name : String) (keep : Expr)
  | or (p q : Grammar τ)
  | many (p : Grammar τ)
  | recursive (name : String) (body : Grammar τ)
  | ref (name : String)
  | share (name : String) (p body : Grammar τ)
  | sequence (steps : Steps τ) (value : Expr)
  | cond (test : Expr) (yes no : Grammar τ)
  | each (counts : List Nat)
  | tap (label : String) (p : Grammar τ)
  /-- Counts the parses of `p` on other tokens and gives the count a name. -/
  | probe (p : Grammar τ) (tokens : Array τ) (name : String) (next : Grammar τ)
  | lexeme (lexeme : Lexeme)

inductive Steps (τ : Type) where
  | nil
  | cons (name : Option String) (p : Grammar τ) (rest : Steps τ)

end

abbrev Names (Γ : List Type) := List (String × Var Γ Value)

def Names.deeper {Γ : List Type} (names : Names Γ) : Names (Value :: Γ) :=
  names.map fun entry => (entry.1, .there entry.2)

def Names.push {Γ : List Type} (names : Names Γ) (name : String) : Names (Value :: Γ) :=
  (name, .here) :: names.deeper

def takes {τ : Type} {Γ : List Type} (counts : List Nat) : Parser τ Γ Value :=
  .leaf fun input index =>
    (counts.filter (· ≤ input.length))[index]?.map fun count =>
      (.int (Int64.ofNat count), input.advance count)

variable {τ : Type} [Token τ]

mutual

/-- The parser that a grammar means. Its definitions are named by `address`, the place of the
grammar, and their places in it. -/
def Grammar.parser {Γ : List Type} (names : Names Γ) (bound : Bindings Value)
    (address : List Nat) : Grammar τ → Parser τ Γ Value
  | .result value => .evaluated (value.eval bound)
  | .fail => .fail
  | .item => .map Token.value .item
  | .sat name keep =>
    .map Token.value (.filterM (fun t => keep.test (bound.extend name (Token.value t))) .item)
  | .bind p name next =>
    .bind (p.parser names bound (0 :: address)) .all fun v =>
      next.parser names (bound.extend name v) (1 :: address)
  | .map p name image =>
    .mapM (fun v => image.eval (bound.extend name v)) (p.parser names bound (0 :: address))
  | .filter p name keep =>
    .filterM (fun v => keep.test (bound.extend name v)) (p.parser names bound (0 :: address))
  | .or p q => .or (p.parser names bound (0 :: address)) (q.parser names bound (1 :: address))
  | .many p => .map .list (.many (p.parser names bound (0 :: address)))
  | .recursive name body =>
    .recursive (.site address) (body.parser (names.push name) bound (0 :: address))
  | .ref name =>
    match names.lookup name with
    | some x => .ref x
    | none => .fail
  | .share name p body =>
    .share (p.parser names bound (0 :: address))
      (body.parser (names.push name) bound (1 :: address))
  | .sequence steps value =>
    .sequence (steps.parsers names address) (fun bound => value.eval bound) bound
  | .cond test yes no =>
    let verdict := test.test bound
    .noted verdict.events <|
      if verdict.value then yes.parser names bound (0 :: address)
      else no.parser names bound (1 :: address)
  | .each counts => takes counts
  | .tap label p => .tap label (p.parser names bound (0 :: address))
  | .probe p tokens name next =>
    .probe (p.parser names bound (0 :: address)) (.new ⟨0, tokens⟩) fun count =>
      next.parser names (bound.extend name (.int (Int64.ofNat count))) (1 :: address)
  | .lexeme lexeme => Token.lexeme lexeme

def Steps.parsers {Γ : List Type} (names : Names Γ) (address : List Nat) :
    Steps τ → List (Step τ Γ Value)
  | .nil => []
  | .cons name p rest =>
    ⟨name, fun bound => p.parser names bound (0 :: address)⟩ :: rest.parsers names (1 :: address)

end

end EveryParse
