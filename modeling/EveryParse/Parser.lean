import EveryParse.Event
import EveryParse.Input

/-!
Parsers that keep every parse. A parser answers an input with the sequence of all its parses, a
value and a remainder each, and is here a description of that sequence; running it is the business
of `EveryParse.Run`.

A parser of type `Parser τ Γ α` reads tokens of type `τ` and gives values of type `α`. `Γ` lists
the value types of the parsers that are in scope by variable, innermost first.
-/

namespace EveryParse

/-- Definitions are known by name. A grammar names the ones inside it by where they stand; a session
numbers the ones whose handles it keeps. -/
inductive Name where
  | site (address : List Nat)
  | serial (number : Nat)
  deriving DecidableEq, Repr

inductive Var : List Type → Type → Type 1 where
  | here {Γ : List Type} {α : Type} : Var (α :: Γ) α
  | there {Γ : List Type} {α β : Type} (x : Var Γ α) : Var (β :: Γ) α

def Var.index {Γ : List Type} {α : Type} : Var Γ α → Nat
  | .here => 0
  | .there x => x.index + 1

/-- What a continuation takes along of its surroundings `Γ`: all that is in scope, or one variable
after the other, the last one innermost. `Δ` is the scope that it runs in. -/
inductive Captures : List Type → List Type → Type 1 where
  | all {Γ : List Type} : Captures Γ Γ
  | none {Γ : List Type} : Captures Γ []
  | also {Γ Δ : List Type} {α : Type} (x : Var Γ α) (others : Captures Γ Δ) : Captures Γ (α :: Δ)

inductive Parser (τ : Type) : List Type → Type → Type 1 where
  | result {Γ α} (value : α) : Parser τ Γ α
  | fail {Γ α} : Parser τ Γ α
  | item {Γ} : Parser τ Γ τ
  /-- A parser from outside, given by the parse number `n` of an input for as long as there is one;
  there may be one for every `n`. It must give remainders of the input it was given. -/
  | leaf {Γ α} (parses : Input τ → Nat → Option (α × Input τ)) : Parser τ Γ α
  /-- Every parse of `p` followed by every parse of what `f` makes of its value. The continuation
  `f` knows what it has captured and nothing else. -/
  | bind {Γ Δ α β} (p : Parser τ Γ α) (captures : Captures Γ Δ) (f : α → Parser τ Δ β) :
    Parser τ Γ β
  | mapM {Γ α β} (g : α → Logged β) (p : Parser τ Γ α) : Parser τ Γ β
  | filterM {Γ α} (keep : α → Logged Bool) (p : Parser τ Γ α) : Parser τ Γ α
  | or {Γ α} (p q : Parser τ Γ α) : Parser τ Γ α
  /-- Repeats the parser that `x` stands for. A run of matches is folded from its end: `stop` is the
  empty run, `extend` puts the match that comes before. -/
  | runs {Γ α β} (x : Var Γ α) (stop : β) (extend : α → β → β) : Parser τ Γ β
  /-- A parser that may refer to itself, through a handle that is the innermost variable of
  `body`. -/
  | recursive {Γ α} (name : Name) (body : Parser τ (α :: Γ) α) : Parser τ Γ α
  | share {Γ α β} (p : Parser τ Γ α) (q : Parser τ (α :: Γ) β) : Parser τ Γ β
  | alone {Γ α β} (p : Parser τ Γ α) (q : Parser τ [α] β) : Parser τ Γ β
  | ref {Γ α} (x : Var Γ α) : Parser τ Γ α
  | tap {Γ α} (label : String) (p : Parser τ Γ α) : Parser τ Γ α
  | noted {Γ α} (events : List Event) (p : Parser τ Γ α) : Parser τ Γ α
  /-- Counts the parses of `p` on `input` while being built, and goes on as the count says. -/
  | probe {Γ α β} (p : Parser τ Γ α) (input : Input τ) (next : Nat → Parser τ Γ β) : Parser τ Γ β

def Captures.held {Γ Δ : List Type} : Captures Γ Δ → List Bool → List Bool
  | all, scope => scope
  | none, _ => []
  | also x others, scope => scope.getD x.index false :: others.held scope

namespace Parser

variable {τ : Type} {Γ : List Type} {α β : Type}

def map (g : α → β) (p : Parser τ Γ α) : Parser τ Γ β :=
  mapM (fun a => .silent (g a)) p

def filter (keep : α → Bool) (p : Parser τ Γ α) : Parser τ Γ α :=
  filterM (fun a => .silent (keep a)) p

def evaluated (value : Logged α) : Parser τ Γ α :=
  noted value.events (result value.value)

def sat (keep : τ → Bool) : Parser τ Γ τ :=
  item.filter keep

/-- Every way to read the input as matches of `p` one behind the other, a longer run before the runs
that it begins with. Matches are collected last one first, so that each is pushed at the end. -/
def many (p : Parser τ Γ α) : Parser τ Γ (List α) :=
  (alone p (runs .here #[] fun first rest => rest.push first)).map
    fun collected => collected.toList.reverse

def unrolled (x : Var Γ α) (stop : β) (extend : α → β → β) : Parser τ Γ β :=
  or (bind (ref x) .all fun first => map (extend first) (runs x stop extend)) (result stop)

/-- Whether this parser keeps the definition `name` alive; `scope` tells for each variable whether
the parser behind it does. A parser keeps what its parts keep, a definition itself too, a
continuation what it has captured, and a probe that has not been built whatever is in scope. The
handle of a definition keeps nothing. -/
def holds (name : Name) {Γ : List Type} {α : Type} (scope : List Bool) : Parser τ Γ α → Bool
  | result _ | fail | item | leaf _ => false
  | bind p captures _ => p.holds name scope || (captures.held scope).any id
  | mapM _ p | filterM _ p | tap _ p | noted _ p => p.holds name scope
  | or p q => p.holds name scope || q.holds name scope
  | runs x _ _ => scope.getD x.index false
  | recursive other body => name == other || body.holds name (false :: scope)
  | share p q => q.holds name (p.holds name scope :: scope)
  | alone p q => q.holds name [p.holds name scope]
  | ref x => scope.getD x.index false
  | probe p _ _ => p.holds name scope || scope.any id

end Parser

end EveryParse
