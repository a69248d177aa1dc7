import EveryParse.Parser

/-!
Sequences of steps. Each step may use the values that the steps before it gave names to, and the
last named value of a name is the one that is meant.
-/

namespace EveryParse

abbrev Bindings (α : Type) := List (String × α)

/-- A value without a name cannot be referred to. -/
def Bindings.extend {α : Type} (bound : Bindings α) (name : Option String) (value : α) :
    Bindings α :=
  match name with
  | some name => (name, value) :: bound
  | none => bound

structure Step (τ : Type) (Γ : List Type) (α : Type) : Type 1 where
  name : Option String
  parser : Bindings α → Parser τ Γ α

/-- Runs the steps one behind the other. A step's parser is made when the step is reached, and the
value when the last step is done; whatever is in scope is taken along from step to step. -/
def Parser.sequence {τ : Type} {Γ : List Type} {α β : Type} :
    List (Step τ Γ α) → (Bindings α → Logged β) → Bindings α → Parser τ Γ β
  | [], value, bound => .evaluated (value bound)
  | step :: steps, value, bound =>
    .bind (step.parser bound) .all fun v => sequence steps value (bound.extend step.name v)

end EveryParse
