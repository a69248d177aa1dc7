import EveryParse.Parser

/-!
What the variables of a parser stand for, and which definitions stay alive through them.
-/

namespace EveryParse

inductive Scope (τ : Type) : List Type → Type 1 where
  | empty : Scope τ []
  | share {Γ α} (p : Parser τ Γ α) (ρ : Scope τ Γ) : Scope τ (α :: Γ)
  /-- The handle of a definition: it refers to the definition and does not keep it alive. -/
  | handle {Γ α} (name : Name) (body : Parser τ (α :: Γ) α) (ρ : Scope τ Γ) : Scope τ (α :: Γ)
  /-- The handle of a definition that is still being built. -/
  | pending {Γ α} (ρ : Scope τ Γ) : Scope τ (α :: Γ)
  | link {Γ Δ α} (σ : Scope τ Δ) (p : Parser τ Δ α) (ρ : Scope τ Γ) : Scope τ (α :: Γ)

inductive Referent (τ α : Type) : Type 1 where
  | parser {Γ} (ρ : Scope τ Γ) (p : Parser τ Γ α)
  | handle {Γ} (name : Name) (body : Parser τ (α :: Γ) α) (ρ : Scope τ Γ)
  | nothing

namespace Scope

variable {τ : Type}

def get {Γ : List Type} {α : Type} : Scope τ Γ → Var Γ α → Referent τ α
  | share p ρ, .here => .parser ρ p
  | handle name body ρ, .here => .handle name body ρ
  | pending _, .here => .nothing
  | link σ p _, .here => .parser σ p
  | share _ ρ, .there x | handle _ _ ρ, .there x | pending ρ, .there x | link _ _ ρ, .there x =>
    ρ.get x

/-- The surroundings of a continuation that has captured part of `ρ`. -/
def captured {Γ Δ : List Type} (ρ : Scope τ Γ) : Captures Γ Δ → Scope τ Δ
  | .all => ρ
  | .none => .empty
  | .also x others => .link ρ (.ref x) (ρ.captured others)

def held (name : Name) {Γ : List Type} : Scope τ Γ → List Bool
  | empty => []
  | share p ρ => p.holds name (ρ.held name) :: ρ.held name
  | handle _ _ ρ | pending ρ => false :: ρ.held name
  | link σ p ρ => p.holds name (σ.held name) :: ρ.held name

def holds {Γ : List Type} (ρ : Scope τ Γ) (name : Name) : Bool :=
  (ρ.held name).any id

theorem held_captured {Γ Δ : List Type} (ρ : Scope τ Γ) (captures : Captures Γ Δ) (name : Name) :
    (ρ.captured captures).held name = captures.held (ρ.held name) := by
  induction captures with
  | all | none => rfl
  | also x others ih => simp only [captured, held, Captures.held, Parser.holds, ih]

end Scope

def Parser.keeps {τ : Type} {Γ : List Type} {α : Type} (ρ : Scope τ Γ) (p : Parser τ Γ α)
    (name : Name) : Bool :=
  p.holds name (ρ.held name)

theorem Parser.keeps_bind {τ : Type} {Γ Δ : List Type} {α β : Type} (ρ : Scope τ Γ)
    (p : Parser τ Γ α) (captures : Captures Γ Δ) (f : α → Parser τ Δ β) (name : Name) :
    (bind p captures f).keeps ρ name = (p.keeps ρ name || (ρ.captured captures).holds name) := by
  simp only [keeps, Parser.holds, Scope.holds, Scope.held_captured]

/-- A parser together with what its variables stand for. -/
structure Closure (τ α : Type) : Type 1 where
  {context : List Type}
  scope : Scope τ context
  parser : Parser τ context α

def Closure.holds {τ α : Type} (c : Closure τ α) (name : Name) : Bool :=
  c.parser.keeps c.scope name

end EveryParse
