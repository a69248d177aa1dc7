import EveryParse.Scope

/-!
Open sequences: how far the parses of a parser have been pulled, and what is needed for the rest.
-/

namespace EveryParse

inductive Parses (τ : Type) : Type → Type 1 where
  | listed {α} (parses : List (α × Input τ)) : Parses τ α
  | drawn {α} (parses : Nat → Option (α × Input τ)) (index : Nat) : Parses τ α
  | mapped {α β} (g : α → Logged β) (s : Parses τ α) : Parses τ β
  | filtered {α} (keep : α → Logged Bool) (s : Parses τ α) : Parses τ α
  /-- The parses `s` of a first choice; `q` has not been run yet. -/
  | choosing {Γ α} (s : Parses τ α) (ρ : Scope τ Γ) (q : Parser τ Γ α)
      (input : Input τ) : Parses τ α
  | chosen {α} (s : Parses τ α) : Parses τ α
  /-- `inner` are the parses of what `f` made of the last parse of `outer`. -/
  | nested {Γ α β} (ρ : Scope τ Γ) (f : α → Parser τ Γ β)
      (outer : Parses τ α) (inner : Parses τ β) :
      Parses τ β
  /-- The parses `s` of a definition, which keep the definition alive. -/
  | anchored {Γ α} (ρ : Scope τ Γ) (name : Name) (body : Parser τ (α :: Γ) α) (s : Parses τ α) :
      Parses τ α
  | tapped {α} (label : String) (ended : Bool) (s : Parses τ α) : Parses τ α

namespace Parses

variable {τ α : Type}

def empty : Parses τ α :=
  listed []

def holds {α : Type} : Parses τ α → Name → Bool
  | listed _, _ | drawn _ _, _ => false
  | mapped _ s, name | filtered _ s, name | chosen s, name | tapped _ _ s, name => s.holds name
  | choosing s ρ q _, name => q.keeps ρ name || s.holds name
  | nested ρ _ outer inner, name => ρ.holds name || outer.holds name || inner.holds name
  | anchored ρ other body s, name => (Parser.recursive other body).keeps ρ name || s.holds name

end Parses

inductive Answer (τ α : Type) : Type 1 where
  | parse (value : α) (rest : Input τ) (next : Parses τ α)
  | ended (next : Parses τ α)

end EveryParse
