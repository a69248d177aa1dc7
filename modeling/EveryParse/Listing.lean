import EveryParse.Run

/-!
Listing: the first parses of a parser, and what ran while they were looked for.
-/

namespace EveryParse

/-- Parses in the order they were found, with the events of the invocation and of each pull. `ended`
tells whether a pull found the end. -/
structure Listing (τ α : Type) where
  parses : Array (α × Input τ)
  ended : Bool
  events : Array (List Event)

variable {τ α : Type}

def Listing.extend (fuel : Nat) (live : Owners) :
    Nat → Parses τ α → Listing τ α → Option (Listing τ α)
  | 0, _, found => some found
  | limit + 1, s, ⟨parses, _, events⟩ =>
    match s.pull fuel live [] with
    | none => none
    | some ⟨.ended _, log⟩ => some ⟨parses, true, events.push log.reverse⟩
    | some ⟨.parse v rest s, log⟩ =>
      extend fuel live limit s ⟨parses.push (v, rest), false, events.push log.reverse⟩

def Parser.listing {Γ : List Type} (fuel : Nat) (live : Owners) (ρ : Scope τ Γ)
    (p : Parser τ Γ α) (input : Input τ) (limit : Nat) : Option (Listing τ α) :=
  (p.invoke fuel live ρ input []).bind fun ⟨s, log⟩ =>
    Listing.extend fuel live limit s ⟨#[], false, #[log.reverse]⟩

end EveryParse
