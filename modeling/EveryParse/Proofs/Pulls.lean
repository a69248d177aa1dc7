import EveryParse.Run

/-!
Pulling one time after the other.
-/

namespace EveryParse

variable {τ α : Type}

def Answer.found : Answer τ α → Option (α × Input τ)
  | .parse v rest _ => some (v, rest)
  | .ended _ => none

def Answer.next : Answer τ α → Parses τ α
  | .parse _ _ s | .ended s => s

def Parses.pulls (fuel : Nat) (live : Owners) :
    Nat → Parses τ α → Option (List (Option (α × Input τ) × List Event))
  | 0, _ => some []
  | times + 1, s =>
    (s.pull fuel live []).bind fun ⟨answer, log⟩ =>
      (pulls fuel live times answer.next).map ((answer.found, log.reverse) :: ·)

/-- One pull for each of `lives`, which tells who keeps definitions alive during that pull. -/
def Parses.pullsAmong (fuel : Nat) :
    List Owners → Parses τ α → Option (List (Option (α × Input τ) × List Event))
  | [], _ => some []
  | live :: lives, s =>
    (s.pull fuel live []).bind fun ⟨answer, log⟩ =>
      (pullsAmong fuel lives answer.next).map ((answer.found, log.reverse) :: ·)

/-- What is seen of an invocation and of the pulls that follow: the events of the invocation, and of
each pull what it finds and its events. -/
structure Observation (τ α : Type) where
  invoked : List Event
  pulls : List (Option (α × Input τ) × List Event)

def Observation.answers (observation : Observation τ α) : List (Option (α × Input τ)) :=
  observation.pulls.map Prod.fst

def Observation.events (seen : Observation τ α) : List Event :=
  seen.invoked ++ seen.pulls.flatMap Prod.snd

def Parser.observe {Γ : List Type} (fuel : Nat) (ρ : Scope τ Γ) (p : Parser τ Γ α)
    (input : Input τ) (live : Owners) (lives : List Owners) : Option (Observation τ α) :=
  (p.invoke fuel live ρ input []).bind fun ⟨s, log⟩ =>
    (s.pullsAmong fuel lives).map (⟨log.reverse, ·⟩)

/-- The sequences that are left of the parses of `c` on an input, after any number of pulls. Each
pull may meet with others that keep definitions alive. -/
inductive Closure.Opened (c : Closure τ α) (input : Input τ) : Parses τ α → Prop
  | invoked {fuel live log opened}
      (ran : c.parser.invoke fuel live c.scope input log = some opened) :
      Opened c input opened.value
  | pulled {fuel live log s answer} (opened : Opened c input s)
      (ran : s.pull fuel live log = some answer) : Opened c input answer.value.next

def Closure.Gives (c : Closure τ α) (input : Input τ) (v : α) (rest : Input τ) : Prop :=
  ∃ s fuel live log next log', c.Opened input s ∧
    s.pull fuel live log = some ⟨.parse v rest next, log'⟩

end EveryParse
