import EveryParse.Run

/-!
Completing: the value of the first parse that leaves nothing of the input, found by pulling no
further than to that parse.
-/

namespace EveryParse

/-- No parse left nothing. `length` is the number of tokens there were to read. -/
structure Incomplete where
  length : Nat
  deriving DecidableEq, Repr

def Incomplete.message (failure : Incomplete) : String :=
  s!"parsing failed, no parse consumed all {failure.length} tokens"

variable {τ α : Type}

def Parses.firstComplete :
    Nat → Owners → Parses τ α → List Event → Option (Outcome (Option α))
  | 0, _, _, _ => none
  | n + 1, live, s, log =>
    match s.pull n live log with
    | none => none
    | some ⟨.ended _, log⟩ => some ⟨none, log⟩
    | some ⟨.parse v rest s, log⟩ =>
      if rest.isEmpty then some ⟨some v, log⟩ else s.firstComplete n live log

def Parser.complete {Γ : List Type} (fuel : Nat) (live : Owners) (ρ : Scope τ Γ)
    (p : Parser τ Γ α) (input : Input τ) (log : List Event) :
    Option (Outcome (Except Incomplete α)) :=
  (p.invoke fuel live ρ input log).bind fun ⟨s, log⟩ =>
    (s.firstComplete fuel live log).map <|
      .map fun
        | some v => .ok v
        | none => .error ⟨input.length⟩

end EveryParse
