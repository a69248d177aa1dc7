import EveryParse.Parses

/-!
Running parsers. A parser is built, then invoked on an input, which runs the first parsers in it and
pulls nothing; the sequence this gives is pulled one parse at a time, and whatever else has to run
runs inside a pull.

Parsers may call themselves without end, so every function here takes fuel, a bound on how deep its
calls go, and answers `none` when that is not enough. `live` tells which definitions someone else
keeps alive. The log collects events, the newest first.
-/

namespace EveryParse

variable {τ : Type}

/-- What a call comes to, with the log as it is then. -/
structure Outcome.{u} (β : Type u) : Type (max 1 u) where
  value : β
  log : List Event

@[inline]
def Outcome.map.{u, v} {β : Type u} {γ : Type v} (g : β → γ) (outcome : Outcome β) : Outcome γ :=
  ⟨g outcome.value, outcome.log⟩

abbrev Owners := Name → Bool

namespace Owners

def nobody : Owners :=
  fun _ => false

def add (live holds : Owners) : Owners :=
  fun name => holds name || live name

end Owners

mutual

/-- Carries out the notes and probes outside continuations, and gives the parser without them. -/
def Parser.build {Γ : List Type} {α : Type} :
    Nat → Owners → Scope τ Γ → Parser τ Γ α → List Event → Option (Outcome (Parser τ Γ α))
  | 0, _, _, _, _ => none
  | n + 1, live, ρ, p, log =>
    match p with
    | .result v => some ⟨.result v, log⟩
    | .fail => some ⟨.fail, log⟩
    | .item => some ⟨.item, log⟩
    | .leaf parses => some ⟨.leaf parses, log⟩
    | .bind p captures f => (p.build n live ρ log).map (.map (.bind · captures f))
    | .mapM g p => (p.build n live ρ log).map (.map (.mapM g))
    | .filterM keep p => (p.build n live ρ log).map (.map (.filterM keep))
    | .or p q =>
      (p.build n live ρ log).bind fun ⟨p, log⟩ =>
        (q.build n live ρ log).map (.map (.or p))
    | .runs x stop extend => some ⟨.runs x stop extend, log⟩
    | .recursive name body => (body.build n live (.pending ρ) log).map (.map (.recursive name))
    | .share p q =>
      (p.build n live ρ log).bind fun ⟨p, log⟩ =>
        (q.build n live (.share p ρ) log).map (.map (.share p))
    | .alone p q =>
      (p.build n live ρ log).bind fun ⟨p, log⟩ =>
        (q.build n live (.link ρ p .empty) log).map (.map (.alone p))
    | .ref x => some ⟨.ref x, log⟩
    | .tap label p => (p.build n live ρ log).map (.map (.tap label))
    | .noted events p => p.build n live ρ (events.reverseAux log)
    | .probe p input next =>
      (p.build n live ρ log).bind fun ⟨p, log⟩ =>
        (p.invoke n live ρ input log).bind fun ⟨s, log⟩ =>
          (s.count n live 0 log).bind fun ⟨count, log⟩ =>
            (next count).build n live ρ log

def Parser.invoke {Γ : List Type} {α : Type} :
    Nat → Owners → Scope τ Γ → Parser τ Γ α → Input τ → List Event →
      Option (Outcome (Parses τ α))
  | 0, _, _, _, _, _ => none
  | n + 1, live, ρ, p, input, log =>
    match p with
    | .result v => some ⟨.listed [(v, input)], log⟩
    | .fail => some ⟨.empty, log⟩
    | .item => some ⟨.listed input.splitFirst.toList, log⟩
    | .leaf parses => some ⟨.drawn (parses input) 0, log⟩
    | .bind p captures f =>
      (p.invoke n live ρ input log).map (.map (.nested (ρ.captured captures) f · .empty))
    | .mapM g p => (p.invoke n live ρ input log).map (.map (.mapped g))
    | .filterM keep p => (p.invoke n live ρ input log).map (.map (.filtered keep))
    | .or p q => (p.invoke n live ρ input log).map (.map (.choosing · ρ q input))
    | .runs x stop extend => (Parser.unrolled x stop extend).invoke n live ρ input log
    | .recursive name body =>
      let live := live.add ((Parser.recursive name body).keeps ρ)
      (body.invoke n live (.handle name body ρ) input log).map (.map (.anchored ρ name body))
    | .share p q => q.invoke n live (.share p ρ) input log
    | .alone p q => q.invoke n live (.link ρ p .empty) input log
    | .ref x =>
      match ρ.get x with
      | .parser σ p => p.invoke n live σ input log
      | .handle name body σ =>
        if live name then (Parser.recursive name body).invoke n live σ input log
        else some ⟨.empty, log⟩
      | .nothing => some ⟨.empty, log⟩
    | .tap label p =>
      (p.invoke n live ρ input (.run label input.offset :: log)).map (.map (.tapped label false))
    | .noted events p => p.invoke n live ρ input (events.reverseAux log)
    | .probe p probed next =>
      ((Parser.probe p probed next).build n live ρ log).bind fun ⟨p, log⟩ =>
        p.invoke n live ρ input log

/-- Looks for the next parse. A sequence that has ended stays so. -/
def Parses.pull {α : Type} :
    Nat → Owners → Parses τ α → List Event → Option (Outcome (Answer τ α))
  | 0, _, _, _ => none
  | n + 1, live, s, log =>
    match s with
    | .listed [] => some ⟨.ended .empty, log⟩
    | .listed ((v, rest) :: parses) => some ⟨.parse v rest (.listed parses), log⟩
    | .drawn parses index =>
      match parses index with
      | none => some ⟨.ended .empty, log⟩
      | some (v, rest) => some ⟨.parse v rest (.drawn parses (index + 1)), log⟩
    | .mapped g s =>
      match s.pull n live log with
      | none => none
      | some ⟨.ended s, log⟩ => some ⟨.ended (.mapped g s), log⟩
      | some ⟨.parse v rest s, log⟩ =>
        let image := g v
        some ⟨.parse image.value rest (.mapped g s), image.onto log⟩
    | .filtered keep s =>
      match s.pull n live log with
      | none => none
      | some ⟨.ended s, log⟩ => some ⟨.ended (.filtered keep s), log⟩
      | some ⟨.parse v rest s, log⟩ =>
        let verdict := keep v
        if verdict.value then some ⟨.parse v rest (.filtered keep s), verdict.onto log⟩
        else (Parses.filtered keep s).pull n live (verdict.onto log)
    | .choosing s ρ q input =>
      let others := live.add (q.keeps ρ)
      match s.pull n others log with
      | none => none
      | some ⟨.parse v rest s, log⟩ => some ⟨.parse v rest (.choosing s ρ q input), log⟩
      | some ⟨.ended _, log⟩ =>
        match q.invoke n others ρ input log with
        | none => none
        | some ⟨s, log⟩ => (Parses.chosen s).pull n live log
    | .chosen s =>
      match s.pull n live log with
      | none => none
      | some ⟨.parse v rest s, log⟩ => some ⟨.parse v rest (.chosen s), log⟩
      | some ⟨.ended _, log⟩ => some ⟨.ended .empty, log⟩
    | .nested ρ f outer inner =>
      let others := live.add ρ.holds
      match inner.pull n (others.add outer.holds) log with
      | none => none
      | some ⟨.parse v rest inner, log⟩ => some ⟨.parse v rest (.nested ρ f outer inner), log⟩
      | some ⟨.ended _, log⟩ =>
        match outer.pull n others log with
        | none => none
        | some ⟨.ended _, log⟩ => some ⟨.ended .empty, log⟩
        | some ⟨.parse v rest outer, log⟩ =>
          match (f v).build n (others.add outer.holds) ρ log with
          | none => none
          | some ⟨p, log⟩ =>
            match p.invoke n (others.add outer.holds) ρ rest log with
            | none => none
            | some ⟨inner, log⟩ => (Parses.nested ρ f outer inner).pull n live log
    | .anchored ρ name body s =>
      match s.pull n (live.add ((Parser.recursive name body).keeps ρ)) log with
      | none => none
      | some ⟨.parse v rest s, log⟩ => some ⟨.parse v rest (.anchored ρ name body s), log⟩
      | some ⟨.ended s, log⟩ => some ⟨.ended (.anchored ρ name body s), log⟩
    | .tapped label ended s =>
      match s.pull n live log with
      | none => none
      | some ⟨.parse v rest s, log⟩ =>
        some ⟨.parse v rest (.tapped label ended s), .yield label rest.offset :: log⟩
      | some ⟨.ended s, log⟩ =>
        some ⟨.ended (.tapped label true s), if ended then log else .ended label :: log⟩

def Parses.count {α : Type} :
    Nat → Owners → Parses τ α → Nat → List Event → Option (Outcome Nat)
  | 0, _, _, _, _ => none
  | n + 1, live, s, count, log =>
    match s.pull n live log with
    | none => none
    | some ⟨.ended _, log⟩ => some ⟨count, log⟩
    | some ⟨.parse _ _ s, log⟩ => s.count n live (count + 1) log

end

end EveryParse
