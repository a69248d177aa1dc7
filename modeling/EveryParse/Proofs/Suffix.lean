import EveryParse.Proofs.Course
import EveryParse.Proofs.Pulls

/-!
Remainders. Main statement: what a parse leaves is a suffix of the input, and the tokens that it has
consumed and those that it leaves are the tokens of the input.
-/

namespace EveryParse

variable {τ : Type} {α : Type} {Γ : List Type}

namespace Input

structure IsSuffixOf (rest input : Input τ) : Prop where
  buffer : rest.buffer = input.buffer
  starts : input.offset ≤ rest.offset
  ends : rest.offset ≤ rest.buffer.tokens.size

def Inside (input : Input τ) : Prop :=
  input.offset ≤ input.buffer.tokens.size

theorem Inside.isSuffixOf_self {input : Input τ} (inside : input.Inside) :
    input.IsSuffixOf input :=
  ⟨rfl, Nat.le_refl _, inside⟩

theorem IsSuffixOf.inside {rest input : Input τ} (suffix : rest.IsSuffixOf input) : rest.Inside :=
  suffix.ends

theorem IsSuffixOf.trans {last rest input : Input τ} (second : last.IsSuffixOf rest)
    (first : rest.IsSuffixOf input) : last.IsSuffixOf input :=
  ⟨second.buffer.trans first.buffer, Nat.le_trans first.starts second.starts, second.ends⟩

theorem splitFirst_isSuffixOf {input rest : Input τ} {token : τ}
    (split : input.splitFirst = some (token, rest)) : rest.IsSuffixOf input := by
  simp only [splitFirst, Option.map_eq_some_iff, Prod.mk.injEq] at split
  obtain ⟨_, found, _, rfl⟩ := split
  have bound : input.offset < input.buffer.tokens.size := by
    rw [Array.getElem?_eq_some_iff] at found
    exact found.1
  exact ⟨rfl, Nat.le_succ _, bound⟩

theorem consumed_of_isSuffixOf {rest input : Input τ} (suffix : rest.IsSuffixOf input) :
    ∃ tokens, input.consumed rest = .ok tokens ∧ tokens ++ rest.remaining = input.remaining := by
  refine ⟨(input.buffer.tokens.toList.take rest.offset).drop input.offset, ?_, ?_⟩
  · have ordered : ¬rest.offset < input.offset := Nat.not_lt.mpr suffix.starts
    simp [consumed, suffix.buffer, ordered]
  · have reached : input.offset + (rest.offset - input.offset) = rest.offset := by
      have starts := suffix.starts
      omega
    have left : rest.remaining = input.remaining.drop (rest.offset - input.offset) := by
      simp [remaining, suffix.buffer, List.drop_drop, reached]
    rw [left, List.drop_take]
    exact List.take_append_drop _ _

end Input

/-! Parsers from outside that give suffixes, alone or as parts of other parsers. -/

/-- Every parser from outside among the parts gives suffixes of its input. Of a probed parser only
the number of parses matters. -/
def Parser.Honest {Γ : List Type} {α : Type} : Parser τ Γ α → Prop
  | result _ | fail | item | runs _ _ _ | ref _ => True
  | leaf parses => ∀ input index parse, input.Inside → parses input index = some parse →
      parse.2.IsSuffixOf input
  | bind p _ f => p.Honest ∧ ∀ v, (f v).Honest
  | mapM _ p | filterM _ p | tap _ p | noted _ p => p.Honest
  | or p q | share p q | alone p q => p.Honest ∧ q.Honest
  | recursive _ body => body.Honest
  | probe _ _ next => ∀ found, (next found).Honest

def Scope.Honest {Γ : List Type} : Scope τ Γ → Prop
  | empty => True
  | share p ρ => p.Honest ∧ ρ.Honest
  | handle _ body ρ => body.Honest ∧ ρ.Honest
  | pending ρ => ρ.Honest
  | link σ p ρ => (σ.Honest ∧ p.Honest) ∧ ρ.Honest

def Closure.Honest (c : Closure τ α) : Prop :=
  c.scope.Honest ∧ c.parser.Honest

def Parses.Within (input : Input τ) {α : Type} : Parses τ α → Prop
  | listed parses => ∀ parse ∈ parses, parse.2.IsSuffixOf input
  | drawn parses _ => ∀ index parse, parses index = some parse → parse.2.IsSuffixOf input
  | mapped _ s | filtered _ s | chosen s | tapped _ _ s | anchored _ _ _ s => s.Within input
  | choosing s ρ q again =>
    s.Within input ∧ (ρ.Honest ∧ q.Honest) ∧ again.IsSuffixOf input
  | nested ρ f outer inner =>
    (ρ.Honest ∧ ∀ v, (f v).Honest) ∧ outer.Within input ∧ inner.Within input

def Answer.Within (input : Input τ) : Answer τ α → Prop
  | .parse _ rest s => rest.IsSuffixOf input ∧ s.Within input
  | .ended s => s.Within input

theorem Parses.Within.trans {s : Parses τ α} {rest input : Input τ} (within : s.Within rest)
    (suffix : rest.IsSuffixOf input) : s.Within input := by
  induction s with
  | listed parses => exact fun parse member => (within parse member).trans suffix
  | drawn parses index => exact fun index parse found => (within index parse found).trans suffix
  | mapped g s ih | filtered keep s ih | chosen s ih | tapped label ended s ih
  | anchored ρ name body s ih => exact ih within
  | choosing s ρ q again ih =>
      exact ⟨ih within.1, within.2.1, within.2.2.trans suffix⟩
  | nested ρ f outer inner ihOuter ihInner =>
      exact ⟨within.1, ihOuter within.2.1, ihInner within.2.2⟩

theorem Parses.empty_within (input : Input τ) : (Parses.empty : Parses τ α).Within input := by
  simp [Parses.empty, Parses.Within]

theorem Scope.Honest.get {ρ : Scope τ Γ} (honest : ρ.Honest) (x : Var Γ α) :
    match ρ.get x with
    | .parser σ p => σ.Honest ∧ p.Honest
    | .handle _ body σ => body.Honest ∧ σ.Honest
    | .nothing => True := by
  induction x with
  | here =>
      cases ρ with
      | share p ρ => exact honest.symm
      | handle name body ρ => exact honest
      | pending ρ => trivial
      | link σ p ρ => exact honest.1
  | there x ih =>
      cases ρ with
      | share p ρ => exact ih honest.2
      | handle name body ρ => exact ih honest.2
      | pending ρ => exact ih honest
      | link σ p ρ => exact ih honest.2

theorem Scope.Honest.captured {Δ : List Type} {ρ : Scope τ Γ} (honest : ρ.Honest)
    (captures : Captures Γ Δ) : (ρ.captured captures).Honest := by
  induction captures with
  | all => exact honest
  | none => trivial
  | also x others ih => exact ⟨⟨honest, trivial⟩, ih⟩

/-! Honest parsers read forward only. -/

def readsForward (τ : Type) : Contract τ where
  call _ _ := True
  ask _ _ := True
  result
    | .build _ p, built => p.Honest → built.value.Honest
    | .invoke ρ p input, opened =>
      ρ.Honest → p.Honest → input.Inside → opened.value.Within input
    | .pull s, answer => ∀ input, s.Within input → answer.value.Within input
    | .count _ _, _ => True

theorem readsForward_build (live : Owners) (ρ : Scope τ Γ) (p : Parser τ Γ α) (log : List Event) :
    ((Task.build ρ p).course log).Meets (readsForward τ) live
      ((readsForward τ).result (.build ρ p)) := by
  cases p with
  | result v | fail | item | leaf parses | runs x stop extend | ref x => exact id
  | bind p captures f => exact ⟨trivial, fun _ builds honest => ⟨builds honest.1, honest.2⟩⟩
  | mapM g p | filterM keep p | tap label p | noted events p | recursive name body =>
      exact ⟨trivial, fun _ builds honest => builds honest⟩
  | or p q | share p q | alone p q =>
      exact ⟨trivial, fun _ builds => ⟨trivial, fun _ builds' honest =>
        ⟨builds honest.1, builds' honest.2⟩⟩⟩
  | probe p input next =>
      refine ⟨trivial, fun _ _ => ⟨trivial, fun _ _ => ⟨trivial, fun found _ => ?_⟩⟩⟩
      exact ⟨trivial, fun _ builds honest => builds (honest found.value)⟩

theorem readsForward_invoke (live : Owners) (ρ : Scope τ Γ) (p : Parser τ Γ α) (input : Input τ)
    (log : List Event) :
    ((Task.invoke ρ p input).course log).Meets (readsForward τ) live
      ((readsForward τ).result (.invoke ρ p input)) := by
  cases p with
  | result v =>
      intro _ _ inside
      simpa [Parses.Within] using inside.isSuffixOf_self
  | fail => exact fun _ _ _ => Parses.empty_within input
  | item =>
      intro _ _ _ parse found
      exact Input.splitFirst_isSuffixOf (Option.mem_toList.mp found)
  | leaf parses =>
      intro _ honest inside index parse found
      exact honest input index parse inside found
  | bind p captures f =>
      exact ⟨trivial, fun _ opens scope honest inside =>
        ⟨⟨scope.captured captures, honest.2⟩, opens scope honest.1 inside,
          Parses.empty_within input⟩⟩
  | mapM g p | filterM keep p | tap label p | noted events p =>
      exact ⟨trivial, fun _ opens scope honest inside => opens scope honest inside⟩
  | or p q =>
      exact ⟨trivial, fun _ opens scope honest inside =>
        ⟨opens scope honest.1 inside, ⟨scope, honest.2⟩, inside.isSuffixOf_self⟩⟩
  | runs x stop extend =>
      refine ⟨trivial, fun _ opens scope _ inside => opens scope ?_ inside⟩
      simp [Parser.unrolled, Parser.map, Parser.Honest]
  | recursive name body =>
      exact ⟨trivial, fun _ opens scope honest inside => opens ⟨honest, scope⟩ honest inside⟩
  | share p q =>
      exact ⟨trivial, fun _ opens scope honest inside => opens ⟨honest.1, scope⟩ honest.2 inside⟩
  | alone p q =>
      exact ⟨trivial, fun _ opens scope honest inside =>
        opens ⟨⟨scope, honest.1⟩, trivial⟩ honest.2 inside⟩
  | ref x =>
      have stands (honest : ρ.Honest) := honest.get x
      simp only [Task.course]
      cases found : ρ.get x with
      | parser σ p =>
          rw [found] at stands
          exact ⟨trivial, fun _ opens scope _ inside =>
            opens (stands scope).1 (stands scope).2 inside⟩
      | handle name body σ =>
          rw [found] at stands
          refine ⟨trivial, fun _ => ⟨trivial, fun _ opens scope _ inside => ?_⟩,
            fun _ _ _ _ => Parses.empty_within input⟩
          exact opens (stands scope).2 (stands scope).1 inside
      | nothing => exact fun _ _ _ => Parses.empty_within input
  | probe p probed next =>
      exact ⟨trivial, fun _ builds => ⟨trivial, fun _ opens scope honest inside =>
        opens scope (builds honest) inside⟩⟩

theorem readsForward_pull (live : Owners) (s : Parses τ α) (log : List Event) :
    ((Task.pull s).course log).Meets (readsForward τ) live ((readsForward τ).result (.pull s)) := by
  cases s with
  | listed parses =>
      cases parses with
      | nil => exact fun input _ => Parses.empty_within input
      | cons parse parses =>
          exact fun input within => List.forall_mem_cons.mp within
  | drawn parses index =>
      simp only [Task.course]
      cases found : parses index with
      | none => exact fun input _ => Parses.empty_within input
      | some parse => exact fun input within => ⟨within index parse found, within⟩
  | mapped g s | tapped label ended s | anchored ρ name body s =>
      refine ⟨trivial, ?_⟩
      rintro ⟨_ | _, _⟩ answers input within <;> exact answers input within
  | filtered keep s =>
      refine ⟨trivial, ?_⟩
      rintro ⟨⟨v, rest, s⟩ | s, log⟩ answers
      · dsimp only
        split
        · exact fun input within => answers input within
        · exact ⟨trivial, fun _ later input within => later input (answers input within).2⟩
      · exact fun input within => answers input within
  | choosing s ρ q again =>
      refine ⟨trivial, ?_⟩
      rintro ⟨⟨v, rest, s⟩ | s, log⟩ answers
      · exact fun input within =>
          ⟨(answers input within.1).1, (answers input within.1).2, within.2⟩
      · refine ⟨trivial, fun _ opens => ⟨trivial, fun _ later input within => later input ?_⟩⟩
        obtain ⟨_, ⟨scope, honest⟩, suffix⟩ := within
        exact (opens scope honest suffix.inside).trans suffix
  | chosen s =>
      refine ⟨trivial, ?_⟩
      rintro ⟨⟨v, rest, s⟩ | s, log⟩ answers
      · exact fun input within => answers input within
      · exact fun input _ => Parses.empty_within input
  | nested ρ f outer inner =>
      refine ⟨trivial, ?_⟩
      rintro ⟨⟨v, rest, inner⟩ | inner, log⟩ answers
      · exact fun input within => ⟨(answers input within.2.2).1, within.1, within.2.1,
          (answers input within.2.2).2⟩
      · refine ⟨trivial, ?_⟩
        rintro ⟨⟨v, rest, outer⟩ | outer, log⟩ answersOuter
        · refine ⟨trivial, fun _ builds => ⟨trivial, fun _ opens => ⟨trivial, fun _ later => ?_⟩⟩⟩
          intro input within
          obtain ⟨⟨scope, honest⟩, withinOuter, _⟩ := within
          obtain ⟨suffix, outerLeft⟩ := answersOuter input withinOuter
          have innerLeft := opens scope (builds (honest v)) suffix.inside
          exact later input ⟨⟨scope, honest⟩, outerLeft, innerLeft.trans suffix⟩
        · exact fun input _ => Parses.empty_within input

theorem readsForward_upheld : (readsForward τ).Upheld := by
  intro live task log _
  cases task with
  | build ρ p => exact readsForward_build live ρ p log
  | invoke ρ p input => exact readsForward_invoke live ρ p input log
  | pull s => exact readsForward_pull live s log
  | count s found =>
      refine ⟨trivial, ?_⟩
      rintro ⟨_ | _, _⟩ _
      · exact ⟨trivial, fun _ _ => trivial⟩
      · trivial

theorem Answer.Within.next {input : Input τ} {answer : Answer τ α} (within : answer.Within input) :
    answer.next.Within input := by
  cases answer with
  | parse v rest s => exact within.2
  | ended s => exact within

theorem Parses.Within.pull {input : Input τ} {s : Parses τ α} (within : s.Within input)
    {fuel : Nat} {live : Owners} {log : List Event} {answer : Outcome (Answer τ α)}
    (ran : s.pull fuel live log = some answer) : answer.value.Within input := by
  rw [(carried fuel).pull] at ran
  exact readsForward_upheld.result_of_run trivial ran input within

theorem Closure.Opened.within {c : Closure τ α} (honest : c.Honest) {input : Input τ}
    (inside : input.Inside) {s : Parses τ α} (opened : c.Opened input s) : s.Within input := by
  induction opened with
  | @invoked fuel _ _ _ ran =>
      rw [(carried fuel).invoke] at ran
      exact readsForward_upheld.result_of_run trivial ran honest.1 honest.2 inside
  | pulled _ ran ih => exact (ih.pull ran).next

theorem Closure.Gives.isSuffixOf {c : Closure τ α} (honest : c.Honest) {input : Input τ}
    (inside : input.Inside) {v : α} {rest : Input τ} (gives : c.Gives input v rest) :
    rest.IsSuffixOf input := by
  obtain ⟨s, _, _, _, _, _, opened, ran⟩ := gives
  exact ((opened.within honest inside).pull ran).1

/-- What a parse leaves is a suffix of the input, and what it has consumed stands before it; so it
does in the text of characters. -/
theorem remainder_suffix :
    (∀ {τ α : Type} {c : Closure τ α} {input rest : Input τ} {v : α}, c.Honest → input.Inside →
      c.Gives input v rest →
        (rest.buffer = input.buffer ∧ input.offset ≤ rest.offset ∧
          rest.offset ≤ input.buffer.tokens.size) ∧
        ∃ tokens, input.consumed rest = .ok tokens ∧
          tokens ++ rest.remaining = input.remaining) ∧
    ∀ {α : Type} {c : Closure Char α} {input rest : Input Char} {v : α}, c.Honest →
      input.Inside → c.Gives input v rest →
        ∃ tokens, input.consumed rest = .ok tokens ∧
          String.ofList tokens ++ rest.text = input.text := by
  constructor
  · intro τ α c input rest v honest inside gives
    have suffix := gives.isSuffixOf honest inside
    have ends : rest.offset ≤ input.buffer.tokens.size := suffix.buffer ▸ suffix.ends
    exact ⟨⟨suffix.buffer, suffix.starts, ends⟩, Input.consumed_of_isSuffixOf suffix⟩
  · intro α c input rest v honest inside gives
    obtain ⟨tokens, consumed, split⟩ :=
      Input.consumed_of_isSuffixOf (gives.isSuffixOf honest inside)
    refine ⟨tokens, consumed, ?_⟩
    rw [Input.text, Input.text, ← String.ofList_append, split]

def digits : Parser Char [] (List Char) :=
  .bind (Parser.sat Char.isDigit).many .none fun digits =>
    .leaf fun input index => if index = 0 then some (digits, input) else none

theorem digits_remainder_suffix :
    let c : Closure Char (List Char) := ⟨.empty, digits⟩
    let buffer : Buffer Char := ⟨0, #['1', '2', 'x']⟩
    let input : Input Char := ⟨buffer, 0⟩
    let rest : Input Char := ⟨buffer, 2⟩
    (c.Honest ∧ input.Inside ∧ c.Gives input ['1', '2'] rest) ∧
      ((rest.buffer = input.buffer ∧ input.offset ≤ rest.offset ∧
          rest.offset ≤ input.buffer.tokens.size) ∧
        ∃ tokens, input.consumed rest = .ok tokens ∧
          tokens ++ rest.remaining = input.remaining) ∧
      ∃ tokens, input.consumed rest = .ok tokens ∧
        String.ofList tokens ++ rest.text = input.text := by
  intro c buffer input rest
  have honest : c.Honest := by
    refine ⟨trivial, ?_, fun digits input index parse inside found => ?_⟩
    · simp [Parser.many, Parser.map, Parser.sat, Parser.filter, Parser.Honest]
    · obtain ⟨_, same⟩ := Option.ite_none_right_eq_some.mp found
      cases same
      exact inside.isSuffixOf_self
  have inside : input.Inside := Nat.zero_le _
  have opened : c.Opened input _ :=
    .invoked (show c.parser.invoke 20 .nobody c.scope input [] = some _ from rfl)
  have gives : c.Gives input ['1', '2'] rest :=
    ⟨_, 20, .nobody, [], _, [], opened, rfl⟩
  exact ⟨⟨honest, inside, gives⟩, remainder_suffix.1 honest inside gives,
    remainder_suffix.2 honest inside gives⟩

end EveryParse
