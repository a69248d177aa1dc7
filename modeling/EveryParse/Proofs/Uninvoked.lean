import EveryParse.Proofs.Contexts
import EveryParse.Proofs.Knot

/-!
Parsers that are built and never invoked. That a position of a context is not invoked is seen of the
parser tapped there. Main statement: while the whole is invoked and pulled some times, a parser that
is not invoked has no influence on what is seen, and any other one could stand there.
-/

namespace EveryParse

variable {τ ι : Type} {Δ : List Type} {α β : Type} {Γ : List Type} {filling : Filling τ ι Δ β}

/-- The tapped parser stands for itself, and `other` is put in its place. -/
def Filling.tapped (label : String) (q other : ι → Parser τ Δ β) : Filling τ ι Δ β where
  first i := .tap label (q i)
  second := other

section Tapped

variable {label : String} {q other : ι → Parser τ Δ β}

theorem Parser.Inert.tap {q : Parser τ Γ α} (inert : q.Inert) (label : String) :
    (Parser.tap label q).Inert :=
  fun ρ log => Task.comes ⟨_, inert ρ log, rfl⟩

theorem not_quiet_of_tap {ρ : Scope τ Γ} {q : Parser τ Γ α} {input : Input τ} {log : List Event}
    {opened : Outcome (Parses τ α)}
    (invoked : (Task.invoke ρ (.tap label q) input).Comes log opened) :
    ¬Quiet label opened.log := by
  obtain ⟨inside, ⟨fuel, ran⟩, rfl⟩ := Task.comes_iff_course.mp invoked
  have grows := Task.run_grows ran
  exact fun quiet => quiet input.offset (grows.subset List.mem_cons_self)

theorem Filling.tapped_reproduces (label : String) (inert : ∀ i, (q i).Inert)
    (otherInert : ∀ i, (other i).Inert) (fuel : Nat) :
    (Filling.tapped label q other).pairing.Reproduces label fuel := by
  induction fuel with
  | zero =>
      intro pair log result ran
      simp [Task.run] at ran
  | succ fuel ih =>
      intro pair log result ran quiet
      cases pair with
      | @build Γ α ρ ρ' scopes c =>
          by_cases proper : c.Proper
          · exact ih.step (.build scopes c) (build_matches scopes proper log) ran quiet
          · cases c with
            | hole i =>
                obtain rfl := Task.Comes.unique ⟨_, ran⟩ ((inert i).tap label ρ log)
                exact ⟨_, otherInert i ρ' log, .built (.hole i) log⟩
            | _ => exact absurd trivial proper
      | @invoke Γ α ρ ρ' scopes c input =>
          by_cases proper : c.Proper
          · exact ih.step (.invoke scopes c input)
              (invoke_matches scopes proper input log) ran quiet
          · cases c with
            | hole i => exact absurd quiet (not_quiet_of_tap ⟨_, ran⟩)
            | _ => exact absurd trivial proper
      | pull same => exact ih.step (.pull same) (pull_matches same log) ran quiet
      | count same found =>
          exact ih.step (.count same found) (count_matches same found log) ran quiet

end Tapped

theorem Quiet.of_reverse {label : String} {log events : List Event}
    (quiet : ∀ offset, .run label offset ∉ events) (part : log.reverse ⊆ events) :
    Quiet label log :=
  fun offset member => quiet offset (part (List.mem_reverse.mpr member))

theorem Filling.Sequences.shows {label : String}
    (reproduces : ∀ fuel, filling.pairing.Reproduces label fuel) {s s' : Parses τ α}
    (same : filling.Sequences s s') {lives : List Owners}
    {found : List (Option (α × Input τ) × List Event)}
    (shows : s.Shows (lives.map fun _ => .everybody) found)
    (quiet : ∀ offset, .run label offset ∉ found.flatMap Prod.snd) :
    s'.Shows (lives.map fun _ => .everybody) found := by
  induction lives generalizing s s' found with
  | nil => exact Parses.shows_nil.mpr (Parses.shows_nil.mp shows)
  | cons live lives ih =>
      obtain ⟨answer, later, ⟨fuel, ran⟩, showsLater, rfl⟩ := Parses.shows_cons.mp shows
      rw [List.flatMap_cons] at quiet
      have quietNow : Quiet label answer.log :=
        .of_reverse quiet (List.subset_append_left _ _)
      obtain ⟨answer', pulled, answers⟩ := reproduces fuel (.pull same) [] answer ran quietNow
      have showsLater := ih answers.next showsLater fun offset member =>
        quiet offset (List.mem_append_right _ member)
      refine Parses.shows_cons.mpr ⟨answer', _, pulled, showsLater, ?_⟩
      rw [answers.found.1, answers.found.2]

/-- While the whole is invoked and pulled once for each of `lives`, no parser at a position is
invoked: when it is tapped, no run of it is seen. -/
def Context.LeavesAlone (c : Context τ ι Δ β Γ α) (q : ι → Parser τ Δ β) (ρ : Scope τ Γ)
    (input : Input τ) (live : Owners) (lives : List Owners) : Prop :=
  ∃ label seen, (c.fill fun i => .tap label (q i)).Shows ρ input live lives seen ∧
    ∀ offset, .run label offset ∉ seen.events

/-- Whatever else stands at the positions, a parser that never comes to an end or one that refers to
the definitions around it, the same parses are found with the same events. To build what stands
there, nothing has to be run. -/
theorem uninvoked_has_no_influence {ρ : Scope τ Γ} {kept : Definition τ → Prop}
    {building : AnyScope τ → Prop} (sound : ρ.Sound kept building) {live : Owners}
    (cover : live.Cover kept) {lives : List Owners} (covers : ∀ later ∈ lives, later.Cover kept)
    {c : Context τ ι Δ β Γ α} {q : ι → Parser τ Δ β} (inert : ∀ i, (q i).Inert) {input : Input τ}
    (uninvoked : c.LeavesAlone q ρ input live lives) {seen : Observation τ α}
    (shows : (c.fill q).Shows ρ input live lives seen) {other : ι → Parser τ Δ β}
    (otherInert : ∀ i, (other i).Inert) : (c.fill other).Shows ρ input live lives seen := by
  obtain ⟨label, seen', tapped, quiet⟩ := uninvoked
  have replaced {other : ι → Parser τ Δ β} (otherInert : ∀ i, (other i).Inert) :
      (c.fill other).Shows ρ input live lives seen' := by
    have reproduces := Filling.tapped_reproduces label inert otherInert
    rw [sound.shows_everybody _ input cover covers] at tapped ⊢
    obtain ⟨opened, ⟨fuel, ran⟩, shows, same⟩ := Parser.shows_iff.mp tapped
    have quietNow : Quiet label opened.log :=
      .of_reverse quiet (same ▸ List.subset_append_left _ _)
    obtain ⟨opened', invoked, @⟨s, s', sequences, log⟩⟩ :=
      reproduces fuel (.invoke (.refl ρ) c input) [] opened ran quietNow
    have later := sequences.shows reproduces shows fun offset member =>
      quiet offset (List.mem_append_right _ member)
    exact Parser.shows_iff.mpr ⟨_, invoked, later, same⟩
  cases shows.unique (replaced inert)
  exact replaced otherInert

def characters : Context Char Char [Char] Char [] Char :=
  .recursive (.site []) (.bind (.tap "character" .item) .all fun v => .or (.result v) (.hole v))

theorem characters_left_alone :
    let q (_ : Char) : Parser Char [Char] Char := .ref .here
    let other (v : Char) : Parser Char [Char] Char :=
      .or (.bind (.ref .here) .none fun _ => .result v) (.recursive (.site [0]) (.ref .here))
    let ρ : Scope Char [] := .empty
    let input : Input Char := ⟨⟨0, #['a', 'b']⟩, 0⟩
    let seen : Observation Char Char :=
      ⟨[.run "character" 0], [(some ('a', input.advance 1), [.yield "character" 1])]⟩
    ρ.Closed ∧ (∀ v, (q v).Inert) ∧ characters.LeavesAlone q ρ input .nobody [.nobody] ∧
      (characters.fill q).Shows ρ input .nobody [.nobody] seen ∧ (∀ v, (other v).Inert) ∧
      (characters.fill other).Shows ρ input .nobody [.nobody] seen := by
  intro q other ρ input seen
  have closed : ρ.Closed := trivial
  have inert : ∀ v, (q v).Inert := fun _ _ _ => ⟨1, rfl⟩
  have otherInert : ∀ v, (other v).Inert := fun _ _ _ => ⟨3, rfl⟩
  have covers : ∀ later ∈ [Owners.nobody], later.Cover fun _ : Definition Char => False :=
    fun _ _ => Owners.cover_none _
  have uninvoked : characters.LeavesAlone q ρ input .nobody [.nobody] :=
    ⟨"again", seen, ⟨9, rfl⟩, by simp [Observation.events, seen]⟩
  have shows : (characters.fill q).Shows ρ input .nobody [.nobody] seen := ⟨9, rfl⟩
  exact ⟨closed, inert, uninvoked, shows, otherInert,
    uninvoked_has_no_influence closed (Owners.cover_none _) covers inert uninvoked shows otherInert⟩

end EveryParse
