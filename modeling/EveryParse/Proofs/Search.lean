import EveryParse.Proofs.Completion

/-!
Completing as a search. It pulls up to the first parse that leaves nothing, or to the end, and does
nothing else: the log is that of these pulls (`Parser.complete_iff_seen`), and a tap shows each of
them (`Parser.searchedTo_tap`).
-/

namespace EveryParse

variable {τ α : Type} {Γ : List Type}

inductive Parses.Searches (live : Owners) :
    Parses τ α → List Event → Outcome (Option α) → Prop
  | ended {s log left log'} (pulled : (Task.pull s).Returns live log ⟨.ended left, log'⟩) :
      Searches live s log ⟨none, log'⟩
  | hit {s log v rest left log'}
      (pulled : (Task.pull s).Returns live log ⟨.parse v rest left, log'⟩)
      (whole : rest.isEmpty = true) : Searches live s log ⟨some v, log'⟩
  | passed {s log v rest left log' found}
      (pulled : (Task.pull s).Returns live log ⟨.parse v rest left, log'⟩)
      (partly : rest.isEmpty = false) (later : Searches live left log' found) :
      Searches live s log found

section Searches

variable {live : Owners} {s s' : Parses τ α} {log log' : List Event} {found : Outcome (Option α)}

theorem Parses.searches_iff :
    s.Searches live log found ↔ ∃ fuel, s.firstComplete fuel live log = some found := by
  constructor
  · intro searches
    induction searches with
    | ended pulled =>
        obtain ⟨fuel, ran⟩ := pulled
        rw [← (carried fuel).pull] at ran
        exact ⟨fuel + 1, by simp [firstComplete, ran]⟩
    | hit pulled whole =>
        obtain ⟨fuel, ran⟩ := pulled
        rw [← (carried fuel).pull] at ran
        exact ⟨fuel + 1, by simp [firstComplete, ran, whole]⟩
    | passed pulled partly _ ih =>
        obtain ⟨fuel, ran⟩ := pulled
        obtain ⟨fuel', searched⟩ := ih
        rw [← (carried fuel).pull] at ran
        have pulled := Parses.pull_mono (Nat.le_max_left fuel fuel') ran
        have searched := Parses.firstComplete_mono (Nat.le_max_right fuel fuel') searched
        exact ⟨max fuel fuel' + 1, by simp [firstComplete, pulled, partly, searched]⟩
  · rintro ⟨fuel, ran⟩
    induction fuel generalizing s log with
    | zero => simp [firstComplete] at ran
    | succ fuel ih =>
        simp only [firstComplete, (carried fuel).pull] at ran
        cases pulled : (Task.pull s).run fuel live log with
        | none => simp [pulled] at ran
        | some answer =>
            rw [pulled] at ran
            obtain ⟨⟨v, rest, left⟩ | left, log'⟩ := answer
            · cases whole : rest.isEmpty with
              | true =>
                  simp only [whole, if_true, Option.some.injEq] at ran
                  exact ran ▸ .hit ⟨fuel, pulled⟩ whole
              | false =>
                  simp only [whole, Bool.false_eq_true, if_false] at ran
                  exact .passed ⟨fuel, pulled⟩ whole (ih ran)
            · cases ran
              exact .ended ⟨fuel, pulled⟩

theorem Parses.Searches.unique {found' : Outcome (Option α)} (first : s.Searches live log found)
    (second : s.Searches live log found') : found = found' := by
  obtain ⟨fuel, ran⟩ := searches_iff.mp first
  obtain ⟨fuel', ran'⟩ := searches_iff.mp second
  have one := firstComplete_mono (Nat.le_max_left fuel fuel') ran
  rw [firstComplete_mono (Nat.le_max_right fuel fuel') ran'] at one
  exact (Option.some.inj one).symm

theorem Parses.Searches.at_any_log (searches : s.Searches live log found) (log' : List Event) :
    ∃ log'', s.Searches live log' ⟨found.value, log''⟩ := by
  induction searches generalizing log' with
  | ended pulled =>
      obtain ⟨log'', pulled⟩ := pull_at_any_log pulled log'
      exact ⟨log'', .ended pulled⟩
  | hit pulled whole =>
      obtain ⟨log'', pulled⟩ := pull_at_any_log pulled log'
      exact ⟨log'', .hit pulled whole⟩
  | passed pulled partly _ ih =>
      obtain ⟨log'', pulled⟩ := pull_at_any_log pulled log'
      obtain ⟨last, later⟩ := ih log''
      exact ⟨last, .passed pulled partly later⟩

theorem Parses.Searches.transfer
    (same : ∀ reply, (Task.pull s').Returns live log' reply → (Task.pull s).Returns live log reply)
    (searches : s'.Searches live log' found) : s.Searches live log found := by
  cases searches with
  | ended pulled => exact .ended (same _ pulled)
  | hit pulled whole => exact .hit (same _ pulled) whole
  | passed pulled partly later => exact .passed (same _ pulled) partly later

end Searches

theorem Parser.complete_iff {ρ : Scope τ Γ} {p : Parser τ Γ α} {live : Owners} {input : Input τ}
    {result : Except Incomplete α} {log : List Event} :
    (∃ fuel, p.complete fuel live ρ input [] = some ⟨result, log⟩) ↔
      ∃ opened found, (Task.invoke ρ p input).Returns live [] opened ∧
        opened.value.Searches live opened.log ⟨found, log⟩ ∧
        completion input found.toList = result := by
  simp only [Parser.complete, Option.bind_eq_some_iff, Option.map_eq_some_iff,
    (carried _).invoke, Parses.searches_iff]
  constructor
  · rintro ⟨fuel, opened, invoked, ⟨found, log'⟩, searched, same⟩
    cases same
    refine ⟨opened, found, ⟨fuel, invoked⟩, ⟨fuel, searched⟩, ?_⟩
    cases found <;> rfl
  · rintro ⟨opened, found, ⟨fuel, invoked⟩, ⟨fuel', searched⟩, rfl⟩
    refine ⟨max fuel fuel', opened, Task.run_mono (Nat.le_max_left _ _) invoked, ⟨found, log⟩,
      Parses.firstComplete_mono (Nat.le_max_right _ _) searched, ?_⟩
    cases found <;> rfl

/-- When parses are pulled up to the first one that leaves nothing, or to the end, `last` is what
the last pull finds and `seen` what is seen of them all. -/
structure Parser.SearchedTo (ρ : Scope τ Γ) (p : Parser τ Γ α) (input : Input τ) (live : Owners)
    (last : Option (α × Input τ)) (seen : Observation τ α) : Prop where
  shows : p.Shows ρ input live (List.replicate seen.pulls.length live) seen
  stops : ∃ passed : List (α × Input τ), seen.answers = passed.map some ++ [last] ∧
    ∀ parse ∈ passed, parse.2.isEmpty = false
  whole : ∀ parse ∈ last, parse.2.isEmpty = true

/-- Pulling finds parses that leave something, and in the last pull `last`. -/
inductive Parses.Seeks (live : Owners) :
    Parses τ α → List (Option (α × Input τ) × List Event) → Option (α × Input τ) → Prop
  | last {s answer} (pulled : (Task.pull s).Returns live [] answer) :
      Seeks live s [(answer.value.found, answer.log.reverse)] answer.value.found
  | passed {s v rest left log pulls last}
      (pulled : (Task.pull s).Returns live [] ⟨.parse v rest left, log⟩)
      (partly : rest.isEmpty = false) (later : Seeks live left pulls last) :
      Seeks live s ((some (v, rest), log.reverse) :: pulls) last

section Seen

variable {live : Owners} {s : Parses τ α} {last : Option (α × Input τ)}

theorem Parses.seeks_iff_shows {pulls : List (Option (α × Input τ) × List Event)} :
    s.Seeks live pulls last ↔ s.Shows (List.replicate pulls.length live) pulls ∧
      ∃ passed : List (α × Input τ), pulls.map Prod.fst = passed.map some ++ [last] ∧
        ∀ parse ∈ passed, parse.2.isEmpty = false := by
  constructor
  · intro seeks
    induction seeks with
    | @last s answer pulled =>
        refine ⟨?_, [], rfl, fun _ member => absurd member List.not_mem_nil⟩
        exact Parses.shows_cons.mpr ⟨answer, [], pulled, Parses.shows_nil.mpr rfl, rfl⟩
    | @passed s v rest left log pulls last pulled partly _ ih =>
        obtain ⟨shows, passed, answers, others⟩ := ih
        refine ⟨Parses.shows_cons.mpr ⟨_, pulls, pulled, shows, rfl⟩, (v, rest) :: passed, ?_, ?_⟩
        · simp [answers]
        · simpa [partly] using others
  · rintro ⟨shows, passed, answers, others⟩
    induction passed generalizing s pulls with
    | nil =>
        have one : pulls.length = 1 := by simpa using congrArg List.length answers
        obtain ⟨⟨_, events⟩, rfl⟩ := List.length_eq_one_iff.mp one
        obtain ⟨answer, later, pulled, shows, same⟩ := Parses.shows_cons.mp shows
        cases answers
        cases same
        exact .last pulled
    | cons parse passed ih =>
        obtain _ | ⟨⟨_, events⟩, pulls⟩ := pulls
        · cases answers
        obtain ⟨⟨answer, log⟩, later, pulled, shows, same⟩ := Parses.shows_cons.mp shows
        simp only [List.map_cons, List.cons_append, List.cons.injEq] at answers
        obtain ⟨rfl, answers⟩ := answers
        rw [List.forall_mem_cons] at others
        obtain ⟨v, rest, left⟩ | left := answer
        · cases same
          exact .passed pulled others.1 (ih shows answers others.2)
        · cases same

theorem Parses.searches_iff_seeks {log : List Event} {found : Outcome (Option α)} :
    s.Searches live log found ↔ ∃ last pulls, s.Seeks live pulls last ∧
      (∀ parse ∈ last, parse.2.isEmpty = true) ∧
      ⟨last.map Prod.fst, (pulls.flatMap Prod.snd).reverse ++ log⟩ = found := by
  constructor
  · intro searches
    induction searches with
    | ended pulled =>
        obtain ⟨⟨answer, own⟩, alone, same⟩ := Task.returns_iff_atop.mp pulled
        cases same
        exact ⟨_, _, .last alone, by simp [Answer.found], by simp [Answer.found]⟩
    | hit pulled whole =>
        obtain ⟨⟨answer, own⟩, alone, same⟩ := Task.returns_iff_atop.mp pulled
        cases same
        exact ⟨_, _, .last alone, by simpa [Answer.found] using whole, by simp [Answer.found]⟩
    | passed pulled partly _ ih =>
        obtain ⟨⟨answer, own⟩, alone, same⟩ := Task.returns_iff_atop.mp pulled
        cases same
        obtain ⟨last, pulls, seeks, whole, rfl⟩ := ih
        exact ⟨last, _, .passed alone partly seeks, whole, by simp⟩
  · rintro ⟨last, pulls, seeks, whole, rfl⟩
    induction seeks generalizing log with
    | @last s answer pulled =>
        have pulled := pulled.from_log log
        obtain ⟨⟨v, rest, left⟩ | left, own⟩ := answer
        · simpa [Answer.found] using Searches.hit pulled (whole (v, rest) rfl)
        · simpa [Answer.found] using Searches.ended pulled
    | passed pulled partly _ ih =>
        simpa using Searches.passed (pulled.from_log log) partly (ih whole)

theorem Parser.searchedTo_iff {ρ : Scope τ Γ} {p : Parser τ Γ α} {input : Input τ}
    {seen : Observation τ α} :
    p.SearchedTo ρ input live last seen ↔
      ∃ opened, (Task.invoke ρ p input).Returns live [] opened ∧
        opened.value.Seeks live seen.pulls last ∧ (∀ parse ∈ last, parse.2.isEmpty = true) ∧
        opened.log.reverse = seen.invoked := by
  constructor
  · rintro ⟨shows, stops, whole⟩
    obtain ⟨opened, invoked, shows, events⟩ := Parser.shows_iff.mp shows
    exact ⟨opened, invoked, Parses.seeks_iff_shows.mpr ⟨shows, stops⟩, whole, events⟩
  · rintro ⟨opened, invoked, seeks, whole, events⟩
    obtain ⟨shows, stops⟩ := Parses.seeks_iff_shows.mp seeks
    exact ⟨Parser.shows_iff.mpr ⟨opened, invoked, shows, events⟩, stops, whole⟩

theorem Parser.complete_iff_seen {ρ : Scope τ Γ} {p : Parser τ Γ α} {input : Input τ}
    {result : Except Incomplete α} {log : List Event} :
    (∃ fuel, p.complete fuel live ρ input [] = some ⟨result, log⟩) ↔
      ∃ last seen, p.SearchedTo ρ input live last seen ∧
        completion input (last.map Prod.fst).toList = result ∧ log = seen.events.reverse := by
  simp only [complete_iff, Parses.searches_iff_seeks, searchedTo_iff]
  constructor
  · rintro ⟨opened, _, invoked, ⟨last, pulls, seeks, whole, same⟩, rfl⟩
    cases same
    refine ⟨last, ⟨_, pulls⟩, ⟨opened, invoked, seeks, whole, rfl⟩, rfl, ?_⟩
    simp [Observation.events]
  · rintro ⟨last, ⟨_, pulls⟩, ⟨opened, invoked, seeks, whole, rfl⟩, rfl, rfl⟩
    refine ⟨opened, _, invoked, ⟨last, pulls, seeks, whole, ?_⟩, rfl⟩
    simp [Observation.events]

end Seen

/-! Watching a search through a tap. -/

def Observation.tapPull (label : String) :
    Option (α × Input τ) × List Event → Option (α × Input τ) × List Event
  | (some (v, rest), events) => (some (v, rest), events ++ [.yield label rest.offset])
  | (none, events) => (none, events ++ [.ended label])

def Observation.tapped (label : String) (input : Input τ) (seen : Observation τ α) :
    Observation τ α :=
  ⟨.run label input.offset :: seen.invoked, seen.pulls.map (tapPull label)⟩

section Tapped

variable {label : String} {live : Owners} {s : Parses τ α}

inductive Taps (label : String) : Outcome (Answer τ α) → Outcome (Answer τ α) → Prop
  | parse {v rest left log} :
      Taps label ⟨.parse v rest left, log⟩
        ⟨.parse v rest (.tapped label false left), .yield label rest.offset :: log⟩
  | ended {left log} :
      Taps label ⟨.ended left, log⟩ ⟨.ended (.tapped label true left), .ended label :: log⟩

theorem pull_tapped_returns {log answer} :
    (Task.pull (.tapped label false s)).Returns live log answer ↔
      ∃ reply, (Task.pull s).Returns live log reply ∧ Taps label reply answer := by
  rw [Task.returns_iff_course]
  constructor
  · rintro ⟨⟨⟨v, rest, left⟩ | left, log'⟩, inside, rfl⟩
    · exact ⟨_, inside, .parse⟩
    · exact ⟨_, inside, .ended⟩
  · rintro ⟨reply, inside, taps⟩
    cases taps <;> exact ⟨_, inside, rfl⟩

theorem exists_taps (label : String) (reply : Outcome (Answer τ α)) :
    ∃ answer, Taps label reply answer := by
  obtain ⟨⟨v, rest, left⟩ | left, log⟩ := reply
  · exact ⟨_, .parse⟩
  · exact ⟨_, .ended⟩

theorem Taps.found {reply answer : Outcome (Answer τ α)} (taps : Taps label reply answer) :
    answer.value.found = reply.value.found := by
  cases taps <;> rfl

theorem Taps.seen {reply answer : Outcome (Answer τ α)} (taps : Taps label reply answer) :
    (answer.value.found, answer.log.reverse) =
      Observation.tapPull label (reply.value.found, reply.log.reverse) := by
  cases taps <;> simp [Answer.found, Observation.tapPull]

theorem Parses.tapped_seeks {pulls last} :
    (Parses.tapped label false s).Seeks live pulls last ↔
      ∃ inside, s.Seeks live inside last ∧ inside.map (Observation.tapPull label) = pulls := by
  constructor
  · intro seeks
    generalize same : Parses.tapped label false s = t at seeks
    induction seeks generalizing s with
    | last pulled =>
        subst same
        obtain ⟨reply, inside, taps⟩ := pull_tapped_returns.mp pulled
        refine ⟨[(reply.value.found, reply.log.reverse)], ?_, ?_⟩
        · rw [taps.found]
          exact .last inside
        · rw [List.map_singleton, taps.seen]
    | passed pulled partly _ ih =>
        subst same
        obtain ⟨reply, inside, taps⟩ := pull_tapped_returns.mp pulled
        cases taps
        obtain ⟨pulls, later, rfl⟩ := ih rfl
        exact ⟨_, .passed inside partly later, by simp [Observation.tapPull]⟩
  · rintro ⟨inside, seeks, rfl⟩
    induction seeks with
    | @last s answer pulled =>
        obtain ⟨_, taps⟩ := exists_taps label answer
        have tapped := Seeks.last (pull_tapped_returns.mpr ⟨_, pulled, taps⟩)
        rwa [taps.seen, taps.found] at tapped
    | passed pulled partly _ ih =>
        have tapped := Seeks.passed (pull_tapped_returns.mpr ⟨_, pulled, .parse⟩) partly ih
        simpa [Observation.tapPull] using tapped

theorem invoke_tap_returns {ρ : Scope τ Γ} {p : Parser τ Γ α} {input : Input τ} {opened} :
    (Task.invoke ρ (.tap label p) input).Returns live [] opened ↔
      ∃ inside, (Task.invoke ρ p input).Returns live [] inside ∧
        ⟨.tapped label false inside.value, inside.log ++ [.run label input.offset]⟩ = opened := by
  rw [Task.returns_iff_course]
  constructor
  · rintro ⟨_, logged, rfl⟩
    obtain ⟨inside, invoked, rfl⟩ := Task.returns_iff_atop.mp logged
    exact ⟨inside, invoked, rfl⟩
  · rintro ⟨inside, invoked, rfl⟩
    exact ⟨_, invoked.from_log _, rfl⟩

theorem Parser.searchedTo_tap {ρ : Scope τ Γ} {p : Parser τ Γ α} {input : Input τ}
    {last : Option (α × Input τ)} {seen : Observation τ α} :
    (Parser.tap label p).SearchedTo ρ input live last seen ↔
      ∃ inside, p.SearchedTo ρ input live last inside ∧ inside.tapped label input = seen := by
  obtain ⟨events, pulls⟩ := seen
  simp only [searchedTo_iff, invoke_tap_returns]
  constructor
  · rintro ⟨_, ⟨opened, invoked, rfl⟩, tapped, whole, rfl⟩
    obtain ⟨inside, seeks, rfl⟩ := Parses.tapped_seeks.mp tapped
    refine ⟨⟨_, inside⟩, ⟨opened, invoked, seeks, whole, rfl⟩, ?_⟩
    simp [Observation.tapped]
  · rintro ⟨⟨_, inside⟩, ⟨opened, invoked, seeks, whole, rfl⟩, same⟩
    cases same
    refine ⟨_, ⟨opened, invoked, rfl⟩, Parses.tapped_seeks.mpr ⟨_, seeks, rfl⟩, whole, ?_⟩
    simp

end Tapped

end EveryParse
