import EveryParse.Complete
import EveryParse.Proofs.Exhausts

/-!
Completing a parser whose parses come to an end. Main statements: it comes to the first of those
values whose parses leave nothing, or to the number of tokens that there were to read
(`Closure.completes_of_drains`), and to nothing else (`Closure.Completes.unique`).
-/

namespace EveryParse

variable {τ α : Type} {Γ : List Type}

def completed (parses : List (α × Input τ)) : List α :=
  (parses.filter fun parse => parse.2.isEmpty).map Prod.fst

theorem completed_cons (parse : α × Input τ) (parses : List (α × Input τ)) :
    completed (parse :: parses) =
      if parse.2.isEmpty then parse.1 :: completed parses else completed parses := by
  simp only [completed, List.filter_cons]
  split <;> rfl

theorem completed_append (parses others : List (α × Input τ)) :
    completed (parses ++ others) = completed parses ++ completed others := by
  simp [completed]

theorem completed_flatMap {β : Type} (parses : List (α × Input τ))
    (each : α × Input τ → List (β × Input τ)) :
    completed (parses.flatMap each) = parses.flatMap fun parse => completed (each parse) := by
  simp [completed, List.filter_flatMap, List.map_flatMap]

theorem completed_map {β : Type} (parses : List (α × Input τ)) (g : α → β) :
    completed (parses.map fun parse => (g parse.1, parse.2)) = (completed parses).map g := by
  simp [completed, List.filter_map, Function.comp_def]

theorem length_completed (parses : List (α × Input τ)) :
    (completed parses).length = parses.countP fun parse => parse.2.isEmpty := by
  rw [completed, List.length_map, List.countP_eq_length_filter]

/-- What completing comes to when these are the values to choose from. -/
def completion (input : Input τ) : List α → Except Incomplete α
  | [] => .error ⟨input.length⟩
  | v :: _ => .ok v

def Closure.Completes (c : Closure τ α) (live : Owners) (input : Input τ)
    (result : Except Incomplete α) : Prop :=
  ∃ fuel log, c.parser.complete fuel live c.scope input [] = some ⟨result, log⟩

theorem Parses.firstComplete_mono {fuel fuel' : Nat} (enough : fuel ≤ fuel') {live : Owners}
    {s : Parses τ α} {log : List Event} {found : Outcome (Option α)}
    (ran : s.firstComplete fuel live log = some found) :
    s.firstComplete fuel' live log = some found := by
  induction fuel generalizing fuel' s log with
  | zero => simp [firstComplete] at ran
  | succ fuel ih =>
      obtain ⟨fuel', rfl⟩ : ∃ more, fuel' = more + 1 := ⟨fuel' - 1, by omega⟩
      have further : fuel ≤ fuel' := by omega
      simp only [firstComplete] at ran ⊢
      cases pulled : s.pull fuel live log with
      | none => simp [pulled] at ran
      | some answer =>
          rw [pulled] at ran
          rw [Parses.pull_mono further pulled]
          obtain ⟨⟨v, rest, next⟩ | next, log'⟩ := answer
          · dsimp only at ran ⊢
            split
            next complete => simpa [complete] using ran
            next incomplete =>
              apply ih further
              simpa [incomplete] using ran
          · exact ran

theorem Parser.complete_mono {fuel fuel' : Nat} (enough : fuel ≤ fuel') {live : Owners}
    {ρ : Scope τ Γ} {p : Parser τ Γ α} {input : Input τ} {log : List Event}
    {found : Outcome (Except Incomplete α)} (ran : p.complete fuel live ρ input log = some found) :
    p.complete fuel' live ρ input log = some found := by
  simp only [complete, Option.bind_eq_some_iff, Option.map_eq_some_iff] at ran ⊢
  obtain ⟨opened, invoked, first, searched, same⟩ := ran
  exact ⟨opened, Parser.invoke_mono enough invoked, first,
    Parses.firstComplete_mono enough searched, same⟩

theorem Closure.Completes.unique {c : Closure τ α} {live : Owners} {input : Input τ}
    {result result' : Except Incomplete α} (first : c.Completes live input result)
    (second : c.Completes live input result') : result = result' := by
  obtain ⟨fuel, log, ran⟩ := first
  obtain ⟨fuel', log', ran'⟩ := second
  have one := Parser.complete_mono (Nat.le_max_left fuel fuel') ran
  have other := Parser.complete_mono (Nat.le_max_right fuel fuel') ran'
  rw [one] at other
  cases other
  rfl

theorem Closure.Completes.iff_eq {c : Closure τ α} {live : Owners} {input : Input τ}
    {result other : Except Incomplete α} (completes : c.Completes live input result) :
    c.Completes live input other ↔ other = result :=
  ⟨fun completes' => completes'.unique completes, fun same => same ▸ completes⟩

theorem Parses.Drains.firstComplete {s : Parses τ α} {parses : List (α × Input τ)}
    (drains : s.Drains parses) (log : List Event) :
    ∃ fuel log', s.firstComplete fuel .everybody log = some ⟨(completed parses).head?, log'⟩ := by
  induction parses generalizing s log with
  | nil =>
      obtain ⟨left, log', ⟨fuel, ran⟩, _⟩ := drains log
      rw [← (carried fuel).pull] at ran
      exact ⟨fuel + 1, log', by simp [Parses.firstComplete, ran, completed]⟩
  | cons parse parses ih =>
      obtain ⟨left, log', ⟨fuel, ran⟩, later⟩ := drains log
      rw [← (carried fuel).pull] at ran
      rw [completed_cons]
      split
      next complete =>
        exact ⟨fuel + 1, log', by simp [Parses.firstComplete, ran, complete]⟩
      next incomplete =>
        obtain ⟨fuel', log'', searched⟩ := ih later log'
        have pulled := Parses.pull_mono (Nat.le_max_left fuel fuel') ran
        have searched := Parses.firstComplete_mono (Nat.le_max_right fuel fuel') searched
        refine ⟨max fuel fuel' + 1, log'', ?_⟩
        simp [Parses.firstComplete, pulled, incomplete, searched]

section Covered

variable {kept : Definition τ → Prop} {building : AnyScope τ → Prop} {live : Owners}

theorem Parses.Sound.firstComplete_everybody {s : Parses τ α} (sound : s.Sound kept building)
    (cover : live.Cover kept) (fuel : Nat) (log : List Event) :
    s.firstComplete fuel live log = s.firstComplete fuel .everybody log := by
  induction fuel generalizing s log with
  | zero => rfl
  | succ fuel ih =>
      simp only [Parses.firstComplete, sound.pull_covered cover]
      cases ran : s.pull fuel .everybody log with
      | none => rfl
      | some answer =>
          have left := sound.of_pull ran
          obtain ⟨⟨v, rest, next⟩ | next, log'⟩ := answer
          · dsimp only
            split
            · rfl
            · exact ih left log'
          · rfl

theorem Closure.completes_of_drains {c : Closure τ α} (sound : c.scope.Sound kept building)
    (cover : live.Cover kept) {input : Input τ} {parses : List (α × Input τ)}
    (drains : c.parser.Drains c.scope input parses) :
    c.Completes live input (completion input (completed parses)) := by
  obtain ⟨s, log, ⟨fuel, ran⟩, drains⟩ := drains []
  rw [← (carried fuel).invoke] at ran
  obtain ⟨fuel', log', searched⟩ := drains.firstComplete log
  have opened : s.Sound kept building := sound.of_invoke ran
  rw [← opened.firstComplete_everybody cover] at searched
  rw [← sound.invoke_covered cover] at ran
  have invoked := Parser.invoke_mono (Nat.le_max_left fuel fuel') ran
  have searched := Parses.firstComplete_mono (Nat.le_max_right fuel fuel') searched
  refine ⟨max fuel fuel', log', ?_⟩
  simp only [Parser.complete, invoked, Option.bind_some, searched, Option.map_some, Outcome.map]
  cases completed parses <;> rfl

end Covered

theorem Parser.Drains.completes {p : Parser τ [] α} {input : Input τ} {parses : List (α × Input τ)}
    (drains : p.Drains .empty input parses) (live : Owners) :
    (⟨.empty, p⟩ : Closure τ α).Completes live input (completion input (completed parses)) := by
  have closed : (⟨.empty, p⟩ : Closure τ α).scope.Closed := trivial
  exact Closure.completes_of_drains closed live.cover_none drains

end EveryParse
