import EveryParse.Proofs.Bisimulation
import EveryParse.Proofs.Eager
import EveryParse.Proofs.Watched

/-!
Sequences that have ended. `map`, `filter` and the parses of a definition do not remember that they
have, and are pulled again. Main statement: once a pull has found the end, so does every later one,
and nothing happens in it: no parser is invoked and no sequence inside answers with a parse.
-/

namespace EveryParse

variable {τ α : Type} {Γ : List Type}

/-- A pull that has nothing to do: whoever keeps definitions alive, it finds the end, logs nothing
and leaves the sequence as it is. -/
def Task.Idle : Task τ → Prop
  | .pull s => ∀ live log, (Task.pull s).Returns live log ⟨.ended s, log⟩
  | .build _ _ | .invoke _ _ _ | .count _ _ => False

/-- Parsers are invoked and functions are called in what is left of the tasks only. -/
def Task.Active (task : Task τ) : Prop :=
  ¬task.Idle

theorem Parses.Over.idle {s : Parses τ α} (finished : s.Over) : ¬(Task.pull s).Active :=
  fun active => active finished.pull

theorem Parses.Over.called {s : Parses τ α} (finished : s.Over) (live : Owners)
    (log : List Event) : (Task.pull s).Called Task.Active live log ⟨.ended s, log⟩ [] := by
  refine .inr ⟨finished.idle, ?_⟩
  induction s generalizing live with
  | listed parses =>
      cases finished
      exact .done _
  | mapped g s ih | filtered keep s ih | anchored ρ name body s ih =>
      have finished : s.Over := finished
      exact .silent (.inr ⟨finished.idle, ih finished _⟩) (.done _)
  | tapped label ended s ih =>
      obtain ⟨rfl, finished⟩ := finished
      exact .silent (.inr ⟨finished.idle, ih finished _⟩) (.done _)
  | drawn parses index | choosing s ρ q input ih | chosen s ih | nested ρ f outer inner _ _ =>
      exact finished.elim

theorem Parses.ShowsWith.again {s : Parses τ α} {lives : List Owners}
    {found : List (Option (α × Input τ) × List Event)} {calls : List (List (Task τ))}
    (shows : s.ShowsWith Task.Active lives found calls)
    (ended : s.Over ∨ none ∈ found.map Prod.fst) (later : List Owners) :
    s.ShowsWith Task.Active (lives ++ later) (found ++ List.replicate later.length (none, []))
      (calls ++ List.replicate later.length []) := by
  induction shows with
  | @nil s =>
      have finished : s.Over := ended.resolve_right List.not_mem_nil
      induction later with
      | nil => exact .nil
      | cons live later ih => exact .cons (finished.called live []) ih
  | @cons s live lives answer uses found calls pulled _ ih =>
      refine .cons pulled (ih ?_)
      rcases ended with finished | ended
      · cases (finished.pull live []).unique pulled.returns
        exact .inl finished
      · obtain ⟨⟨v, rest, left⟩ | left, log⟩ := answer
        · exact .inr (by simpa [Answer.found] using ended)
        · exact .inl (Parses.over_of_ended pulled.returns)

/-- Once one of the pulls has found the end, so many more pulls find it again, each without an
event. Nothing but sequences that have ended already is called in them, so no parser is built or
invoked, and no function is given a value. -/
theorem sequences_stay_ended {ρ : Scope τ Γ} {p : Parser τ Γ α} {input : Input τ} {live : Owners}
    {lives : List Owners} {seen : Observation τ α} (shows : p.Shows ρ input live lives seen)
    (ended : none ∈ seen.answers) :
    ∃ calls, p.ShowsWith Task.Active ρ input live lives seen calls ∧ ∀ later : List Owners,
      p.ShowsWith Task.Active ρ input live (lives ++ later)
        ⟨seen.invoked, seen.pulls ++ List.replicate later.length (none, [])⟩
        (calls ++ List.replicate later.length []) := by
  obtain ⟨calls, watched⟩ := (Parser.shows_iff_exists_showsWith Task.Active).mp shows
  refine ⟨calls, watched, fun later => ?_⟩
  obtain ⟨invoked, pulls⟩ := watched
  exact .shows invoked (pulls.again (.inr ended) later)

def doubles : Parser Char [] Nat :=
  .map (2 * ·) (.filter (0 < ·) (.recursive (.site []) tally))

theorem doubles_stay_ended :
    let input : Input Char := ⟨⟨0, #['a', 'b']⟩, 0⟩
    let seen : Observation Char Nat :=
      ⟨[], [(some (4, input.advance 2), []), (some (2, input.advance 1), []), (none, [])]⟩
    let lives := List.replicate 3 Owners.nobody
    let later := [Owners.nobody, .everybody]
    doubles.Shows .empty input .nobody lives seen ∧ none ∈ seen.answers ∧
      ∃ calls, doubles.ShowsWith Task.Active .empty input .nobody lives seen calls ∧
        doubles.ShowsWith Task.Active .empty input .nobody (lives ++ later)
          ⟨[], seen.pulls ++ [(none, []), (none, [])]⟩ (calls ++ [[], []]) := by
  intro input seen lives later
  have shows : doubles.Shows .empty input .nobody lives seen := ⟨20, rfl⟩
  have ended : none ∈ seen.answers := by simp [seen, Observation.answers]
  obtain ⟨calls, watched, again⟩ := sequences_stay_ended shows ended
  exact ⟨shows, ended, calls, watched, again later⟩

end EveryParse
