import EveryParse.Proofs.Course

/-!
What was logged before a run. A run looks at nothing in the log and puts its own events on top of
it, so from any log it comes to the same (`Task.run_atop`).
-/

namespace EveryParse

universe u

variable {τ : Type} {β : Type 1}

/-- The same outcome of a run with `log` below its own events. -/
def Outcome.atop {β : Type u} (log : List Event) (outcome : Outcome β) : Outcome β :=
  ⟨outcome.value, outcome.log ++ log⟩

def Task.atop (log : List Event) : (task : Task τ) → task.Result → task.Result
  | .build _ _, built => built.atop log
  | .invoke _ _ _, opened => opened.atop log
  | .pull _, answer => answer.atop log
  | .count _ _, counted => counted.atop log

/-- The second course makes the calls of the first one with `log` below everything. -/
inductive Course.Atop (log : List Event) (goal : β → β) : Course τ β → Course τ β → Prop
  | done {result result' : β} (same : goal result = result') :
      Atop log goal (.done result) (.done result')
  | call {held : Owners} {task : Task τ} {own whole : List Event} {next next'}
      (below : own ++ log = whole)
      (later : ∀ found, Atop log goal (next found) (next' (task.atop log found))) :
      Atop log goal (.call held task own next) (.call held task whole next')
  | alive {name : Name} {yes yes' no no'} (there : Atop log goal yes yes')
      (gone : Atop log goal no no') : Atop log goal (.alive name yes no) (.alive name yes' no')

theorem reverseAux_append (events own log : List Event) :
    events.reverseAux own ++ log = events.reverseAux (own ++ log) := by
  simp [List.reverseAux_eq]

section Courses

variable (log own : List Event) {Γ : List Type} {α : Type}

theorem build_atop (ρ : Scope τ Γ) (p : Parser τ Γ α) :
    ((Task.build ρ p).course own).Atop log (Task.atop log (.build ρ p))
      ((Task.build ρ p).course (own ++ log)) := by
  cases p with
  | result v | fail | item | leaf parses | runs x stop extend | ref x => exact .done rfl
  | bind p captures f | mapM g p | filterM keep p | recursive name body | tap label p =>
      exact .call rfl fun built => .done rfl
  | or p q | share p q | alone p q =>
      exact .call rfl fun first => .call rfl fun second => .done rfl
  | noted events p =>
      exact .call (reverseAux_append events own log) fun built => .done rfl
  | probe p input next =>
      exact .call rfl fun built => .call rfl fun opened => .call rfl fun counted =>
        .call rfl fun built => .done rfl

theorem invoke_atop (ρ : Scope τ Γ) (p : Parser τ Γ α) (input : Input τ) :
    ((Task.invoke ρ p input).course own).Atop log (Task.atop log (.invoke ρ p input))
      ((Task.invoke ρ p input).course (own ++ log)) := by
  cases p with
  | result v | fail | item | leaf parses => exact .done rfl
  | bind p captures f | mapM g p | filterM keep p | or p q | runs x stop extend
  | recursive name body
  | share p q | alone p q | tap label p =>
      exact .call rfl fun opened => .done rfl
  | ref x =>
      simp only [Task.course]
      cases ρ.get x with
      | parser σ p => exact .call rfl fun opened => .done rfl
      | handle name body σ => exact .alive (.call rfl fun opened => .done rfl) (.done rfl)
      | nothing => exact .done rfl
  | noted events p =>
      exact .call (reverseAux_append events own log) fun opened => .done rfl
  | probe p probed next =>
      exact .call rfl fun built => .call rfl fun opened => .done rfl

theorem pull_atop (s : Parses τ α) :
    ((Task.pull s).course own).Atop log (Task.atop log (.pull s))
      ((Task.pull s).course (own ++ log)) := by
  cases s with
  | listed parses => cases parses <;> exact .done rfl
  | drawn parses index =>
      simp only [Task.course]
      cases parses index <;> exact .done rfl
  | mapped g s =>
      refine .call rfl ?_
      rintro ⟨⟨v, rest, s⟩ | s, own⟩
      · exact .done (congrArg _ (reverseAux_append (g v).events own log))
      · exact .done rfl
  | filtered keep s =>
      refine .call rfl ?_
      rintro ⟨⟨v, rest, s⟩ | s, own⟩
      · have noted := reverseAux_append (keep v).events own log
        simp only [Task.atop, Outcome.atop]
        split
        · exact .done (congrArg _ noted)
        · exact .call noted fun answer => .done rfl
      · exact .done rfl
  | choosing s ρ q input =>
      refine .call rfl ?_
      rintro ⟨⟨v, rest, s⟩ | s, own⟩
      · exact .done rfl
      · exact .call rfl fun opened => .call rfl fun answer => .done rfl
  | chosen s | anchored ρ name body s =>
      refine .call rfl ?_
      rintro ⟨⟨v, rest, s⟩ | s, own⟩ <;> exact .done rfl
  | nested ρ f outer inner =>
      refine .call rfl ?_
      rintro ⟨⟨v, rest, inner⟩ | inner, own⟩
      · exact .done rfl
      · refine .call rfl ?_
        rintro ⟨⟨v, rest, outer⟩ | outer, own⟩
        · exact .call rfl fun built => .call rfl fun opened => .call rfl fun answer => .done rfl
        · exact .done rfl
  | tapped label ended s =>
      refine .call rfl ?_
      rintro ⟨⟨v, rest, s⟩ | s, own⟩
      · exact .done rfl
      · cases ended <;> exact .done rfl

theorem Task.course_atop (task : Task τ) :
    (task.course own).Atop log (task.atop log) (task.course (own ++ log)) := by
  cases task with
  | build ρ p => exact build_atop log own ρ p
  | invoke ρ p input => exact invoke_atop log own ρ p input
  | pull s => exact pull_atop log own s
  | count s found =>
      refine .call rfl ?_
      rintro ⟨⟨v, rest, s⟩ | s, own⟩
      · exact .call rfl fun counted => .done rfl
      · exact .done rfl

end Courses

theorem Course.Atop.follow {log : List Event}
    {run : Owners → (task : Task τ) → List Event → Option task.Result}
    (runs : ∀ live task own, run live task (own ++ log) = (run live task own).map (task.atop log))
    {live : Owners} {goal : β → β} {course course' : Course τ β}
    (atop : course.Atop log goal course') :
    course'.follow run live = (course.follow run live).map goal := by
  induction atop with
  | done same => simp [Course.follow, same]
  | @call held task own whole next next' below later ih =>
      simp only [Course.follow, ← below, runs]
      cases run (live.add held) task own with
      | none => rfl
      | some found => exact ih found
  | alive there gone ihThere ihGone =>
      simp only [Course.follow]
      split
      · exact ihThere
      · exact ihGone

theorem Task.run_atop (fuel : Nat) (live : Owners) (task : Task τ) (own log : List Event) :
    task.run fuel live (own ++ log) = (task.run fuel live own).map (task.atop log) := by
  induction fuel generalizing live task own with
  | zero => rfl
  | succ fuel ih => exact (task.course_atop log own).follow fun live task own => ih live task own

end EveryParse
