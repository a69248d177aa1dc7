import EveryParse.Proofs.Course

/-!
The log of a run. Whatever runs puts its events on top of those that are there already, and takes
none away (`Task.run_grows`).
-/

namespace EveryParse

variable {τ : Type} {β : Type 1}

/-- The log as it is when the task has come to its result. -/
def Task.logged : (task : Task τ) → task.Result → List Event
  | .build _ _, built => built.log
  | .invoke _ _ _, opened => opened.log
  | .pull _, answer => answer.log
  | .count _ _, counted => counted.log

def Course.Grows (logged : β → List Event) : Course τ β → List Event → Prop
  | done result, log => log <:+ logged result
  | call _ task log' next, log =>
    log <:+ log' ∧ ∀ found, (next found).Grows logged (task.logged found)
  | alive _ yes no, log => yes.Grows logged log ∧ no.Grows logged log

theorem suffix_reverseAux (events log : List Event) : log <:+ events.reverseAux log := by
  rw [List.reverseAux_eq]
  exact List.suffix_append _ _

theorem build_grows {Γ : List Type} {α : Type} (ρ : Scope τ Γ) (p : Parser τ Γ α)
    (log : List Event) :
    ((Task.build ρ p).course log).Grows (Task.build ρ p).logged log := by
  have stays (log : List Event) : log <:+ log := List.suffix_refl log
  cases p with
  | result v | fail | item | leaf parses | runs x stop extend | ref x => exact stays log
  | bind p captures f | mapM g p | filterM keep p | recursive name body | tap label p =>
      exact ⟨stays log, fun built => stays built.log⟩
  | or p q | share p q | alone p q =>
      exact ⟨stays log, fun first => ⟨stays first.log, fun second => stays second.log⟩⟩
  | noted events p => exact ⟨suffix_reverseAux events log, fun built => stays built.log⟩
  | probe p input next =>
      exact ⟨stays log, fun built => ⟨stays built.log, fun opened => ⟨stays opened.log,
        fun counted => ⟨stays counted.log, fun built => stays built.log⟩⟩⟩⟩

theorem invoke_grows {Γ : List Type} {α : Type} (ρ : Scope τ Γ) (p : Parser τ Γ α)
    (input : Input τ) (log : List Event) :
    ((Task.invoke ρ p input).course log).Grows (Task.invoke ρ p input).logged log := by
  have stays (log : List Event) : log <:+ log := List.suffix_refl log
  cases p with
  | result v | fail | item | leaf parses => exact stays log
  | bind p captures f | mapM g p | filterM keep p | or p q | runs x stop extend
  | recursive name body
  | share p q | alone p q =>
      exact ⟨stays log, fun opened => stays opened.log⟩
  | ref x =>
      simp only [Task.course]
      cases ρ.get x with
      | parser σ p => exact ⟨stays log, fun opened => stays opened.log⟩
      | handle name body σ => exact ⟨⟨stays log, fun opened => stays opened.log⟩, stays log⟩
      | nothing => exact stays log
  | tap label p => exact ⟨List.suffix_cons _ log, fun opened => stays opened.log⟩
  | noted events p => exact ⟨suffix_reverseAux events log, fun opened => stays opened.log⟩
  | probe p probed next =>
      exact ⟨stays log, fun built => ⟨stays built.log, fun opened => stays opened.log⟩⟩

theorem pull_grows {α : Type} (s : Parses τ α) (log : List Event) :
    ((Task.pull s).course log).Grows (Task.pull s).logged log := by
  have stays (log : List Event) : log <:+ log := List.suffix_refl log
  cases s with
  | listed parses => cases parses <;> exact stays log
  | drawn parses index =>
      simp only [Task.course]
      cases parses index <;> exact stays log
  | mapped g s =>
      refine ⟨stays log, ?_⟩
      rintro ⟨⟨v, rest, s⟩ | s, log⟩
      · exact suffix_reverseAux (g v).events log
      · exact stays log
  | filtered keep s =>
      refine ⟨stays log, ?_⟩
      rintro ⟨⟨v, rest, s⟩ | s, log⟩
      · dsimp only
        split
        · exact suffix_reverseAux (keep v).events log
        · exact ⟨suffix_reverseAux (keep v).events log, fun answer => stays answer.log⟩
      · exact stays log
  | choosing s ρ q input =>
      refine ⟨stays log, ?_⟩
      rintro ⟨⟨v, rest, s⟩ | s, log⟩
      · exact stays log
      · exact ⟨stays log, fun opened => ⟨stays opened.log, fun answer => stays answer.log⟩⟩
  | chosen s | anchored ρ name body s =>
      refine ⟨stays log, ?_⟩
      rintro ⟨⟨v, rest, s⟩ | s, log⟩ <;> exact stays log
  | nested ρ f outer inner =>
      refine ⟨stays log, ?_⟩
      rintro ⟨⟨v, rest, inner⟩ | inner, log⟩
      · exact stays log
      · refine ⟨stays log, ?_⟩
        rintro ⟨⟨v, rest, outer⟩ | outer, log⟩
        · exact ⟨stays log, fun built => ⟨stays built.log, fun opened => ⟨stays opened.log,
            fun answer => stays answer.log⟩⟩⟩
        · exact stays log
  | tapped label ended s =>
      refine ⟨stays log, ?_⟩
      rintro ⟨⟨v, rest, s⟩ | s, log⟩
      · exact List.suffix_cons _ log
      · cases ended
        · exact List.suffix_cons _ log
        · exact stays log

theorem Task.course_grows (task : Task τ) (log : List Event) :
    (task.course log).Grows task.logged log := by
  cases task with
  | build ρ p => exact build_grows ρ p log
  | invoke ρ p input => exact invoke_grows ρ p input log
  | pull s => exact pull_grows s log
  | count s found =>
      refine ⟨List.suffix_refl log, ?_⟩
      rintro ⟨⟨v, rest, s⟩ | s, log⟩
      · exact ⟨List.suffix_refl log, fun counted => List.suffix_refl counted.log⟩
      · exact List.suffix_refl log

theorem Course.Grows.follow {run : Owners → (task : Task τ) → List Event → Option task.Result}
    (runs : ∀ live task log found, run live task log = some found → log <:+ task.logged found)
    {live : Owners} {logged : β → List Event} {course : Course τ β} {log : List Event}
    (grows : course.Grows logged log) {result : β}
    (followed : course.follow run live = some result) :
    log <:+ logged result := by
  induction course generalizing log with
  | done found => cases followed; exact grows
  | call held task log' next ih =>
      obtain ⟨found, ran, followed⟩ := Option.bind_eq_some_iff.mp followed
      have called : log <:+ task.logged found := grows.1.trans (runs _ _ _ _ ran)
      exact called.trans (ih found (grows.2 found) followed)
  | alive name yes no ihYes ihNo =>
      simp only [Course.follow] at followed
      split at followed
      · exact ihYes grows.1 followed
      · exact ihNo grows.2 followed

theorem Task.run_grows {fuel : Nat} {live : Owners} {task : Task τ} {log : List Event}
    {result : task.Result} (ran : task.run fuel live log = some result) :
    log <:+ task.logged result := by
  induction fuel generalizing live task log with
  | zero => simp [Task.run] at ran
  | succ fuel ih => exact (task.course_grows log).follow (fun _ _ _ _ => ih) ran

end EveryParse
