import EveryParse.Proofs.Returns

/-!
Runs with the calls they make. Of the calls in a run, those of some tasks are watched, and listed
one behind the other. For every run that comes to an end there is such a list
(`Task.Returns.exists_uses`) and only one (`Course.Uses.unique`).
-/

namespace EveryParse

variable {τ : Type}

/-- Following the course comes to the result, and these are the watched calls on the way, first one
first. Calls inside a watched one are not listed. -/
inductive Course.Uses (watched : Task τ → Prop) :
    Owners → {β : Type 1} → Course τ β → β → List (Task τ) → Prop
  | done {live} {β : Type 1} (result : β) : Uses watched live (.done result) result []
  | watched {live held task log} {β : Type 1} {next : task.Result → Course τ β}
      {found result uses} (use : watched task) (ran : task.Returns (live.add held) log found)
      (later : Uses watched live (next found) result uses) :
      Uses watched live (.call held task log next) result (task :: uses)
  | inside {live held task log} {β : Type 1} {next : task.Result → Course τ β}
      {found result uses uses'} (unwatched : ¬watched task)
      (called : Uses watched (live.add held) (task.course log) found uses)
      (later : Uses watched live (next found) result uses') :
      Uses watched live (.call held task log next) result (uses ++ uses')
  | there {live name} {β : Type 1} {yes no : Course τ β} {result uses} (alive : live name = true)
      (later : Uses watched live yes result uses) :
      Uses watched live (.alive name yes no) result uses
  | gone {live name} {β : Type 1} {yes no : Course τ β} {result uses} (gone : live name = false)
      (later : Uses watched live no result uses) :
      Uses watched live (.alive name yes no) result uses

def Task.Uses (watched : Task τ → Prop) (live : Owners) (task : Task τ) (log : List Event)
    (result : task.Result) (uses : List (Task τ)) : Prop :=
  (task.course log).Uses watched live result uses

variable {β : Type 1} {watched : Task τ → Prop} {live : Owners}

theorem Course.Uses.returns {course : Course τ β} {result : β} {uses : List (Task τ)}
    (run : course.Uses watched live result uses) : course.Returns live result := by
  induction run with
  | done result => rfl
  | watched _ ran _ ih => exact ⟨_, ran, ih⟩
  | inside _ _ _ ihCalled ih => exact ⟨_, Task.returns ihCalled, ih⟩
  | there alive _ ih => simpa [Course.Returns, alive] using ih
  | gone gone _ ih => simpa [Course.Returns, gone] using ih

theorem Task.Uses.returns {task : Task τ} {log : List Event} {result : task.Result}
    {uses : List (Task τ)} (run : task.Uses watched live log result uses) :
    task.Returns live log result :=
  Task.returns (Course.Uses.returns run)

theorem Course.Uses.unique {course : Course τ β} {result result' : β} {uses uses' : List (Task τ)}
    (first : course.Uses watched live result uses)
    (second : course.Uses watched live result' uses') : result = result' ∧ uses = uses' := by
  induction first generalizing uses' with
  | done result =>
      cases second
      exact ⟨rfl, rfl⟩
  | watched use ran _ ih =>
      cases second with
      | watched _ ran' later =>
          cases ran.unique ran'
          obtain ⟨rfl, rfl⟩ := ih later
          exact ⟨rfl, rfl⟩
      | inside unwatched => exact absurd use unwatched
  | inside unwatched _ _ ihCalled ih =>
      cases second with
      | watched use => exact absurd use unwatched
      | inside _ called later =>
          obtain ⟨rfl, rfl⟩ := ihCalled called
          obtain ⟨rfl, rfl⟩ := ih later
          exact ⟨rfl, rfl⟩
  | there alive _ ih =>
      cases second with
      | there _ later => exact ih later
      | gone gone => simp [alive] at gone
  | gone gone _ ih =>
      cases second with
      | there alive => simp [alive] at gone
      | gone _ later => exact ih later

theorem Course.exists_uses {run : Owners → (task : Task τ) → List Event → Option task.Result}
    (runs : ∀ live task log found, run live task log = some found →
      task.Returns live log found ∧ ∃ uses, task.Uses watched live log found uses)
    {course : Course τ β} {result : β} (followed : course.follow run live = some result) :
    ∃ uses, course.Uses watched live result uses := by
  induction course with
  | done found =>
      cases followed
      exact ⟨[], .done result⟩
  | call held task log next ih =>
      obtain ⟨found, ran, followed⟩ := Option.bind_eq_some_iff.mp followed
      obtain ⟨returns, uses, called⟩ := runs _ _ _ _ ran
      obtain ⟨uses', later⟩ := ih found followed
      by_cases use : watched task
      · exact ⟨_, .watched use returns later⟩
      · exact ⟨_, .inside use called later⟩
  | alive name yes no ihYes ihNo =>
      simp only [Course.follow] at followed
      split at followed
      next alive =>
          obtain ⟨uses, later⟩ := ihYes followed
          exact ⟨uses, .there alive later⟩
      next gone =>
          obtain ⟨uses, later⟩ := ihNo followed
          exact ⟨uses, .gone (by simpa using gone) later⟩

theorem Task.Returns.exists_uses {task : Task τ} {log : List Event} {result : task.Result}
    (returns : task.Returns live log result) (watched : Task τ → Prop) :
    ∃ uses, task.Uses watched live log result uses := by
  obtain ⟨fuel, ran⟩ := returns
  induction fuel generalizing live task log with
  | zero => simp [Task.run] at ran
  | succ fuel ih =>
      exact Course.exists_uses (fun _ _ _ _ ran => ⟨⟨fuel, ran⟩, ih ran⟩) ran

theorem Course.Uses.eq_nil {course : Course τ β} {result : β} {uses : List (Task τ)}
    (unwatched : ∀ task, ¬watched task) (run : course.Uses watched live result uses) :
    uses = [] := by
  induction run with
  | done result => rfl
  | watched use => exact absurd use (unwatched _)
  | inside _ _ _ ihCalled ih => rw [ihCalled, ih, List.append_nil]
  | there _ _ ih | gone _ _ ih => exact ih

def Task.Called (watched : Task τ → Prop) (live : Owners) (task : Task τ) (log : List Event)
    (found : task.Result) (uses : List (Task τ)) : Prop :=
  (watched task ∧ task.Returns live log found ∧ uses = [task]) ∨
    (¬watched task ∧ task.Uses watched live log found uses)

theorem Task.Returns.called {task : Task τ} {log : List Event} {found : task.Result}
    (returns : task.Returns live log found) :
    task.Called (fun _ => False) live log found [] := by
  obtain ⟨uses, run⟩ := returns.exists_uses fun _ => False
  obtain rfl := Course.Uses.eq_nil (fun _ => id) run
  exact .inr ⟨id, run⟩

section Called

variable {task : Task τ} {log : List Event} {found found' : task.Result}

theorem Task.Called.returns {uses : List (Task τ)}
    (called : task.Called watched live log found uses) : task.Returns live log found := by
  rcases called with ⟨_, ran, _⟩ | ⟨_, run⟩
  · exact ran
  · exact run.returns

theorem Task.Returns.exists_called (returns : task.Returns live log found)
    (watched : Task τ → Prop) : ∃ uses, task.Called watched live log found uses := by
  by_cases use : watched task
  · exact ⟨_, .inl ⟨use, returns, rfl⟩⟩
  · obtain ⟨uses, run⟩ := returns.exists_uses watched
    exact ⟨uses, .inr ⟨use, run⟩⟩

theorem Task.Called.unique {uses uses' : List (Task τ)}
    (first : task.Called watched live log found uses)
    (second : task.Called watched live log found' uses') : found = found' ∧ uses = uses' := by
  rcases first with ⟨use, ran, rfl⟩ | ⟨unwatched, run⟩
  · rcases second with ⟨_, ran', rfl⟩ | ⟨unwatched, _⟩
    · exact ⟨ran.unique ran', rfl⟩
    · exact absurd use unwatched
  · rcases second with ⟨use, _⟩ | ⟨_, run'⟩
    · exact absurd use unwatched
    · exact Course.Uses.unique run run'

end Called

/-! What was logged before changes nothing about the calls. -/

theorem Course.Uses.atop {log : List Event} {goal : β → β} {course course' : Course τ β}
    {result : β}
    {uses : List (Task τ)} (run : course.Uses watched live result uses)
    (atop : course.Atop log goal course') : course'.Uses watched live (goal result) uses := by
  induction run with
  | done result =>
      cases atop with
      | done same => exact same ▸ .done _
  | watched use ran _ ih =>
      cases atop with
      | call below later =>
          obtain ⟨fuel, ran⟩ := ran
          subst below
          exact .watched use ⟨fuel, by rw [Task.run_atop, ran, Option.map_some]⟩ (ih (later _))
  | inside unwatched _ _ ihCalled ih =>
      cases atop with
      | call below later =>
          subst below
          exact .inside unwatched (ihCalled (Task.course_atop _ _ _)) (ih (later _))
  | there alive _ ih =>
      cases atop with
      | alive there _ => exact .there alive (ih there)
  | gone gone _ ih =>
      cases atop with
      | alive _ others => exact .gone gone (ih others)

theorem Task.called_iff_atop {task : Task τ} {log : List Event} {result : task.Result}
    {uses : List (Task τ)} :
    task.Called watched live log result uses ↔
      ∃ found, task.Called watched live [] found uses ∧ task.atop log found = result := by
  have forth {found : task.Result} {uses : List (Task τ)}
      (called : task.Called watched live [] found uses) :
      task.Called watched live log (task.atop log found) uses := by
    rcases called with ⟨use, ran, rfl⟩ | ⟨unwatched, run⟩
    · exact .inl ⟨use, ran.from_log log, rfl⟩
    · exact .inr ⟨unwatched, Course.Uses.atop run (task.course_atop log [])⟩
  constructor
  · intro called
    obtain ⟨found, ran, rfl⟩ := Task.returns_iff_atop.mp called.returns
    obtain ⟨uses', calledFirst⟩ := ran.exists_called watched
    obtain ⟨-, rfl⟩ := called.unique (forth calledFirst)
    exact ⟨found, calledFirst, rfl⟩
  · rintro ⟨found, called, rfl⟩
    exact forth called

/-- Invocations of tapped parsers and pulls of their sequences. -/
def Task.IsTap : Task τ → Prop
  | .invoke _ (.tap _ _) _ | .pull (.tapped _ _ _) => True
  | _ => False

section Taps

variable {task : Task τ} {log : List Event} {found : task.Result} {listed : List (Task τ)}
variable (taps : ∀ task, watched task → task.IsTap)
include taps

theorem Task.Called.of_uses (other : ¬task.IsTap) (run : task.Uses watched live log found listed) :
    task.Called watched live log found listed :=
  .inr ⟨fun use => other (taps task use), run⟩

theorem Task.Called.uses (other : ¬task.IsTap)
    (called : task.Called watched live log found listed) :
    task.Uses watched live log found listed := by
  rcases called with ⟨use, _⟩ | ⟨_, run⟩
  · exact absurd (taps task use) other
  · exact run

end Taps

section Calls

variable {γ : Type 1} {watched : Task τ → Prop} {live held : Owners} {task : Task τ}
  {log : List Event} {next : task.Result → Course τ γ} {found : task.Result} {result : γ}
  {uses uses' : List (Task τ)}

theorem Course.Uses.call (called : task.Called watched (live.add held) log found uses)
    (later : (next found).Uses watched live result uses') :
    (Course.call held task log next).Uses watched live result (uses ++ uses') := by
  rcases called with ⟨use, ran, rfl⟩ | ⟨unwatched, run⟩
  · exact .watched use ran later
  · exact .inside unwatched run later

theorem Course.Uses.silent (called : task.Called watched (live.add held) log found [])
    (later : (next found).Uses watched live result uses) :
    (Course.call held task log next).Uses watched live result uses :=
  call called later

theorem Course.Uses.last (called : task.Called watched (live.add held) log found uses)
    (later : (next found).Uses watched live result []) :
    (Course.call held task log next).Uses watched live result uses := by
  simpa using call called later

end Calls

end EveryParse
