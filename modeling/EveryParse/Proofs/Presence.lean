import EveryParse.Proofs.Handles
import EveryParse.Proofs.Release
import EveryParse.Proofs.Returns

/-!
What is alive at the calls of a run: what was so at first and what their callers keep
(`Call.Reaches.live_iff`). Among the calls of a run in their order, less and less is
(`Call.Precedes.present_within`), and what the run leaves was alive at all of them.
-/

namespace EveryParse

variable {τ : Type} {β : Type 1} {known : Ledger τ} {live : Owners}

namespace Call

def Accounted (known : Ledger τ) (call : Call τ) : Prop :=
  call.task.Accounted known call.live

/-- What is alive during the call, also what only the call keeps alive. -/
def present (call : Call τ) : Owners :=
  call.live.add call.task.owned

end Call

section Calls

variable {leaves : β → Owners} {present : Owners} {course : Course τ β} {made : Call τ}

theorem Course.Accounts.of_calls (accounts : course.Accounts known live leaves present)
    (calls : course.Calls live made) : made.Accounted known ∧ made.present.Within present := by
  induction course with
  | done result => exact calls.elim
  | call held task log next ih =>
      rcases calls with rfl | ⟨fuel, found, ran, calls⟩
      · exact ⟨accounts.1, accounts.2.1⟩
      · exact ih found (accounts.after_call ran (accounts.1.leaves_within ran)) calls
  | alive name yes no ihYes ihNo =>
      simp only [Course.Calls] at calls
      split at calls
      next alive => exact ihYes (accounts.1 alive) calls
      next gone => exact ihNo (accounts.2 (by simpa using gone)) calls

theorem Course.Calls.live_mono {name : Name} (calls : course.Calls live made)
    (alive : live name = true) : made.live name = true := by
  induction course with
  | done result => exact calls.elim
  | call held task log next ih =>
      rcases calls with rfl | ⟨_, found, _, calls⟩
      · exact Owners.add_eq_true.mpr (.inl alive)
      · exact ih found calls
  | alive other yes no ihYes ihNo =>
      simp only [Course.Calls] at calls
      split at calls
      · exact ihYes calls
      · exact ihNo calls

theorem Course.Accounts.of_returns (accounts : course.Accounts known live leaves present)
    (calls : course.Calls live made) {result : β} (returned : course.Returns live result) :
    ∃ found, made.task.Returns made.live made.log found ∧
      (leaves result).Within (made.live.add (made.task.leaves found)) := by
  induction course with
  | done found => exact calls.elim
  | call held task log next ih =>
      obtain ⟨found, ⟨fuel, ran⟩, later⟩ := returned
      have left := accounts.1.leaves_within ran
      rcases calls with rfl | ⟨fuel', found', ran', calls⟩
      · obtain ⟨fuel', followed⟩ := Course.returns_iff.mp later
        exact ⟨found, ⟨fuel, ran⟩, (accounts.rest ran).leaves_within
          (fun _ _ _ _ accounted ran => accounted.leaves_within ran) followed⟩
      · have same : found = found' := Task.Returns.unique ⟨fuel, ran⟩ ⟨fuel', ran'⟩
        subst same
        exact ih found (accounts.after_call ran left) calls later
  | alive name yes no ihYes ihNo =>
      simp only [Course.Calls, Course.Returns] at calls returned
      split at calls
      next alive =>
        simp only [alive, ↓reduceIte] at returned
        exact ihYes (accounts.1 alive) calls returned
      next gone =>
        simp only [gone] at returned
        exact ihNo (accounts.2 (by simpa using gone)) calls returned

/-- Following the course makes the call `earlier`, and when that has come to its end, `later`. -/
def Course.CallsThen (live : Owners) (earlier later : Call τ) : Course τ β → Prop
  | done _ => False
  | call held task log next =>
    ∃ fuel result, task.run fuel (live.add held) log = some result ∧
      (earlier = ⟨live.add held, task, log⟩ ∧ (next result).Calls live later ∨
        (next result).CallsThen live earlier later)
  | alive name yes no =>
    if live name then yes.CallsThen live earlier later else no.CallsThen live earlier later

theorem Course.Accounts.of_callsThen {later : Call τ}
    (accounts : course.Accounts known live leaves present)
    (calls : course.CallsThen live made later) :
    made.Accounted known ∧ later.Accounted known ∧ ∃ found,
      made.task.Returns made.live made.log found ∧
        later.present.Within (made.live.add (made.task.leaves found)) := by
  induction course with
  | done found => exact calls.elim
  | call held task log next ih =>
      obtain ⟨fuel, found, ran, calls⟩ := calls
      rcases calls with ⟨rfl, calls⟩ | calls
      · obtain ⟨accounted, within⟩ := (accounts.rest ran).of_calls calls
        exact ⟨accounts.1, accounted, found, ⟨fuel, ran⟩, within⟩
      · exact ih found (accounts.after_call ran (accounts.1.leaves_within ran)) calls
  | alive name yes no ihYes ihNo =>
      simp only [Course.CallsThen] at calls
      split at calls
      next alive => exact ihYes (accounts.1 alive) calls
      next gone => exact ihNo (accounts.2 (by simpa using gone)) calls

def Course.Holds (live : Owners) (name : Name) (made : Call τ) : Course τ β → Prop
  | done _ => False
  | call held task log next =>
    (made = ⟨live.add held, task, log⟩ ∧ held name = true) ∨
      ∃ fuel result, task.run fuel (live.add held) log = some result ∧
        (next result).Holds live name made
  | alive other yes no =>
    if live other then yes.Holds live name made else no.Holds live name made

theorem Course.Holds.alive {name : Name} (holds : course.Holds live name made) :
    made.live name = true := by
  induction course with
  | done result => exact holds.elim
  | call held task log next ih =>
      rcases holds with ⟨rfl, here⟩ | ⟨_, found, _, holds⟩
      · exact Owners.add_eq_true.mpr (.inr here)
      · exact ih found holds
  | alive other yes no ihYes ihNo =>
      simp only [Course.Holds] at holds
      split at holds
      · exact ihYes holds
      · exact ihNo holds

theorem Course.Calls.alive_or_holds {name : Name} (calls : course.Calls live made)
    (alive : made.live name = true) : live name = true ∨ course.Holds live name made := by
  induction course with
  | done result => exact calls.elim
  | call held task log next ih =>
      rcases calls with rfl | ⟨fuel, found, ran, calls⟩
      · exact (Owners.add_eq_true.mp alive).imp_right fun here => .inl ⟨rfl, here⟩
      · exact (ih found calls).imp_right fun holds => .inr ⟨fuel, found, ran, holds⟩
  | alive other yes no ihYes ihNo =>
      simp only [Course.Calls, Course.Holds] at calls ⊢
      split at calls
      next here =>
        simp only [here, ↓reduceIte]
        exact ihYes calls
      next gone =>
        simp only [gone]
        exact ihNo calls

end Calls

namespace Call

variable {first call : Call τ} {running : List (Definition τ)} {building : List (AnyScope τ)}
variable {name : Name}

theorem Makes.accounted {made : Call τ} (accounted : call.Accounted known)
    (makes : call.Makes made) : made.Accounted known ∧ made.present.Within call.present :=
  (Task.Accounted.accounts accounted call.log).of_calls makes

theorem Reaches.accounted (accounted : first.Accounted known)
    (reached : first.Reaches running building call) :
    call.Accounted known ∧ call.present.Within first.present := by
  induction reached with
  | start => exact ⟨accounted, .refl _⟩
  | step _ makes ih =>
      have made := makes.accounted ih.1
      exact ⟨made.1, made.2.trans ih.2⟩

theorem Reaches.leaves_within (accounted : first.Accounted known)
    (reached : first.Reaches running building call) {result : first.task.Result}
    (returned : first.task.Returns first.live first.log result) :
    ∃ found, call.task.Returns call.live call.log found ∧
      (first.task.leaves result).Within (call.live.add (call.task.leaves found)) := by
  induction reached with
  | start => exact ⟨result, returned, Owners.within_add_right _ _⟩
  | @step _ _ call made reached makes ih =>
      obtain ⟨found, returned, left⟩ := ih
      have accounts := Task.Accounted.accounts (reached.accounted accounted).1 call.log
      obtain ⟨found', returned', left'⟩ :=
        accounts.of_returns makes (Task.returns_iff_course.mp returned)
      have more : call.live.Within made.live := fun _ => Course.Calls.live_mono makes
      exact ⟨found', returned', left.trans
        (Owners.add_within (more.trans (Owners.within_add_left _ _)) left')⟩

theorem Accounted.leaves_within (accounted : call.Accounted known) {found : call.task.Result}
    (returned : call.task.Returns call.live call.log found) :
    (call.live.add (call.task.leaves found)).Within call.present := by
  obtain ⟨fuel, ran⟩ := returned
  exact Owners.add_within (Owners.within_add_left _ _) (Task.Accounted.leaves_within accounted ran)

theorem Reaches.live_mono (reached : first.Reaches running building call)
    (alive : first.live name = true) : call.live name = true := by
  induction reached with
  | start => exact alive
  | step _ makes ih => exact makes.live_mono ih

inductive Precedes (first : Call τ) : Call τ → Call τ → Prop
  | inside {running building running' building' earlier later}
      (reached : first.Reaches running building earlier)
      (inside : earlier.Reaches running' building' later) : Precedes first earlier later
  | after {running building running' building' running'' building'' call made made' earlier later}
      (reached : first.Reaches running building call)
      (calls : (call.task.course call.log).CallsThen call.live made made')
      (inside : made.Reaches running' building' earlier)
      (inside' : made'.Reaches running'' building'' later) : Precedes first earlier later

theorem Precedes.present_within {earlier later : Call τ} (accounted : first.Accounted known)
    (precedes : first.Precedes earlier later) : later.present.Within earlier.present := by
  cases precedes with
  | inside reached inside => exact (inside.accounted (reached.accounted accounted).1).2
  | @after _ _ _ _ _ _ call made made' _ _ reached calls inside inside' =>
      have accounts := Task.Accounted.accounts (reached.accounted accounted).1 call.log
      obtain ⟨accounted, accountedLater, found, returned, within⟩ := accounts.of_callsThen calls
      obtain ⟨found', returned', left⟩ := inside.leaves_within accounted returned
      have less := (inside.accounted accounted).1.leaves_within returned'
      have alive : made.live.Within earlier.present := fun _ alive =>
        Owners.within_add_left _ _ _ (inside.live_mono alive)
      exact ((inside'.accounted accountedLater).2.trans within).trans
        (Owners.add_within alive (left.trans less))

/-- On a way from `first` to the call, some caller keeps `name` alive. -/
inductive Keeps (first : Call τ) (name : Name) : Call τ → Prop
  | holds {running building call made} (reached : first.Reaches running building call)
      (holds : (call.task.course call.log).Holds call.live name made) : Keeps first name made
  | passes {call made} (kept : Keeps first name call) (makes : call.Makes made) :
      Keeps first name made

theorem Keeps.alive (kept : first.Keeps name call) : call.live name = true := by
  induction kept with
  | holds _ holds => exact holds.alive
  | passes _ makes ih => exact makes.live_mono ih

theorem Reaches.live_iff (reached : first.Reaches running building call) :
    call.live name = true ↔ first.live name = true ∨ first.Keeps name call := by
  constructor
  · intro alive
    induction reached with
    | start => exact .inl alive
    | step reached makes ih =>
        rcases makes.alive_or_holds alive with alive | holds
        · exact (ih alive).imp_right fun kept => .passes kept makes
        · exact .inr (.holds reached holds)
  · rintro (alive | kept)
    · exact reached.live_mono alive
    · exact kept.alive

end Call

end EveryParse
