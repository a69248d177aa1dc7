import EveryParse.Proofs.Logs
import EveryParse.Proofs.Pulls

/-!
What tasks come to when there is fuel enough. It is read off the course of the task, call by call
(`Task.returns_iff_course`), so that fuel is out of sight, and there is only one thing that a task
can come to.
-/

namespace EveryParse

variable {τ : Type} {α : Type} {Γ : List Type}

def Task.Returns (task : Task τ) (live : Owners) (log : List Event) (result : task.Result) : Prop :=
  ∃ fuel, task.run fuel live log = some result

def Course.Returns {β : Type 1} (live : Owners) (result : β) : Course τ β → Prop
  | done found => found = result
  | call held task log next =>
    ∃ found, task.Returns (live.add held) log found ∧ (next found).Returns live result
  | alive name yes no => if live name then yes.Returns live result else no.Returns live result

theorem Course.returns_iff {β : Type 1} {course : Course τ β} {live : Owners} {result : β} :
    course.Returns live result ↔ ∃ fuel, course.follow (Task.run fuel) live = some result := by
  induction course with
  | done found => simp [Course.Returns, Course.follow]
  | call held task log next ih =>
      simp only [Course.Returns, Course.follow, Option.bind_eq_some_iff]
      constructor
      · rintro ⟨found, ⟨fuel, ran⟩, rest⟩
        obtain ⟨fuel', followed⟩ := (ih found).mp rest
        refine ⟨max fuel fuel', found, Task.run_mono (Nat.le_max_left _ _) ran, ?_⟩
        apply Course.follow_mono _ followed
        intro live task log result ran
        exact Task.run_mono (Nat.le_max_right _ _) ran
      · rintro ⟨fuel, found, ran, followed⟩
        exact ⟨found, ⟨fuel, ran⟩, (ih found).mpr ⟨fuel, followed⟩⟩
  | alive name yes no ihYes ihNo =>
      simp only [Course.Returns, Course.follow]
      split
      · exact ihYes
      · exact ihNo

namespace Task

variable {task : Task τ} {live : Owners} {log : List Event} {result result' : task.Result}

theorem returns_iff_course :
    task.Returns live log result ↔ (task.course log).Returns live result := by
  rw [Course.returns_iff]
  constructor
  · rintro ⟨fuel, ran⟩
    cases fuel with
    | zero => simp [Task.run] at ran
    | succ fuel => exact ⟨fuel, ran⟩
  · rintro ⟨fuel, followed⟩
    exact ⟨fuel + 1, followed⟩

theorem returns (course : (task.course log).Returns live result) : task.Returns live log result :=
  returns_iff_course.mpr course

theorem Returns.of_run {fuel : Nat} (ran : task.run fuel live log = some result) :
    task.Returns live log result :=
  ⟨fuel, ran⟩

theorem Returns.unique (first : task.Returns live log result)
    (second : task.Returns live log result') : result = result' := by
  obtain ⟨fuel, ran⟩ := first
  obtain ⟨fuel', ran'⟩ := second
  have more := Task.run_mono (Nat.le_max_left fuel fuel') ran
  rw [Task.run_mono (Nat.le_max_right fuel fuel') ran'] at more
  exact (Option.some.inj more).symm

end Task

/-! What was logged before changes nothing about what is found. -/

theorem Task.returns_iff_atop {task : Task τ} {live : Owners} {log : List Event}
    {result : task.Result} :
    task.Returns live log result ↔
      ∃ found, task.Returns live [] found ∧ task.atop log found = result := by
  have same (fuel : Nat) : task.run fuel live log = (task.run fuel live []).map (task.atop log) :=
    task.run_atop fuel live [] log
  simp only [Task.Returns, same, Option.map_eq_some_iff]
  constructor
  · rintro ⟨fuel, found, ran, rfl⟩
    exact ⟨found, ⟨fuel, ran⟩, rfl⟩
  · rintro ⟨found, ⟨fuel, ran⟩, rfl⟩
    exact ⟨fuel, found, ran, rfl⟩

theorem Task.Returns.from_log {task : Task τ} {live : Owners} {found : task.Result}
    (ran : task.Returns live [] found) (log : List Event) :
    task.Returns live log (task.atop log found) :=
  Task.returns_iff_atop.mpr ⟨found, ran, rfl⟩

theorem build_at_any_log {ρ : Scope τ Γ} {p : Parser τ Γ α} {live : Owners} {log}
    {built : Outcome (Parser τ Γ α)} (ran : (Task.build ρ p).Returns live log built) (log') :
    ∃ log'', (Task.build ρ p).Returns live log' ⟨built.value, log''⟩ := by
  obtain ⟨found, first, rfl⟩ := Task.returns_iff_atop.mp ran
  exact ⟨_, first.from_log log'⟩

theorem invoke_at_any_log {ρ : Scope τ Γ} {p : Parser τ Γ α} {input : Input τ} {live : Owners} {log}
    {opened : Outcome (Parses τ α)} (invoked : (Task.invoke ρ p input).Returns live log opened)
    (log') : ∃ log'', (Task.invoke ρ p input).Returns live log' ⟨opened.value, log''⟩ := by
  obtain ⟨found, first, rfl⟩ := Task.returns_iff_atop.mp invoked
  exact ⟨_, first.from_log log'⟩

theorem pull_at_any_log {s : Parses τ α} {live : Owners} {log answer}
    (pulled : (Task.pull s).Returns live log answer) (log') :
    ∃ log'', (Task.pull s).Returns live log' ⟨answer.value, log''⟩ := by
  obtain ⟨found, first, rfl⟩ := Task.returns_iff_atop.mp pulled
  exact ⟨_, first.from_log log'⟩

/-! What is seen of sequences and parsers when there is fuel enough. -/

theorem Parses.pullsAmong_mono {fuel fuel' : Nat} (enough : fuel ≤ fuel') {lives : List Owners}
    {s : Parses τ α} {found : List (Option (α × Input τ) × List Event)}
    (ran : s.pullsAmong fuel lives = some found) : s.pullsAmong fuel' lives = some found := by
  induction lives generalizing s found with
  | nil => exact ran
  | cons live lives ih =>
      simp only [Parses.pullsAmong, Option.bind_eq_some_iff, Option.map_eq_some_iff] at ran ⊢
      obtain ⟨answer, pulled, later, ran, same⟩ := ran
      exact ⟨answer, Parses.pull_mono enough pulled, later, ih ran, same⟩

theorem Parses.pulls_eq_pullsAmong (fuel : Nat) (live : Owners) (times : Nat) (s : Parses τ α) :
    s.pulls fuel live times = s.pullsAmong fuel (List.replicate times live) := by
  induction times generalizing s with
  | zero => rfl
  | succ times ih => simp only [Parses.pulls, List.replicate_succ, Parses.pullsAmong, ih]

/-- One pull for each of `lives` comes to an end, and together they find `found`. -/
def Parses.Shows (s : Parses τ α) (lives : List Owners)
    (found : List (Option (α × Input τ) × List Event)) : Prop :=
  ∃ fuel, s.pullsAmong fuel lives = some found

/-- The invocation and a pull for each of `lives` come to an end, and `seen` is what is seen of
them. -/
def Parser.Shows (ρ : Scope τ Γ) (p : Parser τ Γ α) (input : Input τ)
    (live : Owners) (lives : List Owners) (seen : Observation τ α) : Prop :=
  ∃ fuel, p.observe fuel ρ input live lives = some seen

theorem Parses.shows_nil {s : Parses τ α} {found : List (Option (α × Input τ) × List Event)} :
    s.Shows [] found ↔ [] = found := by
  simp [Parses.Shows, Parses.pullsAmong]

theorem Parses.shows_cons {s : Parses τ α} {live : Owners} {lives : List Owners}
    {found : List (Option (α × Input τ) × List Event)} :
    s.Shows (live :: lives) found ↔
      ∃ answer later, (Task.pull s).Returns live [] answer ∧ answer.value.next.Shows lives later ∧
        (answer.value.found, answer.log.reverse) :: later = found := by
  simp only [Parses.Shows, Parses.pullsAmong, Option.bind_eq_some_iff, Option.map_eq_some_iff,
    (carried _).pull]
  constructor
  · rintro ⟨fuel, answer, ran, later, ran', same⟩
    exact ⟨answer, later, ⟨fuel, ran⟩, ⟨fuel, ran'⟩, same⟩
  · rintro ⟨answer, later, ⟨fuel, ran⟩, ⟨fuel', ran'⟩, same⟩
    exact ⟨max fuel fuel', answer, Task.run_mono (Nat.le_max_left _ _) ran, later,
      Parses.pullsAmong_mono (Nat.le_max_right _ _) ran', same⟩

theorem Parser.shows_iff {ρ : Scope τ Γ} {p : Parser τ Γ α} {input : Input τ}
    {live : Owners} {lives : List Owners} {seen : Observation τ α} :
    p.Shows ρ input live lives seen ↔
      ∃ opened, (Task.invoke ρ p input).Returns live [] opened ∧
        opened.value.Shows lives seen.pulls ∧ opened.log.reverse = seen.invoked := by
  obtain ⟨invoked, pulls⟩ := seen
  simp only [Parser.Shows, Parser.observe, Option.bind_eq_some_iff, Option.map_eq_some_iff,
    Observation.mk.injEq, (carried _).invoke]
  constructor
  · rintro ⟨fuel, opened, ran, _, ran', same, rfl⟩
    exact ⟨opened, ⟨fuel, ran⟩, ⟨fuel, ran'⟩, same⟩
  · rintro ⟨opened, ⟨fuel, ran⟩, ⟨fuel', ran'⟩, same⟩
    exact ⟨max fuel fuel', opened, Task.run_mono (Nat.le_max_left _ _) ran, pulls,
      Parses.pullsAmong_mono (Nat.le_max_right _ _) ran', same, rfl⟩

theorem Parses.Shows.unique {s : Parses τ α} {lives : List Owners}
    {found found' : List (Option (α × Input τ) × List Event)} (first : s.Shows lives found)
    (second : s.Shows lives found') : found = found' := by
  induction lives generalizing s found found' with
  | nil => rw [← Parses.shows_nil.mp first, ← Parses.shows_nil.mp second]
  | cons live lives ih =>
      obtain ⟨answer, later, pulled, shows, rfl⟩ := Parses.shows_cons.mp first
      obtain ⟨answer', later', pulled', shows', rfl⟩ := Parses.shows_cons.mp second
      cases pulled.unique pulled'
      rw [ih shows shows']

theorem Parser.Shows.unique {ρ : Scope τ Γ} {p : Parser τ Γ α} {input : Input τ} {live : Owners}
    {lives : List Owners} {seen seen' : Observation τ α} (first : p.Shows ρ input live lives seen)
    (second : p.Shows ρ input live lives seen') : seen = seen' := by
  obtain ⟨invoked, pulls⟩ := seen
  obtain ⟨invoked', pulls'⟩ := seen'
  obtain ⟨opened, ran, shows, rfl⟩ := Parser.shows_iff.mp first
  obtain ⟨opened', ran', shows', rfl⟩ := Parser.shows_iff.mp second
  cases ran.unique ran'
  cases shows.unique shows'
  rfl

end EveryParse
