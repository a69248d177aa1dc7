import EveryParse.Proofs.Knot
import EveryParse.Proofs.Uses

/-!
What is seen of a parser when some calls are watched: besides the finds and the events, which of
these calls each pull makes. Whoever else keeps definitions alive, the same is seen of what is sound
(`Scope.Sound.showsWith_everybody`).
-/

namespace EveryParse

variable {τ α : Type} {Γ : List Type} {watched : Task τ → Prop}

/-- As `Parses.Shows`, with the watched calls that each of the pulls makes. -/
inductive Parses.ShowsWith (watched : Task τ → Prop) : Parses τ α → List Owners →
    List (Option (α × Input τ) × List Event) → List (List (Task τ)) → Prop
  | nil {s} : ShowsWith watched s [] [] []
  | cons {s live lives answer uses found calls}
      (pulled : (Task.pull s).Called watched live [] answer uses)
      (later : ShowsWith watched answer.value.next lives found calls) :
      ShowsWith watched s (live :: lives) ((answer.value.found, answer.log.reverse) :: found)
        (uses :: calls)

/-- As `Parser.Shows`, with the watched calls: first those of the invocation, then those of each
pull. -/
inductive Parser.ShowsWith (watched : Task τ → Prop) (ρ : Scope τ Γ) (p : Parser τ Γ α)
    (input : Input τ) (live : Owners) (lives : List Owners) :
    Observation τ α → List (List (Task τ)) → Prop
  | shows {opened uses found calls}
      (invoked : (Task.invoke ρ p input).Called watched live [] opened uses)
      (pulls : opened.value.ShowsWith watched lives found calls) :
      ShowsWith watched ρ p input live lives ⟨opened.log.reverse, found⟩ (uses :: calls)

theorem Parses.shows_iff_exists_showsWith {s : Parses τ α} {lives : List Owners}
    {found : List (Option (α × Input τ) × List Event)} (watched : Task τ → Prop) :
    s.Shows lives found ↔ ∃ calls, s.ShowsWith watched lives found calls := by
  induction lives generalizing s found with
  | nil =>
      rw [Parses.shows_nil]
      constructor
      · rintro rfl
        exact ⟨[], .nil⟩
      · rintro ⟨_, _ | _⟩
        rfl
  | cons live lives ih =>
      rw [Parses.shows_cons]
      constructor
      · rintro ⟨answer, later, pulled, shows, rfl⟩
        obtain ⟨uses, called⟩ := pulled.exists_called watched
        obtain ⟨calls, later⟩ := ih.mp shows
        exact ⟨_, .cons called later⟩
      · rintro ⟨_, _ | ⟨called, later⟩⟩
        exact ⟨_, _, called.returns, ih.mpr ⟨_, later⟩, rfl⟩

theorem Parser.shows_iff_exists_showsWith {ρ : Scope τ Γ} {p : Parser τ Γ α} {input : Input τ}
    {live : Owners} {lives : List Owners} {seen : Observation τ α} (watched : Task τ → Prop) :
    p.Shows ρ input live lives seen ↔
      ∃ calls, p.ShowsWith watched ρ input live lives seen calls := by
  rw [Parser.shows_iff]
  constructor
  · obtain ⟨invoked, found⟩ := seen
    rintro ⟨opened, ran, shows, rfl⟩
    obtain ⟨uses, called⟩ := ran.exists_called watched
    obtain ⟨calls, pulls⟩ := (Parses.shows_iff_exists_showsWith watched).mp shows
    exact ⟨_, .shows called pulls⟩
  · rintro ⟨_, ⟨called, pulls⟩⟩
    exact ⟨_, called.returns, (Parses.shows_iff_exists_showsWith watched).mpr ⟨_, pulls⟩, rfl⟩

/-! Runs of what is sound make the same calls whoever else is alive. -/

section Sound

variable {kept : Definition τ → Prop} {building : AnyScope τ → Prop} {live : Owners}

theorem Course.Uses.everybody {β : Type 1} {course : Course τ β} {result : β}
    {uses : List (Task τ)} (run : course.Uses watched live result uses)
    {kept : Definition τ → Prop} {building : AnyScope τ → Prop} {goal : β → Prop}
    (meets : course.Meets (staysSound kept building) live goal) :
    course.Uses watched .everybody result uses := by
  have keeps {task : Task τ} {live : Owners} {log : List Event} {found : task.Result}
      (ran : task.Returns live log found) : (keepsSound τ).result task found := by
    obtain ⟨fuel, ran⟩ := ran
    exact keepsSound_upheld.result_of_run trivial ran
  induction run generalizing kept building with
  | done result => exact .done result
  | watched use ran _ ih =>
      have same := (Task.Sound.returns_iff meets.1.2 meets.1.1 (Owners.everybody_cover _)).mp ran
      exact .watched use (by rwa [Owners.everybody_add]) (ih (meets.2 _ (keeps ran)))
  | inside unwatched called _ ihCalled ih =>
      have inside := ihCalled (meets.1.2.course_stays meets.1.1 _)
      have ran := Task.Uses.returns called
      exact .inside unwatched (by rwa [Owners.everybody_add]) (ih (meets.2 _ (keeps ran)))
  | there alive _ ih => exact .there rfl (ih (meets.2.1 alive))
  | gone gone _ _ => exact absurd gone (by simp [show _ = true from meets.1])

theorem Task.Sound.called_everybody {task : Task τ} (sound : task.Sound kept building)
    (cover : live.Cover kept) {log : List Event} {found : task.Result} {uses : List (Task τ)} :
    task.Called watched live log found uses ↔ task.Called watched .everybody log found uses := by
  have forth {uses : List (Task τ)} (called : task.Called watched live log found uses) :
      task.Called watched .everybody log found uses := by
    rcases called with ⟨use, ran, rfl⟩ | ⟨unwatched, run⟩
    · exact .inl ⟨use, (sound.returns_iff cover (Owners.everybody_cover _)).mp ran, rfl⟩
    · exact .inr ⟨unwatched, Course.Uses.everybody run (sound.course_stays cover log)⟩
  refine ⟨forth, fun called => ?_⟩
  have ran := (sound.returns_iff cover (Owners.everybody_cover _)).mpr called.returns
  obtain ⟨uses', called'⟩ := ran.exists_called watched
  obtain ⟨-, rfl⟩ := (forth called').unique called
  exact called'

theorem Parses.Sound.showsWith_everybody {s : Parses τ α} (sound : s.Sound kept building)
    {lives : List Owners} (cover : ∀ later ∈ lives, later.Cover kept)
    {found : List (Option (α × Input τ) × List Event)} {calls : List (List (Task τ))} :
    s.ShowsWith watched lives found calls ↔
      s.ShowsWith watched (lives.map fun _ => .everybody) found calls := by
  have pulls : (Task.pull s).Sound kept building := sound
  induction lives generalizing s found calls with
  | nil => rfl
  | cons live lives ih =>
      have pulled (answer uses) : (Task.pull s).Called watched live [] answer uses ↔
          (Task.pull s).Called watched .everybody [] answer uses :=
        pulls.called_everybody (cover live (.head _))
      have left {live answer} (ran : (Task.pull s).Returns live [] answer) :
          answer.value.next.Sound kept building := by
        obtain ⟨fuel, ran⟩ := ran
        exact Task.LeavesSound.of_run ran pulls
      have covers (later : Owners) (inside : later ∈ lives) := cover later (.tail _ inside)
      constructor
      · rintro (_ | ⟨called, later⟩)
        have sound := left called.returns
        exact .cons ((pulled _ _).mp called) ((ih sound covers sound).mp later)
      · rintro (_ | ⟨called, later⟩)
        have sound := left called.returns
        exact .cons ((pulled _ _).mpr called) ((ih sound covers sound).mpr later)

theorem Scope.Sound.showsWith_everybody {ρ : Scope τ Γ} (sound : ρ.Sound kept building)
    (p : Parser τ Γ α) (input : Input τ) (cover : live.Cover kept) {lives : List Owners}
    (covers : ∀ later ∈ lives, later.Cover kept) {seen : Observation τ α}
    {calls : List (List (Task τ))} :
    p.ShowsWith watched ρ input live lives seen calls ↔
      p.ShowsWith watched ρ input .everybody (lives.map fun _ => .everybody) seen calls := by
  have invokes : (Task.invoke ρ p input).Sound kept building := sound
  have left {live opened} (ran : (Task.invoke ρ p input).Returns live [] opened) :
      opened.value.Sound kept building := by
    obtain ⟨fuel, ran⟩ := ran
    exact Task.LeavesSound.of_run ran invokes
  constructor
  · rintro ⟨called, pulls⟩
    exact .shows ((invokes.called_everybody cover).mp called)
      (((left called.returns).showsWith_everybody covers).mp pulls)
  · rintro ⟨called, pulls⟩
    exact .shows ((invokes.called_everybody cover).mpr called)
      (((left called.returns).showsWith_everybody covers).mpr pulls)

end Sound

end EveryParse
