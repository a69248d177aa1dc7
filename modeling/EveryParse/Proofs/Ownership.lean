import EveryParse.Proofs.Course
import EveryParse.Proofs.Pulls

/-!
Handles and what keeps their definitions alive. Of a parser whose handles stand inside their own
definitions only, every open sequence runs its remaining parts inside the definitions that they
refer to (`Parses.Sound`), so no handle is ever invoked without its definition, and it makes no
difference who else keeps definitions alive.
-/

namespace EveryParse

variable {τ : Type} {α : Type} {β : Type 1}

abbrev AnyScope (τ : Type) := Σ Γ : List Type, Scope τ Γ

structure Definition (τ : Type) : Type 1 where
  {context : List Type}
  {result : Type}
  scope : Scope τ context
  name : Name
  body : Parser τ (result :: context) result

def Owners.Cover (live : Owners) (kept : Definition τ → Prop) : Prop :=
  ∀ definition, kept definition → live definition.name = true

namespace Scope

def dropTo {Γ : List Type} {α : Type} : Scope τ Γ → Var Γ α → AnyScope τ
  | ρ, .here => ⟨_, ρ⟩
  | share _ ρ, .there x | handle _ _ ρ, .there x | pending ρ, .there x | link _ _ ρ, .there x =>
    ρ.dropTo x

/-- All handles refer to definitions in `kept`, and what is still being defined is one of
`building`. -/
def Sound (kept : Definition τ → Prop) (building : AnyScope τ → Prop) {Γ : List Type} :
    Scope τ Γ → Prop
  | empty => True
  | share _ ρ => ρ.Sound kept building
  | handle name body ρ => kept ⟨ρ, name, body⟩ ∧ ρ.Sound kept building
  | pending (α := α) ρ => building ⟨_, pending (α := α) ρ⟩ ∧ ρ.Sound kept building
  | link σ _ ρ => σ.Sound kept building ∧ ρ.Sound kept building

/-- No variable leads to a handle from outside its definition. -/
def Closed {Γ : List Type} (ρ : Scope τ Γ) : Prop :=
  ρ.Sound (fun _ => False) fun _ => False

end Scope

namespace Parses

def Sound (kept : Definition τ → Prop) (building : AnyScope τ → Prop) {α : Type} :
    Parses τ α → Prop
  | listed _ | drawn _ _ => True
  | mapped _ s | filtered _ s | chosen s | tapped _ _ s => s.Sound kept building
  | choosing s ρ _ _ => s.Sound kept building ∧ ρ.Sound kept building
  | nested ρ _ outer inner =>
    ρ.Sound kept building ∧ outer.Sound kept building ∧ inner.Sound kept building
  | anchored ρ name body s => s.Sound (fun other => other = ⟨ρ, name, body⟩ ∨ kept other) building

end Parses

namespace Task

def Sound (kept : Definition τ → Prop) (building : AnyScope τ → Prop) : Task τ → Prop
  | build ρ _ | invoke ρ _ _ => ρ.Sound kept building
  | pull s | count s _ => s.Sound kept building

def LeavesSound (kept : Definition τ → Prop) (building : AnyScope τ → Prop) :
    (task : Task τ) → task.Result → Prop
  | build _ _, _ | count _ _, _ => True
  | invoke _ _ _, opened => opened.value.Sound kept building
  | pull _, answer => answer.value.next.Sound kept building

def defines : Task τ → List (AnyScope τ)
  | build ρ (.recursive (α := α) _ _) => [⟨α :: _, .pending ρ⟩]
  | _ => []

/-- The definition whose parses the task starts or goes on with. -/
def runs : Task τ → List (Definition τ)
  | invoke ρ (.recursive name body) _ | pull (.anchored ρ name body _) => [⟨ρ, name, body⟩]
  | _ => []

end Task

theorem Scope.Sound.mono {kept kept' : Definition τ → Prop} {building building' : AnyScope τ → Prop}
    (more : ∀ definition, kept definition → kept' definition)
    (also : ∀ ρ, building ρ → building' ρ) {Γ : List Type} {ρ : Scope τ Γ}
    (sound : ρ.Sound kept building) : ρ.Sound kept' building' := by
  induction ρ with
  | empty => trivial
  | share p ρ ih => exact ih sound
  | handle name body ρ ih => exact ⟨more _ sound.1, ih sound.2⟩
  | pending ρ ih => exact ⟨also _ sound.1, ih sound.2⟩
  | link σ p ρ ihLinked ih => exact ⟨ihLinked sound.1, ih sound.2⟩

theorem Parses.Sound.mono {kept kept' : Definition τ → Prop}
    {building building' : AnyScope τ → Prop}
    (more : ∀ definition, kept definition → kept' definition)
    (also : ∀ ρ, building ρ → building' ρ) {s : Parses τ α}
    (sound : s.Sound kept building) : s.Sound kept' building' := by
  induction s generalizing kept kept' with
  | listed parses | drawn parses index => trivial
  | mapped g s ih | filtered keep s ih | chosen s ih | tapped label ended s ih =>
      exact ih more sound
  | choosing s ρ q input ih => exact ⟨ih more sound.1, sound.2.mono more also⟩
  | nested ρ f outer inner ihOuter ihInner =>
      exact ⟨sound.1.mono more also, ihOuter more sound.2.1, ihInner more sound.2.2⟩
  | anchored ρ name body s ih =>
      exact ih (fun other => Or.imp_right (more other)) sound

theorem Owners.Cover.add {live : Owners} {kept : Definition τ → Prop} (cover : live.Cover kept)
    (held : Owners) : (live.add held).Cover kept := by
  intro definition inside
  simp [Owners.add, cover definition inside]

theorem Scope.Sound.get {kept : Definition τ → Prop} {building : AnyScope τ → Prop} {Γ : List Type}
    {ρ : Scope τ Γ} (sound : ρ.Sound kept building) (x : Var Γ α) :
    match ρ.get x with
    | .parser σ _ => σ.Sound kept building
    | .handle name body σ => kept ⟨σ, name, body⟩ ∧ σ.Sound kept building
    | .nothing => building (ρ.dropTo x) := by
  induction x with
  | here =>
      cases ρ with
      | share p ρ => exact sound
      | handle name body ρ => exact sound
      | pending ρ => exact sound.1
      | link σ p ρ => exact sound.1
  | there x ih =>
      cases ρ with
      | share p ρ => exact ih sound
      | handle name body ρ => exact ih sound.2
      | pending ρ => exact ih sound.2
      | link σ p ρ => exact ih sound.2

theorem Scope.Sound.captured {kept : Definition τ → Prop} {building : AnyScope τ → Prop}
    {Γ Δ : List Type} {ρ : Scope τ Γ} (sound : ρ.Sound kept building) (captures : Captures Γ Δ) :
    (ρ.captured captures).Sound kept building := by
  induction captures with
  | all => exact sound
  | none => trivial
  | also x others ih => exact ⟨sound, ih⟩

theorem Parser.keeps_recursive {Γ : List Type} (ρ : Scope τ Γ) (name : Name)
    (body : Parser τ (α :: Γ) α) : (Parser.recursive name body).keeps ρ name = true := by
  simp [Parser.keeps, Parser.holds]

theorem Scope.Sound.define {kept : Definition τ → Prop} {building : AnyScope τ → Prop}
    {Γ : List Type} {ρ : Scope τ Γ} (sound : ρ.Sound kept building) (name : Name)
    (body : Parser τ (α :: Γ) α) :
    (Scope.handle name body ρ).Sound (fun other => other = ⟨ρ, name, body⟩ ∨ kept other) building :=
  ⟨.inl rfl, sound.mono (fun _ => .inr) fun _ => id⟩

theorem Owners.Cover.define {live : Owners} {kept : Definition τ → Prop} (cover : live.Cover kept)
    {Γ : List Type} (ρ : Scope τ Γ) (name : Name) (body : Parser τ (α :: Γ) α) :
    (live.add ((Parser.recursive name body).keeps ρ)).Cover
      fun other => other = ⟨ρ, name, body⟩ ∨ kept other := by
  rintro definition (rfl | inside)
  · simp [Owners.add, Parser.keeps_recursive]
  · exact cover.add _ definition inside

def keepsSound (τ : Type) : Contract τ where
  call _ _ := True
  ask _ _ := True
  result task result :=
    ∀ kept building, task.Sound kept building → task.LeavesSound kept building result

theorem Course.meets_of_forall {contract : Contract τ} {live : Owners} {goal : β → Prop}
    (call : ∀ live task, contract.call live task) (ask : ∀ live name, contract.ask live name)
    (reached : ∀ result, goal result) (course : Course τ β) : course.Meets contract live goal := by
  induction course with
  | done result => exact reached result
  | call held task log next ih => exact ⟨call _ _, fun result _ => ih result⟩
  | alive name yes no ihYes ihNo => exact ⟨ask _ _, fun _ => ihYes, fun _ => ihNo⟩

theorem keepsSound_invoke {Γ : List Type} (live : Owners) (ρ : Scope τ Γ) (p : Parser τ Γ α)
    (input : Input τ) (log : List Event) :
    ((Task.invoke ρ p input).course log).Meets (keepsSound τ) live
      ((keepsSound τ).result (.invoke ρ p input)) := by
  cases p with
  | result v | fail | item | leaf parses => exact fun _ _ _ => trivial
  | bind p captures f =>
      exact ⟨trivial, fun _ opens kept building sound =>
        ⟨sound.captured captures, opens kept building sound, trivial⟩⟩
  | mapM g p | filterM keep p | tap label p =>
      exact ⟨trivial, fun _ opens kept building sound => opens kept building sound⟩
  | or p q =>
      exact ⟨trivial, fun _ opens kept building sound => ⟨opens kept building sound, sound⟩⟩
  | runs x stop extend | noted events p =>
      exact ⟨trivial, fun _ opens => opens⟩
  | recursive name body =>
      exact ⟨trivial, fun _ opens kept building sound => opens _ building (sound.define name body)⟩
  | share p q =>
      exact ⟨trivial, fun _ opens kept building sound => opens kept building sound⟩
  | alone p q =>
      exact ⟨trivial, fun _ opens kept building sound => opens kept building ⟨sound, trivial⟩⟩
  | ref x =>
      have stands kept building (sound : ρ.Sound kept building) := sound.get x
      simp only [Task.course]
      cases found : ρ.get x with
      | parser σ p =>
          rw [found] at stands
          exact ⟨trivial, fun _ opens kept building sound =>
            opens kept building (stands kept building sound)⟩
      | handle name body σ =>
          rw [found] at stands
          refine ⟨trivial, fun _ => ⟨trivial, fun _ opens kept building sound => ?_⟩,
            fun _ _ _ _ => trivial⟩
          exact opens kept building (stands kept building sound).2
      | nothing => exact fun _ _ _ => trivial
  | probe p probed next =>
      exact ⟨trivial, fun _ _ => ⟨trivial, fun _ opens => opens⟩⟩

theorem keepsSound_pull (live : Owners) (s : Parses τ α) (log : List Event) :
    ((Task.pull s).course log).Meets (keepsSound τ) live ((keepsSound τ).result (.pull s)) := by
  cases s with
  | listed parses =>
      cases parses <;> exact fun _ _ _ => trivial
  | drawn parses index =>
      simp only [Task.course]
      cases parses index <;> exact fun _ _ _ => trivial
  | mapped g s | tapped label ended s =>
      refine ⟨trivial, ?_⟩
      rintro ⟨_ | _, _⟩ leaves kept building sound <;> exact leaves kept building sound
  | filtered keep s =>
      refine ⟨trivial, ?_⟩
      rintro ⟨⟨v, rest, s⟩ | s, log⟩ leaves
      · dsimp only
        split
        · exact fun kept building sound => leaves kept building sound
        · exact ⟨trivial, fun _ ends kept building sound =>
            ends kept building (leaves kept building sound)⟩
      · exact fun kept building sound => leaves kept building sound
  | choosing s ρ q input =>
      refine ⟨trivial, ?_⟩
      rintro ⟨⟨v, rest, s⟩ | s, log⟩ leaves
      · exact fun kept building sound => ⟨leaves kept building sound.1, sound.2⟩
      · exact ⟨trivial, fun _ opens => ⟨trivial, fun _ ends kept building sound =>
          ends kept building (opens kept building sound.2)⟩⟩
  | chosen s =>
      refine ⟨trivial, ?_⟩
      rintro ⟨⟨v, rest, s⟩ | s, log⟩ leaves
      · exact fun kept building sound => leaves kept building sound
      · exact fun _ _ _ => trivial
  | nested ρ f outer inner =>
      refine ⟨trivial, ?_⟩
      rintro ⟨⟨v, rest, inner⟩ | inner, log⟩ leavesInner
      · exact fun kept building sound =>
          ⟨sound.1, sound.2.1, leavesInner kept building sound.2.2⟩
      · refine ⟨trivial, ?_⟩
        rintro ⟨⟨v, rest, outer⟩ | outer, log⟩ leavesOuter
        · refine ⟨trivial, fun _ _ => ⟨trivial, fun opened opens => ⟨trivial, fun _ ends => ?_⟩⟩⟩
          intro kept building sound
          exact ends kept building
            ⟨sound.1, leavesOuter kept building sound.2.1, opens kept building sound.1⟩
        · exact fun _ _ _ => trivial
  | anchored ρ name body s =>
      refine ⟨trivial, ?_⟩
      rintro ⟨_ | _, _⟩ leaves kept building sound <;> exact leaves _ building sound

theorem keepsSound_upheld : (keepsSound τ).Upheld := by
  intro live task log _
  cases task with
  | build ρ p | count s found =>
      exact Course.meets_of_forall (fun _ _ => trivial) (fun _ _ => trivial)
        (fun _ _ _ _ => trivial) _
  | invoke ρ p input => exact keepsSound_invoke live ρ p input log
  | pull s => exact keepsSound_pull live s log

theorem Task.LeavesSound.of_run {fuel : Nat} {live : Owners} {kept : Definition τ → Prop}
    {building : AnyScope τ → Prop} {task : Task τ} {log : List Event} {result : task.Result}
    (ran : task.run fuel live log = some result) (sound : task.Sound kept building) :
    task.LeavesSound kept building result :=
  keepsSound_upheld.result_of_run trivial ran kept building sound

def staysSound (kept : Definition τ → Prop) (building : AnyScope τ → Prop) : Contract τ where
  call live task := live.Cover kept ∧ task.Sound kept building
  ask live name := live name = true
  result := (keepsSound τ).result

def Task.keeping (task : Task τ) (kept : Definition τ → Prop) : Definition τ → Prop :=
  fun definition => definition ∈ task.runs ∨ kept definition

theorem Task.keeping_nothing {task : Task τ} {kept : Definition τ → Prop} (none : task.runs = []) :
    task.keeping kept = kept := by
  funext definition
  simp [Task.keeping, none]

theorem Task.keeping_definition {task : Task τ} {kept : Definition τ → Prop}
    {definition : Definition τ} (one : task.runs = [definition]) :
    task.keeping kept = fun other => other = definition ∨ kept other := by
  funext other
  simp [Task.keeping, one]

def Task.defining (task : Task τ) (building : AnyScope τ → Prop) : AnyScope τ → Prop :=
  fun ρ => ρ ∈ task.defines ∨ building ρ

theorem Task.defining_nothing {task : Task τ} {building : AnyScope τ → Prop}
    (none : task.defines = []) : task.defining building = building := by
  funext ρ
  simp [Task.defining, none]

section Calls

variable {live : Owners} {kept : Definition τ → Prop} {building : AnyScope τ → Prop}
variable {Γ : List Type} {ρ : Scope τ Γ}

theorem Scope.Sound.stays_build (sound : ρ.Sound kept building) (cover : live.Cover kept)
    (held : Owners) (p : Parser τ Γ α) :
    (staysSound kept building).call (live.add held) (.build ρ p) :=
  ⟨cover.add held, sound⟩

theorem Scope.Sound.stays_invoke (sound : ρ.Sound kept building) (cover : live.Cover kept)
    (held : Owners) (p : Parser τ Γ α) (input : Input τ) :
    (staysSound kept building).call (live.add held) (.invoke ρ p input) :=
  ⟨cover.add held, sound⟩

theorem Parses.Sound.stays_pull {s : Parses τ α} (sound : s.Sound kept building)
    (cover : live.Cover kept) (held : Owners) :
    (staysSound kept building).call (live.add held) (.pull s) :=
  ⟨cover.add held, sound⟩

theorem staysSound_build (sound : ρ.Sound kept building) (cover : live.Cover kept)
    (p : Parser τ Γ α) (log : List Event) :
    ((Task.build ρ p).course log).Meets
      (staysSound kept ((Task.build ρ p).defining building)) live fun _ => True := by
  cases p with
  | result v | fail | item | leaf parses | runs x stop extend | ref x => trivial
  | bind p captures f | mapM g p | filterM keep p | tap label p | noted events p =>
      rw [Task.defining_nothing rfl]
      exact ⟨sound.stays_build cover _ p, fun _ _ => trivial⟩
  | or p q =>
      rw [Task.defining_nothing rfl]
      exact ⟨sound.stays_build cover _ p, fun _ _ =>
        ⟨sound.stays_build cover _ q, fun _ _ => trivial⟩⟩
  | recursive name body =>
      refine ⟨⟨cover.add _, ?_⟩, fun _ _ => trivial⟩
      exact ⟨.inl (List.mem_singleton_self _), sound.mono (fun _ => id) fun _ => .inr⟩
  | share p q =>
      rw [Task.defining_nothing rfl]
      refine ⟨sound.stays_build cover _ p, fun built _ => ?_⟩
      have shared : (Scope.share built.value ρ).Sound kept building := sound
      exact ⟨shared.stays_build cover _ q, fun _ _ => trivial⟩
  | alone p q =>
      rw [Task.defining_nothing rfl]
      refine ⟨sound.stays_build cover _ p, fun built _ => ?_⟩
      have linked : (Scope.link ρ built.value .empty).Sound kept building := ⟨sound, trivial⟩
      exact ⟨linked.stays_build cover _ q, fun _ _ => trivial⟩
  | probe p input next =>
      rw [Task.defining_nothing rfl]
      refine ⟨sound.stays_build cover _ p, fun built _ => ?_⟩
      refine ⟨sound.stays_invoke cover _ built.value input, fun opened opens => ?_⟩
      have counted : opened.value.Sound kept building := opens kept building sound
      refine ⟨counted.stays_pull cover _, fun found _ => ?_⟩
      exact ⟨sound.stays_build cover _ (next found.value), fun _ _ => trivial⟩

theorem staysSound_invoke (sound : ρ.Sound kept building) (cover : live.Cover kept)
    (p : Parser τ Γ α) (input : Input τ) (log : List Event) :
    ((Task.invoke ρ p input).course log).Meets
      (staysSound ((Task.invoke ρ p input).keeping kept) building) live fun _ => True := by
  cases p with
  | result v | fail | item | leaf parses => trivial
  | bind p captures f | mapM g p | filterM keep p | tap label p | or p q | noted events p =>
      rw [Task.keeping_nothing rfl]
      exact ⟨sound.stays_invoke cover _ p input, fun _ _ => trivial⟩
  | runs x stop extend =>
      rw [Task.keeping_nothing rfl]
      exact ⟨sound.stays_invoke cover _ (.unrolled x stop extend) input, fun _ _ => trivial⟩
  | recursive name body =>
      rw [Task.keeping_definition rfl]
      have inside := sound.define name body
      exact ⟨inside.stays_invoke (cover.define ρ name body) .nobody body input,
        fun _ _ => trivial⟩
  | share p q =>
      rw [Task.keeping_nothing rfl]
      have shared : (Scope.share p ρ).Sound kept building := sound
      exact ⟨shared.stays_invoke cover _ q input, fun _ _ => trivial⟩
  | alone p q =>
      rw [Task.keeping_nothing rfl]
      have linked : (Scope.link ρ p .empty).Sound kept building := ⟨sound, trivial⟩
      exact ⟨linked.stays_invoke cover _ q input, fun _ _ => trivial⟩
  | ref x =>
      rw [Task.keeping_nothing rfl]
      have stands := sound.get x
      simp only [Task.course]
      cases found : ρ.get x with
      | parser σ p =>
          rw [found] at stands
          exact ⟨stands.stays_invoke cover _ p input, fun _ _ => trivial⟩
      | handle name body σ =>
          rw [found] at stands
          refine ⟨cover _ stands.1, fun _ => ?_, fun _ => trivial⟩
          exact ⟨stands.2.stays_invoke cover _ (.recursive name body) input, fun _ _ => trivial⟩
      | nothing => trivial
  | probe p probed next =>
      rw [Task.keeping_nothing rfl]
      exact ⟨sound.stays_build cover _ (.probe p probed next), fun built _ =>
        ⟨sound.stays_invoke cover _ built.value input, fun _ _ => trivial⟩⟩

theorem staysSound_pull {s : Parses τ α} (sound : s.Sound kept building) (cover : live.Cover kept)
    (log : List Event) :
    ((Task.pull s).course log).Meets
      (staysSound ((Task.pull s).keeping kept) building) live fun _ => True := by
  cases s with
  | listed parses => cases parses <;> trivial
  | drawn parses index =>
      simp only [Task.course]
      cases parses index <;> trivial
  | mapped g s | chosen s | tapped label ended s =>
      rw [Task.keeping_nothing rfl]
      have inside : s.Sound kept building := sound
      refine ⟨inside.stays_pull cover _, ?_⟩
      rintro ⟨_ | _, _⟩ _ <;> trivial
  | anchored ρ name body s =>
      rw [Task.keeping_definition rfl]
      have inside : s.Sound (fun other => other = ⟨ρ, name, body⟩ ∨ kept other) building := sound
      refine ⟨inside.stays_pull (cover.define ρ name body) .nobody, ?_⟩
      rintro ⟨_ | _, _⟩ _ <;> trivial
  | filtered keep s =>
      rw [Task.keeping_nothing rfl]
      have inside : s.Sound kept building := sound
      refine ⟨inside.stays_pull cover _, ?_⟩
      rintro ⟨⟨v, rest, s⟩ | s, log⟩ leaves
      · dsimp only
        split
        · trivial
        · have later : (Parses.filtered keep s).Sound kept building := leaves kept building sound
          exact ⟨later.stays_pull cover _, fun _ _ => trivial⟩
      · trivial
  | choosing s ρ q input =>
      rw [Task.keeping_nothing rfl]
      refine ⟨sound.1.stays_pull cover _, ?_⟩
      rintro ⟨⟨v, rest, s⟩ | s, log⟩ _
      · trivial
      · refine ⟨sound.2.stays_invoke cover _ q input, fun opened opens => ?_⟩
        have later : (Parses.chosen opened.value).Sound kept building := opens kept building sound.2
        exact ⟨later.stays_pull cover _, fun _ _ => trivial⟩
  | nested ρ f outer inner =>
      rw [Task.keeping_nothing rfl]
      refine ⟨sound.2.2.stays_pull cover _, ?_⟩
      rintro ⟨⟨v, rest, inner⟩ | inner, log⟩ _
      · trivial
      · refine ⟨sound.2.1.stays_pull cover _, ?_⟩
        rintro ⟨⟨v, rest, outer⟩ | outer, log⟩ leavesOuter
        · refine ⟨sound.1.stays_build cover _ (f v), fun built _ => ?_⟩
          refine ⟨sound.1.stays_invoke cover _ built.value rest, fun opened opens => ?_⟩
          have later : (Parses.nested ρ f outer opened.value).Sound kept building :=
            ⟨sound.1, leavesOuter kept building sound.2.1, opens kept building sound.1⟩
          exact ⟨later.stays_pull cover _, fun _ _ => trivial⟩
        · trivial

theorem staysSound_count {s : Parses τ α} (sound : s.Sound kept building) (cover : live.Cover kept)
    (found : Nat) (log : List Event) :
    ((Task.count s found).course log).Meets (staysSound kept building) live fun _ => True := by
  refine ⟨sound.stays_pull cover _, ?_⟩
  rintro ⟨⟨v, rest, s⟩ | s, log⟩ leaves
  · have later : s.Sound kept building := leaves kept building sound
    exact ⟨later.stays_pull cover _, fun _ _ => trivial⟩
  · trivial

theorem Task.Sound.course_stays {task : Task τ} (sound : task.Sound kept building)
    (cover : live.Cover kept) (log : List Event) :
    (task.course log).Meets (staysSound (task.keeping kept) (task.defining building)) live
      fun _ => True := by
  cases task with
  | build ρ p =>
      rw [Task.keeping_nothing rfl]
      exact staysSound_build sound cover p log
  | invoke ρ p input =>
      rw [Task.defining_nothing rfl]
      exact staysSound_invoke sound cover p input log
  | pull s =>
      rw [Task.defining_nothing rfl]
      exact staysSound_pull sound cover log
  | count s found =>
      rw [Task.keeping_nothing rfl, Task.defining_nothing rfl]
      exact staysSound_count sound cover found log

end Calls

def Owners.everybody : Owners :=
  fun _ => true

theorem Owners.everybody_add (held : Owners) : Owners.everybody.add held = .everybody := by
  funext name
  simp [Owners.add, Owners.everybody]

theorem Course.Meets.follow_everybody {kept : Definition τ → Prop} {building : AnyScope τ → Prop}
    {live : Owners} {goal : β → Prop}
    {run : Owners → (task : Task τ) → List Event → Option task.Result}
    (runs : ∀ live task log result, run live task log = some result →
      (keepsSound τ).result task result)
    (same : ∀ live task log, (staysSound kept building).call live task →
      run live task log = run .everybody task log)
    {course : Course τ β} (meets : course.Meets (staysSound kept building) live goal) :
    course.follow run live = course.follow run .everybody := by
  induction course with
  | done result => rfl
  | call held task log next ih =>
      simp only [Course.follow, same _ _ _ meets.1, Owners.everybody_add]
      cases ran : run .everybody task log with
      | none => rfl
      | some result => exact ih result (meets.2 result (runs _ _ _ _ ran))
  | alive name yes no ihYes _ =>
      have present : live name = true := meets.1
      simpa [Course.follow, present, Owners.everybody] using ihYes (meets.2.1 present)

theorem Task.Sound.run_everybody {live : Owners} {kept : Definition τ → Prop}
    {building : AnyScope τ → Prop} {task : Task τ} (sound : task.Sound kept building)
    (cover : live.Cover kept) (fuel : Nat) (log : List Event) :
    task.run fuel live log = task.run fuel .everybody log := by
  induction fuel generalizing live kept building task log with
  | zero => rfl
  | succ fuel ih =>
      have runs (live : Owners) (task : Task τ) (log : List Event) (result : task.Result)
          (ran : task.run fuel live log = some result) : (keepsSound τ).result task result :=
        keepsSound_upheld.result_of_run trivial ran
      have same (live : Owners) (called : Task τ) (log : List Event)
          (call : (staysSound (task.keeping kept) (task.defining building)).call live called) :
          called.run fuel live log = called.run fuel .everybody log :=
        ih call.2 call.1 log
      exact (sound.course_stays cover log).follow_everybody runs same

theorem Owners.cover_none (live : Owners) : live.Cover fun _ : Definition τ => False :=
  fun _ => False.elim

theorem Owners.everybody_cover (kept : Definition τ → Prop) : Owners.everybody.Cover kept :=
  fun _ _ => rfl

section Covered

variable {kept : Definition τ → Prop} {building : AnyScope τ → Prop} {live : Owners}
variable {Γ : List Type} {ρ : Scope τ Γ}

theorem Scope.Sound.build_covered (sound : ρ.Sound kept building) (cover : live.Cover kept)
    (p : Parser τ Γ α) (fuel : Nat) (log : List Event) :
    p.build fuel live ρ log = p.build fuel .everybody ρ log := by
  have built : (Task.build ρ p).Sound kept building := sound
  simp only [(carried fuel).build]
  exact built.run_everybody cover fuel log

theorem Scope.Sound.invoke_covered (sound : ρ.Sound kept building) (cover : live.Cover kept)
    (p : Parser τ Γ α) (fuel : Nat) (input : Input τ) (log : List Event) :
    p.invoke fuel live ρ input log = p.invoke fuel .everybody ρ input log := by
  have invoked : (Task.invoke ρ p input).Sound kept building := sound
  simp only [(carried fuel).invoke]
  exact invoked.run_everybody cover fuel log

theorem Parses.Sound.pull_covered {s : Parses τ α} (sound : s.Sound kept building)
    (cover : live.Cover kept) (fuel : Nat) (log : List Event) :
    s.pull fuel live log = s.pull fuel .everybody log := by
  have pulled : (Task.pull s).Sound kept building := sound
  simp only [(carried fuel).pull]
  exact pulled.run_everybody cover fuel log

end Covered

section Alone

variable {building : AnyScope τ → Prop} {Γ : List Type} {ρ : Scope τ Γ}

theorem Scope.Sound.build_everybody (sound : ρ.Sound (fun _ => False) building) (live : Owners)
    (p : Parser τ Γ α) (fuel : Nat) (log : List Event) :
    p.build fuel live ρ log = p.build fuel .everybody ρ log :=
  sound.build_covered live.cover_none p fuel log

theorem Scope.Sound.invoke_everybody (sound : ρ.Sound (fun _ => False) building) (live : Owners)
    (p : Parser τ Γ α) (fuel : Nat) (input : Input τ) (log : List Event) :
    p.invoke fuel live ρ input log = p.invoke fuel .everybody ρ input log :=
  sound.invoke_covered live.cover_none p fuel input log

theorem Parses.Sound.pull_everybody {s : Parses τ α} (sound : s.Sound (fun _ => False) building)
    (live : Owners) (fuel : Nat) (log : List Event) :
    s.pull fuel live log = s.pull fuel .everybody log :=
  sound.pull_covered live.cover_none fuel log

end Alone

theorem Scope.Sound.of_invoke {live : Owners} {kept : Definition τ → Prop}
    {building : AnyScope τ → Prop} {Γ : List Type} {ρ : Scope τ Γ} (sound : ρ.Sound kept building)
    {p : Parser τ Γ α} {fuel : Nat} {input : Input τ} {log : List Event}
    {opened : Outcome (Parses τ α)} (ran : p.invoke fuel live ρ input log = some opened) :
    opened.value.Sound kept building := by
  have invoked : (Task.invoke ρ p input).Sound kept building := sound
  rw [(carried fuel).invoke] at ran
  exact Task.LeavesSound.of_run ran invoked

theorem Parses.Sound.of_pull {live : Owners} {kept : Definition τ → Prop}
    {building : AnyScope τ → Prop} {s : Parses τ α} (sound : s.Sound kept building) {fuel : Nat}
    {log : List Event} {answer : Outcome (Answer τ α)}
    (ran : s.pull fuel live log = some answer) : answer.value.next.Sound kept building := by
  have pulled : (Task.pull s).Sound kept building := sound
  rw [(carried fuel).pull] at ran
  exact Task.LeavesSound.of_run ran pulled

theorem Parses.Sound.pulls_everybody {building : AnyScope τ → Prop} {s : Parses τ α}
    (sound : s.Sound (fun _ => False) building) (live : Owners) (fuel times : Nat) :
    s.pulls fuel live times = s.pulls fuel .everybody times := by
  induction times generalizing s with
  | zero => rfl
  | succ times ih =>
      simp only [Parses.pulls, sound.pull_everybody live]
      cases ran : s.pull fuel .everybody [] with
      | none => rfl
      | some answer => simp only [Option.bind_some, ih (sound.of_pull ran)]

end EveryParse
