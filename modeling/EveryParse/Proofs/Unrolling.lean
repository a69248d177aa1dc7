import EveryParse.Proofs.Knot

/-!
A parser that refers to itself is the limit of its finite unrollings, in which the definition is
applied so many times to the parser that has no parses. Whatever comes to an end has gone so deep
into the definition and no deeper, and is the same in every unrolling that goes deeper than that.
Main statement: `recursive_limit_of_unrollings`.
-/

open Filter

namespace EveryParse

variable {τ : Type} {α : Type} {Γ : List Type}

def Parser.unrolling (define : Parser τ (α :: Γ) α) : Nat → Parser τ Γ α
  | 0 => .fail
  | times + 1 => .share (define.unrolling times) define

section Unrolling

variable {ρ : Scope τ Γ} {name : Name} {body : Parser τ (α :: Γ) α}

theorem Parser.unrolling_keeps {other : Name}
    (unkept : (Parser.recursive name body).keeps ρ other = false) (times : Nat) :
    (body.unrolling times).keeps ρ other = false := by
  induction times with
  | zero => rfl
  | succ times ih =>
      simp only [Parser.keeps, Parser.holds, Bool.or_eq_false_iff] at ih unkept
      simp only [Parser.unrolling, Parser.keeps, Parser.holds, ih, unkept.2]

theorem Parser.unrolling_shows_iff {times : Nat} {input : Input τ} {live : Owners}
    {lives : List Owners} {seen : Observation τ α} :
    (body.unrolling (times + 1)).Shows ρ input live lives seen ↔
      body.Shows (.share (body.unrolling times) ρ) input live lives seen := by
  simp only [Parser.shows_iff]
  refine exists_congr fun opened => and_congr_left fun _ => Task.returns_iff_course.trans ?_
  constructor
  · rintro ⟨_, invoked, rfl⟩
    exact invoked
  · exact fun invoked => ⟨opened, invoked, rfl⟩

/-- An unrolling that goes at least this deep stands where the handle does. -/
inductive Unrolled (ρ : Scope τ Γ) (name : Name) (body : Parser τ (α :: Γ) α) (depth : Nat) :
    {Δ : List Type} → {β : Type} → Scope τ (β :: Δ) → Scope τ (β :: Δ) → Prop
  | unrolled {times} (enough : depth ≤ times) :
      Unrolled ρ name body depth (.handle name body ρ) (.share (body.unrolling times) ρ)

def unrolled (ρ : Scope τ Γ) (name : Name) (body : Parser τ (α :: Γ) α) : Exchange τ where
  stands := Unrolled ρ name body
  keeps := (Parser.recursive name body).keeps ρ
  allows call := call.live.Includes ((Parser.recursive name body).keeps ρ)

theorem unrolled_invokes {fuel : Nat} (follows : (unrolled ρ name body).Follows fuel)
    {input : Input τ} {live : Owners} {log : List Event}
    (includes : live.Includes ((Parser.recursive name body).keeps ρ))
    {opened : Outcome (Parses τ α)}
    (ran : (Task.invoke ρ (.recursive name body) input).run fuel live log = some opened)
    (depth : Nat) :
    ∃ enough, ∀ times, enough ≤ times → ∃ s,
      (Task.invoke ρ (body.unrolling (times + 1)) input).Returns live log ⟨s, opened.log⟩ ∧
        (unrolled ρ name body).Sequences depth opened.value s := by
  have alive : live.add ((Parser.recursive name body).keeps ρ) = live :=
    includes.add_of_includes fun _ => id
  cases fuel with
  | zero => cases ran
  | succ fuel =>
      obtain ⟨inside, ranInside, finish⟩ := Option.bind_eq_some_iff.mp ran
      cases finish
      rw [alive] at ranInside
      obtain ⟨enough, opens⟩ := (follows.invoke includes (Task.run_succ ranInside) depth).exists
      refine ⟨enough, fun times le => ?_⟩
      obtain ⟨s, invoked, later⟩ := opens _ (.exchanged (.unrolled le))
      exact ⟨s, Task.returns ⟨_, invoked, rfl⟩, .unanchored (fun _ => id) later⟩

theorem unrolled_lawful : (unrolled ρ name body).Lawful where
  fewer := by
    rintro _ _ le _ _ _ _ ⟨enough⟩
    exact .unrolled (le.trans enough)
  outside := by
    rintro _ _ _ _ _ _ ⟨_⟩ y
    rfl
  held := by
    rintro _ _ _ _ _ ⟨_⟩ other unkept
    exact congrArg (· :: ρ.held other) (Parser.unrolling_keeps unkept _).symm
  includes := id
  makes includes makes name keeps := makes.live_mono (includes name keeps)
  invokes := by
    rintro fuel follows _ _ _ _ _ _ _ _ _ ⟨_⟩ input live log includes opened steps depth
    have alive : live name = true := includes name (Parser.keeps_recursive ρ name body)
    simp only [Scope.get, Referent.invoked, Course.Steps, alive, ↓reduceIte] at steps
    obtain ⟨_, _, ran, rfl⟩ := steps
    obtain ⟨enough, invokes⟩ := unrolled_invokes follows includes ran depth
    filter_upwards [eventually_gt_atTop enough] with more deeper σ' stands
    obtain @⟨times, deep⟩ := stands
    obtain ⟨times, rfl⟩ : ∃ fewer, times = fewer + 1 := ⟨times - 1, by omega⟩
    obtain ⟨s, invoked, later⟩ := invokes times (by omega)
    exact ⟨s, ⟨_, invoked, rfl⟩, later⟩

theorem Parser.unrolling_shows {input : Input τ} {live : Owners} {lives : List Owners}
    (alive : live.Includes ((Parser.recursive name body).keeps ρ))
    (stays : ∀ later ∈ lives, later.Includes ((Parser.recursive name body).keeps ρ))
    {seen : Observation τ α} (shows : (Parser.recursive name body).Shows ρ input live lives seen) :
    ∃ enough, ∀ times, enough ≤ times → (body.unrolling times).Shows ρ input live lives seen := by
  rw [Parser.recursive_shows_iff alive stays] at shows
  obtain ⟨enough, shows⟩ :=
    (unrolled_lawful.shows alive (fun later inside _ => stays later inside) shows).exists
  refine ⟨enough + 1, fun times le => ?_⟩
  obtain ⟨times, rfl⟩ : ∃ fewer, times = fewer + 1 := ⟨times - 1, by omega⟩
  exact Parser.unrolling_shows_iff.mpr (shows _ (.exchanged (.unrolled (by omega))))

theorem Parser.Stores.builds_unrolling {kept : Definition τ → Prop} {building : AnyScope τ → Prop}
    (sound : ρ.Sound kept building) {define : Parser τ (α :: Γ) α} (stores : define.Stores kept ρ)
    {live : Owners} (cover : live.Cover kept) {log log' : List Event}
    (builds : (Task.build (.pending ρ) define).Returns live log ⟨body, log'⟩) (times : Nat) :
    ∃ log'', (Task.build ρ (define.unrolling times)).Returns live log
      ⟨body.unrolling times, log''⟩ := by
  induction times with
  | zero => exact ⟨log, Task.returns rfl⟩
  | succ times ih =>
      obtain ⟨before, built⟩ := ih
      have given := stores.builds sound cover cover builds (body.unrolling times)
      obtain ⟨after, given⟩ := build_at_any_log given before
      exact ⟨after, Task.returns ⟨_, built, _, given, rfl⟩⟩

end Unrolling

/-- Unless a definition runs its handle meanwhile, all its unrollings can be built, and every
observation of the parser that it defines is an observation of all unrollings that go deep enough,
whatever the variables in scope stand for by then. -/
theorem recursive_limit_of_unrollings {ρ : Scope τ Γ} {kept : Definition τ → Prop}
    {building : AnyScope τ → Prop} (sound : ρ.Sound kept building) {name : Name}
    {define : Parser τ (α :: Γ) α} (stores : define.Stores kept ρ) {live : Owners}
    (cover : live.Cover kept) {log : List Event} {p : Outcome (Parser τ Γ α)}
    (builds : (Task.build ρ (.recursive name define)).Returns live log p) :
    ∃ unrollings : Nat → Parser τ Γ α,
      (∀ times, ∃ log', (Task.build ρ (define.unrolling times)).Returns live log
        ⟨unrollings times, log'⟩) ∧
      ∀ (σ : Scope τ Γ) input live lives seen, p.value.StaysAlive σ (live :: lives) →
        p.value.Shows σ input live lives seen → ∃ enough, ∀ times, enough ≤ times →
          (unrollings times).Shows σ input live lives seen := by
  obtain ⟨⟨body, log'⟩, built, rfl⟩ := Task.returns_iff_course.mp builds
  refine ⟨body.unrolling, stores.builds_unrolling sound cover built, ?_⟩
  rintro σ input live lives seen (alive | ⟨kept, building, sound, covers⟩) shows
  · obtain ⟨alive, stays⟩ := List.forall_mem_cons.mp alive
    exact Parser.unrolling_shows alive stays shows
  · obtain ⟨cover, covers⟩ := List.forall_mem_cons.mp covers
    simp only [sound.shows_everybody _ input cover covers] at shows ⊢
    exact Parser.unrolling_shows (Owners.everybody_includes _) (Owners.everybody_stays _ _) shows

def numbers : Parser Char [Nat] Nat :=
  .or (.result 0) (.map (· + 1) (.ref .here))

theorem numbers_limit_of_unrollings :
    let kept : Definition Char → Prop := fun _ => False
    let ρ : Scope Char [] := .empty
    let p : Parser Char [] Nat := .recursive (.site []) numbers
    let input : Input Char := ⟨⟨0, #[]⟩, 0⟩
    ρ.Closed ∧ numbers.Stores kept ρ ∧ (Task.build ρ p).Returns .nobody [] ⟨p, []⟩ ∧
      ∃ unrollings : Nat → Parser Char [] Nat,
        (∀ times, ∃ log', (Task.build ρ (numbers.unrolling times)).Returns .nobody []
          ⟨unrollings times, log'⟩) ∧
        ∃ enough, ∀ times, enough ≤ times →
          (unrollings times).Shows ρ input .nobody (List.replicate 3 .nobody)
            ⟨[], [(some (0, input), []), (some (1, input), []), (some (2, input), [])]⟩ := by
  intro kept ρ p input
  have only : numbers.BuildsOnly := ⟨trivial, trivial⟩
  have stores : numbers.Stores kept ρ := Parser.stores_of_buildsOnly only kept ρ
  have closed : ρ.Closed := trivial
  have cover : Owners.nobody.Cover kept := Owners.cover_none _
  have builds : (Task.build ρ p).Returns .nobody [] ⟨p, []⟩ := ⟨4, rfl⟩
  obtain ⟨unrollings, built, limit⟩ := recursive_limit_of_unrollings closed stores cover builds
  refine ⟨closed, stores, builds, unrollings, built, ?_⟩
  refine limit ρ input _ _ _ (.inr ⟨kept, fun _ => False, closed, ?_⟩) ⟨20, rfl⟩
  simpa using cover

end EveryParse
