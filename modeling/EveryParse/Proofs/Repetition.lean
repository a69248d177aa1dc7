import EveryParse.Proofs.Frames

/-!
Three ways to write a repetition. `many` collects each run from its end and turns it round. It can
also be unrolled once, or be a definition that refers to itself, and then the match in front is put
before each run. Main statement: all three answer every pull alike, with the same events, and use
their operand in the same way.
-/

namespace EveryParse

variable {τ α : Type} {Γ Δ Δ' : List Type}

def Parser.manyUnrolled (p : Parser τ Γ α) : Parser τ Γ (List α) :=
  let further : Parser τ [α] (List α) := (Parser.ref .here).many
  .alone p (.or (.bind (.ref .here) .all fun first => .map (first :: ·) further) (.result []))

def Parser.manyBody : Parser τ [List α, α] (List α) :=
  .or (.bind (.ref (.there .here)) .all fun first => .map (first :: ·) (.ref .here)) (.result [])

def Parser.manyRecursive (name : Name) (p : Parser τ Γ α) : Parser τ Γ (List α) :=
  .alone p (.recursive name .manyBody)

namespace Frame

/-- Runs of `r` are collected from their end. -/
def collecting (σ : Scope τ Δ) (r : Parser τ Δ α) : Frame τ α (Array α) where
  scope := .link σ r .empty
  again := .runs .here #[] fun first rest => rest.push first
  extend first rest := rest.push first
  stop := #[]

def unrolled (ρ : Scope τ Γ) (p : Parser τ Γ α) : Frame τ α (List α) where
  scope := .link ρ p .empty
  again := (Parser.ref .here).many
  extend := List.cons
  stop := []

def recursive (ρ : Scope τ Γ) (name : Name) (p : Parser τ Γ α) : Frame τ α (List α) where
  scope := .handle name .manyBody (.link ρ p .empty)
  again := .ref .here
  extend := List.cons
  stop := []

end Frame

def Collects (collected : Array α) (values : List α) : Prop :=
  collected.toList.reverse = values

theorem Collects.push {collected : Array α} {values : List α} (collects : Collects collected values)
    (first : α) : Collects (collected.push first) (first :: values) := by
  simpa [Collects] using collects

/-- Runs collected from their end, in order. -/
def Parses.turned (s : Parses τ (Array α)) : Parses τ (List α) :=
  .mapped (fun collected => .silent collected.toList.reverse) s

def manyStart (σ : Scope τ Δ) (r : Parser τ Δ α) (s : Parses τ α) (input : Input τ) :
    Parses τ (List α) :=
  ((Frame.collecting σ r).start s input).turned

def recursiveStart (ρ : Scope τ Γ) (name : Name) (p : Parser τ Γ α) (s : Parses τ α)
    (input : Input τ) : Parses τ (List α) :=
  .anchored (.link ρ p .empty) name .manyBody ((Frame.recursive ρ name p).start s input)

theorem Scope.holds_link (σ : Scope τ Δ) (r : Parser τ Δ α) :
    (Scope.link σ r .empty).holds = r.keeps σ := by
  funext name
  simp [Scope.holds, Scope.held, Parser.keeps]

section Repetitions

variable {watched : Task τ → Prop} {always : Owners} {ρ : Scope τ Γ} {p : Parser τ Γ α}
  {name : Name}

/-- Running `r` is running `p`, and the same is kept alive by it. -/
structure Parser.StandsFor (watched : Task τ → Prop) (always : Owners) (σ : Scope τ Δ)
    (r : Parser τ Δ α) (ρ : Scope τ Γ) (p : Parser τ Γ α) : Prop where
  starts : r.StartsFrom watched always σ ρ p fun s _ => s
  keeps : r.keeps σ = p.keeps ρ

theorem Parser.standsFor_self : p.StandsFor watched always ρ ρ p :=
  ⟨Parser.startsFrom_self, rfl⟩

variable (taps : ∀ task, watched task → task.IsTap)
include taps

theorem Parser.StandsFor.link {σ : Scope τ Δ} {r : Parser τ Δ α}
    (stands : r.StandsFor watched always σ ρ p) :
    (Parser.ref .here).StandsFor watched always (.link σ r .empty) ρ p :=
  ⟨stands.starts.ref taps rfl, stands.keeps⟩

theorem linked : (Parser.ref .here).StandsFor watched always (.link ρ p .empty) ρ p :=
  Parser.standsFor_self.link taps

theorem around_collecting {σ : Scope τ Δ} {r : Parser τ Δ α}
    (stands : r.StandsFor watched always σ ρ p) :
    (Frame.collecting σ r).Around watched always ρ p (Frame.collecting σ r).start where
  holds := (Scope.holds_link σ r).trans stands.keeps
  builds _ _ := (Task.called_iff_course (taps _)).mpr (.done _)
  opens := (Frame.startsFrom_or taps (stands.link taps).starts).around (fun _ => id)
    (fun _ => taps _) fun _ _ _ _ _ _ => Iff.rfl

theorem startsFrom_many {σ : Scope τ Δ} {r : Parser τ Δ α}
    (stands : r.StandsFor watched always σ ρ p) :
    r.many.StartsFrom watched always σ ρ p (manyStart σ r) :=
  ((around_collecting taps stands).opens.alone taps).map taps _

theorem many_builds {σ : Scope τ Δ} {r : Parser τ Δ α} {live : Owners} {log : List Event}
    (operand : (Task.build σ r).Called watched live log ⟨r, log⟩ []) :
    (Task.build σ r.many).Called watched live log ⟨r.many, log⟩ [] := by
  let runs : Parser τ [α] (Array α) := .runs .here #[] fun first rest => rest.push first
  have built : (Task.build (.link σ r .empty) runs).Called watched live log ⟨runs, log⟩ [] :=
    (Task.called_iff_course (taps _)).mpr (.done _)
  have alone : (Task.build σ (.alone r runs)).Called watched live log ⟨.alone r runs, log⟩ [] :=
    (Task.called_iff_course (taps _)).mpr (.silent operand (.silent built (.done _)))
  exact (Task.called_iff_course (taps _)).mpr (.silent alone (.done _))

theorem around_unrolled : (Frame.unrolled ρ p).Around watched always ρ p
    (manyStart (.link ρ p .empty) (.ref .here)) where
  holds := Scope.holds_link ρ p
  builds _ _ := many_builds taps ((Task.called_iff_course (taps _)).mpr (.done _))
  opens := startsFrom_many taps (linked taps)

theorem startsFrom_unrolled :
    p.manyUnrolled.StartsFrom watched always ρ ρ p (Frame.unrolled ρ p).start := by
  have operand : (Parser.ref .here).StartsFrom watched always (Frame.unrolled ρ p).scope ρ p
      fun s _ => s :=
    (linked taps).starts
  exact (Frame.startsFrom_or taps operand).alone taps

section Recursive

variable (alive : always.Includes ((p.manyRecursive name).keeps ρ))
include alive

theorem startsFrom_definition : (Parser.recursive name .manyBody).StartsFrom watched always
    (.link ρ p .empty) ρ p (recursiveStart ρ name p) := by
  have operand : (Parser.ref (.there .here)).StartsFrom watched always
      (Frame.recursive ρ name p).scope ρ p fun s _ => s :=
    Parser.startsFrom_self.ref taps rfl
  exact (Frame.startsFrom_or taps operand).recursive taps alive

theorem startsFrom_recursive :
    (p.manyRecursive name).StartsFrom watched always ρ ρ p (recursiveStart ρ name p) :=
  (startsFrom_definition taps alive).alone taps

theorem around_recursive :
    (Frame.recursive ρ name p).Around watched always ρ p (recursiveStart ρ name p) where
  holds := by
    rw [← Scope.holds_link ρ p]
    rfl
  builds _ _ := (Task.called_iff_course (taps _)).mpr (.done _)
  opens := (startsFrom_definition taps alive).handle taps alive rfl

end Recursive

theorem wraps_turned : Wraps watched always Parses.turned
    fun collected : Array α => collected.toList.reverse :=
  wraps_mapped taps _

theorem collecting_follows {σ : Scope τ Δ} {σ' : Scope τ Δ'} {r : Parser τ Δ α} {r' : Parser τ Δ' α}
    (stands : r.StandsFor watched always σ ρ p) (stands' : r'.StandsFor watched always σ' ρ p) :
    Follows watched always Eq (Frame.collecting σ r).start (Frame.collecting σ' r').start :=
  follows_repeating _ _ taps (around_collecting taps stands) (around_collecting taps stands')
    wraps_id wraps_id rfl fun _ _ _ same => same ▸ rfl

theorem unrolled_follows_many :
    Follows watched always Eq (manyStart ρ p) (Frame.unrolled ρ p).start := by
  have inside : Follows watched always Eq (Frame.collecting ρ p).start
      (Frame.collecting (.link ρ p .empty) (.ref .here)).start :=
    collecting_follows taps Parser.standsFor_self (linked taps)
  have behind : Follows watched always Collects (Frame.collecting ρ p).start
      (manyStart (.link ρ p .empty) (.ref .here)) :=
    inside.wrapped wraps_id (wraps_turned taps) fun _ _ same => same ▸ rfl
  have framed := behind.framed taps (around_collecting taps Parser.standsFor_self)
    (around_unrolled taps) rfl fun first _ _ collects => collects.push first
  exact framed.wrapped (wraps_turned taps) wraps_id fun _ _ => id

theorem many_follows_unrolled :
    Follows watched always Eq (Frame.unrolled ρ p).start (manyStart ρ p) := by
  have inside : Follows watched always Eq
      (Frame.collecting (.link ρ p .empty) (.ref .here)).start (Frame.collecting ρ p).start :=
    collecting_follows taps (linked taps) Parser.standsFor_self
  have behind : Follows watched always (fun values collected => Collects collected values)
      (manyStart (.link ρ p .empty) (.ref .here)) (Frame.collecting ρ p).start :=
    inside.wrapped (wraps_turned taps) wraps_id fun _ _ same => same ▸ rfl
  have framed := behind.framed taps (around_unrolled taps)
    (around_collecting taps Parser.standsFor_self) rfl fun first _ _ collects => collects.push first
  exact framed.wrapped wraps_id (wraps_turned taps) fun _ _ => Eq.symm

theorem recursive_follows_many (alive : always.Includes ((p.manyRecursive name).keeps ρ)) :
    Follows watched always Eq (manyStart ρ p) (recursiveStart ρ name p) := by
  have inside : Follows watched always Collects _ _ :=
    follows_repeating (.collecting ρ p) (.recursive ρ name p) taps
      (around_collecting taps Parser.standsFor_self) (around_recursive taps alive) wraps_id
      (wraps_anchored taps alive) rfl fun first _ _ collects => collects.push first
  exact inside.wrapped (wraps_turned taps) wraps_id fun _ _ => id

theorem many_follows_recursive (alive : always.Includes ((p.manyRecursive name).keeps ρ)) :
    Follows watched always Eq (recursiveStart ρ name p) (manyStart ρ p) := by
  have inside : Follows watched always (fun values collected => Collects collected values) _ _ :=
    follows_repeating (.recursive ρ name p) (.collecting ρ p) taps (around_recursive taps alive)
      (around_collecting taps Parser.standsFor_self) (wraps_anchored taps alive) wraps_id rfl
      fun first _ _ collects => collects.push first
  exact inside.wrapped wraps_id (wraps_turned taps) fun _ _ => Eq.symm

end Repetitions

/-- Pull by pull, the three repetitions of `p` show the same: what is found, with which events, and
the watched calls in the order in which they are made. If `p` is tapped, these are its invocations
and the pulls of its sequences. Nobody has to keep anything alive for the first two; the definition
that refers to itself has to stay alive, or else the definitions whose handles are in scope. -/
theorem repetitions_agree {watched : Task τ → Prop} (taps : ∀ task, watched task → task.IsTap)
    (ρ : Scope τ Γ) (p : Parser τ Γ α) (name : Name) (input : Input τ) (live : Owners)
    (lives : List Owners) (seen : Observation τ (List α)) (calls : List (List (Task τ))) :
    (p.many.ShowsWith watched ρ input live lives seen calls ↔
      p.manyUnrolled.ShowsWith watched ρ input live lives seen calls) ∧
    ((p.manyRecursive name).StaysAlive ρ (live :: lives) →
      (p.many.ShowsWith watched ρ input live lives seen calls ↔
        (p.manyRecursive name).ShowsWith watched ρ input live lives seen calls)) := by
  have many (always : Owners) : p.many.StartsFrom watched always ρ ρ p (manyStart ρ p) :=
    startsFrom_many taps Parser.standsFor_self
  constructor
  · have unrolled : p.manyUnrolled.StartsFrom watched .nobody ρ ρ p (Frame.unrolled ρ p).start :=
      startsFrom_unrolled taps
    have nobody (later : Owners) (_ : later ∈ live :: lives) : later.Includes .nobody :=
      later.includes_nobody
    constructor
    · exact Parser.ShowsWith.follow (many _) unrolled (unrolled_follows_many taps) nobody
    · exact Parser.ShowsWith.follow unrolled (many _) (many_follows_unrolled taps) nobody
  · have agree {live : Owners} {lives : List Owners}
        (stays : ∀ later ∈ live :: lives, later.Includes ((p.manyRecursive name).keeps ρ)) :
        p.many.ShowsWith watched ρ input live lives seen calls ↔
          (p.manyRecursive name).ShowsWith watched ρ input live lives seen calls := by
      have alive : Owners.Includes ((p.manyRecursive name).keeps ρ) _ := fun _ => id
      have recursive := startsFrom_recursive taps alive
      constructor
      · exact Parser.ShowsWith.follow (many _) recursive (recursive_follows_many taps alive) stays
      · exact Parser.ShowsWith.follow recursive (many _) (many_follows_recursive taps alive) stays
    rintro (stays | ⟨kept, building, sound, covers⟩)
    · exact agree stays
    · obtain ⟨cover, covers⟩ := List.forall_mem_cons.mp covers
      simp only [sound.showsWith_everybody _ input cover covers]
      exact agree (List.forall_mem_cons.mpr
        ⟨Owners.everybody_includes _, Owners.everybody_stays _ _⟩)

def spelled : Parser Char [] Nat :=
  .tap "spelled" (.or (.map (fun c => c.toNat) .item) (.map (fun _ => 0) .item))

theorem spelled_repetitions_agree :
    let ρ : Scope Char [] := .empty
    let input : Input Char := ⟨⟨0, #['a']⟩, 0⟩
    let lives : List Owners := List.replicate 4 .nobody
    let further : List Event := [.yield "spelled" 1, .run "spelled" 1, .ended "spelled"]
    let seen : Observation Char (List Nat) := ⟨[.run "spelled" 0],
      [(some ([97], input.advance 1), further), (some ([0], input.advance 1), further),
        (some ([], input), [.ended "spelled"]), (none, [])]⟩
    (∀ task : Task Char, task.IsTap → task.IsTap) ∧
      (spelled.manyRecursive (.site [])).StaysAlive ρ (.nobody :: lives) ∧
      ∃ calls, spelled.many.ShowsWith Task.IsTap ρ input .nobody lives seen calls ∧
        spelled.manyUnrolled.ShowsWith Task.IsTap ρ input .nobody lives seen calls ∧
        (spelled.manyRecursive (.site [])).ShowsWith Task.IsTap ρ input .nobody lives seen
          calls := by
  intro ρ input lives further seen
  have taps (task : Task Char) (tap : task.IsTap) : task.IsTap := tap
  have alive : (spelled.manyRecursive (.site [])).StaysAlive ρ (.nobody :: lives) :=
    .inr ⟨fun _ => False, fun _ => False, trivial, fun live _ => live.cover_none⟩
  have many : spelled.many.Shows ρ input .nobody lives seen := ⟨20, rfl⟩
  obtain ⟨calls, many⟩ := (Parser.shows_iff_exists_showsWith Task.IsTap).mp many
  obtain ⟨unrolled, recursive⟩ :=
    repetitions_agree taps ρ spelled (.site []) input .nobody lives seen calls
  exact ⟨taps, alive, calls, many, unrolled.mp many, (recursive alive).mp many⟩

end EveryParse
