import EveryParse.Proofs.Eager
import EveryParse.Proofs.Exhausts
import EveryParse.Proofs.Suffix
import Mathlib.Data.List.Basic
import Mathlib.Tactic.Choose

/-!
Grammars that always finish. Whoever uses the handle of a definition inside that definition has read
a token since the definition began, and what is repeated reads a token each time
(`Parser.Guarded`). Main statement: then draining comes to an end on every input.
-/

namespace EveryParse

variable {τ : Type}

namespace Input

variable {last rest input : Input τ}

structure After (rest input : Input τ) : Prop extends rest.IsSuffixOf input where
  further : input.offset < rest.offset

theorem After.length_lt (after : rest.After input) : rest.length < input.length := by
  have ends := after.ends
  have further := after.further
  simp only [after.buffer] at ends
  simp only [length, after.buffer]
  omega

theorem IsSuffixOf.length_le (suffix : rest.IsSuffixOf input) : rest.length ≤ input.length := by
  have starts := suffix.starts
  simp only [length, suffix.buffer]
  omega

theorem splitFirst_after {parse : τ × Input τ} (split : parse ∈ input.splitFirst.toList) :
    parse.2.After input := by
  rw [Option.mem_toList] at split
  refine ⟨splitFirst_isSuffixOf split, ?_⟩
  simp only [splitFirst, Option.map_eq_some_iff] at split
  obtain ⟨_, _, rfl⟩ := split
  exact Nat.lt_succ_self _

def AtOrAfter (rest input : Input τ) : Prop :=
  rest = input ∨ rest.IsSuffixOf input

theorem AtOrAfter.length_le (after : rest.AtOrAfter input) : rest.length ≤ input.length := by
  rcases after with rfl | suffix
  · exact Nat.le_refl _
  · exact suffix.length_le

theorem AtOrAfter.trans (second : last.AtOrAfter rest) (first : rest.AtOrAfter input) :
    last.AtOrAfter input := by
  rcases second with rfl | second
  · exact first
  · rcases first with rfl | first
    · exact .inr second
    · exact .inr (second.trans first)

theorem AtOrAfter.trans_after (second : last.AtOrAfter rest) (first : rest.After input) :
    last.After input := by
  rcases second with rfl | second
  · exact first
  · exact ⟨second.trans first.toIsSuffixOf, Nat.lt_of_lt_of_le first.further second.starts⟩

theorem After.trans_atOrAfter (second : last.After rest) (first : rest.AtOrAfter input) :
    last.After input := by
  rcases first with rfl | first
  · exact second
  · exact ⟨second.trans first, Nat.lt_of_le_of_lt first.starts second.further⟩

end Input

/-- The parser reads at least one token in each parse, as can be seen from how it is built. -/
def Parser.Consuming {Γ : List Type} {α : Type} : Parser τ Γ α → Prop
  | item | fail => True
  | bind p _ f => p.Consuming ∨ ∀ v, (f v).Consuming
  | mapM _ p | filterM _ p => p.Consuming
  | or p q => p.Consuming ∧ q.Consuming
  | recursive _ body => body.Consuming
  | result _ | leaf _ | runs _ _ _ | share _ _ | alone _ _ | ref _ | tap _ _ | noted _ _
  | probe _ _ _ => False

abbrev Ready (Γ : List Type) :=
  ∀ β : Type, Var Γ β → Prop

namespace Ready

def all {Γ : List Type} : Ready Γ :=
  fun _ _ => True

def define {Γ : List Type} {α : Type} (ready : Ready Γ) : Ready (α :: Γ)
  | _, .here => False
  | _, .there x => ready _ x

def captured {Γ Δ : List Type} (ready : Ready Γ) : Captures Γ Δ → Ready Δ
  | .all => ready
  | .none => fun _ x => nomatch x
  | .also x others => fun
    | _, .here => ready _ x
    | _, .there y => ready.captured others _ y

end Ready

/-- Handles are used when they are ready only, and what is repeated reads a token each time. Behind
a parser that does so, all handles are ready. -/
inductive Parser.Guarded : {Γ : List Type} → {α : Type} → Ready Γ → Parser τ Γ α → Prop
  | result {Γ α} {ready : Ready Γ} (v : α) : Guarded ready (.result v)
  | fail {Γ α} {ready : Ready Γ} : Guarded ready (.fail : Parser τ Γ α)
  | item {Γ} {ready : Ready Γ} : Guarded ready .item
  | bind {Γ Δ α β} {ready : Ready Γ} {p : Parser τ Γ α} {captures : Captures Γ Δ}
      {f : α → Parser τ Δ β} (first : Guarded ready p)
      (next : ∀ v, Guarded (Ready.captured (fun β x => p.Consuming ∨ ready β x) captures) (f v)) :
      Guarded ready (.bind p captures f)
  | mapM {Γ α β} {ready : Ready Γ} {p : Parser τ Γ α} (g : α → Logged β)
      (first : Guarded ready p) : Guarded ready (.mapM g p)
  | filterM {Γ α} {ready : Ready Γ} {p : Parser τ Γ α} (keep : α → Logged Bool)
      (first : Guarded ready p) : Guarded ready (.filterM keep p)
  | or {Γ α} {ready : Ready Γ} {p q : Parser τ Γ α} (first : Guarded ready p)
      (second : Guarded ready q) : Guarded ready (.or p q)
  | many {Γ α} {ready : Ready Γ} {p : Parser τ Γ α} (consuming : p.Consuming)
      (operand : Guarded ready p) : Guarded ready p.many
  | recursive {Γ α} {ready : Ready Γ} (name : Name) {body : Parser τ (α :: Γ) α}
      (inside : Guarded ready.define body) : Guarded ready (.recursive name body)
  | handle {Γ α} {ready : Ready Γ} {x : Var Γ α} (isReady : ready α x) : Guarded ready (.ref x)

def Scope.Guarded {Γ : List Type} : Scope τ Γ → Prop
  | empty => True
  | handle _ body ρ => body.Guarded Ready.all.define ∧ ρ.Guarded
  | link σ p ρ => (∃ x, p = .ref x) ∧ σ.Guarded ∧ ρ.Guarded
  | share _ _ | pending _ => False

variable {α : Type} {Γ : List Type}

theorem Ready.define_mono {ready ready' : Ready Γ}
    (more : ∀ β (x : Var Γ β), ready β x → ready' β x) (β : Type) (x : Var (α :: Γ) β)
    (isReady : ready.define β x) : ready'.define β x := by
  cases x with
  | here => exact isReady.elim
  | there x => exact more β x isReady

theorem Ready.captured_mono {Δ : List Type} {ready ready' : Ready Γ}
    (more : ∀ β (x : Var Γ β), ready β x → ready' β x) (captures : Captures Γ Δ) (β : Type)
    (x : Var Δ β) (isReady : ready.captured captures β x) : ready'.captured captures β x := by
  induction captures with
  | all => exact more β x isReady
  | none => cases x
  | also y others ih =>
      cases x with
      | here => exact more _ y isReady
      | there x => exact ih x isReady

theorem Scope.Guarded.captured {Δ : List Type} {ρ : Scope τ Γ} (definitions : ρ.Guarded)
    (captures : Captures Γ Δ) : (ρ.captured captures).Guarded := by
  induction captures with
  | all => exact definitions
  | none => trivial
  | also x others ih => exact ⟨⟨x, rfl⟩, definitions, ih⟩

theorem Parser.Guarded.mono {ready ready' : Ready Γ} {p : Parser τ Γ α} (guarded : p.Guarded ready)
    (more : ∀ β (x : Var Γ β), ready β x → ready' β x) : p.Guarded ready' := by
  induction guarded with
  | result v => exact .result v
  | fail => exact .fail
  | item => exact .item
  | bind _ _ ihFirst ihNext =>
      refine .bind (ihFirst more) fun v => ihNext v (Ready.captured_mono (fun β x => ?_) _)
      exact Or.imp_right (more β x)
  | mapM g _ ih => exact .mapM g (ih more)
  | filterM keep _ ih => exact .filterM keep (ih more)
  | or _ _ ihFirst ihSecond => exact .or (ihFirst more) (ihSecond more)
  | many consuming _ ih => exact .many consuming (ih more)
  | recursive name _ ih => exact .recursive name (ih (Ready.define_mono more))
  | handle isReady => exact .handle (more _ _ isReady)

theorem Eager.atOrAfter {ρ : Scope τ Γ} {p : Parser τ Γ α} {input : Input τ}
    {parses : List (α × Input τ)} (eager : Eager ρ p input parses) :
    ∀ parse ∈ parses, parse.2.AtOrAfter input := by
  induction eager with
  | result v => simp [Input.AtOrAfter]
  | fail => simp
  | item => exact fun _ member => .inr (Input.splitFirst_after member).toIsSuffixOf
  | bind _ _ ihFirst ihNext =>
      intro parse member
      obtain ⟨before, inside, member⟩ := List.mem_flatMap.mp member
      exact (ihNext before inside parse member).trans (ihFirst before inside)
  | mapM g _ ih =>
      intro parse member
      obtain ⟨before, inside, rfl⟩ := List.mem_map.mp member
      exact ih before inside
  | filterM keep _ ih => exact fun parse member => ih parse (List.mem_of_mem_filter member)
  | or _ _ ihFirst ihSecond =>
      intro parse member
      exact (List.mem_append.mp member).elim (ihFirst parse) (ihSecond parse)
  | many _ _ ihFirst ihNext =>
      intro parse member
      rcases List.mem_append.mp member with member | member
      · obtain ⟨before, inside, member⟩ := List.mem_flatMap.mp member
        obtain ⟨run, inRuns, rfl⟩ := List.mem_map.mp member
        exact (ihNext before inside run inRuns).trans (ihFirst before inside)
      · cases List.mem_singleton.mp member
        exact .inl rfl
  | recursive _ ih | handle _ _ ih | ref _ _ ih => exact ih

theorem Eager.after {ρ : Scope τ Γ} {p : Parser τ Γ α} {input : Input τ}
    {parses : List (α × Input τ)} (eager : Eager ρ p input parses) (consuming : p.Consuming) :
    ∀ parse ∈ parses, parse.2.After input := by
  induction eager with
  | fail => simp
  | item => exact fun _ => Input.splitFirst_after
  | bind first next ihFirst ihNext =>
      intro parse member
      obtain ⟨before, inside, member⟩ := List.mem_flatMap.mp member
      rcases consuming with consuming | consuming
      · exact ((next before inside).atOrAfter parse member).trans_after
          (ihFirst consuming before inside)
      · exact (ihNext before inside (consuming before.1) parse member).trans_atOrAfter
          (first.atOrAfter before inside)
  | mapM g _ ih =>
      intro parse member
      obtain ⟨before, inside, rfl⟩ := List.mem_map.mp member
      exact ih consuming before inside
  | filterM keep _ ih =>
      exact fun parse member => ih consuming parse (List.mem_of_mem_filter member)
  | or _ _ ihFirst ihSecond =>
      intro parse member
      exact (List.mem_append.mp member).elim (ihFirst consuming.1 parse)
        (ihSecond consuming.2 parse)
  | recursive _ ih => exact ih consuming
  | result v | many _ _ _ _ | handle _ _ _ | ref _ _ _ => exact consuming.elim

theorem Eager.of_get {Δ : List Type} {ρ : Scope τ Γ} {σ : Scope τ Δ} {x : Var Γ α} {y : Var Δ α}
    (same : σ.get y = ρ.get x) {input : Input τ} {parses : List (α × Input τ)}
    (eager : Eager ρ (.ref x) input parses) : Eager σ (.ref y) input parses := by
  cases eager with
  | handle stands definition => exact .handle (same.trans stands) definition
  | ref stands parser => exact .ref (same.trans stands) parser

def Scope.HandlesFinish (limit : Nat) (ready : Ready Γ) (ρ : Scope τ Γ) : Prop :=
  ∀ β (x : Var Γ β), ready β x → ∀ input : Input τ, input.length ≤ limit →
    ∃ parses, Eager ρ (.ref x) input parses

theorem Scope.HandlesFinish.define {limit : Nat} {ready : Ready Γ} {ρ : Scope τ Γ}
    (handles : ρ.HandlesFinish limit ready) (name : Name) (body : Parser τ (α :: Γ) α) :
    (Scope.handle name body ρ).HandlesFinish limit ready.define := by
  intro β x isReady input within
  cases x with
  | here => exact isReady.elim
  | there x =>
      obtain ⟨parses, outside⟩ := handles β x isReady input within
      exact ⟨parses, outside.of_get (by rfl)⟩

theorem Scope.HandlesFinish.captured {Δ : List Type} {limit : Nat} {ready : Ready Γ}
    {ρ : Scope τ Γ} (handles : ρ.HandlesFinish limit ready) (captures : Captures Γ Δ) :
    (ρ.captured captures).HandlesFinish limit (ready.captured captures) := by
  induction captures with
  | all => exact handles
  | none => exact fun _ x => nomatch x
  | also x others ih =>
      intro β y isReady input within
      cases y with
      | here =>
          obtain ⟨parses, outside⟩ := handles _ x isReady input within
          exact ⟨parses, .ref rfl outside⟩
      | there y =>
          obtain ⟨parses, others⟩ := ih β y isReady input within
          exact ⟨parses, others.of_get (by rfl)⟩

section Finishes

def FinishesBelow (τ : Type) (limit : Nat) : Prop :=
  ∀ {Γ : List Type} {α : Type} {ρ : Scope τ Γ} {p : Parser τ Γ α}, ρ.Guarded →
    p.Guarded .all → ∀ {input : Input τ}, input.length < limit → ∃ parses, Eager ρ p input parses

variable {limit : Nat} (below : FinishesBelow τ limit)
include below

theorem Parser.Guarded.finishes_of_ready {ready : Ready Γ} {p : Parser τ Γ α}
    (guarded : p.Guarded ready) {ρ : Scope τ Γ} (definitions : ρ.Guarded)
    (handles : ρ.HandlesFinish limit ready) {input : Input τ} (within : input.length ≤ limit) :
    ∃ parses, Eager ρ p input parses := by
  -- The induction is on the parser: what comes behind a token is shorter, and what does not may use
  -- the handles only that are ready.
  induction guarded generalizing input with
  | result v => exact ⟨_, .result v⟩
  | fail => exact ⟨_, .fail⟩
  | item => exact ⟨_, .item⟩
  | @bind _ _ _ _ ready p captures f _ next ihFirst ihNext =>
      obtain ⟨parses, first⟩ := ihFirst definitions handles within
      have known : (ρ.captured captures).Guarded := definitions.captured captures
      have later : ∀ parse ∈ parses, ∃ found,
          Eager (ρ.captured captures) (f parse.1) parse.2 found := by
        intro parse member
        by_cases consuming : p.Consuming
        · have shorter := (first.after consuming parse member).length_lt
          exact below known ((next parse.1).mono fun _ _ _ => trivial) (by omega)
        · have shorter := (first.atOrAfter parse member).length_le
          refine ihNext parse.1 known (Scope.HandlesFinish.captured (fun β x isReady => ?_) _)
            (by omega)
          exact handles β x (isReady.resolve_left consuming)
      choose! each later using later
      exact ⟨_, .bind first later⟩
  | mapM g _ ih =>
      obtain ⟨parses, first⟩ := ih definitions handles within
      exact ⟨_, .mapM g first⟩
  | filterM keep _ ih =>
      obtain ⟨parses, first⟩ := ih definitions handles within
      exact ⟨_, .filterM keep first⟩
  | or _ _ ihFirst ihSecond =>
      obtain ⟨parses, first⟩ := ihFirst definitions handles within
      obtain ⟨others, second⟩ := ihSecond definitions handles within
      exact ⟨_, .or first second⟩
  | @many _ _ _ p consuming operand ih =>
      obtain ⟨parses, first⟩ := ih definitions handles within
      have later : ∀ parse ∈ parses, ∃ runs, Eager ρ p.many parse.2 runs := by
        intro parse member
        have shorter := (first.after consuming parse member).length_lt
        exact below definitions (.many consuming (operand.mono fun _ _ _ => trivial)) (by omega)
      choose! runs later using later
      exact ⟨_, .many first later⟩
  | @recursive _ _ _ name body inside ih =>
      have define : body.Guarded (Ready.define .all) :=
        inside.mono (Ready.define_mono fun _ _ _ => trivial)
      have scope : (Scope.handle name body ρ).Guarded := ⟨define, definitions⟩
      obtain ⟨parses, inside⟩ := ih scope (handles.define name body) within
      exact ⟨parses, .recursive inside⟩
  | handle isReady => exact handles _ _ isReady input within

theorem Scope.Guarded.handles_finish {ρ : Scope τ Γ} (definitions : ρ.Guarded) :
    ρ.HandlesFinish limit .all := by
  induction ρ with
  | empty =>
      intro β x
      cases x
  | share | pending => exact definitions.elim
  | link σ p ρ ihLinked ih =>
      obtain ⟨⟨y, rfl⟩, linked, outside⟩ := definitions
      intro β x _ input within
      cases x with
      | here =>
          obtain ⟨parses, handle⟩ := ihLinked linked _ y trivial input within
          exact ⟨parses, .ref rfl handle⟩
      | there x =>
          obtain ⟨parses, handle⟩ := ih outside β x trivial input within
          exact ⟨parses, handle.of_get (by rfl)⟩
  | handle name body ρ ih =>
      have outside : (Scope.handle name body ρ).HandlesFinish limit Ready.all.define :=
        (ih definitions.2).define name body
      intro β x _ input within
      cases x with
      | there x => exact outside β (.there x) trivial input within
      | here =>
          have scope : (Scope.handle name body ρ).Guarded := definitions
          obtain ⟨parses, inside⟩ := definitions.1.finishes_of_ready below scope outside within
          exact ⟨parses, .handle rfl (.recursive inside)⟩

end Finishes

theorem finishesBelow (limit : Nat) : FinishesBelow τ limit := by
  induction limit with
  | zero => exact fun _ _ _ shorter => absurd shorter (Nat.not_lt_zero _)
  | succ limit ih =>
      intro _ _ ρ p definitions guarded input shorter
      exact guarded.finishes_of_ready ih definitions (definitions.handles_finish ih)
        (Nat.le_of_lt_succ shorter)

theorem Parser.Guarded.finishes {ρ : Scope τ Γ} (definitions : ρ.Guarded) {p : Parser τ Γ α}
    (guarded : p.Guarded .all) (input : Input τ) : ∃ parses, Eager ρ p input parses :=
  finishesBelow _ definitions guarded (Nat.lt_succ_self _)

theorem Parser.Consuming.many_finishes {ρ : Scope τ Γ} {p : Parser τ Γ α}
    (consuming : p.Consuming) (finishes : ∀ input, ∃ parses, Eager ρ p input parses)
    (input : Input τ) :
    ∃ runs, Eager ρ p.many input runs ∧
      ∀ run ∈ runs, run.1.length + input.offset ≤ run.2.offset := by
  induction left : input.length using Nat.strongRecOn generalizing input with
  | ind left ih =>
      subst left
      obtain ⟨parses, first⟩ := finishes input
      have later : ∀ parse ∈ parses, ∃ runs, Eager ρ p.many parse.2 runs ∧
          ∀ run ∈ runs, run.1.length + parse.2.offset ≤ run.2.offset :=
        fun parse member => ih _ (first.after consuming parse member).length_lt _ rfl
      choose! runs later bound using later
      refine ⟨_, .many first later, fun run member => ?_⟩
      rcases List.mem_append.mp member with member | member
      · obtain ⟨parse, inside, member⟩ := List.mem_flatMap.mp member
        obtain ⟨run, inRuns, rfl⟩ := List.mem_map.mp member
        have further := (first.after consuming parse inside).further
        have bound := bound parse inside run inRuns
        simp only [List.length_cons]
        omega
      · cases List.mem_singleton.mp member
        simp

/-- Draining a guarded parser comes to an end on every input, and of a repetition it gives no run
with more matches than tokens read. The handles in scope are those of guarded definitions, which are
kept alive. -/
theorem guarded_grammars_finish {ρ : Scope τ Γ} (definitions : ρ.Guarded)
    {kept : Definition τ → Prop} {building : AnyScope τ → Prop} (sound : ρ.Sound kept building)
    {live : Owners} (cover : live.Cover kept) (input : Input τ) :
    (∀ (α : Type) (p : Parser τ Γ α), p.Guarded .all →
      ∃ found, (⟨ρ, p⟩ : Closure τ α).Exhausts live input found) ∧
    ∀ (α : Type) (p : Parser τ Γ α), p.Consuming → p.Guarded .all →
      ∃ found, (⟨ρ, p.many⟩ : Closure τ (List α)).Exhausts live input found ∧
        ∀ run ∈ found, run.1.length + input.offset ≤ run.2 := by
  have exhausts {α : Type} {p : Parser τ Γ α} {parses} (eager : Eager ρ p input parses) :
      (⟨ρ, p⟩ : Closure τ α).Exhausts live input
        (parses.map fun parse => (parse.1, parse.2.offset)) :=
    (Closure.exhausts_iff_drains sound cover).mpr ⟨parses, eager.drains, rfl⟩
  constructor
  · intro α p guarded
    obtain ⟨parses, eager⟩ := guarded.finishes definitions input
    exact ⟨_, exhausts eager⟩
  · intro α p consuming guarded
    obtain ⟨runs, eager, bound⟩ := consuming.many_finishes (guarded.finishes definitions) input
    refine ⟨_, exhausts eager, fun run member => ?_⟩
    obtain ⟨run, inRuns, rfl⟩ := List.mem_map.mp member
    exact bound run inRuns

def group : Parser Char [Nat] Nat :=
  .bind (.sat (· == '(')) .all fun _ => .bind (.ref .here) .none fun inner =>
    .map (fun _ => inner) (.sat (· == ')'))

/-- The body of a definition that counts pairs of brackets, side by side and inside each other. -/
def brackets : Parser Char [Nat] Nat :=
  .map (fun inner => inner.foldl (· + ·) inner.length) group.many

theorem brackets_finish :
    let ρ : Scope Char [Nat] := .handle (.site []) brackets .empty
    let kept (definition : Definition Char) : Prop := definition = ⟨.empty, .site [], brackets⟩
    let live : Owners := fun name => name == .site []
    let input : Input Char := ⟨⟨0, #['(', '(', ')', ')', '(', ')']⟩, 0⟩
    ρ.Guarded ∧ ρ.Sound kept (fun _ => False) ∧ live.Cover kept ∧
      (∃ found, (⟨ρ, .ref .here⟩ : Closure Char Nat).Exhausts live input found) ∧
      group.Consuming ∧ ∃ found, (⟨ρ, group.many⟩ : Closure Char (List Nat)).Exhausts live input
        found ∧ ∀ run ∈ found, run.1.length + input.offset ≤ run.2 := by
  intro ρ kept live input
  have consuming : group.Consuming := .inl trivial
  have guarded {ready : Ready [Nat]} : group.Guarded ready :=
    .bind (.filterM _ .item) fun _ =>
      .bind (.handle (.inl trivial)) fun _ => .mapM _ (.filterM _ .item)
  have definitions : ρ.Guarded := ⟨.mapM _ (.many consuming guarded), trivial⟩
  have sound : ρ.Sound kept fun _ => False := ⟨rfl, trivial⟩
  have cover : live.Cover kept := by
    rintro definition rfl
    rfl
  obtain ⟨finish, runs⟩ := guarded_grammars_finish definitions sound cover input
  exact ⟨definitions, sound, cover, finish _ _ (.handle trivial), consuming,
    runs _ _ consuming guarded⟩

end EveryParse
