import EveryParse.Proofs.Performances
import EveryParse.Sequence

/-!
Draining a sequence of steps. The parses of the whole are in the lexicographic order of the
alternatives that the steps take, and so is all that happens meanwhile: the parser of a step is
evaluated when the steps before it have got that far, once each time. Main statement:
`sequence_lexicographic`.
-/

namespace EveryParse

variable {τ : Type} {α β : Type} {Γ : List Type}

/-- A step, and what is seen of its parser for each bindings and input. -/
structure KnownStep (τ : Type) (Γ : List Type) (α : Type) extends Step τ Γ α where
  performs : Bindings α → Input τ → Performance τ α

/-- Wherever a step is reached, its parser comes to its end and performs as known. -/
def Performed (ρ : Scope τ Γ) (live : Owners) :
    List (KnownStep τ Γ α) → Bindings α → Input τ → Prop
  | [], _, _ => True
  | step :: steps, bound, input =>
    (step.parser bound).Performs ρ input live (step.performs bound input) ∧
      ∀ parse ∈ (step.performs bound input).parses,
        Performed ρ live steps (bound.extend step.name parse.1) parse.2

structure Visit (τ β : Type) where
  position : List Nat
  events : List Event
  parse : Option (β × Input τ)

namespace Visit

def trace (visit : Visit τ β) : Trace τ β :=
  visit.events.map .inl ++ visit.parse.toList.map .inr

def InOrder (visits : List (Visit τ β)) : Prop :=
  (visits.map position).Pairwise (· < ·)

def under (i : Nat) (visit : Visit τ β) : Visit τ β :=
  { visit with position := i :: visit.position }

def numbered (rows : List (List (Visit τ β))) : List (Visit τ β) :=
  rows.zipIdx.flatMap fun row => row.1.map (under row.2)

variable {rows : List (List (Visit τ β))} {visit : Visit τ β}

theorem mem_numbered :
    visit ∈ numbered rows ↔
      ∃ i row, rows[i]? = some row ∧ ∃ below ∈ row, under i below = visit := by
  simp only [numbered, List.mem_flatMap, List.mem_map, Prod.exists, List.mem_zipIdx_iff_getElem?]
  exact exists_comm

theorem numbered_trace :
    (numbered rows).flatMap trace = rows.flatMap fun row => row.flatMap trace := by
  have below (i : Nat) (row : List (Visit τ β)) :
      (row.map (under i)).flatMap trace = row.flatMap trace := List.flatMap_map _ _ _
  conv_rhs => rw [← List.zipIdx_map_fst 0 rows, List.flatMap_map]
  simp only [numbered, List.flatMap_assoc, below]

theorem numbered_inOrder (each : ∀ row ∈ rows, InOrder row) : InOrder (numbered rows) := by
  have ascending : rows.zipIdx.Pairwise fun row other => row.2 < other.2 := by
    rw [← List.pairwise_map (f := Prod.snd), List.zipIdx_map_snd]
    exact List.pairwise_lt_range' 1
  rw [InOrder, List.pairwise_map, numbered, List.pairwise_flatMap]
  constructor
  · intro row inside
    have ordered := each row.1 (List.fst_mem_of_mem_zipIdx inside)
    rw [InOrder, List.pairwise_map] at ordered
    rw [List.pairwise_map]
    exact ordered.imp fun less => List.cons_lt_cons_iff.mpr (.inr ⟨rfl, less⟩)
  · refine ascending.imp fun less visit inside other insideOther => ?_
    obtain ⟨below, -, rfl⟩ := List.mem_map.mp inside
    obtain ⟨belowOther, -, rfl⟩ := List.mem_map.mp insideOther
    exact List.cons_lt_cons_iff.mpr (.inl less)

theorem inOrder_around {first last : Visit τ β} (start : first.position = [])
    (each : ∀ row ∈ rows, InOrder row) (finish : last.position = [rows.length]) :
    InOrder (first :: (numbered rows ++ [last])) := by
  have below (visit) (member : visit ∈ numbered rows) :
      [] < visit.position ∧ visit.position < [rows.length] := by
    obtain ⟨i, row, there, below, -, rfl⟩ := mem_numbered.mp member
    obtain ⟨less, -⟩ := List.getElem?_eq_some_iff.mp there
    exact ⟨List.nil_lt_cons _ _, List.cons_lt_cons_iff.mpr (.inl less)⟩
  have rows := numbered_inOrder each
  rw [InOrder, List.pairwise_map] at rows ⊢
  refine .cons ?_ (List.pairwise_append.mpr ⟨rows, List.pairwise_singleton _ _, ?_⟩)
  · intro visit member
    rw [start]
    obtain member | member := List.mem_append.mp member
    · exact (below visit member).1
    · rw [List.mem_singleton.mp member, finish]
      exact List.nil_lt_cons _ _
  · intro visit member other memberOther
    rw [List.mem_singleton.mp memberOther, finish]
    exact (below visit member).2

def tuples (visits : List (Visit τ β)) : List (List Nat × (β × Input τ)) :=
  visits.filterMap fun visit => visit.parse.map (visit.position, ·)

variable {visits : List (Visit τ β)}

theorem mem_tuples {position : List Nat} {parse : β × Input τ} :
    (position, parse) ∈ tuples visits ↔ ∃ events, ⟨position, events, some parse⟩ ∈ visits := by
  simp only [tuples, List.mem_filterMap, Option.map_eq_some_iff, Prod.mk.injEq]
  constructor
  · rintro ⟨⟨_, events, _⟩, member, _, rfl, rfl, rfl⟩
    exact ⟨events, member⟩
  · rintro ⟨events, member⟩
    exact ⟨_, member, parse, rfl, rfl, rfl⟩

theorem InOrder.tuples (inOrder : InOrder visits) :
    ((tuples visits).map Prod.fst).Pairwise (· < ·) := by
  rw [InOrder, List.pairwise_map] at inOrder
  rw [List.pairwise_map]
  refine inOrder.filterMap _ fun visit other less found same foundOther sameOther => ?_
  obtain ⟨_, -, rfl⟩ := Option.map_eq_some_iff.mp same
  obtain ⟨_, -, rfl⟩ := Option.map_eq_some_iff.mp sameOther
  exact less

theorem tuples_of_trace :
    (visits.flatMap trace).filterMap Sum.getRight? = (tuples visits).map Prod.snd := by
  induction visits with
  | nil => rfl
  | cons visit visits ih =>
      obtain ⟨position, events, parse | parse⟩ := visit <;>
        simp_all [tuples, trace]

end Visit

structure Stage (τ : Type) (Γ : List Type) (α : Type) where
  steps : List (KnownStep τ Γ α)
  bound : Bindings α
  input : Input τ
  -- The events of the pull that has led here.
  events : List Event

namespace Stage

section

variable (stage : Stage τ Γ α) (value : Bindings α → Logged β)

def ongoing : Option (Performance τ α) :=
  stage.steps.head?.map fun step => step.performs stage.bound stage.input

def next (i : Nat) : Option (Stage τ Γ α) :=
  match stage.steps with
  | [] => none
  | step :: steps =>
    (step.performs stage.bound stage.input).pulls[i]?.map fun pull =>
      ⟨steps, stage.bound.extend step.name pull.1.1, pull.1.2, pull.2⟩

def reach : Stage τ Γ α → List Nat → Option (Stage τ Γ α)
  | stage, [] => some stage
  | stage, i :: position => (stage.next i).bind fun next => next.reach position

def evaluated : List Event :=
  match stage.ongoing with
  | some performance => performance.evaluated
  | none => (value stage.bound).events

def invoked : List Event :=
  match stage.ongoing with
  | some performance => performance.invoked
  | none => []

def found : Option (β × Input τ) :=
  match stage.ongoing with
  | some _ => none
  | none => some ((value stage.bound).value, stage.input)

end

variable {value : Bindings α → Logged β} {start : Stage τ Γ α} {visit : Visit τ β}

/-- When a stage is reached, what comes next is evaluated and invoked, or a parse is found; a stage
is left when the alternatives of its step are used up. -/
inductive Visits (value : Bindings α → Logged β) (start : Stage τ Γ α) : Visit τ β → Prop
  | reached {position stage} (reached : start.reach position = some stage) :
      Visits value start
        ⟨position, stage.events ++ stage.evaluated value ++ stage.invoked, stage.found value⟩
  | left {position stage performance} (reached : start.reach position = some stage)
      (ongoing : stage.ongoing = some performance) :
      Visits value start ⟨position ++ [performance.pulls.length], performance.last, none⟩

theorem visits_parse {position : List Nat} {parse : β × Input τ} :
    (∃ events, start.Visits value ⟨position, events, some parse⟩) ↔
      ∃ stage, start.reach position = some stage ∧ stage.found value = some parse := by
  constructor
  · rintro ⟨events, visits⟩
    generalize same : (⟨position, events, some parse⟩ : Visit τ β) = visit at visits
    cases visits with
    | reached reached =>
        rw [Visit.mk.injEq] at same
        obtain ⟨rfl, -, found⟩ := same
        exact ⟨_, reached, found.symm⟩
    | left reached ongoing => cases same
  · rintro ⟨stage, reached, found⟩
    refine ⟨stage.events ++ stage.evaluated value ++ stage.invoked, ?_⟩
    rw [← found]
    exact .reached reached

theorem Visits.under {next : Stage τ Γ α} {i : Nat} (comes : start.next i = some next)
    (visits : next.Visits value visit) : start.Visits value (visit.under i) := by
  have reach {position stage} (reached : next.reach position = some stage) :
      start.reach (i :: position) = some stage := by rw [Stage.reach, comes]; exact reached
  cases visits with
  | reached reached => exact .reached (reach reached)
  | left reached ongoing => exact .left (reach reached) ongoing

theorem visits_iff :
    start.Visits value visit ↔
      visit = ⟨[], start.events ++ start.evaluated value ++ start.invoked, start.found value⟩ ∨
      (∃ i next below, start.next i = some next ∧ next.Visits value below ∧
        below.under i = visit) ∨
      ∃ performance, start.ongoing = some performance ∧
        visit = ⟨[performance.pulls.length], performance.last, none⟩ := by
  constructor
  · intro visits
    cases visits with
    | @reached position stage reached =>
        cases position with
        | nil =>
            cases reached
            exact .inl rfl
        | cons i position =>
            obtain ⟨next, comes, reached⟩ := Option.bind_eq_some_iff.mp reached
            exact .inr (.inl ⟨i, next, _, comes, .reached reached, rfl⟩)
    | @left position stage performance reached ongoing =>
        cases position with
        | nil =>
            cases reached
            exact .inr (.inr ⟨performance, ongoing, rfl⟩)
        | cons i position =>
            obtain ⟨next, comes, reached⟩ := Option.bind_eq_some_iff.mp reached
            exact .inr (.inl ⟨i, next, _, comes, .left reached ongoing, rfl⟩)
  · rintro (rfl | ⟨i, next, below, comes, visits, rfl⟩ | ⟨performance, ongoing, rfl⟩)
    · exact .reached rfl
    · exact visits.under comes
    · have here : start.reach [] = some start := rfl
      exact .left here ongoing

end Stage

def visits (value : Bindings α → Logged β) :
    List (KnownStep τ Γ α) → Bindings α → Input τ → List Event → List (Visit τ β)
  | [], bound, input, events =>
    [⟨[], events ++ (value bound).events, some ((value bound).value, input)⟩]
  | step :: steps, bound, input, events =>
    let performance := step.performs bound input
    ⟨[], events ++ performance.evaluated ++ performance.invoked, none⟩ ::
      (Visit.numbered (performance.pulls.map fun pull =>
          visits value steps (bound.extend step.name pull.1.1) pull.1.2 pull.2) ++
        [⟨[performance.pulls.length], performance.last, none⟩])

section Visits

variable {value : Bindings α → Logged β} {steps : List (KnownStep τ Γ α)} {bound : Bindings α}
  {input : Input τ} {events : List Event}

theorem mem_visits {visit : Visit τ β} :
    visit ∈ visits value steps bound input events ↔
      Stage.Visits value ⟨steps, bound, input, events⟩ visit := by
  induction steps generalizing bound input events visit with
  | nil =>
      rw [Stage.visits_iff]
      simp [visits, Stage.next, Stage.ongoing, Stage.evaluated, Stage.invoked, Stage.found]
  | cons step steps ih =>
      rw [Stage.visits_iff, visits, List.mem_cons, List.mem_append, Visit.mem_numbered]
      refine or_congr Iff.rfl (or_congr ?_ ?_)
      · simp only [List.getElem?_map, Option.map_eq_some_iff, Stage.next]
        constructor
        · rintro ⟨i, _, ⟨pull, there, rfl⟩, below, member, rfl⟩
          exact ⟨i, _, below, ⟨pull, there, rfl⟩, ih.mp member, rfl⟩
        · rintro ⟨i, _, below, ⟨pull, there, rfl⟩, visits, rfl⟩
          exact ⟨i, _, ⟨pull, there, rfl⟩, below, ih.mpr visits, rfl⟩
      · simp [Stage.ongoing]

theorem visits_inOrder : Visit.InOrder (visits value steps bound input events) := by
  induction steps generalizing bound input events with
  | nil => exact List.pairwise_singleton _ _
  | cons step steps ih =>
      refine Visit.inOrder_around rfl (fun row inside => ?_) (by simp)
      obtain ⟨pull, -, rfl⟩ := List.mem_map.mp inside
      exact ih

theorem visits_trace :
    (visits value steps bound input events).flatMap Visit.trace =
      events.map .inl ++ (visits value steps bound input []).flatMap Visit.trace := by
  cases steps <;> simp [visits, Visit.trace]

end Visits

theorem sequence_plays {kept : Definition τ → Prop} {building : AnyScope τ → Prop} {live : Owners}
    {ρ : Scope τ Γ} (sound : ρ.Sound kept building) (cover : live.Cover kept)
    {steps : List (KnownStep τ Γ α)} (value : Bindings α → Logged β) {bound : Bindings α}
    {input : Input τ} (performed : Performed ρ live steps bound input) :
    ∃ whole : Performance τ β,
      (Parser.sequence (steps.map KnownStep.toStep) value bound).Plays ρ input whole ∧
        whole.evaluated = Stage.evaluated ⟨steps, bound, input, []⟩ value ∧
        whole.invoked = Stage.invoked ⟨steps, bound, input, []⟩ ∧
        whole.trace = (visits value steps bound input []).flatMap Visit.trace := by
  induction steps generalizing bound input with
  | nil =>
      refine ⟨_, evaluated_plays (value bound), rfl, rfl, ?_⟩
      simp [Performance.trace, Performance.drained, visits, Visit.trace]
  | cons step steps ih =>
      obtain ⟨performs, later⟩ := performed
      have first := (Parser.performs_iff_plays sound cover).mp performs
      -- Behind a parse of the first step comes all that the steps behind it do.
      let rest (v : α) : Parser τ Γ β :=
        .sequence (steps.map KnownStep.toStep) value (bound.extend step.name v)
      let behind (parse : α × Input τ) : Trace τ β :=
        (visits value steps (bound.extend step.name parse.1) parse.2 []).flatMap Visit.trace
      have each : ∀ parse ∈ (step.performs bound input).parses,
          ∃ performance, (rest parse.1).Plays ρ parse.2 performance ∧
            performance.trace = behind parse := by
        intro parse inside
        obtain ⟨inner, plays, -, -, trace⟩ := ih (later parse inside)
        exact ⟨inner, plays, trace⟩
      obtain ⟨whole, plays, evaluated, invoked, drained⟩ := bind_plays first .all each
      refine ⟨whole, plays, evaluated, invoked, ?_⟩
      have rows (pull : (α × Input τ) × List Event) :
          (visits value steps (bound.extend step.name pull.1.1) pull.1.2 pull.2).flatMap
            Visit.trace = pull.2.map .inl ++ behind pull.1 := visits_trace
      simp [Performance.trace, evaluated, invoked, drained, visits, rows, Visit.numbered_trace,
        List.flatMap_map, Visit.trace]

theorem Stage.steps_of_reach {start stage : Stage τ Γ α} {position : List Nat}
    (reached : start.reach position = some stage) :
    stage.steps = start.steps.drop position.length := by
  induction position generalizing start with
  | nil =>
      cases reached
      rfl
  | cons i position ih =>
      obtain ⟨next, comes, reached⟩ := Option.bind_eq_some_iff.mp reached
      obtain ⟨_ | ⟨step, steps⟩, bound, input, events⟩ := start
      · cases comes
      · obtain ⟨pull, -, rfl⟩ := Option.map_eq_some_iff.mp comes
        exact ih reached

theorem Bindings.lookup_extend (bound : Bindings α) (name : Option String) (v : α) (x : String) :
    (bound.extend name v).lookup x = if name = some x then some v else bound.lookup x := by
  cases name with
  | none => rfl
  | some name =>
      rw [extend, List.lookup_cons]
      by_cases same : x = name
      · simp [same]
      · simp [beq_false_of_ne same, Ne.symm same]

theorem sequence_lexicographic {kept : Definition τ → Prop} {building : AnyScope τ → Prop}
    {live : Owners} {ρ : Scope τ Γ} (sound : ρ.Sound kept building) (cover : live.Cover kept)
    (steps : List (KnownStep τ Γ α)) (value : Bindings α → Logged β) (bound : Bindings α)
    (input : Input τ) (performed : Performed ρ live steps bound input) :
    let start : Stage τ Γ α := ⟨steps, bound, input, []⟩
    (∃ whole : Performance τ β,
      (∀ performance, (Parser.sequence (steps.map KnownStep.toStep) value bound).Performs ρ input
        live performance ↔ performance = whole) ∧
      (∃ tuples : List (List Nat × (β × Input τ)), (tuples.map Prod.fst).Pairwise (· < ·) ∧
        (∀ position parse, (position, parse) ∈ tuples ↔
          ∃ stage, start.reach position = some stage ∧ stage.found value = some parse) ∧
        whole.parses = tuples.map Prod.snd) ∧
      whole.evaluated = start.evaluated value ∧ whole.invoked = start.invoked ∧
      ∃ visits : List (Visit τ β), Visit.InOrder visits ∧
        (∀ visit, visit ∈ visits ↔ start.Visits value visit) ∧
        whole.trace = visits.flatMap Visit.trace ∧
        (steps ≠ [] → whole.drained = visits.tail.flatMap Visit.trace)) ∧
    (∀ position stage, start.reach position = some stage →
      stage.steps = steps.drop position.length) ∧
    ∀ (bound : Bindings α) (name : Option String) (v : α) (x : String),
      (bound.extend name v).lookup x = if name = some x then some v else bound.lookup x := by
  intro start
  obtain ⟨whole, plays, evaluated, invoked, trace⟩ := sequence_plays sound cover value performed
  have inOrder : Visit.InOrder (visits value steps bound input []) := visits_inOrder
  refine ⟨⟨whole, fun performance => ?_, ⟨_, inOrder.tuples, fun position parse => ?_, ?_⟩,
    evaluated, invoked, _, inOrder, fun _ => mem_visits, trace, fun more => ?_⟩,
    fun _ _ => Stage.steps_of_reach, Bindings.lookup_extend⟩
  · rw [Parser.performs_iff_plays sound cover]
    exact ⟨fun other => other.unique plays, fun same => same ▸ plays⟩
  · simp only [Visit.mem_tuples, mem_visits, Stage.visits_parse]
    rfl
  · rw [← whole.parses_of_trace, trace, Visit.tuples_of_trace]
  · cases steps with
    | nil => exact absurd rfl more
    | cons step steps =>
        rw [Performance.trace, evaluated, invoked, visits, List.flatMap_cons] at trace
        simpa [Visit.trace, Stage.evaluated, Stage.invoked, Stage.ongoing, visits] using trace

/-- The first step reads a token or none, and the second one, which gives its value the same name,
has an alternative more when a token was read. -/
def renamed : List (KnownStep Char [] Nat) :=
  [{ name := some "x"
     parser := fun _ => .noted [.note "p"] (.or (.map (fun _ => 1) .item) (.result 2))
     performs := fun _ input =>
      ⟨[.note "p"], [], [((1, input.advance 1), []), ((2, input), [])], []⟩ },
   { name := some "x"
     parser := fun bound => .noted [.note "q"] <|
      match bound.lookup "x" with
      | some 1 => .or (.result 10) (.result 11)
      | _ => .result 20
     performs := fun bound input =>
      match bound.lookup "x" with
      | some 1 => ⟨[.note "q"], [], [((10, input), []), ((11, input), [])], []⟩
      | _ => ⟨[.note "q"], [], [((20, input), [])], []⟩ }]

theorem renamed_in_order :
    let ρ : Scope Char [] := .empty
    let input : Input Char := ⟨⟨0, #['a']⟩, 0⟩
    let value (bound : Bindings Nat) : Logged Nat := ⟨(bound.lookup "x").getD 0, [.note "e"]⟩
    let start : Stage Char [] Nat := ⟨renamed, [], input, []⟩
    ρ.Closed ∧ Performed ρ .nobody renamed [] input ∧
      (Parser.sequence (renamed.map KnownStep.toStep) value []).Performs ρ input .nobody
        ⟨[.note "p"], [], [((10, input.advance 1), [.note "q", .note "e"]),
          ((11, input.advance 1), [.note "e"]), ((20, input), [.note "q", .note "e"])], []⟩ ∧
      ∃ tuples : List (List Nat × (Nat × Input Char)), (tuples.map Prod.fst).Pairwise (· < ·) ∧
        (∀ position parse, (position, parse) ∈ tuples ↔
          ∃ stage, start.reach position = some stage ∧ stage.found value = some parse) ∧
        tuples.map Prod.snd = [(10, input.advance 1), (11, input.advance 1), (20, input)] := by
  intro ρ input value start
  have closed : ρ.Closed := trivial
  have cover : Owners.nobody.Cover fun _ : Definition Char => False := Owners.cover_none _
  have performed : Performed ρ .nobody renamed [] input := by
    refine ⟨⟨9, _, rfl, 9, rfl⟩, ?_⟩
    refine List.forall_mem_cons.mpr ⟨?_, List.forall_mem_cons.mpr ⟨?_, nofun⟩⟩
    · exact ⟨⟨9, _, rfl, 9, rfl⟩, fun _ _ => trivial⟩
    · exact ⟨⟨9, _, rfl, 9, rfl⟩, fun _ _ => trivial⟩
  have ran : (Parser.sequence (renamed.map KnownStep.toStep) value []).Performs ρ input .nobody
      ⟨[.note "p"], [], [((10, input.advance 1), [.note "q", .note "e"]),
        ((11, input.advance 1), [.note "e"]), ((20, input), [.note "q", .note "e"])], []⟩ :=
    ⟨20, _, rfl, 20, rfl⟩
  obtain ⟨⟨whole, performs, ⟨tuples, ascending, reached, parses⟩, -⟩, -⟩ :=
    sequence_lexicographic closed cover renamed value [] input performed
  obtain rfl := (performs _).mp ran
  exact ⟨closed, performed, ran, tuples, ascending, reached, parses.symm⟩

end EveryParse
