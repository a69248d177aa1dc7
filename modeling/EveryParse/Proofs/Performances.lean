import EveryParse.Proofs.Drains
import EveryParse.Proofs.Knot
import EveryParse.Proofs.MonadLaws

/-!
Everything that happens when a parser is built, invoked and drained, in one trace: the events, and
among them the parses when they are found. Main statement: in the trace of a bind, all that the
continuation does with a parse comes right behind that parse (`bind_plays`).
-/

namespace EveryParse

variable {τ : Type} {α β : Type} {Γ : List Type}

/-- Events and parses, in the order in which they come. -/
abbrev Trace (τ α : Type) :=
  List (Event ⊕ (α × Input τ))

structure Performance (τ α : Type) where
  evaluated : List Event
  invoked : List Event
  -- Each parse, with the events of the pull that finds it.
  pulls : List ((α × Input τ) × List Event)
  -- The events of the pull that finds the end.
  last : List Event

namespace Performance

variable (performance : Performance τ α)

def parses : List (α × Input τ) :=
  performance.pulls.map Prod.fst

def observation : Observation τ α :=
  ⟨performance.invoked, performance.pulls.map (Prod.map some id) ++ [(none, performance.last)]⟩

def drained : Trace τ α :=
  performance.pulls.flatMap (fun pull => pull.2.map .inl ++ [.inr pull.1]) ++
    performance.last.map .inl

def trace : Trace τ α :=
  (performance.evaluated ++ performance.invoked).map .inl ++ performance.drained

theorem parses_of_trace : performance.trace.filterMap Sum.getRight? = performance.parses := by
  have events (log : List Event) :
      (log.map .inl : Trace τ α).filterMap Sum.getRight? = [] := by simp
  simp only [trace, drained, parses, List.filterMap_append, events, List.filterMap_flatMap]
  simp [← List.map_eq_flatMap]

end Performance

def Parser.Performs (ρ : Scope τ Γ) (p : Parser τ Γ α) (input : Input τ) (live : Owners)
    (performance : Performance τ α) : Prop :=
  ∃ fuel built, p.build fuel live ρ [] = some ⟨built, performance.evaluated.reverse⟩ ∧
    built.Shows ρ input live (List.replicate (performance.pulls.length + 1) live)
      performance.observation

inductive Parses.Plays : Parses τ α → List ((α × Input τ) × List Event) → List Event → Prop
  | ended {s left log} (pulled : (Task.pull s).Comes [] ⟨.ended left, log⟩) :
      Plays s [] log.reverse
  | parse {s v rest left log pulls last}
      (pulled : (Task.pull s).Comes [] ⟨.parse v rest left, log⟩) (later : Plays left pulls last) :
      Plays s (((v, rest), log.reverse) :: pulls) last

theorem Parses.plays_iff_shows {s : Parses τ α} {pulls : List ((α × Input τ) × List Event)}
    {last : List Event} :
    s.Plays pulls last ↔ s.Shows (List.replicate (pulls.length + 1) .everybody)
      (pulls.map (Prod.map some id) ++ [(none, last)]) := by
  constructor
  · intro plays
    induction plays with
    | ended pulled =>
        exact Parses.shows_cons.mpr ⟨_, [], pulled, Parses.shows_nil.mpr rfl, rfl⟩
    | parse pulled _ ih => exact Parses.shows_cons.mpr ⟨_, _, pulled, ih, rfl⟩
  · intro shows
    induction pulls generalizing s with
    | nil =>
        obtain ⟨⟨⟨v, rest, left⟩ | left, log⟩, later, pulled, _, same⟩ := Parses.shows_cons.mp shows
        · cases same
        · cases same
          exact .ended pulled
    | cons pull pulls ih =>
        obtain ⟨⟨v, rest⟩, events⟩ := pull
        obtain ⟨⟨⟨v, rest, left⟩ | left, log⟩, later, pulled, shows, same⟩ :=
          Parses.shows_cons.mp shows
        · cases same
          exact .parse pulled (ih shows)
        · cases same

theorem Parses.Plays.unique {s : Parses τ α} {pulls pulls' : List ((α × Input τ) × List Event)}
    {last last' : List Event} (first : s.Plays pulls last) (second : s.Plays pulls' last') :
    pulls = pulls' ∧ last = last' := by
  induction first generalizing pulls' with
  | ended pulled =>
      cases second with
      | ended pulled' =>
          cases pulled.unique pulled'
          exact ⟨rfl, rfl⟩
      | parse pulled' => cases pulled.unique pulled'
  | parse pulled _ ih =>
      cases second with
      | ended pulled' => cases pulled.unique pulled'
      | parse pulled' later =>
          cases pulled.unique pulled'
          obtain ⟨rfl, rfl⟩ := ih later
          exact ⟨rfl, rfl⟩

def Parser.Plays (ρ : Scope τ Γ) (p : Parser τ Γ α) (input : Input τ)
    (performance : Performance τ α) : Prop :=
  ∃ built opened, (Task.build ρ p).Comes [] ⟨built, performance.evaluated.reverse⟩ ∧
    (Task.invoke ρ built input).Comes [] ⟨opened, performance.invoked.reverse⟩ ∧
    opened.Plays performance.pulls performance.last

section Parsers

variable {ρ : Scope τ Γ} {p : Parser τ Γ α} {input : Input τ}
  {performance performance' : Performance τ α}

theorem Parser.Plays.unique (first : p.Plays ρ input performance)
    (second : p.Plays ρ input performance') : performance = performance' := by
  obtain ⟨evaluated, invoked, pulls, last⟩ := performance
  obtain ⟨evaluated', invoked', pulls', last'⟩ := performance'
  obtain ⟨built, opened, builds, invokes, plays⟩ := first
  obtain ⟨built', opened', builds', invokes', plays'⟩ := second
  have same := builds.unique builds'
  simp only [Outcome.mk.injEq, List.reverse_inj] at same
  obtain ⟨rfl, rfl⟩ := same
  have same := invokes.unique invokes'
  simp only [Outcome.mk.injEq, List.reverse_inj] at same
  obtain ⟨rfl, rfl⟩ := same
  obtain ⟨rfl, rfl⟩ := plays.unique plays'
  rfl

theorem Parser.performs_iff_plays {kept : Definition τ → Prop} {building : AnyScope τ → Prop}
    (sound : ρ.Sound kept building) {live : Owners} (cover : live.Cover kept) :
    p.Performs ρ input live performance ↔ p.Plays ρ input performance := by
  have builds (built : Outcome (Parser τ Γ α)) :
      (∃ fuel, p.build fuel live ρ [] = some built) ↔ (Task.build ρ p).Comes [] built := by
    simp only [sound.build_covered cover, (carried _).build, Task.Comes]
  have covers (later) (member : later ∈ List.replicate (performance.pulls.length + 1) live) :
      later.Cover kept := (List.eq_of_mem_replicate member).symm ▸ cover
  have shows (built : Parser τ Γ α) := sound.shows_everybody built input cover covers
  simp only [List.map_replicate] at shows
  simp only [Parser.Performs, Parser.Plays, shows, Parser.shows_iff, Parses.plays_iff_shows,
    Performance.observation]
  constructor
  · rintro ⟨fuel, built, ran, opened, invokes, plays, same⟩
    refine ⟨built, opened.value, (builds _).mp ⟨fuel, ran⟩, ?_, plays⟩
    rw [← same, List.reverse_reverse]
    exact invokes
  · rintro ⟨built, opened, ran, invokes, plays⟩
    obtain ⟨fuel, ran⟩ := (builds _).mpr ran
    exact ⟨fuel, built, ran, _, invokes, plays, by simp⟩

end Parsers

inductive Parses.Traces : Parses τ α → Trace τ α → Prop
  | ended {s left log} (pulled : (Task.pull s).Comes [] ⟨.ended left, log⟩) :
      Traces s (log.reverse.map .inl)
  | parse {s v rest left log trace}
      (pulled : (Task.pull s).Comes [] ⟨.parse v rest left, log⟩) (later : Traces left trace) :
      Traces s (log.reverse.map .inl ++ .inr (v, rest) :: trace)

theorem Parses.Plays.traces {s : Parses τ α} {pulls : List ((α × Input τ) × List Event)}
    {last : List Event} (plays : s.Plays pulls last) (evaluated invoked : List Event) :
    s.Traces (Performance.drained ⟨evaluated, invoked, pulls, last⟩) := by
  induction plays with
  | ended pulled => exact .ended pulled
  | parse pulled _ ih => simpa [Performance.drained] using Traces.parse pulled ih

namespace Parses.Traces

variable {s t : Parses τ α} {trace : Trace τ α}

theorem empty : (Parses.empty : Parses τ α).Traces [] :=
  .ended (Parses.empty_pull _ _)

theorem plays (traces : s.Traces trace) (evaluated invoked : List Event) :
    ∃ performance : Performance τ α, performance.evaluated = evaluated ∧
      performance.invoked = invoked ∧ s.Plays performance.pulls performance.last ∧
      performance.drained = trace := by
  induction traces with
  | ended pulled => exact ⟨⟨_, _, [], _⟩, rfl, rfl, .ended pulled, rfl⟩
  | parse pulled _ ih =>
      obtain ⟨performance, -, -, plays, rfl⟩ := ih
      refine ⟨⟨_, _, _ :: performance.pulls, _⟩, rfl, rfl, .parse pulled plays, ?_⟩
      simp [Performance.drained]

theorem of_later {log : List Event}
    (goes : ∀ answer, (Task.pull t).Comes log answer → (Task.pull s).Comes [] answer)
    (traces : t.Traces trace) : s.Traces (log.reverse.map .inl ++ trace) := by
  cases traces with
  | ended pulled =>
      have pulled := goes _ (Task.Returns.from_log pulled log)
      simpa using ended pulled
  | parse pulled later =>
      have pulled := goes _ (Task.Returns.from_log pulled log)
      simpa using parse pulled later

end Parses.Traces

section Nested

variable {ρ : Scope τ Γ} {f : α → Parser τ Γ β} {outer : Parses τ α} {inner : Parses τ β}
  {trace : Trace τ β}

theorem nested_traces_inner (inside : inner.Traces trace) {others : Trace τ β}
    (behind : ∀ {last : Parses τ β} {spent log},
      (Task.pull last).Comes [] ⟨.ended spent, log⟩ →
        (Parses.nested ρ f outer last).Traces (log.reverse.map .inl ++ others)) :
    (Parses.nested ρ f outer inner).Traces (trace ++ others) := by
  induction inside with
  | ended pulled => exact behind pulled
  | @parse s v rest left log _ pulled _ ih =>
      have pulled : (Task.pull (.nested ρ f outer s)).Comes []
          ⟨.parse v rest (.nested ρ f outer left), log⟩ := Task.comes ⟨_, pulled, rfl⟩
      simpa using Parses.Traces.parse pulled ih

theorem nested_traces {pulls : List ((α × Input τ) × List Event)} {last : List Event}
    (plays : outer.Plays pulls last) {behind : α × Input τ → Trace τ β}
    (each : ∀ pull ∈ pulls, ∃ performance, (f pull.1.1).Plays ρ pull.1.2 performance ∧
      performance.trace = behind pull.1)
    (inside : inner.Traces trace) :
    (Parses.nested ρ f outer inner).Traces (trace ++
      (pulls.flatMap (fun pull => pull.2.map .inl ++ behind pull.1) ++ last.map .inl)) := by
  -- The outer parses are taken one by one, and each time the inner sequence is drained first.
  induction plays generalizing inner trace with
  | @ended outer _ own outside =>
      refine nested_traces_inner inside fun {last _ log} ended => ?_
      have outside := Task.Returns.from_log outside log
      have pulled : (Task.pull (.nested ρ f outer last)).Comes [] ⟨.ended .empty, own ++ log⟩ :=
        Task.comes ⟨_, ended, _, outside, rfl⟩
      simpa using Parses.Traces.ended pulled
  | @parse outer v rest left own pulls _ outside _ ih =>
      rw [List.forall_mem_cons] at each
      obtain ⟨⟨performance, ⟨built, opened, builds, invokes, plays⟩, same⟩, each⟩ := each
      refine nested_traces_inner inside fun {last _ log} ended => ?_
      have outside := Task.Returns.from_log outside log
      have builds := Task.Returns.from_log builds (own ++ log)
      have invokes := Task.Returns.from_log invokes (performance.evaluated.reverse ++ (own ++ log))
      have goes (answer) (ran : (Task.pull (.nested ρ f left opened)).Comes _ answer) :
          (Task.pull (.nested ρ f outer last)).Comes [] answer :=
        Task.comes ⟨_, ended, _, outside, _, builds, _, invokes, _, ran, rfl⟩
      have inside := plays.traces performance.evaluated performance.invoked
      have traces := Parses.Traces.of_later goes (ih each inside)
      simpa [← same, Performance.trace] using traces

end Nested

/-! Performances of parsers. -/

section Parsers

variable {ρ : Scope τ Γ} {input : Input τ}

theorem evaluated_plays (value : Logged α) :
    (Parser.evaluated value).Plays ρ input
      ⟨value.events, [], [((value.value, input), [])], []⟩ := by
  have builds : (Task.build ρ (.evaluated value)).Comes []
      ⟨.result value.value, value.events.reverse⟩ :=
    Task.comes ⟨_, Task.comes rfl, by simp [Course.Comes]⟩
  have invokes : (Task.invoke ρ (.result value.value) input).Comes []
      ⟨.listed [(value.value, input)], []⟩ := Task.comes rfl
  refine ⟨_, _, builds, invokes, ?_⟩
  exact .parse (Parses.single_pull _ _ _ _) (.ended (Parses.empty_pull _ _))

theorem bind_plays {p : Parser τ Γ α} {first : Performance τ α} (plays : p.Plays ρ input first)
    {Δ : List Type} (captures : Captures Γ Δ) {f : α → Parser τ Δ β}
    {behind : α × Input τ → Trace τ β}
    (each : ∀ parse ∈ first.parses, ∃ performance,
      (f parse.1).Plays (ρ.captured captures) parse.2 performance ∧
        performance.trace = behind parse) :
    ∃ whole : Performance τ β, (Parser.bind p captures f).Plays ρ input whole ∧
      whole.evaluated = first.evaluated ∧ whole.invoked = first.invoked ∧
      whole.drained = first.pulls.flatMap (fun pull => pull.2.map .inl ++ behind pull.1) ++
        first.last.map .inl := by
  obtain ⟨built, opened, builds, invokes, plays⟩ := plays
  have each (pull) (inside : pull ∈ first.pulls) := each pull.1 (List.mem_map_of_mem inside)
  obtain ⟨whole, evaluated, invoked, drains, drained⟩ :=
    (nested_traces plays each Parses.Traces.empty).plays first.evaluated first.invoked
  rw [← evaluated] at builds
  rw [← invoked] at invokes
  have builds : (Task.build ρ (.bind p captures f)).Comes []
      ⟨.bind built captures f, whole.evaluated.reverse⟩ := Task.comes ⟨_, builds, rfl⟩
  have invokes : (Task.invoke ρ (.bind built captures f) input).Comes []
      ⟨.nested (ρ.captured captures) f opened .empty, whole.invoked.reverse⟩ :=
    Task.comes ⟨_, invokes, rfl⟩
  exact ⟨whole, ⟨_, _, builds, invokes, drains⟩, evaluated, invoked, drained⟩

end Parsers

end EveryParse
