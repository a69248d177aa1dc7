import EveryParse.Proofs.Watched

/-!
What is seen of a run, put together from what its parts do by themselves. A run goes through
stretches, in which one of its parts has its turn; a pull goes on through those that pass and
returns with the first one that stops. Of each stretch the events are told, and the watched calls.
-/

namespace EveryParse

variable {τ : Type} {α β : Type} {Γ : List Type} {watched : Task τ → Prop}

/-- The events of a part of a run, and the watched calls in it. -/
structure Deeds (τ : Type) : Type 1 where
  events : List Event
  calls : List (Task τ)

namespace Deeds

def nothing : Deeds τ :=
  ⟨[], []⟩

instance : Append (Deeds τ) where
  append first second := ⟨first.events ++ second.events, first.calls ++ second.calls⟩

def all (deeds : List (Deeds τ)) : Deeds τ :=
  ⟨deeds.flatMap events, deeds.flatMap calls⟩

@[simp]
theorem mk_append_mk (events events' : List Event) (calls calls' : List (Task τ)) :
    (⟨events, calls⟩ : Deeds τ) ++ ⟨events', calls'⟩ = ⟨events ++ events', calls ++ calls'⟩ :=
  rfl

@[simp]
theorem events_append (first second : Deeds τ) :
    (first ++ second).events = first.events ++ second.events :=
  rfl

@[simp]
theorem calls_append (first second : Deeds τ) :
    (first ++ second).calls = first.calls ++ second.calls :=
  rfl

@[simp]
theorem nothing_append (deeds : Deeds τ) : nothing ++ deeds = deeds :=
  rfl

@[simp]
theorem append_nothing (deeds : Deeds τ) : deeds ++ nothing = deeds :=
  congrArg₂ mk (List.append_nil _) (List.append_nil _)

theorem append_assoc (first second third : Deeds τ) :
    first ++ second ++ third = first ++ (second ++ third) :=
  congrArg₂ mk (List.append_assoc ..) (List.append_assoc ..)

@[simp]
theorem all_nil : all ([] : List (Deeds τ)) = nothing :=
  rfl

@[simp]
theorem all_cons (deeds : Deeds τ) (others : List (Deeds τ)) :
    all (deeds :: others) = deeds ++ all others :=
  rfl

@[simp]
theorem all_append (deeds others : List (Deeds τ)) :
    all (deeds ++ others) = all deeds ++ all others :=
  congrArg₂ mk List.flatMap_append List.flatMap_append

@[simp]
theorem all_replicate_nothing (count : Nat) :
    all (List.replicate count (nothing : Deeds τ)) = nothing := by
  induction count with
  | zero => rfl
  | succ count ih => exact ih

end Deeds

abbrev Pulled (τ α : Type) := Option (α × Input τ) × Deeds τ

def Parses.Does (watched : Task τ → Prop) (s : Parses τ α) (lives : List Owners)
    (pulls : List (Pulled τ α)) : Prop :=
  s.ShowsWith watched lives (pulls.map fun pull => (pull.1, pull.2.events))
    (pulls.map fun pull => pull.2.calls)

structure Report (τ α : Type) : Type 1 where
  invoked : Deeds τ
  pulls : List (Pulled τ α)

def Report.seen (report : Report τ α) : Observation τ α :=
  ⟨report.invoked.events, report.pulls.map fun pull => (pull.1, pull.2.events)⟩

def Report.calls (report : Report τ α) : List (List (Task τ)) :=
  report.invoked.calls :: report.pulls.map fun pull => pull.2.calls

def Parser.Does (watched : Task τ → Prop) (ρ : Scope τ Γ) (p : Parser τ Γ α) (input : Input τ)
    (live : Owners) (lives : List Owners) (report : Report τ α) : Prop :=
  p.ShowsWith watched ρ input live lives report.seen report.calls

section Does

variable {s : Parses τ α} {live : Owners} {lives : List Owners} {pulls : List (Pulled τ α)}

theorem Parses.does_nil : s.Does watched [] pulls ↔ pulls = [] := by
  constructor
  · intro does
    cases pulls with
    | nil => rfl
    | cons pull pulls => cases does
  · rintro rfl
    exact .nil

theorem Parses.showsWith_cons {found : List (Option (α × Input τ) × List Event)}
    {calls : List (List (Task τ))} :
    s.ShowsWith watched (live :: lives) found calls ↔
      ∃ answer uses found' calls', (Task.pull s).Called watched live [] answer uses ∧
        answer.value.next.ShowsWith watched lives found' calls' ∧
        found = (answer.value.found, answer.log.reverse) :: found' ∧ calls = uses :: calls' := by
  constructor
  · rintro (_ | ⟨pulled, later⟩)
    exact ⟨_, _, _, _, pulled, later, rfl, rfl⟩
  · rintro ⟨_, _, _, _, pulled, later, rfl, rfl⟩
    exact .cons pulled later

theorem Parses.does_cons :
    s.Does watched (live :: lives) pulls ↔
      ∃ answer uses later, (Task.pull s).Called watched live [] answer uses ∧
        answer.value.next.Does watched lives later ∧
        pulls = (answer.value.found, ⟨answer.log.reverse, uses⟩) :: later := by
  rw [Parses.Does, Parses.showsWith_cons]
  constructor
  · rintro ⟨answer, uses, found, calls, pulled, later, same, same'⟩
    obtain _ | ⟨⟨found, events, calls⟩, pulls⟩ := pulls
    · cases same
    · cases same
      cases same'
      exact ⟨answer, _, pulls, pulled, later, rfl⟩
  · rintro ⟨answer, uses, later, pulled, does, rfl⟩
    exact ⟨answer, uses, _, _, pulled, does, rfl, rfl⟩

theorem Parser.does_iff {ρ : Scope τ Γ} {p : Parser τ Γ α} {input : Input τ} {report : Report τ α} :
    p.Does watched ρ input live lives report ↔
      ∃ opened uses, (Task.invoke ρ p input).Called watched live [] opened uses ∧
        opened.value.Does watched lives report.pulls ∧
        ⟨opened.log.reverse, uses⟩ = report.invoked := by
  obtain ⟨⟨events, calls⟩, pulls⟩ := report
  constructor
  · rintro ⟨invoked, pulled⟩
    exact ⟨_, _, invoked, pulled, rfl⟩
  · rintro ⟨opened, uses, invoked, pulled, ⟨⟩⟩
    exact .shows invoked pulled

theorem Parses.Shows.exists_does {found : List (Option (α × Input τ) × List Event)}
    (shows : s.Shows lives found) (watched : Task τ → Prop) :
    ∃ pulls, s.Does watched lives pulls ∧
      pulls.map (fun pull => (pull.1, pull.2.events)) = found := by
  induction lives generalizing s found with
  | nil =>
      obtain rfl := Parses.shows_nil.mp shows
      exact ⟨[], .nil, rfl⟩
  | cons live lives ih =>
      obtain ⟨answer, later, pulled, left, rfl⟩ := Parses.shows_cons.mp shows
      obtain ⟨uses, called⟩ := pulled.exists_called watched
      obtain ⟨pulls, does, rfl⟩ := ih left
      exact ⟨_, Parses.does_cons.mpr ⟨answer, uses, pulls, called, does, rfl⟩, rfl⟩

theorem Parser.Shows.exists_does {ρ : Scope τ Γ} {p : Parser τ Γ α} {input : Input τ}
    {seen : Observation τ α} (shows : p.Shows ρ input live lives seen) (watched : Task τ → Prop) :
    ∃ report, p.Does watched ρ input live lives report ∧ report.seen = seen := by
  obtain ⟨invoked, pulls⟩ := seen
  obtain ⟨opened, ran, pulled, rfl⟩ := Parser.shows_iff.mp shows
  obtain ⟨uses, called⟩ := ran.exists_called watched
  obtain ⟨pulls, does, rfl⟩ := Parses.Shows.exists_does pulled watched
  exact ⟨⟨⟨opened.log.reverse, uses⟩, pulls⟩, Parser.does_iff.mpr ⟨_, _, called, does, rfl⟩, rfl⟩

theorem Parses.empty_does (unwatched : ¬watched (.pull (.empty : Parses τ α)))
    (does : (Parses.empty : Parses τ α).Does watched lives pulls) :
    pulls = List.replicate lives.length (none, .nothing) := by
  induction lives generalizing pulls with
  | nil => exact Parses.does_nil.mp does
  | cons live lives ih =>
      obtain ⟨answer, uses, later, called, left, rfl⟩ := Parses.does_cons.mp does
      have nothing : (Task.pull (.empty : Parses τ α)).Called watched live []
          ⟨.ended .empty, []⟩ [] := .inr ⟨unwatched, .done _⟩
      obtain ⟨rfl, rfl⟩ := nothing.unique called
      rw [ih left]
      rfl

end Does

/-- The parses of a sequence, each with what is done up to it, and what is done up to the end if
that has been found. -/
structure Findings (τ α : Type) : Type 1 where
  parses : List ((α × Input τ) × Deeds τ)
  last : Option (Deeds τ)

namespace Findings

def pulls (findings : Findings τ α) : List (Pulled τ α) :=
  findings.parses.map (fun entry => (some entry.1, entry.2)) ++
    findings.last.toList.map fun deeds => (none, deeds)

theorem pulls_eq_cons {findings : Findings τ α} {count : Nat} {pull later}
    (more : count ≠ 0 → findings.last.isSome)
    (same : pull :: later = findings.pulls ++ List.replicate count (none, .nothing)) :
    ∃ pulls, findings.pulls = pull :: pulls ∧
      later = pulls ++ List.replicate count (none, .nothing) := by
  cases own : findings.pulls with
  | nil =>
      rw [pulls, List.append_eq_nil_iff] at own
      have unfinished : findings.last = none := by simpa using own.2
      have nothing : count = 0 := by simpa [unfinished] using more
      simp [own, pulls, unfinished, nothing] at same
  | cons first pulls =>
      rw [own, List.cons_append, List.cons.injEq] at same
      exact ⟨pulls, by rw [same.1], same.2⟩

end Findings

inductive Stretch (τ α : Type) : Type 1 where
  | passes (deeds : Deeds τ)
  | stops (found : Option (α × Input τ)) (deeds : Deeds τ)

namespace Stretch

def deeds : Stretch τ α → Deeds τ
  | passes deeds | stops _ deeds => deeds

def cut (before : Deeds τ) : List (Stretch τ α) → List (Pulled τ α)
  | [] => []
  | passes deeds :: stretches => cut (before ++ deeds) stretches
  | stops found deeds :: stretches => (found, before ++ deeds) :: cut .nothing stretches

theorem cut_append (before : Deeds τ) {own deeds : Deeds τ} {stretches : List (Stretch τ α)}
    {found pulls} (same : cut own stretches = (found, deeds) :: pulls) :
    cut (before ++ own) stretches = (found, before ++ deeds) :: pulls := by
  induction stretches generalizing own with
  | nil => cases same
  | cons stretch stretches ih =>
      cases stretch with
      | passes deeds =>
          rw [cut, Deeds.append_assoc]
          exact ih same
      | stops found deeds =>
          cases same
          rw [cut, Deeds.append_assoc]

end Stretch

/-- A sequence is run to its end, where it is left for what comes next. -/
def Findings.stretches (atEnd : Deeds τ → Stretch τ α) (findings : Findings τ α) :
    List (Stretch τ α) :=
  findings.parses.map (fun entry => .stops (some entry.1) entry.2) ++ findings.last.toList.map atEnd

theorem Findings.cut_stretches (findings : Findings τ α) :
    Stretch.cut .nothing (findings.stretches (.stops none)) = findings.pulls := by
  obtain ⟨parses, last⟩ := findings
  simp only [stretches, pulls]
  induction parses with
  | nil => cases last <;> rfl
  | cons entry parses ih => exact congrArg (_ :: ·) ih

theorem Findings.stretches_deeds (findings : Findings τ α) :
    (findings.stretches (.stops none)).map Stretch.deeds = findings.pulls.map Prod.snd := by
  simp [stretches, pulls, Stretch.deeds, Function.comp_def]

/-- In one of the pulls that `lives` tells of, while more may be held. -/
def Owners.During (lives : List Owners) (owner : Owners) : Prop :=
  ∃ live ∈ lives, ∃ held, live.add held = owner

def Parses.Brings (watched : Task τ → Prop) (s : Parses τ α) (lives : List Owners)
    (findings : Findings τ α) : Prop :=
  ∃ owners, (∀ owner ∈ owners, Owners.During lives owner) ∧ s.Does watched owners findings.pulls

/-- `invoked` is done when the parser is invoked while `live` tells who is alive. -/
def Parser.Brings (watched : Task τ → Prop) (ρ : Scope τ Γ) (p : Parser τ Γ α) (input : Input τ)
    (live : Owners) (lives : List Owners) (invoked : Deeds τ) (findings : Findings τ α) : Prop :=
  ∃ owners, (∀ owner ∈ owners, Owners.During lives owner) ∧
    p.Does watched ρ input live owners ⟨invoked, findings.pulls⟩

section Brings

variable {s left : Parses τ α} {owner : Owners} {lives lives' : List Owners}

theorem Owners.During.mono (during : Owners.During lives owner) (fewer : lives ⊆ lives') :
    Owners.During lives' owner := by
  obtain ⟨live, inside, held⟩ := during
  exact ⟨live, fewer inside, held⟩

namespace Parses

theorem brings_nothing : s.Brings watched lives ⟨[], none⟩ :=
  ⟨[], fun _ inside => (List.not_mem_nil inside).elim, .nil⟩

namespace Brings

theorem mono {findings : Findings τ α} (brings : s.Brings watched lives findings)
    (fewer : lives ⊆ lives') : s.Brings watched lives' findings := by
  obtain ⟨owners, all, does⟩ := brings
  exact ⟨owners, fun owner inside => (all owner inside).mono fewer, does⟩

theorem parse {v : α} {rest : Input τ} {log : List Event} {uses : List (Task τ)}
    {findings : Findings τ α} (later : left.Brings watched lives findings)
    (during : Owners.During lives owner)
    (pulled : (Task.pull s).Called watched owner [] ⟨.parse v rest left, log⟩ uses) :
    s.Brings watched lives
      ⟨((v, rest), ⟨log.reverse, uses⟩) :: findings.parses, findings.last⟩ := by
  obtain ⟨owners, all, does⟩ := later
  refine ⟨owner :: owners, List.forall_mem_cons.mpr ⟨during, all⟩, ?_⟩
  exact Parses.does_cons.mpr ⟨_, _, _, pulled, does, rfl⟩

theorem ended {log : List Event} {uses : List (Task τ)} (during : Owners.During lives owner)
    (pulled : (Task.pull s).Called watched owner [] ⟨.ended left, log⟩ uses) :
    s.Brings watched lives ⟨[], some ⟨log.reverse, uses⟩⟩ := by
  refine ⟨[owner], List.forall_mem_singleton.mpr during, ?_⟩
  exact Parses.does_cons.mpr ⟨_, _, _, pulled, Parses.does_nil.mpr rfl, rfl⟩

theorem first {v : α} {rest : Input τ} {deeds : Deeds τ} {parses last}
    (brings : s.Brings watched lives ⟨((v, rest), deeds) :: parses, last⟩) :
    ∃ owner left log uses, Owners.During lives owner ∧
      (Task.pull s).Called watched owner [] ⟨.parse v rest left, log⟩ uses ∧
      ⟨log.reverse, uses⟩ = deeds ∧ left.Brings watched lives ⟨parses, last⟩ := by
  obtain ⟨_ | ⟨owner, owners⟩, all, does⟩ := brings
  · cases Parses.does_nil.mp does
  · obtain ⟨⟨⟨v, rest, left⟩ | left, log⟩, uses, _, pulled, later, same⟩ :=
      Parses.does_cons.mp does
    · cases same
      have all := List.forall_mem_cons.mp all
      exact ⟨owner, left, log, uses, all.1, pulled, rfl, owners, all.2, later⟩
    · cases same

theorem last {last : Deeds τ} (brings : s.Brings watched lives ⟨[], some last⟩) :
    ∃ owner left log uses, Owners.During lives owner ∧
      (Task.pull s).Called watched owner [] ⟨.ended left, log⟩ uses ∧
      ⟨log.reverse, uses⟩ = last := by
  obtain ⟨_ | ⟨owner, owners⟩, all, does⟩ := brings
  · cases Parses.does_nil.mp does
  · obtain ⟨⟨⟨v, rest, left⟩ | left, log⟩, uses, _, pulled, _, same⟩ := Parses.does_cons.mp does
    · cases same
    · cases same
      exact ⟨owner, left, log, uses, all owner (.head _), pulled, rfl⟩

end Brings

end Parses

theorem pull_called {log log' : List Event} {answer : Answer τ α}
    (pulled : (Task.pull s).Returns owner log ⟨answer, log'⟩) (watched : Task τ → Prop) :
    ∃ own uses, (Task.pull s).Called watched owner [] ⟨answer, own⟩ uses ∧
      (Task.pull s).Called watched owner log ⟨answer, log'⟩ uses ∧ own ++ log = log' := by
  obtain ⟨uses, called⟩ := pulled.exists_called watched
  obtain ⟨⟨_, own⟩, first, same⟩ := Task.called_iff_atop.mp called
  cases same
  exact ⟨own, uses, first, called, rfl⟩

end Brings

end EveryParse
