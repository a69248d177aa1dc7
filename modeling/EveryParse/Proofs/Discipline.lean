import EveryParse.Proofs.ChoiceLaws
import EveryParse.Proofs.Search
import EveryParse.Proofs.Stretches

/-!
Whose turn it is. Main statement: `bind` pulls its first parser for one parse at a time and lets the
parser that the continuation makes of it come to its end before it pulls again, and `or` lets its
first parser come to its end before it invokes the second one. A pull of either returns with the
next parse of what is running, or at the end, and after that nothing happens.

The parsers are tapped, and the calls of taps are watched: each invocation and each answer of a
tapped parser is one such call, also an end that is found again.
-/

namespace EveryParse

variable {τ : Type} {α β : Type} {Γ Δ : List Type} {watched : Task τ → Prop}

abbrev Task.Anything : Task τ → Prop :=
  fun _ => True

def Task.tapped (label : String) : Task τ → Task τ
  | invoke ρ p input => invoke ρ (.tap label p) input
  | pull s => pull (.tapped label false s)
  | task => task

namespace Deeds

def opened (label : String) (offset : Nat) (deeds : Deeds τ) : Deeds τ :=
  ⟨.run label offset :: deeds.events, deeds.calls.map (Task.tapped label)⟩

def answered (label : String) (event : Event) (deeds : Deeds τ) : Deeds τ :=
  ⟨deeds.events ++ [event], deeds.calls.map (Task.tapped label)⟩

end Deeds

def Findings.tapped (label : String) (findings : Findings τ α) : Findings τ α where
  parses := findings.parses.map fun entry =>
    (entry.1, entry.2.answered label (.yield label entry.1.2.offset))
  last := findings.last.map (·.answered label (.ended label))

/-- One parse of a first parser and what becomes of it: what is done up to the parse, in calling the
continuation and in invoking the parser that it gives, and what that brings. -/
structure Round (τ α β : Type) : Type 1 where
  value : α
  rest : Input τ
  asked : Deeds τ
  called : Deeds τ
  invoked : Deeds τ
  findings : Findings τ β

namespace Round

def stretches (round : Round τ α β) : List (Stretch τ β) :=
  .passes round.asked :: .passes round.called :: .passes round.invoked ::
    round.findings.stretches .passes

def all (rounds : List (Round τ α β)) (last : Option (Deeds τ)) : List (Stretch τ β) :=
  rounds.flatMap stretches ++ last.toList.map (.stops none)

def tapped (a : String) (b c : α → String) (round : Round τ α β) : Round τ α β where
  value := round.value
  rest := round.rest
  asked := round.asked.answered a (.yield a round.rest.offset)
  called := ⟨.note (c round.value) :: round.called.events, round.called.calls⟩
  invoked := round.invoked.opened (b round.value) round.rest.offset
  findings := round.findings.tapped (b round.value)

def Runs (building watched : Task τ → Prop) (ρ : Scope τ Γ) (f : α → Parser τ Γ β)
    (lives : List Owners) (round : Round τ α β) : Prop :=
  ∃ live built, Owners.During lives live ∧
    (Task.build ρ (f round.value)).Called building live []
      ⟨built, round.called.events.reverse⟩ round.called.calls ∧
    built.Brings watched ρ round.rest live lives round.invoked round.findings

def first (rounds : List (Round τ α β)) (last : Option (Deeds τ)) : Findings τ α where
  parses := rounds.map fun round => ((round.value, round.rest), round.asked)
  last := last

/-- The sequence of each round has come to its end before the next round begins, and the last one's
before the first parser has come to its end. -/
def InTurn (last : Option (Deeds τ)) : List (Round τ α β) → Prop
  | [] => True
  | round :: rounds =>
    (rounds ≠ [] ∨ last.isSome → round.findings.last.isSome) ∧ InTurn last rounds

theorem Runs.mono {building : Task τ → Prop} {ρ : Scope τ Γ} {f : α → Parser τ Γ β}
    {lives lives' : List Owners} {round : Round τ α β}
    (runs : round.Runs building watched ρ f lives)
    (fewer : lives ⊆ lives') : round.Runs building watched ρ f lives' := by
  obtain ⟨live, built, during, ran, owners, all, does⟩ := runs
  exact ⟨live, built, during.mono fewer, ran, owners,
    fun owner inside => (all owner inside).mono fewer, does⟩

end Round

/-- While `lives` are pulls of `nested ρ f outer inner`, first `inner` finds `findings`, and then
`outer` starts the rounds, up to its own end. -/
structure Script (watched : Task τ → Prop) (ρ : Scope τ Γ) (f : α → Parser τ Γ β)
    (lives : List Owners) (outer : Parses τ α) (inner : Parses τ β) (findings : Findings τ β)
    (rounds : List (Round τ α β)) (last : Option (Deeds τ)) : Prop where
  inside : inner.Brings watched lives findings
  outside : outer.Brings watched lives (Round.first rounds last)
  runs : ∀ round ∈ rounds, round.Runs watched watched ρ f lives
  ended : rounds ≠ [] ∨ last.isSome → findings.last.isSome
  inTurn : Round.InTurn last rounds

def Scripted (watched : Task τ → Prop) (ρ : Scope τ Γ) (f : α → Parser τ Γ β) (lives : List Owners)
    (outer : Parses τ α) (inner : Parses τ β) (pulls : List (Pulled τ β)) : Prop :=
  ∃ findings rounds last count, Script watched ρ f lives outer inner findings rounds last ∧
    (count ≠ 0 → last.isSome) ∧
    let stretches := findings.stretches .passes ++ Round.all rounds last
    pulls = Stretch.cut .nothing stretches ++ List.replicate count (none, .nothing) ∧
      Deeds.all (pulls.map Prod.snd) = Deeds.all (stretches.map Stretch.deeds)

section Nested

variable {ρ : Scope τ Γ} {f : α → Parser τ Γ β} {outer : Parses τ α} {inner : Parses τ β}
  {live : Owners} {lives : List Owners}

theorem Script.nothing : Script watched ρ f lives outer inner ⟨[], none⟩ [] none where
  inside := Parses.brings_nothing
  outside := Parses.brings_nothing
  runs := fun _ inside => (List.not_mem_nil inside).elim
  ended := fun more => by simp at more
  inTurn := trivial

theorem Script.mono {lives' : List Owners} {findings : Findings τ β} {rounds last}
    (script : Script watched ρ f lives outer inner findings rounds last) (fewer : lives ⊆ lives') :
    Script watched ρ f lives' outer inner findings rounds last where
  inside := script.inside.mono fewer
  outside := script.outside.mono fewer
  runs := fun round inside => (script.runs round inside).mono fewer
  ended := script.ended
  inTurn := script.inTurn

theorem Refills.round {v rest log} {opened : Outcome (Parses τ β)} {findings : Findings τ β}
    (refills : Refills ρ f live outer v rest log opened)
    (during : Owners.During lives (live.around ρ outer))
    (brings : opened.value.Brings watched lives findings) :
    ∃ (called invoked : Deeds τ) (built : Outcome (Parser τ Γ β)),
      opened.log = (called.events ++ invoked.events).reverse ++ log ∧
      (Task.build ρ (f v)).Called watched (live.around ρ outer) log built called.calls ∧
      (Task.invoke ρ built.value rest).Called watched (live.around ρ outer) built.log opened
        invoked.calls ∧
      ∀ asked, Round.Runs watched watched ρ f lives
        ⟨v, rest, asked, called, invoked, findings⟩ := by
  obtain ⟨built, invoked⟩ := refills
  obtain ⟨uses, built⟩ := built.exists_called watched
  obtain ⟨uses', invoked⟩ := invoked.exists_called watched
  obtain ⟨⟨p, called⟩, first, rfl⟩ := Task.called_iff_atop.mp built
  obtain ⟨⟨s, events⟩, second, rfl⟩ := Task.called_iff_atop.mp invoked
  obtain ⟨owners, all, does⟩ := brings
  refine ⟨⟨called.reverse, uses⟩, ⟨events.reverse, uses'⟩, _, ?_, built, invoked,
    fun asked => ⟨_, p, during, ?_, owners, all, ?_⟩⟩
  · simp [Task.atop, Outcome.atop]
  · simpa using first
  · exact Parser.does_iff.mpr ⟨_, _, second, does, rfl⟩

section Taps

variable (taps : ∀ task, watched task → task.IsTap)
include taps

theorem Parses.Brings.of_empty {findings : Findings τ β}
    (brings : Parses.empty.Brings watched lives findings) :
    (∀ stretches, Stretch.cut .nothing (findings.stretches .passes ++ stretches) =
      Stretch.cut .nothing stretches) ∧
    Deeds.all ((findings.stretches .passes).map Stretch.deeds) = .nothing := by
  have nothing (owner : Owners) : (Task.pull (.empty : Parses τ β)).Called watched owner []
      ⟨.ended .empty, []⟩ [] := .of_uses taps id (.done _)
  obtain ⟨_ | ⟨⟨⟨v, rest⟩, deeds⟩, parses⟩, _ | last⟩ := findings
  · exact ⟨fun _ => rfl, rfl⟩
  · obtain ⟨owner, left, log, uses, _, pulled, rfl⟩ := brings.last
    obtain ⟨⟨⟩, rfl⟩ := (nothing owner).unique pulled
    exact ⟨fun _ => rfl, rfl⟩
  all_goals
    obtain ⟨owner, left, log, uses, _, pulled, _⟩ := brings.first
    obtain ⟨⟨⟩, _⟩ := (nothing owner).unique pulled

theorem NestedPull.scripted {log answer} (pull : NestedPull ρ f live outer inner log answer)
    {pulls} (does : answer.value.next.Does watched lives pulls)
    (ih : ∀ outer inner, (Parses.nested ρ f outer inner).Does watched lives pulls →
      Scripted watched ρ f lives outer inner pulls) :
    ∃ findings rounds last count deeds, answer.log = deeds.events.reverse ++ log ∧
      (Task.pull (.nested ρ f outer inner)).Called watched live log answer deeds.calls ∧
      Script watched ρ f (live :: lives) outer inner findings rounds last ∧
      (count ≠ 0 → last.isSome) ∧
      let stretches := findings.stretches .passes ++ Round.all rounds last
      (∃ later, Stretch.cut .nothing stretches = (answer.value.found, deeds) :: later ∧
        pulls = later ++ List.replicate count (none, .nothing)) ∧
        deeds ++ Deeds.all (pulls.map Prod.snd) = Deeds.all (stretches.map Stretch.deeds) := by
  have around (outer : Parses τ α) : Owners.During (live :: lives) (live.around ρ outer) :=
    ⟨live, .head _, _, rfl⟩
  have below : Owners.During (live :: lives) (live.add ρ.holds) := ⟨live, .head _, _, rfl⟩
  -- The induction is on the rounds that pass in the first pull; later pulls are left to `ih`.
  induction pull with
  | @found outer _ log v rest left _ inside =>
      obtain ⟨own, uses, ran, called, rfl⟩ := pull_called inside watched
      obtain ⟨findings, rounds, last, count, script, more, cuts, trace⟩ := ih outer left does
      have script := script.mono (List.subset_cons_self live lives)
      refine ⟨⟨((v, rest), ⟨own.reverse, uses⟩) :: findings.parses, findings.last⟩, rounds, last,
        count, ⟨own.reverse, uses⟩, by simp, ?_, ?_, more, ⟨_, rfl, cuts⟩, ?_⟩
      · exact .of_uses taps id (.last called (.done _))
      · exact { script with inside := script.inside.parse (around outer) ran }
      · rw [trace]
        rfl
  | @ended outer _ log spent _ left _ inside outside =>
      obtain ⟨own, uses, ran, called, rfl⟩ := pull_called inside watched
      obtain ⟨asked, uses', ran', called', rfl⟩ := pull_called outside watched
      obtain rfl := Parses.empty_does (taps _) does
      refine ⟨⟨[], some ⟨own.reverse, uses⟩⟩, [], some ⟨asked.reverse, uses'⟩, lives.length,
        ⟨own.reverse, uses⟩ ++ ⟨asked.reverse, uses'⟩, by simp, ?_, ?_, fun _ => rfl,
        ⟨_, rfl, rfl⟩, ?_⟩
      · exact .of_uses taps id (.call called (.last called' (.done _)))
      · exact {
          inside := .ended (around outer) ran
          outside := .ended below ran'
          runs := fun _ inside => (List.not_mem_nil inside).elim
          ended := fun _ => rfl
          inTurn := trivial }
      · simp [Findings.stretches, Round.all, Stretch.deeds]
  | @next outer _ log spent _ v rest left _ opened answer inside outside refills _ later =>
      obtain ⟨own, uses, ran, called, rfl⟩ := pull_called inside watched
      obtain ⟨asked, uses', ran', called', rfl⟩ := pull_called outside watched
      obtain ⟨findings, rounds, last, count, deeds, logged, calledLater, script, more,
        ⟨_, cuts, same⟩, trace⟩ := later does
      obtain ⟨built, invoked, p, events, calledBuild, calledInvoke, runs⟩ :=
        refills.round (around left) script.inside
      let first : Deeds τ := ⟨own.reverse, uses⟩
      let second : Deeds τ := ⟨asked.reverse, uses'⟩
      let round : Round τ α β := ⟨v, rest, second, built, invoked, findings⟩
      refine ⟨⟨[], some first⟩, round :: rounds, last, count,
        first ++ (second ++ (built ++ (invoked ++ deeds))), ?_, ?_, ?_, more, ⟨_, ?_, same⟩, ?_⟩
      · simp [logged, events, first, second]
      · exact .of_uses taps id
          (.call called (.call called' (.call calledBuild (.call calledInvoke
            (.last calledLater (.done _))))))
      · exact {
          inside := .ended (around outer) ran
          outside := script.outside.parse below ran'
          runs := List.forall_mem_cons.mpr ⟨runs _, script.runs⟩
          ended := fun _ => rfl
          inTurn := ⟨script.ended, script.inTurn⟩ }
      · simpa [Findings.stretches, Round.all, Round.stretches, Stretch.cut, round,
          Deeds.append_assoc] using Stretch.cut_append (first ++ second ++ built ++ invoked) cuts
      · simp only [Deeds.append_assoc, trace]
        simp [Findings.stretches, Round.all, Round.stretches, Stretch.deeds, round]

theorem Parses.nested_scripted {pulls}
    (does : (Parses.nested ρ f outer inner).Does watched lives pulls) :
    Scripted watched ρ f lives outer inner pulls := by
  induction lives generalizing outer inner pulls with
  | nil =>
      obtain rfl := Parses.does_nil.mp does
      exact ⟨_, _, _, 0, .nothing, fun more => absurd rfl more, rfl, rfl⟩
  | cons live lives ih =>
      obtain ⟨answer, uses, later, called, left, rfl⟩ := Parses.does_cons.mp does
      obtain ⟨findings, rounds, last, count, deeds, logged, called', script, more, ⟨_, cuts, rfl⟩,
        trace⟩ := (NestedPull.iff_returns.mp called.returns).scripted taps left fun _ _ => ih
      obtain ⟨-, rfl⟩ := called.unique called'
      have same : (⟨answer.log.reverse, deeds.calls⟩ : Deeds τ) = deeds := by simp [logged]
      rw [same]
      refine ⟨findings, rounds, last, count, script, more, ?_, ?_⟩
      · simp [cuts]
      · simpa using trace

end Taps

end Nested

/-- The first parser comes to its end, and the second one is invoked: what is done in both, and what
the second one brings. -/
structure Change (τ α : Type) : Type 1 where
  last : Deeds τ
  invoked : Deeds τ
  findings : Findings τ α

namespace Change

def stretches (change : Change τ α) : List (Stretch τ α) :=
  .passes change.last :: .passes change.invoked :: change.findings.stretches (.stops none)

def tapped (a b : String) (input : Input τ) (change : Change τ α) : Change τ α where
  last := change.last.answered a (.ended a)
  invoked := change.invoked.opened b input.offset
  findings := change.findings.tapped b

def all (parses : List ((α × Input τ) × Deeds τ)) (change : Option (Change τ α)) :
    List (Stretch τ α) :=
  parses.map (fun entry => .stops (some entry.1) entry.2) ++ change.toList.flatMap stretches

theorem cut_stretches (change : Change τ α) {found deeds pulls}
    (first : change.findings.pulls = (found, deeds) :: pulls) :
    Stretch.cut .nothing change.stretches =
      (found, change.last ++ (change.invoked ++ deeds)) :: pulls := by
  simpa [stretches, Stretch.cut, Deeds.append_assoc] using
    Stretch.cut_append (change.last ++ change.invoked) (change.findings.cut_stretches.trans first)

end Change

section Choosing

variable {ρ : Scope τ Γ} {q : Parser τ Γ α} {input : Input τ} {s : Parses τ α} {live : Owners}
  {lives : List Owners} (taps : ∀ task, watched task → task.IsTap)
include taps

theorem Parses.chosen_brings {pulls} (does : (Parses.chosen s).Does watched lives pulls) :
    ∃ findings count, s.Brings watched lives findings ∧ (count ≠ 0 → findings.last.isSome) ∧
      pulls = findings.pulls ++ List.replicate count (none, .nothing) := by
  induction lives generalizing s pulls with
  | nil =>
      obtain rfl := Parses.does_nil.mp does
      exact ⟨_, 0, Parses.brings_nothing, fun more => absurd rfl more, rfl⟩
  | cons live lives ih =>
      obtain ⟨answer, uses, later, called, left, rfl⟩ := Parses.does_cons.mp does
      obtain ⟨reply, inside, stays⟩ := pull_chosen_returns.mp called.returns
      obtain ⟨uses', inside⟩ := inside.exists_called watched
      have during : Owners.During (live :: lives) live := ⟨live, .head _, .nobody, rfl⟩
      cases stays with
      | found =>
          obtain ⟨-, rfl⟩ := called.unique (.of_uses taps id (.last inside (.done _)))
          obtain ⟨findings, count, brings, more, rfl⟩ := ih left
          have brings := brings.mono (List.subset_cons_self live lives)
          exact ⟨_, count, brings.parse during inside, more, rfl⟩
      | ended =>
          obtain ⟨-, rfl⟩ := called.unique (.of_uses taps id (.last inside (.done _)))
          obtain rfl := Parses.empty_does (taps _) left
          exact ⟨_, lives.length, .ended during inside, fun _ => rfl, rfl⟩

theorem Parses.choosing_brings {pulls}
    (does : (Parses.choosing s ρ q input).Does watched lives pulls) :
    ∃ (parses : List ((α × Input τ) × Deeds τ)) (change : Option (Change τ α)) (count : Nat),
      s.Brings watched lives ⟨parses, change.map Change.last⟩ ∧
      (∀ turn ∈ change, ∃ live, Owners.During lives live ∧
        q.Brings watched ρ input live lives turn.invoked turn.findings) ∧
      (count ≠ 0 → ∃ turn ∈ change, turn.findings.last.isSome) ∧
      pulls = Stretch.cut .nothing (Change.all parses change) ++
        List.replicate count (none, .nothing) ∧
      Deeds.all (pulls.map Prod.snd) =
        Deeds.all ((Change.all parses change).map Stretch.deeds) := by
  induction lives generalizing s pulls with
  | nil =>
      obtain rfl := Parses.does_nil.mp does
      exact ⟨[], none, 0, Parses.brings_nothing, by simp, by simp, rfl, rfl⟩
  | cons live lives ih =>
      obtain ⟨answer, uses, later, called, left, rfl⟩ := Parses.does_cons.mp does
      obtain ⟨reply, inside, turns⟩ := pull_choosing_returns.mp called.returns
      obtain ⟨uses₁, inside⟩ := inside.exists_called watched
      have during : Owners.During (live :: lives) (live.add (q.keeps ρ)) := ⟨live, .head _, _, rfl⟩
      cases turns with
      | found =>
          obtain ⟨-, rfl⟩ := called.unique (.of_uses taps id (.last inside (.done _)))
          obtain ⟨parses, change, count, brings, runs, more, rfl, trace⟩ := ih left
          have fewer := List.subset_cons_self live lives
          refine ⟨_, change, count, (brings.mono fewer).parse during inside, ?_, more, rfl, ?_⟩
          · intro turn inside
            obtain ⟨live', during, owners, all, does⟩ := runs turn inside
            exact ⟨live', during.mono fewer, owners,
              fun owner inside => (all owner inside).mono fewer, does⟩
          · rw [List.map_cons, Deeds.all_cons, trace]
            rfl
      | @turned _ log opened _ invoked last =>
          -- From here on `q` is alone, and this pull is the first of those that it answers.
          obtain ⟨uses₂, invoked⟩ := invoked.exists_called watched
          obtain ⟨uses₃, last⟩ := last.exists_called watched
          obtain ⟨-, rfl⟩ := called.unique
            (.of_uses taps id (.call inside (.call invoked (.last last (.done _)))))
          obtain ⟨⟨s', own⟩, ran, rfl⟩ := Task.called_iff_atop.mp invoked
          obtain ⟨⟨answer, own'⟩, ran', rfl⟩ := Task.called_iff_atop.mp last
          obtain ⟨findings, count, ⟨owners, all, brings⟩, more, same⟩ :=
            Parses.chosen_brings taps (Parses.does_cons.mpr ⟨_, _, _, ran', left, rfl⟩)
          obtain ⟨pulls, found, rfl⟩ := findings.pulls_eq_cons more same
          let change : Change τ α := ⟨⟨log.reverse, uses₁⟩, ⟨own.reverse, uses₂⟩, findings⟩
          refine ⟨[], some change, count, .ended during inside, ?_, ?_, ?_, ?_⟩
          · rintro _ ⟨⟩
            exact ⟨_, during, owners, all, Parser.does_iff.mpr ⟨_, _, ran, brings, rfl⟩⟩
          · exact fun some => ⟨change, rfl, more some⟩
          · have cuts := change.cut_stretches found
            simp only [Change.all, List.map_nil, Option.toList_some, List.flatMap_cons,
              List.flatMap_nil, List.append_nil, List.nil_append, cuts]
            simp [change, Task.atop, Outcome.atop]
          · simp [Change.all, Change.stretches, Stretch.deeds, change, Task.atop, Outcome.atop,
              findings.stretches_deeds, found, ← Deeds.append_assoc]

end Choosing

/-! What taps let be seen. -/

section Taps

variable {label : String} {s : Parses τ α} {lives : List Owners} {findings : Findings τ α}

theorem Task.Called.itself {task : Task τ} {live : Owners} {log : List Event} {found : task.Result}
    {uses : List (Task τ)} (called : task.Called watched live log found uses) (use : watched task) :
    task.Called Task.Anything live log found [task] ∧ uses = [task] := by
  rcases called with ⟨_, ran, rfl⟩ | ⟨unwatched, _⟩
  · exact ⟨.inl ⟨trivial, ran, rfl⟩, rfl⟩
  · exact absurd use unwatched

theorem Task.Returns.itself {task : Task τ} {live : Owners} {log : List Event}
    {found : task.Result} (ran : task.Returns live log found) :
    task.Called Task.Anything live log found [task] :=
  .inl ⟨trivial, ran, rfl⟩

theorem Parses.tapped_brings
    (brings : (Parses.tapped label false s).Brings Task.IsTap lives findings) :
    ∃ own, s.Brings Task.Anything lives own ∧ own.tapped label = findings := by
  obtain ⟨parses, last⟩ := findings
  induction parses generalizing s with
  | nil =>
      cases last with
      | none => exact ⟨⟨[], none⟩, Parses.brings_nothing, rfl⟩
      | some last =>
          obtain ⟨owner, left, log, uses, during, pulled, rfl⟩ := brings.last
          obtain ⟨reply, inside, taps⟩ := pull_tapped_returns.mp pulled.returns
          obtain ⟨-, rfl⟩ := pulled.itself trivial
          cases taps
          refine ⟨_, .ended during inside.itself, ?_⟩
          simp [Findings.tapped, Deeds.answered, Task.tapped]
  | cons entry parses ih =>
      obtain ⟨⟨v, rest⟩, deeds⟩ := entry
      obtain ⟨owner, left, log, uses, during, pulled, rfl, later⟩ := brings.first
      obtain ⟨reply, inside, taps⟩ := pull_tapped_returns.mp pulled.returns
      obtain ⟨-, rfl⟩ := pulled.itself trivial
      cases taps
      obtain ⟨own, brings, same⟩ := ih later
      refine ⟨_, brings.parse during inside.itself, ?_⟩
      simp only [Findings.tapped, Findings.mk.injEq] at same ⊢
      refine ⟨?_, same.2⟩
      rw [List.map_cons, same.1]
      simp [Deeds.answered, Task.tapped]

theorem Parser.tap_brings {ρ : Scope τ Γ} {p : Parser τ Γ α} {input : Input τ} {live : Owners}
    {invoked : Deeds τ}
    (brings : (Parser.tap label p).Brings Task.IsTap ρ input live lives invoked findings) :
    ∃ own found, p.Brings Task.Anything ρ input live lives own found ∧
      own.opened label input.offset = invoked ∧ found.tapped label = findings := by
  obtain ⟨owners, all, does⟩ := brings
  obtain ⟨_, uses, called, pulls, rfl⟩ := Parser.does_iff.mp does
  obtain ⟨opened, invoked, rfl⟩ := invoke_tap_returns.mp called.returns
  obtain ⟨-, rfl⟩ := called.itself trivial
  obtain ⟨found, ⟨owners, all, does⟩, same⟩ := Parses.tapped_brings ⟨owners, all, pulls⟩
  refine ⟨_, found, ⟨owners, all, Parser.does_iff.mpr ⟨opened, _, invoked.itself, does, rfl⟩⟩, ?_,
    same⟩
  simp [Deeds.opened, Task.tapped]

theorem build_noted_tap_called {ρ : Scope τ Γ} {q : Parser τ Γ α} {note : String} {live : Owners}
    {built : Parser τ Γ α} {events : List Event} {uses : List (Task τ)}
    (called : (Task.build ρ (.noted [.note note] (.tap label q))).Called Task.IsTap live []
      ⟨built, events.reverse⟩ uses) :
    ∃ p own, (Task.build ρ q).Called Task.IsTap live [] ⟨p, own.reverse⟩ uses ∧
      .tap label p = built ∧ .note note :: own = events := by
  obtain ⟨_, tapped, rfl⟩ := Task.returns_iff_course.mp called.returns
  obtain ⟨⟨p, own⟩, inside, same⟩ := Task.returns_iff_course.mp tapped
  obtain ⟨uses', inside⟩ := inside.exists_called Task.IsTap
  have taps : ∀ task : Task τ, task.IsTap → task.IsTap := fun _ => id
  have tapped : (Task.build ρ (.tap label q)).Called Task.IsTap live [.note note] _ uses' :=
    .of_uses taps id (.last inside (.done _))
  obtain ⟨same', rfl⟩ := called.unique (.of_uses taps id (.last tapped (.done _)))
  obtain ⟨⟨p, own⟩, first, same⟩ := Task.called_iff_atop.mp inside
  cases same
  obtain ⟨rfl, logged⟩ := Outcome.mk.inj same'
  refine ⟨p, own.reverse, ?_, rfl, ?_⟩
  · rw [List.reverse_reverse]
    exact first
  · simpa [Task.atop, Outcome.atop] using (congrArg List.reverse logged).symm

end Taps

section Rounds

variable {ρ : Scope τ Γ} {q : α → Parser τ Γ β} {a : String} {b c : α → String}
  {lives : List Owners}

theorem Round.Runs.untapped {round : Round τ α β} {asked : Deeds τ}
    (runs : round.Runs Task.IsTap Task.IsTap ρ
      (fun v => .noted [.note (c v)] (.tap (b v) (q v))) lives)
    (same : asked.answered a (.yield a round.rest.offset) = round.asked) :
    ∃ own : Round τ α β, own.Runs Task.IsTap Task.Anything ρ q lives ∧
      ((own.value, own.rest), own.asked) = ((round.value, round.rest), asked) ∧
      own.tapped a b c = round := by
  obtain ⟨live, built, during, ran, brings⟩ := runs
  obtain ⟨p, events, built, rfl, called'⟩ := build_noted_tap_called ran
  obtain ⟨invoked, findings, brings, invoked', findings'⟩ := Parser.tap_brings brings
  refine ⟨⟨round.value, round.rest, asked, ⟨events, round.called.calls⟩, invoked, findings⟩,
    ⟨live, p, during, built, brings⟩, rfl, ?_⟩
  simp only [Round.tapped, same, called', invoked', findings']

theorem Round.exists_untapped {rounds : List (Round τ α β)} {last : Option (Deeds τ)}
    {own : Findings τ α} (same : own.tapped a = Round.first rounds last)
    (runs : ∀ round ∈ rounds, round.Runs Task.IsTap Task.IsTap ρ
      (fun v => .noted [.note (c v)] (.tap (b v) (q v))) lives) :
    ∃ rounds' : List (Round τ α β), Round.first rounds' own.last = own ∧
      rounds'.map (Round.tapped a b c) = rounds ∧
      ∀ round ∈ rounds', round.Runs Task.IsTap Task.Anything ρ q lives := by
  obtain ⟨parses, last'⟩ := own
  replace same := congrArg Findings.parses same
  simp only [Round.first, Findings.mk.injEq, and_true]
  induction rounds generalizing parses with
  | nil =>
      obtain rfl : parses = [] := by simpa [Findings.tapped, Round.first] using same
      exact ⟨[], rfl, rfl, by simp⟩
  | cons round rounds ih =>
      cases parses with
      | nil => cases same
      | cons entry parses =>
          obtain ⟨now, later⟩ := List.cons.inj same
          obtain ⟨first, asked⟩ := Prod.mk.inj now
          obtain ⟨own, runs', same', tapped⟩ := (runs round (.head _)).untapped (first ▸ asked)
          obtain ⟨rounds', whole, taps, all⟩ :=
            ih (fun _ inside => runs _ (.tail _ inside)) parses later
          refine ⟨own :: rounds', ?_, by rw [List.map_cons, tapped, taps],
            List.forall_mem_cons.mpr ⟨runs', all⟩⟩
          rw [List.map_cons, whole, same', ← first]

theorem Round.inTurn_of_tapped {rounds : List (Round τ α β)} {last last' : Option (Deeds τ)}
    (ends : last.isSome = last'.isSome) (inTurn : InTurn last (rounds.map (Round.tapped a b c))) :
    InTurn last' rounds := by
  induction rounds with
  | nil => trivial
  | cons round rounds ih =>
      refine ⟨fun more => ?_, ih inTurn.2⟩
      simpa [Round.tapped, Findings.tapped] using inTurn.1 (by simpa [ends] using more)

end Rounds

theorem Change.exists_untapped {ρ : Scope τ Γ} {q : Parser τ Γ α} {input : Input τ}
    {lives : List Owners} {a b : String} {change : Option (Change τ α)} {last : Option (Deeds τ)}
    (same : last.map (·.answered a (.ended a)) = change.map Change.last)
    (runs : ∀ turn ∈ change, ∃ live, Owners.During lives live ∧
      (Parser.tap b q).Brings Task.IsTap ρ input live lives turn.invoked turn.findings) :
    ∃ own : Option (Change τ α), own.map Change.last = last ∧
      own.map (Change.tapped a b input) = change ∧
      ∀ turn ∈ own, ∃ live, Owners.During lives live ∧
        q.Brings Task.Anything ρ input live lives turn.invoked turn.findings := by
  cases change with
  | none =>
      obtain rfl : last = none := by simpa using same
      exact ⟨none, rfl, rfl, by simp⟩
  | some change =>
      obtain ⟨events, rfl, ended⟩ := Option.map_eq_some_iff.mp same
      obtain ⟨live, during, brings⟩ := runs change rfl
      obtain ⟨invoked, findings, brings, invoked', findings'⟩ := Parser.tap_brings brings
      refine ⟨some ⟨events, invoked, findings⟩, rfl, ?_, ?_⟩
      · simp only [Option.map_some, Change.tapped, ended, invoked', findings']
      · rintro _ ⟨⟩
        exact ⟨live, during, brings⟩

section Turns

variable (ρ : Scope τ Γ) (input : Input τ) (live : Owners) (lives : List Owners)

/-- What is seen of a run of `bind`, where `p` is tapped as `a`, the calls of `q` are noted by `c`,
and what it gives is tapped by `b`. Each parse of `p`, in the order in which they are found, starts
a round. There are `count` pulls after the end, and nothing is done in them. -/
structure BindTurns (p : Parser τ Γ α) (captures : Captures Γ Δ) (q : α → Parser τ Δ β) (a : String)
    (b c : α → String) (report : Report τ β) (own : Deeds τ) (rounds : List (Round τ α β))
    (last : Option (Deeds τ)) (count : Nat) : Prop where
  first : p.Brings Task.Anything ρ input live lives own (Round.first rounds last)
  runs : ∀ round ∈ rounds, round.Runs Task.IsTap Task.Anything (ρ.captured captures) q lives
  inTurn : Round.InTurn last rounds
  finished : count ≠ 0 → last.isSome
  invoked : report.invoked = own.opened a input.offset
  pulls : report.pulls = Stretch.cut .nothing
    (Round.all (rounds.map (Round.tapped a b c)) (last.map (·.answered a (.ended a)))) ++
      List.replicate count (none, .nothing)
  -- Nothing is done between the stretches or after them.
  whole : Deeds.all (report.pulls.map Prod.snd) = Deeds.all
    ((Round.all (rounds.map (Round.tapped a b c)) (last.map (·.answered a (.ended a)))).map
      Stretch.deeds)

/-- What is seen of a run of `or`, where `p` is tapped as `a` and `q` as `b`. The change over to `q`
is made on the same input, in the pull that finds the end of `p`. There are `count` pulls after the
end, and nothing is done in them. -/
structure OrTurns (p q : Parser τ Γ α) (a b : String) (report : Report τ α) (own : Deeds τ)
    (parses : List ((α × Input τ) × Deeds τ)) (change : Option (Change τ α)) (count : Nat) :
    Prop where
  first : p.Brings Task.Anything ρ input live lives own ⟨parses, change.map Change.last⟩
  second : ∀ turn ∈ change, ∃ live, Owners.During lives live ∧
    q.Brings Task.Anything ρ input live lives turn.invoked turn.findings
  finished : count ≠ 0 → ∃ turn ∈ change, turn.findings.last.isSome
  invoked : report.invoked = own.opened a input.offset
  pulls : report.pulls = Stretch.cut .nothing
    (Change.all (Findings.tapped a ⟨parses, none⟩).parses (change.map (Change.tapped a b input))) ++
      List.replicate count (none, .nothing)
  whole : Deeds.all (report.pulls.map Prod.snd) = Deeds.all
    ((Change.all (Findings.tapped a ⟨parses, none⟩).parses
      (change.map (Change.tapped a b input))).map Stretch.deeds)

variable {ρ input live lives}

theorem exists_bindTurns {p : Parser τ Γ α} {captures : Captures Γ Δ} {q : α → Parser τ Δ β}
    {a : String} {b c : α → String} {report : Report τ β}
    (does : (Parser.bind (.tap a p) captures fun v =>
      .noted [.note (c v)] (.tap (b v) (q v))).Does Task.IsTap ρ input live lives report) :
    ∃ own rounds last count,
      BindTurns ρ input live lives p captures q a b c report own rounds last count := by
  have taps : ∀ task : Task τ, task.IsTap → task.IsTap := fun _ => id
  obtain ⟨invoked, pulls⟩ := report
  obtain ⟨_, uses, ran, pulled, rfl⟩ := Parser.does_iff.mp does
  obtain ⟨opened, ran', rfl⟩ := (Parser.opensAround_bind ρ input _ _ _ _ _ _).mp ran.returns
  obtain ⟨uses', ran'⟩ := ran'.exists_called Task.IsTap
  obtain ⟨-, rfl⟩ := ran.unique (.of_uses taps id (.last ran' (.done _)))
  obtain ⟨findings, rounds, last, count, script, more, same, whole⟩ :=
    Parses.nested_scripted taps pulled
  obtain ⟨owners, all, outside⟩ := script.outside
  obtain ⟨events, own, brings, logged, tapped⟩ :=
    Parser.tap_brings ⟨owners, all, Parser.does_iff.mpr ⟨opened, _, ran', outside, rfl⟩⟩
  obtain ⟨rounds, each, rfl, runs⟩ := Round.exists_untapped tapped script.runs
  obtain rfl : own.last.map (·.answered a (.ended a)) = last := congrArg Findings.last tapped
  obtain ⟨cut, passed⟩ := script.inside.of_empty taps
  exact ⟨events, rounds, own.last, count, {
    first := each ▸ brings
    runs := runs
    inTurn := Round.inTurn_of_tapped (by simp) script.inTurn
    finished := by simpa using more
    invoked := logged.symm
    pulls := by rw [same, cut]
    whole := by rw [whole, List.map_append, Deeds.all_append, passed, Deeds.nothing_append] }⟩

theorem exists_orTurns {p q : Parser τ Γ α} {a b : String} {report : Report τ α}
    (does : (Parser.or (.tap a p) (.tap b q)).Does Task.IsTap ρ input live lives report) :
    ∃ own parses change count,
      OrTurns ρ input live lives p q a b report own parses change count := by
  have taps : ∀ task : Task τ, task.IsTap → task.IsTap := fun _ => id
  obtain ⟨invoked, pulls⟩ := report
  obtain ⟨_, uses, ran, pulled, rfl⟩ := Parser.does_iff.mp does
  obtain ⟨opened, ran', rfl⟩ := (Parser.opensAround_or ρ input _ _ _ _ _).mp ran.returns
  obtain ⟨uses', ran'⟩ := ran'.exists_called Task.IsTap
  obtain ⟨-, rfl⟩ := ran.unique (.of_uses taps id (.last ran' (.done _)))
  obtain ⟨parses, change, count, ⟨owners, all, outside⟩, runs, more, same, whole⟩ :=
    Parses.choosing_brings taps pulled
  obtain ⟨events, own, brings, logged, tapped⟩ :=
    Parser.tap_brings ⟨owners, all, Parser.does_iff.mpr ⟨opened, _, ran', outside, rfl⟩⟩
  obtain ⟨parses', last⟩ := own
  obtain ⟨rfl, ends⟩ := Findings.mk.inj tapped
  obtain ⟨change, rfl, rfl, runs'⟩ := Change.exists_untapped ends runs
  have finished (some : count ≠ 0) : ∃ turn ∈ change, turn.findings.last.isSome := by
    obtain ⟨_, tapped, ended⟩ := more some
    obtain ⟨turn, inside, rfl⟩ := Option.map_eq_some_iff.mp tapped
    exact ⟨turn, inside, by simpa [Change.tapped, Findings.tapped] using ended⟩
  exact ⟨events, parses', change, count, {
    first := brings
    second := runs'
    finished := finished
    invoked := logged.symm
    pulls := same
    whole := whole }⟩

end Turns

/-- The first parser is invoked when the whole is. With `bind`, each of its parses is followed by
the one call of the continuation, the one invocation of what that gives, and the parses and the end
of it, before the first parser is pulled again; a pull returns with the next parse of the second, or
with the end of the first. With `or`, the parses and the end of the first parser are followed by the
one invocation of the second, in the same pull, and the parses and the end of that. Pulls after the
end cause no event, and neither parser is asked again. -/
theorem bind_and_or_take_turns (ρ : Scope τ Γ) (input : Input τ) (live : Owners)
    (lives : List Owners) :
    (∀ (p : Parser τ Γ α) (captures : Captures Γ Δ) (q : α → Parser τ Δ β) (a : String)
        (b c : α → String) (seen : Observation τ β),
      (Parser.bind (.tap a p) captures fun v => .noted [.note (c v)] (.tap (b v) (q v))).Shows ρ
        input live lives seen →
      ∃ report : Report τ β, report.seen = seen ∧
        (Parser.bind (.tap a p) captures fun v => .noted [.note (c v)] (.tap (b v) (q v))).Does
          Task.IsTap ρ input live lives report ∧
        ∃ own rounds last count,
          BindTurns ρ input live lives p captures q a b c report own rounds last count) ∧
    ∀ (p q : Parser τ Γ α) (a b : String) (seen : Observation τ α),
      (Parser.or (.tap a p) (.tap b q)).Shows ρ input live lives seen →
      ∃ report : Report τ α, report.seen = seen ∧
        (Parser.or (.tap a p) (.tap b q)).Does Task.IsTap ρ input live lives report ∧
        ∃ own parses change count,
          OrTurns ρ input live lives p q a b report own parses change count := by
  constructor
  · intro p captures q a b c seen shows
    obtain ⟨report, does, same⟩ := shows.exists_does Task.IsTap
    exact ⟨report, same, does, exists_bindTurns does⟩
  · intro p q a b seen shows
    obtain ⟨report, does, same⟩ := shows.exists_does Task.IsTap
    exact ⟨report, same, does, exists_orTurns does⟩

theorem beginnings_take_turns :
    let lengths : Parser Char [] Nat := .map List.length (.many .item)
    let twice (n : Nat) : Parser Char [] Nat :=
      if n = 1 then .or (.result 1) (.result 10) else .fail
    let input : Input Char := ⟨⟨0, #['a', 'b']⟩, 0⟩
    let seen : Observation Char Nat := ⟨[.run "length" 0],
      [(some (1, input.advance 1),
          [.yield "length" 2, .note "asked", .run "twice" 2, .ended "twice",
            .yield "length" 1, .note "asked", .run "twice" 1, .yield "twice" 1]),
        (some (10, input.advance 1), [.yield "twice" 1]),
        (none, [.ended "twice", .yield "length" 0, .note "asked", .run "twice" 0, .ended "twice",
          .ended "length"]),
        (none, [])]⟩
    let seen' : Observation Char Nat := ⟨[.run "first" 0],
      [(some (1, input.advance 1), [.yield "first" 1]),
        (some (2, input), [.ended "first", .run "second" 0, .yield "second" 0]),
        (none, [.ended "second"]), (none, [])]⟩
    let lives := List.replicate 4 Owners.nobody
    ((Parser.bind (.tap "length" lengths) .none fun n =>
          .noted [.note "asked"] (.tap "twice" (twice n))).Shows .empty input .nobody lives seen ∧
      (Parser.or (.tap "first" (.map (fun _ => 1) .item)) (.tap "second" (.result 2))).Shows
        .empty input .nobody lives seen') ∧
      (∃ report : Report Char Nat, report.seen = seen ∧
        ∃ own rounds last count, BindTurns .empty input .nobody lives lengths .none twice "length"
          (fun _ => "twice") (fun _ => "asked") report own rounds last count) ∧
      ∃ report : Report Char Nat, report.seen = seen' ∧
        ∃ own parses change count, OrTurns .empty input .nobody lives (.map (fun _ => 1) .item)
          (.result 2) "first" "second" report own parses change count := by
  intro lengths twice input seen seen' lives
  have bound : (Parser.bind (.tap "length" lengths) .none fun n =>
      .noted [.note "asked"] (.tap "twice" (twice n))).Shows .empty input .nobody lives seen :=
    ⟨30, rfl⟩
  have chosen : (Parser.or (.tap "first" (.map (fun _ => 1) .item))
      (.tap "second" (.result 2))).Shows .empty input .nobody lives seen' :=
    ⟨20, rfl⟩
  obtain ⟨bindTurns, orTurns⟩ :=
    @bind_and_or_take_turns Char Nat Nat [] [] .empty input .nobody lives
  obtain ⟨report, same, -, turns⟩ := bindTurns lengths .none twice "length" _ _ seen bound
  obtain ⟨report', same', -, turns'⟩ := orTurns _ _ "first" "second" seen' chosen
  exact ⟨⟨bound, chosen⟩, ⟨report, same, turns⟩, report', same', turns'⟩

end EveryParse
