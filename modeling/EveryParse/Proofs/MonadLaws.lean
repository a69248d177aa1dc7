import EveryParse.Proofs.Bisimulation

/-!
The laws of `bind`. Main statement: regrouping a chain of binds and binding to `result` change
nothing that is seen of an invocation and of the pulls that follow, events included, and binding a
plain result finds what the continuation finds.
-/

namespace EveryParse

variable {τ : Type} {α β γ : Type} {Γ : List Type}

/-- The owners that the parses of a continuation meet: what is in the scope of the continuation and
what `outer` holds stays alive too. -/
def Owners.around (live : Owners) (ρ : Scope τ Γ) (outer : Parses τ α) : Owners :=
  live.add (Owners.add ρ.holds outer.holds)

namespace Owners

variable (live : Owners) (ρ : Scope τ Γ) (outer : Parses τ α)

theorem add_add_self : (live.add ρ.holds).add ρ.holds = live.add ρ.holds := by
  funext name
  simp [add]

theorem around_add_holds : (live.add ρ.holds).around ρ outer = live.around ρ outer := by
  funext name
  simp only [around, add]
  cases ρ.holds name <;> simp

theorem add_holds_around : (live.around ρ outer).add ρ.holds = live.around ρ outer := by
  funext name
  simp only [around, add]
  cases ρ.holds name <;> simp

theorem around_nested (f : α → Parser τ Γ β) (inner : Parses τ β) :
    live.around ρ (.nested ρ f outer inner) = (live.around ρ outer).around ρ inner := by
  funext name
  simp only [around, add, Parses.holds]
  cases ρ.holds name <;> cases outer.holds name <;> cases inner.holds name <;> rfl

theorem around_empty : live.around ρ (.empty : Parses τ α) = live.add ρ.holds := by
  funext name
  simp [around, add, Parses.empty, Parses.holds]

end Owners

inductive Refills (ρ : Scope τ Γ) (f : α → Parser τ Γ β) (live : Owners) (outer : Parses τ α) :
    α → Input τ → List Event → Outcome (Parses τ β) → Prop
  | through {v rest log p opened} (built : (Task.build ρ (f v)).Returns (live.around ρ outer) log p)
      (invoked : (Task.invoke ρ p.value rest).Returns (live.around ρ outer) p.log opened) :
      Refills ρ f live outer v rest log opened

inductive NestedPull (ρ : Scope τ Γ) (f : α → Parser τ Γ β) (live : Owners) :
    Parses τ α → Parses τ β → List Event → Outcome (Answer τ β) → Prop
  | found {outer inner log v rest left log'}
      (inside : (Task.pull inner).Returns (live.around ρ outer) log ⟨.parse v rest left, log'⟩) :
      NestedPull ρ f live outer inner log ⟨.parse v rest (.nested ρ f outer left), log'⟩
  | ended {outer inner log spent log' left log''}
      (inside : (Task.pull inner).Returns (live.around ρ outer) log ⟨.ended spent, log'⟩)
      (outside : (Task.pull outer).Returns (live.add ρ.holds) log' ⟨.ended left, log''⟩) :
      NestedPull ρ f live outer inner log ⟨.ended .empty, log''⟩
  | next {outer inner log spent log' v rest left log'' opened answer}
      (inside : (Task.pull inner).Returns (live.around ρ outer) log ⟨.ended spent, log'⟩)
      (outside : (Task.pull outer).Returns (live.add ρ.holds) log' ⟨.parse v rest left, log''⟩)
      (refills : Refills ρ f live left v rest log'' opened)
      (later : NestedPull ρ f live left opened.value opened.log answer) :
      NestedPull ρ f live outer inner log answer

section Nested

variable {ρ : Scope τ Γ} {f : α → Parser τ Γ β} {live : Owners} {outer : Parses τ α}
  {inner : Parses τ β} {log : List Event} {answer : Outcome (Answer τ β)}

theorem NestedPull.returns (pull : NestedPull ρ f live outer inner log answer) :
    (Task.pull (.nested ρ f outer inner)).Returns live log answer := by
  induction pull with
  | found inside => exact Task.returns ⟨_, inside, rfl⟩
  | ended inside outside => exact Task.returns ⟨_, inside, _, outside, rfl⟩
  | next inside outside refills _ ih =>
      obtain ⟨built, invoked⟩ := refills
      exact Task.returns ⟨_, inside, _, outside, _, built, _, invoked, _, ih, rfl⟩

theorem NestedPull.of_run {fuel : Nat}
    (ran : (Task.pull (.nested ρ f outer inner)).run fuel live log = some answer) :
    NestedPull ρ f live outer inner log answer := by
  induction fuel generalizing outer inner log with
  | zero => simp [Task.run] at ran
  | succ fuel ih =>
      obtain ⟨⟨answer₁, log₁⟩, ran₁, ran⟩ := Option.bind_eq_some_iff.mp ran
      have inside := Task.Returns.of_run ran₁
      rcases answer₁ with ⟨v, rest, left⟩ | spent
      · cases ran
        exact .found inside
      obtain ⟨⟨answer₂, log₂⟩, ran₂, ran⟩ := Option.bind_eq_some_iff.mp ran
      have outside := Task.Returns.of_run ran₂
      rcases answer₂ with ⟨v, rest, left⟩ | left
      · obtain ⟨p, ran₃, ran⟩ := Option.bind_eq_some_iff.mp ran
        obtain ⟨opened, ran₄, ran⟩ := Option.bind_eq_some_iff.mp ran
        obtain ⟨result, ran₅, ran⟩ := Option.bind_eq_some_iff.mp ran
        cases ran
        have built := Task.Returns.of_run ran₃
        have invoked := Task.Returns.of_run ran₄
        exact .next inside outside (.through built invoked) (ih ran₅)
      · cases ran
        exact .ended inside outside

theorem NestedPull.iff_returns :
    (Task.pull (.nested ρ f outer inner)).Returns live log answer ↔
      NestedPull ρ f live outer inner log answer :=
  ⟨fun ⟨_, ran⟩ => .of_run ran, NestedPull.returns⟩

end Nested

theorem Parses.empty_pull (live : Owners) (log : List Event) :
    (Task.pull (.empty : Parses τ α)).Returns live log ⟨.ended .empty, log⟩ :=
  Task.returns rfl

theorem Parses.single_pull (live : Owners) (log : List Event) (v : α) (rest : Input τ) :
    (Task.pull (.listed [(v, rest)])).Returns live log ⟨.parse v rest .empty, log⟩ :=
  Task.returns rfl

/-! Regrouping. -/

section Regrouping

variable {ρ : Scope τ Γ} {f : α → Parser τ Γ β} {g : β → Parser τ Γ γ} {live : Owners}

inductive Resumes (ρ : Scope τ Γ) (g : β → Parser τ Γ γ) (live : Owners) :
    Outcome (Answer τ β) → Outcome (Answer τ γ) → Prop
  | ended {left log} : Resumes ρ g live ⟨.ended left, log⟩ ⟨.ended .empty, log⟩
  | next {v rest left log opened answer} (refills : Refills ρ g live left v rest log opened)
      (later : NestedPull ρ g live left opened.value opened.log answer) :
      Resumes ρ g live ⟨.parse v rest left, log⟩ answer

theorem NestedPull.nested_left {outer : Parses τ β} {inner : Parses τ γ} {log v rest left log'}
    (pull : NestedPull ρ g live outer inner log ⟨.parse v rest left, log'⟩) :
    ∃ outer' inner', left = .nested ρ g outer' inner' := by
  generalize same : (⟨.parse v rest left, log'⟩ : Outcome (Answer τ γ)) = answer at pull
  induction pull with
  | found inside =>
      cases same
      exact ⟨_, _, rfl⟩
  | ended inside outside => cases same
  | next inside outside refills _ ih => exact ih same

theorem NestedPull.resume {outer : Parses τ β} {inner : Parses τ γ} {spent log log' reply answer}
    (inside : (Task.pull inner).Returns (live.around ρ outer) log ⟨.ended spent, log'⟩)
    (outside : (Task.pull outer).Returns (live.add ρ.holds) log' reply)
    (resumes : Resumes ρ g live reply answer) : NestedPull ρ g live outer inner log answer := by
  cases resumes with
  | ended => exact .ended inside outside
  | next refills later => exact .next inside outside refills later

theorem NestedPull.resumes {outer : Parses τ β} {log answer}
    (pull : NestedPull ρ g live outer .empty log answer) :
    ∃ reply, (Task.pull outer).Returns (live.add ρ.holds) log reply ∧
      Resumes ρ g live reply answer := by
  cases pull with
  | found inside => cases (Parses.empty_pull _ log).unique inside
  | ended inside outside =>
      cases (Parses.empty_pull _ log).unique inside
      exact ⟨_, outside, .ended⟩
  | next inside outside refills later =>
      cases (Parses.empty_pull _ log).unique inside
      exact ⟨_, outside, .next refills later⟩

theorem NestedPull.transfer {outer : Parses τ β} {inner inner' : Parses τ γ} {log log' answer}
    (same : ∀ reply, (Task.pull inner').Returns (live.around ρ outer) log' reply →
      (Task.pull inner).Returns (live.around ρ outer) log reply)
    (pull : NestedPull ρ g live outer inner' log' answer) :
    NestedPull ρ g live outer inner log answer := by
  cases pull with
  | found inside => exact .found (same _ inside)
  | ended inside outside => exact .ended (same _ inside) outside
  | next inside outside refills later => exact .next (same _ inside) outside refills later

theorem refills_nested {outer : Parses τ α} {inner : Parses τ β} {v rest log}
    {opened : Outcome (Parses τ γ)} :
    Refills ρ g live (.nested ρ f outer inner) v rest log opened ↔
      Refills ρ g (live.around ρ outer) inner v rest log opened := by
  have same := live.around_nested ρ outer f inner
  constructor
  · rintro ⟨built, invoked⟩
    exact .through (same ▸ built) (same ▸ invoked)
  · rintro ⟨built, invoked⟩
    exact .through (same ▸ built) (same ▸ invoked)

theorem refills_bind {outer : Parses τ α} {v rest log} {opened : Outcome (Parses τ γ)} :
    Refills ρ (fun v => .bind (f v) .all g) live outer v rest log opened ↔
      ∃ inside, Refills ρ f (live.add ρ.holds) outer v rest log inside ∧
        inside.map (.nested ρ g · .empty) = opened := by
  have same := live.around_add_holds ρ outer
  constructor
  · rintro ⟨built, invoked⟩
    obtain ⟨p, builtFirst, rfl⟩ := Task.returns_iff_course.mp built
    obtain ⟨inside, invokedFirst, rfl⟩ := Task.returns_iff_course.mp invoked
    exact ⟨inside, .through (same ▸ builtFirst) (same ▸ invokedFirst), rfl⟩
  · rintro ⟨inside, ⟨built, invoked⟩, rfl⟩
    rw [same] at built invoked
    exact .through (Task.returns ⟨_, built, rfl⟩) (Task.returns ⟨_, invoked, rfl⟩)

inductive ResumesInside (ρ : Scope τ Γ) (f : α → Parser τ Γ β) (g : β → Parser τ Γ γ)
    (live : Owners) : Outcome (Answer τ β) → Outcome (Answer τ γ) → Prop
  | ended {left log} : ResumesInside ρ f g live ⟨.ended left, log⟩ ⟨.ended .empty, log⟩
  | next {v rest outer inner log opened answer}
      (refills : Refills ρ g (live.around ρ outer) inner v rest log opened)
      (later : NestedPull ρ (fun v => .bind (f v) .all g) live outer
        (.nested ρ g inner opened.value)
        opened.log answer) :
      ResumesInside ρ f g live ⟨.parse v rest (.nested ρ f outer inner), log⟩ answer

theorem NestedPull.resume_inside {outer : Parses τ α} {inner : Parses τ β} {log reply}
    (pull : NestedPull ρ f (live.add ρ.holds) outer inner log reply) {innermost : Parses τ γ}
    {start spent answer}
    (inside : (Task.pull innermost).Returns ((live.around ρ outer).around ρ inner) start
      ⟨.ended spent, log⟩)
    (resumes : ResumesInside ρ f g live reply answer) :
    NestedPull ρ (fun v => .bind (f v) .all g) live outer (.nested ρ g inner innermost)
      start answer := by
  induction pull generalizing innermost start spent answer with
  | @found outer inner log v rest left log' finds =>
      rw [Owners.around_add_holds, ← Owners.add_holds_around] at finds
      cases resumes with
      | next refills later =>
          refine later.transfer fun reply pulled => ?_
          exact (NestedPull.next inside finds refills (NestedPull.iff_returns.mp pulled)).returns
  | @ended outer inner log spent log' left log'' ends outside =>
      rw [Owners.around_add_holds, ← Owners.add_holds_around] at ends
      rw [Owners.add_add_self] at outside
      cases resumes with
      | ended => exact .ended (NestedPull.ended inside ends).returns outside
  | @next outer inner log spent log' v rest left log'' opened reply ends outside refills _ ih =>
      rw [Owners.around_add_holds, ← Owners.add_holds_around] at ends
      rw [Owners.add_add_self] at outside
      have finished := ih (Parses.empty_pull _ opened.log) resumes
      exact .next (NestedPull.ended inside ends).returns outside
        (refills_bind.mpr ⟨opened, refills, rfl⟩) finished

/-- The two ways to nest the parses of `f` and `g`, when they have come equally far. -/
inductive Regrouped (ρ : Scope τ Γ) (f : α → Parser τ Γ β) (g : β → Parser τ Γ γ) :
    Parses τ γ → Parses τ γ → Prop
  | fresh {outer} :
      Regrouped ρ f g (.nested ρ g (.nested ρ f outer .empty) .empty)
        (.nested ρ (fun v => .bind (f v) .all g) outer .empty)
  | running {outer inner innermost} :
      Regrouped ρ f g (.nested ρ g (.nested ρ f outer inner) innermost)
        (.nested ρ (fun v => .bind (f v) .all g) outer (.nested ρ g inner innermost))

theorem NestedPull.regroup {outer : Parses τ α} {inner : Parses τ β} {innermost : Parses τ γ}
    {log answer} (pull : NestedPull ρ g live (.nested ρ f outer inner) innermost log answer) :
    ∃ answer', NestedPull ρ (fun v => .bind (f v) .all g) live outer
      (.nested ρ g inner innermost) log
      answer' ∧ Answer.Agree (Regrouped ρ f g) answer answer' := by
  generalize same : Parses.nested ρ f outer inner = chain at pull
  -- On how often the chain is asked again: what it leaves is a chain once more.
  induction pull generalizing outer inner with
  | found inside =>
      subst same
      rw [Owners.around_nested] at inside
      exact ⟨_, .found (NestedPull.found inside).returns, .parse .running⟩
  | ended inside outside =>
      subst same
      rw [Owners.around_nested] at inside
      have chain := NestedPull.iff_returns.mp outside
      exact ⟨_, chain.resume_inside inside .ended, .ended⟩
  | next inside outside refills _ ih =>
      subst same
      rw [Owners.around_nested] at inside
      have chain := NestedPull.iff_returns.mp outside
      obtain ⟨outer', inner', rfl⟩ := chain.nested_left
      obtain ⟨answer', later, agree⟩ := ih rfl
      have resumes := ResumesInside.next (refills_nested.mp refills) later
      exact ⟨answer', chain.resume_inside inside resumes, agree⟩

theorem NestedPull.resume_outside {outer : Parses τ α} {inner : Parses τ β} {innermost : Parses τ γ}
    {start answer left log}
    (pull : NestedPull ρ g (live.around ρ outer) inner innermost start ⟨.ended left, log⟩)
    (chain : ∀ {inner : Parses τ β} {start spent},
      (Task.pull inner).Returns (live.around ρ outer) start ⟨.ended spent, log⟩ →
        ∃ reply, NestedPull ρ f (live.add ρ.holds) outer inner start reply ∧
          Resumes ρ g live reply answer) :
    NestedPull ρ g live (.nested ρ f outer inner) innermost start answer := by
  generalize same : (⟨.ended left, log⟩ : Outcome (Answer τ γ)) = reply at pull
  -- The inner chain may open parses of `g` before it ends, and they are the same on both sides.
  induction pull with
  | found inside => cases same
  | ended inside outside =>
      cases same
      rw [← Owners.around_nested] at inside
      rw [Owners.add_holds_around] at outside
      obtain ⟨reply, pull, resumes⟩ := chain outside
      exact .resume inside pull.returns resumes
  | next inside outside refills _ ih =>
      rw [← Owners.around_nested] at inside
      rw [Owners.add_holds_around, ← Owners.around_add_holds] at outside
      exact .next inside (NestedPull.found outside).returns (refills_nested.mpr refills) (ih same)

theorem NestedPull.found_outside {outer : Parses τ α} {inner : Parses τ β} {innermost : Parses τ γ}
    {start v rest left log}
    (pull : NestedPull ρ g (live.around ρ outer) inner innermost start ⟨.parse v rest left, log⟩) :
    ∃ inner' innermost', left = .nested ρ g inner' innermost' ∧
      NestedPull ρ g live (.nested ρ f outer inner) innermost start
        ⟨.parse v rest (.nested ρ g (.nested ρ f outer inner') innermost'), log⟩ := by
  generalize same : (⟨.parse v rest left, log⟩ : Outcome (Answer τ γ)) = reply at pull
  induction pull with
  | found inside =>
      cases same
      rw [← Owners.around_nested] at inside
      exact ⟨_, _, rfl, .found inside⟩
  | ended inside outside => cases same
  | next inside outside refills _ ih =>
      obtain ⟨inner', innermost', rfl, later⟩ := ih same
      rw [← Owners.around_nested] at inside
      rw [Owners.add_holds_around, ← Owners.around_add_holds] at outside
      exact ⟨inner', innermost', rfl, .next inside (NestedPull.found outside).returns
        (refills_nested.mpr refills) later⟩

theorem NestedPull.ungroup {outer : Parses τ α} {inner : Parses τ β} {innermost : Parses τ γ}
    {log answer'} (pull : NestedPull ρ (fun v => .bind (f v) .all g) live outer
      (.nested ρ g inner innermost) log answer') :
    ∃ answer, NestedPull ρ g live (.nested ρ f outer inner) innermost log answer ∧
      Answer.Agree (Regrouped ρ f g) answer answer' := by
  generalize same : Parses.nested ρ g inner innermost = chain at pull
  induction pull generalizing inner innermost with
  | found inside =>
      subst same
      obtain ⟨inner', innermost', rfl, finds⟩ := (NestedPull.iff_returns.mp inside).found_outside
      exact ⟨_, finds, .parse .running⟩
  | @ended outer _ log spent log' left log'' inside outside =>
      subst same
      refine ⟨⟨.ended .empty, log''⟩, ?_, .ended⟩
      refine (NestedPull.iff_returns.mp inside).resume_outside ?_
      intro inner start spent ends
      rw [← Owners.around_add_holds] at ends
      rw [← Owners.add_add_self] at outside
      exact ⟨_, .ended ends outside, .ended⟩
  | @next outer _ log spent log' v rest left log'' opened answer' inside outside refills _ ih =>
      subst same
      obtain ⟨first, refillsFirst, rfl⟩ := refills_bind.mp refills
      obtain ⟨answer, later, agree⟩ := ih rfl
      obtain ⟨reply, pulled, resumes⟩ := later.resumes
      refine ⟨answer, (NestedPull.iff_returns.mp inside).resume_outside ?_, agree⟩
      intro inner start spent ends
      rw [← Owners.around_add_holds] at ends
      rw [← Owners.add_add_self] at outside
      exact ⟨reply, .next ends outside refillsFirst (NestedPull.iff_returns.mp pulled), resumes⟩

theorem NestedPull.fresh_iff {outer : Parses τ α} {log} {answer : Outcome (Answer τ γ)} :
    NestedPull ρ (fun v => .bind (f v) .all g) live outer .empty log answer ↔
      NestedPull ρ (fun v => .bind (f v) .all g) live outer (.nested ρ g .empty .empty)
      log answer := by
  have finished live log : (Task.pull (.nested ρ g .empty .empty)).Returns live log
      ⟨.ended .empty, log⟩ :=
    (NestedPull.ended (Parses.empty_pull _ log) (Parses.empty_pull _ log)).returns
  constructor
  · refine NestedPull.transfer fun reply pulled => ?_
    cases (Parses.empty_pull _ log).unique pulled
    exact finished _ log
  · refine NestedPull.transfer fun reply pulled => ?_
    cases (finished _ log).unique pulled
    exact Parses.empty_pull _ log

theorem regrouped_bisimulation : Bisimulation (Regrouped ρ f g) id id where
  forth start pulled := by
    cases start with
    | fresh =>
        obtain ⟨answer', pull, agree⟩ := (NestedPull.iff_returns.mp pulled).regroup
        exact ⟨answer', (NestedPull.fresh_iff.mpr pull).returns, agree⟩
    | running =>
        obtain ⟨answer', pull, agree⟩ := (NestedPull.iff_returns.mp pulled).regroup
        exact ⟨answer', pull.returns, agree⟩
  back start pulled := by
    cases start with
    | fresh =>
        have pull := NestedPull.fresh_iff.mp (NestedPull.iff_returns.mp pulled)
        obtain ⟨answer, pull, agree⟩ := pull.ungroup
        exact ⟨answer, pull.returns, agree⟩
    | running =>
        obtain ⟨answer, pull, agree⟩ := (NestedPull.iff_returns.mp pulled).ungroup
        exact ⟨answer, pull.returns, agree⟩

end Regrouping

theorem refills_result {ρ : Scope τ Γ} {live : Owners} {outer : Parses τ α} {v : α}
    {rest : Input τ} {log} {opened : Outcome (Parses τ α)} :
    Refills ρ .result live outer v rest log opened ↔ opened = ⟨.listed [(v, rest)], log⟩ := by
  have built : (Task.build ρ (.result v)).Returns (live.around ρ outer) log ⟨.result v, log⟩ :=
    Task.returns rfl
  have invoked : (Task.invoke ρ (.result v) rest).Returns (live.around ρ outer) log
      ⟨.listed [(v, rest)], log⟩ :=
    Task.returns rfl
  constructor
  · rintro ⟨built', invoked'⟩
    cases built'.unique built
    exact invoked'.unique invoked
  · rintro rfl
    exact .through built invoked

inductive BoundToResult (ρ : Scope τ Γ) : Parses τ α → Parses τ α → Prop
  | between {s} : BoundToResult ρ (.nested ρ .result s .empty) s

theorem boundToResult_bisimulation (ρ : Scope τ Γ) :
    Bisimulation (BoundToResult ρ : Parses τ α → Parses τ α → Prop) id (·.add ρ.holds) where
  forth := by
    rintro _ s live log answer ⟨⟩ pulled
    cases NestedPull.iff_returns.mp pulled with
    | found inside => cases (Parses.empty_pull _ log).unique inside
    | ended inside outside =>
        cases (Parses.empty_pull _ log).unique inside
        exact ⟨_, outside, .ended⟩
    | next inside outside refills later =>
        cases (Parses.empty_pull _ log).unique inside
        cases refills_result.mp refills
        cases later with
        | found inside =>
            cases (Parses.single_pull _ _ _ _).unique inside
            exact ⟨_, outside, .parse .between⟩
        | ended inside _ | next inside _ _ _ =>
            cases (Parses.single_pull _ _ _ _).unique inside
  back := by
    rintro _ s live log ⟨⟨v, rest, left⟩ | left, log'⟩ ⟨⟩ pulled
    · have refills : Refills ρ .result live left v rest log' ⟨.listed [(v, rest)], log'⟩ :=
        refills_result.mpr rfl
      have inside := Parses.single_pull (live.around ρ left) log' v rest
      have pull := NestedPull.next (Parses.empty_pull _ log) pulled refills (.found inside)
      exact ⟨_, pull.returns, .parse .between⟩
    · have pull := NestedPull.ended (f := .result) (Parses.empty_pull _ log) pulled
      exact ⟨_, pull.returns, .ended⟩

inductive ResultBound (ρ : Scope τ Γ) (f : α → Parser τ Γ β) : Parses τ β → Parses τ β → Prop
  | between {s} : ResultBound ρ f (.nested ρ f .empty s) s

theorem resultBound_bisimulation (ρ : Scope τ Γ) (f : α → Parser τ Γ β) :
    Bisimulation (ResultBound ρ f) id (·.add ρ.holds) where
  forth := by
    rintro _ s live log answer ⟨⟩ pulled
    have pull : NestedPull ρ f live .empty s log answer := NestedPull.iff_returns.mp pulled
    cases pull with
    | found inside =>
        rw [Owners.around_empty] at inside
        exact ⟨_, inside, .parse .between⟩
    | ended inside outside =>
        rw [Owners.around_empty] at inside
        cases (Parses.empty_pull _ _).unique outside
        exact ⟨_, inside, .ended⟩
    | next inside outside refills later => cases (Parses.empty_pull _ _).unique outside
  back := by
    rintro _ s live log ⟨⟨v, rest, left⟩ | left, log'⟩ ⟨⟩ pulled
    · rw [← live.around_empty (α := α) ρ] at pulled
      exact ⟨_, (NestedPull.found pulled).returns, .parse .between⟩
    · rw [← live.around_empty (α := α) ρ] at pulled
      exact ⟨_, (NestedPull.ended pulled (Parses.empty_pull _ log')).returns, .ended⟩

theorem resultBound_pull {ρ : Scope τ Γ} {f : α → Parser τ Γ β} {live : Owners} {v : α}
    {input : Input τ} {log answer} :
    (Task.pull (.nested ρ f (.listed [(v, input)]) .empty)).Returns live log answer ↔
      ∃ opened, Refills ρ f live .empty v input log opened ∧
        (Task.pull (.nested ρ f .empty opened.value)).Returns live opened.log answer := by
  constructor
  · intro pulled
    cases NestedPull.iff_returns.mp pulled with
    | found inside => cases (Parses.empty_pull _ log).unique inside
    | ended inside outside =>
        cases (Parses.empty_pull _ log).unique inside
        cases (Parses.single_pull _ _ _ _).unique outside
    | next inside outside refills later =>
        cases (Parses.empty_pull _ log).unique inside
        cases (Parses.single_pull _ _ _ _).unique outside
        exact ⟨_, refills, later.returns⟩
  · rintro ⟨opened, refills, pulled⟩
    have outside := Parses.single_pull (live.add ρ.holds) log v input
    exact (NestedPull.next (Parses.empty_pull _ log) outside refills
      (NestedPull.iff_returns.mp pulled)).returns

def Scope.KeptBy (ρ : Scope τ Γ) (live : Owners) : Prop :=
  ∀ name, ρ.holds name = true → live name = true

theorem Scope.keptBy_empty (live : Owners) : (Scope.empty : Scope τ []).KeptBy live :=
  fun _ holds => nomatch holds

theorem Scope.KeptBy.add_holds {ρ : Scope τ Γ} {live : Owners} (kept : ρ.KeptBy live) :
    live.add ρ.holds = live := by
  funext name
  cases holds : ρ.holds name with
  | true => simp [Owners.add, kept name holds]
  | false => simp [Owners.add, holds]

theorem Scope.KeptBy.map_add_holds {ρ : Scope τ Γ} {lives : List Owners}
    (kept : ∀ live ∈ lives, ρ.KeptBy live) : lives.map (·.add ρ.holds) = lives := by
  rw [List.map_congr_left fun live member => (kept live member).add_holds, List.map_id']

section Laws

variable {ρ : Scope τ Γ} {input : Input τ} {live : Owners} {lives : List Owners} {Δ : List Type}
variable (captures : Captures Γ Δ)

theorem bind_assoc_shows (p : Parser τ Γ α) (f : α → Parser τ Δ β) (g : β → Parser τ Δ γ)
    (seen : Observation τ γ) :
    (Parser.bind (.bind p captures f) captures g).Shows ρ input live lives seen ↔
      (Parser.bind p captures fun v => .bind (f v) .all g).Shows ρ input live lives seen := by
  have first := Parser.opensAround_bind ρ input p captures f
  have left := first.trans (Parser.opensAround_bind ρ input (.bind p captures f) captures g)
  have right := Parser.opensAround_bind ρ input p captures fun v => .bind (f v) .all g
  have same := left.shows_iff right regrouped_bisimulation (fun _ => .fresh) live lives seen
  simpa only [List.map_id] using same

theorem bind_result_shows (p : Parser τ Γ α) (seen : Observation τ α) :
    (Parser.bind p captures .result).Shows ρ input live lives seen ↔
      p.Shows ρ input live (lives.map (·.add (ρ.captured captures).holds)) seen := by
  have left := Parser.opensAround_bind ρ input p captures .result
  have right := p.opensAround_self ρ input
  have same := left.shows_iff right (boundToResult_bisimulation _) (fun _ => .between) live lives
    seen
  simpa only [List.map_id] using same

theorem bind_result_shows_of_kept
    (kept : ∀ live ∈ lives, (ρ.captured captures).KeptBy live) (p : Parser τ Γ α)
    (seen : Observation τ α) :
    (Parser.bind p captures .result).Shows ρ input live lives seen ↔
      p.Shows ρ input live lives seen := by
  rw [bind_result_shows, Scope.KeptBy.map_add_holds kept]

theorem result_bind_shows (v : α) (f : α → Parser τ Δ β) (first : Owners)
    (answers : List (Option (β × Input τ))) :
    (∃ seen, (Parser.bind (.result v) captures f).Shows ρ input live (first :: lives) seen ∧
        seen.answers = answers) ↔
      ∃ fuel p seen, (f v).build fuel (first.add (ρ.captured captures).holds)
          (ρ.captured captures) [] = some p ∧
        p.value.Shows (ρ.captured captures) input (first.add (ρ.captured captures).holds)
          ((first :: lives).map (·.add (ρ.captured captures).holds)) seen ∧
        seen.answers = answers := by
  have same s := (resultBound_bisimulation (ρ.captured captures) f).shows_iff
    (ResultBound.between (s := s)) (first :: lives)
  simp only [List.map_id] at same
  have opens : (Task.invoke ρ (.bind (.result v) captures f) input).Returns live []
      ⟨.nested (ρ.captured captures) f (.listed [(v, input)]) .empty, []⟩ :=
    (Parser.opensAround_bind _ _ _ _ _ _ _ _).mpr ⟨_, Task.returns rfl, rfl⟩
  have around := first.around_empty (α := α) (ρ.captured captures)
  simp only [Parser.shows_iff, (carried _).build]
  constructor
  · rintro ⟨seen, ⟨opened, invoked, shows, _⟩, rfl⟩
    cases opens.unique invoked
    obtain ⟨answer, later, pulled, rest, found⟩ := Parses.shows_cons.mp shows
    obtain ⟨s, ⟨⟨fuel, built⟩, invoked⟩, pulled⟩ := resultBound_pull.mp pulled
    rw [around] at built invoked
    obtain ⟨log, invoked⟩ := invoke_at_any_log invoked []
    obtain ⟨log', pulled⟩ := pull_at_any_log pulled []
    have shown := Parses.shows_cons.mpr ⟨_, later, pulled, rest, rfl⟩
    refine ⟨fuel, _, ⟨log.reverse, _⟩, built, ⟨_, invoked, (same s.value _).mp shown, rfl⟩, ?_⟩
    rw [Observation.answers, Observation.answers, ← found]
    rfl
  · rintro ⟨fuel, p, seen, built, ⟨s, invoked, shows, _⟩, rfl⟩
    obtain ⟨answer, later, pulled, rest, found⟩ :=
      Parses.shows_cons.mp ((same s.value _).mpr shows)
    obtain ⟨log, invoked⟩ := invoke_at_any_log invoked p.log
    obtain ⟨log', pulled⟩ := pull_at_any_log pulled log
    rw [← around] at built invoked
    have pulled := resultBound_pull.mpr ⟨_, .through ⟨fuel, built⟩ invoked, pulled⟩
    have shown := Parses.shows_cons.mpr ⟨_, later, pulled, rest, rfl⟩
    refine ⟨⟨[], _⟩, ⟨_, opens, shown, rfl⟩, ?_⟩
    rw [Observation.answers, Observation.answers, ← found]
    rfl

theorem result_bind_shows_of_kept {first : Owners}
    (kept : ∀ live ∈ first :: lives, (ρ.captured captures).KeptBy live) (v : α)
    (f : α → Parser τ Δ β) (answers : List (Option (β × Input τ))) :
    (∃ seen, (Parser.bind (.result v) captures f).Shows ρ input live (first :: lives) seen ∧
        seen.answers = answers) ↔
      ∃ fuel p seen, (f v).build fuel first (ρ.captured captures) [] = some p ∧
        p.value.Shows (ρ.captured captures) input first (first :: lives) seen ∧
        seen.answers = answers := by
  rw [result_bind_shows, Scope.KeptBy.map_add_holds kept,
    (kept first List.mem_cons_self).add_holds]

end Laws

/-- Regrouping binds, and binding to `result`, changes nothing about what is seen: the invocation
causes the same events, and each pull comes to an end when it does without, with the same find and
the same events. Binding a plain result finds, pull by pull, what `f v` finds. A continuation keeps
alive what it has captured; where `p` or `f v` stands by itself, whoever pulls it has to. Where that
is so anyway, both sides meet with the same owners. -/
theorem bind_laws {Δ : List Type} (ρ : Scope τ Γ) (captures : Captures Γ Δ) (input : Input τ)
    (live : Owners) (lives : List Owners) :
    (∀ (p : Parser τ Γ α) (f : α → Parser τ Δ β) (g : β → Parser τ Δ γ) (seen : Observation τ γ),
      (Parser.bind (.bind p captures f) captures g).Shows ρ input live lives seen ↔
        (Parser.bind p captures fun v => .bind (f v) .all g).Shows ρ input live lives seen) ∧
    (∀ (p : Parser τ Γ α) (seen : Observation τ α),
      (Parser.bind p captures .result).Shows ρ input live lives seen ↔
        p.Shows ρ input live (lives.map (·.add (ρ.captured captures).holds)) seen) ∧
    (∀ (v : α) (f : α → Parser τ Δ β) (first : Owners) (answers : List (Option (β × Input τ))),
      (∃ seen, (Parser.bind (.result v) captures f).Shows ρ input live (first :: lives) seen ∧
          seen.answers = answers) ↔
        ∃ fuel p seen, (f v).build fuel (first.add (ρ.captured captures).holds)
            (ρ.captured captures) [] = some p ∧
          p.value.Shows (ρ.captured captures) input (first.add (ρ.captured captures).holds)
            ((first :: lives).map (·.add (ρ.captured captures).holds)) seen ∧
          seen.answers = answers) ∧
    ∀ (first : Owners), (∀ live ∈ first :: lives, (ρ.captured captures).KeptBy live) →
      (∀ (p : Parser τ Γ α) (seen : Observation τ α),
        (Parser.bind p captures .result).Shows ρ input live (first :: lives) seen ↔
          p.Shows ρ input live (first :: lives) seen) ∧
      ∀ (v : α) (f : α → Parser τ Δ β) (answers : List (Option (β × Input τ))),
        (∃ seen, (Parser.bind (.result v) captures f).Shows ρ input live (first :: lives) seen ∧
            seen.answers = answers) ↔
          ∃ fuel p seen, (f v).build fuel first (ρ.captured captures) [] = some p ∧
            p.value.Shows (ρ.captured captures) input first (first :: lives) seen ∧
            seen.answers = answers :=
  ⟨bind_assoc_shows captures, bind_result_shows captures, result_bind_shows captures,
    fun _ kept =>
      ⟨bind_result_shows_of_kept captures kept, result_bind_shows_of_kept captures kept⟩⟩

theorem bind_laws_second_letter :
    let letter : Parser Char [] Char := .recursive (.serial 0) (.or .item (.ref .here))
    let ρ : Scope Char [Char] := .share letter .empty
    let f (v : Char) : Parser Char [Char] String :=
      .map (String.singleton v ++ ·.toString) (.ref .here)
    let input : Input Char := ⟨⟨0, #['b']⟩, 0⟩
    (∀ live ∈ [Owners.everybody], (ρ.captured .all).KeptBy live) ∧
      ∃ seen, (Parser.bind (.result 'a') .all f).Shows ρ input .nobody [.everybody] seen ∧
        seen.answers = [some ("ab", ⟨⟨0, #['b']⟩, 1⟩)] := by
  intro letter ρ f input
  have kept : ∀ live ∈ [Owners.everybody], (ρ.captured .all).KeptBy live := by
    simp [Scope.KeptBy, Owners.everybody]
  obtain ⟨-, -, -, same⟩ := bind_laws (α := Char) (β := String) (γ := String) ρ .all
    input .nobody []
  exact ⟨kept, ((same .everybody kept).2 'a' f _).mpr ⟨20, _, _, rfl, ⟨20, rfl⟩, rfl⟩⟩

end EveryParse
