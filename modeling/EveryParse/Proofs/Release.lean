import EveryParse.Proofs.Proper

/-!
Release. While a task is carried out, the numbered definitions that are alive or owned by what the
task has left can only become fewer: what it opens and what it leaves owns nothing else
(`Task.Accounted.leaves_within`).
-/

namespace EveryParse

variable {τ : Type} {α : Type} {β : Type 1} {Γ : List Type} {known : Ledger τ} {live : Owners}

namespace Definition

def Numbered (definition : Definition τ) : Prop :=
  ∃ number, definition.name = .serial number

def Settled (live : Owners) (definition : Definition τ) : Prop :=
  definition.Numbered ∨ definition.keeps.Within live

end Definition

namespace Task

/-- What only the task itself keeps alive. -/
def owned : Task τ → Owners
  | build _ _ | invoke _ _ _ => .nobody
  | pull s | count s _ => s.holds

def leaves : (task : Task τ) → task.Result → Owners
  | build _ _, _ | count _ _, _ => .nobody
  | invoke _ _ _, opened => opened.value.holds
  | pull _, answer => answer.value.next.holds

def Proper (known : Ledger τ) : Task τ → Prop
  | build ρ p => ρ.Proper known ∧ p.Sited
  | invoke ρ p _ => ρ.Proper known ∧ p.Proper known ρ
  | pull s | count s _ => s.Proper known

def Covered (live : Owners) : Task τ → Prop
  | build ρ _ => Owners.Within ρ.holds live
  | invoke ρ p _ => Owners.Within (p.keeps ρ) live
  | pull _ | count _ _ => True

structure Accounted (known : Ledger τ) (live : Owners) (task : Task τ) : Prop where
  closed : live.Closed known
  sound : task.Sound (Definition.Settled live) fun _ => True
  proper : task.Proper known
  covered : task.Covered live

end Task

/-- Along the course, what is present becomes less: at first it is `present`, after a call what the
call has left. -/
def Course.Accounts (known : Ledger τ) (live : Owners) (leaves : β → Owners) (present : Owners) :
    Course τ β → Prop
  | done result => (leaves result).Within present
  | call held task _ next =>
    task.Accounted known (live.add held) ∧ ((live.add held).add task.owned).Within present ∧
      ∀ result, (keepsSound τ).result task result → (keepsProper known).result task result →
        (next result).Accounts known live leaves ((live.add held).add (task.leaves result))
  | alive name yes no =>
    (live name = true → yes.Accounts known live leaves present) ∧
      (live name = false → no.Accounts known live leaves present)

theorem Definition.Settled.add {definition : Definition τ} (settled : definition.Settled live)
    (held : Owners) : definition.Settled (live.add held) :=
  settled.imp_right fun kept => kept.trans (Owners.within_add_left live held)

theorem Scope.Sound.add {ρ : Scope τ Γ} (sound : ρ.Sound (Definition.Settled live) fun _ => True)
    (held : Owners) : ρ.Sound (Definition.Settled (live.add held)) fun _ => True :=
  sound.mono (fun _ settled => settled.add held) fun _ => id

theorem Parses.Sound.add {s : Parses τ α} (sound : s.Sound (Definition.Settled live) fun _ => True)
    (held : Owners) : s.Sound (Definition.Settled (live.add held)) fun _ => True :=
  sound.mono (fun _ settled => settled.add held) fun _ => id

theorem Owners.nobody_within (live : Owners) : Owners.nobody.Within live :=
  fun _ nothing => nomatch nothing

theorem Owners.within_of_add {held held' : Owners} (within : (held.add held').Within live) :
    held.Within live ∧ held'.Within live :=
  ⟨(within_add_left held held').trans within, (within_add_right held held').trans within⟩

section Accounts

variable {ρ : Scope τ Γ} {p : Parser τ Γ α}

theorem accounts_build (accounted : (Task.build ρ p).Accounted known live) (log : List Event) :
    ((Task.build ρ p).course log).Accounts known live (Task.build ρ p).leaves live := by
  obtain ⟨closed, sound, ⟨scope, sited⟩, covered⟩ := accounted
  cases p with
  | result v | fail | item | leaf parses | runs x stop extend | ref x =>
      exact Owners.nobody_within live
  | bind p captures f =>
      exact ⟨⟨closed, sound, ⟨scope, sited.1⟩, covered⟩, .refl _, fun _ _ _ =>
        Owners.nobody_within _⟩
  | mapM g p | filterM keep p | tap label p | noted events p =>
      exact ⟨⟨closed, sound, ⟨scope, sited⟩, covered⟩, .refl _, fun _ _ _ =>
        Owners.nobody_within _⟩
  | recursive name body =>
      exact ⟨⟨closed, ⟨trivial, sound⟩, ⟨scope, sited.2⟩, covered⟩, .refl _, fun _ _ _ =>
        Owners.nobody_within _⟩
  | or p q =>
      refine ⟨⟨closed, sound, ⟨scope, sited.1⟩, covered⟩, .refl _, fun _ _ _ => ?_⟩
      exact ⟨⟨closed, sound, ⟨scope, sited.2⟩, covered⟩, .refl _, fun _ _ _ =>
        Owners.nobody_within _⟩
  | share p q =>
      refine ⟨⟨closed, sound, ⟨scope, sited.1⟩, covered⟩, .refl _, fun built _ builds => ?_⟩
      have builds : built.value.Sited := builds sited.1
      have shared : Owners.Within (Scope.share built.value ρ).holds live :=
        Owners.add_within covered ((builds.keeps_within ρ).trans covered)
      exact ⟨⟨closed, sound, ⟨⟨builds.proper, scope⟩, sited.2⟩, shared⟩, .refl _, fun _ _ _ =>
        Owners.nobody_within _⟩
  | alone p q =>
      refine ⟨⟨closed, sound, ⟨scope, sited.1⟩, covered⟩, .refl _, fun built _ builds => ?_⟩
      have builds : built.value.Sited := builds sited.1
      have linked : Owners.Within (Scope.link ρ built.value .empty).holds live :=
        Owners.add_within (Owners.nobody_within live) ((builds.keeps_within ρ).trans covered)
      exact ⟨⟨closed, ⟨sound, trivial⟩, ⟨⟨⟨builds.proper, scope⟩, trivial⟩, sited.2⟩, linked⟩,
        .refl _, fun _ _ _ => Owners.nobody_within _⟩
  | probe p input next =>
      refine ⟨⟨closed, sound, ⟨scope, sited.1⟩, covered⟩, .refl _, fun built _ builds => ?_⟩
      have builds : built.value.Sited := builds sited.1
      have invoked : Owners.Within (built.value.keeps ρ) live :=
        (builds.keeps_within ρ).trans covered
      refine ⟨⟨closed, sound, ⟨scope, builds.proper⟩, invoked⟩, .refl _,
        fun opened opens keeps => ?_⟩
      have sound' : opened.value.Sound (Definition.Settled live) fun _ => True :=
        opens _ _ sound
      have proper : opened.value.Proper known := keeps scope builds.proper
      refine ⟨⟨closed, sound', proper, trivial⟩, .refl _, fun found _ _ => ?_⟩
      exact ⟨⟨closed, sound, ⟨scope, sited.2 found.value⟩, covered⟩, .refl _, fun _ _ _ =>
        Owners.nobody_within _⟩

theorem Parser.keeps_ref {x : Var Γ α} {Δ : List Type} {σ : Scope τ Δ} {q : Parser τ Δ α}
    (stands : ρ.get x = .parser σ q) : (ref x).keeps ρ = q.keeps σ := by
  funext name
  have held := ρ.held_getD x name
  rwa [stands] at held

theorem accounts_invoke {input : Input τ} (accounted : (Task.invoke ρ p input).Accounted known live)
    (log : List Event) :
    ((Task.invoke ρ p input).course log).Accounts known live (Task.invoke ρ p input).leaves
      live := by
  obtain ⟨closed, sound, ⟨scope, proper⟩, covered⟩ := accounted
  cases p with
  | result v | fail | item | leaf parses => exact Owners.nobody_within live
  | bind p captures f =>
      have covered : Owners.Within (Owners.add (ρ.captured captures).holds (p.keeps ρ)) live := by
        intro number holds
        apply covered number
        rw [Parser.keeps_bind]
        exact holds
      obtain ⟨captured, inside⟩ := Owners.within_of_add covered
      refine ⟨⟨closed, sound, ⟨scope, Parser.Sited.proper proper.1⟩, inside⟩, .refl _, ?_⟩
      intro opened _ _
      exact Owners.add_within (Owners.nobody_within _) (Owners.add_within
        (Owners.within_add_right _ _) (captured.trans (Owners.within_add_left _ _)))
  | mapM g p | filterM keep p | tap label p | noted events p =>
      exact ⟨⟨closed, sound, ⟨scope, Parser.Sited.proper proper⟩, covered⟩, .refl _, fun _ _ _ =>
        Owners.within_add_right _ _⟩
  | or p q =>
      obtain ⟨second, first⟩ := Owners.within_of_add
        (show (Owners.add (q.keeps ρ) (p.keeps ρ)).Within live from covered)
      refine ⟨⟨closed, sound, ⟨scope, Parser.Sited.proper proper.1⟩, first⟩, .refl _, ?_⟩
      intro opened _ _
      exact Owners.add_within (Owners.within_add_right _ _)
        (second.trans (Owners.within_add_left _ _))
  | runs x stop extend =>
      have alone : Γ.length = 1 := proper
      have kept : Owners.Within ((Parser.unrolled x stop extend).keeps ρ) live := by
        rw [Parser.keeps_unrolled alone]
        exact covered
      have unrolled := Parser.sited_unrolled (τ := τ) alone x stop extend
      exact ⟨⟨closed, sound, ⟨scope, unrolled.proper⟩, kept⟩, .refl _, fun _ _ _ =>
        Owners.within_add_right _ _⟩
  | recursive name body =>
      have whole : Owners.Closed known ((Parser.recursive name body).keeps ρ) :=
        Parser.Proper.keeps_closed scope proper
      have inside : (Scope.handle name body ρ).Sound
          (Definition.Settled (live.add ((Parser.recursive name body).keeps ρ))) fun _ => True :=
        ⟨.inr (Owners.within_add_right _ _), sound.add _⟩
      have kept : Owners.Within (body.keeps (.handle name body ρ))
          (live.add ((Parser.recursive name body).keeps ρ)) := by
        intro number holds
        have whole : (Parser.recursive name body).keeps ρ (.serial number) = true := by
          simp only [Parser.keeps, Parser.holds, Bool.or_eq_true]
          exact .inr holds
        exact Owners.within_add_right live _ number whole
      refine ⟨⟨closed.add whole, inside, ⟨⟨proper, scope⟩, Parser.Sited.proper proper.1⟩, kept⟩,
        ?_, ?_⟩
      · exact Owners.add_within (Owners.add_within (.refl _) covered) (Owners.nobody_within _)
      · intro opened _ _
        exact Owners.add_within (Owners.within_add_right _ _)
          ((Owners.within_add_right _ _).trans (Owners.within_add_left _ _))
  | share p q =>
      exact ⟨⟨closed, sound, ⟨⟨Parser.Sited.proper proper.1, scope⟩,
        Parser.Sited.proper proper.2⟩, covered⟩, .refl _, fun _ _ _ =>
          Owners.within_add_right _ _⟩
  | alone p q =>
      exact ⟨⟨closed, ⟨sound, trivial⟩, ⟨⟨⟨Parser.Sited.proper proper.1, scope⟩, trivial⟩,
        Parser.Sited.proper proper.2⟩, covered⟩, .refl _, fun _ _ _ =>
          Owners.within_add_right _ _⟩
  | ref x =>
      have stands := sound.get x
      have proper := scope.get x
      simp only [Task.course]
      cases found : ρ.get x with
      | parser σ p =>
          rw [found] at stands proper
          have kept : Owners.Within (p.keeps σ) live := by
            rw [← Parser.keeps_ref found]
            exact covered
          exact ⟨⟨closed, stands, ⟨proper.2, proper.1⟩, kept⟩, .refl _, fun _ _ _ =>
            Owners.within_add_right _ _⟩
      | handle name body σ =>
          rw [found] at stands proper
          refine ⟨fun alive => ?_, fun _ => Owners.nobody_within live⟩
          have kept : Owners.Within ((Parser.recursive name body).keeps σ) live := by
            rcases stands.1 with ⟨number, rfl⟩ | kept
            · exact closed number _ (proper.1.2 number rfl) alive
            · exact kept
          exact ⟨⟨closed, stands.2, ⟨proper.2, proper.1⟩, kept⟩, .refl _, fun _ _ _ =>
            Owners.within_add_right _ _⟩
      | nothing => exact Owners.nobody_within live
  | probe p probed next =>
      obtain ⟨captured, _⟩ := Owners.within_of_add
        (show (Owners.add ρ.holds (p.keeps ρ)).Within live from covered)
      refine ⟨⟨closed, sound, ⟨scope, proper⟩, captured⟩, .refl _, fun built _ builds => ?_⟩
      have builds : built.value.Sited := builds proper
      have invoked : Owners.Within (built.value.keeps ρ) live :=
        (builds.keeps_within ρ).trans captured
      exact ⟨⟨closed, sound, ⟨scope, builds.proper⟩, invoked⟩, .refl _, fun _ _ _ =>
        Owners.within_add_right _ _⟩

theorem accounts_pull {s : Parses τ α} (accounted : (Task.pull s).Accounted known live)
    (log : List Event) :
    ((Task.pull s).course log).Accounts known live (Task.pull s).leaves (live.add s.holds) := by
  obtain ⟨closed, sound, proper, -⟩ := accounted
  cases s with
  | listed parses => cases parses <;> exact Owners.nobody_within _
  | drawn parses index =>
      simp only [Task.course]
      cases parses index <;> exact Owners.nobody_within _
  | mapped g s | tapped label ended s =>
      refine ⟨⟨closed, sound, proper, trivial⟩, .refl _, ?_⟩
      rintro ⟨_ | _, _⟩ _ _ <;> exact Owners.within_add_right _ _
  | filtered keep s =>
      refine ⟨⟨closed, sound, proper, trivial⟩, .refl _, ?_⟩
      rintro ⟨⟨v, rest, s⟩ | s, log⟩ leaves keeps
      · dsimp only
        split
        · exact Owners.within_add_right _ _
        · have sound' : (Parses.filtered keep s).Sound (Definition.Settled live) fun _ => True :=
            leaves _ _ sound
          have proper' : (Parses.filtered keep s).Proper known := keeps proper
          exact ⟨⟨closed, sound', proper', trivial⟩, .refl _, fun _ _ _ =>
            Owners.within_add_right _ _⟩
      · exact Owners.within_add_right _ _
  | choosing s ρ q input =>
      obtain ⟨properFirst, scope, sited⟩ := proper
      have closed' := closed.add (sited.proper.keeps_closed scope)
      have sound' := sound.1.add (q.keeps ρ)
      refine ⟨⟨closed', sound', properFirst, trivial⟩, ?_, ?_⟩
      · intro number holds
        simp only [Owners.add_eq_true, Task.owned, Parses.holds, Bool.or_eq_true] at holds ⊢
        grind
      · rintro ⟨⟨v, rest, s⟩ | s, log⟩ _ _
        · exact Owners.add_within (Owners.within_add_right _ _)
            ((Owners.within_add_right _ _).trans (Owners.within_add_left _ _))
        · refine ⟨⟨closed', sound.2.add (q.keeps ρ), ⟨scope, sited.proper⟩,
            Owners.within_add_right _ _⟩, Owners.within_add_left _ _, fun opened opens keeps => ?_⟩
          have proper' : opened.value.Proper known := keeps scope sited.proper
          refine ⟨⟨closed, opens _ _ sound.2, proper', trivial⟩, ?_, fun _ _ _ =>
            Owners.within_add_right _ _⟩
          exact Owners.add_within ((Owners.within_add_left _ _).trans (Owners.within_add_left _ _))
            (Owners.within_add_right _ _)
  | chosen s =>
      refine ⟨⟨closed, sound, proper, trivial⟩, .refl _, ?_⟩
      rintro ⟨⟨v, rest, s⟩ | s, log⟩ _ _
      · exact Owners.within_add_right _ _
      · exact Owners.nobody_within _
  | nested ρ f outer inner =>
      obtain ⟨⟨scope, sited⟩, properOuter, properInner⟩ := proper
      obtain ⟨soundScope, soundOuter, soundInner⟩ := sound
      have closedScope := closed.add scope.holds_closed
      have closedOuter := closed.add (scope.holds_closed.add properOuter.holds_closed)
      refine ⟨⟨closedOuter, soundInner.add _, properInner, trivial⟩, ?_, ?_⟩
      · intro number holds
        simp only [Owners.add_eq_true, Task.owned, Parses.holds, Bool.or_eq_true] at holds ⊢
        grind
      · rintro ⟨⟨v, rest, inner⟩ | inner, log⟩ _ _
        · intro number holds
          simp only [Owners.add_eq_true, Task.leaves, Answer.next, Parses.holds, Bool.or_eq_true]
            at holds ⊢
          grind
        · refine ⟨⟨closedScope, soundOuter.add _, properOuter, trivial⟩, ?_, ?_⟩
          · intro number holds
            simp only [Owners.add_eq_true, Task.owned] at holds ⊢
            grind
          · rintro ⟨⟨v, rest, outer⟩ | outer, log⟩ leavesOuter keepsOuter
            · have properOuter : outer.Proper known := keepsOuter properOuter
              have soundOuter : outer.Sound (Definition.Settled live) fun _ => True :=
                leavesOuter _ _ soundOuter
              have closedOuter := closed.add (scope.holds_closed.add properOuter.holds_closed)
              have covered : Owners.Within ρ.holds (live.add (Owners.add ρ.holds outer.holds)) :=
                (Owners.within_add_left _ _).trans (Owners.within_add_right _ _)
              refine ⟨⟨closedOuter, soundScope.add _, ⟨scope, sited v⟩, covered⟩, ?_, ?_⟩
              · intro number holds
                simp only [Owners.add_eq_true, Task.owned, Task.leaves, Answer.next] at holds ⊢
                grind [Owners.nobody]
              · intro built _ builds
                have builds : built.value.Sited := builds (sited v)
                have invoked := (builds.keeps_within ρ).trans covered
                refine ⟨⟨closedOuter, soundScope.add _, ⟨scope, builds.proper⟩, invoked⟩,
                  .refl _, fun opened opens keeps => ?_⟩
                have properInner : opened.value.Proper known := keeps scope builds.proper
                have soundInner : opened.value.Sound (Definition.Settled live) fun _ => True :=
                  opens _ _ soundScope
                refine ⟨⟨closed, ⟨soundScope, soundOuter, soundInner⟩,
                  ⟨⟨scope, sited⟩, properOuter, properInner⟩, trivial⟩, ?_, fun _ _ _ =>
                  Owners.within_add_right _ _⟩
                intro number holds
                simp only [Owners.add_eq_true, Task.owned, Task.leaves, Parses.holds,
                  Bool.or_eq_true] at holds ⊢
                grind [Owners.nobody]
            · exact Owners.nobody_within _
  | anchored ρ name body s =>
      obtain ⟨⟨whole, scope⟩, properInside⟩ := proper
      have whole : (Parser.recursive name body).Proper known ρ := whole
      have inside : s.Sound
          (Definition.Settled (live.add ((Parser.recursive name body).keeps ρ))) fun _ => True := by
        refine Parses.Sound.mono ?_ (fun _ => id) sound
        rintro definition (rfl | settled)
        · exact .inr (Owners.within_add_right _ _)
        · exact settled.add _
      refine ⟨⟨closed.add (whole.keeps_closed scope), inside, properInside, trivial⟩, ?_, ?_⟩
      · intro number holds
        simp only [Owners.add_eq_true, Task.owned, Parses.holds, Bool.or_eq_true] at holds ⊢
        grind
      · rintro ⟨_ | _, _⟩ _ _ <;> exact Owners.add_within (Owners.within_add_right _ _)
          ((Owners.within_add_right _ _).trans (Owners.within_add_left _ _))

theorem accounts_count {s : Parses τ α} {found : Nat}
    (accounted : (Task.count s found).Accounted known live) (log : List Event) :
    ((Task.count s found).course log).Accounts known live (Task.count s found).leaves
      (live.add s.holds) := by
  obtain ⟨closed, sound, proper, -⟩ := accounted
  refine ⟨⟨closed, sound, proper, trivial⟩, .refl _, ?_⟩
  rintro ⟨⟨v, rest, s⟩ | s, log⟩ leaves keeps
  · have sound' : s.Sound (Definition.Settled live) fun _ => True := leaves _ _ sound
    have proper' : s.Proper known := keeps proper
    exact ⟨⟨closed, sound', proper', trivial⟩, .refl _, fun _ _ _ => Owners.nobody_within _⟩
  · exact Owners.nobody_within _

end Accounts

/-! What runs leave. -/

theorem Task.Accounted.accounts {task : Task τ} (accounted : task.Accounted known live)
    (log : List Event) :
    (task.course log).Accounts known live task.leaves (live.add task.owned) := by
  cases task with
  | build ρ p => exact accounts_build accounted log
  | invoke ρ p input => exact accounts_invoke accounted log
  | pull s => exact accounts_pull accounted log
  | count s found => exact accounts_count accounted log

theorem Course.Accounts.mono {leaves : β → Owners} {present present' : Owners}
    (more : present.Within present') {course : Course τ β}
    (accounts : course.Accounts known live leaves present) :
    course.Accounts known live leaves present' := by
  induction course with
  | done result => exact accounts.trans more
  | call held task log next _ => exact ⟨accounts.1, accounts.2.1.trans more, accounts.2.2⟩
  | alive name yes no ihYes ihNo =>
      exact ⟨fun alive => ihYes (accounts.1 alive), fun gone => ihNo (accounts.2 gone)⟩

section AfterCall

variable {leaves : β → Owners} {present held : Owners} {task : Task τ} {log : List Event}
variable {next : task.Result → Course τ β} {fuel : Nat} {found : task.Result}

theorem Course.Accounts.rest
    (accounts : (Course.call held task log next).Accounts known live leaves present)
    (ran : task.run fuel (live.add held) log = some found) :
    (next found).Accounts known live leaves ((live.add held).add (task.leaves found)) := by
  have sound := keepsSound_upheld.result_of_run trivial ran
  have proper := (keepsProper_upheld known).result_of_run trivial ran
  exact accounts.2.2 found sound proper

theorem Course.Accounts.after_call
    (accounts : (Course.call held task log next).Accounts known live leaves present)
    (ran : task.run fuel (live.add held) log = some found)
    (left : (task.leaves found).Within ((live.add held).add task.owned)) :
    (next found).Accounts known live leaves present := by
  have less := (Owners.add_within (Owners.within_add_left _ _) left).trans accounts.2.1
  exact (accounts.rest ran).mono less

end AfterCall

theorem Course.Accounts.leaves_within {fuel : Nat} {leaves : β → Owners} {present : Owners}
    {course : Course τ β} (accounts : course.Accounts known live leaves present)
    (runs : ∀ live (task : Task τ) log result, task.Accounted known live →
      task.run fuel live log = some result → (task.leaves result).Within (live.add task.owned))
    {result : β} (followed : course.follow (Task.run fuel) live = some result) :
    (leaves result).Within present := by
  induction course with
  | done found =>
      simp only [Course.follow, Option.some.injEq] at followed
      exact followed ▸ accounts
  | call held task log next ih =>
      obtain ⟨found, ran, rest⟩ := Option.bind_eq_some_iff.mp followed
      exact ih found (accounts.after_call ran (runs _ _ _ _ accounts.1 ran)) rest
  | alive name yes no ihYes ihNo =>
      simp only [Course.follow] at followed
      split at followed
      next alive => exact ihYes (accounts.1 alive) followed
      next gone => exact ihNo (accounts.2 (by simpa using gone)) followed

theorem Task.Accounted.leaves_within {task : Task τ} (accounted : task.Accounted known live)
    {fuel : Nat} {log : List Event} {result : task.Result}
    (ran : task.run fuel live log = some result) :
    (task.leaves result).Within (live.add task.owned) := by
  induction fuel generalizing live task log with
  | zero => simp [Task.run] at ran
  | succ fuel ih =>
      exact (accounted.accounts log).leaves_within (fun _ _ _ _ accounted ran => ih accounted ran)
        ran

end EveryParse
