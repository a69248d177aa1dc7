import EveryParse.Proofs.Presence
import Mathlib.Order.Filter.AtTopBot.Basic

/-!
Runs in scopes that differ. In the second scope, something else stands behind some of the variables.
If invoking one or the other comes to the same, then so does everything that is run in those scopes:
where the first run comes to an end, the second one does, with the same finds and the same events
(`Exchange.Lawful.shows`).

What stands in the second scope may be good for so many invocations inside each other only. How many
are left is the depth; a run uses some of it up, so whoever wants some left in the end has to start
with more, and how much more is enough depends on the run.
-/

open Filter

namespace EveryParse

variable {τ : Type}

def Owners.Includes (live kept : Owners) : Prop :=
  ∀ name, kept name = true → live name = true

theorem Owners.Includes.add_congr {live kept held held' : Owners} (includes : live.Includes kept)
    (same : ∀ name, kept name = false → held name = held' name) :
    live.add held = live.add held' := by
  funext name
  cases keeps : kept name with
  | true => simp [Owners.add, includes name keeps]
  | false => simp only [Owners.add, same name keeps]

theorem Owners.Includes.add_of_includes {live kept held : Owners} (includes : live.Includes kept)
    (fewer : kept.Includes held) : live.add held = live := by
  funext name
  cases keeps : held name with
  | true => simp [Owners.add, keeps, includes name (fewer name keeps)]
  | false => simp [Owners.add, keeps]

def Referent.invoked {α : Type} (input : Input τ) (log : List Event) :
    Referent τ α → Course τ (Outcome (Parses τ α))
  | .parser σ p => .call .nobody (.invoke σ p input) log .done
  | .handle name body σ =>
    .alive name (.call .nobody (.invoke σ (Parser.recursive name body) input) log .done)
      (.done ⟨.empty, log⟩)
  | .nothing => .done ⟨.empty, log⟩

theorem Task.course_ref {Γ : List Type} {α : Type} (ρ : Scope τ Γ) (x : Var Γ α)
    (input : Input τ) (log : List Event) :
    (Task.invoke ρ (.ref x) input).course log = (ρ.get x).invoked input log := by
  simp only [Task.course]
  cases ρ.get x <;> rfl

theorem Scope.dropTo_eq {Γ : List Type} {α : Type} (ρ : Scope τ Γ) (x : Var Γ α) :
    ∃ (Δ : List Type) (σ : Scope τ (α :: Δ)), ρ.dropTo x = ⟨_, σ⟩ := by
  induction x with
  | here => exact ⟨_, ρ, by cases ρ <;> rfl⟩
  | there x ih => cases ρ <;> exact ih _

theorem Scope.get_of_dropTo {Γ Δ : List Type} {α : Type} {ρ : Scope τ Γ} {x : Var Γ α}
    {σ : Scope τ (α :: Δ)} (dropTo : ρ.dropTo x = ⟨_, σ⟩) : ρ.get x = σ.get .here := by
  induction x with
  | here => cases ρ <;> (cases dropTo; rfl)
  | there x ih => cases ρ <;> exact ih dropTo

/-- The course comes to `result`. Every call in it is allowed, and has come to an end with this much
fuel. -/
def Course.Steps {β : Type 1} (fuel : Nat) (allows : Call τ → Prop) (live : Owners) (result : β) :
    Course τ β → Prop
  | done found => found = result
  | call held task log next =>
    allows ⟨live.add held, task, log⟩ ∧
      ∃ found, task.run fuel (live.add held) log = some found ∧
        (next found).Steps fuel allows live result
  | alive name yes no =>
    if live name then yes.Steps fuel allows live result else no.Steps fuel allows live result

theorem Course.steps_of_follow {β : Type 1} {fuel : Nat} {allows : Call τ → Prop} {live : Owners}
    {course : Course τ β} (allowed : ∀ made, course.Calls live made → allows made) {result : β}
    (followed : course.follow (Task.run fuel) live = some result) :
    course.Steps fuel allows live result := by
  induction course with
  | done found => exact Option.some.inj followed
  | call held task log next ih =>
      obtain ⟨found, ran, followed⟩ := Option.bind_eq_some_iff.mp followed
      refine ⟨allowed _ (.inl rfl), found, ran, ih found (fun made calls => ?_) followed⟩
      exact allowed made (.inr ⟨fuel, found, ran, calls⟩)
  | alive name yes no ihYes ihNo =>
      simp only [Course.Calls] at allowed
      simp only [Course.follow] at followed
      simp only [Course.Steps]
      split at followed
      next alive =>
        simp only [alive, ↓reduceIte] at allowed ⊢
        exact ihYes allowed followed
      next gone =>
        simp only [gone] at allowed ⊢
        exact ihNo allowed followed

/-- What may stand for what, and which calls the first run may make. Everybody who runs something
keeps alive what is in `keeps`. -/
structure Exchange (τ : Type) : Type 1 where
  -- The innermost variables of the scopes may stand for each other, at this depth.
  stands : Nat → {Γ : List Type} → {α : Type} → Scope τ (α :: Γ) → Scope τ (α :: Γ) → Prop
  keeps : Owners
  allows : Call τ → Prop

namespace Exchange

variable (e : Exchange τ)

inductive Scopes (depth : Nat) : {Γ : List Type} → Scope τ Γ → Scope τ Γ → Prop
  | exchanged {Γ α} {ρ ρ' : Scope τ (α :: Γ)} (stands : e.stands depth ρ ρ') : Scopes depth ρ ρ'
  | empty : Scopes depth .empty .empty
  | share {Γ α} {p : Parser τ Γ α} {ρ ρ'} (outside : Scopes depth ρ ρ') :
      Scopes depth (.share p ρ) (.share p ρ')
  | handle {Γ α name} {body : Parser τ (α :: Γ) α} {ρ ρ'} (outside : Scopes depth ρ ρ') :
      Scopes depth (.handle name body ρ) (.handle name body ρ')
  | pending {Γ α} {ρ ρ' : Scope τ Γ} (outside : Scopes depth ρ ρ') :
      Scopes depth (.pending ρ : Scope τ (α :: Γ)) (.pending ρ')
  | link {Γ Δ α} {σ σ' : Scope τ Δ} {p : Parser τ Δ α} {ρ ρ' : Scope τ Γ}
      (linked : Scopes depth σ σ') (outside : Scopes depth ρ ρ') :
      Scopes depth (.link σ p ρ) (.link σ' p ρ')

inductive Referents (depth : Nat) {α : Type} : Referent τ α → Referent τ α → Prop
  | parser {Γ} {σ σ' : Scope τ Γ} {p : Parser τ Γ α} (scope : e.Scopes depth σ σ') :
      Referents depth (.parser σ p) (.parser σ' p)
  | handle {Γ name} {body : Parser τ (α :: Γ) α} {σ σ'} (scope : e.Scopes depth σ σ') :
      Referents depth (.handle name body σ) (.handle name body σ')
  | nothing : Referents depth .nothing .nothing

/-- Sequences that have come equally far. The second one need not keep a definition that is kept
anyway. -/
inductive Sequences (depth : Nat) : {α : Type} → Parses τ α → Parses τ α → Prop
  | listed {α} (parses : List (α × Input τ)) : Sequences depth (.listed parses) (.listed parses)
  | drawn {α} (parses : Nat → Option (α × Input τ)) (index : Nat) :
      Sequences depth (.drawn parses index) (.drawn parses index)
  | mapped {α β} {g : α → Logged β} {s s'} (inside : Sequences depth s s') :
      Sequences depth (.mapped g s) (.mapped g s')
  | filtered {α} {keep : α → Logged Bool} {s s'} (inside : Sequences depth s s') :
      Sequences depth (.filtered keep s) (.filtered keep s')
  | choosing {Γ α} {ρ ρ' : Scope τ Γ} {q : Parser τ Γ α} {s s' input}
      (inside : Sequences depth s s') (scope : e.Scopes depth ρ ρ') :
      Sequences depth (.choosing s ρ q input) (.choosing s' ρ' q input)
  | chosen {α} {s s' : Parses τ α} (inside : Sequences depth s s') :
      Sequences depth (.chosen s) (.chosen s')
  | nested {Γ α β} {ρ ρ' : Scope τ Γ} {f : α → Parser τ Γ β} {outer outer' inner inner'}
      (scope : e.Scopes depth ρ ρ') (outside : Sequences depth outer outer')
      (inside : Sequences depth inner inner') :
      Sequences depth (.nested ρ f outer inner) (.nested ρ' f outer' inner')
  | anchored {Γ α} {ρ ρ' : Scope τ Γ} {name} {body : Parser τ (α :: Γ) α} {s s'}
      (scope : e.Scopes depth ρ ρ') (inside : Sequences depth s s') :
      Sequences depth (.anchored ρ name body s) (.anchored ρ' name body s')
  | unanchored {Γ α} {ρ : Scope τ Γ} {name} {body : Parser τ (α :: Γ) α} {s s'}
      (kept : e.keeps.Includes ((Parser.recursive name body).keeps ρ))
      (inside : Sequences depth s s') : Sequences depth (.anchored ρ name body s) s'
  | tapped {α} {label ended} {s s' : Parses τ α} (inside : Sequences depth s s') :
      Sequences depth (.tapped label ended s) (.tapped label ended s')

inductive Answers (depth : Nat) {α : Type} : Answer τ α → Answer τ α → Prop
  | parse {v rest s s'} (later : e.Sequences depth s s') :
      Answers depth (.parse v rest s) (.parse v rest s')
  | ended {s s'} (later : e.Sequences depth s s') : Answers depth (.ended s) (.ended s')

variable {e} {α β : Type} {Γ : List Type} {depth : Nat}

theorem Answers.found {answer answer' : Answer τ α} (same : e.Answers depth answer answer') :
    answer.found = answer'.found := by
  cases same <;> rfl

theorem Answers.next {answer answer' : Answer τ α} (same : e.Answers depth answer answer') :
    e.Sequences depth answer.next answer'.next := by
  cases same <;> assumption

theorem Sequences.empty : e.Sequences depth (.empty : Parses τ α) .empty :=
  .listed []

theorem Scopes.refl (ρ : Scope τ Γ) : e.Scopes depth ρ ρ := by
  induction ρ with
  | empty => exact .empty
  | share p ρ ih => exact .share ih
  | handle name body ρ ih => exact .handle ih
  | pending ρ ih => exact .pending ih
  | link σ p ρ ihLinked ih => exact .link ihLinked ih

theorem Scopes.captured {Δ : List Type} {ρ ρ' : Scope τ Γ} (same : e.Scopes depth ρ ρ')
    (captures : Captures Γ Δ) : e.Scopes depth (ρ.captured captures) (ρ'.captured captures) := by
  induction captures with
  | all => exact same
  | none => exact .empty
  | also x others ih => exact .link same ih

theorem Referents.refl (referent : Referent τ α) : e.Referents depth referent referent := by
  cases referent with
  | parser σ p => exact .parser (.refl σ)
  | handle name body σ => exact .handle (.refl σ)
  | nothing => exact .nothing

theorem Sequences.refl (s : Parses τ α) : e.Sequences depth s s := by
  induction s with
  | listed parses => exact .listed parses
  | drawn parses index => exact .drawn parses index
  | mapped g s ih => exact .mapped ih
  | filtered keep s ih => exact .filtered ih
  | choosing s ρ q input ih => exact .choosing ih (.refl ρ)
  | chosen s ih => exact .chosen ih
  | nested ρ f outer inner ihOuter ihInner => exact .nested (.refl ρ) ihOuter ihInner
  | anchored ρ name body s ih => exact .anchored (.refl ρ) ih
  | tapped label ended s ih => exact .tapped ih

/-- How far the second run has come when the first one has come to an end with this much fuel. -/
structure Follows (e : Exchange τ) (fuel : Nat) : Prop where
  build {Γ : List Type} {α : Type} {ρ : Scope τ Γ} {p : Parser τ Γ α} {live log built}
    (allowed : e.allows ⟨live, .build ρ p, log⟩)
    (ran : (Task.build ρ p).run fuel live log = some built) :
    ∀ᶠ enough in atTop, ∀ ρ', e.Scopes enough ρ ρ' → (Task.build ρ' p).Returns live log built
  invoke {Γ : List Type} {α : Type} {ρ : Scope τ Γ} {p : Parser τ Γ α} {input live log opened}
    (allowed : e.allows ⟨live, .invoke ρ p input, log⟩)
    (ran : (Task.invoke ρ p input).run fuel live log = some opened) (depth : Nat) :
    ∀ᶠ enough in atTop, ∀ ρ', e.Scopes enough ρ ρ' →
      ∃ s, (Task.invoke ρ' p input).Returns live log ⟨s, opened.log⟩ ∧
        e.Sequences depth opened.value s
  pull {α : Type} {s : Parses τ α} {live log answer} (allowed : e.allows ⟨live, .pull s, log⟩)
    (ran : (Task.pull s).run fuel live log = some answer) (depth : Nat) :
    ∀ᶠ enough in atTop, ∀ s', e.Sequences enough s s' →
      ∃ answer', (Task.pull s').Returns live log ⟨answer', answer.log⟩ ∧
        e.Answers depth answer.value answer'
  count {α : Type} {s : Parses τ α} {found live log counted}
    (allowed : e.allows ⟨live, .count s found, log⟩)
    (ran : (Task.count s found).run fuel live log = some counted) :
    ∀ᶠ enough in atTop, ∀ s', e.Sequences enough s s' →
      (Task.count s' found).Returns live log counted

structure Lawful (e : Exchange τ) : Prop where
  fewer {depth depth' : Nat} (le : depth ≤ depth') {Γ : List Type} {α : Type}
    {σ σ' : Scope τ (α :: Γ)} (stands : e.stands depth' σ σ') : e.stands depth σ σ'
  outside {depth : Nat} {Γ : List Type} {α β : Type} {σ σ' : Scope τ (α :: Γ)}
    (stands : e.stands depth σ σ') (x : Var Γ β) : σ.get (.there x) = σ'.get (.there x)
  held {depth : Nat} {Γ : List Type} {α : Type} {σ σ' : Scope τ (α :: Γ)}
    (stands : e.stands depth σ σ') {name : Name} (unkept : e.keeps name = false) :
    σ.held name = σ'.held name
  includes {call : Call τ} (allowed : e.allows call) : call.live.Includes e.keeps
  makes {call made : Call τ} (allowed : e.allows call) (makes : call.Makes made) : e.allows made
  -- A call of the first run invokes what stands behind the innermost variable of `σ`.
  invokes {fuel : Nat} (follows : e.Follows fuel) {Γ Δ : List Type} {α : Type} {ρ : Scope τ Γ}
    {x : Var Γ α} {σ other : Scope τ (α :: Δ)} (dropTo : ρ.dropTo x = ⟨_, σ⟩) {depth' : Nat}
    (stands : e.stands depth' σ other) {input live log}
    (allowed : e.allows ⟨live, .invoke ρ (.ref x) input, log⟩) {opened}
    (steps : ((σ.get .here).invoked input log).Steps fuel e.allows live opened) (depth : Nat) :
    ∀ᶠ enough in atTop, ∀ σ', e.stands enough σ σ' →
      ∃ s, ((σ'.get .here).invoked input log).Returns live ⟨s, opened.log⟩ ∧
        e.Sequences depth opened.value s

namespace Lawful

variable {depth' : Nat} {live : Owners}

theorem scopes_fewer (lawful : e.Lawful) (le : depth ≤ depth') {ρ ρ' : Scope τ Γ}
    (same : e.Scopes depth' ρ ρ') : e.Scopes depth ρ ρ' := by
  induction same with
  | exchanged stands => exact .exchanged (lawful.fewer le stands)
  | empty => exact .empty
  | share _ ih => exact .share ih
  | handle _ ih => exact .handle ih
  | pending _ ih => exact .pending ih
  | link _ _ ihLinked ih => exact .link ihLinked ih

theorem sequences_fewer (lawful : e.Lawful) (le : depth ≤ depth') {s s' : Parses τ α}
    (same : e.Sequences depth' s s') : e.Sequences depth s s' := by
  induction same with
  | listed parses => exact .listed parses
  | drawn parses index => exact .drawn parses index
  | mapped _ ih => exact .mapped ih
  | filtered _ ih => exact .filtered ih
  | choosing _ scope ih => exact .choosing ih (lawful.scopes_fewer le scope)
  | chosen _ ih => exact .chosen ih
  | nested scope _ _ ihOutside ihInside =>
      exact .nested (lawful.scopes_fewer le scope) ihOutside ihInside
  | anchored scope _ ih => exact .anchored (lawful.scopes_fewer le scope) ih
  | unanchored kept _ ih => exact .unanchored kept ih
  | tapped _ ih => exact .tapped ih

theorem scopes_held (lawful : e.Lawful) {ρ ρ' : Scope τ Γ} (same : e.Scopes depth ρ ρ')
    {name : Name} (unkept : e.keeps name = false) : ρ.held name = ρ'.held name := by
  induction same with
  | exchanged stands => exact lawful.held stands unkept
  | empty => rfl
  | share _ ih | handle _ ih | pending _ ih => simp only [Scope.held, ih]
  | link _ _ ihLinked ih => simp only [Scope.held, ihLinked, ih]

theorem scopes_keeps (lawful : e.Lawful) {ρ ρ' : Scope τ Γ} (same : e.Scopes depth ρ ρ')
    (p : Parser τ Γ α) {name : Name} (unkept : e.keeps name = false) :
    p.keeps ρ name = p.keeps ρ' name := by
  simp only [Parser.keeps, lawful.scopes_held same unkept]

theorem scopes_holds (lawful : e.Lawful) {ρ ρ' : Scope τ Γ} (same : e.Scopes depth ρ ρ')
    {name : Name} (unkept : e.keeps name = false) : ρ.holds name = ρ'.holds name := by
  simp only [Scope.holds, lawful.scopes_held same unkept]

theorem sequences_holds (lawful : e.Lawful) {s s' : Parses τ α} (same : e.Sequences depth s s')
    {name : Name} (unkept : e.keeps name = false) : s.holds name = s'.holds name := by
  induction same with
  | listed parses | drawn parses index => rfl
  | mapped _ ih | filtered _ ih | chosen _ ih | tapped _ ih => exact ih
  | choosing _ scope ih => simp only [Parses.holds, lawful.scopes_keeps scope _ unkept, ih]
  | nested scope _ _ ihOutside ihInside =>
      simp only [Parses.holds, lawful.scopes_holds scope unkept, ihOutside, ihInside]
  | anchored scope _ ih => simp only [Parses.holds, lawful.scopes_keeps scope _ unkept, ih]
  | @unanchored _ _ ρ name' body _ _ kept _ ih =>
      have nothing : (Parser.recursive name' body).keeps ρ name = false := by
        cases keeps : (Parser.recursive name' body).keeps ρ name with
        | true => exact (kept name keeps).symm.trans unkept
        | false => rfl
      simp only [Parses.holds, nothing, Bool.false_or, ih]

variable (lawful : e.Lawful) (includes : live.Includes e.keeps) {ρ ρ' : Scope τ Γ}
include lawful includes

theorem add_keeps (same : e.Scopes depth ρ ρ') (p : Parser τ Γ α) :
    live.add (p.keeps ρ) = live.add (p.keeps ρ') :=
  includes.add_congr fun _ unkept => lawful.scopes_keeps same p unkept

theorem add_holds (same : e.Scopes depth ρ ρ') : live.add ρ.holds = live.add ρ'.holds :=
  includes.add_congr fun _ unkept => lawful.scopes_holds same unkept

theorem add_around (same : e.Scopes depth ρ ρ') {s s' : Parses τ α}
    (sequences : e.Sequences depth s s') :
    live.add (Owners.add ρ.holds s.holds) = live.add (Owners.add ρ'.holds s'.holds) := by
  refine includes.add_congr fun name unkept => ?_
  simp only [Owners.add, lawful.scopes_holds same unkept, lawful.sequences_holds sequences unkept]

end Lawful

theorem Lawful.get (lawful : e.Lawful) {ρ ρ' : Scope τ Γ} (same : e.Scopes depth ρ ρ')
    (x : Var Γ α) :
    e.Referents depth (ρ.get x) (ρ'.get x) ∨
      ∃ (Δ : List Type) (σ σ' : Scope τ (α :: Δ)), e.stands depth σ σ' ∧ ρ.dropTo x = ⟨_, σ⟩ ∧
        ρ'.get x = σ'.get .here := by
  induction x with
  | here =>
      cases same with
      | exchanged stands => exact .inr ⟨_, ρ, ρ', stands, by cases ρ <;> rfl, rfl⟩
      | share outside => exact .inl (.parser outside)
      | handle outside => exact .inl (.handle outside)
      | pending _ => exact .inl .nothing
      | link linked _ => exact .inl (.parser linked)
  | there x ih =>
      cases same with
      | exchanged stands =>
          rw [lawful.outside stands x]
          exact .inl (.refl _)
      | share outside | handle outside | pending outside | link _ outside => exact ih outside

/-! The first run is followed step by step. -/

theorem Lawful.steps (lawful : e.Lawful) {fuel : Nat} {call : Call τ} (allowed : e.allows call)
    {result : call.task.Result}
    (ran : call.task.run (fuel + 1) call.live call.log = some result) :
    (call.task.course call.log).Steps fuel e.allows call.live result :=
  Course.steps_of_follow (fun _ => lawful.makes allowed) ran

section Follows

variable {fuel : Nat} (lawful : e.Lawful) (follows : e.Follows fuel)
include lawful follows

theorem Follows.build_succ {ρ : Scope τ Γ} {p : Parser τ Γ α} {live log built}
    (allowed : e.allows ⟨live, .build ρ p, log⟩)
    (ran : (Task.build ρ p).run (fuel + 1) live log = some built) :
    ∀ᶠ enough in atTop, ∀ ρ', e.Scopes enough ρ ρ' → (Task.build ρ' p).Returns live log built := by
  replace ran := lawful.steps allowed ran
  cases p with
  | result v | fail | item | leaf parses | runs x stop extend | ref x =>
      cases ran
      exact .of_forall fun _ _ _ => Task.returns rfl
  | bind p captures f | mapM g p | filterM keep p | tap label p | noted events p =>
      obtain ⟨allowed, _, ran, rfl⟩ := ran
      filter_upwards [follows.build allowed ran] with enough builds ρ' same
      exact Task.returns ⟨_, builds ρ' same, rfl⟩
  | or p q =>
      obtain ⟨allowed, _, ran, allowed', _, ran', rfl⟩ := ran
      filter_upwards [follows.build allowed ran, follows.build allowed' ran'] with
        enough builds builds' ρ' same
      exact Task.returns ⟨_, builds ρ' same, _, builds' ρ' same, rfl⟩
  | recursive name body =>
      obtain ⟨allowed, _, ran, rfl⟩ := ran
      filter_upwards [follows.build allowed ran] with enough builds ρ' same
      exact Task.returns ⟨_, builds _ same.pending, rfl⟩
  | share p q =>
      obtain ⟨allowed, _, ran, allowed', _, ran', rfl⟩ := ran
      filter_upwards [follows.build allowed ran, follows.build allowed' ran'] with
        enough builds builds' ρ' same
      exact Task.returns ⟨_, builds ρ' same, _, builds' _ same.share, rfl⟩
  | alone p q =>
      obtain ⟨allowed, _, ran, allowed', _, ran', rfl⟩ := ran
      filter_upwards [follows.build allowed ran, follows.build allowed' ran'] with
        enough builds builds' ρ' same
      exact Task.returns ⟨_, builds ρ' same, _, builds' _ (.link same .empty), rfl⟩
  | probe p input next =>
      obtain ⟨allowed, _, ran, allowed', _, ran', steps⟩ := ran
      obtain ⟨allowedCount, _, ranCount, allowedNext, _, ranNext, rfl⟩ := steps
      obtain ⟨deep, counts⟩ := (follows.count allowedCount ranCount).exists
      filter_upwards [follows.build allowed ran, follows.invoke allowed' ran' deep,
        follows.build allowedNext ranNext] with enough builds opens buildsNext ρ' same
      obtain ⟨s, opened, later⟩ := opens ρ' same
      exact Task.returns
        ⟨_, builds ρ' same, _, opened, _, counts s later, _, buildsNext ρ' same, rfl⟩

omit lawful in
theorem Follows.invoked {referent : Referent τ α} {input live log opened}
    (steps : (referent.invoked input log).Steps fuel e.allows live opened) (depth : Nat) :
    ∀ᶠ enough in atTop, ∀ referent', e.Referents enough referent referent' →
      ∃ s, (referent'.invoked input log).Returns live ⟨s, opened.log⟩ ∧
        e.Sequences depth opened.value s := by
  cases referent with
  | parser σ p =>
      obtain ⟨allowed, _, ran, rfl⟩ := steps
      filter_upwards [follows.invoke allowed ran depth] with enough opens referent' same
      cases same with
      | parser scope =>
          obtain ⟨s, opened, later⟩ := opens _ scope
          exact ⟨s, ⟨_, opened, rfl⟩, later⟩
  | handle name body σ =>
      simp only [Referent.invoked, Course.Steps] at steps
      split at steps
      next alive =>
        obtain ⟨allowed, _, ran, rfl⟩ := steps
        filter_upwards [follows.invoke allowed ran depth] with enough opens referent' same
        cases same with
        | handle scope =>
            obtain ⟨s, opened, later⟩ := opens _ scope
            refine ⟨s, ?_, later⟩
            simp only [Referent.invoked, Course.Returns, alive, ↓reduceIte]
            exact ⟨_, opened, rfl⟩
      next gone =>
        cases steps
        refine .of_forall fun enough referent' same => ?_
        cases same with
        | handle scope =>
            refine ⟨.empty, ?_, .empty⟩
            simp [Referent.invoked, Course.Returns, gone]
  | nothing =>
      cases steps
      refine .of_forall fun enough referent' same => ?_
      cases same
      exact ⟨.empty, rfl, .empty⟩

theorem Follows.invoke_ref {ρ : Scope τ Γ} {x : Var Γ α} {input live log opened}
    (allowed : e.allows ⟨live, .invoke ρ (.ref x) input, log⟩)
    (steps : ((ρ.get x).invoked input log).Steps fuel e.allows live opened) (depth : Nat) :
    ∀ᶠ enough in atTop, ∀ ρ', e.Scopes enough ρ ρ' →
      ∃ s, ((ρ'.get x).invoked input log).Returns live ⟨s, opened.log⟩ ∧
        e.Sequences depth opened.value s := by
  obtain ⟨Δ, σ, dropTo⟩ := ρ.dropTo_eq x
  have exchanged : ∀ᶠ enough in atTop, ∀ σ', e.stands enough σ σ' →
      ∃ s, ((σ'.get .here).invoked input log).Returns live ⟨s, opened.log⟩ ∧
        e.Sequences depth opened.value s := by
    -- The call is one that the law is about if anything may stand for `σ` at all.
    by_cases some : ∃ depth' other, e.stands depth' σ other
    · obtain ⟨depth', other, stands⟩ := some
      rw [Scope.get_of_dropTo dropTo] at steps
      exact lawful.invokes follows dropTo stands allowed steps depth
    · exact .of_forall fun enough σ' stands => (some ⟨enough, σ', stands⟩).elim
  filter_upwards [exchanged, follows.invoked steps depth] with enough exchanged opens ρ' same
  rcases lawful.get same x with referents | ⟨_, _, σ', stands, dropTo', found⟩
  · exact opens _ referents
  · cases dropTo.symm.trans dropTo'
    rw [found]
    exact exchanged σ' stands

theorem Follows.invoke_succ {ρ : Scope τ Γ} {p : Parser τ Γ α} {input live log opened}
    (allowed : e.allows ⟨live, .invoke ρ p input, log⟩)
    (ran : (Task.invoke ρ p input).run (fuel + 1) live log = some opened) (depth : Nat) :
    ∀ᶠ enough in atTop, ∀ ρ', e.Scopes enough ρ ρ' →
      ∃ s, (Task.invoke ρ' p input).Returns live log ⟨s, opened.log⟩ ∧
        e.Sequences depth opened.value s := by
  replace ran := lawful.steps allowed ran
  cases p with
  | result v | fail | item | leaf parses =>
      cases ran
      exact .of_forall fun _ _ _ => ⟨_, Task.returns rfl, .refl _⟩
  | bind p captures f =>
      obtain ⟨allowed, _, ran, rfl⟩ := ran
      filter_upwards [follows.invoke allowed ran depth, eventually_ge_atTop depth] with
        enough opens le ρ' same
      obtain ⟨s, opened, later⟩ := opens ρ' same
      exact ⟨_, Task.returns ⟨_, opened, rfl⟩,
        .nested ((lawful.scopes_fewer le same).captured captures) later .empty⟩
  | mapM g p =>
      obtain ⟨allowed, _, ran, rfl⟩ := ran
      filter_upwards [follows.invoke allowed ran depth] with enough opens ρ' same
      obtain ⟨s, opened, later⟩ := opens ρ' same
      exact ⟨_, Task.returns ⟨_, opened, rfl⟩, .mapped later⟩
  | filterM keep p =>
      obtain ⟨allowed, _, ran, rfl⟩ := ran
      filter_upwards [follows.invoke allowed ran depth] with enough opens ρ' same
      obtain ⟨s, opened, later⟩ := opens ρ' same
      exact ⟨_, Task.returns ⟨_, opened, rfl⟩, .filtered later⟩
  | or p q =>
      obtain ⟨allowed, _, ran, rfl⟩ := ran
      filter_upwards [follows.invoke allowed ran depth, eventually_ge_atTop depth] with
        enough opens le ρ' same
      obtain ⟨s, opened, later⟩ := opens ρ' same
      exact ⟨_, Task.returns ⟨_, opened, rfl⟩, .choosing later (lawful.scopes_fewer le same)⟩
  | runs x stop extend | noted events p =>
      obtain ⟨allowed, _, ran, rfl⟩ := ran
      filter_upwards [follows.invoke allowed ran depth] with enough opens ρ' same
      obtain ⟨s, opened, later⟩ := opens ρ' same
      exact ⟨s, Task.returns ⟨_, opened, rfl⟩, later⟩
  | recursive name body =>
      obtain ⟨inside, _, ran, rfl⟩ := ran
      filter_upwards [follows.invoke inside ran depth, eventually_ge_atTop depth] with
        enough opens le ρ' same
      obtain ⟨s, opened, later⟩ := opens _ same.handle
      rw [lawful.add_keeps (lawful.includes allowed) same] at opened
      exact ⟨_, Task.returns ⟨_, opened, rfl⟩, .anchored (lawful.scopes_fewer le same) later⟩
  | share p q =>
      obtain ⟨allowed, _, ran, rfl⟩ := ran
      filter_upwards [follows.invoke allowed ran depth] with enough opens ρ' same
      obtain ⟨s, opened, later⟩ := opens _ same.share
      exact ⟨s, Task.returns ⟨_, opened, rfl⟩, later⟩
  | alone p q =>
      obtain ⟨allowed, _, ran, rfl⟩ := ran
      filter_upwards [follows.invoke allowed ran depth] with enough opens ρ' same
      obtain ⟨s, opened, later⟩ := opens _ (.link same .empty)
      exact ⟨s, Task.returns ⟨_, opened, rfl⟩, later⟩
  | ref x =>
      simp only [Task.returns_iff_course, Task.course_ref] at ran ⊢
      exact follows.invoke_ref lawful allowed ran depth
  | tap label p =>
      obtain ⟨allowed, _, ran, rfl⟩ := ran
      filter_upwards [follows.invoke allowed ran depth] with enough opens ρ' same
      obtain ⟨s, opened, later⟩ := opens ρ' same
      exact ⟨_, Task.returns ⟨_, opened, rfl⟩, .tapped later⟩
  | probe p probed next =>
      obtain ⟨allowed, _, ran, allowed', _, ran', rfl⟩ := ran
      filter_upwards [follows.build allowed ran, follows.invoke allowed' ran' depth] with
        enough builds opens ρ' same
      obtain ⟨s, opened, later⟩ := opens ρ' same
      exact ⟨s, Task.returns ⟨_, builds ρ' same, _, opened, rfl⟩, later⟩

theorem Follows.pull_nested {ρ : Scope τ Γ} {f : α → Parser τ Γ β} {outer : Parses τ α}
    {inner : Parses τ β} {live log answer}
    (allowed : e.allows ⟨live, .pull (.nested ρ f outer inner), log⟩)
    (ran : ((Task.pull (.nested ρ f outer inner)).course log).Steps fuel e.allows live answer)
    (depth : Nat) :
    ∀ᶠ enough in atTop, ∀ s', e.Sequences enough (.nested ρ f outer inner) s' →
      ∃ answer', (Task.pull s').Returns live log ⟨answer', answer.log⟩ ∧
        e.Answers depth answer.value answer' := by
  have includes := lawful.includes allowed
  obtain ⟨allowedInner, ⟨⟨v, rest, left⟩ | left, log₁⟩, ranInner, ran⟩ := ran
  · cases ran
    filter_upwards [follows.pull allowedInner ranInner depth, eventually_ge_atTop depth] with
      enough answers le s' same
    cases same with
    | nested scope outside inside =>
        obtain ⟨_, pulled, ⟨later⟩⟩ := answers _ inside
        rw [lawful.add_around includes scope outside] at pulled
        exact ⟨_, Task.returns ⟨_, pulled, rfl⟩, .parse (.nested (lawful.scopes_fewer le scope)
          (lawful.sequences_fewer le outside) later)⟩
  obtain ⟨allowedOuter, ⟨⟨v, rest, outer₁⟩ | outer₁, log₂⟩, ranOuter, ran⟩ := ran
  · obtain ⟨allowedBuild, p, ranBuild, allowedInvoke, opened, ranInvoke, allowedNext, _, ranNext,
      rfl⟩ := ran
    -- What is left in the end is found first, and from there what is left before each call.
    obtain ⟨last, next⟩ := (follows.pull allowedNext ranNext depth).exists
    filter_upwards [follows.pull allowedInner ranInner last,
      follows.pull allowedOuter ranOuter last, follows.build allowedBuild ranBuild,
      follows.invoke allowedInvoke ranInvoke last, eventually_ge_atTop last] with
      enough answersInner answersOuter builds opens le s' same
    cases same with
    | nested scope outside inside =>
        obtain ⟨_, pulledInner, ⟨_⟩⟩ := answersInner _ inside
        obtain ⟨_, pulledOuter, ⟨outside'⟩⟩ := answersOuter _ outside
        have built := builds _ scope
        obtain ⟨inner', invoked, inside'⟩ := opens _ scope
        obtain ⟨answer', pulled, agree⟩ :=
          next _ (.nested (lawful.scopes_fewer le scope) outside' inside')
        rw [lawful.add_around includes scope outside] at pulledInner
        rw [lawful.add_holds includes scope] at pulledOuter
        rw [lawful.add_around includes (lawful.scopes_fewer le scope) outside'] at built invoked
        exact ⟨answer', Task.returns ⟨_, pulledInner, _, pulledOuter, _, built, _, invoked, _,
          pulled, rfl⟩, agree⟩
  · cases ran
    filter_upwards [follows.pull allowedInner ranInner depth,
      follows.pull allowedOuter ranOuter depth] with enough answersInner answersOuter s' same
    cases same with
    | nested scope outside inside =>
        obtain ⟨_, pulledInner, ⟨_⟩⟩ := answersInner _ inside
        obtain ⟨_, pulledOuter, ⟨_⟩⟩ := answersOuter _ outside
        rw [lawful.add_around includes scope outside] at pulledInner
        rw [lawful.add_holds includes scope] at pulledOuter
        exact ⟨_, Task.returns ⟨_, pulledInner, _, pulledOuter, rfl⟩, .ended .empty⟩

theorem Follows.pull_anchored {ρ : Scope τ Γ} {name : Name} {body : Parser τ (α :: Γ) α}
    {s : Parses τ α} {live log answer}
    (allowed : e.allows ⟨live, .pull (.anchored ρ name body s), log⟩)
    (ran : ((Task.pull (.anchored ρ name body s)).course log).Steps fuel e.allows live answer)
    (depth : Nat) :
    ∀ᶠ enough in atTop, ∀ s', e.Sequences enough (.anchored ρ name body s) s' →
      ∃ answer', (Task.pull s').Returns live log ⟨answer', answer.log⟩ ∧
        e.Answers depth answer.value answer' := by
  have includes := lawful.includes allowed
  obtain ⟨allowedPull, ⟨found, log'⟩, ranPull, ran⟩ := ran
  filter_upwards [follows.pull allowedPull ranPull depth, eventually_ge_atTop depth] with
    enough answers le s' same
  cases same with
  | anchored scope inside =>
      obtain ⟨answer', pulled, agree⟩ := answers _ inside
      rw [lawful.add_keeps includes scope] at pulled
      have scope := lawful.scopes_fewer le scope
      cases agree with
      | parse later =>
          cases ran
          exact ⟨_, Task.returns ⟨_, pulled, rfl⟩, .parse (.anchored scope later)⟩
      | ended later =>
          cases ran
          exact ⟨_, Task.returns ⟨_, pulled, rfl⟩, .ended (.anchored scope later)⟩
  | unanchored kept inside =>
      -- What the first sequence keeps alive is kept alive for the second one by others.
      obtain ⟨answer', pulled, agree⟩ := answers _ inside
      rw [includes.add_of_includes kept] at pulled
      cases agree with
      | parse later =>
          cases ran
          exact ⟨_, pulled, .parse (.unanchored kept later)⟩
      | ended later =>
          cases ran
          exact ⟨_, pulled, .ended (.unanchored kept later)⟩

omit lawful in
theorem Follows.pull_filtered {keep : α → Logged Bool} {s : Parses τ α} {live log answer}
    (ran : ((Task.pull (.filtered keep s)).course log).Steps fuel e.allows live answer)
    (depth : Nat) :
    ∀ᶠ enough in atTop, ∀ s', e.Sequences enough (.filtered keep s) s' →
      ∃ answer', (Task.pull s').Returns live log ⟨answer', answer.log⟩ ∧
        e.Answers depth answer.value answer' := by
  obtain ⟨allowed, ⟨⟨v, rest, left⟩ | left, log₁⟩, ranPull, ran⟩ := ran
  · dsimp only at ran
    split at ran
    next kept =>
      cases ran
      filter_upwards [follows.pull allowed ranPull depth] with enough answers s' same
      cases same with
      | filtered inside =>
          obtain ⟨_, pulled, ⟨later⟩⟩ := answers _ inside
          refine ⟨_, Task.returns ⟨_, pulled, ?_⟩, .parse (.filtered later)⟩
          simp [kept, Course.Returns]
    next dropped =>
      obtain ⟨allowedNext, _, ranNext, rfl⟩ := ran
      obtain ⟨last, next⟩ := (follows.pull allowedNext ranNext depth).exists
      filter_upwards [follows.pull allowed ranPull last] with enough answers s' same
      cases same with
      | filtered inside =>
          obtain ⟨_, pulled, ⟨later⟩⟩ := answers _ inside
          obtain ⟨answer', pulledNext, agree⟩ := next _ (.filtered later)
          refine ⟨answer', Task.returns ⟨_, pulled, ?_⟩, agree⟩
          simp only [dropped]
          exact ⟨_, pulledNext, rfl⟩
  · cases ran
    filter_upwards [follows.pull allowed ranPull depth] with enough answers s' same
    cases same with
    | filtered inside =>
        obtain ⟨_, pulled, _ | later⟩ := answers _ inside
        exact ⟨_, Task.returns ⟨_, pulled, rfl⟩, .ended (.filtered later)⟩

theorem Follows.pull_choosing {s : Parses τ α} {ρ : Scope τ Γ} {q : Parser τ Γ α} {input : Input τ}
    {live log answer} (allowed : e.allows ⟨live, .pull (.choosing s ρ q input), log⟩)
    (ran : ((Task.pull (.choosing s ρ q input)).course log).Steps fuel e.allows live answer)
    (depth : Nat) :
    ∀ᶠ enough in atTop, ∀ s', e.Sequences enough (.choosing s ρ q input) s' →
      ∃ answer', (Task.pull s').Returns live log ⟨answer', answer.log⟩ ∧
        e.Answers depth answer.value answer' := by
  have includes := lawful.includes allowed
  obtain ⟨allowedPull, ⟨⟨v, rest, left⟩ | left, log₁⟩, ranPull, ran⟩ := ran
  · cases ran
    filter_upwards [follows.pull allowedPull ranPull depth, eventually_ge_atTop depth] with
      enough answers le s' same
    cases same with
    | choosing inside scope =>
        obtain ⟨_, pulled, ⟨later⟩⟩ := answers _ inside
        rw [lawful.add_keeps includes scope] at pulled
        exact ⟨_, Task.returns ⟨_, pulled, rfl⟩,
          .parse (.choosing later (lawful.scopes_fewer le scope))⟩
  · obtain ⟨allowedInvoke, opened, ranInvoke, allowedNext, _, ranNext, rfl⟩ := ran
    obtain ⟨last, next⟩ := (follows.pull allowedNext ranNext depth).exists
    filter_upwards [follows.pull allowedPull ranPull last,
      follows.invoke allowedInvoke ranInvoke last] with enough answers opens s' same
    cases same with
    | choosing inside scope =>
        obtain ⟨_, pulled, ⟨_⟩⟩ := answers _ inside
        obtain ⟨second, invoked, later⟩ := opens _ scope
        obtain ⟨answer', pulledNext, agree⟩ := next _ (.chosen later)
        rw [lawful.add_keeps includes scope] at pulled invoked
        exact ⟨answer', Task.returns ⟨_, pulled, _, invoked, _, pulledNext, rfl⟩, agree⟩

theorem Follows.pull_succ {s : Parses τ α} {live log answer}
    (allowed : e.allows ⟨live, .pull s, log⟩)
    (ran : (Task.pull s).run (fuel + 1) live log = some answer) (depth : Nat) :
    ∀ᶠ enough in atTop, ∀ s', e.Sequences enough s s' →
      ∃ answer', (Task.pull s').Returns live log ⟨answer', answer.log⟩ ∧
        e.Answers depth answer.value answer' := by
  replace ran := lawful.steps allowed ran
  cases s with
  | listed parses =>
      refine .of_forall fun _ s' same => ?_
      cases same
      rcases parses with _ | ⟨⟨v, rest⟩, parses⟩
      · cases ran
        exact ⟨_, Task.returns rfl, .ended .empty⟩
      · cases ran
        exact ⟨_, Task.returns rfl, .parse (.listed parses)⟩
  | drawn parses index =>
      refine .of_forall fun _ s' same => ?_
      cases same
      simp only [Task.returns_iff_course, Task.course] at ran ⊢
      split at ran
      · cases ran
        exact ⟨_, rfl, .ended .empty⟩
      · cases ran
        exact ⟨_, rfl, .parse (.drawn parses (index + 1))⟩
  | mapped g s =>
      obtain ⟨allowed, ⟨found, log₁⟩, ranPull, ran⟩ := ran
      filter_upwards [follows.pull allowed ranPull depth] with enough answers s' same
      cases same with
      | mapped inside =>
          obtain ⟨answer', pulled, agree⟩ := answers _ inside
          cases agree with
          | parse later | ended later =>
              cases ran
              exact ⟨_, Task.returns ⟨_, pulled, rfl⟩, by constructor; exact .mapped later⟩
  | filtered keep s => exact follows.pull_filtered ran depth
  | choosing s ρ q input => exact follows.pull_choosing lawful allowed ran depth
  | chosen s =>
      obtain ⟨allowed, ⟨found, log₁⟩, ranPull, ran⟩ := ran
      filter_upwards [follows.pull allowed ranPull depth] with enough answers s' same
      cases same with
      | chosen inside =>
          obtain ⟨answer', pulled, agree⟩ := answers _ inside
          cases agree with
          | parse later =>
              cases ran
              exact ⟨_, Task.returns ⟨_, pulled, rfl⟩, .parse (.chosen later)⟩
          | ended later =>
              cases ran
              exact ⟨_, Task.returns ⟨_, pulled, rfl⟩, .ended .empty⟩
  | nested ρ f outer inner => exact follows.pull_nested lawful allowed ran depth
  | anchored ρ name body s => exact follows.pull_anchored lawful allowed ran depth
  | tapped label ended s =>
      obtain ⟨allowed, ⟨found, log₁⟩, ranPull, ran⟩ := ran
      filter_upwards [follows.pull allowed ranPull depth] with enough answers s' same
      cases same with
      | tapped inside =>
          obtain ⟨answer', pulled, agree⟩ := answers _ inside
          cases agree with
          | parse later =>
              cases ran
              exact ⟨_, Task.returns ⟨_, pulled, rfl⟩, .parse (.tapped later)⟩
          | ended later =>
              cases ran
              exact ⟨_, Task.returns ⟨_, pulled, rfl⟩, .ended (.tapped later)⟩

theorem Follows.count_succ {s : Parses τ α} {found live log counted}
    (allowed : e.allows ⟨live, .count s found, log⟩)
    (ran : (Task.count s found).run (fuel + 1) live log = some counted) :
    ∀ᶠ enough in atTop, ∀ s', e.Sequences enough s s' →
      (Task.count s' found).Returns live log counted := by
  replace ran := lawful.steps allowed ran
  obtain ⟨allowed, ⟨⟨v, rest, left⟩ | left, log₁⟩, ranPull, ran⟩ := ran
  · obtain ⟨allowedNext, _, ranNext, rfl⟩ := ran
    obtain ⟨last, counts⟩ := (follows.count allowedNext ranNext).exists
    filter_upwards [follows.pull allowed ranPull last] with enough answers s' same
    obtain ⟨_, pulled, ⟨later⟩⟩ := answers _ same
    exact Task.returns ⟨_, pulled, _, counts _ later, rfl⟩
  · cases ran
    filter_upwards [follows.pull allowed ranPull 0] with enough answers s' same
    obtain ⟨_, pulled, ⟨_⟩⟩ := answers _ same
    exact Task.returns ⟨_, pulled, rfl⟩

end Follows

theorem Lawful.follows (lawful : e.Lawful) (fuel : Nat) : e.Follows fuel := by
  induction fuel with
  | zero =>
      constructor <;> exact nofun
  | succ fuel ih =>
      exact ⟨ih.build_succ lawful, ih.invoke_succ lawful, ih.pull_succ lawful,
        ih.count_succ lawful⟩

theorem Lawful.sequences_show (lawful : e.Lawful) {lives : List Owners}
    (allowed : ∀ live ∈ lives, ∀ s : Parses τ α, e.allows ⟨live, .pull s, []⟩) {s : Parses τ α}
    {found : List (Option (α × Input τ) × List Event)} (shows : s.Shows lives found) :
    ∀ᶠ enough in atTop, ∀ s', e.Sequences enough s s' → s'.Shows lives found := by
  induction lives generalizing s found with
  | nil => exact .of_forall fun _ s' _ => Parses.shows_nil.mpr (Parses.shows_nil.mp shows)
  | cons live lives ih =>
      obtain ⟨answer, later, ⟨fuel, ran⟩, shows, same⟩ := Parses.shows_cons.mp shows
      have rest := ih (fun live inside => allowed live (.tail _ inside)) shows
      obtain ⟨last, rest⟩ := rest.exists
      filter_upwards [(lawful.follows fuel).pull (allowed live (.head _) s) ran last] with
        enough answers s' same'
      obtain ⟨answer', pulled, agree⟩ := answers s' same'
      rw [agree.found] at same
      exact Parses.shows_cons.mpr ⟨_, later, pulled, rest _ agree.next, same⟩

theorem Lawful.shows (lawful : e.Lawful) {ρ : Scope τ Γ} {p : Parser τ Γ α} {input : Input τ}
    {live : Owners} {lives : List Owners} {seen : Observation τ α}
    (allowed : e.allows ⟨live, .invoke ρ p input, []⟩)
    (allowedPulls : ∀ live ∈ lives, ∀ s : Parses τ α, e.allows ⟨live, .pull s, []⟩)
    (shows : p.Shows ρ input live lives seen) :
    ∀ᶠ enough in atTop, ∀ ρ', e.Scopes enough ρ ρ' → p.Shows ρ' input live lives seen := by
  obtain ⟨opened, ⟨fuel, ran⟩, shows, same⟩ := Parser.shows_iff.mp shows
  obtain ⟨last, sequences⟩ := (lawful.sequences_show allowedPulls shows).exists
  filter_upwards [(lawful.follows fuel).invoke allowed ran last] with enough opens ρ' same'
  obtain ⟨s, invoked, later⟩ := opens ρ' same'
  exact Parser.shows_iff.mpr ⟨_, invoked, sequences s later, same⟩

end Exchange

end EveryParse
