import EveryParse.Proofs.ChoiceLaws
import EveryParse.Proofs.Knot
import EveryParse.Proofs.Search

/-!
The search of completing, through choices and binds. Through a choice it goes into one branch and
then into the other; through a bind it goes into what is made of the first parse, and back to the
next parse when there is nothing in it. Main statement: `complete_searches_depth_first`.
-/

namespace EveryParse

variable {τ : Type} {α β : Type} {Γ : List Type}

/-- A search of which the first part comes to what is given; without a hit, `after` tells what the
whole of it comes to. -/
inductive Outcome.OrElse (after : List Event → Outcome (Option α) → Prop) :
    Outcome (Option α) → Outcome (Option α) → Prop
  | hit {v log} : OrElse after ⟨some v, log⟩ ⟨some v, log⟩
  | after {log found} (later : after log found) : OrElse after ⟨none, log⟩ found

section Choices

variable {live : Owners} {s : Parses τ α} {log : List Event} {found : Outcome (Option α)}

theorem searches_chosen :
    (Parses.chosen s).Searches live log found ↔ s.Searches live log found := by
  constructor
  · intro searches
    generalize same : Parses.chosen s = t at searches
    induction searches generalizing s with
    | ended pulled =>
        subst same
        obtain ⟨reply, inside, stays⟩ := pull_chosen_returns.mp pulled
        cases stays
        exact .ended inside
    | hit pulled whole =>
        subst same
        obtain ⟨reply, inside, stays⟩ := pull_chosen_returns.mp pulled
        cases stays
        exact .hit inside whole
    | passed pulled partly _ ih =>
        subst same
        obtain ⟨reply, inside, stays⟩ := pull_chosen_returns.mp pulled
        cases stays
        exact .passed inside partly (ih rfl)
  · intro searches
    induction searches with
    | ended pulled => exact .ended (pull_chosen_returns.mpr ⟨_, pulled, .ended⟩)
    | hit pulled whole => exact .hit (pull_chosen_returns.mpr ⟨_, pulled, .found⟩) whole
    | passed pulled partly _ ih =>
        exact .passed (pull_chosen_returns.mpr ⟨_, pulled, .found⟩) partly ih

variable {ρ : Scope τ Γ} {q : Parser τ Γ α} {input : Input τ}

theorem searches_choosing :
    (Parses.choosing s ρ q input).Searches live log found ↔
      ∃ first, s.Searches (live.add (q.keeps ρ)) log first ∧
        Outcome.OrElse (fun log found => ∃ opened,
          (Task.invoke ρ q input).Returns (live.add (q.keeps ρ)) log opened ∧
            opened.value.Searches live opened.log found) first found := by
  constructor
  · intro searches
    generalize same : Parses.choosing s ρ q input = t at searches
    induction searches generalizing s with
    | ended pulled =>
        subst same
        obtain ⟨reply, inside, turns⟩ := pull_choosing_returns.mp pulled
        cases turns with
        | turned invoked later =>
            exact ⟨_, .ended inside, .after ⟨_, invoked, searches_chosen.mp (.ended later)⟩⟩
    | hit pulled whole =>
        subst same
        obtain ⟨reply, inside, turns⟩ := pull_choosing_returns.mp pulled
        cases turns with
        | found => exact ⟨_, .hit inside whole, .hit⟩
        | turned invoked later =>
            exact ⟨_, .ended inside, .after ⟨_, invoked, searches_chosen.mp (.hit later whole)⟩⟩
    | passed pulled partly further ih =>
        subst same
        obtain ⟨reply, inside, turns⟩ := pull_choosing_returns.mp pulled
        cases turns with
        | found =>
            obtain ⟨first, searches, orElse⟩ := ih rfl
            exact ⟨first, .passed inside partly searches, orElse⟩
        | turned invoked later =>
            have second := searches_chosen.mp (.passed later partly further)
            exact ⟨_, .ended inside, .after ⟨_, invoked, second⟩⟩
  · rintro ⟨first, searches, orElse⟩
    induction searches with
    | ended pulled =>
        cases orElse with
        | after second =>
            obtain ⟨opened, invoked, second⟩ := second
            refine Parses.Searches.transfer (fun reply chosen => ?_) (searches_chosen.mpr second)
            exact pull_choosing_returns.mpr ⟨_, pulled, .turned invoked chosen⟩
    | hit pulled whole =>
        cases orElse
        exact .hit (pull_choosing_returns.mpr ⟨_, pulled, .found⟩) whole
    | passed pulled partly _ ih =>
        exact .passed (pull_choosing_returns.mpr ⟨_, pulled, .found⟩) partly (ih orElse)

end Choices

inductive ResumesSearch (ρ : Scope τ Γ) (f : α → Parser τ Γ β) (live : Owners) :
    Outcome (Answer τ α) → Outcome (Option β) → Prop
  | ended {left log} : ResumesSearch ρ f live ⟨.ended left, log⟩ ⟨none, log⟩
  | next {v rest left log opened found} (refills : Refills ρ f live left v rest log opened)
      (later : (Parses.nested ρ f left opened.value).Searches live opened.log found) :
      ResumesSearch ρ f live ⟨.parse v rest left, log⟩ found

theorem searches_nested {ρ : Scope τ Γ} {f : α → Parser τ Γ β} {live : Owners}
    {outer : Parses τ α} {inner : Parses τ β} {log found} :
    (Parses.nested ρ f outer inner).Searches live log found ↔
      ∃ first, inner.Searches (live.around ρ outer) log first ∧
        Outcome.OrElse (fun log found => ∃ reply,
          (Task.pull outer).Returns (live.add ρ.holds) log reply ∧
            ResumesSearch ρ f live reply found) first found := by
  constructor
  · intro searches
    generalize same : Parses.nested ρ f outer inner = t at searches
    induction searches generalizing inner with
    | ended pulled =>
        subst same
        cases NestedPull.iff_returns.mp pulled with
        | ended inside outside => exact ⟨_, .ended inside, .after ⟨_, outside, .ended⟩⟩
        | next inside outside refills later =>
            exact ⟨_, .ended inside, .after ⟨_, outside, .next refills (.ended later.returns)⟩⟩
    | hit pulled whole =>
        subst same
        cases NestedPull.iff_returns.mp pulled with
        | found inside => exact ⟨_, .hit inside whole, .hit⟩
        | next inside outside refills later =>
            have hits := Parses.Searches.hit later.returns whole
            exact ⟨_, .ended inside, .after ⟨_, outside, .next refills hits⟩⟩
    | passed pulled partly further ih =>
        subst same
        cases NestedPull.iff_returns.mp pulled with
        | found inside =>
            obtain ⟨first, searches, orElse⟩ := ih rfl
            exact ⟨first, .passed inside partly searches, orElse⟩
        | next inside outside refills later =>
            have passes := Parses.Searches.passed later.returns partly further
            exact ⟨_, .ended inside, .after ⟨_, outside, .next refills passes⟩⟩
  · rintro ⟨first, searches, orElse⟩
    induction searches with
    | ended inside =>
        cases orElse with
        | after resumes =>
            obtain ⟨reply, outside, resumes⟩ := resumes
            cases resumes with
            | ended => exact .ended (NestedPull.ended inside outside).returns
            | next refills later =>
                refine later.transfer fun reply pulled => ?_
                have pull := NestedPull.iff_returns.mp pulled
                exact (NestedPull.next inside outside refills pull).returns
    | hit inside whole =>
        cases orElse
        exact .hit (NestedPull.found inside).returns whole
    | passed inside partly _ ih =>
        exact .passed (NestedPull.found inside).returns partly (ih orElse)

/-- The first hit among what `tried` says of the members of a list. -/
inductive FirstHit {ι : Type} (tried : ι → Option β → Prop) : List ι → Option β → Prop
  | none : FirstHit tried [] none
  | hit {x xs w} (found : tried x (some w)) : FirstHit tried (x :: xs) (some w)
  | next {x xs found} (nothing : tried x Option.none) (later : FirstHit tried xs found) :
      FirstHit tried (x :: xs) found

section Lists

variable {ι : Type} {tried : ι → Option β → Prop} {xs : List ι}

theorem firstHit_none : FirstHit tried xs none ↔ ∀ x ∈ xs, tried x none := by
  constructor
  · intro first
    induction xs with
    | nil => simp
    | cons x xs ih =>
        cases first with
        | next nothing later => exact List.forall_mem_cons.mpr ⟨nothing, ih later⟩
  · intro each
    induction xs with
    | nil => exact .none
    | cons x xs ih =>
        rw [List.forall_mem_cons] at each
        exact .next each.1 (ih each.2)

theorem firstHit_some {w : β} :
    FirstHit tried xs (some w) ↔ ∃ before x after, xs = before ++ x :: after ∧
      (∀ y ∈ before, tried y none) ∧ tried x (some w) := by
  constructor
  · intro first
    induction xs with
    | nil => cases first
    | cons y xs ih =>
        cases first with
        | hit found => exact ⟨[], y, xs, rfl, by simp, found⟩
        | next nothing later =>
            obtain ⟨before, x, after, rfl, others, found⟩ := ih later
            exact ⟨y :: before, x, after, rfl, List.forall_mem_cons.mpr ⟨nothing, others⟩, found⟩
  · rintro ⟨before, x, after, rfl, others, found⟩
    induction before with
    | nil => exact .hit found
    | cons y before ih =>
        rw [List.forall_mem_cons] at others
        exact .next others.1 (ih others.2)

end Lists

def Parser.Finds (ρ : Scope τ Γ) (p : Parser τ Γ α) (input : Input τ) (found : Option α) : Prop :=
  ∃ opened log, (Task.invoke ρ p input).Comes [] opened ∧
    opened.value.Searches .everybody opened.log ⟨found, log⟩

theorem Parser.Finds.at_any_log {ρ : Scope τ Γ} {p : Parser τ Γ α} {input : Input τ}
    {found : Option α} (finds : p.Finds ρ input found) (log : List Event) :
    ∃ opened log', (Task.invoke ρ p input).Comes log opened ∧
      opened.value.Searches .everybody opened.log ⟨found, log'⟩ := by
  obtain ⟨opened, _, invoked, searches⟩ := finds
  obtain ⟨log₁, invoked⟩ := invoke_at_any_log invoked log
  obtain ⟨log₂, searches⟩ := searches.at_any_log log₁
  exact ⟨_, log₂, invoked, searches⟩

theorem Parser.Finds.of_log {ρ : Scope τ Γ} {p : Parser τ Γ α} {input : Input τ}
    {found : Option α} {log opened log'} (invoked : (Task.invoke ρ p input).Comes log opened)
    (searches : opened.value.Searches .everybody opened.log ⟨found, log'⟩) :
    p.Finds ρ input found := by
  obtain ⟨log₁, invoked⟩ := invoke_at_any_log invoked []
  obtain ⟨log₂, searches⟩ := searches.at_any_log log₁
  exact ⟨_, log₂, invoked, searches⟩

section Continued

variable {ρ : Scope τ Γ} {f : α → Parser τ Γ β}

/-- What `f` makes of the value of a parse is built, run on what the parse leaves and searched. -/
def Attempt (ρ : Scope τ Γ) (f : α → Parser τ Γ β) (parse : α × Input τ) (found : Option β) :
    Prop :=
  ∃ built, (Task.build ρ (f parse.1)).Comes [] built ∧ built.value.Finds ρ parse.2 found

theorem Owners.everybody_around (outer : Parses τ α) :
    Owners.everybody.around ρ outer = .everybody :=
  Owners.everybody_add _

theorem attempt_iff_refills (outer : Parses τ α) {v : α} {rest : Input τ} {found : Option β}
    (log : List Event) :
    Attempt ρ f (v, rest) found ↔ ∃ opened log', Refills ρ f .everybody outer v rest log opened ∧
      opened.value.Searches .everybody opened.log ⟨found, log'⟩ := by
  have around := Owners.everybody_around (ρ := ρ) outer
  constructor
  · rintro ⟨built, builds, finds⟩
    obtain ⟨log₁, builds⟩ := build_at_any_log builds log
    obtain ⟨opened, log₂, invoked, searches⟩ := finds.at_any_log log₁
    have refills : Refills ρ f .everybody outer v rest log opened :=
      .through (p := ⟨built.value, log₁⟩) (around.symm ▸ builds) (around.symm ▸ invoked)
    exact ⟨opened, log₂, refills, searches⟩
  · rintro ⟨opened, _, ⟨builds, invoked⟩, searches⟩
    rw [around] at builds invoked
    obtain ⟨log₁, builds⟩ := build_at_any_log builds []
    exact ⟨_, builds, .of_log invoked searches⟩

theorem searches_nested_everybody {outer : Parses τ α} {inner : Parses τ β} {log found} :
    (Parses.nested ρ f outer inner).Searches .everybody log found ↔
      ∃ first, inner.Searches .everybody log first ∧
        Outcome.OrElse (fun log found => ∃ reply, (Task.pull outer).Returns .everybody log reply ∧
          ResumesSearch ρ f .everybody reply found) first found := by
  rw [searches_nested]
  simp only [Owners.everybody_around, Owners.everybody_add]

theorem nested_searches_outer {outer : Parses τ α} {inner : Parses τ β} {log log' reply found}
    (nothing : inner.Searches .everybody log ⟨none, log'⟩)
    (outside : (Task.pull outer).Comes log' reply) :
    (Parses.nested ρ f outer inner).Searches .everybody log found ↔
      ResumesSearch ρ f .everybody reply found := by
  rw [searches_nested_everybody]
  constructor
  · rintro ⟨first, inside, orElse⟩
    cases nothing.unique inside
    obtain _ | ⟨reply', outside', resumes⟩ := orElse
    cases outside.unique outside'
    exact resumes
  · exact fun resumes => ⟨_, nothing, .after ⟨_, outside, resumes⟩⟩

theorem nested_searches_parses {outer : Parses τ α} {parses : List (α × Input τ)}
    (drains : outer.Drains parses) {inner : Parses τ β} {log log' : List Event} {found : Option β}
    (nothing : inner.Searches .everybody log ⟨none, log'⟩) :
    (∃ log'', (Parses.nested ρ f outer inner).Searches .everybody log ⟨found, log''⟩) ↔
      FirstHit (Attempt ρ f) parses found := by
  -- The parses that the outer sequence still has to give are tried one by one.
  induction parses generalizing outer inner log log' with
  | nil =>
      obtain ⟨left, log₁, ended, _⟩ := drains log'
      simp only [nested_searches_outer nothing ended]
      constructor
      · rintro ⟨_, ⟨⟩⟩
        exact .none
      · rintro ⟨⟩
        exact ⟨_, .ended⟩
  | cons parse parses ih =>
      obtain ⟨left, log₁, answered, later⟩ := drains log'
      simp only [nested_searches_outer nothing answered]
      constructor
      · rintro ⟨_, ⟨⟩ | ⟨refills, searches⟩⟩
        obtain ⟨⟨_, log₂⟩, inside, orElse⟩ := searches_nested_everybody.mp searches
        have tried := (attempt_iff_refills left _).mpr ⟨_, _, refills, inside⟩
        cases orElse with
        | hit => exact .hit tried
        | after => exact .next tried ((ih later inside).mp ⟨_, searches⟩)
      · rintro (_ | tried | ⟨tried, further⟩)
        · obtain ⟨opened, log₂, refills, inside⟩ := (attempt_iff_refills left log₁).mp tried
          exact ⟨_, .next refills (searches_nested_everybody.mpr ⟨_, inside, .hit⟩)⟩
        · obtain ⟨opened, log₂, refills, inside⟩ := (attempt_iff_refills left log₁).mp tried
          obtain ⟨log₃, searches⟩ := (ih later inside).mpr further
          exact ⟨_, .next refills searches⟩

theorem bind_finds {Δ : List Type} {p : Parser τ Γ α} {captures : Captures Γ Δ}
    {f : α → Parser τ Δ β} {input : Input τ} {parses : List (α × Input τ)}
    (drains : p.Drains ρ input parses) {found : Option β} :
    (Parser.bind p captures f).Finds ρ input found ↔
      FirstHit (Attempt (ρ.captured captures) f) parses found := by
  obtain ⟨s, log, invoked, drains⟩ := drains []
  have empty : (Parses.empty : Parses τ β).Searches .everybody log ⟨none, log⟩ :=
    .ended (Parses.empty_pull _ _)
  rw [← nested_searches_parses drains empty]
  have opens := (Parser.opensAround_bind ρ input p captures f _ _ _).mpr ⟨_, invoked, rfl⟩
  constructor
  · rintro ⟨_, log', invoked', searches⟩
    cases opens.unique invoked'
    exact ⟨log', searches⟩
  · rintro ⟨log', searches⟩
    exact ⟨_, log', opens, searches⟩

theorem or_finds {p q : Parser τ Γ α} {input : Input τ} {found : Option α} :
    (Parser.or p q).Finds ρ input found ↔
      (∃ v, p.Finds ρ input (some v) ∧ found = some v) ∨
        p.Finds ρ input none ∧ q.Finds ρ input found := by
  have opens {opened log} := Parser.opensAround_or ρ input p q .everybody log opened
  have keeps := Owners.everybody_add (q.keeps ρ)
  constructor
  · rintro ⟨_, log, choosing, searches⟩
    obtain ⟨opened, invoked, rfl⟩ := opens.mp choosing
    obtain ⟨first, inside, orElse⟩ := searches_choosing.mp searches
    rw [keeps] at inside
    cases orElse with
    | @hit v _ => exact .inl ⟨v, ⟨opened, log, invoked, inside⟩, rfl⟩
    | after second =>
        obtain ⟨other, invokedOther, second⟩ := second
        rw [keeps] at invokedOther
        exact .inr ⟨⟨opened, _, invoked, inside⟩, .of_log invokedOther second⟩
  · rintro (⟨v, ⟨opened, log, invoked, inside⟩, rfl⟩ | ⟨⟨opened, log, invoked, inside⟩, second⟩)
    · rw [← keeps] at inside
      exact ⟨_, log, opens.mpr ⟨_, invoked, rfl⟩, searches_choosing.mpr ⟨_, inside, .hit⟩⟩
    · obtain ⟨other, log₁, invokedOther, second⟩ := second.at_any_log log
      rw [← keeps] at inside
      refine ⟨_, log₁, opens.mpr ⟨_, invoked, rfl⟩, searches_choosing.mpr ⟨_, inside, ?_⟩⟩
      exact .after ⟨other, keeps.symm ▸ invokedOther, second⟩

end Continued

/-! Completing when the definitions of all handles are kept alive. -/

def Parser.CompletesBehind (ρ : Scope τ Γ) (f : α → Parser τ Γ β) (live : Owners)
    (parse : α × Input τ) (result : Except Incomplete β) : Prop :=
  ∃ fuel built, (f parse.1).build fuel live ρ [] = some built ∧
    (⟨ρ, built.value⟩ : Closure τ β).Completes live parse.2 result

section Covered

variable {kept : Definition τ → Prop} {building : AnyScope τ → Prop} {live : Owners}
  {ρ : Scope τ Γ} (sound : ρ.Sound kept building) (cover : live.Cover kept) {input : Input τ}
include sound cover

theorem completes_iff {p : Parser τ Γ α} {result : Except Incomplete α} :
    (⟨ρ, p⟩ : Closure τ α).Completes live input result ↔
      ∃ found, p.Finds ρ input found ∧ completion input found.toList = result := by
  have invokes : (Task.invoke ρ p input).Sound kept building := sound
  have alike (opened) : (Task.invoke ρ p input).Returns live [] opened ↔
      (Task.invoke ρ p input).Comes [] opened :=
    invokes.returns_iff cover (Owners.everybody_cover kept)
  have covered {opened} (ran : (Task.invoke ρ p input).Returns live [] opened) (found) :
      opened.value.Searches live opened.log found ↔
        opened.value.Searches .everybody opened.log found := by
    obtain ⟨fuel, ran⟩ := ran
    have left : opened.value.Sound kept building := Task.LeavesSound.of_run ran invokes
    simp only [Parses.searches_iff, left.firstComplete_everybody cover]
  rw [Closure.Completes, exists_comm]
  simp only [Parser.complete_iff]
  constructor
  · rintro ⟨log, opened, found, invoked, searches, same⟩
    exact ⟨found, ⟨opened, log, (alike _).mp invoked, (covered invoked _).mp searches⟩, same⟩
  · rintro ⟨found, ⟨opened, log, invoked, searches⟩, same⟩
    have invoked := (alike _).mpr invoked
    exact ⟨log, opened, found, invoked, (covered invoked _).mpr searches, same⟩

theorem completes_ok_iff {p : Parser τ Γ α} {v : α} :
    (⟨ρ, p⟩ : Closure τ α).Completes live input (.ok v) ↔ p.Finds ρ input (some v) := by
  rw [completes_iff sound cover]
  constructor
  · rintro ⟨_ | w, finds, same⟩ <;> cases same
    exact finds
  · exact fun finds => ⟨_, finds, rfl⟩

theorem completes_error_iff {p : Parser τ Γ α} {failure : Incomplete} :
    (⟨ρ, p⟩ : Closure τ α).Completes live input (.error failure) ↔
      failure = ⟨input.length⟩ ∧ p.Finds ρ input none := by
  rw [completes_iff sound cover]
  constructor
  · rintro ⟨_ | w, finds, same⟩ <;> cases same
    exact ⟨rfl, finds⟩
  · rintro ⟨rfl, finds⟩
    exact ⟨_, finds, rfl⟩

theorem or_completes (p q : Parser τ Γ α) (result : Except Incomplete α) :
    (⟨ρ, .or p q⟩ : Closure τ α).Completes live input result ↔
      (∃ v, (⟨ρ, p⟩ : Closure τ α).Completes live input (.ok v) ∧ result = .ok v) ∨
        (∃ failure, (⟨ρ, p⟩ : Closure τ α).Completes live input (.error failure)) ∧
          (⟨ρ, q⟩ : Closure τ α).Completes live input result := by
  have fails : (∃ failure, (⟨ρ, p⟩ : Closure τ α).Completes live input (.error failure)) ↔
      p.Finds ρ input none := by
    simp [completes_error_iff sound cover]
  simp only [fails, completes_ok_iff sound cover]
  cases result with
  | ok v => simp [completes_ok_iff sound cover, or_finds]
  | error failure => simp [completes_error_iff sound cover, or_finds, and_left_comm]

omit sound cover in
theorem Parser.completesBehind_of_build {f : α → Parser τ Γ β} {parse : α × Input τ}
    {result : Except Incomplete β} :
    CompletesBehind ρ f live parse result ↔
      ∃ built, (Task.build ρ (f parse.1)).Returns live [] built ∧
        (⟨ρ, built.value⟩ : Closure τ β).Completes live parse.2 result := by
  simp only [CompletesBehind, (carried _).build]
  exact exists_comm.trans (exists_congr fun built => exists_and_right)

theorem completesBehind_ok_iff {f : α → Parser τ Γ β} {parse : α × Input τ} {w : β} :
    Parser.CompletesBehind ρ f live parse (.ok w) ↔ Attempt ρ f parse (some w) := by
  have builds : (Task.build ρ (f parse.1)).Sound kept building := sound
  simp only [Parser.completesBehind_of_build, completes_ok_iff sound cover,
    builds.returns_iff cover (Owners.everybody_cover kept)]
  exact Iff.rfl

theorem completesBehind_error_iff {f : α → Parser τ Γ β} {parse : α × Input τ} :
    (∃ failure, Parser.CompletesBehind ρ f live parse (.error failure)) ↔
      Attempt ρ f parse none := by
  have builds : (Task.build ρ (f parse.1)).Sound kept building := sound
  simp only [Parser.completesBehind_of_build, completes_error_iff sound cover,
    builds.returns_iff cover (Owners.everybody_cover kept)]
  constructor
  · rintro ⟨_, built, built, _, finds⟩
    exact ⟨_, built, finds⟩
  · rintro ⟨built, builds, finds⟩
    exact ⟨_, built, builds, rfl, finds⟩

theorem bind_completes_ok {Δ : List Type} {p : Parser τ Γ α} {parses : List (α × Input τ)}
    (lists : (⟨ρ, p⟩ : Closure τ α).Lists live input parses) (captures : Captures Γ Δ)
    (f : α → Parser τ Δ β) (w : β) :
    (⟨ρ, .bind p captures f⟩ : Closure τ β).Completes live input (.ok w) ↔
      ∃ before parse after, parses = before ++ parse :: after ∧
        (∀ earlier ∈ before, ∃ failure,
          Parser.CompletesBehind (ρ.captured captures) f live earlier (.error failure)) ∧
        Parser.CompletesBehind (ρ.captured captures) f live parse (.ok w) := by
  have drains := (Closure.lists_iff_drains sound cover).mp lists
  have known := sound.captured captures
  simp only [completesBehind_error_iff known cover, completesBehind_ok_iff known cover]
  rw [completes_ok_iff sound cover, bind_finds drains, firstHit_some]

theorem bind_completes_error {Δ : List Type} {p : Parser τ Γ α} {parses : List (α × Input τ)}
    (lists : (⟨ρ, p⟩ : Closure τ α).Lists live input parses) (captures : Captures Γ Δ)
    (f : α → Parser τ Δ β) (failure : Incomplete) :
    (⟨ρ, .bind p captures f⟩ : Closure τ β).Completes live input (.error failure) ↔
      failure = ⟨input.length⟩ ∧
        ∀ parse ∈ parses, ∃ other,
          Parser.CompletesBehind (ρ.captured captures) f live parse (.error other) := by
  have drains := (Closure.lists_iff_drains sound cover).mp lists
  simp only [completesBehind_error_iff (sound.captured captures) cover]
  rw [completes_error_iff sound cover, bind_finds drains, firstHit_none]

end Covered

theorem Incomplete.eq_iff {failure : Incomplete} {input : Input τ} :
    failure = ⟨input.length⟩ ↔ failure.length = input.remaining.length := by
  have same : input.remaining.length = input.length := by
    simp [Input.remaining, Input.length]
  obtain ⟨length⟩ := failure
  rw [same, mk.injEq]

theorem Incomplete.eq_iff_message {failure : Incomplete} {input : Input τ} :
    failure = ⟨input.length⟩ ↔ failure.length = input.remaining.length ∧ failure.message =
      s!"parsing failed, no parse consumed all {input.remaining.length} tokens" := by
  rw [eq_iff]
  constructor
  · intro same
    refine ⟨same, ?_⟩
    rw [← same]
    rfl
  · exact And.left

/-- Completing comes to the value of the first parse that leaves nothing, without another pull
behind it, or to the number of tokens there were when there is none up to the end; a tap on the
parser shows each of the pulls. Through `or` and `bind` that is a search with backtracking. -/
theorem complete_searches_depth_first {kept : Definition τ → Prop} {building : AnyScope τ → Prop}
    {live : Owners} {Δ : List Type} {ρ : Scope τ Γ} (sound : ρ.Sound kept building)
    (cover : live.Cover kept) (input : Input τ) :
    (∀ (p : Parser τ Γ α) (v : α) (log : List Event),
      (∃ fuel, p.complete fuel live ρ input [] = some ⟨.ok v, log⟩) ↔
        ∃ rest seen, p.SearchedTo ρ input live (some (v, rest)) seen ∧
          log = seen.events.reverse) ∧
    (∀ (p : Parser τ Γ α) (failure : Incomplete) (log : List Event),
      (∃ fuel, p.complete fuel live ρ input [] = some ⟨.error failure, log⟩) ↔
        (failure.length = input.remaining.length ∧ failure.message =
          s!"parsing failed, no parse consumed all {input.remaining.length} tokens") ∧
        ∃ seen, p.SearchedTo ρ input live none seen ∧ log = seen.events.reverse) ∧
    (∀ (label : String) (p : Parser τ Γ α) (last : Option (α × Input τ)) (seen : Observation τ α),
      (Parser.tap label p).SearchedTo ρ input live last seen ↔
        ∃ inside, p.SearchedTo ρ input live last inside ∧ inside.tapped label input = seen) ∧
    (∀ (p q : Parser τ Γ α) (result : Except Incomplete α),
      (⟨ρ, .or p q⟩ : Closure τ α).Completes live input result ↔
        (∃ v, (⟨ρ, p⟩ : Closure τ α).Completes live input (.ok v) ∧ result = .ok v) ∨
          (∃ failure, (⟨ρ, p⟩ : Closure τ α).Completes live input (.error failure)) ∧
            (⟨ρ, q⟩ : Closure τ α).Completes live input result) ∧
    ∀ (p : Parser τ Γ α) (parses : List (α × Input τ)),
      (⟨ρ, p⟩ : Closure τ α).Lists live input parses →
      ∀ (captures : Captures Γ Δ) (f : α → Parser τ Δ β),
        (∀ w, (⟨ρ, .bind p captures f⟩ : Closure τ β).Completes live input (.ok w) ↔
          ∃ before parse after, parses = before ++ parse :: after ∧
            (∀ earlier ∈ before, ∃ failure,
              Parser.CompletesBehind (ρ.captured captures) f live earlier (.error failure)) ∧
            Parser.CompletesBehind (ρ.captured captures) f live parse (.ok w)) ∧
        ∀ failure, (⟨ρ, .bind p captures f⟩ : Closure τ β).Completes live input (.error failure) ↔
          failure.length = input.remaining.length ∧
            ∀ parse ∈ parses, ∃ other,
              Parser.CompletesBehind (ρ.captured captures) f live parse (.error other) := by
  refine ⟨fun p v log => ?_, fun p failure log => ?_, fun label p last seen => ?_, fun p q => ?_,
    fun p parses lists captures f => ⟨fun w => ?_, fun failure => ?_⟩⟩
  · rw [Parser.complete_iff_seen]
    constructor
    · rintro ⟨_ | ⟨w, rest⟩, seen, searched, same, events⟩ <;> cases same
      exact ⟨rest, seen, searched, events⟩
    · rintro ⟨rest, seen, searched, events⟩
      exact ⟨_, seen, searched, rfl, events⟩
  · rw [Parser.complete_iff_seen, ← Incomplete.eq_iff_message]
    constructor
    · rintro ⟨_ | ⟨w, rest⟩, seen, searched, same, events⟩ <;> cases same
      exact ⟨rfl, seen, searched, events⟩
    · rintro ⟨rfl, seen, searched, events⟩
      exact ⟨none, seen, searched, rfl, events⟩
  · exact Parser.searchedTo_tap
  · exact or_completes sound cover p q
  · exact bind_completes_ok sound cover lists captures f w
  · rw [bind_completes_error sound cover lists, Incomplete.eq_iff]

/-- Behind `a` there is nothing to be found, and the search goes back to the parse that reads
nothing. -/
theorem two_items_found_by_search :
    let ρ : Scope Char [] := .empty
    let p : Parser Char [] Char := .or .item (.result 'x')
    let twoBehind (v : Char) : Parser Char [] Char :=
      if v = 'x' then .bind .item .none fun _ => .item else .fail
    let input : Input Char := ⟨⟨0, #['a', 'b']⟩, 0⟩
    let parses := [('a', input.advance 1), ('x', input)]
    ρ.Closed ∧ (⟨ρ, p⟩ : Closure Char Char).Lists .nobody input parses ∧
      (⟨ρ, .bind p .none twoBehind⟩ : Closure Char Char).Completes .nobody input (.ok 'b') := by
  intro ρ p twoBehind input parses
  have closed : ρ.Closed := trivial
  have cover : Owners.nobody.Cover fun _ : Definition Char => False := Owners.cover_none _
  have lists : (⟨ρ, p⟩ : Closure Char Char).Lists .nobody input parses := ⟨9, 3, _, rfl, rfl, rfl⟩
  have nothing : Parser.CompletesBehind ρ twoBehind .nobody ('a', input.advance 1) (.error ⟨1⟩) :=
    ⟨9, _, rfl, 9, _, rfl⟩
  have found : Parser.CompletesBehind ρ twoBehind .nobody ('x', input) (.ok 'b') :=
    ⟨9, _, rfl, 9, _, rfl⟩
  obtain ⟨-, -, -, -, bound⟩ := complete_searches_depth_first closed cover input
  refine ⟨closed, lists, ((bound p parses lists .none twoBehind).1 'b').mpr ?_⟩
  exact ⟨[('a', input.advance 1)], ('x', input), [], rfl, by simpa using ⟨_, nothing⟩, found⟩

end EveryParse
