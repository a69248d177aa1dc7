import EveryParse.Proofs.Exchange

/-!
A parser that refers to itself, and its definition taken as a function. The definition is built with
a handle inside, and refers to the parser through that. Given the parser itself in place of the
handle, it builds the same, and what it builds parses the same, event by event and pull by pull.
Main statement: `recursive_ties_knot`.
-/

open Filter

namespace EveryParse

variable {τ : Type} {α : Type} {β : Type 1} {Γ : List Type}

section Sound

variable {kept : Definition τ → Prop} {building : AnyScope τ → Prop} {live live' : Owners}

theorem Task.Sound.returns_iff {task : Task τ} (sound : task.Sound kept building)
    (cover : live.Cover kept) (cover' : live'.Cover kept) {log : List Event}
    {result : task.Result} : task.Returns live log result ↔ task.Returns live' log result := by
  simp only [Task.Returns, sound.run_everybody cover, sound.run_everybody cover']

theorem Owners.everybody_includes (held : Owners) : Owners.everybody.Includes held :=
  fun _ _ => rfl

theorem Owners.everybody_stays (lives : List Owners) (held : Owners) :
    ∀ later ∈ lives.map fun _ => Owners.everybody, later.Includes held := by
  intro later member
  obtain ⟨_, _, rfl⟩ := List.mem_map.mp member
  exact everybody_includes held

theorem Parses.Sound.shows_everybody {s : Parses τ α} (sound : s.Sound kept building)
    {lives : List Owners} (cover : ∀ later ∈ lives, later.Cover kept)
    (found : List (Option (α × Input τ) × List Event)) :
    s.Shows lives found ↔ s.Shows (lives.map fun _ => .everybody) found := by
  induction lives generalizing s found with
  | nil => rfl
  | cons live lives ih =>
      have pulled : (Task.pull s).Sound kept building := sound
      simp only [List.map_cons, Parses.shows_cons,
        pulled.returns_iff (cover live (.head _)) (Owners.everybody_cover kept)]
      refine exists_congr fun answer => exists_congr fun later => and_congr_right ?_
      rintro ⟨fuel, ran⟩
      have left : answer.value.next.Sound kept building := Task.LeavesSound.of_run ran pulled
      rw [ih left fun later inside => cover later (.tail _ inside)]

theorem Scope.Sound.shows_everybody {ρ : Scope τ Γ} (sound : ρ.Sound kept building)
    (p : Parser τ Γ α) (input : Input τ) (cover : live.Cover kept) {lives : List Owners}
    (covers : ∀ later ∈ lives, later.Cover kept) (seen : Observation τ α) :
    p.Shows ρ input live lives seen ↔
      p.Shows ρ input .everybody (lives.map fun _ => .everybody) seen := by
  have invoked : (Task.invoke ρ p input).Sound kept building := sound
  simp only [Parser.shows_iff, invoked.returns_iff cover (Owners.everybody_cover kept)]
  refine exists_congr fun opened => and_congr_right ?_
  rintro ⟨fuel, ran⟩
  have left : opened.value.Sound kept building := Task.LeavesSound.of_run ran invoked
  rw [left.shows_everybody covers]

end Sound

inductive Call.Invokes (σ : Scope τ (α :: Γ)) : Call τ → Prop
  | ref {Δ} {ρ : Scope τ Δ} {x : Var Δ α} {input live log} (dropTo : ρ.dropTo x = ⟨_, σ⟩) :
      Invokes σ ⟨live, .invoke ρ (.ref x) input, log⟩

/-- While the definition is built, its handle is stored only: nothing that runs meanwhile invokes
it. -/
def Parser.Stores (kept : Definition τ → Prop) (ρ : Scope τ Γ) (define : Parser τ (α :: Γ) α) :
    Prop :=
  ∀ live : Owners, live.Cover kept → ∀ log running building call,
    Call.Reaches ⟨live, .build (.pending ρ) define, log⟩ running building call →
      ¬call.Invokes (.pending ρ : Scope τ (α :: Γ))

/-- Nothing is run while the parser is built. -/
def Parser.BuildsOnly {Γ : List Type} {α : Type} : Parser τ Γ α → Prop
  | result _ | fail | item | leaf _ | runs _ _ _ | ref _ => True
  | bind p _ _ | mapM _ p | filterM _ p | tap _ p | noted _ p => p.BuildsOnly
  | or p q => p.BuildsOnly ∧ q.BuildsOnly
  | recursive _ body => body.BuildsOnly
  | share p q => p.BuildsOnly ∧ q.BuildsOnly
  | alone p q => p.BuildsOnly ∧ q.BuildsOnly
  | probe _ _ _ => False

inductive Call.Builds : Call τ → Prop
  | build {Δ β} {ρ : Scope τ Δ} {p : Parser τ Δ β} {live log} (only : p.BuildsOnly) :
      Builds ⟨live, .build ρ p, log⟩

theorem Call.Builds.makes {call made : Call τ} (builds : call.Builds) (makes : call.Makes made) :
    made.Builds := by
  obtain @⟨_, _, ρ, p, live, log, only⟩ := builds
  cases p with
  | result v | fail | item | leaf parses | runs x stop extend | ref x => exact makes.elim
  | bind p captures f | mapM g p | filterM keep p | tap label p | noted events p
  | recursive name body =>
      obtain rfl | ⟨_, _, _, makes⟩ := makes
      · exact .build only
      · exact makes.elim
  | or p q | share p q | alone p q =>
      obtain rfl | ⟨_, _, _, rfl | ⟨_, _, _, makes⟩⟩ := makes
      · exact .build only.1
      · exact .build only.2
      · exact makes.elim
  | probe p input next => exact only.elim

theorem Parser.stores_of_buildsOnly {define : Parser τ (α :: Γ) α} (only : define.BuildsOnly)
    (kept : Definition τ → Prop) (ρ : Scope τ Γ) : define.Stores kept ρ := by
  intro live _ log running building call reached
  have builds : call.Builds := by
    induction reached with
    | start => exact .build only
    | step _ makes ih => exact ih.makes makes
  cases builds
  exact nofun

section Given

variable {ρ : Scope τ Γ} {x : Parser τ Γ α}

/-- A parser is put where the handle of a definition stands that is still being built. -/
inductive Given (ρ : Scope τ Γ) (x : Parser τ Γ α) :
    {Δ : List Type} → {β : Type} → Scope τ (β :: Δ) → Scope τ (β :: Δ) → Prop
  | given : Given ρ x (.pending ρ) (.share x ρ)

def givenDuring (ρ : Scope τ Γ) (x : Parser τ Γ α) (first : Call τ) : Exchange τ where
  stands _ := Given ρ x
  keeps := x.keeps ρ
  allows call := call.live.Includes (x.keeps ρ) ∧
    ∃ running building, first.Reaches running building call

theorem givenDuring_lawful {first : Call τ}
    (stores : ∀ running building call, first.Reaches running building call →
      ¬call.Invokes (.pending ρ : Scope τ (α :: Γ))) : (givenDuring ρ x first).Lawful where
  fewer _ _ _ _ _ stands := stands
  outside := by
    rintro _ _ _ _ _ _ ⟨⟩ y
    rfl
  held := by
    rintro _ _ _ _ _ ⟨⟩ name unkept
    exact congrArg (· :: ρ.held name) unkept.symm
  includes allowed := allowed.1
  makes := by
    rintro call made ⟨includes, running, building, reached⟩ makes
    exact ⟨fun name keeps => makes.live_mono (includes name keeps), _, _, reached.step makes⟩
  invokes := by
    rintro fuel - _ _ _ _ y _ _ dropTo _ ⟨⟩ input live log ⟨_, running, building, reached⟩
    exact (stores running building _ reached (.ref dropTo)).elim

theorem Parser.Stores.builds {kept : Definition τ → Prop} {building : AnyScope τ → Prop}
    (sound : ρ.Sound kept building) {define : Parser τ (α :: Γ) α} (stores : define.Stores kept ρ)
    {live live' : Owners} (cover : live.Cover kept) (cover' : live'.Cover kept) {log : List Event}
    {body : Outcome (Parser τ (α :: Γ) α)}
    (builds : (Task.build (.pending ρ) define).Returns live log body) (x : Parser τ Γ α) :
    (Task.build (.share x ρ) define).Returns live' log body := by
  have everybody := Owners.everybody_cover kept
  have pending : (Task.build (.pending ρ) define).Sound kept
      fun other => other = ⟨_, .pending (α := α) ρ⟩ ∨ building other :=
    ⟨.inl rfl, sound.mono (fun _ => id) fun _ => .inr⟩
  have given : (Task.build (.share x ρ) define).Sound kept building := sound
  obtain ⟨fuel, ran⟩ := (pending.returns_iff cover everybody).mp builds
  have lawful := givenDuring_lawful (x := x) (stores .everybody everybody log)
  obtain ⟨enough, built⟩ :=
    ((lawful.follows fuel).build ⟨Owners.everybody_includes _, _, _, .start⟩ ran).exists
  exact (given.returns_iff everybody cover').mp (built _ (.exchanged .given))

end Given

section Body

variable {ρ : Scope τ Γ} {name : Name} {body : Parser τ (α :: Γ) α}

theorem Parses.anchored_shows_iff {s : Parses τ α} {lives : List Owners}
    (stays : ∀ later ∈ lives, later.Includes ((Parser.recursive name body).keeps ρ))
    {found : List (Option (α × Input τ) × List Event)} :
    (Parses.anchored ρ name body s).Shows lives found ↔ s.Shows lives found := by
  induction lives generalizing s found with
  | nil => simp only [Parses.shows_nil]
  | cons live lives ih =>
      have alive : live.add ((Parser.recursive name body).keeps ρ) = live :=
        (stays live (.head _)).add_of_includes fun _ => id
      have rest {s : Parses τ α} {found} :
          (Parses.anchored ρ name body s).Shows lives found ↔ s.Shows lives found :=
        ih fun later inside => stays later (.tail _ inside)
      simp only [Parses.shows_cons]
      constructor
      · rintro ⟨_, later, pulled, shows, same⟩
        obtain ⟨⟨answer, log⟩, pulledInside, finish⟩ := Task.returns_iff_course.mp pulled
        rw [alive] at pulledInside
        cases answer <;> cases finish <;> exact ⟨_, later, pulledInside, rest.mp shows, same⟩
      · rintro ⟨⟨answer, log⟩, later, pulled, shows, same⟩
        rw [← alive] at pulled
        cases answer <;>
          exact ⟨_, later, Task.returns ⟨_, pulled, rfl⟩, rest.mpr shows, same⟩

theorem Parser.recursive_shows_iff {input : Input τ} {live : Owners} {lives : List Owners}
    (alive : live.Includes ((Parser.recursive name body).keeps ρ))
    (stays : ∀ later ∈ lives, later.Includes ((Parser.recursive name body).keeps ρ))
    {seen : Observation τ α} :
    (Parser.recursive name body).Shows ρ input live lives seen ↔
      body.Shows (.handle name body ρ) input live lives seen := by
  replace alive : live.add ((Parser.recursive name body).keeps ρ) = live :=
    alive.add_of_includes fun _ => id
  simp only [Parser.shows_iff]
  constructor
  · rintro ⟨_, invoked, shows, same⟩
    obtain ⟨opened, invokedInside, rfl⟩ := Task.returns_iff_course.mp invoked
    rw [alive] at invokedInside
    exact ⟨opened, invokedInside, (Parses.anchored_shows_iff stays).mp shows, same⟩
  · rintro ⟨opened, invoked, shows, same⟩
    rw [← alive] at invoked
    have anchored := (Parses.anchored_shows_iff stays).mpr shows
    exact ⟨_, Task.returns ⟨opened, invoked, rfl⟩, anchored, same⟩

end Body

section Knot

variable {ρ : Scope τ Γ} {name : Name} {body : Parser τ (α :: Γ) α}

theorem Course.Steps.returns {fuel : Nat} {allows : Call τ → Prop} {live : Owners} {result : β}
    {course : Course τ β} (steps : course.Steps fuel allows live result) :
    course.Returns live result := by
  induction course with
  | done found => exact steps
  | call held task log next ih =>
      obtain ⟨_, found, ran, steps⟩ := steps
      exact ⟨found, .of_run ran, ih found steps⟩
  | alive name yes no ihYes ihNo =>
      simp only [Course.Steps, Course.Returns] at steps ⊢
      split at steps
      next alive => simpa only [alive, ↓reduceIte] using ihYes steps
      next gone => simpa [gone] using ihNo steps

/-- A definition is referred to through its handle in one of the scopes, as itself in the other. -/
inductive Knot (ρ : Scope τ Γ) (name : Name) (body : Parser τ (α :: Γ) α) :
    {Δ : List Type} → {β : Type} → Scope τ (β :: Δ) → Scope τ (β :: Δ) → Prop
  | tied : Knot ρ name body (.share (.recursive name body) ρ) (.handle name body ρ)
  | untied : Knot ρ name body (.handle name body ρ) (.share (.recursive name body) ρ)

def knot (ρ : Scope τ Γ) (name : Name) (body : Parser τ (α :: Γ) α) : Exchange τ where
  stands _ := Knot ρ name body
  keeps := (Parser.recursive name body).keeps ρ
  allows call := call.live.Includes ((Parser.recursive name body).keeps ρ)

theorem knot_lawful : (knot ρ name body).Lawful where
  fewer _ _ _ _ _ stands := stands
  outside := by
    rintro _ _ _ _ _ _ (_ | _) y <;> rfl
  held := by
    rintro _ _ _ _ _ (_ | _) other unkept
    · exact congrArg (· :: ρ.held other) unkept
    · exact congrArg (· :: ρ.held other) unkept.symm
  includes := id
  makes includes makes name keeps := makes.live_mono (includes name keeps)
  invokes := by
    intro fuel _ _ _ _ _ _ _ _ _ _ stands input live log includes opened steps depth
    have alive : live name = true := includes name (Parser.keeps_recursive ρ name body)
    refine .of_forall fun enough σ' stands' => ⟨opened.value, ?_, .refl _⟩
    replace steps := steps.returns
    -- Either way, the definition itself is invoked.
    cases stands <;> cases stands' <;>
      simpa only [Scope.get, Referent.invoked, Course.Returns, alive, ↓reduceIte] using steps

theorem Parser.shows_knot {σ σ' : Scope τ (α :: Γ)} (stands : Knot ρ name body σ σ')
    {input : Input τ} {live : Owners} {lives : List Owners}
    (alive : live.Includes ((Parser.recursive name body).keeps ρ))
    (stays : ∀ later ∈ lives, later.Includes ((Parser.recursive name body).keeps ρ))
    {seen : Observation τ α} (shows : body.Shows σ input live lives seen) :
    body.Shows σ' input live lives seen := by
  obtain ⟨enough, shows⟩ :=
    (knot_lawful.shows alive (fun later inside _ => stays later inside) shows).exists
  exact shows σ' (.exchanged stands)

theorem Parser.knot_shows_iff {input : Input τ} {live : Owners} {lives : List Owners}
    (alive : live.Includes ((Parser.recursive name body).keeps ρ))
    (stays : ∀ later ∈ lives, later.Includes ((Parser.recursive name body).keeps ρ))
    {seen : Observation τ α} :
    (Parser.recursive name body).Shows ρ input live lives seen ↔
      body.Shows (.share (.recursive name body) ρ) input live lives seen := by
  rw [Parser.recursive_shows_iff alive stays]
  exact ⟨Parser.shows_knot .untied alive stays, Parser.shows_knot .tied alive stays⟩

end Knot

def Parser.StaysAlive (σ : Scope τ Γ) (p : Parser τ Γ α) (lives : List Owners) : Prop :=
  (∀ live ∈ lives, live.Includes (p.keeps σ)) ∨
    ∃ kept building, σ.Sound kept building ∧ ∀ live ∈ lives, live.Cover kept

/-- Unless it runs its handle meanwhile, a definition builds the same when it is given the parser
that it defines, and what it builds then shows the same as that parser, whatever the variables in
scope stand for by then. -/
theorem recursive_ties_knot {ρ : Scope τ Γ} {kept : Definition τ → Prop}
    {building : AnyScope τ → Prop} (sound : ρ.Sound kept building) {name : Name}
    {define : Parser τ (α :: Γ) α} (stores : define.Stores kept ρ) {live : Owners}
    (cover : live.Cover kept) {log : List Event} {p : Outcome (Parser τ Γ α)}
    (builds : (Task.build ρ (.recursive name define)).Returns live log p) :
    ∃ body, p.value = .recursive name body ∧
      (Task.build (.share p.value ρ) define).Returns live log ⟨body, p.log⟩ ∧
      ∀ (σ : Scope τ Γ) input live lives seen, p.value.StaysAlive σ (live :: lives) →
        (p.value.Shows σ input live lives seen ↔
          body.Shows (.share p.value σ) input live lives seen) := by
  obtain ⟨⟨body, log'⟩, built, rfl⟩ := Task.returns_iff_course.mp builds
  refine ⟨body, rfl, stores.builds sound cover cover built _, ?_⟩
  rintro σ input live lives seen (alive | ⟨kept, building, sound, covers⟩)
  · obtain ⟨alive, stays⟩ := List.forall_mem_cons.mp alive
    exact Parser.knot_shows_iff alive stays
  · obtain ⟨cover, covers⟩ := List.forall_mem_cons.mp covers
    have shared : (Scope.share (.recursive name body) σ).Sound kept building := sound
    rw [Outcome.map, sound.shows_everybody _ input cover covers,
      shared.shows_everybody _ input cover covers]
    exact Parser.knot_shows_iff (Owners.everybody_includes _) (Owners.everybody_stays _ _)

def nest : Parser Char [Nat] Nat :=
  let inner : Parser Char [Nat, Nat] Nat :=
    .or (.map (· + 1) (.ref (.there .here))) (.bind .item .all fun _ => .ref .here)
  .or (.bind .item .all fun _ => .recursive (.site [0]) inner) (.result 0)

theorem nest_ties_knot :
    let kept : Definition Char → Prop := fun _ => False
    let ρ : Scope Char [] := .empty
    let p : Parser Char [] Nat := .recursive (.site []) nest
    let input : Input Char := ⟨⟨0, #['a', 'a']⟩, 0⟩
    ρ.Closed ∧ nest.Stores kept ρ ∧ (Task.build ρ p).Returns .nobody [] ⟨p, []⟩ ∧
      (Task.build (.share p ρ) nest).Returns .nobody [] ⟨nest, []⟩ ∧
      nest.Shows (.share p ρ) input .nobody (List.replicate 5 .nobody)
        ⟨[], [(some (2, input.advance 2), []), (some (1, input.advance 1), []),
          (some (1, input.advance 2), []), (some (0, input), []), (none, [])]⟩ := by
  intro kept ρ p input
  have only : nest.BuildsOnly := ⟨trivial, trivial⟩
  have stores : nest.Stores kept ρ := Parser.stores_of_buildsOnly only kept ρ
  have closed : ρ.Closed := trivial
  have cover : Owners.nobody.Cover kept := Owners.cover_none _
  have builds : (Task.build ρ p).Returns .nobody [] ⟨p, []⟩ := ⟨4, rfl⟩
  obtain ⟨body, same, built, alike⟩ := recursive_ties_knot closed stores cover builds
  obtain rfl : nest = body := by injection same
  refine ⟨closed, stores, builds, built, ?_⟩
  refine (alike ρ input _ _ _ (.inr ⟨kept, fun _ => False, closed, ?_⟩)).mp ⟨20, rfl⟩
  simpa using cover

end EveryParse
