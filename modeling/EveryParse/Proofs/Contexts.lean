import EveryParse.Proofs.Drains
import EveryParse.Proofs.Growth
import EveryParse.Proofs.Lockstep

/-!
Parsers with positions in them. A context is a parser with positions that other parsers may be put
at. Two runs of a context, filled in two ways, make the same calls on what is filled from the same
context, as long as they do not come to a position itself (`build_matches`, `invoke_matches`,
`pull_matches`, `count_matches`). Where the first run comes to an end and was quiet, so does the
second one (`Course.Matches.comes`).
-/

namespace EveryParse

variable {τ ι : Type} {Δ : List Type} {β : Type}

/-- A parser with positions for parsers of values of type `β`, which have `Δ` in scope. A position
inside a continuation tells by `ι` what the continuation was given. -/
inductive Context (τ ι : Type) (Δ : List Type) (β : Type) : List Type → Type → Type 1 where
  | hole (i : ι) : Context τ ι Δ β Δ β
  | result {Γ α} (value : α) : Context τ ι Δ β Γ α
  | fail {Γ α} : Context τ ι Δ β Γ α
  | item {Γ} : Context τ ι Δ β Γ τ
  | leaf {Γ α} (parses : Input τ → Nat → Option (α × Input τ)) : Context τ ι Δ β Γ α
  | bind {Γ Θ α γ} (p : Context τ ι Δ β Γ α) (captures : Captures Γ Θ)
      (f : α → Context τ ι Δ β Θ γ) : Context τ ι Δ β Γ γ
  | mapM {Γ α γ} (g : α → Logged γ) (p : Context τ ι Δ β Γ α) : Context τ ι Δ β Γ γ
  | filterM {Γ α} (keep : α → Logged Bool) (p : Context τ ι Δ β Γ α) : Context τ ι Δ β Γ α
  | or {Γ α} (p q : Context τ ι Δ β Γ α) : Context τ ι Δ β Γ α
  | runs {Γ α γ} (x : Var Γ α) (stop : γ) (extend : α → γ → γ) : Context τ ι Δ β Γ γ
  | recursive {Γ α} (name : Name) (body : Context τ ι Δ β (α :: Γ) α) : Context τ ι Δ β Γ α
  | share {Γ α γ} (p : Context τ ι Δ β Γ α) (q : Context τ ι Δ β (α :: Γ) γ) : Context τ ι Δ β Γ γ
  | alone {Γ α γ} (p : Context τ ι Δ β Γ α) (q : Context τ ι Δ β [α] γ) : Context τ ι Δ β Γ γ
  | ref {Γ α} (x : Var Γ α) : Context τ ι Δ β Γ α
  | tap {Γ α} (label : String) (p : Context τ ι Δ β Γ α) : Context τ ι Δ β Γ α
  | noted {Γ α} (events : List Event) (p : Context τ ι Δ β Γ α) : Context τ ι Δ β Γ α
  | probe {Γ α γ} (p : Context τ ι Δ β Γ α) (input : Input τ) (next : Nat → Context τ ι Δ β Γ γ) :
      Context τ ι Δ β Γ γ

def Context.fill (q : ι → Parser τ Δ β) {Γ : List Type} {α : Type} :
    Context τ ι Δ β Γ α → Parser τ Γ α
  | hole i => q i
  | result v => .result v
  | fail => .fail
  | item => .item
  | leaf parses => .leaf parses
  | bind p captures f => .bind (p.fill q) captures fun v => (f v).fill q
  | mapM g p => .mapM g (p.fill q)
  | filterM keep p => .filterM keep (p.fill q)
  | or p r => .or (p.fill q) (r.fill q)
  | runs x stop extend => .runs x stop extend
  | recursive name body => .recursive name (body.fill q)
  | share p r => .share (p.fill q) (r.fill q)
  | alone p r => .alone (p.fill q) (r.fill q)
  | ref x => .ref x
  | tap label p => .tap label (p.fill q)
  | noted events p => .noted events (p.fill q)
  | probe p input next => .probe (p.fill q) input fun found => (next found).fill q

/-- What the positions are filled with in the one run and in the other. -/
structure Filling (τ ι : Type) (Δ : List Type) (β : Type) : Type 1 where
  first : ι → Parser τ Δ β
  second : ι → Parser τ Δ β

namespace Filling

variable (filling : Filling τ ι Δ β)

inductive Scopes : {Γ : List Type} → Scope τ Γ → Scope τ Γ → Prop
  | empty : Scopes .empty .empty
  | share {Γ α} (c : Context τ ι Δ β Γ α) {ρ ρ'} (outside : Scopes ρ ρ') :
      Scopes (.share (c.fill filling.first) ρ) (.share (c.fill filling.second) ρ')
  | handle {Γ α} (name : Name) (c : Context τ ι Δ β (α :: Γ) α) {ρ ρ'} (outside : Scopes ρ ρ') :
      Scopes (.handle name (c.fill filling.first) ρ) (.handle name (c.fill filling.second) ρ')
  | pending {Γ α} {ρ ρ' : Scope τ Γ} (outside : Scopes ρ ρ') :
      Scopes (.pending ρ : Scope τ (α :: Γ)) (.pending ρ')
  | link {Γ Θ α} (c : Context τ ι Δ β Θ α) {σ σ'} {ρ ρ' : Scope τ Γ} (linked : Scopes σ σ')
      (outside : Scopes ρ ρ') :
      Scopes (.link σ (c.fill filling.first) ρ) (.link σ' (c.fill filling.second) ρ')

inductive Referents {α : Type} : Referent τ α → Referent τ α → Prop
  | parser {Γ} {σ σ' : Scope τ Γ} (scopes : filling.Scopes σ σ') (c : Context τ ι Δ β Γ α) :
      Referents (.parser σ (c.fill filling.first)) (.parser σ' (c.fill filling.second))
  | handle {Γ} {σ σ' : Scope τ Γ} (scopes : filling.Scopes σ σ') (name : Name)
      (c : Context τ ι Δ β (α :: Γ) α) :
      Referents (.handle name (c.fill filling.first) σ) (.handle name (c.fill filling.second) σ')
  | nothing : Referents .nothing .nothing

inductive Sequences : {α : Type} → Parses τ α → Parses τ α → Prop
  | listed {α} (parses : List (α × Input τ)) : Sequences (.listed parses) (.listed parses)
  | drawn {α} (parses : Nat → Option (α × Input τ)) (index : Nat) :
      Sequences (.drawn parses index) (.drawn parses index)
  | mapped {α γ} (g : α → Logged γ) {s s'} (inside : Sequences s s') :
      Sequences (.mapped g s) (.mapped g s')
  | filtered {α} (keep : α → Logged Bool) {s s'} (inside : Sequences s s') :
      Sequences (.filtered keep s) (.filtered keep s')
  | choosing {Γ α} {ρ ρ' : Scope τ Γ} {s s'} (inside : Sequences s s')
      (scopes : filling.Scopes ρ ρ') (c : Context τ ι Δ β Γ α) (input : Input τ) :
      Sequences (.choosing s ρ (c.fill filling.first) input)
        (.choosing s' ρ' (c.fill filling.second) input)
  | chosen {α} {s s' : Parses τ α} (inside : Sequences s s') :
      Sequences (.chosen s) (.chosen s')
  | nested {Γ α γ} {ρ ρ' : Scope τ Γ} (scopes : filling.Scopes ρ ρ')
      (f : α → Context τ ι Δ β Γ γ) {outer outer' inner inner'} (outside : Sequences outer outer')
      (inside : Sequences inner inner') :
      Sequences (.nested ρ (fun v => (f v).fill filling.first) outer inner)
        (.nested ρ' (fun v => (f v).fill filling.second) outer' inner')
  | anchored {Γ α} {ρ ρ' : Scope τ Γ} (scopes : filling.Scopes ρ ρ') (name : Name)
      (c : Context τ ι Δ β (α :: Γ) α) {s s'} (inside : Sequences s s') :
      Sequences (.anchored ρ name (c.fill filling.first) s)
        (.anchored ρ' name (c.fill filling.second) s')
  | tapped {α} (label : String) (ended : Bool) {s s' : Parses τ α} (inside : Sequences s s') :
      Sequences (.tapped label ended s) (.tapped label ended s')

inductive Built {Γ : List Type} {α : Type} :
    Outcome (Parser τ Γ α) → Outcome (Parser τ Γ α) → Prop
  | built (c : Context τ ι Δ β Γ α) (log : List Event) :
      Built ⟨c.fill filling.first, log⟩ ⟨c.fill filling.second, log⟩

inductive Opened {α : Type} : Outcome (Parses τ α) → Outcome (Parses τ α) → Prop
  | opened {s s'} (sequences : filling.Sequences s s') (log : List Event) :
      Opened ⟨s, log⟩ ⟨s', log⟩

inductive Answers {α : Type} : Outcome (Answer τ α) → Outcome (Answer τ α) → Prop
  | parse (v : α) (rest : Input τ) {s s'} (later : filling.Sequences s s') (log : List Event) :
      Answers ⟨.parse v rest s, log⟩ ⟨.parse v rest s', log⟩
  | ended {s s'} (later : filling.Sequences s s') (log : List Event) :
      Answers ⟨.ended s, log⟩ ⟨.ended s', log⟩

/-- Two tasks at the same place. -/
inductive Pair : Type 1
  | build {Γ : List Type} {α : Type} {ρ ρ' : Scope τ Γ} (scopes : filling.Scopes ρ ρ')
      (c : Context τ ι Δ β Γ α)
  | invoke {Γ : List Type} {α : Type} {ρ ρ' : Scope τ Γ} (scopes : filling.Scopes ρ ρ')
      (c : Context τ ι Δ β Γ α) (input : Input τ)
  | pull {α : Type} {s s' : Parses τ α} (sequences : filling.Sequences s s')
  | count {α : Type} {s s' : Parses τ α} (sequences : filling.Sequences s s') (found : Nat)

variable {filling}

namespace Pair

abbrev first : filling.Pair → Task τ
  | @build _ _ _ _ _ _ _ ρ _ _ c => .build ρ (c.fill filling.first)
  | @invoke _ _ _ _ _ _ _ ρ _ _ c input => .invoke ρ (c.fill filling.first) input
  | @pull _ _ _ _ _ _ s _ _ => .pull s
  | @count _ _ _ _ _ _ s _ _ found => .count s found

abbrev second : filling.Pair → Task τ
  | @build _ _ _ _ _ _ _ _ ρ' _ c => .build ρ' (c.fill filling.second)
  | @invoke _ _ _ _ _ _ _ _ ρ' _ c input => .invoke ρ' (c.fill filling.second) input
  | @pull _ _ _ _ _ _ _ s' _ => .pull s'
  | @count _ _ _ _ _ _ _ s' _ found => .count s' found

def result : (pair : filling.Pair) → pair.first.Result → pair.second.Result → Prop
  | build _ _, built, built' => filling.Built built built'
  | invoke _ _ _, opened, opened' => filling.Opened opened opened'
  | pull _, answer, answer' => filling.Answers answer answer'
  | count _ _, counted, counted' => counted = counted'

end Pair

end Filling

def Filling.pairing (filling : Filling τ ι Δ β) : Pairing τ where
  Pair := filling.Pair
  first := Filling.Pair.first
  second := Filling.Pair.second
  result := Filling.Pair.result

variable {α : Type} {Γ : List Type} {filling : Filling τ ι Δ β}

theorem Filling.Answers.found {answer answer' : Outcome (Answer τ α)}
    (same : filling.Answers answer answer') :
    answer.value.found = answer'.value.found ∧ answer.log = answer'.log := by
  cases same <;> exact ⟨rfl, rfl⟩

theorem Filling.Answers.next {answer answer' : Outcome (Answer τ α)}
    (same : filling.Answers answer answer') :
    filling.Sequences answer.value.next answer'.value.next := by
  cases same <;> assumption

theorem Filling.Scopes.get {ρ ρ' : Scope τ Γ} (scopes : filling.Scopes ρ ρ') (x : Var Γ α) :
    filling.Referents (ρ.get x) (ρ'.get x) := by
  induction x with
  | here =>
      cases scopes with
      | share c outside => exact .parser outside c
      | handle name c outside => exact .handle outside name c
      | pending outside => exact .nothing
      | link c linked outside => exact .parser linked c
  | there x ih =>
      cases scopes with
      | share _ outside | handle _ _ outside | pending outside | link _ _ outside =>
          exact ih outside

theorem Filling.Scopes.captured {Θ : List Type} {ρ ρ' : Scope τ Γ} (scopes : filling.Scopes ρ ρ')
    (captures : Captures Γ Θ) : filling.Scopes (ρ.captured captures) (ρ'.captured captures) := by
  induction captures with
  | all => exact scopes
  | none => exact .empty
  | also x others ih => exact .link (.ref x) scopes ih

section Courses

variable {γ δ : Type 1} {pairing : Pairing τ} {label : String}

def Quiet (label : String) (log : List Event) : Prop :=
  ∀ offset, .run label offset ∉ log

theorem Quiet.before {log log' : List Event} (quiet : Quiet label log') (less : log <:+ log') :
    Quiet label log :=
  fun offset member => quiet offset (less.subset member)

/-- The second course makes the same calls, with the same log, as long as every definition is
there. -/
inductive Course.Matches (pairing : Pairing τ) (goal : γ → δ → Prop) :
    Course τ γ → Course τ δ → Prop
  | done {result result'} (reached : goal result result') :
      Matches pairing goal (.done result) (.done result')
  | call {held held' : Owners} (pair : pairing.Pair) {log : List Event} {next next'}
      (later : ∀ found found', pairing.result pair found found' →
        Matches pairing goal (next found) (next' found')) :
      Matches pairing goal (.call held (pairing.first pair) log next)
        (.call held' (pairing.second pair) log next')
  | alive {name : Name} {yes yes' no no'} (there : Matches pairing goal yes yes') :
      Matches pairing goal (.alive name yes no) (.alive name yes' no')

def Pairing.Reproduces (pairing : Pairing τ) (label : String) (fuel : Nat) : Prop :=
  ∀ pair log result, (pairing.first pair).run fuel .everybody log = some result →
    Quiet label ((pairing.first pair).logged result) →
    ∃ result', (pairing.second pair).Comes log result' ∧ pairing.result pair result result'

theorem Course.Matches.comes {fuel : Nat} (reproduces : pairing.Reproduces label fuel)
    {goal : γ → δ → Prop} {course : Course τ γ} {course' : Course τ δ}
    (matching : course.Matches pairing goal course') {logged : γ → List Event} {log : List Event}
    (grows : course.Grows logged log) {result : γ}
    (followed : course.follow (Task.run fuel) .everybody = some result)
    (quiet : Quiet label (logged result)) :
    ∃ result', course'.Comes result' ∧ goal result result' := by
  induction matching generalizing log with
  | done reached =>
      cases followed
      exact ⟨_, rfl, reached⟩
  | call pair later ih =>
      rw [Course.follow, Owners.everybody_add] at followed
      obtain ⟨found, ran, followed⟩ := Option.bind_eq_some_iff.mp followed
      have rest := (grows.2 found).follow (fun _ _ _ _ => Task.run_grows) followed
      obtain ⟨found', called, fits⟩ := reproduces pair _ found ran (quiet.before rest)
      obtain ⟨result', comes, reached⟩ := ih found found' fits (grows.2 found) followed
      exact ⟨result', ⟨found', called, comes⟩, reached⟩
  | alive there ih =>
      exact ih grows.1 (by simpa [Course.follow, Owners.everybody] using followed)

theorem Pairing.Reproduces.step {fuel : Nat} (reproduces : pairing.Reproduces label fuel)
    (pair : pairing.Pair) {log : List Event}
    (matching : ((pairing.first pair).course log).Matches pairing (pairing.result pair)
      ((pairing.second pair).course log))
    {result : (pairing.first pair).Result}
    (ran : (pairing.first pair).run (fuel + 1) .everybody log = some result)
    (quiet : Quiet label ((pairing.first pair).logged result)) :
    ∃ result', (pairing.second pair).Comes log result' ∧ pairing.result pair result result' := by
  obtain ⟨result', comes, fits⟩ := matching.comes reproduces (Task.course_grows _ log) ran quiet
  exact ⟨result', Task.comes comes, fits⟩

end Courses

theorem Filling.Pair.calls {γ δ : Type 1} {goal : γ → δ → Prop} (pair : filling.Pair)
    {held held' : Owners} {log : List Event} {next next'}
    (later : ∀ found found', pair.result found found' →
      Course.Matches filling.pairing goal (next found) (next' found')) :
    Course.Matches filling.pairing goal (.call held pair.first log next)
      (.call held' pair.second log next') :=
  @Course.Matches.call _ _ _ filling.pairing goal _ _ pair _ _ _ later

def Context.Proper : Context τ ι Δ β Γ α → Prop
  | hole _ => False
  | _ => True

section Matches

variable {ρ ρ' : Scope τ Γ} (scopes : filling.Scopes ρ ρ')
include scopes

theorem build_matches {c : Context τ ι Δ β Γ α} (proper : c.Proper) (log : List Event) :
    ((Task.build ρ (c.fill filling.first)).course log).Matches filling.pairing filling.Built
      ((Task.build ρ' (c.fill filling.second)).course log) := by
  cases c with
  | hole i => exact proper.elim
  | result v => exact .done (.built (.result v) log)
  | fail => exact .done (.built .fail log)
  | item => exact .done (.built .item log)
  | leaf parses => exact .done (.built (.leaf parses) log)
  | runs x stop extend => exact .done (.built (.runs x stop extend) log)
  | ref x => exact .done (.built (.ref x) log)
  | bind p captures f =>
      refine Filling.Pair.calls (.build scopes p) ?_
      rintro _ _ ⟨p, log⟩
      exact .done (.built (.bind p captures f) log)
  | mapM g p =>
      refine Filling.Pair.calls (.build scopes p) ?_
      rintro _ _ ⟨p, log⟩
      exact .done (.built (.mapM g p) log)
  | filterM keep p =>
      refine Filling.Pair.calls (.build scopes p) ?_
      rintro _ _ ⟨p, log⟩
      exact .done (.built (.filterM keep p) log)
  | or p r =>
      refine Filling.Pair.calls (.build scopes p) ?_
      rintro _ _ ⟨p, log⟩
      refine Filling.Pair.calls (.build scopes r) ?_
      rintro _ _ ⟨r, log⟩
      exact .done (.built (.or p r) log)
  | recursive name body =>
      refine Filling.Pair.calls (.build (.pending scopes) body) ?_
      rintro _ _ ⟨body, log⟩
      exact .done (.built (.recursive name body) log)
  | share p r =>
      refine Filling.Pair.calls (.build scopes p) ?_
      rintro _ _ ⟨p, log⟩
      refine Filling.Pair.calls (.build (.share p scopes) r) ?_
      rintro _ _ ⟨r, log⟩
      exact .done (.built (.share p r) log)
  | alone p r =>
      refine Filling.Pair.calls (.build scopes p) ?_
      rintro _ _ ⟨p, log⟩
      refine Filling.Pair.calls (.build (.link p scopes .empty) r) ?_
      rintro _ _ ⟨r, log⟩
      exact .done (.built (.alone p r) log)
  | tap label p =>
      refine Filling.Pair.calls (.build scopes p) ?_
      rintro _ _ ⟨p, log⟩
      exact .done (.built (.tap label p) log)
  | noted events p =>
      refine Filling.Pair.calls (.build scopes p) ?_
      exact fun _ _ built => .done built
  | probe p input next =>
      refine Filling.Pair.calls (.build scopes p) ?_
      rintro _ _ ⟨p, log⟩
      refine Filling.Pair.calls (.invoke scopes p input) ?_
      rintro _ _ ⟨sequences, log⟩
      refine Filling.Pair.calls (.count sequences 0) ?_
      rintro ⟨found, log⟩ _ rfl
      refine Filling.Pair.calls (.build scopes (next found)) ?_
      exact fun _ _ built => .done built

def Context.unrolled {γ : Type} (x : Var Γ α) (stop : γ) (extend : α → γ → γ) :
    Context τ ι Δ β Γ γ :=
  .or (.bind (.ref x) .all fun first => .mapM (fun rest => .silent (extend first rest))
    (.runs x stop extend)) (.result stop)

theorem invoke_matches {c : Context τ ι Δ β Γ α} (proper : c.Proper) (input : Input τ)
    (log : List Event) :
    ((Task.invoke ρ (c.fill filling.first) input).course log).Matches filling.pairing
      filling.Opened ((Task.invoke ρ' (c.fill filling.second) input).course log) := by
  cases c with
  | hole i => exact proper.elim
  | result v => exact .done (.opened (.listed _) log)
  | fail => exact .done (.opened (.listed _) log)
  | item => exact .done (.opened (.listed _) log)
  | leaf parses => exact .done (.opened (.drawn _ 0) log)
  | bind p captures f =>
      refine Filling.Pair.calls (.invoke scopes p input) ?_
      rintro _ _ ⟨inside, log⟩
      exact .done (.opened (.nested (scopes.captured captures) f inside (.listed [])) log)
  | mapM g p =>
      refine Filling.Pair.calls (.invoke scopes p input) ?_
      rintro _ _ ⟨inside, log⟩
      exact .done (.opened (.mapped g inside) log)
  | filterM keep p =>
      refine Filling.Pair.calls (.invoke scopes p input) ?_
      rintro _ _ ⟨inside, log⟩
      exact .done (.opened (.filtered keep inside) log)
  | or p r =>
      refine Filling.Pair.calls (.invoke scopes p input) ?_
      rintro _ _ ⟨inside, log⟩
      exact .done (.opened (.choosing inside scopes r input) log)
  | runs x stop extend =>
      refine Filling.Pair.calls (.invoke scopes (.unrolled x stop extend) input) ?_
      exact fun _ _ opened => .done opened
  | recursive name body =>
      refine Filling.Pair.calls (.invoke (.handle name body scopes) body input) ?_
      rintro _ _ ⟨inside, log⟩
      exact .done (.opened (.anchored scopes name body inside) log)
  | share p r =>
      refine Filling.Pair.calls (.invoke (.share p scopes) r input) ?_
      exact fun _ _ opened => .done opened
  | alone p r =>
      refine Filling.Pair.calls (.invoke (.link p scopes .empty) r input) ?_
      exact fun _ _ opened => .done opened
  | ref x =>
      have stands := scopes.get x
      simp only [Context.fill, Task.course]
      generalize ρ.get x = referent at stands ⊢
      generalize ρ'.get x = referent' at stands ⊢
      cases stands with
      | parser scopes c =>
          refine Filling.Pair.calls (.invoke scopes c input) ?_
          exact fun _ _ opened => .done opened
      | handle scopes name body =>
          refine .alive (Filling.Pair.calls (.invoke scopes (.recursive name body) input) ?_)
          exact fun _ _ opened => .done opened
      | nothing => exact .done (.opened (.listed []) log)
  | tap label p =>
      refine Filling.Pair.calls (.invoke scopes p input) ?_
      rintro _ _ ⟨inside, log⟩
      exact .done (.opened (.tapped label false inside) log)
  | noted events p =>
      refine Filling.Pair.calls (.invoke scopes p input) ?_
      exact fun _ _ opened => .done opened
  | probe p probed next =>
      refine Filling.Pair.calls (.build scopes (.probe p probed next)) ?_
      rintro _ _ ⟨p, log⟩
      refine Filling.Pair.calls (.invoke scopes p input) ?_
      exact fun _ _ opened => .done opened

end Matches

theorem pull_matches {s s' : Parses τ α} (same : filling.Sequences s s') (log : List Event) :
    ((Task.pull s).course log).Matches filling.pairing filling.Answers
      ((Task.pull s').course log) := by
  cases same with
  | listed parses =>
      cases parses with
      | nil => exact .done (.ended (.listed []) log)
      | cons parse parses => exact .done (.parse parse.1 parse.2 (.listed parses) log)
  | drawn parses index =>
      simp only [Task.course]
      cases parses index with
      | none => exact .done (.ended (.listed []) log)
      | some parse => exact .done (.parse parse.1 parse.2 (.drawn parses (index + 1)) log)
  | mapped g inside =>
      refine Filling.Pair.calls (.pull inside) ?_
      rintro _ _ (⟨v, rest, later, log⟩ | ⟨later, log⟩)
      · exact .done (.parse _ rest (.mapped g later) _)
      · exact .done (.ended (.mapped g later) log)
  | filtered keep inside =>
      refine Filling.Pair.calls (.pull inside) ?_
      rintro _ _ (⟨v, rest, later, log⟩ | ⟨later, log⟩)
      · dsimp only
        split
        · exact .done (.parse v rest (.filtered keep later) _)
        · refine Filling.Pair.calls (.pull (.filtered keep later)) ?_
          exact fun _ _ answers => .done answers
      · exact .done (.ended (.filtered keep later) log)
  | choosing inside scopes c input =>
      refine Filling.Pair.calls (.pull inside) ?_
      rintro _ _ (⟨v, rest, later, log⟩ | ⟨later, log⟩)
      · exact .done (.parse v rest (.choosing later scopes c input) log)
      · refine Filling.Pair.calls (.invoke scopes c input) ?_
        rintro _ _ ⟨second, log⟩
        refine Filling.Pair.calls (.pull (.chosen second)) ?_
        exact fun _ _ answers => .done answers
  | chosen inside =>
      refine Filling.Pair.calls (.pull inside) ?_
      rintro _ _ (⟨v, rest, later, log⟩ | ⟨later, log⟩)
      · exact .done (.parse v rest (.chosen later) log)
      · exact .done (.ended (.listed []) log)
  | nested scopes f outside inside =>
      refine Filling.Pair.calls (.pull inside) ?_
      rintro _ _ (⟨v, rest, later, log⟩ | ⟨later, log⟩)
      · exact .done (.parse v rest (.nested scopes f outside later) log)
      · refine Filling.Pair.calls (.pull outside) ?_
        rintro _ _ (⟨v, rest, left, log⟩ | ⟨left, log⟩)
        · refine Filling.Pair.calls (.build scopes (f v)) ?_
          rintro _ _ ⟨c, log⟩
          refine Filling.Pair.calls (.invoke scopes c rest) ?_
          rintro _ _ ⟨inside, log⟩
          refine Filling.Pair.calls (.pull (.nested scopes f left inside)) ?_
          exact fun _ _ answers => .done answers
        · exact .done (.ended (.listed []) log)
  | anchored scopes name c inside =>
      refine Filling.Pair.calls (.pull inside) ?_
      rintro _ _ (⟨v, rest, later, log⟩ | ⟨later, log⟩)
      · exact .done (.parse v rest (.anchored scopes name c later) log)
      · exact .done (.ended (.anchored scopes name c later) log)
  | tapped label ended inside =>
      refine Filling.Pair.calls (.pull inside) ?_
      rintro _ _ (⟨v, rest, later, log⟩ | ⟨later, log⟩)
      · exact .done (.parse v rest (.tapped label ended later) _)
      · exact .done (.ended (.tapped label true later) _)

theorem count_matches {s s' : Parses τ α} (same : filling.Sequences s s') (found : Nat)
    (log : List Event) :
    ((Task.count s found).course log).Matches filling.pairing Eq
      ((Task.count s' found).course log) := by
  refine Filling.Pair.calls (.pull same) ?_
  rintro _ _ (⟨v, rest, later, log⟩ | ⟨later, log⟩)
  · refine Filling.Pair.calls (.count later (found + 1)) ?_
    exact fun _ _ counted => .done counted
  · exact .done rfl

/-- A parser as a context without positions. -/
def Context.ofParser {Γ : List Type} {α : Type} : Parser τ Γ α → Context τ ι Δ β Γ α
  | .result v => .result v
  | .fail => .fail
  | .item => .item
  | .leaf parses => .leaf parses
  | .bind p captures f => .bind (ofParser p) captures fun v => ofParser (f v)
  | .mapM g p => .mapM g (ofParser p)
  | .filterM keep p => .filterM keep (ofParser p)
  | .or p q => .or (ofParser p) (ofParser q)
  | .runs x stop extend => .runs x stop extend
  | .recursive name body => .recursive name (ofParser body)
  | .share p q => .share (ofParser p) (ofParser q)
  | .alone p q => .alone (ofParser p) (ofParser q)
  | .ref x => .ref x
  | .tap label p => .tap label (ofParser p)
  | .noted events p => .noted events (ofParser p)
  | .probe p input next => .probe (ofParser p) input fun found => ofParser (next found)

@[simp]
theorem Context.fill_ofParser (p : Parser τ Γ α) (q : ι → Parser τ Δ β) :
    (ofParser p : Context τ ι Δ β Γ α).fill q = p := by
  induction p with
  | result v | fail | item | leaf parses | runs x stop extend | ref x => rfl
  | bind p captures f ih ihNext => simp only [ofParser, fill, ih, ihNext]
  | mapM g p ih | filterM keep p ih | recursive name p ih | tap label p ih | noted events p ih =>
      simp only [ofParser, fill, ih]
  | or p r ih ihSecond | share p r ih ihSecond | alone p r ih ihSecond =>
      simp only [ofParser, fill, ih, ihSecond]
  | probe p input next ih ihNext => simp only [ofParser, fill, ih, ihNext]

theorem Filling.Scopes.refl (ρ : Scope τ Γ) : filling.Scopes ρ ρ := by
  induction ρ with
  | empty => exact .empty
  | share p ρ ih => simpa using Scopes.share (.ofParser p) ih
  | handle name body ρ ih => simpa using Scopes.handle name (.ofParser body) ih
  | pending ρ ih => exact .pending ih
  | link σ p ρ ihLinked ih => simpa using Scopes.link (.ofParser p) ihLinked ih

end EveryParse
