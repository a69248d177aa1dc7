import EveryParse.Proofs.Alike
import EveryParse.Proofs.Eager
import EveryParse.Proofs.Exhausts

/-!
Inputs that are cut off. Main statement: if draining a parser on a buffer comes to an end, then so
does draining it on the beginning of the buffer, and it gives the parses that end there, in the same
order.

The longer run is followed step by step. What it finds behind the end of the shorter buffer, the
shorter run passes over, and all that comes of it lies there too.
-/

namespace EveryParse

variable {τ : Type} {long short : Buffer τ}

def Buffer.Begins (short long : Buffer τ) : Prop :=
  ∀ offset < short.tokens.size, long.tokens[offset]? = short.tokens[offset]?

/-- The same position in both buffers. -/
def Input.cut (long short : Buffer τ) : Likeness τ :=
  fun input input' =>
    ∃ offset ≤ short.tokens.size, input = ⟨long, offset⟩ ∧ input' = ⟨short, offset⟩

def Input.past (short : Buffer τ) : Likeness τ :=
  fun input input' => input = input' ∧ short.tokens.size < input.offset

theorem Input.readable_past : (Input.past short).Readable := by
  rintro input _ ⟨rfl, behind⟩
  simp only [Input.splitFirst]
  cases input.buffer.tokens[input.offset]? with
  | none => exact .none
  | some token => exact .some (.leaving ⟨rfl, Nat.lt_succ_of_lt behind⟩)

section Kept

variable {α : Type}

/-- The second list has the parses of the first one that end within the shorter buffer. -/
inductive Kept (long short : Buffer τ) : List (α × Input τ) → List (α × Input τ) → Prop
  | nil : Kept long short [] []
  | keep {v rest rest' parses parses'} (same : Input.cut long short rest rest')
      (later : Kept long short parses parses') :
      Kept long short ((v, rest) :: parses) ((v, rest') :: parses')
  | skip {v rest parses parses'} (behind : short.tokens.size < rest.offset)
      (later : Kept long short parses parses') : Kept long short ((v, rest) :: parses) parses'

theorem Kept.splitFirst (begins : short.Begins long) {input input' : Input τ}
    (same : Input.cut long short input input') :
    Kept long short input.splitFirst.toList input'.splitFirst.toList := by
  obtain ⟨offset, bound, rfl, rfl⟩ := same
  by_cases inside : offset < short.tokens.size
  · have token : long.tokens[offset]? = short.tokens[offset]? := begins offset inside
    simp only [Input.splitFirst, token]
    cases short.tokens[offset]? with
    | none => exact .nil
    | some token => exact .keep ⟨offset + 1, inside, rfl, rfl⟩ .nil
  · have none : short.tokens[offset]? = none := by simp; omega
    simp only [Input.splitFirst, none]
    cases long.tokens[offset]? with
    | none => exact .nil
    | some token => exact .skip (by simp; omega) .nil

theorem Kept.offsets {parses parses' : List (α × Input τ)} (kept : Kept long short parses parses') :
    parses'.map (fun parse => (parse.1, parse.2.offset)) =
      (parses.map fun parse => (parse.1, parse.2.offset)).filter
        fun found => found.2 ≤ short.tokens.size := by
  induction kept with
  | nil => rfl
  | keep same _ ih =>
      obtain ⟨offset, bound, rfl, rfl⟩ := same
      simp [bound, ih]
  | skip behind _ ih =>
      have unkept := Nat.not_le.mpr behind
      simp [unkept, ih]

end Kept

section Outside

variable {α : Type} {Γ : List Type}

/-- To the parsers from outside among the parts all inputs are the same. There may be none, and then
this holds. -/
def Parser.Oblivious (p : Parser τ Γ α) : Prop :=
  ∀ alike, p.Respects alike

def Scope.Oblivious (ρ : Scope τ Γ) : Prop :=
  ∀ alike, ρ.Respects alike

theorem Parser.Oblivious.of_build {p : Parser τ Γ α} (oblivious : p.Oblivious) {ρ : Scope τ Γ}
    {log : List Event} {built : Outcome (Parser τ Γ α)}
    (ran : (Task.build ρ p).Comes log built) : built.value.Oblivious := by
  obtain ⟨fuel, ran⟩ := ran
  rw [← (carried fuel).build] at ran
  have same := Parser.build_alike fuel .everybody ρ p log log
  rw [ran] at same
  cases same with
  | some equal => exact fun alike => equal.2 alike (oblivious alike)

def Parses.Finds (s : Parses τ α) (answer : Answer τ α) : Prop :=
  ∀ log, ∃ log', (Task.pull s).Comes log ⟨answer, log'⟩

def Parses.GoesOn (s t : Parses τ α) : Prop :=
  ∀ log, ∃ log', ∀ answer, (Task.pull t).Comes log' answer → (Task.pull s).Comes log answer

def Parser.Opens (ρ : Scope τ Γ) (p : Parser τ Γ α) (input : Input τ) (s : Parses τ α) : Prop :=
  ∀ log, ∃ log', (Task.invoke ρ p input).Comes log ⟨s, log'⟩

end Outside

/-- The second sequence has come as far on the shorter buffer as the first one on the longer. -/
inductive Parses.Cut (long short : Buffer τ) : {α : Type} → Parses τ α → Parses τ α → Prop
  | listed {α} {parses parses' : List (α × Input τ)} (kept : Kept long short parses parses') :
      Cut long short (.listed parses) (.listed parses')
  | drawn {α} {parses parses' : Nat → Option (α × Input τ)} {index}
      (same : ∀ n, Option.Rel (Input.cut long short).Parse (parses n) (parses' n)) :
      Cut long short (.drawn parses index) (.drawn parses' index)
  | mapped {α β} {g : α → Logged β} {s s'} (inside : Cut long short s s') :
      Cut long short (.mapped g s) (.mapped g s')
  | filtered {α} {keep : α → Logged Bool} {s s'} (inside : Cut long short s s') :
      Cut long short (.filtered keep s) (.filtered keep s')
  | choosing {Γ α} {ρ : Scope τ Γ} {q : Parser τ Γ α} {s s' input input'}
      (inside : Cut long short s s') (scope : ρ.Oblivious) (parser : q.Oblivious)
      (start : Input.cut long short input input') :
      Cut long short (.choosing s ρ q input) (.choosing s' ρ q input')
  | chosen {α} {s s' : Parses τ α} (inside : Cut long short s s') :
      Cut long short (.chosen s) (.chosen s')
  | nested {Γ α β} {ρ : Scope τ Γ} {f : α → Parser τ Γ β} {outer outer' inner inner'}
      (scope : ρ.Oblivious) (next : ∀ v, (f v).Oblivious) (outside : Cut long short outer outer')
      (inside : Cut long short inner inner') :
      Cut long short (.nested ρ f outer inner) (.nested ρ f outer' inner')
  -- The longer run is inside of a parse that the shorter one never sees.
  | beyond {Γ α β} {ρ : Scope τ Γ} {f : α → Parser τ Γ β} {outer outer' inner inner'}
      (scope : ρ.Oblivious) (next : ∀ v, (f v).Oblivious) (outside : Cut long short outer outer')
      (inside : inner.Alike (Input.past short) inner) (ended : inner'.Drains []) :
      Cut long short (.nested ρ f outer inner) (.nested ρ f outer' inner')
  | anchored {Γ α} {ρ : Scope τ Γ} {name} {body : Parser τ (α :: Γ) α} {s s'}
      (inside : Cut long short s s') :
      Cut long short (.anchored ρ name body s) (.anchored ρ name body s')
  | tapped {α} {label ended} {s s' : Parses τ α} (inside : Cut long short s s') :
      Cut long short (.tapped label ended s) (.tapped label ended s')
  -- The shorter run has not yet got where it goes by itself.
  | behind {α} {s t s' : Parses τ α} (goes : s'.GoesOn t) (same : Cut long short s t) :
      Cut long short s s'

variable {α β : Type} {Γ : List Type}

inductive Answer.Cut (long short : Buffer τ) : Answer τ α → Parses τ α → Prop
  | found {v rest rest' left s' left'} (kept : Input.cut long short rest rest')
      (finds : s'.Finds (.parse v rest' left')) (later : left.Cut long short left') :
      Cut long short (.parse v rest left) s'
  | skipped {v rest left s'} (behind : short.tokens.size < rest.offset)
      (later : left.Cut long short s') : Cut long short (.parse v rest left) s'
  | ended {left s'} (drained : s'.Drains []) : Cut long short (.ended left) s'

theorem Answer.Cut.of_later {answer : Answer τ α} {s t : Parses τ α} (goes : s.GoesOn t)
    (cut : answer.Cut long short t) : answer.Cut long short s := by
  cases cut with
  | found kept finds later =>
      refine .found kept (fun log => ?_) later
      obtain ⟨log', same⟩ := goes log
      obtain ⟨log'', found⟩ := finds log'
      exact ⟨log'', same _ found⟩
  | skipped behind later => exact .skipped behind (.behind goes later)
  | ended drained =>
      refine .ended (.of_later fun log => ?_)
      obtain ⟨log', same⟩ := goes log
      exact ⟨t, log', drained, same⟩

def Course.ComesWith {β : Type 1} (fuel : Nat) (result : β) : Course τ β → Prop
  | done found => found = result
  | call _ task log next =>
    ∃ found, task.run fuel .everybody log = some found ∧ (next found).ComesWith fuel result
  | alive _ yes _ => yes.ComesWith fuel result

theorem Task.comesWith {fuel : Nat} {task : Task τ} {log : List Event} {result : task.Result}
    (ran : task.run (fuel + 1) .everybody log = some result) :
    (task.course log).ComesWith fuel result := by
  have followed {course : Course τ task.Result}
      (ran : course.follow (Task.run fuel) .everybody = some result) :
      course.ComesWith fuel result := by
    induction course with
    | done found => exact Option.some.inj ran
    | call held task log next ih =>
        rw [Course.follow, Owners.everybody_add] at ran
        obtain ⟨found, called, ran⟩ := Option.bind_eq_some_iff.mp ran
        exact ⟨found, called, ih found ran⟩
    | alive name yes no ihYes _ =>
        exact ihYes (by simpa [Course.follow, Owners.everybody] using ran)
  exact followed ran

structure KeepsUp (long short : Buffer τ) (fuel : Nat) : Prop where
  invoke {Γ : List Type} {α : Type} {ρ : Scope τ Γ} {p : Parser τ Γ α} (scope : ρ.Oblivious)
    (parser : p.Oblivious) {input input'} (start : Input.cut long short input input') {log opened}
    (ran : (Task.invoke ρ p input).run fuel .everybody log = some opened) :
    ∃ s, p.Opens ρ input' s ∧ opened.value.Cut long short s
  pull {α : Type} {s s' : Parses τ α} (same : s.Cut long short s') {log answer}
    (ran : (Task.pull s).run fuel .everybody log = some answer) :
    answer.value.Cut long short s'

section KeepsUp

variable {fuel : Nat}

theorem Parses.Cut.empty : (Parses.empty : Parses τ α).Cut long short .empty :=
  .listed .nil

theorem Scope.Oblivious.get {ρ : Scope τ Γ} (scope : ρ.Oblivious) (x : Var Γ α) :
    match ρ.get x with
    | .parser σ p => σ.Oblivious ∧ p.Oblivious
    | .handle _ body σ => body.Oblivious ∧ σ.Oblivious
    | .nothing => True := by
  have stands alike := (scope alike).get x
  cases found : ρ.get x with
  | parser σ p | handle name body σ =>
      simp only [found] at stands
      exact ⟨fun alike => (stands alike).1, fun alike => (stands alike).2⟩
  | nothing => trivial

theorem Parser.Opens.of_invoke {Δ : List Type} {ρ : Scope τ Γ} {p : Parser τ Γ α} {input : Input τ}
    {s : Parses τ α} (opens : p.Opens ρ input s) {σ : Scope τ Δ} {q : Parser τ Δ β}
    (wrap : Parses τ α → Parses τ β)
    (invokes : ∀ log, ∃ start, ∀ log', (Task.invoke ρ p input).Comes start ⟨s, log'⟩ →
      (Task.invoke σ q input).Comes log ⟨wrap s, log'⟩) : q.Opens σ input (wrap s) := by
  intro log
  obtain ⟨start, same⟩ := invokes log
  obtain ⟨log', opened⟩ := opens start
  exact ⟨log', same log' opened⟩

theorem KeepsUp.invoke_succ (begins : short.Begins long) (keepsUp : KeepsUp long short fuel)
    {ρ : Scope τ Γ} {p : Parser τ Γ α} (scope : ρ.Oblivious) (parser : p.Oblivious)
    {input input' : Input τ} (start : Input.cut long short input input') {log opened}
    (ran : (Task.invoke ρ p input).run (fuel + 1) .everybody log = some opened) :
    ∃ s, p.Opens ρ input' s ∧ opened.value.Cut long short s := by
  replace ran := Task.comesWith ran
  cases p with
  | result v =>
      cases ran
      exact ⟨_, fun log => ⟨log, Task.comes rfl⟩, .listed (.keep start .nil)⟩
  | fail =>
      cases ran
      exact ⟨_, fun log => ⟨log, Task.comes rfl⟩, .empty⟩
  | item =>
      cases ran
      exact ⟨_, fun log => ⟨log, Task.comes rfl⟩, .listed (.splitFirst begins start)⟩
  | leaf parses =>
      cases ran
      exact ⟨_, fun log => ⟨log, Task.comes rfl⟩, .drawn (parser _ _ _ start)⟩
  | bind p captures f =>
      have first : p.Oblivious := fun alike => (parser alike).1
      have next v : (f v).Oblivious := fun alike => (parser alike).2 v
      obtain ⟨_, ran, rfl⟩ := ran
      obtain ⟨s, opens, cut⟩ := keepsUp.invoke scope first start ran
      have known : (ρ.captured captures).Oblivious := fun alike => (scope alike).captured captures
      refine ⟨_, opens.of_invoke (.nested (ρ.captured captures) f · .empty) fun log =>
        ⟨log, fun _ opened => ?_⟩, .nested known next cut .empty⟩
      exact Task.comes ⟨_, opened, rfl⟩
  | mapM g p =>
      have first : p.Oblivious := parser
      obtain ⟨_, ran, rfl⟩ := ran
      obtain ⟨s, opens, cut⟩ := keepsUp.invoke scope first start ran
      refine ⟨_, opens.of_invoke (.mapped g) fun log => ⟨log, fun _ opened => ?_⟩, .mapped cut⟩
      exact Task.comes ⟨_, opened, rfl⟩
  | filterM keep p =>
      have first : p.Oblivious := parser
      obtain ⟨_, ran, rfl⟩ := ran
      obtain ⟨s, opens, cut⟩ := keepsUp.invoke scope first start ran
      refine ⟨_, opens.of_invoke (.filtered keep) fun log => ⟨log, fun _ opened => ?_⟩,
        .filtered cut⟩
      exact Task.comes ⟨_, opened, rfl⟩
  | or p q =>
      have first : p.Oblivious := fun alike => (parser alike).1
      have second : q.Oblivious := fun alike => (parser alike).2
      obtain ⟨_, ran, rfl⟩ := ran
      obtain ⟨s, opens, cut⟩ := keepsUp.invoke scope first start ran
      refine ⟨_, opens.of_invoke (.choosing · ρ q input') fun log => ⟨log, fun _ opened => ?_⟩,
        .choosing cut scope second start⟩
      exact Task.comes ⟨_, opened, rfl⟩
  | runs x stop extend =>
      have unrolled : (Parser.unrolled x stop extend : Parser τ Γ _).Oblivious := by
        intro alike
        simp [Parser.unrolled, Parser.map, Parser.Respects]
      obtain ⟨_, ran, rfl⟩ := ran
      obtain ⟨s, opens, cut⟩ := keepsUp.invoke scope unrolled start ran
      refine ⟨s, opens.of_invoke id fun log => ⟨log, fun _ opened => ?_⟩, cut⟩
      exact Task.comes ⟨_, opened, rfl⟩
  | recursive name body =>
      have inside : (Scope.handle name body ρ).Oblivious := fun alike => ⟨parser alike, scope alike⟩
      have body : body.Oblivious := parser
      obtain ⟨_, ran, rfl⟩ := ran
      obtain ⟨s, opens, cut⟩ := keepsUp.invoke inside body start ran
      refine ⟨_, opens.of_invoke (.anchored ρ name _) fun log => ⟨log, fun _ opened => ?_⟩,
        .anchored cut⟩
      exact Task.comes ⟨_, opened, rfl⟩
  | share p q =>
      have inside : (Scope.share p ρ).Oblivious := fun alike => ⟨(parser alike).1, scope alike⟩
      have second : q.Oblivious := fun alike => (parser alike).2
      obtain ⟨_, ran, rfl⟩ := ran
      obtain ⟨s, opens, cut⟩ := keepsUp.invoke inside second start ran
      refine ⟨s, opens.of_invoke id fun log => ⟨log, fun _ opened => ?_⟩, cut⟩
      exact Task.comes ⟨_, opened, rfl⟩
  | alone p q =>
      have inside : (Scope.link ρ p .empty).Oblivious :=
        fun alike => ⟨⟨scope alike, (parser alike).1⟩, trivial⟩
      have second : q.Oblivious := fun alike => (parser alike).2
      obtain ⟨_, ran, rfl⟩ := ran
      obtain ⟨s, opens, cut⟩ := keepsUp.invoke inside second start ran
      refine ⟨s, opens.of_invoke id fun log => ⟨log, fun _ opened => ?_⟩, cut⟩
      exact Task.comes ⟨_, opened, rfl⟩
  | ref x =>
      have stands := scope.get x
      simp only [Task.course] at ran
      cases found : ρ.get x with
      | parser σ p =>
          simp only [found] at stands ran
          obtain ⟨_, ran, rfl⟩ := ran
          obtain ⟨s, opens, cut⟩ := keepsUp.invoke stands.1 stands.2 start ran
          refine ⟨s, opens.of_invoke id fun log => ⟨log, fun _ opened => Task.comes ?_⟩, cut⟩
          simp only [Task.course, found]
          exact ⟨_, opened, rfl⟩
      | handle name body σ =>
          simp only [found] at stands ran
          have definition : (Parser.recursive name body).Oblivious := stands.1
          obtain ⟨_, ran, rfl⟩ := ran
          obtain ⟨s, opens, cut⟩ := keepsUp.invoke stands.2 definition start ran
          refine ⟨s, opens.of_invoke id fun log => ⟨log, fun _ opened => Task.comes ?_⟩, cut⟩
          simp only [Task.course, found]
          exact ⟨_, opened, rfl⟩
      | nothing =>
          simp only [found] at ran
          cases ran
          refine ⟨.empty, fun log => ⟨log, Task.comes ?_⟩, .empty⟩
          simp only [Task.course, found]
          rfl
  | tap label p =>
      have first : p.Oblivious := parser
      obtain ⟨_, ran, rfl⟩ := ran
      obtain ⟨s, opens, cut⟩ := keepsUp.invoke scope first start ran
      refine ⟨_, opens.of_invoke (.tapped label false) fun log =>
        ⟨.run label input'.offset :: log, fun _ opened => ?_⟩, .tapped cut⟩
      exact Task.comes ⟨_, opened, rfl⟩
  | noted events p =>
      have first : p.Oblivious := parser
      obtain ⟨_, ran, rfl⟩ := ran
      obtain ⟨s, opens, cut⟩ := keepsUp.invoke scope first start ran
      refine ⟨s, opens.of_invoke id fun log =>
        ⟨events.reverseAux log, fun _ opened => ?_⟩, cut⟩
      exact Task.comes ⟨_, opened, rfl⟩
  | probe p probed next =>
      obtain ⟨p', build, _, ran, rfl⟩ := ran
      have built : (Task.build ρ (Parser.probe p probed next)).Comes log p' := ⟨fuel, build⟩
      obtain ⟨s, opens, cut⟩ := keepsUp.invoke scope (parser.of_build built) start ran
      refine ⟨s, fun log => ?_, cut⟩
      obtain ⟨log', built⟩ := build_at_any_log built log
      obtain ⟨log'', opened⟩ := opens log'
      exact ⟨log'', Task.comes ⟨_, built, _, opened, rfl⟩⟩

theorem Parses.Drains.tapped {s : Parses τ α} (label : String) (ended : Bool)
    (drained : s.Drains []) : (Parses.tapped label ended s).Drains [] := by
  intro log
  obtain ⟨left, log', found, spent⟩ := drained log
  exact ⟨.tapped label true left, _, Task.comes ⟨_, found, rfl⟩, spent⟩

theorem Parses.Finds.of_pull {s : Parses τ α} {answer : Answer τ α} (finds : s.Finds answer)
    {t : Parses τ β} {answer' : Answer τ β}
    (pulls : ∀ log log', (Task.pull s).Comes log ⟨answer, log'⟩ →
      ∃ log'', (Task.pull t).Comes log ⟨answer', log''⟩) : t.Finds answer' := by
  intro log
  obtain ⟨log', found⟩ := finds log
  exact pulls log log' found

inductive OuterRun (ρ : Scope τ Γ) (f : α → Parser τ Γ β) (fuel : Nat) (outer : Parses τ α)
    (log : List Event) : Outcome (Answer τ β) → Prop
  | ended {left log'}
      (pulled : (Task.pull outer).run fuel .everybody log = some ⟨.ended left, log'⟩) :
      OuterRun ρ f fuel outer log ⟨.ended .empty, log'⟩
  | next {v rest left log' p opened answer}
      (pulled : (Task.pull outer).run fuel .everybody log = some ⟨.parse v rest left, log'⟩)
      (built : (Task.build ρ (f v)).run fuel .everybody log' = some p)
      (invoked : (Task.invoke ρ p.value rest).run fuel .everybody p.log = some opened)
      (later : (Task.pull (.nested ρ f left opened.value)).run fuel .everybody opened.log =
        some answer) :
      OuterRun ρ f fuel outer log answer

theorem nested_comesWith {ρ : Scope τ Γ} {f : α → Parser τ Γ β} {outer : Parses τ α}
    {inner : Parses τ β} {log answer}
    (ran : ((Task.pull (.nested ρ f outer inner)).course log).ComesWith fuel answer) :
    ∃ reply, (Task.pull inner).run fuel .everybody log = some reply ∧
      match reply with
      | ⟨.parse v rest left, log'⟩ => answer = ⟨.parse v rest (.nested ρ f outer left), log'⟩
      | ⟨.ended _, log'⟩ => OuterRun ρ f fuel outer log' answer := by
  obtain ⟨⟨⟨v, rest, left⟩ | left, log₁⟩, inside, ran⟩ := ran
  · exact ⟨_, inside, ran.symm⟩
  obtain ⟨⟨⟨v, rest, left⟩ | left, log₂⟩, outside, ran⟩ := ran
  · obtain ⟨p, built, opened, invoked, _, later, rfl⟩ := ran
    exact ⟨_, inside, .next outside built invoked later⟩
  · cases ran
    exact ⟨_, inside, .ended outside⟩

theorem KeepsUp.outside (keepsUp : KeepsUp long short fuel) {ρ : Scope τ Γ} {f : α → Parser τ Γ β}
    (scope : ρ.Oblivious) (next : ∀ v, (f v).Oblivious) {outer outer' : Parses τ α}
    (cut : outer.Cut long short outer') {inner' : Parses τ β} (drained : inner'.Drains [])
    {log answer} (ran : OuterRun ρ f fuel outer log answer) :
    answer.value.Cut long short (.nested ρ f outer' inner') := by
  cases ran with
  | ended pulled =>
      cases keepsUp.pull cut pulled with
      | ended drainedOuter =>
          have none : (Parses.nested ρ f _ inner').Drains ([] ++ [].flatMap fun _ => []) :=
            drainedOuter.nested (by simp) (by simp) drained
          exact .ended none
  | @next v rest left log' p opened _ pulled built invoked later =>
      have built : (Task.build ρ (f v)).Comes log' p := ⟨fuel, built⟩
      have oblivious : p.value.Oblivious := (next v).of_build built
      cases keepsUp.pull cut pulled with
      | @found _ _ rest' _ _ left' kept finds cutLeft =>
          obtain ⟨inner, opens, cutInner⟩ := keepsUp.invoke scope oblivious kept invoked
          have goes : (Parses.nested ρ f outer' inner').GoesOn (.nested ρ f left' inner) := by
            intro log
            obtain ⟨_, log₁, ends, _⟩ := drained log
            obtain ⟨log₂, found⟩ := finds log₁
            obtain ⟨log₃, built⟩ := build_at_any_log built log₂
            obtain ⟨log₄, opened⟩ := opens log₃
            refine ⟨log₄, fun answer pulled => ?_⟩
            exact Task.comes ⟨_, ends, _, found, _, built, _, opened, _, pulled, rfl⟩
          exact .of_later goes (keepsUp.pull (.nested scope next cutLeft cutInner) later)
      | skipped behind cutLeft =>
          -- The shorter run is not to see anything of what is opened here.
          have opens := Parser.invoke_alike Input.readable_past fuel .everybody
            ⟨scope _, oblivious _⟩ (⟨rfl, behind⟩ : Input.past short rest rest) p.log p.log
          rw [(carried fuel).invoke, invoked] at opens
          cases opens with
          | some inside =>
              exact keepsUp.pull (.beyond scope next cutLeft inside drained) later

theorem KeepsUp.pull_succ (keepsUp : KeepsUp long short fuel) {s s' : Parses τ α}
    (same : s.Cut long short s') {log answer}
    (ran : (Task.pull s).run (fuel + 1) .everybody log = some answer) :
    answer.value.Cut long short s' := by
  replace ran := Task.comesWith ran
  induction same with
  | listed kept =>
      cases kept with
      | nil =>
          cases ran
          exact .ended (.listed [])
      | keep same later =>
          cases ran
          exact .found same (fun log => ⟨log, Task.comes rfl⟩) (.listed later)
      | skip behind later =>
          cases ran
          exact .skipped behind (.listed later)
  | @drawn _ parses parses' index same =>
      have fits := same index
      simp only [Task.course] at ran
      generalize parses index = found at fits ran
      generalize stands : parses' index = found' at fits
      cases fits with
      | none =>
          cases ran
          refine .ended fun log => ⟨.empty, log, Task.comes ?_, rfl⟩
          simp only [Task.course, stands]
          rfl
      | some fits =>
          cases fits with
          | leaving kept =>
              cases ran
              refine .found kept (fun log => ⟨log, Task.comes ?_⟩) (.drawn same)
              simp only [Task.course, stands]
              rfl
  | @mapped _ _ g s s' inside _ =>
      obtain ⟨⟨reply, log₁⟩, pulled, ran⟩ := ran
      cases keepsUp.pull inside pulled with
      | @found v _ _ _ _ _ kept finds later =>
          cases ran
          refine .found kept (finds.of_pull fun _ log' found => ⟨(g v).onto log', ?_⟩)
            (.mapped later)
          exact Task.comes ⟨_, found, rfl⟩
      | skipped behind later =>
          cases ran
          exact .skipped behind (.mapped later)
      | ended drained =>
          cases ran
          exact .ended (drained.mapped g)
  | @filtered _ keep s s' inside _ =>
      obtain ⟨⟨reply, log₁⟩, pulled, ran⟩ := ran
      cases keepsUp.pull inside pulled with
      | @found v _ _ left _ left' kept finds later =>
          by_cases passes : (keep v).value = true
          · simp only [passes, ↓reduceIte] at ran
            cases ran
            refine .found kept (finds.of_pull fun _ log' found => ⟨(keep v).onto log', ?_⟩)
              (.filtered later)
            refine Task.comes ⟨_, found, ?_⟩
            simp [passes, Course.Comes]
          · simp only [passes] at ran
            obtain ⟨_, ran, rfl⟩ := ran
            have goes : (Parses.filtered keep s').GoesOn (.filtered keep left') := by
              intro log
              obtain ⟨log', found⟩ := finds log
              refine ⟨(keep v).onto log', fun answer pulled => Task.comes ⟨_, found, ?_⟩⟩
              simpa [passes, Course.Comes] using pulled
            exact .of_later goes (keepsUp.pull (.filtered later) ran)
      | @skipped v _ left _ behind later =>
          by_cases passes : (keep v).value = true
          · simp only [passes, ↓reduceIte] at ran
            cases ran
            exact .skipped behind (.filtered later)
          · simp only [passes] at ran
            obtain ⟨_, ran, rfl⟩ := ran
            exact keepsUp.pull (.filtered later) ran
      | ended drained =>
          cases ran
          exact .ended (drained.filtered keep)
  | @choosing _ _ ρ q s s' input input' inside scope parser start _ =>
      obtain ⟨⟨reply, log₁⟩, pulled, ran⟩ := ran
      cases keepsUp.pull inside pulled with
      | found kept finds later =>
          cases ran
          refine .found kept (finds.of_pull fun _ log' found => ⟨log', ?_⟩)
            (.choosing later scope parser start)
          exact Task.comes ⟨_, found, rfl⟩
      | skipped behind later =>
          cases ran
          exact .skipped behind (.choosing later scope parser start)
      | ended drained =>
          obtain ⟨opened, invoked, _, ran, rfl⟩ := ran
          obtain ⟨second, opens, cut⟩ := keepsUp.invoke scope parser start invoked
          have goes : (Parses.choosing s' ρ q input').GoesOn (.chosen second) := by
            intro log
            obtain ⟨_, log₁, ends, _⟩ := drained log
            obtain ⟨log₂, opened⟩ := opens log₁
            exact ⟨log₂, fun answer pulled => Task.comes ⟨_, ends, _, opened, _, pulled, rfl⟩⟩
          exact .of_later goes (keepsUp.pull (.chosen cut) ran)
  | chosen inside _ =>
      obtain ⟨⟨reply, log₁⟩, pulled, ran⟩ := ran
      cases keepsUp.pull inside pulled with
      | found kept finds later =>
          cases ran
          refine .found kept (finds.of_pull fun _ log' found => ⟨log', ?_⟩) (.chosen later)
          exact Task.comes ⟨_, found, rfl⟩
      | skipped behind later =>
          cases ran
          exact .skipped behind (.chosen later)
      | ended drained =>
          cases ran
          exact .ended drained.chosen
  | nested scope next outside inside _ _ =>
      obtain ⟨⟨reply, log₁⟩, pulled, ran⟩ := nested_comesWith ran
      cases keepsUp.pull inside pulled with
      | found kept finds later =>
          cases ran
          refine .found kept (finds.of_pull fun _ log' found => ⟨log', ?_⟩)
            (.nested scope next outside later)
          exact Task.comes ⟨_, found, rfl⟩
      | skipped behind later =>
          cases ran
          exact .skipped behind (.nested scope next outside later)
      | ended drained => exact keepsUp.outside scope next outside drained ran
  | @beyond _ _ _ ρ f outer outer' inner inner' scope next outside inside drained _ =>
      obtain ⟨⟨reply, log₁⟩, pulled, ran⟩ := nested_comesWith ran
      have past := inside.pull Input.readable_past fuel .everybody log log
      rw [(carried fuel).pull, pulled] at past
      cases past with
      | some past =>
          cases past with
          | parse behind later =>
              cases ran
              exact .skipped behind.2 (.beyond scope next outside later drained)
          | ended _ => exact keepsUp.outside scope next outside drained ran
  | @anchored _ _ ρ name body s s' inside _ =>
      obtain ⟨⟨reply, log₁⟩, pulled, ran⟩ := ran
      cases keepsUp.pull inside pulled with
      | found kept finds later =>
          cases ran
          refine .found kept (finds.of_pull fun _ log' found => ⟨log', ?_⟩) (.anchored later)
          exact Task.comes ⟨_, found, rfl⟩
      | skipped behind later =>
          cases ran
          exact .skipped behind (.anchored later)
      | ended drained =>
          cases ran
          exact .ended (drained.anchored name body)
  | @tapped _ label ended s s' inside _ =>
      obtain ⟨⟨reply, log₁⟩, pulled, ran⟩ := ran
      cases keepsUp.pull inside pulled with
      | @found _ _ rest' _ _ _ kept finds later =>
          cases ran
          refine .found kept
            (finds.of_pull fun _ log' found => ⟨.yield label rest'.offset :: log', ?_⟩)
            (.tapped later)
          exact Task.comes ⟨_, found, rfl⟩
      | skipped behind later =>
          cases ran
          exact .skipped behind (.tapped later)
      | ended drained =>
          cases ran
          exact .ended (drained.tapped label ended)
  | behind goes _ ih => exact .of_later goes (ih ran)

theorem keepsUp (begins : short.Begins long) (fuel : Nat) : KeepsUp long short fuel := by
  induction fuel with
  | zero =>
      constructor
      · intro _ _ _ _ _ _ _ _ _ _ _ ran
        simp [Task.run] at ran
      · intro _ _ _ _ _ _ ran
        simp [Task.run] at ran
  | succ fuel ih => exact ⟨ih.invoke_succ begins, ih.pull_succ⟩

end KeepsUp

theorem Parses.Cut.drains (begins : short.Begins long) {s s' : Parses τ α}
    (cut : s.Cut long short s') {parses : List (α × Input τ)} (drains : s.Drains parses) :
    ∃ parses', s'.Drains parses' ∧ Kept long short parses parses' := by
  induction parses generalizing s s' with
  | nil =>
      obtain ⟨left, log, ⟨fuel, ran⟩, _⟩ := drains []
      cases (keepsUp begins fuel).pull cut ran with
      | ended drained => exact ⟨[], drained, .nil⟩
  | cons parse parses ih =>
      obtain ⟨left, log, ⟨fuel, ran⟩, later⟩ := drains []
      cases (keepsUp begins fuel).pull cut ran with
      | @found _ _ rest' _ _ left' same finds cutLeft =>
          obtain ⟨parses', drains', kept⟩ := ih cutLeft later
          refine ⟨(parse.1, rest') :: parses', fun log => ?_, .keep same kept⟩
          obtain ⟨log', found⟩ := finds log
          exact ⟨left', log', found, drains'⟩
      | skipped behind cutLeft =>
          obtain ⟨parses', drains', kept⟩ := ih cutLeft later
          exact ⟨parses', drains', .skip behind kept⟩

theorem Parser.Drains.cut (begins : short.Begins long) {ρ : Scope τ Γ} {p : Parser τ Γ α}
    (scope : ρ.Oblivious) (parser : p.Oblivious) {input input' : Input τ}
    (start : Input.cut long short input input') {parses : List (α × Input τ)}
    (drains : p.Drains ρ input parses) :
    ∃ parses', p.Drains ρ input' parses' ∧ Kept long short parses parses' := by
  obtain ⟨s, log, ⟨fuel, ran⟩, drains⟩ := drains []
  obtain ⟨s', opens, cut⟩ := (keepsUp begins fuel).invoke scope parser start ran
  obtain ⟨parses', drains', kept⟩ := cut.drains begins drains
  refine ⟨parses', fun log => ?_, kept⟩
  obtain ⟨log', opened⟩ := opens log
  exact ⟨s', log', opened, drains'⟩

theorem Buffer.begins_append (serial serial' : Nat) (tokens more : List τ) :
    (⟨serial, tokens.toArray⟩ : Buffer τ).Begins ⟨serial', (tokens ++ more).toArray⟩ := by
  intro offset inside
  simp at inside ⊢
  simp [List.getElem?_append_left inside]

/-- If draining a parser on `tokens ++ more` comes to an end, then so does draining it on `tokens`
alone, and it gives the parses that end within `tokens`, in the same order and as many times. No
parser from outside that is part of it may look at its input. -/
theorem drains_cut_off (c : Closure τ α) (closed : c.scope.Closed)
    (scope : c.scope.Oblivious) (parser : c.parser.Oblivious) (live : Owners)
    (serial serial' : Nat) (tokens more : List τ) (start : Nat) (inside : start ≤ tokens.length)
    {found : List (α × Nat)}
    (drains : c.Exhausts live ⟨⟨serial, (tokens ++ more).toArray⟩, start⟩ found) :
    c.Exhausts live ⟨⟨serial', tokens.toArray⟩, start⟩
      (found.filter fun parse => parse.2 ≤ tokens.length) := by
  have begins := Buffer.begins_append serial' serial tokens more
  obtain ⟨parses, drained, rfl⟩ := (Closure.exhausts_iff closed).mp drains
  obtain ⟨parses', drained', kept⟩ := drained.cut begins scope parser ⟨start, by simpa, rfl, rfl⟩
  refine (Closure.exhausts_iff closed).mpr ⟨parses', drained', ?_⟩
  simpa using kept.offsets

theorem lengths_cut_off :
    let c : Closure Char Nat := ⟨.empty, lengths⟩
    let found : List (Nat × Nat) := [(2, 3), (1, 2), (0, 1), (2, 3), (1, 2), (0, 1)]
    (c.scope.Closed ∧ c.scope.Oblivious ∧ c.parser.Oblivious ∧ 1 ≤ ['(', 'a'].length ∧
      c.Exhausts .nobody ⟨⟨0, #['(', 'a', 'b']⟩, 1⟩ found) ∧
      c.Exhausts .nobody ⟨⟨1, #['(', 'a']⟩, 1⟩
        (found.filter fun parse => parse.2 ≤ ['(', 'a'].length) := by
  intro c found
  have scope : c.scope.Oblivious := fun _ => trivial
  have parser : c.parser.Oblivious := by
    intro alike
    simp [c, lengths, tally, Parser.many, Parser.sat, Parser.filter, Parser.map, Parser.Respects]
  have drains : c.Exhausts .nobody ⟨⟨0, #['(', 'a', 'b']⟩, 1⟩ found :=
    ⟨30, 7, _, rfl, rfl, rfl⟩
  refine ⟨⟨trivial, scope, parser, by decide, drains⟩, ?_⟩
  exact drains_cut_off c trivial scope parser .nobody 0 1 ['(', 'a'] ['b'] 1 (by decide) drains

end EveryParse
