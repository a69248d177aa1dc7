import EveryParse.Proofs.Returns
import EveryParse.Proofs.Spine

/-!
What an invocation does, down to every call that is made in it. Main statement: invoking a parser
that is not left recursive invokes the parsers on its spine, each once and on the same input, and
calls nothing else.
-/

namespace EveryParse

variable {τ : Type} {α : Type} {Γ : List Type}

/-- Following the course comes to the result, and these are all the calls on the way. Each call is
followed by the calls that are made inside it. -/
inductive Course.Trail :
    Owners → {β : Type 1} → Course τ β → β → List (Task τ) → Prop
  | done {live} {β : Type 1} (result : β) : Trail live (.done result) result []
  | call {live held task log} {β : Type 1} {next : task.Result → Course τ β}
      {found result inside calls} (called : Trail (live.add held) (task.course log) found inside)
      (later : Trail live (next found) result calls) :
      Trail live (.call held task log next) result (task :: inside ++ calls)
  | there {live name} {β : Type 1} {yes no : Course τ β} {result calls} (alive : live name = true)
      (later : Trail live yes result calls) : Trail live (.alive name yes no) result calls
  | gone {live name} {β : Type 1} {yes no : Course τ β} {result calls} (gone : live name = false)
      (later : Trail live no result calls) : Trail live (.alive name yes no) result calls

/-- The task comes to the result, and with it these are all the calls that are made. -/
def Task.Trail (live : Owners) (task : Task τ) (log : List Event) (result : task.Result)
    (calls : List (Task τ)) : Prop :=
  ∃ inside, (task.course log).Trail live result inside ∧ task :: inside = calls

variable {live : Owners}

theorem Course.Trail.returns {β : Type 1} {course : Course τ β} {result : β}
    {calls : List (Task τ)} (trail : course.Trail live result calls) :
    course.Returns live result := by
  induction trail with
  | done result => rfl
  | call _ _ ihCalled ih => exact ⟨_, Task.returns ihCalled, ih⟩
  | there alive _ ih => simpa [Course.Returns, alive] using ih
  | gone gone _ ih => simpa [Course.Returns, gone] using ih

theorem Task.Trail.returns {task : Task τ} {log : List Event} {result : task.Result}
    {calls : List (Task τ)} (trail : task.Trail live log result calls) :
    task.Returns live log result := by
  obtain ⟨inside, trail, _⟩ := trail
  exact Task.returns (Course.Trail.returns trail)

theorem Course.Trail.unique {β : Type 1} {course : Course τ β} {result result' : β}
    {calls calls' : List (Task τ)} (first : course.Trail live result calls)
    (second : course.Trail live result' calls') : result = result' ∧ calls = calls' := by
  induction first generalizing calls' with
  | done result =>
      cases second
      exact ⟨rfl, rfl⟩
  | call _ _ ihCalled ih =>
      cases second with
      | call called later =>
          obtain ⟨rfl, rfl⟩ := ihCalled called
          obtain ⟨rfl, rfl⟩ := ih later
          exact ⟨rfl, rfl⟩
  | there alive _ ih =>
      cases second with
      | there _ later => exact ih later
      | gone gone => simp [alive] at gone
  | gone gone _ ih =>
      cases second with
      | there alive => simp [alive] at gone
      | gone _ later => exact ih later

theorem Task.Trail.unique {task : Task τ} {log : List Event} {result result' : task.Result}
    {calls calls' : List (Task τ)} (first : task.Trail live log result calls)
    (second : task.Trail live log result' calls') : result = result' ∧ calls = calls' := by
  obtain ⟨inside, trail, rfl⟩ := first
  obtain ⟨inside', trail', rfl⟩ := second
  obtain ⟨rfl, rfl⟩ := Course.Trail.unique trail trail'
  exact ⟨rfl, rfl⟩

theorem Course.Trail.last {β : Type 1} {held : Owners} {task : Task τ} {log : List Event}
    {next : task.Result → Course τ β} {found : task.Result} {result : β} {inside : List (Task τ)}
    (called : (task.course log).Trail (live.add held) found inside)
    (later : (next found).Trail live result []) :
    (Course.call held task log next).Trail live result (task :: inside) := by
  simpa using call called later

/-- There is nothing left to note and nothing to probe, except in continuations. -/
def Parser.Built {Γ : List Type} {α : Type} : Parser τ Γ α → Prop
  | result _ | fail | item | leaf _ | runs _ _ _ | ref _ => True
  | bind p _ _ | mapM _ p | filterM _ p | tap _ p => p.Built
  | or p q => p.Built ∧ q.Built
  | recursive _ body => body.Built
  | share p q => p.Built ∧ q.Built
  | alone p q => p.Built ∧ q.Built
  | noted _ _ | probe _ _ _ => False

def Scope.Built {Γ : List Type} : Scope τ Γ → Prop
  | empty => True
  | share p ρ => p.Built ∧ ρ.Built
  | handle _ body ρ => body.Built ∧ ρ.Built
  | pending ρ => ρ.Built
  | link σ p ρ => p.Built ∧ σ.Built ∧ ρ.Built

def Place.Built (place : Place τ) : Prop :=
  place.scope.Built ∧ place.parser.Built

def buildsBuilt (τ : Type) : Contract τ where
  call _ _ := True
  ask _ _ := True
  result
    | .build _ _, built => built.value.Built
    | .invoke _ _ _, _ | .pull _, _ | .count _ _, _ => True

theorem buildsBuilt_upheld : (buildsBuilt τ).Upheld := by
  intro live task log _
  cases task with
  | build ρ p =>
      cases p with
      | result v | fail | item | leaf parses | runs x stop extend | ref x => exact trivial
      | bind p captures f | mapM g p | filterM keep p | tap label p | noted events p
      | recursive name body =>
          exact ⟨trivial, fun _ built => built⟩
      | or p q | share p q | alone p q =>
          exact ⟨trivial, fun _ first => ⟨trivial, fun _ second => ⟨first, second⟩⟩⟩
      | probe p input next =>
          exact ⟨trivial, fun _ _ => ⟨trivial, fun _ _ => ⟨trivial, fun _ _ =>
            ⟨trivial, fun _ built => built⟩⟩⟩⟩
  | invoke ρ p input | pull s | count s found =>
      exact Course.meets_of_forall (fun _ _ => trivial) (fun _ _ => trivial) (fun _ => trivial) _

theorem Parser.built_of_build {fuel : Nat} {ρ : Scope τ Γ} {p : Parser τ Γ α} {log : List Event}
    {built : Outcome (Parser τ Γ α)} (ran : p.build fuel live ρ log = some built) :
    built.value.Built := by
  rw [(carried fuel).build] at ran
  exact buildsBuilt_upheld.result_of_run trivial ran

theorem Scope.Built.get {ρ : Scope τ Γ} (built : ρ.Built) (x : Var Γ α) :
    match ρ.get x with
    | .parser σ p => σ.Built ∧ p.Built
    | .handle _ body σ => σ.Built ∧ body.Built
    | .nothing => True := by
  induction ρ with
  | empty => cases x
  | share p ρ ih =>
      cases x with
      | here => exact ⟨built.2, built.1⟩
      | there x => exact ih built.2 x
  | handle name body ρ ih =>
      cases x with
      | here => exact ⟨built.2, built.1⟩
      | there x => exact ih built.2 x
  | pending ρ ih =>
      cases x with
      | here => exact trivial
      | there x => exact ih built x
  | link σ p ρ _ ih =>
      cases x with
      | here => exact ⟨built.2.1, built.1⟩
      | there x => exact ih built.2.2 x

namespace Station

variable {s t : Station τ} (input : Input τ)

abbrev invocation (s : Station τ) : Task τ :=
  .invoke s.place.scope s.place.parser input

def run? (s : Station τ) : Option Event :=
  match s.place.parser with
  | .tap label _ => some (.run label input.offset)
  | _ => none

theorem Next.built (next : s.Next t) (built : s.place.Built) : t.place.Built := by
  obtain ⟨live, ρ, p⟩ := s
  obtain ⟨scope, parser⟩ := built
  cases p with
  | ref x =>
      have get := scope.get x
      simp only [Next, first?] at next
      split at next
      next σ p same =>
          simp only [same] at get
          cases next
          exact get
      next name body σ same =>
          simp only [same, Option.ite_none_right_eq_some] at get next
          obtain ⟨_, same⟩ := next
          cases same
          exact get
      next => cases next
  | or p q =>
      cases next
      exact ⟨scope, parser.1⟩
  | recursive name body =>
      cases next
      exact ⟨⟨parser, scope⟩, parser⟩
  | share p q =>
      cases next
      exact ⟨⟨parser.1, scope⟩, parser.2⟩
  | alone p q =>
      cases next
      exact ⟨⟨parser.1, scope, trivial⟩, parser.2⟩
  | runs x stop extend =>
      cases next
      exact ⟨scope, trivial, trivial⟩
  | noted events p => exact parser.elim
  | _ => cases next <;> exact ⟨scope, parser⟩

theorem trail_of_last (last : s.first? = none) (built : s.place.Built) (log : List Event) :
    s.run? input = none ∧ ∃ opened,
      ((s.invocation input).course log).Trail s.live ⟨opened, log⟩ [] := by
  obtain ⟨live, ρ, p⟩ := s
  cases p with
  | result v | fail | item | leaf parses => exact ⟨rfl, _, .done _⟩
  | probe p probed next => exact built.2.elim
  | ref x =>
      refine ⟨rfl, ?_⟩
      simp only [first?] at last
      simp only [Task.course]
      cases get : ρ.get x with
      | parser σ p => simp [get] at last
      | handle name body σ =>
          have gone : live name = false := by simpa [get] using last
          exact ⟨_, .gone gone (.done _)⟩
      | nothing => exact ⟨_, .done _⟩
  | _ => cases last

theorem Next.trail (next : s.Next t) (built : s.place.Built) {log log' : List Event}
    {opened : Parses τ t.place.value} {calls : List (Task τ)}
    (later : ((t.invocation input).course ((s.run? input).toList ++ log)).Trail t.live
      ⟨opened, log'⟩ calls) :
    ∃ opened, ((s.invocation input).course log).Trail s.live ⟨opened, log'⟩
      (t.invocation input :: calls) := by
  obtain ⟨live, ρ, p⟩ := s
  cases p with
  | ref x =>
      simp only [Next, first?] at next
      simp only [Task.course]
      cases get : ρ.get x with
      | parser σ p =>
          simp only [get, Option.some.injEq] at next
          subst next
          exact ⟨_, .last later (.done _)⟩
      | handle name body σ =>
          simp only [get, Option.ite_none_right_eq_some, Option.some.injEq] at next
          obtain ⟨alive, rfl⟩ := next
          exact ⟨_, .there alive (.last later (.done _))⟩
      | nothing => simp [get] at next
  | noted events p => exact built.2.elim
  | _ => cases next <;> exact ⟨_, .last later (.done _)⟩

theorem Spine.trail {spine : List (Station τ)} (follows : s.Spine spine) (built : s.place.Built)
    (log : List Event) :
    ∃ opened, Task.Trail s.live (s.invocation input) log
      ⟨opened, (spine.filterMap (·.run? input)).reverse ++ log⟩
      (spine.map (·.invocation input)) := by
  -- By induction on the spine, from its end.
  induction follows generalizing log with
  | @last s none =>
      obtain ⟨silent, opened, trail⟩ := trail_of_last input none built log
      exact ⟨opened, [], by simpa [List.filterMap_cons, silent] using trail, rfl⟩
  | @cons s t spine next _ ih =>
      obtain ⟨opened, inside, trail, same⟩ := ih (next.built built) ((s.run? input).toList ++ log)
      obtain ⟨opened', trail'⟩ := next.trail input built trail
      refine ⟨opened', _, ?_, congrArg (_ :: ·) same⟩
      cases run : s.run? input <;> simpa [List.filterMap_cons, run] using trail'

end Station

/-- The invocation comes to a result. The calls in it are the invocations of the parsers on the
spine, outermost first, and on the same input. No call builds, pulls or counts, and functions are
given a value in such calls only, so no function is. All that is logged is that the tapped ones
among these parsers are run. -/
theorem invocation_runs_first_spine {ρ : Scope τ Γ} {p : Parser τ Γ α} (scope : ρ.Built)
    (built : p.Built) (acyclic : ¬Station.LeftRecursive ⟨live, ⟨ρ, p⟩⟩) (input : Input τ)
    (log : List Event) :
    ∃ spine, Station.Spine ⟨live, ⟨ρ, p⟩⟩ spine ∧ (spine.map Station.place).Nodup ∧
      ∃ opened : Outcome (Parses τ α), (∃ fuel, p.invoke fuel live ρ input log = some opened) ∧
        opened.log = (spine.filterMap (·.run? input)).reverse ++ log ∧
        ∀ result calls, (Task.invoke ρ p input).Trail live log result calls ↔
          result = opened ∧ calls = spine.map (·.invocation input) := by
  obtain ⟨spine, follows⟩ := Station.ends_of_acyclic acyclic
  obtain ⟨opened, trail⟩ := follows.trail input ⟨scope, built⟩ log
  refine ⟨spine, follows, follows.nodup acyclic, ⟨opened, _⟩, ?_, rfl, fun result calls => ⟨?_, ?_⟩⟩
  · obtain ⟨fuel, ran⟩ := trail.returns
    exact ⟨fuel, (carried fuel).invoke .. ▸ ran⟩
  · exact fun again => again.unique trail
  · rintro ⟨rfl, rfl⟩
    exact trail

def regress : Parser Char [Nat] Nat :=
  .tap "regress" (.or (.map List.length (.many (.tap "char" .item))) (.filter (0 < ·) (.ref .here)))

theorem regress_runs_first_spine :
    let ρ : Scope Char [Nat] := .handle (.site []) regress .empty
    let next (n : Nat) : Parser Char [Nat] Nat := .noted [.note "asked"] (.tap "later" (.result n))
    let p : Parser Char [Nat] Nat := .bind (.ref .here) .all next
    let input : Input Char := ⟨⟨0, #['a', 'b', 'c']⟩, 1⟩
    Parser.build 3 .everybody ρ (.noted [.note "built"] p) [] = some ⟨p, [.note "built"]⟩ ∧
      (ρ.Built ∧ p.Built ∧ ¬Station.LeftRecursive ⟨.everybody, ⟨ρ, p⟩⟩) ∧
      ∃ spine : List (Station Char), spine.length = 14 ∧ ∃ opened : Outcome (Parses Char Nat),
        (∃ fuel, p.invoke fuel .everybody ρ input [] = some opened) ∧
        opened.log = [.run "char" 1, .run "regress" 1] ∧
        ∀ result calls, (Task.invoke ρ p input).Trail .everybody [] result calls ↔
          result = opened ∧ calls = spine.map (·.invocation input) := by
  intro ρ next p input
  have ran : Parser.build 3 .everybody ρ (.noted [.note "built"] p) [] =
      some ⟨p, [.note "built"]⟩ := rfl
  have scope : ρ.Built := ⟨⟨⟨trivial, trivial⟩, trivial⟩, trivial⟩
  have built : p.Built := Parser.built_of_build ran
  have follows : ∃ spine, Station.Spine ⟨.everybody, ⟨ρ, p⟩⟩ spine ∧ spine.length = 14 ∧
      spine.filterMap (·.run? input) = [.run "regress" 1, .run "char" 1] :=
    ⟨_, .cons rfl (.cons rfl (.cons rfl (.cons rfl (.cons rfl (.cons rfl (.cons rfl (.cons rfl
      (.cons rfl (.cons rfl (.cons rfl (.cons rfl (.cons rfl (.last rfl))))))))))))), rfl, rfl⟩
  obtain ⟨spine, follows, long, runs⟩ := follows
  have acyclic : ¬Station.LeftRecursive ⟨.everybody, ⟨ρ, p⟩⟩ :=
    fun cyclic => Station.leftRecursive_iff.mp cyclic ⟨spine, follows⟩
  obtain ⟨spine', follows', _, opened, invoked, logged, only⟩ :=
    invocation_runs_first_spine scope built acyclic input []
  cases follows.unique follows'
  rw [runs] at logged
  exact ⟨ran, ⟨scope, built, acyclic⟩, spine, long, opened, invoked, logged, only⟩

end EveryParse
