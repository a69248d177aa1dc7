import EveryParse.Run
import Mathlib.Data.Option.Basic

/-!
The course of a run. Building, invoking, pulling and counting call each other; what one of them does
is written down here as a course, which names its calls one by one and goes on with their results.
The functions of `EveryParse.Run` follow these courses (`carried`), so a property that each course
passes on from its calls holds of every run.
-/

namespace EveryParse

variable {τ : Type} {β : Type 1}

inductive Task (τ : Type) : Type 1 where
  | build {Γ : List Type} {α : Type} (ρ : Scope τ Γ) (p : Parser τ Γ α)
  | invoke {Γ : List Type} {α : Type} (ρ : Scope τ Γ) (p : Parser τ Γ α) (input : Input τ)
  | pull {α : Type} (s : Parses τ α)
  | count {α : Type} (s : Parses τ α) (found : Nat)

abbrev Task.Result : Task τ → Type 1
  | @build _ Γ α _ _ => Outcome (Parser τ Γ α)
  | @invoke _ _ α _ _ _ => Outcome (Parses τ α)
  | @pull _ α _ => Outcome (Answer τ α)
  | count _ _ => Outcome Nat

inductive Course (τ : Type) (β : Type 1) : Type 1 where
  | done (result : β)
  -- A call during which the definitions in `held` are kept alive too.
  | call (held : Owners) (task : Task τ) (log : List Event) (next : task.Result → Course τ β)
  -- The invocation of a handle: is the definition `name` still there?
  | alive (name : Name) (yes no : Course τ β)

namespace Task

def course : (task : Task τ) → List Event → Course τ task.Result
  | .build ρ p, log =>
    match p with
    | .result v => .done ⟨.result v, log⟩
    | .fail => .done ⟨.fail, log⟩
    | .item => .done ⟨.item, log⟩
    | .leaf parses => .done ⟨.leaf parses, log⟩
    | .bind p captures f =>
      .call .nobody (.build ρ p) log fun built => .done (built.map (.bind · captures f))
    | .mapM g p => .call .nobody (.build ρ p) log fun built => .done (built.map (.mapM g))
    | .filterM keep p =>
      .call .nobody (.build ρ p) log fun built => .done (built.map (.filterM keep))
    | .or p q =>
      .call .nobody (.build ρ p) log fun ⟨p, log⟩ =>
        .call .nobody (.build ρ q) log fun built => .done (built.map (.or p))
    | .runs x stop extend => .done ⟨.runs x stop extend, log⟩
    | .recursive name body =>
      .call .nobody (.build (.pending ρ) body) log fun built => .done (built.map (.recursive name))
    | .share p q =>
      .call .nobody (.build ρ p) log fun ⟨p, log⟩ =>
        .call .nobody (.build (.share p ρ) q) log fun built => .done (built.map (.share p))
    | .alone p q =>
      .call .nobody (.build ρ p) log fun ⟨p, log⟩ =>
        .call .nobody (.build (.link ρ p .empty) q) log fun built => .done (built.map (.alone p))
    | .ref x => .done ⟨.ref x, log⟩
    | .tap label p => .call .nobody (.build ρ p) log fun built => .done (built.map (.tap label))
    | .noted events p => .call .nobody (.build ρ p) (events.reverseAux log) .done
    | .probe p input next =>
      .call .nobody (.build ρ p) log fun ⟨p, log⟩ =>
        .call .nobody (.invoke ρ p input) log fun ⟨s, log⟩ =>
          .call .nobody (.count s 0) log fun ⟨found, log⟩ =>
            .call .nobody (.build ρ (next found)) log .done
  | .invoke ρ p input, log =>
    match p with
    | .result v => .done ⟨.listed [(v, input)], log⟩
    | .fail => .done ⟨.empty, log⟩
    | .item => .done ⟨.listed input.splitFirst.toList, log⟩
    | .leaf parses => .done ⟨.drawn (parses input) 0, log⟩
    | .bind p captures f =>
      .call .nobody (.invoke ρ p input) log fun opened =>
        .done (opened.map (.nested (ρ.captured captures) f · .empty))
    | .mapM g p =>
      .call .nobody (.invoke ρ p input) log fun opened => .done (opened.map (.mapped g))
    | .filterM keep p =>
      .call .nobody (.invoke ρ p input) log fun opened => .done (opened.map (.filtered keep))
    | .or p q =>
      .call .nobody (.invoke ρ p input) log fun opened => .done (opened.map (.choosing · ρ q input))
    | .runs x stop extend =>
      .call .nobody (.invoke ρ (Parser.unrolled x stop extend) input) log .done
    | .recursive name body =>
      .call ((Parser.recursive name body).keeps ρ) (.invoke (.handle name body ρ) body input) log
        fun opened => .done (opened.map (.anchored ρ name body))
    | .share p q => .call .nobody (.invoke (.share p ρ) q input) log .done
    | .alone p q => .call .nobody (.invoke (.link ρ p .empty) q input) log .done
    | .ref x =>
      match ρ.get x with
      | .parser σ p => .call .nobody (.invoke σ p input) log .done
      | .handle name body σ =>
        .alive name (.call .nobody (.invoke σ (Parser.recursive name body) input) log .done)
          (.done ⟨.empty, log⟩)
      | .nothing => .done ⟨.empty, log⟩
    | .tap label p =>
      .call .nobody (.invoke ρ p input) (.run label input.offset :: log) fun opened =>
        .done (opened.map (.tapped label false))
    | .noted events p => .call .nobody (.invoke ρ p input) (events.reverseAux log) .done
    | .probe p probed next =>
      .call .nobody (.build ρ (Parser.probe p probed next)) log fun ⟨p, log⟩ =>
        .call .nobody (.invoke ρ p input) log .done
  | .pull s, log =>
    match s with
    | .listed [] => .done ⟨.ended .empty, log⟩
    | .listed ((v, rest) :: parses) => .done ⟨.parse v rest (.listed parses), log⟩
    | .drawn parses index =>
      match parses index with
      | none => .done ⟨.ended .empty, log⟩
      | some (v, rest) => .done ⟨.parse v rest (.drawn parses (index + 1)), log⟩
    | .mapped g s =>
      .call .nobody (.pull s) log fun
        | ⟨.ended s, log⟩ => .done ⟨.ended (.mapped g s), log⟩
        | ⟨.parse v rest s, log⟩ => .done ⟨.parse (g v).value rest (.mapped g s), (g v).onto log⟩
    | .filtered keep s =>
      .call .nobody (.pull s) log fun
        | ⟨.ended s, log⟩ => .done ⟨.ended (.filtered keep s), log⟩
        | ⟨.parse v rest s, log⟩ =>
          if (keep v).value then .done ⟨.parse v rest (.filtered keep s), (keep v).onto log⟩
          else .call .nobody (.pull (.filtered keep s)) ((keep v).onto log) .done
    | .choosing s ρ q input =>
      .call (q.keeps ρ) (.pull s) log fun
        | ⟨.parse v rest s, log⟩ => .done ⟨.parse v rest (.choosing s ρ q input), log⟩
        | ⟨.ended _, log⟩ =>
          .call (q.keeps ρ) (.invoke ρ q input) log fun ⟨s, log⟩ =>
            .call .nobody (.pull (.chosen s)) log .done
    | .chosen s =>
      .call .nobody (.pull s) log fun
        | ⟨.parse v rest s, log⟩ => .done ⟨.parse v rest (.chosen s), log⟩
        | ⟨.ended _, log⟩ => .done ⟨.ended .empty, log⟩
    | .nested ρ f outer inner =>
      .call (Owners.add ρ.holds outer.holds) (.pull inner) log fun
        | ⟨.parse v rest inner, log⟩ => .done ⟨.parse v rest (.nested ρ f outer inner), log⟩
        | ⟨.ended _, log⟩ =>
          .call ρ.holds (.pull outer) log fun
            | ⟨.ended _, log⟩ => .done ⟨.ended .empty, log⟩
            | ⟨.parse v rest outer, log⟩ =>
              .call (Owners.add ρ.holds outer.holds) (.build ρ (f v)) log fun ⟨p, log⟩ =>
                .call (Owners.add ρ.holds outer.holds) (.invoke ρ p rest) log fun ⟨inner, log⟩ =>
                  .call .nobody (.pull (.nested ρ f outer inner)) log .done
    | .anchored ρ name body s =>
      .call ((Parser.recursive name body).keeps ρ) (.pull s) log fun
        | ⟨.parse v rest s, log⟩ => .done ⟨.parse v rest (.anchored ρ name body s), log⟩
        | ⟨.ended s, log⟩ => .done ⟨.ended (.anchored ρ name body s), log⟩
    | .tapped label ended s =>
      .call .nobody (.pull s) log fun
        | ⟨.parse v rest s, log⟩ =>
          .done ⟨.parse v rest (.tapped label ended s), .yield label rest.offset :: log⟩
        | ⟨.ended s, log⟩ =>
          .done ⟨.ended (.tapped label true s), if ended then log else .ended label :: log⟩
  | .count s found, log =>
    .call .nobody (.pull s) log fun
      | ⟨.ended _, log⟩ => .done ⟨found, log⟩
      | ⟨.parse _ _ s, log⟩ => .call .nobody (.count s (found + 1)) log .done

end Task

/-- Follows a course; `run` makes the calls, and `live` tells who is kept alive by others. -/
def Course.follow (run : Owners → (task : Task τ) → List Event → Option task.Result)
    (live : Owners) : Course τ β → Option β
  | done result => some result
  | call held task log next =>
    (run (live.add held) task log).bind fun result => (next result).follow run live
  | alive name yes no => if live name then yes.follow run live else no.follow run live

def Task.run : Nat → Owners → (task : Task τ) → List Event → Option task.Result
  | 0, _, _, _ => none
  | fuel + 1, live, task, log => (task.course log).follow (Task.run fuel) live

theorem Owners.add_nobody (live : Owners) : live.add .nobody = live := rfl

theorem Owners.add_add (live first second : Owners) :
    (live.add first).add second = live.add (first.add second) := by
  funext name
  simp [Owners.add, Bool.or_assoc]

/-- With this much fuel, the functions that run parsers do what the courses say. -/
structure Carried (τ : Type) (fuel : Nat) : Prop where
  build (live : Owners) {Γ : List Type} {α : Type} (ρ : Scope τ Γ) (p : Parser τ Γ α)
    (log : List Event) : p.build fuel live ρ log = Task.run fuel live (.build ρ p) log
  invoke (live : Owners) {Γ : List Type} {α : Type} (ρ : Scope τ Γ) (p : Parser τ Γ α)
    (input : Input τ) (log : List Event) :
    p.invoke fuel live ρ input log = Task.run fuel live (.invoke ρ p input) log
  pull (live : Owners) {α : Type} (s : Parses τ α) (log : List Event) :
    s.pull fuel live log = Task.run fuel live (.pull s) log
  count (live : Owners) {α : Type} (s : Parses τ α) (found : Nat) (log : List Event) :
    s.count fuel live found log = Task.run fuel live (.count s found) log

namespace Carried

variable {fuel : Nat} (carried : Carried τ fuel) (live : Owners) (log : List Event)
include carried

theorem build_succ {Γ : List Type} {α : Type} (ρ : Scope τ Γ) (p : Parser τ Γ α) :
    p.build (fuel + 1) live ρ log = Task.run (fuel + 1) live (.build ρ p) log := by
  cases p <;>
    simp [Parser.build, Task.run, Task.course, Course.follow, Owners.add_nobody, carried.build,
      carried.invoke, carried.count, Option.map_eq_bind]

theorem invoke_succ {Γ : List Type} {α : Type} (ρ : Scope τ Γ) (p : Parser τ Γ α)
    (input : Input τ) :
    p.invoke (fuel + 1) live ρ input log = Task.run (fuel + 1) live (.invoke ρ p input) log := by
  cases p with
  | ref x =>
      simp only [Parser.invoke, Task.run, Task.course]
      cases ρ.get x <;> simp [Course.follow, Owners.add_nobody, carried.invoke]
  | _ =>
      simp [Parser.invoke, Task.run, Task.course, Course.follow, Owners.add_nobody, carried.build,
        carried.invoke, Option.map_eq_bind]

theorem pull_succ {α : Type} (s : Parses τ α) :
    s.pull (fuel + 1) live log = Task.run (fuel + 1) live (.pull s) log := by
  cases s with
  | listed parses =>
      rcases parses with _ | ⟨⟨v, rest⟩, parses⟩ <;>
        simp [Parses.pull, Task.run, Task.course, Course.follow]
  | drawn parses index =>
      simp only [Parses.pull, Task.run, Task.course]
      cases parses index <;> rfl
  | mapped g s | chosen s | anchored ρ name body s | tapped label ended s =>
      simp only [Parses.pull, Task.run, Task.course, Course.follow, Owners.add_nobody, carried.pull]
      rcases Task.run fuel _ (.pull s) log with _ | ⟨_ | _, _⟩ <;> rfl
  | filtered keep s =>
      simp only [Parses.pull, Task.run, Task.course, Course.follow, Owners.add_nobody, carried.pull]
      rcases Task.run fuel _ (.pull s) log with _ | ⟨⟨v, rest, s⟩ | s, log⟩
      · rfl
      · simp only [Option.bind_some]
        split <;> simp [Course.follow, Owners.add_nobody]
      · rfl
  | choosing s ρ q input =>
      simp only [Parses.pull, Task.run, Task.course, Course.follow, carried.pull]
      rcases Task.run fuel _ (.pull s) log with _ | ⟨⟨v, rest, s⟩ | s, log⟩
      · rfl
      · rfl
      · simp only [Option.bind_some, Course.follow, carried.invoke]
        rcases Task.run fuel _ (.invoke ρ q input) log with _ | ⟨s, log⟩
        · rfl
        · simp [Owners.add_nobody]
  | nested ρ f outer inner =>
      simp only [Parses.pull, Task.run, Task.course, Course.follow, carried.pull, Owners.add_add]
      rcases Task.run fuel _ (.pull inner) log with _ | ⟨⟨v, rest, inner⟩ | inner, log⟩
      · rfl
      · rfl
      · simp only [Option.bind_some, Course.follow]
        rcases Task.run fuel _ (.pull outer) log with _ | ⟨⟨v, rest, outer⟩ | outer, log⟩
        · rfl
        · simp only [Option.bind_some, Course.follow, carried.build]
          rcases Task.run fuel _ (.build ρ (f v)) log with _ | ⟨p, log⟩
          · rfl
          · simp only [Option.bind_some, carried.invoke]
            rcases Task.run fuel _ (.invoke ρ p rest) log with _ | ⟨inner, log⟩
            · rfl
            · simp [Owners.add_nobody]
        · rfl

theorem count_succ {α : Type} (s : Parses τ α) (found : Nat) :
    s.count (fuel + 1) live found log = Task.run (fuel + 1) live (.count s found) log := by
  simp only [Parses.count, Task.run, Task.course, Course.follow, Owners.add_nobody, carried.pull]
  rcases Task.run fuel live (.pull s) log with _ | ⟨⟨v, rest, s⟩ | s, log⟩
  · rfl
  · simp [Course.follow, Owners.add_nobody, carried.count]
  · rfl

end Carried

theorem carried (fuel : Nat) : Carried τ fuel := by
  induction fuel with
  | zero =>
      exact ⟨fun _ _ _ _ _ _ => rfl, fun _ _ _ _ _ _ _ => rfl, fun _ _ _ _ => rfl,
        fun _ _ _ _ _ => rfl⟩
  | succ fuel ih =>
      exact ⟨fun live _ _ ρ p log => ih.build_succ live log ρ p,
        fun live _ _ ρ p input log => ih.invoke_succ live log ρ p input,
        fun live _ s log => ih.pull_succ live log s,
        fun live _ s found log => ih.count_succ live log s found⟩

theorem Course.follow_mono {run run' : Owners → (task : Task τ) → List Event → Option task.Result}
    (more : ∀ live task log result, run live task log = some result →
      run' live task log = some result)
    {live : Owners} {course : Course τ β} {result : β}
    (followed : course.follow run live = some result) :
    course.follow run' live = some result := by
  induction course with
  | done _ => exact followed
  | call held task log next ih =>
      obtain ⟨found, ran, rest⟩ := Option.bind_eq_some_iff.mp followed
      simp only [Course.follow, more _ _ _ _ ran, Option.bind_some]
      exact ih found rest
  | alive name yes no ihYes ihNo =>
      simp only [Course.follow] at followed ⊢
      split at followed
      next alive => simpa [alive] using ihYes followed
      next gone => simpa [gone] using ihNo followed

theorem Task.run_succ {fuel : Nat} {live : Owners} {task : Task τ} {log : List Event}
    {result : task.Result} (ran : task.run fuel live log = some result) :
    task.run (fuel + 1) live log = some result := by
  induction fuel generalizing live task log with
  | zero => simp [Task.run] at ran
  | succ fuel ih => exact Course.follow_mono (fun _ _ _ _ => ih) ran

theorem Task.run_mono {fuel fuel' : Nat} (enough : fuel ≤ fuel') {live : Owners} {task : Task τ}
    {log : List Event} {result : task.Result} (ran : task.run fuel live log = some result) :
    task.run fuel' live log = some result := by
  induction enough with
  | refl => exact ran
  | step _ ih => exact Task.run_succ ih

theorem Parser.build_mono {fuel fuel' : Nat} (enough : fuel ≤ fuel') {live : Owners}
    {Γ : List Type} {α : Type} {ρ : Scope τ Γ} {p : Parser τ Γ α} {log : List Event}
    {built : Outcome (Parser τ Γ α)} (ran : p.build fuel live ρ log = some built) :
    p.build fuel' live ρ log = some built := by
  rw [(carried _).build] at ran ⊢
  exact Task.run_mono enough ran

theorem Parser.invoke_mono {fuel fuel' : Nat} (enough : fuel ≤ fuel') {live : Owners}
    {Γ : List Type} {α : Type} {ρ : Scope τ Γ} {p : Parser τ Γ α} {input : Input τ}
    {log : List Event} {opened : Outcome (Parses τ α)}
    (ran : p.invoke fuel live ρ input log = some opened) :
    p.invoke fuel' live ρ input log = some opened := by
  rw [(carried _).invoke] at ran ⊢
  exact Task.run_mono enough ran

theorem Parses.pull_mono {fuel fuel' : Nat} (enough : fuel ≤ fuel') {live : Owners} {α : Type}
    {s : Parses τ α} {log : List Event} {answer : Outcome (Answer τ α)}
    (ran : s.pull fuel live log = some answer) : s.pull fuel' live log = some answer := by
  rw [(carried _).pull] at ran ⊢
  exact Task.run_mono enough ran

/-- `call` says what may be called, `ask` of which handles the definitions may be asked for, and
`result` what calls come to. -/
structure Contract (τ : Type) where
  call : Owners → Task τ → Prop
  ask : Owners → Name → Prop
  result : (task : Task τ) → task.Result → Prop

/-- Following the course keeps to the contract, as long as its calls do, and comes to a result with
`goal`. -/
def Course.Meets (contract : Contract τ) (live : Owners) (goal : β → Prop) : Course τ β → Prop
  | done result => goal result
  | call held task _ next =>
    contract.call (live.add held) task ∧
      ∀ result, contract.result task result → (next result).Meets contract live goal
  | alive name yes no =>
    contract.ask live name ∧ (live name = true → yes.Meets contract live goal) ∧
      (live name = false → no.Meets contract live goal)

def Contract.Upheld (contract : Contract τ) : Prop :=
  ∀ live task log, contract.call live task →
    (task.course log).Meets contract live (contract.result task)

theorem Course.Meets.goal_of_follow {contract : Contract τ} {live : Owners} {goal : β → Prop}
    {run : Owners → (task : Task τ) → List Event → Option task.Result}
    (runs : ∀ live task log result, contract.call live task → run live task log = some result →
      contract.result task result)
    {course : Course τ β} (meets : course.Meets contract live goal) {result : β}
    (followed : course.follow run live = some result) : goal result := by
  induction course with
  | done _ =>
      simp only [Course.follow, Option.some.injEq] at followed
      exact followed ▸ meets
  | call held task log next ih =>
      obtain ⟨found, ran, rest⟩ := Option.bind_eq_some_iff.mp followed
      exact ih found (meets.2 found (runs _ _ _ _ meets.1 ran)) rest
  | alive name yes no ihYes ihNo =>
      simp only [Course.follow] at followed
      split at followed
      next alive => exact ihYes (meets.2.1 alive) followed
      next gone => exact ihNo (meets.2.2 (by simpa using gone)) followed

theorem Contract.Upheld.result_of_run {contract : Contract τ} (upheld : contract.Upheld)
    {fuel : Nat} {live : Owners} {task : Task τ} {log : List Event} {result : task.Result}
    (allowed : contract.call live task) (ran : task.run fuel live log = some result) :
    contract.result task result := by
  induction fuel generalizing live task log with
  | zero => simp [Task.run] at ran
  | succ fuel ih =>
      exact (upheld live task log allowed).goal_of_follow
        (fun _ _ _ _ allowed ran => ih allowed ran) ran

end EveryParse
