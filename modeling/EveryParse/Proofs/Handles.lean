import EveryParse.Proofs.Ownership

/-!
The calls of a run, whether it comes to an end or not, and the handles among them. Main statement:
unless the body of its definition is still being built, a handle that is invoked belongs to one of
the definitions that are being run, which is still there, and its own parses are started.
-/

namespace EveryParse

variable {τ α : Type} {β : Type 1}

structure Call (τ : Type) : Type 1 where
  live : Owners
  task : Task τ
  log : List Event

def Course.Calls (live : Owners) (made : Call τ) : Course τ β → Prop
  | done _ => False
  | call held task log next =>
    made = ⟨live.add held, task, log⟩ ∨
      ∃ fuel result, task.run fuel (live.add held) log = some result ∧
        (next result).Calls live made
  | alive name yes no => if live name then yes.Calls live made else no.Calls live made

namespace Call

def Makes (call made : Call τ) : Prop :=
  (call.task.course call.log).Calls call.live made

/-- `call` is made while `first` is carried out, directly or through other calls. Those are running
the definitions in `running`, and are building the bodies of others in the scopes `building`. -/
inductive Reaches (first : Call τ) : List (Definition τ) → List (AnyScope τ) → Call τ → Prop
  | start : Reaches first [] [] first
  | step {running building call made} (reached : Reaches first running building call)
      (makes : call.Makes made) :
      Reaches first (call.task.runs ++ running) (call.task.defines ++ building) made

inductive Runs (c : Closure τ α) (input : Input τ) : Call τ → Prop
  | build {live log} : Runs c input ⟨live, .build c.scope c.parser, log⟩
  | invoke {live log} : Runs c input ⟨live, .invoke c.scope c.parser input, log⟩
  | pull {live s log} (opened : c.Opened input s) : Runs c input ⟨live, .pull s, log⟩

end Call

theorem Call.Reaches.first_call {first call : Call τ} {running : List (Definition τ)}
    {building : List (AnyScope τ)} (reached : first.Reaches running building call) {held : Owners}
    {task : Task τ} {log : List Event} {next : task.Result → Course τ call.task.Result}
    (course : call.task.course call.log = .call held task log next) :
    first.Reaches (call.task.runs ++ running) (call.task.defines ++ building)
      ⟨call.live.add held, task, log⟩ := by
  have makes : call.Makes ⟨call.live.add held, task, log⟩ := by
    rw [Call.Makes, course]
    exact .inl rfl
  exact reached.step makes

theorem Course.Meets.call_of_calls {contract : Contract τ} {live : Owners} {goal : β → Prop}
    (runs : ∀ fuel live task log result, task.run fuel live log = some result →
      contract.result task result)
    {course : Course τ β} (meets : course.Meets contract live goal) {made : Call τ}
    (calls : course.Calls live made) : contract.call made.live made.task := by
  induction course with
  | done result => exact calls.elim
  | call held task log next ih =>
      rcases calls with rfl | ⟨fuel, result, ran, later⟩
      · exact meets.1
      · exact ih result (meets.2 result (runs _ _ _ _ _ ran)) later
  | alive name yes no ihYes ihNo =>
      simp only [Course.Calls] at calls
      split at calls
      next alive => exact ihYes (meets.2.1 alive) calls
      next gone => exact ihNo (meets.2.2 (by simpa using gone)) calls

theorem Closure.Opened.sound {kept : Definition τ → Prop} {building : AnyScope τ → Prop}
    {c : Closure τ α} (sound : c.scope.Sound kept building) {input : Input τ} {s : Parses τ α}
    (opened : c.Opened input s) : s.Sound kept building := by
  induction opened with
  | invoked ran => exact sound.of_invoke ran
  | pulled _ ran ih => exact ih.of_pull ran

/-- Whoever makes the call keeps alive what it needs, and has built that or is building it. -/
def Call.Sound (running : List (Definition τ)) (building : List (AnyScope τ)) (call : Call τ) :
    Prop :=
  call.live.Cover (· ∈ running) ∧ call.task.Sound (· ∈ running) (· ∈ building)

theorem Call.Makes.sound {running : List (Definition τ)} {building : List (AnyScope τ)}
    {call made : Call τ} (sound : call.Sound running building) (makes : call.Makes made) :
    made.Sound (call.task.runs ++ running) (call.task.defines ++ building) := by
  have stays := sound.2.course_stays sound.1 call.log
  have called : (staysSound (call.task.keeping (· ∈ running))
      (call.task.defining (· ∈ building))).call made.live made.task := by
    refine stays.call_of_calls ?_ makes
    intro fuel live task log result ran
    exact keepsSound_upheld.result_of_run trivial ran
  simp only [Call.Sound, List.mem_append]
  exact called

theorem Call.Reaches.sound {first call : Call τ} {running : List (Definition τ)}
    {building : List (AnyScope τ)} (sound : first.Sound [] [])
    (reached : first.Reaches running building call) : call.Sound running building := by
  induction reached with
  | start => exact sound
  | step _ makes ih => exact makes.sound ih

theorem Call.Runs.sound {c : Closure τ α} (closed : c.scope.Closed) {input : Input τ}
    {first : Call τ} (runs : first.Runs c input) : first.Sound [] [] := by
  have cover : first.live.Cover (· ∈ ([] : List (Definition τ))) := by simp [Owners.Cover]
  cases runs with
  | build | invoke =>
      exact ⟨cover, Scope.Sound.mono (fun _ => False.elim) (fun _ => False.elim) closed⟩
  | pull opened =>
      have sound := opened.sound closed
      exact ⟨cover, Parses.Sound.mono (fun _ => False.elim) (fun _ => False.elim) sound⟩

/-- A handle that is invoked belongs to a definition that is there, and starts its own parses. There
is nothing behind it only as long as the body of its definition is being built. -/
theorem handle_upgrades (c : Closure τ α) (closed : c.scope.Closed) {input : Input τ}
    {first call : Call τ} (runs : first.Runs c input) {running : List (Definition τ)}
    {building : List (AnyScope τ)} (reached : first.Reaches running building call)
    {Γ : List Type} {γ : Type} {ρ : Scope τ Γ} {x : Var Γ γ} {rest : Input τ}
    (invoked : call.task = .invoke ρ (.ref x) rest) :
    match ρ.get x with
    | .parser _ _ => True
    | .handle name body σ =>
      (⟨σ, name, body⟩ : Definition τ) ∈ running ∧ call.live name = true ∧ ∀ fuel,
        (Parser.ref x).invoke (fuel + 1) call.live ρ rest call.log =
          (Parser.recursive name body).invoke fuel call.live σ rest call.log
    | .nothing => ρ.dropTo x ∈ building := by
  obtain ⟨cover, sound⟩ := reached.sound (runs.sound closed)
  rw [invoked] at sound
  have stands := Scope.Sound.get sound x
  cases found : ρ.get x with
  | parser σ p => trivial
  | handle name body σ =>
      rw [found] at stands
      have present : call.live name = true := cover _ stands.1
      refine ⟨stands.1, present, fun fuel => ?_⟩
      simp [Parser.invoke, found, present]
  | nothing =>
      rw [found] at stands
      exact stands

/-- Behind a character, the parses of the whole on an empty input are counted before there is a
parser that could go on. -/
def counting : Parser Char [Nat] Nat :=
  .or (.bind .item .all fun _ => .probe (.ref .here) ⟨⟨0, #[]⟩, 0⟩ .result) (.result 0)

theorem counting_handle_upgrades :
    let c : Closure Char Nat := ⟨.empty, .recursive (.site []) counting⟩
    let input : Input Char := ⟨⟨0, #['a']⟩, 0⟩
    let nothing : Input Char := ⟨⟨0, #[]⟩, 0⟩
    let σ : Scope Char [Nat] := .handle (.site []) counting .empty
    let definition : Definition Char := ⟨.empty, .site [], counting⟩
    c.scope.Closed ∧ ∃ first call : Call Char,
      first.Runs c input ∧ first.live = .nobody ∧ first.Reaches [definition] [] call ∧
      call.task = .invoke σ (.ref .here) nothing ∧ call.live (.site []) = true ∧ ∀ fuel,
        (Parser.ref .here).invoke (fuel + 1) call.live σ nothing call.log =
          (Parser.recursive (.site []) counting).invoke fuel call.live .empty nothing call.log := by
  intro c input nothing σ definition
  let next (_ : Char) : Parser Char [Nat] Nat := .probe (.ref .here) nothing .result
  let outer : Parses Char Char := .listed [('a', input.advance 1)]
  let s : Parses Char Nat :=
    .anchored .empty (.site []) counting
      (.choosing (.nested σ next outer .empty) σ (.result 0) input)
  have opened : c.Opened input s :=
    .invoked (show c.parser.invoke 4 .nobody c.scope input [] = some ⟨s, []⟩ from rfl)
  let first : Call Char := ⟨.nobody, .pull s, []⟩
  have runs : first.Runs c input := .pull opened
  have started : first.Reaches [] [] first := .start
  obtain ⟨live, nested⟩ : ∃ live,
      first.Reaches [definition] [] ⟨live, .pull (.nested σ next outer .empty), []⟩ :=
    ⟨_, (started.first_call rfl).first_call rfl⟩
  let left : Parses Char Char := .empty
  -- The nested sequence finds a character and builds what follows it, which invokes the handle.
  have makes : Call.Makes ⟨live, .pull (.nested σ next outer .empty), []⟩
      ⟨live.add (Owners.add σ.holds left.holds), .build σ (next 'a'), []⟩ := by
    refine Or.inr ⟨1, ⟨.ended .empty, []⟩, rfl, ?_⟩
    refine Or.inr ⟨1, ⟨.parse 'a' (input.advance 1) left, []⟩, rfl, ?_⟩
    exact Or.inl rfl
  have building : first.Reaches [definition] [] _ := nested.step makes
  have invokes : Call.Makes ⟨live.add (Owners.add σ.holds left.holds), .build σ (next 'a'), []⟩
      ⟨(live.add (Owners.add σ.holds left.holds)).add .nobody,
        .invoke σ (.ref .here) nothing, []⟩ :=
    Or.inr ⟨1, ⟨.ref .here, []⟩, rfl, Or.inl rfl⟩
  have last : first.Reaches [definition] [] _ := building.step invokes
  obtain ⟨-, alive, starts⟩ := handle_upgrades c trivial runs last rfl
  exact ⟨trivial, first, _, runs, rfl, last, rfl, alive, starts⟩

end EveryParse
