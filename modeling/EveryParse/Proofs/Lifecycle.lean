import EveryParse.Proofs.Sited

/-!
The life of a definition in a session. Main statement: while it is being defined its handle gives
nothing; then the handle gives the parses of the definition for as long as something owns the
definition, and from then on nothing, for ever.
-/

namespace EveryParse

variable {τ α : Type} {known : Ledger τ} {present : Owners}

theorem Scope.get_of_dropTo_pending {Γ Δ : List Type} {γ δ : Type} {ρ : Scope τ Γ} {x : Var Γ γ}
    {σ : Scope τ Δ} (stands : ρ.dropTo x = ⟨δ :: Δ, .pending σ⟩) : ρ.get x = .nothing := by
  induction x with
  | here =>
      cases ρ with
      | pending ρ => rfl
      | share p ρ | handle name body ρ | link σ p ρ => cases stands
  | there x ih => cases ρ <;> exact ih stands

namespace Session

variable {session : Session τ α}

/-- Each definition that is alive has an owner: the session, or the body of one that is alive. -/
def Supports (session : Session τ α) (known : Ledger τ) (alive : Nat → Prop) : Prop :=
  ∀ number, alive number → session.Owns (.serial number) ∨
    ∃ (holder : Nat) (definition : Definition τ), alive holder ∧
      known[holder]? = some definition ∧
      Parser.Owns (.serial number)
        (.handle definition.name definition.body definition.scope) definition.body

theorem ledger_append {fuel : Nat} {commands others : List (Command τ α)} {after : Session τ α}
    {heard : List (Heard τ α)} (played : session.play fuel commands = some (after, heard)) :
    session.ledger fuel (commands ++ others) =
      session.ledger fuel commands ++ after.ledger fuel others := by
  induction commands generalizing session heard with
  | nil =>
      cases played
      rfl
  | cons command commands ih =>
      obtain ⟨outcome, _, ran, later, _⟩ := play_cons.mp played
      simp only [List.cons_append, ledger, ran, ih later, List.append_assoc]

theorem Accounted.play (accounted : session.Accounted known present) {fuel : Nat}
    {commands : List (Command τ α)} (regular : ∀ command ∈ commands, command.Regular)
    (fresh : ∀ number, session.definitions ≤ number → present (.serial number) = true)
    {after : Session τ α} {heard : List (Heard τ α)}
    (played : session.play fuel commands = some (after, heard)) :
    after.Accounted (known ++ session.ledger fuel commands) present := by
  induction commands generalizing session known heard with
  | nil =>
      cases played
      simpa [ledger] using accounted
  | cons command commands ih =>
      obtain ⟨outcome, _, ran, later, _⟩ := play_cons.mp played
      rw [List.forall_mem_cons] at regular
      have step := accounted.run regular.1 (fresh _ (Nat.le_refl _)) ran
      have more : session.definitions ≤ outcome.value.1.definitions := by
        rw [← accounted.counted, ← step.counted, List.length_append]
        omega
      have rest := ih step regular.2 (fun number bound => fresh number (by omega)) later
      simpa only [ledger, ran, List.append_assoc] using rest

theorem Accounted.never_again (accounted : session.Accounted known present) {number : Nat}
    (old : number < session.definitions) (released : ¬session.Owns (.serial number)) {fuel : Nat}
    {commands : List (Command τ α)} (regular : ∀ command ∈ commands, command.Regular)
    {after : Session τ α} {heard : List (Heard τ α)}
    (played : session.play fuel commands = some (after, heard)) :
    ¬after.Owns (.serial number) := by
  -- What the session owns stays inside `present`, so that may be chosen to leave out `number`.
  have without : session.Accounted known (.allBut number) := by
    apply accounted.weaken
    intro other owns
    by_cases same : other = number
    · exact (released (same ▸ owns)).elim
    · simp [Owners.allBut, same]
  have later := without.play regular (by simp [Owners.allBut]; omega) played
  intro owns
  simpa [Owners.allBut] using later.within owns

theorem Begins.live {command : Command τ α} {first : Call τ}
    (begins : session.Begins command first) :
    first.live = (session.beside command).holds := by
  cases begins with
  | define | defineRecursive | next _ => rfl
  | @invoke command _ _ _ _ uses | @pull command _ _ _ _ _ uses =>
      cases command with
      | next sequence => cases uses
      | _ => rfl

theorem Begins.within {command : Command τ α} {first : Call τ}
    (begins : session.Begins command first) (accounted : session.Accounted known present)
    (regular : command.Regular) {running : List (Definition τ)} {building : List (AnyScope τ)}
    {call : Call τ} (reached : first.Reaches running building call) {number : Nat}
    (alive : call.live (.serial number) = true) : session.Owns (.serial number) := by
  obtain ⟨accountedFirst, within⟩ := begins.accounted accounted regular
  have here : call.present (.serial number) = true := Owners.within_add_left _ _ number alive
  exact Session.holds_iff.mp (within number ((reached.accounted accountedFirst).2 number here))

theorem beside_owns_of_insert {sequence : String} {s : Parses τ α} {name : Name}
    (owns : Session.Owns name { session with sequences := session.sequences.insert sequence s }) :
    (session.beside (.next sequence)).Owns name ∨ s.Owns name := by
  rcases owns with owns | ⟨entry, member, owns⟩
  · exact .inl (.inl owns)
  · rcases List.mem_cons.mp member with rfl | member
    · exact .inr owns
    · exact .inl (.inr ⟨entry, member, owns⟩)

theorem Begins.present_of_owns {command : Command τ α} {first : Call τ}
    (begins : session.Begins command first) (accounted : session.Accounted known present)
    (regular : command.Regular) {running : List (Definition τ)} {building : List (AnyScope τ)}
    {call : Call τ} (reached : first.Reaches running building call) {number : Nat}
    (old : number < session.definitions) {fuel : Nat}
    {outcome : Outcome (Session τ α × Reply τ α)} (ran : session.run fuel command = some outcome)
    (owns : outcome.value.1.Owns (.serial number)) : call.present (.serial number) = true := by
  have accountedFirst := (begins.accounted accounted regular).1
  have of_beside (owns : (session.beside command).Owns (.serial number)) :
      call.present (.serial number) = true := by
    rw [← Session.holds_iff, ← begins.live] at owns
    exact Owners.within_add_left _ _ number (reached.live_mono owns)
  cases command with
  | next sequence =>
      cases begins with
      | invoke uses _ _ | pull uses _ _ _ _ => cases uses
      | @next _ s found =>
          simp only [Session.run, found] at ran
          obtain ⟨answer, pulled, rfl⟩ := Option.map_eq_some_iff.mp ran
          have owns : (session.beside (.next sequence)).Owns (.serial number) ∨
              answer.value.next.Owns (.serial number) := by
            obtain ⟨_ | _, _⟩ := answer <;> exact beside_owns_of_insert owns
          rcases owns with owns | owns
          · exact of_beside owns
          · rw [(carried fuel).pull] at pulled
            obtain ⟨found, returned, left⟩ := reached.leaves_within accountedFirst ⟨fuel, pulled⟩
            have here := left number (Parses.holds_iff.mpr owns)
            exact (reached.accounted accountedFirst).1.leaves_within returned number here
  | _ =>
      -- All that is owned stands beside the other commands, and they bring nothing back.
      apply of_beside
      by_contra released
      have played : session.play fuel [_] = some (outcome.value.1, _) :=
        play_cons.mpr ⟨outcome, [], ran, rfl, rfl⟩
      exact accounted.never_again old released (by simpa using regular) played owns

section Handle

variable {Γ Δ : List Type} {γ : Type} {live : Owners} {ρ : Scope τ Γ} {x : Var Γ γ} {name : Name}
variable {body : Parser τ (γ :: Δ) γ} {σ : Scope τ Δ} {input : Input τ} {log : List Event}

theorem invoke_alive (stands : ρ.get x = .handle name body σ) (alive : live name = true)
    (fuel : Nat) :
    (Parser.ref x).invoke (fuel + 1) live ρ input log =
      (Parser.recursive name body).invoke fuel live σ input log := by
  simp [Parser.invoke, stands, alive]

theorem invoke_released (stands : ρ.get x = .handle name body σ) (released : live name ≠ true)
    (fuel : Nat) :
    (Parser.ref x).invoke (fuel + 1) live ρ input log = some ⟨.empty, log⟩ := by
  simp [Parser.invoke, stands, released]

/-- What there is to say of the handle of `definition`, when it is invoked as the variable `x` by a
call to which the call `first` of the command leads. -/
structure HandleInvoked (session : Session τ α) (command : Command τ α)
    (definition : Definition τ) (first : Call τ) (live : Owners) (ρ : Scope τ Γ) (x : Var Γ γ)
    (input : Input τ) (log : List Event) (body : Parser τ (γ :: Δ) γ) (σ : Scope τ Δ) : Prop where
  denotes : (⟨σ, definition.name, body⟩ : Definition τ) = definition
  gives : (session.beside command).Owns definition.name ∨
      first.Keeps definition.name ⟨live, .invoke ρ (.ref x) input, log⟩ →
    ∀ fuel, (Parser.ref x).invoke (fuel + 1) live ρ input log =
      (Parser.recursive definition.name body).invoke fuel live σ input log
  empty : ¬((session.beside command).Owns definition.name ∨
      first.Keeps definition.name ⟨live, .invoke ρ (.ref x) input, log⟩) →
    ∀ fuel, (Parser.ref x).invoke (fuel + 1) live ρ input log = some ⟨.empty, log⟩
  owned : first.Keeps definition.name ⟨live, .invoke ρ (.ref x) input, log⟩ →
    session.Owns definition.name
  gone : ∀ earlier, first.Precedes earlier ⟨live, .invoke ρ (.ref x) input, log⟩ →
    earlier.present definition.name = false → live definition.name = false
  stays : ∀ fuel outcome, session.run fuel command = some outcome →
    outcome.value.1.Owns definition.name → live definition.name = true

theorem Begins.handleInvoked {command : Command τ α} {first : Call τ} {number : Nat}
    {definition : Definition τ} (begins : session.Begins command first)
    (accounted : session.Accounted known present) (regular : command.Regular)
    (found : known[number]? = some definition) (named : definition.name = .serial number)
    {running : List (Definition τ)} {building : List (AnyScope τ)}
    (reached : first.Reaches running building ⟨live, .invoke ρ (.ref x) input, log⟩)
    (stands : ρ.get x = .handle definition.name body σ) :
    session.HandleInvoked command definition first live ρ x input log body σ := by
  obtain ⟨scope, name, body'⟩ := definition
  cases named
  have accountedFirst := (begins.accounted accounted regular).1
  have accountedCall := (reached.accounted accountedFirst).1
  have alive_iff : live (.serial number) = true ↔
      (session.beside command).Owns (.serial number) ∨
        first.Keeps (.serial number) ⟨live, .invoke ρ (.ref x) input, log⟩ := by
    rw [← Session.holds_iff, ← begins.live]
    exact reached.live_iff
  have bound := (List.getElem?_eq_some_iff.mp found).1
  rw [accounted.counted] at bound
  refine ⟨?_, fun owned => ?_, fun released => ?_, fun kept => ?_, fun earlier before less => ?_,
    fun fuel outcome ran owns => ?_⟩
  · have proper := accountedCall.proper.1.get x
    rw [stands] at proper
    have found' := proper.1.2 number rfl
    exact Option.some.inj (found'.symm.trans found)
  · exact invoke_alive stands (alive_iff.mpr owned)
  · exact invoke_released stands (mt alive_iff.mp released)
  · exact begins.within accounted regular reached (alive_iff.mpr (.inr kept))
  · by_contra alive
    have here := Owners.within_add_left live .nobody number (by simpa using alive)
    have there := before.present_within accountedFirst number here
    simp [less] at there
  · have here := begins.present_of_owns accounted regular reached bound ran owns
    simpa [Call.present, Task.owned, Owners.nobody] using here

end Handle

def GivesNothing (session : Session τ α) (name : Name) : Prop :=
  ∀ {command : Command τ α} {first : Call τ} {running building live log} {Γ Δ : List Type}
    {γ : Type} {ρ : Scope τ Γ} {x : Var Γ γ} {input : Input τ} {body : Parser τ (γ :: Δ) γ}
    {σ : Scope τ Δ}, command.Regular → session.Begins command first →
      first.Reaches running building ⟨live, .invoke ρ (.ref x) input, log⟩ →
        ρ.get x = .handle name body σ → ∀ fuel,
          (Parser.ref x).invoke (fuel + 1) live ρ input log = some ⟨.empty, log⟩

theorem Accounted.givesNothing (accounted : session.Accounted known present) {number : Nat}
    (released : ¬session.Owns (.serial number)) : session.GivesNothing (.serial number) := by
  intro command first running building live log Γ Δ γ ρ x input body σ regular begins reached stands
  apply invoke_released stands
  intro alive
  exact released (begins.within accounted regular reached alive)

/-- What there is to say of the definition that `session` has built by the command `defines`, when
the session has come to `later`; `known` are all definitions that were made. -/
structure LifeCycle (session : Session τ α) (defines : Command τ α) {uses : List String}
    (built : Parser τ (α :: Uses α uses) α) (known : Ledger τ) (later : Session τ α) : Prop where
  building : ∀ {first : Call τ} {running building live log} {Γ : List Type} {γ : Type}
    {ρ : Scope τ Γ} {x : Var Γ γ} {input : Input τ}, session.Begins defines first →
      first.Reaches running building ⟨live, .invoke ρ (.ref x) input, log⟩ →
        (ρ.dropTo x = ⟨α :: Uses α uses, .pending (session.scope uses)⟩ → ∀ fuel,
          (Parser.ref x).invoke (fuel + 1) live ρ input log = some ⟨.empty, log⟩) ∧
        ∀ (Δ : List Type) (σ : Scope τ Δ) (body : Parser τ (γ :: Δ) γ),
          ρ.get x ≠ .handle (.serial session.definitions) body σ
  runs : ∀ {input : Input τ} {s : Parses τ α},
    Closure.Opened ⟨session.scope uses, .recursive (.serial session.definitions) built⟩ input s →
      s.Owns (.serial session.definitions)
  handles : ∀ {command : Command τ α} {first : Call τ} {running building live log}
    {Γ Δ : List Type} {γ : Type} {ρ : Scope τ Γ} {x : Var Γ γ} {input : Input τ}
    {body : Parser τ (γ :: Δ) γ} {σ : Scope τ Δ}, command.Regular → later.Begins command first →
      first.Reaches running building ⟨live, .invoke ρ (.ref x) input, log⟩ →
        ρ.get x = .handle (.serial session.definitions) body σ →
          later.HandleInvoked command (session.definition uses built) first live ρ x input log
            body σ
  released : ¬later.Owns (.serial session.definitions) → ∀ {fuel commands last heard},
    (∀ command ∈ commands, Command.Regular command) →
      later.play fuel commands = some (last, heard) →
        ¬last.Owns (.serial session.definitions) ∧ last.GivesNothing (.serial session.definitions)
  ordered : known.Ordered
  recorded : known[session.definitions]? = some (session.definition uses built)
  unleaked : ∀ {alive : Nat → Prop}, later.Supports known alive → ∀ number, alive number →
    later.Owns (.serial number)

theorem owns_of_opened {Γ : List Type} {ρ : Scope τ Γ} {name : Name} {body : Parser τ (α :: Γ) α}
    {input : Input τ} {s : Parses τ α}
    (opened : Closure.Opened ⟨ρ, .recursive name body⟩ input s) : s.Owns name := by
  have anchored : ∃ inside, s = .anchored ρ name body inside := by
    induction opened with
    | @invoked fuel _ _ _ ran =>
        cases fuel with
        | zero => simp [Parser.invoke] at ran
        | succ fuel =>
            obtain ⟨inside, _, rfl⟩ := Option.map_eq_some_iff.mp ran
            exact ⟨inside.value, rfl⟩
    | @pulled fuel _ _ _ _ _ ran ih =>
        obtain ⟨inside, rfl⟩ := ih
        cases fuel with
        | zero => simp [Parses.pull] at ran
        | succ fuel =>
            simp only [Parses.pull] at ran
            split at ran
            · cases ran
            · cases ran
              exact ⟨_, rfl⟩
            · cases ran
              exact ⟨_, rfl⟩
  obtain ⟨inside, rfl⟩ := anchored
  exact .inl .definition

/-- In every history, the handle of a definition gives nothing while the definition is being built,
then the parses of the definition for as long as something owns it, and nothing from then on. -/
theorem definition_life_cycle {fuel : Nat} {before after : List (Command τ α)}
    {name handle : String} {uses : List String} {body : Parser τ (α :: Uses α uses) α}
    (regular : ∀ command ∈ before ++ .defineRecursive name handle uses body :: after,
      command.Regular)
    {session later : Session τ α} {heard heard' : List (Heard τ α)}
    {defined : Outcome (Session τ α × Reply τ α)}
    (reached : empty.play fuel before = some (session, heard))
    (defines : session.run fuel (.defineRecursive name handle uses body) = some defined)
    (played : defined.value.1.play fuel after = some (later, heard')) :
    ∃ built, defined.value.1 = session.registerDefinition name handle uses built ∧
      session.LifeCycle (.defineRecursive name handle uses body) built
        (empty.ledger fuel (before ++ .defineRecursive name handle uses body :: after)) later := by
  obtain ⟨outcome, builds, rfl⟩ := Option.map_eq_some_iff.mp defines
  obtain ⟨regularBefore, regularDefine, regularAfter⟩ := by
    simpa only [List.forall_mem_append, List.forall_mem_cons] using regular
  have accountedFirst : (empty : Session τ α).Accounted [] .everybody := .empty
  have accounted := accountedFirst.play regularBefore (fun _ _ => rfl) reached
  have accountedDefined := accounted.run regularDefine rfl defines
  have accountedLater := accountedDefined.play regularAfter (fun _ _ => rfl) played
  have made : session.definition? fuel (.defineRecursive name handle uses body) =
      some (session.definition uses outcome.value) := by
    simp [definition?, builds]
  have known : empty.ledger fuel (before ++ .defineRecursive name handle uses body :: after) =
      [] ++ empty.ledger fuel before ++ [session.definition uses outcome.value] ++
        (session.registerDefinition name handle uses outcome.value).ledger fuel after := by
    rw [ledger_append reached, ledger, made, defines]
    simp [Outcome.map]
  rw [made] at accountedLater
  rw [known]
  have recorded : ([] ++ empty.ledger fuel before ++ [session.definition uses outcome.value] ++
      (session.registerDefinition name handle uses outcome.value).ledger fuel after)[
        session.definitions]? = some (session.definition uses outcome.value) := by
    simp [← accounted.counted]
  have bound := (List.getElem?_eq_some_iff.mp recorded).1
  refine ⟨outcome.value, rfl, ?_, owns_of_opened, ?_, ?_, accountedLater.ordered, recorded, ?_⟩
  · intro first running building live log Γ γ ρ x input begins reached
    refine ⟨fun pending fuel => ?_, fun Δ σ body stands => ?_⟩
    · simp [Parser.invoke, Scope.get_of_dropTo_pending pending]
    · have accountedCall := (reached.accounted (begins.accounted accounted regularDefine).1).1
      have proper := accountedCall.proper.1.get x
      rw [stands] at proper
      have found := (List.getElem?_eq_some_iff.mp (proper.1.2 session.definitions rfl)).1
      have counted := accounted.counted
      omega
  · intro command first running building live log Γ Δ γ ρ x input body σ regular begins reached
      stands
    exact begins.handleInvoked accountedLater regular recorded rfl reached stands
  · intro released fuel commands last heard regular played
    have old : session.definitions < later.definitions := by
      rw [← accountedLater.counted]
      exact bound
    have again := accountedLater.never_again old released regular played
    have accountedLast := accountedLater.play regular (fun _ _ => rfl) played
    exact ⟨again, accountedLast.givesNothing again⟩
  · intro alive supported number here
    exact accountedLater.owns_of_supported supported here

/-- The first parser is a definition that many runs go through, and the continuation has captured
nothing: the definition is alive while a run of it is left, and gone in the pull that finds the last
run, although the sequence goes on. -/
example :
    let one : Parser Char [Nat] Nat := .map (fun _ => 1) .item
    let twice : Parser Char [Nat] Nat :=
      .bind (Parser.ref .here).many .none fun ones =>
        .or (.result ones.length) (.result (100 + ones.length))
    let target : Target Char := ⟨⟨0, #['a']⟩, 0⟩
    let commands : List (Command Char Nat) := [.defineRecursive "p" "h" [] one,
      .define "q" ["p"] twice, .openSequence "s" "q" target, .drop "p", .drop "q", .next "s",
      .next "s", .count "h" target, .next "s", .count "h" target, .next "s", .next "s"]
    let rest (start : Nat) : Input Char := ⟨⟨0, #['a']⟩, start⟩
    (empty.runAll 20 commands).map (·.map Prod.fst) = some [.done, .done, .done, .dropped true,
      .dropped true, .parse 1 (rest 1), .parse 101 (rest 1), .counted 1, .parse 0 (rest 0),
      .counted 0, .parse 100 (rest 0), .ended] := by
  rfl

def counting : Grammar Char :=
  .or (.bind .item "c" (.map (.ref "h") "n" (.arith .add (.var "n") (.const (.int 1)))))
    (.result (.const (.int 0)))

theorem counting_life_cycle :
    let target : Target Char := ⟨⟨0, #['a', 'b']⟩, 0⟩
    let defining : Command Char Value := counting.defineRecursive [0] "p" "h" []
    let after : List (Command Char Value) := [.openSequence "s" "p" target, .drop "p", .next "s"]
    let known := (empty : Session Char Value).ledger 20 ([] ++ defining :: after)
    ∃ defined later heard,
      ((∀ command ∈ [] ++ defining :: after, command.Regular) ∧
        (empty : Session Char Value).play 20 [] = some (empty, []) ∧
        (empty : Session Char Value).run 20 defining = some defined ∧
        defined.value.1.play 20 after = some (later, heard)) ∧
      ∃ built, defined.value.1 = empty.registerDefinition "p" "h" [] built ∧
        empty.LifeCycle defining built known later := by
  intro target defining after known
  have regular : ∀ command ∈ [] ++ defining :: after, command.Regular := by
    refine List.forall_mem_cons.mpr ⟨?_, by simp [after, Command.Regular]⟩
    exact Grammar.defineRecursive_regular sitedLexemes_char _ _ _ _ _
  exact ⟨_, _, _, ⟨regular, rfl, rfl, rfl⟩, definition_life_cycle regular rfl rfl rfl⟩

end Session

end EveryParse
