import EveryParse.Proofs.Eager
import EveryParse.Proofs.Ownership
import EveryParse.Session

/-!
Open sequences of a session. Main statement: whatever a session does beside a sequence that leads to
no handle from outside its definition, the sequence answers as it does alone.
-/

namespace EveryParse

variable {τ α : Type}

namespace Registers

variable {β : Type 1} {name other : String}

theorem find?_erase_of_ne (different : name ≠ other) (registers : Registers β) :
    (registers.erase other).find? name = registers.find? name := by
  induction registers with
  | nil => rfl
  | cons entry registers ih =>
      obtain ⟨key, value⟩ := entry
      simp only [erase, find?] at ih ⊢
      by_cases same : key = other
      · subst same
        have unlike : (name == key) = false := by simpa using different
        simpa [List.lookup_cons, unlike] using ih
      · simp [same, List.lookup_cons, ih]

theorem find?_insert_self (registers : Registers β) (name : String) (value : β) :
    (registers.insert name value).find? name = some value := by
  simp [insert, find?]

theorem find?_insert_of_ne (different : name ≠ other) (registers : Registers β) (value : β) :
    (registers.insert other value).find? name = registers.find? name := by
  have unlike : (name == other) = false := by simpa using different
  rw [← find?_erase_of_ne different registers]
  simp [insert, find?, List.lookup_cons, unlike]

end Registers

/-- No variable leads to the handle of a definition, unless that is still being built. -/
def Scope.HandleFree {Γ : List Type} (ρ : Scope τ Γ) : Prop :=
  ρ.Sound (fun _ => False) fun _ => True

namespace Session

def Command.concerns (it : String) : Command τ α → Bool
  | openSequence sequence _ _ | next sequence | close sequence => sequence == it
  | define _ _ _ | defineRecursive _ _ _ _ | count _ _ | complete _ _ | describe _ | drop _ => false

/-- The command gives up the sequence `it` or opens another one in its place. -/
def Command.replaces (it : String) : Command τ α → Bool
  | openSequence sequence _ _ | close sequence => sequence == it
  | next _ | define _ _ _ | defineRecursive _ _ _ _ | count _ _ | complete _ _ | describe _
  | drop _ => false

structure Heard (τ α : Type) : Type 1 where
  command : Command τ α
  reply : Reply τ α
  events : List Event

def heard (command : Command τ α) (outcome : Outcome (Session τ α × Reply τ α)) : Heard τ α :=
  ⟨command, outcome.value.2, outcome.log.reverse⟩

def play (fuel : Nat) (session : Session τ α) :
    List (Command τ α) → Option (Session τ α × List (Heard τ α))
  | [] => some (session, [])
  | command :: commands =>
    (session.run fuel command).bind fun outcome =>
      (play fuel outcome.value.1 commands).map fun (after, others) =>
        (after, heard command outcome :: others)

theorem play_cons {fuel : Nat} {session after : Session τ α} {command : Command τ α}
    {commands : List (Command τ α)} {all : List (Heard τ α)} :
    session.play fuel (command :: commands) = some (after, all) ↔
      ∃ outcome others, session.run fuel command = some outcome ∧
        outcome.value.1.play fuel commands = some (after, others) ∧
        heard command outcome :: others = all := by
  simp only [play, Option.bind_eq_some_iff, Option.map_eq_some_iff, Prod.exists, Prod.mk.injEq]
  constructor
  · rintro ⟨outcome, ran, _, others, played, rfl, rfl⟩
    exact ⟨outcome, others, ran, played, rfl⟩
  · rintro ⟨outcome, others, ran, played, rfl⟩
    exact ⟨outcome, ran, after, others, played, rfl, rfl⟩

theorem runAll_eq_play (fuel : Nat) (session : Session τ α) (commands : List (Command τ α)) :
    session.runAll fuel commands =
      (session.play fuel commands).map fun (_, heard) =>
        heard.map fun heard => (heard.reply, heard.events) := by
  induction commands generalizing session with
  | nil => rfl
  | cons command commands ih =>
      simp only [runAll, play, ih]
      cases session.run fuel command with
      | none => rfl
      | some outcome =>
          simp [heard, Option.map_map, Function.comp_def]

def Result.observed (result : Result τ α) : Option (Outcome (Reply τ α)) :=
  Option.map (Outcome.map Prod.snd) result

/-! What a session does beside a sequence leaves the sequence as it is. -/

theorem running_keeps {session : Session τ α} {name : String} {target : Target τ}
    {act : Closure τ α → Input τ → Result τ α} (keeps : Session τ α → Prop) (same : keeps session)
    (acts : ∀ c input outcome, act c input = some outcome → keeps outcome.value.1)
    {outcome : Outcome (Session τ α × Reply τ α)}
    (ran : session.running name target act = some outcome) : keeps outcome.value.1 := by
  unfold running at ran
  split at ran
  · cases ran
    exact same
  · split at ran
    · cases ran
      exact same
    · exact acts _ _ _ ran

theorem find?_of_run {fuel : Nat} {session : Session τ α} {it : String} {command : Command τ α}
    (beside : command.concerns it = false) {outcome : Outcome (Session τ α × Reply τ α)}
    (ran : session.run fuel command = some outcome) :
    outcome.value.1.sequences.find? it = session.sequences.find? it := by
  cases command with
  | define name uses p | defineRecursive name handle uses body =>
      obtain ⟨built, _, rfl⟩ := Option.map_eq_some_iff.mp ran
      rfl
  | openSequence sequence name target =>
      have different : it ≠ sequence := by
        rintro rfl
        simp [Command.concerns] at beside
      refine running_keeps (fun after => after.sequences.find? it = _) rfl ?_ ran
      intro c input outcome acted
      obtain ⟨opened, _, rfl⟩ := Option.map_eq_some_iff.mp acted
      exact Registers.find?_insert_of_ne different _ _
  | next sequence =>
      have different : it ≠ sequence := by
        rintro rfl
        simp [Command.concerns] at beside
      simp only [run] at ran
      split at ran
      · cases ran
        rfl
      · obtain ⟨⟨_ | _, log⟩, _, rfl⟩ := Option.map_eq_some_iff.mp ran <;>
          exact Registers.find?_insert_of_ne different _ _
  | count name target =>
      refine running_keeps (fun after => after.sequences.find? it = _) rfl ?_ ran
      intro c input outcome acted
      obtain ⟨opened, _, counted⟩ := Option.bind_eq_some_iff.mp acted
      obtain ⟨count, _, rfl⟩ := Option.map_eq_some_iff.mp counted
      rfl
  | complete name target =>
      refine running_keeps (fun after => after.sequences.find? it = _) rfl ?_ ran
      intro c input outcome acted
      obtain ⟨⟨_ | _, log⟩, _, rfl⟩ := Option.map_eq_some_iff.mp acted <;> rfl
  | describe name =>
      simp only [run] at ran
      split at ran <;> (cases ran; rfl)
  | drop name =>
      cases ran
      rfl
  | close sequence =>
      have different : it ≠ sequence := by
        rintro rfl
        simp [Command.concerns] at beside
      cases ran
      exact Registers.find?_erase_of_ne different _

section Alike

variable {building : AnyScope τ → Prop} {s : Parses τ α} {it : String}

theorem run_next {session : Session τ α} (registered : session.sequences.find? it = some s)
    (sound : s.Sound (fun _ => False) building) (fuel : Nat) :
    session.run fuel (.next it) =
      (s.pull fuel .everybody []).map (.map (session.answered it)) := by
  simp only [run, registered]
  rw [sound.pull_everybody]

theorem answered_sequences (session : Session τ α) (it : String) (answer : Answer τ α) :
    (session.answered it answer).1.sequences.find? it = some answer.next := by
  cases answer <;> exact Registers.find?_insert_self _ _ _

theorem answered_reply (session other : Session τ α) (it : String) (answer : Answer τ α) :
    (session.answered it answer).2 = (other.answered it answer).2 := by
  cases answer <;> rfl

theorem Command.eq_next {command : Command τ α} (concerns : command.concerns it = true)
    (kept : command.replaces it = false) : command = .next it := by
  cases command <;> simp_all [Command.concerns, Command.replaces]

theorem observed_next {session other : Session τ α}
    (here : session.sequences.find? it = some s) (there : other.sequences.find? it = some s)
    (sound : s.Sound (fun _ => False) building) (fuel : Nat) :
    (session.run fuel (.next it)).observed = (other.run fuel (.next it)).observed := by
  rw [run_next here sound, run_next there sound]
  cases s.pull fuel .everybody [] with
  | none => rfl
  | some outcome =>
      simp only [Result.observed, Option.map_some, Outcome.map]
      rw [answered_reply session other]

theorem play_beside {session alone : Session τ α} (here : session.sequences.find? it = some s)
    (there : alone.sequences.find? it = some s) (sound : s.Sound (fun _ => False) building)
    {history : List (Command τ α)} (kept : ∀ command ∈ history, command.replaces it = false)
    {fuel : Nat} {after : Session τ α} {heard : List (Heard τ α)}
    (played : session.play fuel history = some (after, heard)) :
    ∃ (left : Parses τ α) (aloneAfter : Session τ α), left.Sound (fun _ => False) building ∧
      after.sequences.find? it = some left ∧ aloneAfter.sequences.find? it = some left ∧
      alone.play fuel (history.filter (·.concerns it)) =
        some (aloneAfter, heard.filter (·.command.concerns it)) := by
  induction history generalizing session alone s heard with
  | nil =>
      cases played
      exact ⟨s, alone, sound, here, there, rfl⟩
  | cons command history ih =>
      rw [List.forall_mem_cons] at kept
      obtain ⟨outcome, others, ran, later, rfl⟩ := play_cons.mp played
      by_cases own : command.concerns it = true
      · cases Command.eq_next own kept.1
        rw [run_next here sound] at ran
        obtain ⟨answer, pulled, rfl⟩ := Option.map_eq_some_iff.mp ran
        obtain ⟨left, aloneAfter, soundLeft, here', there', alike⟩ :=
          ih (answered_sequences session it answer.value)
            (answered_sequences alone it answer.value) (sound.of_pull pulled) kept.2 later
        refine ⟨left, aloneAfter, soundLeft, here', there', ?_⟩
        have pulledAlone : alone.run fuel (.next it) = some (answer.map (alone.answered it)) := by
          rw [run_next there sound, pulled, Option.map_some]
        rw [List.filter_cons_of_pos own, List.filter_cons_of_pos (by exact own)]
        refine play_cons.mpr ⟨_, _, pulledAlone, alike, ?_⟩
        simp [heard, Outcome.map, answered_reply session alone]
      · have frame := find?_of_run (by simpa using own) ran
        obtain ⟨left, aloneAfter, soundLeft, here', there', alike⟩ :=
          ih (frame.trans here) there sound kept.2 later
        refine ⟨left, aloneAfter, soundLeft, here', there', ?_⟩
        rwa [List.filter_cons_of_neg own, List.filter_cons_of_neg (by exact own)]

end Alike

theorem scope_handleFree {session : Session τ α} {uses : List String}
    (free : ∀ name ∈ uses, ∀ c, session.parsers.find? name = some c → c.scope.HandleFree) :
    (session.scope uses).HandleFree := by
  induction uses with
  | nil => trivial
  | cons name uses ih =>
      rw [List.forall_mem_cons] at free
      have others := ih free.2
      unfold scope
      cases found : session.parsers.find? name with
      | none => exact ⟨trivial, others⟩
      | some c => exact ⟨free.1 c found, others⟩

def alone (name : String) (c : Closure τ α) : Session τ α :=
  empty.register name c

theorem run_open {session : Session τ α} {name : String} {c : Closure τ α}
    (registered : session.parsers.find? name = some c) (free : c.scope.HandleFree)
    {target : Target τ} {input : Input τ} (starts : target.input? = .ok input) (it : String)
    (fuel : Nat) :
    session.run fuel (.openSequence it name target) =
      (c.parser.invoke fuel .everybody c.scope input []).map (.map fun s =>
        ({ session with sequences := session.sequences.insert it s }, .done)) := by
  simp only [run, running, registered, starts]
  rw [Scope.Sound.invoke_everybody free]

/-- A sequence that is opened on a parser without handles from outside their definitions answers
every pull as if the parser was the only one and nothing else was done: the replies and events are
the same, and where one pull does not come to an end, the other does not either. -/
theorem sequence_independent {session : Session τ α} {name : String} {c : Closure τ α}
    (registered : session.parsers.find? name = some c) (free : c.scope.HandleFree)
    {target : Target τ} {input : Input τ} (starts : target.input? = .ok input) (it : String)
    {history : List (Command τ α)} (kept : ∀ command ∈ history, command.replaces it = false)
    (fuel : Nat) :
    let opening : Command τ α := .openSequence it name target
    (session.run fuel opening).observed = ((alone name c).run fuel opening).observed ∧
    ∀ after all, session.play fuel (opening :: history) = some (after, all) →
      ∃ aloneAfter, (alone name c).play fuel (opening :: history.filter (·.concerns it)) =
          some (aloneAfter, all.filter (·.command.concerns it)) ∧
        ∀ fuel', (after.run fuel' (.next it)).observed =
          (aloneAfter.run fuel' (.next it)).observed := by
  intro opening
  have only : (alone name c).parsers.find? name = some c := Registers.find?_insert_self _ _ _
  have here := run_open registered free starts it fuel
  have there := run_open only free starts it fuel
  constructor
  · rw [here, there]
    cases c.parser.invoke fuel .everybody c.scope input [] <;> rfl
  · intro after all played
    obtain ⟨outcome, others, ran, later, rfl⟩ := play_cons.mp played
    rw [here] at ran
    obtain ⟨opened, invoked, rfl⟩ := Option.map_eq_some_iff.mp ran
    rw [invoked, Option.map_some] at there
    have sound : opened.value.Sound (fun _ => False) fun _ => True :=
      Scope.Sound.of_invoke free invoked
    have stored (registers : Registers (Parses τ α)) :
        (registers.insert it opened.value).find? it = some opened.value :=
      registers.find?_insert_self it opened.value
    let openedAlone : Session τ α :=
      { alone name c with sequences := (alone name c).sequences.insert it opened.value }
    have thereOpened : openedAlone.sequences.find? it = some opened.value := stored _
    obtain ⟨left, aloneAfter, soundLeft, hereLeft, thereLeft, alike⟩ :=
      play_beside (stored _) thereOpened sound kept later
    refine ⟨aloneAfter, ?_, observed_next hereLeft thereLeft soundLeft⟩
    have own : opening.concerns it = true := by simp [opening, Command.concerns]
    rw [List.filter_cons_of_pos (by exact own)]
    exact play_cons.mpr ⟨_, _, there, alike, rfl⟩

theorem dropped_sequence_independent :
    let defined : Session Char Nat := empty.registerDefinition "p" "h" [] tally
    let c : Closure Char Nat := ⟨defined.scope ["p"], .ref .here⟩
    let session := defined.register "clone" c
    let target : Target Char := ⟨⟨0, #['a', 'b']⟩, 0⟩
    let history : List (Command Char Nat) :=
      [.drop "p", .openSequence "t" "clone" target, .drop "clone", .next "s", .next "t", .next "s"]
    let opening : Command Char Nat := .openSequence "s" "clone" target
    (session.parsers.find? "clone" = some c ∧ c.scope.HandleFree ∧
        target.input? = .ok ⟨target.buffer, 0⟩ ∧
        ∀ command ∈ history, command.replaces "s" = false) ∧
      (session.run 20 opening).observed = ((alone "clone" c).run 20 opening).observed ∧
      ∀ after all, session.play 20 (opening :: history) = some (after, all) →
        ∃ aloneAfter,
          (alone "clone" c).play 20 (opening :: history.filter (·.concerns "s")) =
            some (aloneAfter, all.filter (·.command.concerns "s")) ∧
          ∀ fuel', (after.run fuel' (.next "s")).observed =
            (aloneAfter.run fuel' (.next "s")).observed := by
  intro defined c session target history opening
  have registered : session.parsers.find? "clone" = some c := Registers.find?_insert_self _ _ _
  have free : c.scope.HandleFree := by
    apply scope_handleFree
    intro name member whole found
    cases List.mem_singleton.mp member
    rw [show defined.parsers = Registers.insert _ "h" _ from rfl] at found
    rw [Registers.find?_insert_of_ne (by decide)] at found
    cases (Registers.find?_insert_self _ _ _).symm.trans found
    trivial
  have starts : target.input? = .ok ⟨target.buffer, 0⟩ := rfl
  have kept : ∀ command ∈ history, command.replaces "s" = false := by
    simp [history, Command.replaces]
  exact ⟨⟨registered, free, starts, kept⟩,
    sequence_independent registered free starts "s" kept 20⟩

end Session

end EveryParse
