import EveryParse.Proofs.Independence
import EveryParse.Proofs.Presence
import Mathlib.Data.List.Basic

/-!
The definitions of a session. Its history has made a ledger of them (`Session.ledger`); whatever the
session has in its registers keeps to that ledger, and what a definition owns has been defined
before it. No command makes the session own a definition again that it did not own any more
(`Session.Accounted.play`).
-/

namespace EveryParse

variable {τ α : Type} {β : Type 1} {known : Ledger τ} {present : Owners}

structure Closure.Recorded (known : Ledger τ) (c : Closure τ α) : Prop where
  sound : c.scope.Sound Definition.Numbered fun _ => True
  scope : c.scope.Proper known
  parser : c.parser.Proper known c.scope

structure Parses.Recorded (known : Ledger τ) (s : Parses τ α) : Prop where
  sound : s.Sound Definition.Numbered fun _ => True
  proper : s.Proper known

def Ledger.Ordered (known : Ledger τ) : Prop :=
  ∀ (number : Nat) definition, known[number]? = some definition → ∀ other,
    Parser.Owns (.serial other) (.handle definition.name definition.body definition.scope)
      definition.body → other < number

namespace Session

/-- What is in the registers keeps to the ledger and owns numbered definitions in `present` only. -/
structure Accounted (known : Ledger τ) (present : Owners) (session : Session τ α) : Prop where
  counted : known.length = session.definitions
  ordered : known.Ordered
  parsers : ∀ entry ∈ session.parsers,
    entry.2.Recorded known ∧ Owners.Within entry.2.holds present
  sequences : ∀ entry ∈ session.sequences,
    entry.2.Recorded known ∧ Owners.Within entry.2.holds present

/-- The parsers in the command are sited, so that the numbered definitions are the session's own. -/
def Command.Regular : Command τ α → Prop
  | define _ _ p => p.Sited
  | defineRecursive _ _ _ body => body.Sited
  | openSequence _ _ _ | next _ | count _ _ | complete _ _ | describe _ | drop _ | close _ => True

def definition (session : Session τ α) (uses : List String)
    (body : Parser τ (α :: Uses α uses) α) : Definition τ :=
  ⟨session.scope uses, .serial session.definitions, body⟩

def definition? (fuel : Nat) (session : Session τ α) : Command τ α → Option (Definition τ)
  | .defineRecursive _ _ uses body =>
    (body.build fuel session.holds (.pending (session.scope uses)) []).map fun built =>
      session.definition uses built.value
  | _ => none

/-- The definitions that the commands make, in their order. -/
def ledger (fuel : Nat) (session : Session τ α) : List (Command τ α) → Ledger τ
  | [] => []
  | command :: commands =>
    (session.definition? fuel command).toList ++
      match session.run fuel command with
      | none => []
      | some outcome => outcome.value.1.ledger fuel commands

end Session

theorem Scope.Sound.settled {Γ : List Type} {ρ : Scope τ Γ}
    (sound : ρ.Sound Definition.Numbered fun _ => True) (live : Owners) :
    ρ.Sound (Definition.Settled live) fun _ => True :=
  sound.mono (fun _ numbered => .inl numbered) fun _ => id

theorem Parses.Sound.settled {s : Parses τ α} (sound : s.Sound Definition.Numbered fun _ => True)
    (live : Owners) : s.Sound (Definition.Settled live) fun _ => True :=
  sound.mono (fun _ numbered => .inl numbered) fun _ => id

namespace Registers

theorem mem_of_find? {registers : Registers β} {name : String} {value : β}
    (found : registers.find? name = some value) : (name, value) ∈ registers := by
  obtain ⟨before, after, same, _⟩ := List.lookup_eq_some_iff.mp found
  simp [same]

theorem mem_of_erase {registers : Registers β} {name : String} {entry : String × β}
    (member : entry ∈ registers.erase name) : entry ∈ registers :=
  List.mem_of_mem_filter member

theorem forall_insert {registers : Registers β} {name : String} {value : β}
    {holds : String × β → Prop} (new : holds (name, value))
    (old : ∀ entry ∈ registers, holds entry) :
    ∀ entry ∈ registers.insert name value, holds entry := by
  intro entry member
  rcases List.mem_cons.mp member with rfl | member
  · exact new
  · exact old entry (mem_of_erase member)

end Registers

section Longer

variable {longer : Ledger τ} (grows : known.Grows longer)
include grows

theorem Closure.Recorded.mono {c : Closure τ α} (recorded : c.Recorded known) :
    c.Recorded longer :=
  ⟨recorded.sound, recorded.scope.mono grows, recorded.parser.mono grows⟩

theorem Parses.Recorded.mono {s : Parses τ α} (recorded : s.Recorded known) :
    s.Recorded longer :=
  ⟨recorded.sound, recorded.proper.mono grows⟩

end Longer

namespace Session

variable {session : Session τ α}

namespace Accounted

theorem empty : (empty : Session τ α).Accounted [] present := by
  refine ⟨rfl, ?_, ?_, ?_⟩ <;> simp [Ledger.Ordered, Session.empty]

theorem within (accounted : session.Accounted known present) {number : Nat}
    (owns : session.Owns (.serial number)) : present (.serial number) = true := by
  rcases owns with ⟨entry, member, owns⟩ | ⟨entry, member, owns⟩
  · exact (accounted.parsers entry member).2 number (Closure.holds_iff.mpr owns)
  · exact (accounted.sequences entry member).2 number (Parses.holds_iff.mpr owns)

theorem weaken (accounted : session.Accounted known present) {present' : Owners}
    (owned : ∀ number, session.Owns (.serial number) → present' (.serial number) = true) :
    session.Accounted known present' := by
  refine ⟨accounted.counted, accounted.ordered, ?_, ?_⟩
  · intro entry member
    refine ⟨(accounted.parsers entry member).1, fun number holds => ?_⟩
    exact owned number (.inl ⟨entry, member, Closure.holds_iff.mp holds⟩)
  · intro entry member
    refine ⟨(accounted.sequences entry member).1, fun number holds => ?_⟩
    exact owned number (.inr ⟨entry, member, Parses.holds_iff.mp holds⟩)

theorem self (accounted : session.Accounted known present) :
    session.Accounted known session.holds :=
  accounted.weaken fun _ => Session.holds_iff.mpr

theorem passes (accounted : session.Accounted known present) {number : Nat}
    (owns : session.Owns (.serial number)) : known.Passes number (session.Owns ·) := by
  rcases owns with ⟨entry, member, owns⟩ | ⟨entry, member, owns⟩
  · have recorded := (accounted.parsers entry member).1
    exact (Parser.Owns.passes recorded.scope recorded.parser owns).imp fun _ owns =>
      .inl ⟨entry, member, owns⟩
  · have recorded := (accounted.sequences entry member).1
    exact (Parses.Owns.passes recorded.proper owns).imp fun _ owns => .inr ⟨entry, member, owns⟩

theorem closed (accounted : session.Accounted known present) :
    Owners.Closed known session.holds :=
  .of_passes (fun _ => Session.holds_iff) fun _ => accounted.passes

theorem owns_of_supported (accounted : session.Accounted known present) {alive : Nat → Prop}
    (supported : ∀ number, alive number → session.Owns (.serial number) ∨
      ∃ (holder : Nat) (definition : Definition τ), alive holder ∧
        known[holder]? = some definition ∧
        Parser.Owns (.serial number)
          (.handle definition.name definition.body definition.scope) definition.body)
    {number : Nat} (here : alive number) : session.Owns (.serial number) := by
  -- A holder has a greater number than what it holds, and there are only so many.
  generalize left : known.length - number = distance
  induction distance using Nat.strongRecOn generalizing number with
  | ind distance ih =>
      rcases supported number here with owns | ⟨holder, definition, alive, found, owns⟩
      · exact owns
      · have below := accounted.ordered holder definition found number owns
        have bound := (List.getElem?_eq_some_iff.mp found).1
        have held := ih (known.length - holder) (by omega) alive rfl
        obtain ⟨_, found', passes⟩ := accounted.passes held
        cases found.symm.trans found'
        exact passes _ (.body owns)

theorem parser? (accounted : session.Accounted known present) {name : String} {c : Closure τ α}
    (found : session.parsers.find? name = some c) :
    c.Recorded known ∧ Owners.Within c.holds present :=
  accounted.parsers _ (Registers.mem_of_find? found)

theorem sequence? (accounted : session.Accounted known present) {name : String} {s : Parses τ α}
    (found : session.sequences.find? name = some s) :
    s.Recorded known ∧ Owners.Within s.holds present :=
  accounted.sequences _ (Registers.mem_of_find? found)

theorem scope (accounted : session.Accounted known present) (uses : List String) :
    (session.scope uses).Sound Definition.Numbered (fun _ => True) ∧
      (session.scope uses).Proper known ∧ Owners.Within (session.scope uses).holds present := by
  induction uses with
  | nil => exact ⟨trivial, trivial, Owners.nobody_within present⟩
  | cons name uses ih =>
      obtain ⟨sound, proper, within⟩ := ih
      unfold Session.scope
      cases found : session.parsers.find? name with
      | none => exact ⟨⟨trivial, sound⟩, proper, within⟩
      | some c =>
          obtain ⟨recorded, holds⟩ := accounted.parser? found
          exact ⟨⟨recorded.sound, sound⟩, ⟨⟨recorded.parser, recorded.scope⟩, proper⟩,
            Owners.add_within within holds⟩

theorem register (accounted : session.Accounted known present) (name : String) {c : Closure τ α}
    (recorded : c.Recorded known) (within : Owners.Within c.holds present) :
    (session.register name c).Accounted known present :=
  ⟨accounted.counted, accounted.ordered,
    Registers.forall_insert ⟨recorded, within⟩ accounted.parsers, accounted.sequences⟩

theorem insert (accounted : session.Accounted known present) (name : String) {s : Parses τ α}
    (recorded : s.Recorded known) (within : Owners.Within s.holds present) :
    Accounted known present { session with sequences := session.sequences.insert name s } :=
  ⟨accounted.counted, accounted.ordered, accounted.parsers,
    Registers.forall_insert ⟨recorded, within⟩ accounted.sequences⟩

theorem eraseParser (accounted : session.Accounted known present) (name : String) :
    Accounted known present { session with parsers := session.parsers.erase name } :=
  ⟨accounted.counted, accounted.ordered,
    fun entry member => accounted.parsers entry (Registers.mem_of_erase member),
    accounted.sequences⟩

theorem eraseSequence (accounted : session.Accounted known present) (name : String) :
    Accounted known present { session with sequences := session.sequences.erase name } :=
  ⟨accounted.counted, accounted.ordered, accounted.parsers,
    fun entry member => accounted.sequences entry (Registers.mem_of_erase member)⟩

end Accounted

/-- The session as it is while the command is carried out: a sequence that is pulled keeps alive
what its parts do, and nothing by being registered. -/
def beside (session : Session τ α) : Command τ α → Session τ α
  | .next sequence => { session with sequences := session.sequences.erase sequence }
  | _ => session

def Command.target? : Command τ α → Option (String × Target τ)
  | openSequence _ name target | count name target | complete name target => some (name, target)
  | define _ _ _ | defineRecursive _ _ _ _ | next _ | describe _ | drop _ | close _ => none

def Command.Pulls : Command τ α → Prop
  | count _ _ | complete _ _ => True
  | openSequence _ _ _ | define _ _ _ | defineRecursive _ _ _ _ | next _ | describe _ | drop _
  | close _ => False

/-- The calls that the command begins, one after the other. Completing makes the first of the calls
that counting makes. -/
inductive Begins (session : Session τ α) : Command τ α → Call τ → Prop
  | define {name uses p} : Begins session (.define name uses p)
      ⟨session.holds, .build (session.scope uses) p, []⟩
  | defineRecursive {name handle uses} {body : Parser τ (α :: Uses α uses) α} :
      Begins session (.defineRecursive name handle uses body)
        ⟨session.holds, .build (.pending (session.scope uses)) body, []⟩
  | invoke {command name target c input} (uses : command.target? = some (name, target))
      (found : session.parsers.find? name = some c) (starts : target.input? = .ok input) :
      Begins session command ⟨session.holds, .invoke c.scope c.parser input, []⟩
  | pull {command name target c input opened} (uses : command.target? = some (name, target))
      (found : session.parsers.find? name = some c) (starts : target.input? = .ok input)
      (pulls : command.Pulls)
      (opens : (Task.invoke c.scope c.parser input).Returns session.holds [] opened) :
      Begins session command ⟨session.holds, .count opened.value 0, opened.log⟩
  | next {sequence s} (found : session.sequences.find? sequence = some s) :
      Begins session (.next sequence)
        ⟨(session.beside (.next sequence)).holds, .pull s, []⟩

section Accounted

variable {command : Command τ α} {first : Call τ}

theorem Accounted.invoke (accounted : session.Accounted known present) {name : String}
    {c : Closure τ α} (found : session.parsers.find? name = some c) (input : Input τ) :
    (Task.invoke c.scope c.parser input).Accounted known session.holds := by
  obtain ⟨recorded, within⟩ := accounted.self.parser? found
  exact ⟨accounted.closed, recorded.sound.settled _, ⟨recorded.scope, recorded.parser⟩, within⟩

theorem Accounted.invoked (accounted : session.Accounted known present) {name : String}
    {c : Closure τ α} (found : session.parsers.find? name = some c) {input : Input τ} {fuel : Nat}
    {opened : Outcome (Parses τ α)}
    (ran : Task.run fuel session.holds (.invoke c.scope c.parser input) [] = some opened) :
    opened.value.Recorded known ∧ Owners.Within opened.value.holds session.holds := by
  have recorded := (accounted.parser? found).1
  have sound := keepsSound_upheld.result_of_run trivial ran
  have proper := (keepsProper_upheld known).result_of_run trivial ran
  have within := (accounted.invoke found input).leaves_within ran
  exact ⟨⟨sound _ _ recorded.sound, proper recorded.scope recorded.parser⟩, within⟩

theorem Accounted.pull (accounted : session.Accounted known present) {sequence : String}
    {s : Parses τ α} (found : session.sequences.find? sequence = some s) :
    (Task.pull s).Accounted known (session.beside (.next sequence)).holds := by
  obtain ⟨recorded, within⟩ := accounted.self.sequence? found
  have others := accounted.self.eraseSequence sequence
  exact ⟨others.closed, recorded.sound.settled _, recorded.proper, trivial⟩

theorem Accounted.pulled (accounted : session.Accounted known present) {sequence : String}
    {s : Parses τ α} (found : session.sequences.find? sequence = some s) {fuel : Nat}
    {answer : Outcome (Answer τ α)}
    (ran : Task.run fuel (session.beside (.next sequence)).holds (.pull s) [] = some answer) :
    answer.value.next.Recorded known ∧ Owners.Within answer.value.next.holds session.holds := by
  obtain ⟨recorded, holds⟩ := accounted.self.sequence? found
  have sound := keepsSound_upheld.result_of_run trivial ran
  have proper := (keepsProper_upheld known).result_of_run trivial ran
  have within := (accounted.pull found).leaves_within ran
  have others := accounted.self.eraseSequence sequence
  have beside : Owners.Within (session.beside (.next sequence)).holds session.holds :=
    fun _ holds => others.within (Session.holds_iff.mp holds)
  exact ⟨⟨sound _ _ recorded.sound, proper recorded.proper⟩,
    within.trans (Owners.add_within beside holds)⟩

theorem Begins.accounted (accounted : session.Accounted known present)
    (regular : command.Regular) (begins : session.Begins command first) :
    first.Accounted known ∧ first.present.Within session.holds := by
  cases begins with
  | @define name uses p =>
      obtain ⟨sound, proper, within⟩ := accounted.self.scope uses
      exact ⟨⟨accounted.closed, sound.settled _, ⟨proper, regular⟩, within⟩, .refl _⟩
  | @defineRecursive name handle uses body =>
      obtain ⟨sound, proper, within⟩ := accounted.self.scope uses
      exact ⟨⟨accounted.closed, ⟨trivial, sound.settled _⟩, ⟨proper, regular⟩, within⟩, .refl _⟩
  | invoke uses found starts => exact ⟨accounted.invoke found _, .refl _⟩
  | pull uses found starts pulls opens =>
      obtain ⟨fuel, ran⟩ := opens
      obtain ⟨recorded, within⟩ := accounted.invoked found ran
      exact ⟨⟨accounted.closed, recorded.sound.settled _, recorded.proper, trivial⟩,
        Owners.add_within (.refl _) within⟩
  | @next sequence s found =>
      have others : (session.beside (.next sequence)).Accounted known session.holds :=
        accounted.self.eraseSequence sequence
      have within : Owners.Within (session.beside (.next sequence)).holds session.holds :=
        fun _ holds => others.within (Session.holds_iff.mp holds)
      exact ⟨accounted.pull found, Owners.add_within within (accounted.self.sequence? found).2⟩

end Accounted

section Define

variable {uses : List String} {body : Parser τ (α :: Uses α uses) α}

theorem Accounted.owns_before (accounted : session.Accounted known present) (sited : body.Sited)
    {name : Name} {other : Nat}
    (owns : body.Owns (.serial other) (.handle name body (session.scope uses))) :
    other < known.length := by
  have held : (session.scope uses).holds (.serial other) = true := by
    simpa [Scope.holds, Scope.held] using sited.any_of_holds owns.keeps
  obtain ⟨definition, found, _⟩ :=
    (Scope.holds_iff.mp held).passes (accounted.scope uses).2.1
  exact (List.getElem?_eq_some_iff.mp found).1

theorem Accounted.ordered_append (accounted : session.Accounted known present)
    (sited : body.Sited) : Ledger.Ordered (known ++ [session.definition uses body]) := by
  intro number definition found other owns
  by_cases old : number < known.length
  · rw [List.getElem?_append_left old] at found
    exact accounted.ordered number definition found other owns
  · rw [List.getElem?_append_right (by omega), List.getElem?_singleton] at found
    obtain ⟨_, same⟩ := Option.ite_none_right_eq_some.mp found
    cases same
    have before := accounted.owns_before sited owns
    omega

theorem Accounted.register_definition (accounted : session.Accounted known present)
    (fresh : present (.serial session.definitions) = true) (name handle : String)
    (sited : body.Sited) :
    (session.registerDefinition name handle uses body).Accounted
      (known ++ [session.definition uses body]) present := by
  obtain ⟨sound, scope, within⟩ := accounted.scope uses
  have ordered := accounted.ordered_append sited
  -- As a variable, since `cases` would unfold the ledger below.
  obtain ⟨longer, made⟩ : ∃ longer, longer = known ++ [session.definition uses body] := ⟨_, rfl⟩
  rw [← made] at ordered ⊢
  have grows : known.Grows longer := made ▸ known.grows_append _
  have added : longer[session.definitions]? = some (session.definition uses body) := by
    simp [made, ← accounted.counted]
  have proper : (session.definition uses body).Proper longer := by
    refine ⟨sited, fun number same => ?_⟩
    cases same
    exact added
  have whole : Closure.Recorded longer
      ⟨session.scope uses, .recursive (.serial session.definitions) body⟩ :=
    ⟨sound, scope.mono grows, proper⟩
  have leaked : Closure.Recorded longer
      ⟨.handle (.serial session.definitions) body (session.scope uses), .ref .here⟩ :=
    ⟨⟨⟨_, rfl⟩, sound⟩, ⟨proper, scope.mono grows⟩, trivial⟩
  have owned : Owners.Within ((Parser.recursive (.serial session.definitions) body).keeps
      (session.scope uses)) present := by
    intro number keeps
    simp only [Parser.keeps, Parser.holds, Bool.or_eq_true, beq_iff_eq] at keeps
    rcases keeps with same | keeps
    · exact same ▸ fresh
    · exact within number (by simpa [Scope.holds] using sited.any_of_holds keeps)
  have grown : Accounted longer present
      { session with definitions := session.definitions + 1 } := by
    refine ⟨by simp [made, accounted.counted], ordered, ?_, ?_⟩
    · intro entry member
      exact (accounted.parsers entry member).imp_left fun recorded => recorded.mono grows
    · intro entry member
      exact (accounted.sequences entry member).imp_left fun recorded => recorded.mono grows
  exact (grown.register name whole owned).register handle leaked (Owners.nobody_within present)

end Define

theorem Accounted.run (accounted : session.Accounted known present) {command : Command τ α}
    (regular : command.Regular) (fresh : present (.serial session.definitions) = true) {fuel : Nat}
    {outcome : Outcome (Session τ α × Reply τ α)} (ran : session.run fuel command = some outcome) :
    outcome.value.1.Accounted (known ++ (session.definition? fuel command).toList) present := by
  have inside : Owners.Within session.holds present :=
    fun _ holds => accounted.within (Session.holds_iff.mp holds)
  have same : session.Accounted (known ++ []) present := by simpa using accounted
  cases command with
  | define name uses p =>
      obtain ⟨built, builds, rfl⟩ := Option.map_eq_some_iff.mp ran
      obtain ⟨sound, proper, within⟩ := accounted.scope uses
      rw [(carried fuel).build] at builds
      have sited : built.value.Sited :=
        (keepsProper_upheld known).result_of_run trivial builds regular
      have recorded : Closure.Recorded known ⟨session.scope uses, built.value⟩ :=
        ⟨sound, proper, sited.proper⟩
      exact same.register name (recorded.mono (known.grows_append _))
        ((sited.keeps_within _).trans within)
  | defineRecursive name handle uses body =>
      obtain ⟨built, builds, rfl⟩ := Option.map_eq_some_iff.mp ran
      have sited : built.value.Sited := by
        rw [(carried fuel).build] at builds
        exact (keepsProper_upheld known).result_of_run trivial builds regular
      simp only [definition?, builds, Option.map_some, Option.toList_some]
      exact accounted.register_definition fresh name handle sited
  | openSequence sequence name target =>
      simp only [Session.run, running] at ran
      split at ran
      · cases ran
        exact same
      next c found =>
        split at ran
        · cases ran
          exact same
        · obtain ⟨opened, invoked, rfl⟩ := Option.map_eq_some_iff.mp ran
          rw [(carried fuel).invoke] at invoked
          obtain ⟨recorded, within⟩ := same.invoked found invoked
          exact same.insert sequence recorded (within.trans inside)
  | next sequence =>
      simp only [Session.run] at ran
      split at ran
      · cases ran
        exact same
      next s found =>
        obtain ⟨answer, pulled, rfl⟩ := Option.map_eq_some_iff.mp ran
        rw [(carried fuel).pull] at pulled
        obtain ⟨recorded, within⟩ := same.pulled found pulled
        have left := same.insert sequence recorded (within.trans inside)
        obtain ⟨_ | _, _⟩ := answer <;> exact left
  | count name target =>
      refine running_keeps (Accounted _ present) same ?_ ran
      intro c input outcome acted
      obtain ⟨opened, _, counted⟩ := Option.bind_eq_some_iff.mp acted
      obtain ⟨count, _, rfl⟩ := Option.map_eq_some_iff.mp counted
      exact same
  | complete name target =>
      refine running_keeps (Accounted _ present) same ?_ ran
      intro c input outcome acted
      obtain ⟨⟨_ | _, log⟩, _, rfl⟩ := Option.map_eq_some_iff.mp acted <;> exact same
  | describe name =>
      simp only [Session.run] at ran
      split at ran <;> (cases ran; exact same)
  | drop name =>
      cases ran
      exact same.eraseParser name
  | close sequence =>
      cases ran
      exact same.eraseSequence sequence

end Session

end EveryParse
