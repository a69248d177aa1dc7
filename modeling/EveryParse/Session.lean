import EveryParse.Complete
import EveryParse.Listing
import EveryParse.Text.Shown

/-!
Sessions: named parsers and named open sequences. Both can be replaced and dropped at any time, and
with them go the definitions that nothing else keeps alive.
-/

namespace EveryParse

abbrev Registers (β : Type 1) := List (String × β)

namespace Registers

variable {β : Type 1}

def find? (registers : Registers β) (name : String) : Option β :=
  registers.lookup name

def erase (registers : Registers β) (name : String) : Registers β :=
  registers.filter fun entry => entry.1 != name

def insert (registers : Registers β) (name : String) (value : β) : Registers β :=
  (name, value) :: registers.erase name

def contains (registers : Registers β) (name : String) : Bool :=
  registers.any fun entry => entry.1 == name

end Registers

abbrev Uses (α : Type) (names : List String) : List Type :=
  names.map fun _ => α

structure Target (τ : Type) where
  buffer : Buffer τ
  start : Nat

def Target.input? {τ : Type} (target : Target τ) : Except (InputError τ) (Input τ) :=
  Input.at? target.buffer target.start

namespace Session

inductive Command (τ α : Type) : Type 1 where
  | define (name : String) (uses : List String) (p : Parser τ (Uses α uses) α)
  | defineRecursive (name handle : String) (uses : List String)
      (body : Parser τ (α :: Uses α uses) α)
  | openSequence (sequence name : String) (target : Target τ)
  | next (sequence : String)
  | count (name : String) (target : Target τ)
  | complete (name : String) (target : Target τ)
  | describe (name : String)
  | drop (name : String)
  | close (sequence : String)

inductive Reply (τ α : Type) where
  | done
  | parse (value : α) (rest : Input τ)
  | ended
  | counted (count : Nat)
  | completed (value : α)
  | shown (text : String)
  | dropped (existed : Bool)
  | refused (error : InputError τ)
  | incomplete (failure : Incomplete)
  | unknown (name : String)

end Session

structure Session (τ α : Type) : Type 1 where
  parsers : Registers (Closure τ α)
  sequences : Registers (Parses τ α)
  definitions : Nat

def Parser.shown : String :=
  "Parser \x7b .. \x7d"

namespace Session

variable {τ α : Type}

def empty : Session τ α :=
  ⟨[], [], 0⟩

def holds (session : Session τ α) (name : Name) : Bool :=
  session.parsers.any (fun entry => entry.2.holds name) ||
    session.sequences.any (fun entry => entry.2.holds name)

def scope (session : Session τ α) : (uses : List String) → Scope τ (Uses α uses)
  | [] => .empty
  | name :: uses =>
    match session.parsers.find? name with
    | some c => .link c.scope c.parser (session.scope uses)
    | none => .pending (session.scope uses)

def register (session : Session τ α) (name : String) (c : Closure τ α) : Session τ α :=
  { session with parsers := session.parsers.insert name c }

abbrev Result (τ α : Type) := Option (Outcome (Session τ α × Reply τ α))

def quietly (session : Session τ α) (reply : Reply τ α) : Result τ α :=
  some ⟨(session, reply), []⟩

def running (session : Session τ α) (name : String) (target : Target τ)
    (act : Closure τ α → Input τ → Result τ α) : Result τ α :=
  match session.parsers.find? name with
  | none => session.quietly (.unknown name)
  | some c =>
    match target.input? with
    | .error error => session.quietly (.refused error)
    | .ok input => act c input

def answered (session : Session τ α) (sequence : String) :
    Answer τ α → Session τ α × Reply τ α
  | .parse v rest s =>
    ({ session with sequences := session.sequences.insert sequence s }, .parse v rest)
  | .ended s => ({ session with sequences := session.sequences.insert sequence s }, .ended)

/-- Registers a definition and its handle. The handle comes second and takes the name if both are
given the same. -/
def registerDefinition (session : Session τ α) (name handle : String) (uses : List String)
    (body : Parser τ (α :: Uses α uses) α) : Session τ α :=
  let definition := Name.serial session.definitions
  let whole : Closure τ α := ⟨session.scope uses, .recursive definition body⟩
  let leaked : Closure τ α := ⟨.handle definition body (session.scope uses), .ref .here⟩
  let registered := (session.register name whole).register handle leaked
  { registered with definitions := session.definitions + 1 }

/-- Everything in the registers stays there while the command runs, also what it replaces. A
sequence that is pulled keeps alive what its parts do, and nothing by being registered. -/
def run (fuel : Nat) (session : Session τ α) : Command τ α → Result τ α
  | .define name uses p =>
    (p.build fuel session.holds (session.scope uses) []).map <|
      .map fun p => (session.register name ⟨session.scope uses, p⟩, .done)
  | .defineRecursive name handle uses body =>
    (body.build fuel session.holds (.pending (session.scope uses)) []).map <|
      .map fun body => (session.registerDefinition name handle uses body, .done)
  | .openSequence sequence name target =>
    session.running name target fun c input =>
      (c.parser.invoke fuel session.holds c.scope input []).map <|
        .map fun s => ({ session with sequences := session.sequences.insert sequence s }, .done)
  | .next sequence =>
    match session.sequences.find? sequence with
    | none => session.quietly (.unknown sequence)
    | some s =>
      let others := { session with sequences := session.sequences.erase sequence }
      (s.pull fuel others.holds []).map (.map (session.answered sequence))
  | .count name target =>
    session.running name target fun c input =>
      (c.parser.invoke fuel session.holds c.scope input []).bind fun ⟨s, log⟩ =>
        (s.count fuel session.holds 0 log).map (.map fun count => (session, .counted count))
  | .complete name target =>
    session.running name target fun c input =>
      (c.parser.complete fuel session.holds c.scope input []).map <|
        .map fun
          | .ok v => (session, .completed v)
          | .error failure => (session, .incomplete failure)
  | .describe name =>
    match session.parsers.find? name with
    | none => session.quietly (.unknown name)
    | some _ => session.quietly (.shown Parser.shown)
  | .drop name =>
    quietly { session with parsers := session.parsers.erase name }
      (.dropped (session.parsers.contains name))
  | .close sequence =>
    quietly { session with sequences := session.sequences.erase sequence }
      (.dropped (session.sequences.contains sequence))

def runAll (fuel : Nat) (session : Session τ α) :
    List (Command τ α) → Option (List (Reply τ α × List Event))
  | [] => some []
  | command :: commands =>
    (session.run fuel command).bind fun ⟨(session, reply), log⟩ =>
      (runAll fuel session commands).map ((reply, log.reverse) :: ·)

end Session

end EveryParse
