/-!
What can be observed of a run: parsers being invoked, parses being pulled, sequences ending, and
notes made by the functions that a parser calls.
-/

namespace EveryParse

inductive Event where
  | run (label : String) (offset : Nat)
  | yield (label : String) (offset : Nat)
  | ended (label : String)
  | note (label : String)
  deriving DecidableEq, Repr

def Event.text : Event → String
  | run label offset => s!"run {label} {offset}"
  | yield label offset => s!"yield {label} {offset}"
  | ended label => s!"end {label}"
  | note label => s!"note {label}"

/-- A value with the events, first one first, that finding it caused. -/
structure Logged (α : Type) where
  value : α
  events : List Event

namespace Logged

variable {α β : Type}

def silent (value : α) : Logged α :=
  ⟨value, []⟩

def note (label : String) : Logged Unit :=
  ⟨(), [.note label]⟩

instance : Monad Logged where
  pure := silent
  bind x f := ⟨(f x.value).value, x.events ++ (f x.value).events⟩

/-- Puts the events on a log that has the newest event first. -/
def onto (x : Logged α) (log : List Event) : List Event :=
  x.events.reverseAux log

end Logged

end EveryParse
