import EveryParse.Grammar.Basic
import EveryParse.Session
import EveryParse.Desk

/-!
Running grammars: on one input, and as what sessions and desks are told to use.
-/

namespace EveryParse

def Names.ofUses : (uses : List String) → Names (Uses Value uses)
  | [] => []
  | name :: uses => (Names.ofUses uses).push name

namespace Grammar

variable {τ : Type} [Token τ]

def closed (g : Grammar τ) : Parser τ [] Value :=
  g.parser [] [] [0]

/-- Lists parses. What happens while the parser is built is not part of the listing. -/
def listing (fuel : Nat) (g : Grammar τ) (input : Input τ) (limit : Nat) :
    Option (Listing τ Value) :=
  (g.closed.build fuel .nobody .empty []).bind fun p =>
    p.value.listing fuel .nobody .empty input limit

def complete (fuel : Nat) (g : Grammar τ) (input : Input τ) :
    Option (Outcome (Except Incomplete Value)) :=
  (g.closed.build fuel .nobody .empty []).bind fun p =>
    p.value.complete fuel .nobody .empty input []

/-- `address` tells the definitions in this grammar from those in others. -/
def define (address : List Nat) (name : String) (uses : List String) (g : Grammar τ) :
    Session.Command τ Value :=
  .define name uses (g.parser (.ofUses uses) [] address)

def defineRecursive (address : List Nat) (name handle : String) (uses : List String)
    (g : Grammar τ) : Session.Command τ Value :=
  .defineRecursive name handle uses (g.parser ((Names.ofUses uses).push handle) [] address)

def run (name source : String) (g : Grammar τ) (index : Nat) : Desk.Command τ Value :=
  .run name source g.closed index

end Grammar

end EveryParse
