import EveryParse.Run
import EveryParse.Text.Shown

/-!
A desk of named buffers and of named inputs over them.
-/

namespace EveryParse

namespace Desk

inductive Command (τ α : Type) : Type 1 where
  | buffer (name : String) (tokens : Array τ)
  | start (name buffer : String)
  | startAt (name buffer : String) (offset : Nat)
  | fresh (name : String) (tokens : Array τ)
  | copy (name source : String)
  | split (name source : String)
  /-- Takes the remainder of one parse of `p`; `index` counts the parses from 0. -/
  | run (name source : String) (p : Parser τ [] α) (index : Nat)
  | describe (name : String)
  | write (name : String)
  | writeInLines (name : String)
  | equal (left right : String)
  | equalTokens (name : String) (tokens : List τ)
  | consumed (name remainder : String)

inductive Reply (τ α : Type) where
  | done
  | token (found : Option τ)
  | value (found : Option α)
  | described (input : Input τ)
  | written (text : String)
  | equal (same : Bool)
  | consumed (tokens : List τ)
  | refused (error : InputError τ)
  | unknown (name : String)

end Desk

/-- `made` counts the buffers, so that each gets a serial number of its own. -/
structure Desk (τ : Type) where
  buffers : List (String × Buffer τ)
  inputs : List (String × Input τ)
  made : Nat

namespace Desk

variable {τ α : Type}

def empty : Desk τ :=
  ⟨[], [], 0⟩

def nth (fuel : Nat) (live : Owners) : Nat → Parses τ α → Option (Option (α × Input τ))
  | index, s =>
    match s.pull fuel live [] with
    | none => none
    | some ⟨.ended _, _⟩ => some none
    | some ⟨.parse v rest s, _⟩ =>
      match index with
      | 0 => some (some (v, rest))
      | index + 1 => nth fuel live index s

def put (desk : Desk τ) (name : String) (input : Input τ) : Desk τ :=
  { desk with inputs := (name, input) :: desk.inputs }

def withBuffer (desk : Desk τ) (name : String)
    (act : Buffer τ → Option (Desk τ × Reply τ α)) : Option (Desk τ × Reply τ α) :=
  match desk.buffers.lookup name with
  | none => some (desk, .unknown name)
  | some buffer => act buffer

def withInput (desk : Desk τ) (name : String)
    (act : Input τ → Option (Desk τ × Reply τ α)) : Option (Desk τ × Reply τ α) :=
  match desk.inputs.lookup name with
  | none => some (desk, .unknown name)
  | some input => act input

def run [Shown τ] [BEq τ] (fuel : Nat) (desk : Desk τ) :
    Command τ α → Option (Desk τ × Reply τ α)
  | .buffer name tokens =>
    some ({ desk with
      buffers := (name, ⟨desk.made, tokens⟩) :: desk.buffers, made := desk.made + 1 }, .done)
  | .start name buffer =>
    desk.withBuffer buffer fun buffer => some (desk.put name (.new buffer), .done)
  | .startAt name buffer offset =>
    desk.withBuffer buffer fun buffer =>
      match Input.at? buffer offset with
      | .ok input => some (desk.put name input, .done)
      | .error error => some (desk, .refused error)
  | .fresh name tokens =>
    some ({ desk.put name (.new ⟨desk.made, tokens⟩) with made := desk.made + 1 }, .done)
  | .copy name source =>
    desk.withInput source fun input => some (desk.put name input, .done)
  | .split name source =>
    desk.withInput source fun input =>
      match input.splitFirst with
      | some (token, rest) => some (desk.put name rest, .token (some token))
      | none => some (desk, .token none)
  | .run name source p index =>
    desk.withInput source fun input =>
      (p.build fuel .nobody .empty []).bind fun p =>
        (p.value.invoke fuel .nobody .empty input []).bind fun s =>
          (nth fuel .nobody index s.value).map fun
            | none => (desk, .value none)
            | some (v, rest) => (desk.put name rest, .value (some v))
  | .describe name => desk.withInput name fun input => some (desk, .described input)
  | .write name => desk.withInput name fun input => some (desk, .written input.shown)
  | .writeInLines name => desk.withInput name fun input => some (desk, .written input.shownInLines)
  | .equal left right =>
    desk.withInput left fun left =>
      desk.withInput right fun right => some (desk, .equal (left == right))
  | .equalTokens name tokens =>
    desk.withInput name fun input => some (desk, .equal (input.remaining == tokens))
  | .consumed name remainder =>
    desk.withInput name fun input =>
      desk.withInput remainder fun remainder =>
        match input.consumed remainder with
        | .ok tokens => some (desk, .consumed tokens)
        | .error error => some (desk, .refused error)

def runAll [Shown τ] [BEq τ] (fuel : Nat) (desk : Desk τ) :
    List (Command τ α) → Option (List (Reply τ α))
  | [] => some []
  | command :: commands =>
    (desk.run fuel command).bind fun (desk, reply) =>
      (runAll fuel desk commands).map (reply :: ·)

end Desk

end EveryParse
