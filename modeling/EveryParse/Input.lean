/-!
Positions in a shared run of tokens. An input is a buffer with an offset; what stands from the
offset on remains to be read. Reading moves the offset and never copies the buffer.
-/

namespace EveryParse

/-- Buffers are told apart by their serial number, so two of them with equal tokens stay two. -/
structure Buffer (τ : Type) where
  serial : Nat
  tokens : Array τ

structure Input (τ : Type) where
  buffer : Buffer τ
  offset : Nat

inductive InputError (τ : Type) where
  | startBeyondEnd (start length : Nat)
  | differentBuffers (input remainder : Input τ)
  | remainderBefore (input remainder : Nat)

namespace Input

variable {τ : Type}

def new (buffer : Buffer τ) : Input τ :=
  ⟨buffer, 0⟩

/-- The position just behind the last token is still a position. -/
def at? (buffer : Buffer τ) (start : Nat) : Except (InputError τ) (Input τ) :=
  if start ≤ buffer.tokens.size then
    .ok ⟨buffer, start⟩
  else
    .error (.startBeyondEnd start buffer.tokens.size)

def length (input : Input τ) : Nat :=
  input.buffer.tokens.size - input.offset

def isEmpty (input : Input τ) : Bool :=
  input.length == 0

def remaining (input : Input τ) : List τ :=
  input.buffer.tokens.toList.drop input.offset

def splitFirst (input : Input τ) : Option (τ × Input τ) :=
  input.buffer.tokens[input.offset]?.map fun token =>
    (token, { input with offset := input.offset + 1 })

def advance (input : Input τ) (count : Nat) : Input τ :=
  { input with offset := input.offset + count }

/-- The tokens from `input` up to `remainder`. That both read the same buffer is checked first. -/
def consumed (input remainder : Input τ) : Except (InputError τ) (List τ) :=
  if input.buffer.serial != remainder.buffer.serial then
    .error (.differentBuffers input remainder)
  else if remainder.offset < input.offset then
    .error (.remainderBefore input.offset remainder.offset)
  else
    .ok ((input.buffer.tokens.toList.take remainder.offset).drop input.offset)

/-- Inputs are equal when the same tokens remain, whatever has been read before them. -/
instance [BEq τ] : BEq (Input τ) where
  beq left right := left.remaining == right.remaining

def text (input : Input Char) : String :=
  String.ofList input.remaining

end Input

end EveryParse
