import EveryParse.Input
import EveryParse.Text.Quoted

/-!
Inputs as text: the offset and the tokens that remain, on one line or on a line for each part.
-/

namespace EveryParse

class Shown (τ : Type) where
  shown : τ → String

instance : Shown Char := ⟨Text.quotedChar⟩
instance : Shown String := ⟨Text.quotedString⟩
instance : Shown Int64 := ⟨fun n => toString n.toInt⟩

variable {τ : Type} [Shown τ]

def Input.shown (input : Input τ) : String :=
  "Input \x7b idx: " ++ toString input.offset ++ ", rest: [" ++
    ", ".intercalate (input.remaining.map Shown.shown) ++ "] \x7d"

/-- Every part stands on a line of its own with a comma behind it, four blanks deeper than what it
is part of. -/
def Input.shownInLines (input : Input τ) : String :=
  let tokens := input.remaining.map fun token => "        " ++ Shown.shown token ++ ",\n"
  let rest := if tokens.isEmpty then "[]" else "[\n" ++ String.join tokens ++ "    ]"
  "Input \x7b\n    idx: " ++ toString input.offset ++ ",\n    rest: " ++ rest ++ ",\n\x7d"

def InputError.message : InputError τ → String
  | .startBeyondEnd start length =>
    s!"start beyond end of input, start: {start}, len: {length}"
  | .differentBuffers input remainder =>
    "inputs reference different buffers, input: " ++ input.shown ++ ", remainder: " ++
      remainder.shown
  | .remainderBefore input remainder =>
    s!"remainder starts before input, input idx: {input}, remainder idx: {remainder}"

end EveryParse
