import EveryParse.Chars
import EveryParse.Run

/-!
For each character of a text, the number of its parses.
-/

namespace EveryParse.Chars

def countOn (fuel : Nat) (p : Parser Char [] Char) (c : Char) : Option Nat :=
  (p.invoke fuel .nobody .empty (.new ⟨0, #[c]⟩) []).bind fun s =>
    (s.value.count fuel .nobody 0 []).map (·.value)

structure Census where
  digit : List Nat
  lower : List Nat
  upper : List Nat
  letter : List Nat
  alphanumeric : List Nat

def census (fuel : Nat) (text : List Char) : Option Census := do
  return {
    digit := ← text.mapM (countOn fuel Chars.digit)
    lower := ← text.mapM (countOn fuel Chars.lower)
    upper := ← text.mapM (countOn fuel Chars.upper)
    letter := ← text.mapM (countOn fuel Chars.letter)
    alphanumeric := ← text.mapM (countOn fuel Chars.alphanumeric) }

end EveryParse.Chars
