/-!
Sets of code points written as ranges.
-/

namespace EveryParse.Unicode

/-- Whether a code point lies in one of the ranges, which stand in ascending order and include both
their ends. -/
def covers : List (Nat × Nat) → Nat → Bool
  | [], _ => false
  | (first, last) :: rest, code => first ≤ code && (code ≤ last || covers rest code)

end EveryParse.Unicode
