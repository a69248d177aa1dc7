import EveryParse.Parser
import EveryParse.Unicode.Case

/-!
Parsers of characters.
-/

namespace EveryParse.Chars

variable {Γ : List Type}

def char (c : Char) : Parser Char Γ Char :=
  .sat (· == c)

def digit : Parser Char Γ Char :=
  .sat Char.isDigit

def lower : Parser Char Γ Char :=
  .sat Unicode.isLower

def upper : Parser Char Γ Char :=
  .sat Unicode.isUpper

def letter : Parser Char Γ Char :=
  .or upper lower

def alphanumeric : Parser Char Γ Char :=
  .or (.or upper lower) digit

def word : Parser Char Γ String :=
  .alone alphanumeric <| .recursive (.site []) <|
    .or
      (.bind (.ref (.there .here)) .all fun first =>
        .bind (.ref .here) .all fun rest =>
          .result (String.singleton first ++ rest))
      (.result "")

def ofDigits (digits : List Char) : Nat :=
  digits.foldl (fun n c => 10 * n + (c.toNat - '0'.toNat)) 0

/-- The number that decimal digits write, if it is one of the integers of 64 bits. -/
def int64? (digits : List Char) : Option Int64 :=
  if ofDigits digits ≤ 9223372036854775807 then some (Int64.ofNat (ofDigits digits)) else none

/-- Every number that a beginning of the run of digits writes, the longest first. What does not fit
is left out. -/
def ints : Parser Char Γ Int64 :=
  .alone (((Parser.many digit).map String.ofList).filter fun text => !text.isEmpty) <|
    .bind (.ref .here) .all fun text =>
      match int64? text.toList with
      | some n => .result n
      | none => .fail

end EveryParse.Chars
