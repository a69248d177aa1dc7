import EveryParse.Unicode.Mark
import EveryParse.Unicode.Printable

/-!
Characters and texts in quotes. Inside the quotes stand escapes for the quote, the backslash and
whatever does not show as a character of its own.
-/

namespace EveryParse.Text

def hexadecimal (code : Nat) : String :=
  String.ofList (Nat.toDigits 16 code)

def escaped (quote c : Char) : String :=
  match c with
  | '\x00' => "\\0"
  | '\t' => "\\t"
  | '\n' => "\\n"
  | '\r' => "\\r"
  | '\\' => "\\\\"
  | _ =>
    if c == quote then "\\" ++ c.toString
    else if Unicode.isMark c || !Unicode.isPrintable c then
      "\\u\x7b" ++ hexadecimal c.toNat ++ "\x7d"
    else c.toString

def quotedWith (quote : Char) (text : List Char) : String :=
  quote.toString ++ String.join (text.map (escaped quote)) ++ quote.toString

def quotedChar (c : Char) : String :=
  quotedWith '\'' [c]

def quotedString (text : String) : String :=
  quotedWith '"' text.toList

end EveryParse.Text
