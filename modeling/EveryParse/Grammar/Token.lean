import EveryParse.Chars
import EveryParse.Grammar.Value
import EveryParse.Text.Shown

/-!
The kinds of tokens that grammars read: characters, integers and texts.
-/

namespace EveryParse

inductive Lexeme where
  | char (c : Char)
  | digit
  | lower
  | upper
  | letter
  | alphanumeric
  | word
  | ints

def Lexeme.parser {Γ : List Type} : Lexeme → Parser Char Γ Value
  | char c => (Chars.char c).map .chr
  | digit => Chars.digit.map .chr
  | lower => Chars.lower.map .chr
  | upper => Chars.upper.map .chr
  | letter => Chars.letter.map .chr
  | alphanumeric => Chars.alphanumeric.map .chr
  | word => Chars.word.map .str
  | ints => Chars.ints.map .int

class Token (τ : Type) extends Shown τ where
  value : τ → Value
  /-- Only characters make up lexemes. -/
  lexeme : {Γ : List Type} → Lexeme → Parser τ Γ Value

instance : Token Char where
  value := .chr
  lexeme := Lexeme.parser

instance : Token Int64 where
  value := .int
  lexeme _ := .fail

instance : Token String where
  value := .str
  lexeme _ := .fail

end EveryParse
