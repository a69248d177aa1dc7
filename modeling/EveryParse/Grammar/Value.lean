/-!
The values that grammars compute with.
-/

namespace EveryParse

inductive Value where
  | int (n : Int64)
  | bool (b : Bool)
  | chr (c : Char)
  | str (s : String)
  | list (items : List Value)

namespace Value

mutual

/-- Values of different kinds differ, also a character and a text of one character. -/
def same : Value → Value → Bool
  | int m, int n => m == n
  | bool a, bool b => a == b
  | chr c, chr d => c == d
  | str s, str t => s == t
  | list xs, list ys => sameItems xs ys
  | _, _ => false

def sameItems : List Value → List Value → Bool
  | [], [] => true
  | x :: xs, y :: ys => x.same y && sameItems xs ys
  | _, _ => false

end

mutual

/-- A list is written as its items one behind the other. -/
def text : Value → String
  | int n => toString n.toInt
  | bool b => toString b
  | chr c => c.toString
  | str s => s
  | list items => itemsText items

def itemsText : List Value → String
  | [] => ""
  | item :: items => item.text ++ itemsText items

end

def asInt : Value → Int64
  | int n => n
  | _ => 0

def asBool : Value → Bool
  | bool b => b
  | _ => false

def asList : Value → List Value
  | list items => items
  | _ => []

def code : Value → Int64
  | chr c => Int64.ofNat c.toNat
  | _ => 0

def size : Value → Int64
  | str s => Int64.ofNat s.length
  | list items => Int64.ofNat items.length
  | _ => 0

end Value

end EveryParse
