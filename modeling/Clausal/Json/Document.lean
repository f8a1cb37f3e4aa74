import Clausal.Decimal.Layout

/-! # JSON documents as text

Two layouts: `compact` has no blanks at all; `pretty` puts every item and every member on a line of its
own, indented by two blanks for each level. Both escape quotation marks, backslashes and the control
characters below U+0020, and nothing else. -/

namespace Clausal.Json

/-- A document. Members keep their order. -/
inductive Document where
  | null
  | bool (value : Bool)
  | int (value : Int)
  | float (value : Float)
  | str (value : String)
  | arr (items : List Document)
  | obj (members : List (String × Document))

def hexDigit (n : Nat) : Char := Nat.digitChar n

def escapedChar (c : Char) : List Char :=
  if c = '"' then ['\\', '"']
  else if c = '\\' then ['\\', '\\']
  else if c = '\n' then ['\\', 'n']
  else if c = '\r' then ['\\', 'r']
  else if c = '\t' then ['\\', 't']
  else if c.toNat = 8 then ['\\', 'b']
  else if c.toNat = 12 then ['\\', 'f']
  else if c.toNat < 32 then ['\\', 'u', '0', '0', hexDigit (c.toNat / 16), hexDigit (c.toNat % 16)]
  else [c]

def stringText (s : String) : String :=
  "\"" ++ String.ofList (s.toList.flatMap escapedChar) ++ "\""

namespace Document

def leafText : Document → String
  | null => "null"
  | bool value => toString value
  | int value => toString value
  | float value => Decimal.interchange.text value
  | str value => stringText value
  | arr _ => "[]"
  | obj _ => "\x7b\x7d"

def newline (level : Nat) : String := "\n" ++ String.ofList (List.replicate (2 * level) ' ')

mutual

def prettyAt (level : Nat) : Document → String
  | arr (item :: items) =>
    "[" ++ newline (level + 1) ++ prettyAt (level + 1) item ++ prettyItems (level + 1) items ++
      newline level ++ "]"
  | obj ((key, value) :: members) =>
    "\x7b" ++ newline (level + 1) ++ stringText key ++ ": " ++ prettyAt (level + 1) value ++
      prettyMembers (level + 1) members ++ newline level ++ "\x7d"
  | leaf => leaf.leafText

def prettyItems (level : Nat) : List Document → String
  | [] => ""
  | item :: items => "," ++ newline level ++ prettyAt level item ++ prettyItems level items

def prettyMembers (level : Nat) : List (String × Document) → String
  | [] => ""
  | (key, value) :: members =>
    "," ++ newline level ++ stringText key ++ ": " ++ prettyAt level value ++
      prettyMembers level members

end

def pretty (d : Document) : String := d.prettyAt 0

mutual

def compact : Document → String
  | arr (item :: items) => "[" ++ compact item ++ compactItems items ++ "]"
  | obj ((key, value) :: members) =>
    "\x7b" ++ stringText key ++ ":" ++ compact value ++ compactMembers members ++ "\x7d"
  | leaf => leaf.leafText

def compactItems : List Document → String
  | [] => ""
  | item :: items => "," ++ compact item ++ compactItems items

def compactMembers : List (String × Document) → String
  | [] => ""
  | (key, value) :: members =>
    "," ++ stringText key ++ ":" ++ compact value ++ compactMembers members

end

end Document

end Clausal.Json
