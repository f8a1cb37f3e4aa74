import Clausal.Decimal.Layout
import Clausal.Text.Quoted

/-! # Faults in JSON texts -/

namespace Clausal.Json

/-- A number as it stands in a text: what fits 64 bits stays exact. -/
inductive Number where
  | natural (value : Nat)
  | negative (value : Int)
  | real (value : Float)

/-- What was found where something else was expected. -/
inductive Found where
  | null
  | bool (value : Bool)
  | number (value : Number)
  | string (value : String)
  | sequence
  | map
  | unitVariant

def Found.text : Found → String
  | null => "null"
  | bool value => "boolean `" ++ toString value ++ "`"
  | number (.natural value) => "integer `" ++ toString value ++ "`"
  | number (.negative value) => "integer `" ++ toString value ++ "`"
  | number (.real value) => "floating point `" ++ Decimal.interchange.text value ++ "`"
  | string value => "string " ++ Text.quoted value
  | sequence => "sequence"
  | map => "map"
  | unitVariant => "unit variant"

/-- Why a text was not read. -/
inductive Fault where
  | endInValue
  | endInList
  | endInObject
  | endInString
  | expectedIdent
  | expectedValue
  | expectedColon
  | expectedListEnd
  | expectedObjectEnd
  | keyNotString
  | trailingComma
  | trailingCharacters
  | invalidNumber
  | numberOutOfRange
  | invalidEscape
  | controlCharacter
  | loneSurrogate
  | unpairedSurrogate
  | duplicateField (name : String)
  | missingField (name : String)
  | unknownVariant (name : String)
  | wrongType (found : Found) (expected : String)
  | wrongValue (found : Found) (expected : String)

/-- The three ways in which a text can be at fault. -/
inductive Category where
  /-- The text ends too early. -/
  | ending
  /-- The text is not JSON, or has a number that is too large. -/
  | form
  /-- The text is JSON of another shape. -/
  | shape
deriving DecidableEq, Repr

namespace Fault

def category : Fault → Category
  | endInValue | endInList | endInObject | endInString => .ending
  | duplicateField _ | missingField _ | unknownVariant _ | wrongType .. | wrongValue .. => .shape
  | _ => .form

def message : Fault → String
  | endInValue => "EOF while parsing a value"
  | endInList => "EOF while parsing a list"
  | endInObject => "EOF while parsing an object"
  | endInString => "EOF while parsing a string"
  | expectedIdent => "expected ident"
  | expectedValue => "expected value"
  | expectedColon => "expected `:`"
  | expectedListEnd => "expected `,` or `]`"
  | expectedObjectEnd => "expected `,` or `\x7d`"
  | keyNotString => "key must be a string"
  | trailingComma => "trailing comma"
  | trailingCharacters => "trailing characters"
  | invalidNumber => "invalid number"
  | numberOutOfRange => "number out of range"
  | invalidEscape => "invalid escape"
  | controlCharacter => "control character (\\u0000-\\u001F) found while parsing a string"
  | loneSurrogate => "lone leading surrogate in hex escape"
  | unpairedSurrogate => "unexpected end of hex escape"
  | duplicateField name => "duplicate field `" ++ name ++ "`"
  | missingField name => "missing field `" ++ name ++ "`"
  | unknownVariant name => "unknown variant `" ++ name ++ "`"
  | wrongType found expected => s!"invalid type: {found.text}, expected {expected}"
  | wrongValue found expected => s!"invalid value: {found.text}, expected {expected}"

end Fault

end Clausal.Json
