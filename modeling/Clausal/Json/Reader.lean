import Clausal.Decimal.Reading
import Clausal.Json.Fault

/-! # Reading JSON texts

A text is read from left to right by readers that know what they expect, and the first fault met is
the one reported. The budget of an input is the length of its text: every round of a loop takes at
least one character, so no loop has more rounds than that. -/

namespace Clausal.Json

/-- What is still to be read, and the length of the whole text. -/
structure Input where
  rest : List Char
  budget : Nat

/-- A step of reading. -/
abbrev Reader := EStateM Fault Input

def isBlank (c : Char) : Bool := c = ' ' || c = '\t' || c = '\n' || c = '\r'

/-! ### Strings -/

def hexValue? (c : Char) : Option Nat :=
  if '0' ≤ c && c ≤ '9' then some (c.toNat - '0'.toNat)
  else if 'a' ≤ c && c ≤ 'f' then some (c.toNat - 'a'.toNat + 10)
  else if 'A' ≤ c && c ≤ 'F' then some (c.toNat - 'A'.toNat + 10)
  else none

def hexQuad? (a b c d : Char) : Option Nat := do
  return (((← hexValue? a) * 16 + (← hexValue? b)) * 16 + (← hexValue? c)) * 16 + (← hexValue? d)

def isLeading (n : Nat) : Bool := 0xD800 ≤ n && n ≤ 0xDBFF

def isTrailing (n : Nat) : Bool := 0xDC00 ≤ n && n ≤ 0xDFFF

def pairChar (lead trail : Nat) : Char :=
  Char.ofNat (0x10000 + (lead - 0xD800) * 1024 + (trail - 0xDC00))

def shortEscape? (c : Char) : Option Char :=
  if c = '"' then some '"'
  else if c = '\\' then some '\\'
  else if c = '/' then some '/'
  else if c = 'b' then some (Char.ofNat 8)
  else if c = 'f' then some (Char.ofNat 12)
  else if c = 'n' then some '\n'
  else if c = 'r' then some '\r'
  else if c = 't' then some '\t'
  else none

/-- The fault of a numeric escape cut short: four bytes must follow, whatever they are. -/
def cutEscape (rest : List Char) : Fault :=
  if (String.ofList rest).utf8ByteSize < 4 then .endInString else .invalidEscape

/-- The characters of a string up to its closing mark, in front of those already read, and the rest of
the text. Surrogates must come in pairs. -/
def stringBody (seen : List Char) : List Char → Except Fault (String × List Char)
  | [] => .error .endInString
  | '"' :: rest => .ok (String.ofList seen.reverse, rest)
  | '\\' :: 'u' :: a :: b :: c :: d :: rest =>
    match hexQuad? a b c d with
    | none => .error .invalidEscape
    | some n =>
      if isTrailing n then .error .loneSurrogate
      else if isLeading n then
        match rest with
        | '\\' :: 'u' :: e :: f :: g :: h :: rest =>
          match hexQuad? e f g h with
          | none => .error .invalidEscape
          | some m =>
            if isTrailing m then stringBody (pairChar n m :: seen) rest else .error .loneSurrogate
        | '\\' :: 'u' :: rest => .error (cutEscape rest)
        | [] | ['\\'] => .error .endInString
        | _ => .error .unpairedSurrogate
      else stringBody (Char.ofNat n :: seen) rest
  | '\\' :: 'u' :: rest => .error (cutEscape rest)
  | '\\' :: c :: rest =>
    match shortEscape? c with
    | some c => stringBody (c :: seen) rest
    | none => .error .invalidEscape
  | '\\' :: [] => .error .endInString
  | c :: rest => if c.toNat < 32 then .error .controlCharacter else stringBody (c :: seen) rest

/-- The text behind a string that is of no interest; its surrogates are not looked at. -/
def skipStringBody : List Char → Except Fault (List Char)
  | [] => .error .endInString
  | '"' :: rest => .ok rest
  | '\\' :: 'u' :: a :: b :: c :: d :: rest =>
    if (hexQuad? a b c d).isSome then skipStringBody rest else .error .invalidEscape
  | '\\' :: 'u' :: rest => .error (cutEscape rest)
  | '\\' :: c :: rest => if (shortEscape? c).isSome then skipStringBody rest else .error .invalidEscape
  | '\\' :: [] => .error .endInString
  | c :: rest => if c.toNat < 32 then .error .controlCharacter else skipStringBody rest

/-! ### Numbers -/

def significandLimit : Nat := Nat.pow 2 64 - 1

/-- The largest exponent that is told from an infinite one. -/
def exponentLimit : Nat := Nat.pow 2 31 - 1

def digitValue (c : Char) : Nat := c.toNat - '0'.toNat

/-- The digits of a whole part: a significand, and how many digits at the end had no room in it. -/
def wholePart (significand : Nat) : List Char → Nat × Nat
  | [] => (significand, 0)
  | d :: digits =>
    let next := significand * 10 + digitValue d
    if next ≤ significandLimit then wholePart next digits else (significand, digits.length + 1)

/-- The digits of a fraction put behind a significand, and how many there was room for. -/
def fractionPart (significand : Nat) : List Char → Nat × Nat
  | [] => (significand, 0)
  | d :: digits =>
    let next := significand * 10 + digitValue d
    if next ≤ significandLimit then
      let (significand, taken) := fractionPart next digits
      (significand, taken + 1)
    else (significand, 0)

def power (n : Nat) : Float := Decimal.scaled 1 n

/-- Divide by a power of ten, in steps small enough for the power to be finite. -/
def scaleDown : Nat → Float → Nat → Float
  | 0, f, _ => f
  | fuel + 1, f, n =>
    if n ≤ 308 then f / power n
    else if f == 0.0 then f
    else scaleDown fuel (f / power 308) (n - 308)

/-- A significand times a power of ten: one rounded product or quotient, not always the nearest
number. A product that is infinite is refused. -/
def scale (significand : Nat) (exponent : Int) : Except Fault Float :=
  let f := Float.ofNat significand
  if exponent < 0 then .ok (scaleDown 8 f exponent.natAbs)
  else if 308 < exponent then if significand = 0 then .ok 0.0 else .error .numberOutOfRange
  else
    let product := f * power exponent.natAbs
    if product.isInf then .error .numberOutOfRange else .ok product

/-- An exponent behind its mark: a sign, the digits, and the rest of the text. -/
def exponentDigits (rest : List Char) : Except Fault (Bool × List Char × List Char) :=
  let (isNegative, rest) := match rest with
    | '+' :: rest => (false, rest)
    | '-' :: rest => (true, rest)
    | rest => (false, rest)
  match rest with
  | [] => .error .endInValue
  | c :: _ =>
    if c.isDigit then .ok (isNegative, rest.takeWhile Char.isDigit, rest.dropWhile Char.isDigit)
    else .error .invalidNumber

/-- A number with an exponent. An exponent beyond the limit is an infinite one. -/
def withExponent (significand : Nat) (exponent : Int) (isNegative : Bool) (digits : List Char) :
    Except Fault Float :=
  let e := Decimal.valueOf digits
  if exponentLimit < e then
    if significand = 0 || isNegative then .ok 0.0 else .error .numberOutOfRange
  else scale significand (if isNegative then exponent - e else exponent + e)

/-- What follows the digits before the exponent: the number and the rest of the text. -/
def finishReal (significand : Nat) (exponent : Int) (rest : List Char) :
    Except Fault (Float × List Char) :=
  match rest with
  | c :: more =>
    if c = 'e' || c = 'E' then do
      let (isNegative, digits, rest) ← exponentDigits more
      return (← withExponent significand exponent isNegative digits, rest)
    else return (← scale significand exponent, rest)
  | [] => return (← scale significand exponent, rest)

/-- A number without its sign, given its first digit. A whole number that has room is kept apart from a
real one. -/
def magnitude (first : Char) (rest : List Char) : Except Fault ((Nat ⊕ Float) × List Char) :=
  let digits := rest.takeWhile Char.isDigit
  let rest := rest.dropWhile Char.isDigit
  if first = '0' && !digits.isEmpty then .error .invalidNumber
  else
    let (significand, dropped) := wholePart (digitValue first) digits
    match rest with
    | '.' :: more => do
      let fraction := more.takeWhile Char.isDigit
      let rest := more.dropWhile Char.isDigit
      if fraction.isEmpty then
        .error (if rest.isEmpty then .endInValue else .invalidNumber)
      else
        let (significand, taken) := fractionPart significand fraction
        let (f, rest) ← finishReal significand (dropped - taken) rest
        return (.inr f, rest)
    | rest =>
      if dropped = 0 && !(rest.head? = some 'e' || rest.head? = some 'E') then
        .ok (.inl significand, rest)
      else do
        let (f, rest) ← finishReal significand dropped rest
        return (.inr f, rest)

/-- A negative number. Zero and what is below the 64-bit range become real. -/
def negate : Nat ⊕ Float → Number
  | .inl n =>
    if n = 0 || Nat.pow 2 63 < n then .real (-(Float.ofNat n)) else .negative (-(n : Int))
  | .inr f => .real (-f)

def number (text : List Char) : Except Fault (Number × List Char) :=
  match text with
  | '-' :: [] => .error .endInValue
  | '-' :: c :: rest =>
    if c.isDigit then do
      let (m, rest) ← magnitude c rest
      return (negate m, rest)
    else .error .invalidNumber
  | c :: rest =>
    if c.isDigit then do
      match ← magnitude c rest with
      | (.inl n, rest) => return (.natural n, rest)
      | (.inr f, rest) => return (.real f, rest)
    else .error .invalidNumber
  | [] => .error .endInValue

/-- The text behind the exponent of a number that is of no interest. -/
def skipExponent (rest : List Char) : Except Fault (List Char) :=
  match rest with
  | c :: more =>
    if c = 'e' || c = 'E' then
      match exponentDigits more with
      | .ok (_, _, rest) => .ok rest
      | .error _ => .error .invalidNumber
    else .ok rest
  | [] => .ok rest

/-- The text behind a number that is of no interest; also a number cut short is an invalid one. -/
def skipNumber (text : List Char) : Except Fault (List Char) :=
  let text := match text with
    | '-' :: rest => rest
    | rest => rest
  match text with
  | [] => .error .invalidNumber
  | first :: rest =>
    if !first.isDigit then .error .invalidNumber
    else
      let digits := rest.takeWhile Char.isDigit
      if first = '0' && !digits.isEmpty then .error .invalidNumber
      else match rest.dropWhile Char.isDigit with
        | '.' :: more =>
          if (more.takeWhile Char.isDigit).isEmpty then .error .invalidNumber
          else skipExponent (more.dropWhile Char.isDigit)
        | rest => skipExponent rest

namespace Reader

/-! ### Tokens -/

/-- The next character behind blanks, which stays to be read. -/
def peek : Reader (Option Char) := do
  modify fun i => { i with rest := i.rest.dropWhile isBlank }
  return (← get).rest.head?

def advance : Reader Unit := modify fun i => { i with rest := i.rest.tail }

/-- The next character behind blanks, or a fault at the end of the text. -/
def peekOr (fault : Fault) : Reader Char := do
  match ← peek with
  | some c => return c
  | none => throw fault

def scan {α : Type} (f : List Char → Except Fault (α × List Char)) : Reader α := do
  match f (← get).rest with
  | .ok (a, rest) =>
    modify fun i => { i with rest }
    return a
  | .error fault => throw fault

def skip (f : List Char → Except Fault (List Char)) : Reader Unit :=
  scan fun cs => (f cs).map fun rest => ((), rest)

def word : List Char → Reader Unit
  | [] => return
  | expected :: more => do
    match (← get).rest with
    | [] => throw .endInValue
    | c :: _ =>
      advance
      if c = expected then word more else throw .expectedIdent

def openedString : Reader String := do
  advance
  scan (stringBody [])

/-- Refuse what comes next, which is not what was expected. -/
def refuse {α : Type} (expected : String) : Reader α := do
  let wrong (found : Found) : Reader α := throw (.wrongType found expected)
  match (← get).rest with
  | 'n' :: _ =>
    word "null".toList
    wrong .null
  | 't' :: _ =>
    word "true".toList
    wrong (.bool true)
  | 'f' :: _ =>
    word "false".toList
    wrong (.bool false)
  | '"' :: _ => do wrong (.string (← openedString))
  | '[' :: _ => wrong .sequence
  | '\x7b' :: _ => wrong .map
  | c :: _ => if c = '-' || c.isDigit then do wrong (.number (← scan Json.number)) else throw .expectedValue
  | [] => throw .expectedValue

/-! ### Values without parts -/

def string (expected : String) : Reader String := do
  if (← peekOr .endInValue) = '"' then openedString else refuse expected

def boolean : Reader Bool := do
  match ← peekOr .endInValue with
  | 't' =>
    word "true".toList
    return true
  | 'f' =>
    word "false".toList
    return false
  | _ => refuse "a boolean"

def null : Reader Unit := do
  if (← peekOr .endInValue) = 'n' then word "null".toList else refuse "unit"

def number (expected : String) : Reader Number := do
  let c ← peekOr .endInValue
  if c = '-' || c.isDigit then scan Json.number else refuse expected

def natural (expected : String) (limit : Nat) : Reader Nat := do
  match ← number expected with
  | .natural n => if n ≤ limit then return n else throw (.wrongValue (.number (.natural n)) expected)
  | .negative n => throw (.wrongValue (.number (.negative n)) expected)
  | found => throw (.wrongType (.number found) expected)

def integer : Reader Int64 := do
  match ← number "i64" with
  | .natural n =>
    if n < Nat.pow 2 63 then return Int64.ofNat n else throw (.wrongValue (.number (.natural n)) "i64")
  | .negative n => return Int64.ofInt n
  | found => throw (.wrongType (.number found) "i64")

/-- A floating-point number, also when it is written as a whole one. -/
def real : Reader Float := do
  match ← number "f64" with
  | .natural n => return Float.ofNat n
  | .negative n => return Float.ofInt n
  | .real f => return f

/-! ### Values of no interest -/

/-- A bracket that is open. -/
inductive Bracket where
  | list
  | object
deriving DecidableEq, Repr

namespace Bracket

def ofOpening? (c : Char) : Option Bracket :=
  if c = '[' then some list else if c = '\x7b' then some object else none

def closing : Bracket → Char
  | list => ']'
  | object => '\x7d'

def unclosed : Bracket → Fault
  | list => .endInList
  | object => .endInObject

/-- The fault of something else where a bracket may close or go on. -/
def unseparated : Bracket → Fault
  | list => .expectedListEnd
  | object => .expectedObjectEnd

/-- What stands in front of a value inside a bracket: nothing, or a key and a colon. -/
def lead : Bracket → Reader Unit
  | list => return
  | object => do
    if (← peekOr .endInObject) ≠ '"' then throw .keyNotString
    advance
    skip skipStringBody
    if (← peekOr .endInObject) ≠ ':' then throw .expectedColon
    advance

end Bracket

def ignoreSimple (first : Char) : Reader Unit := do
  match first with
  | 'n' => word "null".toList
  | 't' => word "true".toList
  | 'f' => word "false".toList
  | '"' =>
    advance
    skip skipStringBody
  | c => if c = '-' || c.isDigit then skip skipNumber else throw .expectedValue

/-- Pass over what follows a value inside brackets, of which the innermost comes first. The answer has
the brackets around the next value; there are none when all have been closed. -/
def closeBrackets : List Bracket → Reader (List Bracket)
  | [] => return []
  | b :: outer => do
    let c ← peekOr b.unclosed
    if c = b.closing then
      advance
      closeBrackets outer
    else if c = ',' then
      advance
      b.lead
      return b :: outer
    else throw b.unseparated

/-- Pass over a value and what follows it, until all brackets around it are closed. Every round takes
a value without parts or opens a bracket. -/
def ignoreInside : Nat → List Bracket → Reader Unit
  | 0, _ => throw .expectedValue
  | fuel + 1, outer => do
    let first ← peekOr .endInValue
    match Bracket.ofOpening? first with
    | some b =>
      advance
      if (← peekOr b.unclosed) = b.closing then
        match ← closeBrackets (b :: outer) with
        | [] => return
        | around => ignoreInside fuel around
      else
        b.lead
        ignoreInside fuel (b :: outer)
    | none =>
      ignoreSimple first
      match ← closeBrackets outer with
      | [] => return
      | around => ignoreInside fuel around

def ignore : Reader Unit := do ignoreInside ((← get).budget + 1) []

/-! ### Lists -/

/-- Is there one more item? The comma in front of it is passed over. -/
def moreItems (first : Bool) : Reader Bool := do
  let c ← peekOr .endInList
  if c = ']' then return false
  else if first then return true
  else if c = ',' then
    advance
    if (← peekOr .endInValue) = ']' then throw .trailingComma else return true
  else throw .expectedListEnd

def closeList : Reader Unit := do
  match ← peekOr .endInList with
  | ']' => advance
  | ',' =>
    advance
    if (← peek) = some ']' then throw .trailingComma else throw .trailingCharacters
  | _ => throw .trailingCharacters

def items {α : Type} (item : Reader α) : Nat → Bool → Reader (List α)
  | 0, _ => throw .expectedValue
  | fuel + 1, first => do
    if ← moreItems first then
      let a ← item
      return a :: (← items item fuel false)
    else return []

def list {α : Type} (expected : String) (item : Reader α) : Reader (List α) := do
  if (← peekOr .endInValue) = '[' then
    advance
    let as ← items item ((← get).budget + 1) true
    closeList
    return as
  else refuse expected

/-! ### Records -/

/-- A field of a record under construction. -/
structure Field (σ : Type) where
  name : String
  isSet : σ → Bool
  read : σ → Reader σ

/-- Is there one more member? The comma in front of it is passed over. -/
def moreMembers (first : Bool) : Reader Bool := do
  let c ← peekOr .endInObject
  if c = '\x7d' then return false
  else if first then
    if c = '"' then return true else throw .keyNotString
  else if c = ',' then
    advance
    match ← peekOr .endInValue with
    | '"' => return true
    | '\x7d' => throw .trailingComma
    | _ => throw .keyNotString
  else throw .expectedObjectEnd

def colon : Reader Unit := do
  if (← peekOr .endInObject) = ':' then advance else throw .expectedColon

/-- The members of a record. Each field may come once, in any order; other members are passed over. -/
def members {σ : Type} (fields : List (Field σ)) : Nat → Bool → σ → Reader σ
  | 0, _, _ => throw .expectedValue
  | fuel + 1, first, s => do
    if ← moreMembers first then
      let key ← openedString
      match fields.find? (·.name = key) with
      | none =>
        colon
        ignore
        members fields fuel false s
      | some field =>
        if field.isSet s then throw (.duplicateField key)
        colon
        members fields fuel false (← field.read s)
    else return s

/-- The fields of a record in their order, as many as there are. -/
def inOrder {σ : Type} : List (Field σ) → Bool → σ → Reader σ
  | [], _, s => return s
  | field :: fields, first, s => do
    if ← moreItems first then inOrder fields false (← field.read s) else return s

/-- A record, written as an object or as the list of its fields. `finish` supplies what is missing. -/
def record {σ α : Type} (expected : String) (fields : List (Field σ)) (start : σ)
    (finish : σ → Except Fault α) : Reader α := do
  let done (s : σ) : Reader α := match finish s with
    | .ok a => return a
    | .error fault => throw fault
  match ← peekOr .endInValue with
  | '[' =>
    advance
    let a ← done (← inOrder fields true start)
    closeList
    return a
  | '\x7b' =>
    advance
    let a ← done (← members fields ((← get).budget + 1) true start)
    advance
    return a
  | _ => refuse expected

def required {α : Type} (name : String) : Option α → Except Fault α
  | some a => .ok a
  | none => .error (.missingField name)

def record₁ {α β : Type} (name : String) (read : Reader α) (build : α → β) : Reader β :=
  record "struct variant" [⟨name, Option.isSome, fun _ => some <$> read⟩] none fun s =>
    build <$> required name s

def record₂ {α β γ : Type} (name₁ : String) (read₁ : Reader α) (name₂ : String) (read₂ : Reader β)
    (build : α → β → γ) : Reader γ :=
  record "struct variant"
    [⟨name₁, fun s => s.1.isSome, fun s => return (some (← read₁), s.2)⟩,
     ⟨name₂, fun s => s.2.isSome, fun s => return (s.1, some (← read₂))⟩]
    (none, none) fun s => do return build (← required name₁ s.1) (← required name₂ s.2)

/-! ### Variants -/

/-- What follows the name of a variant. -/
inductive Content (α : Type) where
  /-- Nothing: the name says all. -/
  | nothing (value : α)
  /-- A value to be read. -/
  | value (read : Reader α)

/-- A variant: its name alone, or an object whose one member has the name as its key. -/
def variant {α : Type} (content? : String → Option (Content α)) : Reader α := do
  let find (name : String) : Reader (Content α) := match content? name with
    | some content => return content
    | none => throw (.unknownVariant name)
  match ← peekOr .endInValue with
  | '\x7b' =>
    advance
    if (← peekOr .endInValue) ≠ '"' then throw .keyNotString
    let content ← find (← openedString)
    colon
    let a ← match content with
      | .nothing a => do
        null
        pure a
      | .value read => read
    if (← peekOr .endInObject) = '\x7d' then
      advance
      return a
    else throw .expectedValue
  | '"' =>
    match ← find (← openedString) with
    | .nothing a => return a
    | .value _ => throw (.wrongType .unitVariant "a variant with content")
  | _ => throw .expectedValue

def run {α : Type} (read : Reader α) (text : String) : Except Fault α :=
  let whole : Reader α := do
    let a ← read
    match ← peek with
    | none => return a
    | some _ => throw .trailingCharacters
  let input := text.toList
  match whole ⟨input, input.length⟩ with
  | .ok a _ => .ok a
  | .error fault _ => .error fault

end Reader

end Clausal.Json
