/-! # Reading decimals

A decimal is an optional sign, digits with an optional point, and an optional exponent; the words
`inf`, `infinity` and `nan` are read in either case. The value is the nearest binary64 number. -/

namespace Clausal.Decimal

/-- The number written by decimal digits; other characters count as zero. -/
def valueOf (digits : List Char) : Nat :=
  digits.foldl (fun n c => 10 * n + (c.toNat - '0'.toNat)) 0

/-- The nearest number to `m * 10 ^ e`. Beyond the range of exponents the answer is known without
any arithmetic on the power. -/
def scaled (m : Nat) (e : Int) : Float :=
  let magnitude := (m.log2 : Int) * 30103 / 100000 + e
  if m = 0 || magnitude < -400 then 0.0
  else if 400 < magnitude then 1.0 / 0.0
  else Float.ofScientific m (e < 0) e.natAbs

/-- The nearest number to a whole part and a fraction, both given by their digits. -/
def ofParts (whole fraction : List Char) (exponent : Int) : Float :=
  scaled (valueOf (whole ++ fraction)) (exponent - fraction.length)

/-- An exponent: a sign and at least one digit, and nothing behind them. -/
def readExponent? : List Char → Option Int
  | '+' :: digits => if !digits.isEmpty && digits.all Char.isDigit then some (valueOf digits) else none
  | '-' :: digits => if !digits.isEmpty && digits.all Char.isDigit then some (-valueOf digits) else none
  | digits => if !digits.isEmpty && digits.all Char.isDigit then some (valueOf digits) else none

def readMagnitude? (text : List Char) : Option Float :=
  let word := String.ofList (text.map Char.toLower)
  if word = "inf" || word = "infinity" then some (1.0 / 0.0)
  else if word = "nan" then some (0.0 / 0.0)
  else
    let whole := text.takeWhile Char.isDigit
    let rest := text.dropWhile Char.isDigit
    let (fraction, rest) :=
      match rest with
      | '.' :: more => (more.takeWhile Char.isDigit, more.dropWhile Char.isDigit)
      | _ => ([], rest)
    if whole.isEmpty && fraction.isEmpty then none
    else match rest with
      | [] => some (ofParts whole fraction 0)
      | c :: more =>
        if c = 'e' || c = 'E' then (readExponent? more).map (ofParts whole fraction) else none

def read? (text : String) : Option Float :=
  match text.toList with
  | '-' :: rest => (readMagnitude? rest).map (fun x => -x)
  | '+' :: rest => readMagnitude? rest
  | rest => readMagnitude? rest

end Clausal.Decimal
