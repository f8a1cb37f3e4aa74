import Clausal.Decimal.Shortest

/-! # Decimals as text

Floating-point constants appear in two places: in listings, always positionally, and in program
files, where very large and very small numbers carry an exponent. Both use the same digits; a
`Layout` holds what differs. -/

namespace Clausal.Decimal

/-- The decisions of one output format. -/
structure Layout where
  /-- Decimal exponents of the leading digit that are written positionally; all when absent. -/
  positional : Option (Int × Int)
  /-- A whole number keeps `.0`. -/
  fraction : Bool
  /-- Which of two equally near decimals is written. -/
  tie : Tie
  /-- The text of the positive infinity; the negative one has a sign in front. -/
  infinity : String
  /-- An infinity has its sign in front. -/
  signedInfinity : Bool
  /-- The text of a value that is not a number. -/
  notANumber : String

/-- Listings write every digit, and no point behind a whole number. -/
def listing : Layout where
  positional := none
  fraction := false
  tie := .upward
  infinity := "inf"
  signedInfinity := true
  notANumber := "NaN"

/-- Program files write `1.0`, switch to `1e+16` and `1e-6`, and have no text for what is not finite. -/
def interchange : Layout where
  positional := some (-5, 16)
  fraction := true
  tie := .toEven
  infinity := "null"
  signedInfinity := false
  notANumber := "null"

def zeros (n : Nat) : String :=
  String.ofList (List.replicate n '0')

def positionalText (fraction : Bool) (d : Digits) : String :=
  let digits := toString d.digits
  if 0 ≤ d.exponent then
    digits ++ zeros d.exponent.toNat ++ (if fraction then ".0" else "")
  else
    let places := (-d.exponent).toNat
    if places < digits.length then
      let whole := digits.length - places
      String.ofList (digits.toList.take whole) ++ "." ++ String.ofList (digits.toList.drop whole)
    else
      "0." ++ zeros (places - digits.length) ++ digits

/-- One digit before the point, and the exponent with its sign. -/
def exponentText (d : Digits) : String :=
  let digits := (toString d.digits).toList
  let exponent := d.exponent + digits.length - 1
  let sign := if exponent < 0 then "-" else "+"
  let fraction := if digits.length = 1 then "" else "." ++ String.ofList (digits.drop 1)
  String.ofList (digits.take 1) ++ fraction ++ "e" ++ sign ++ toString exponent.natAbs

def Layout.magnitude (layout : Layout) (d : Digits) : String :=
  let leading := d.exponent + (toString d.digits).length - 1
  match layout.positional with
  | none => positionalText layout.fraction d
  | some (low, high) =>
    if low ≤ leading && leading < high then positionalText layout.fraction d else exponentText d

def Layout.text (layout : Layout) (x : Float) : String :=
  let bits := x.toBits
  let sign := if bits >>> 63 = 1 then "-" else ""
  let magnitude := bits &&& 0x7FFFFFFFFFFFFFFF
  if 0x7FF0000000000000 < magnitude then layout.notANumber
  else if magnitude = 0x7FF0000000000000 then
    (if layout.signedInfinity then sign else "") ++ layout.infinity
  else if magnitude = 0 then sign ++ layout.magnitude ⟨0, 0⟩
  else sign ++ layout.magnitude ((Binary.ofBits magnitude).shortest layout.tie)

end Clausal.Decimal
