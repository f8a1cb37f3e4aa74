/-! # The shortest decimal of a binary number

A finite number of binary64 is `m * 2 ^ q`. The reals nearer to it than to its neighbours form an interval,
ends included exactly when `m` is even, and every decimal in that interval reads back as the number. -/

namespace Clausal.Decimal

/-- A positive finite number, `m * 2 ^ q`. -/
structure Binary where
  m : Nat
  q : Int
  /-- The gap to the number below is half the gap to the number above. -/
  narrowBelow : Bool
deriving DecidableEq, Repr

/-- The magnitude encoded by the bits of a finite number. -/
def Binary.ofBits (bits : UInt64) : Binary :=
  let exponent := ((bits >>> 52) &&& 0x7FF).toNat
  let fraction := (bits &&& 0xFFFFFFFFFFFFF).toNat
  if exponent = 0 then ⟨fraction, -1074, false⟩
  else ⟨Nat.pow 2 52 + fraction, (exponent : Int) - 1075, fraction = 0 && 1 < exponent⟩

/-- A decimal, `digits * 10 ^ exponent`. -/
structure Digits where
  digits : Nat
  exponent : Int
deriving DecidableEq, Repr

/-- Which of two equally near decimals is taken. -/
inductive Tie where
  /-- The larger one. -/
  | upward
  /-- The one whose last digit is even. -/
  | toEven
deriving DecidableEq, Repr

def compareScaled (a : Nat) (i : Int) (n : Nat) (j : Int) : Ordering :=
  compare (a * Nat.pow 10 i.toNat * Nat.pow 2 (-j).toNat) (n * Nat.pow 2 j.toNat * Nat.pow 10 (-i).toNat)

/-- The decimal lies among the reals that round to the number. -/
def Binary.readsBack (x : Binary) (d : Digits) : Bool :=
  let below := if x.narrowBelow then 4 * x.m - 1 else 4 * x.m - 2
  let above := 4 * x.m + 2
  let closed := x.m % 2 = 0
  let low := compareScaled d.digits d.exponent below (x.q - 2)
  let high := compareScaled d.digits d.exponent above (x.q - 2)
  (low == .gt || (closed && low == .eq)) && (high == .lt || (closed && high == .eq))

/-- The greatest multiple of `10 ^ exponent` that does not exceed the number, as a count. -/
def Binary.floorOn (x : Binary) (exponent : Int) : Nat :=
  x.m * Nat.pow 2 x.q.toNat * Nat.pow 10 (-exponent).toNat / (Nat.pow 2 (-x.q).toNat * Nat.pow 10 exponent.toNat)

/-- A decimal exponent `k` with `x < 10 ^ k`, close to the least one. -/
def Binary.scale (x : Binary) : Int :=
  ((x.m.log2 : Int) + x.q) * 30103 / 100000 + 2

/-- The neighbours of the number on the grid of multiples of `10 ^ exponent` that read back: the
nearer one, and by the rule for ties when both are equally near. -/
def Binary.onGrid (x : Binary) (tie : Tie) (exponent : Int) : Option Digits :=
  let down : Digits := ⟨x.floorOn exponent, exponent⟩
  let up : Digits := ⟨down.digits + 1, exponent⟩
  match x.readsBack down, x.readsBack up with
  | false, false => none
  | true, false => some down
  | false, true => some up
  | true, true =>
    -- the sum of the two neighbours against twice the number
    match compareScaled (down.digits + up.digits) exponent (2 * x.m) x.q with
    | .gt => some down
    | .lt => some up
    | .eq => if tie = .toEven && down.digits % 2 = 0 then some down else some up

def Binary.search (x : Binary) (tie : Tie) (exponent : Int) : Nat → Option Digits
  | 0 => none
  | fuel + 1 =>
    match x.onGrid tie exponent with
    | some d => some d
    | none => x.search tie (exponent - 1) fuel

/-- Move the trailing zeros of the digits into the exponent. -/
def Digits.strip (d : Digits) : Nat → Digits
  | 0 => d
  | fuel + 1 =>
    if d.digits ≠ 0 && d.digits % 10 = 0 then
      Digits.strip ⟨d.digits / 10, d.exponent + 1⟩ fuel
    else d

/-- The exact value, as a decimal with as many digits as it needs. -/
def Binary.exact (x : Binary) : Digits :=
  if 0 ≤ x.q then ⟨x.m * Nat.pow 2 x.q.toNat, 0⟩
  else ⟨x.m * Nat.pow 5 (-x.q).toNat, x.q⟩

/-- The shortest decimal that reads back as a positive number. -/
def Binary.shortest (x : Binary) (tie : Tie) : Digits :=
  ((x.search tie x.scale 24).getD x.exact).strip 400

end Clausal.Decimal
