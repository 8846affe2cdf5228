import Wasm.Number.Ieee
import Wasm.Value

/-!
# Decimal text of values

A float is written with the fewest digits that read back as the same float,
the nearest such decimal, always in positional notation.
-/

namespace Wasm

/-- The number `digits` times ten to the power `exponent`. -/
structure Decimal where
  digits : Nat
  exponent : Int
deriving DecidableEq

namespace Decimal

/-- Digits with a point where the exponent puts it, and no exponent. -/
def positional (d : Decimal) : String :=
  let ds := Nat.toDigits 10 d.digits
  if 0 ≤ d.exponent then
    String.ofList (ds ++ List.replicate d.exponent.toNat '0')
  else
    let places := (-d.exponent).toNat
    if places < ds.length then
      let whole := ds.length - places
      String.ofList (ds.take whole ++ '.' :: ds.drop whole)
    else
      "0." ++ String.ofList (List.replicate (places - ds.length) '0' ++ ds)

/-- The decimal as a fraction. -/
def fraction (d : Decimal) : Nat × Nat :=
  if 0 ≤ d.exponent then (d.digits * Nat.pow 10 d.exponent.toNat, 1)
  else (d.digits, Nat.pow 10 (-d.exponent).toNat)

/-- The float nearest to a decimal. Decimals far outside the range of floats
    are settled by their size alone. -/
def toFloat {w : Width} (negative : Bool) (d : Decimal) : BitVec w.bits :=
  let size : Int := (Nat.toDigits 10 d.digits).length + d.exponent
  if d.digits = 0 ∨ size < -400 then Ieee.pack negative 0
  else if 400 < size then Ieee.pack negative (Ieee.infinity w)
  else
    let (num, den) := d.fraction
    Ieee.round negative num den

-- ---------------------------------------------------------------------------
-- Shortest decimals
-- ---------------------------------------------------------------------------

/-- Compares two fractions. -/
def compareFractions (a b : Nat × Nat) : Ordering :=
  compare (a.1 * b.2) (b.1 * a.2)

/-- Digits that always suffice to read a float back. -/
def maxDigits : Width → Nat
  | .w32 => 9
  | .w64 => 17

/-- The reals that round to a positive finite float: they lie between the
    points half way to its neighbours, ends included iff its significand is
    even. All three points are in quarters of the float's unit. -/
structure Basin where
  low : Nat × Nat
  value : Nat × Nat
  high : Nat × Nat
  closed : Bool

/-- The neighbour below the least float of an exponent is only half a unit
    away. -/
def basin {w : Width} (x : BitVec w.bits) : Basin :=
  let m := significandQuarters
  let at_ (n : Nat) := Ieee.scale n 1 (Ieee.exponent x - 2)
  { low := at_ (if tightBelow then m - 1 else m - 2)
    value := at_ m
    high := at_ (m + 2)
    closed := Ieee.significand x % 2 = 0 }
where
  significandQuarters : Nat := 4 * Ieee.significand x
  tightBelow : Bool :=
    Ieee.significand x = 1 <<< Ieee.fractionBits w && Ieee.minExponent w < Ieee.exponent x

/-- The decimal lies in the basin. -/
def Basin.contains (b : Basin) (d : Decimal) : Bool :=
  let below := compareFractions b.low d.fraction
  let above := compareFractions d.fraction b.high
  (below == .lt || (b.closed && below == .eq)) && (above == .lt || (b.closed && above == .eq))

/-- Number of digits before the point of a positive fraction, zero or less if
    it starts after the point. The binary logarithm gives a lower bound that
    is at most two too small. -/
def wholeDigits (v : Nat × Nat) : Int :=
  let guess := Ieee.log2Floor v.1 v.2 * 1233 / 4096
  let beyond (k : Nat) := compareFractions v (Decimal.fraction ⟨1, guess + k⟩) == .lt
  guess + (((List.range 3).find? beyond).getD 3 : Nat)

/-- The multiple of ten to the power `exponent` just below a fraction. -/
def floorAt (v : Nat × Nat) (exponent : Int) : Decimal :=
  let (num, den) := Decimal.fraction ⟨1, exponent⟩
  ⟨v.1 * den / (v.2 * num), exponent⟩

/-- The multiple above; ten units are one unit of the next place. -/
def next (d : Decimal) : Decimal :=
  if d.digits = 9 then ⟨1, d.exponent + 1⟩ else ⟨d.digits + 1, d.exponent⟩

/-- Of the two neighbours of the value on the grid of `n` digits, the one in
    the basin; of both, the nearer, and the upper on a tie. -/
def Basin.atDigits (b : Basin) (n : Nat) : Option Decimal :=
  let lower := floorAt b.value (wholeDigits b.value - n)
  let upper := lower.next
  let half : Decimal := ⟨10 * lower.digits + 5, lower.exponent - 1⟩
  match b.contains lower, b.contains upper with
  | true, true => some (if compareFractions b.value half.fraction == .lt then lower else upper)
  | true, false => some lower
  | false, true => some upper
  | false, false => none

/-- The shortest decimal that reads back as a positive finite float. -/
def shortest {w : Width} (x : BitVec w.bits) : Decimal :=
  let b := basin x
  let most := maxDigits w
  ((List.range most).findSome? fun n => b.atDigits (n + 1)).getD
    (floorAt b.value (wholeDigits b.value - most))

end Decimal

/-- A float as text; the sign is kept for zero and infinity, and dropped for a
    NaN. -/
def Ieee.text {w : Width} (x : BitVec w.bits) : String :=
  if isNaN x then "NaN"
  else
    let sign := if negative x then "-" else ""
    if isInfinite x then sign ++ "inf"
    else if magnitude x = 0 then sign ++ "0"
    else sign ++ (Decimal.shortest x).positional

/-- A value as text; integers are signed. -/
def Value.text : Value → String
  | i32 x => toString x.toInt
  | i64 x => toString x.toInt
  | f32 x => Ieee.text (w := .w32) x
  | f64 x => Ieee.text (w := .w64) x

end Wasm
