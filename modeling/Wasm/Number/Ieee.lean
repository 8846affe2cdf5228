import Wasm.Syntax.Types

/-!
# Binary floats as bit patterns

A float is its bits. Its magnitude (the pattern without the sign) orders the
finite numbers, infinity and the NaNs, in this sequence. Arithmetic is exact:
an operation forms the true result as a fraction of natural numbers and rounds
it once, to the nearest float and to the even one of two equally near.

A NaN operand comes back quiet, the first of two; an operation without a
result gives the quiet NaN with its sign set.
-/

namespace Wasm.Ieee

/-- Bits of the exponent field. -/
def exponentBits : Width → Nat
  | .w32 => 8
  | .w64 => 11

/-- Bits of the fraction field. -/
def fractionBits : Width → Nat
  | .w32 => 23
  | .w64 => 52

/-- The unit of the smallest numbers is two to this power. -/
def minExponent (w : Width) : Int :=
  2 - (1 <<< (exponentBits w - 1) : Nat) - fractionBits w

/-- Magnitude of infinity; finite magnitudes are smaller, those of NaNs
    larger. -/
def infinity (w : Width) : Nat :=
  (1 <<< exponentBits w - 1) <<< fractionBits w

/-- The bit that tells a quiet NaN from a signalling one. -/
def quietBit (w : Width) : Nat :=
  1 <<< (fractionBits w - 1)

variable {w : Width}

def negative (x : BitVec w.bits) : Bool := x.msb

def magnitude (x : BitVec w.bits) : Nat :=
  x.toNat % 1 <<< (w.bits - 1)

def isNaN (x : BitVec w.bits) : Bool := infinity w < magnitude x

def isInfinite (x : BitVec w.bits) : Bool := magnitude x = infinity w

/-- A float from its sign and magnitude. -/
def pack (negative : Bool) (magnitude : Nat) : BitVec w.bits :=
  BitVec.ofNat w.bits ((if negative then 1 <<< (w.bits - 1) else 0) + magnitude)

def quiet (x : BitVec w.bits) : BitVec w.bits :=
  x ||| BitVec.ofNat w.bits (quietBit w)

/-- The result of an operation that has none. -/
def invalid : BitVec w.bits :=
  pack true (infinity w + quietBit w)

/-- Significand of a finite float: its absolute value is this number times two
    to the power `exponent x`. -/
def significand (x : BitVec w.bits) : Nat :=
  let one := 1 <<< fractionBits w
  let fraction := magnitude x % one
  if magnitude x < one then fraction else one + fraction

/-- Exponent of the significand's unit. -/
def exponent (x : BitVec w.bits) : Int :=
  minExponent w + ((magnitude x >>> fractionBits w - 1 : Nat) : Int)

-- ---------------------------------------------------------------------------
-- Rounding
-- ---------------------------------------------------------------------------

/-- The quotient rounded to nearest, ties to even. -/
def divNearest (num den : Nat) : Nat :=
  let q := num / den
  let r := num % den
  if den < 2 * r ∨ (2 * r = den ∧ q % 2 = 1) then q + 1 else q

/-- A fraction times a power of two, as a fraction. -/
def scale (num den : Nat) (e : Int) : Nat × Nat :=
  if 0 ≤ e then (num <<< e.toNat, den) else (num, den <<< (-e).toNat)

/-- The exponent of the largest power of two not above a positive fraction. -/
def log2Floor (num den : Nat) : Int :=
  let guess : Int := (num.log2 : Int) - den.log2
  let (n, d) := scale num den (-guess)
  if d ≤ n then guess else guess - 1

/-- The float nearest to `num / den`; beyond the largest finite one it is
    infinity. The magnitude counts units of two to the power `u`, and a
    carry out of the fraction moves into the exponent by itself. -/
def round (negative : Bool) (num den : Nat) : BitVec w.bits :=
  if num = 0 then pack negative 0 else
    let u := max (log2Floor num den - fractionBits w) (minExponent w)
    let (n, d) := scale num den (-u)
    let m := (u - minExponent w).toNat <<< fractionBits w + divNearest n d
    pack negative (min m (infinity w))

/-- The float nearest to `m` times two to the power `e`. -/
def roundScaled (negative : Bool) (m : Nat) (e : Int) : BitVec w.bits :=
  let (n, d) := scale m 1 e
  round negative n d

-- ---------------------------------------------------------------------------
-- Arithmetic
-- ---------------------------------------------------------------------------

def abs (a : BitVec w.bits) : BitVec w.bits := pack false (magnitude a)

def neg (a : BitVec w.bits) : BitVec w.bits := pack (!negative a) (magnitude a)

/-- The first operand with the sign of the second. -/
def copysign (a b : BitVec w.bits) : BitVec w.bits := pack (negative b) (magnitude a)

/-- Applies an operation to operands that are no NaNs. -/
def withNumbers (a b : BitVec w.bits) (k : BitVec w.bits) : BitVec w.bits :=
  if isNaN a then quiet a else if isNaN b then quiet b else k

/-- A finite float in units of two to the power `e`, for `e` not above its own
    exponent. -/
def units (x : BitVec w.bits) (e : Int) : Int :=
  let n : Int := (significand x <<< (exponent x - e).toNat : Nat)
  if negative x then -n else n

def addFinite (a b : BitVec w.bits) : BitVec w.bits :=
  let e := min (exponent a) (exponent b)
  let sum := units a e + units b e
  if sum = 0 then pack (negative a && negative b) 0
  else roundScaled (decide (sum < 0)) sum.natAbs e

def add (a b : BitVec w.bits) : BitVec w.bits :=
  withNumbers a b <|
    if isInfinite a then
      if isInfinite b && negative a != negative b then invalid else a
    else if isInfinite b then b
    else addFinite a b

def sub (a b : BitVec w.bits) : BitVec w.bits :=
  withNumbers a b (add a (neg b))

def mul (a b : BitVec w.bits) : BitVec w.bits :=
  withNumbers a b <|
    let sign := negative a != negative b
    if isInfinite a || isInfinite b then
      if magnitude a = 0 ∨ magnitude b = 0 then invalid else pack sign (infinity w)
    else roundScaled sign (significand a * significand b) (exponent a + exponent b)

def div (a b : BitVec w.bits) : BitVec w.bits :=
  withNumbers a b <|
    let sign := negative a != negative b
    if isInfinite a then if isInfinite b then invalid else pack sign (infinity w)
    else if isInfinite b then pack sign 0
    else if magnitude b = 0 then
      if magnitude a = 0 then invalid else pack sign (infinity w)
    else
      let (n, d) := scale (significand a) (significand b) (exponent a - exponent b)
      round sign n d

/-- The root is taken of an even power of two times an integer with at least
    four bits more than twice the fraction; a remainder shows as one half of
    its last unit, so rounding sees on which side of a tie the root lies. -/
def sqrt (a : BitVec w.bits) : BitVec w.bits :=
  if isNaN a then quiet a
  else if magnitude a = 0 then a
  else if negative a then invalid
  else if isInfinite a then a
  else
    let shift := 2 * (fractionBits w + 3) + (exponent a % 2).toNat
    let n := significand a <<< shift
    let root := n.sqrt
    let e := (exponent a - shift) / 2
    if root * root = n then roundScaled false root e
    else roundScaled false (2 * root + 1) (e - 1)

-- ---------------------------------------------------------------------------
-- Order
-- ---------------------------------------------------------------------------

/-- Position among the numbers; both zeros are at the same place. -/
def place (x : BitVec w.bits) : Int :=
  if negative x then -magnitude x else magnitude x

def eq (a b : BitVec w.bits) : Bool :=
  !isNaN a && !isNaN b && place a == place b

def lt (a b : BitVec w.bits) : Bool :=
  !isNaN a && !isNaN b && place a < place b

def le (a b : BitVec w.bits) : Bool :=
  !isNaN a && !isNaN b && place a ≤ place b

/-- The smaller operand; minus zero is below plus zero. -/
def minimum (a b : BitVec w.bits) : BitVec w.bits :=
  withNumbers a b <|
    if place a = place b then if negative a then a else b
    else if place a < place b then a else b

/-- The larger operand; plus zero is above minus zero. -/
def maximum (a b : BitVec w.bits) : BitVec w.bits :=
  withNumbers a b <|
    if place a = place b then if negative a then b else a
    else if place b < place a then a else b

-- ---------------------------------------------------------------------------
-- Integral values
-- ---------------------------------------------------------------------------

/-- Which integer stands for a number between two. -/
inductive Rounding where
  | up
  | down
  | zero
  | even
deriving DecidableEq

/-- Rounds the absolute value `num / den` of a number with the given sign to
    an integer. -/
def Rounding.integer (mode : Rounding) (negative : Bool) (num den : Nat) : Nat :=
  let q := num / den
  let away := if num % den = 0 then q else q + 1
  match mode with
  | up => if negative then q else away
  | down => if negative then away else q
  | zero => q
  | even => divNearest num den

/-- Rounds a float to an integral float; the sign stays, also of zero. -/
def toIntegral (mode : Rounding) (a : BitVec w.bits) : BitVec w.bits :=
  if isNaN a then quiet a
  else if isInfinite a then a
  else
    let (n, d) := scale (significand a) 1 (exponent a)
    round (negative a) (mode.integer (negative a) n d) 1

/-- The integer part of a finite float. -/
def truncate? (a : BitVec w.bits) : Option Int :=
  if isNaN a || isInfinite a then none
  else
    let (n, d) := scale (significand a) 1 (exponent a)
    let q : Int := Rounding.zero.integer (negative a) n d
    some (if negative a then -q else q)

/-- The float nearest to an integer. -/
def ofInt (i : Int) : BitVec w.bits :=
  round (decide (i < 0)) i.natAbs 1

/-- The nearest float of another width. The fraction of a NaN keeps its
    leading bits. -/
def convert {v : Width} (a : BitVec v.bits) : BitVec w.bits :=
  if isNaN a then
    let fraction := magnitude a % 1 <<< fractionBits v
    let moved := fraction <<< fractionBits w >>> fractionBits v
    quiet (pack (negative a) (infinity w + moved))
  else if isInfinite a then pack (negative a) (infinity w)
  else roundScaled (negative a) (significand a) (exponent a)

end Wasm.Ieee
