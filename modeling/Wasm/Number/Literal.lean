import Wasm.Number.Decimal

/-!
# Reading numbers from text

Integers are decimal digits with an optional sign. Floats are decimal digits
with an optional point and exponent, or the names of infinity and NaN in any
case.
-/

namespace Wasm.Literal

/-- Why a text is no number. -/
inductive Error where
  | emptyInteger
  | invalidDigit
  | tooLarge
  | emptyFloat
  | invalidFloat
deriving DecidableEq

def Error.message : Error → String
  | emptyInteger => "cannot parse integer from empty string"
  | invalidDigit => "invalid digit found in string"
  | tooLarge => "number too large to fit in target type"
  | emptyFloat => "cannot parse float from empty string"
  | invalidFloat => "invalid float literal"

def digit? (c : Char) : Option Nat :=
  if '0' ≤ c ∧ c ≤ '9' then some (c.toNat - '0'.toNat) else none

-- ---------------------------------------------------------------------------
-- Integers
-- ---------------------------------------------------------------------------

/-- Reads digits from the left as a number below `bound`. The first bad place
    is the error: a character that is no digit, or a digit that takes the
    number to the bound. -/
def digitsBelow (bound : Nat) : (acc : Nat) → List Char → Except Error Nat
  | acc, [] => .ok acc
  | acc, c :: cs =>
    match digit? c with
    | none => .error .invalidDigit
    | some d =>
      if acc * 10 + d < bound then digitsBelow bound (acc * 10 + d) cs else .error .tooLarge

/-- A natural number below `2 ^ bits`, with an optional plus sign. -/
def unsigned (bits : Nat) (s : String) : Except Error Nat :=
  match s.toList with
  | [] => .error .emptyInteger
  | ['+'] => .error .invalidDigit
  | '+' :: cs => digitsBelow (1 <<< bits) 0 cs
  | cs => digitsBelow (1 <<< bits) 0 cs

/-- An integer of `bits` bits in two's complement, with an optional sign. -/
def signed? (bits : Nat) (s : String) : Option Int :=
  let number (bound : Nat) (cs : List Char) : Option Nat :=
    if cs.isEmpty then none else (digitsBelow bound 0 cs).toOption
  match s.toList with
  | '-' :: cs => (number (1 <<< (bits - 1) + 1) cs).map fun n => -(n : Int)
  | '+' :: cs => (number (1 <<< (bits - 1)) cs).map fun n => (n : Int)
  | cs => (number (1 <<< (bits - 1)) cs).map fun n => (n : Int)

-- ---------------------------------------------------------------------------
-- Floats
-- ---------------------------------------------------------------------------

/-- Splits off leading digits. -/
def spanDigits (cs : List Char) : List Char × List Char :=
  cs.span fun c => (digit? c).isSome

def ofDigits (cs : List Char) : Nat :=
  cs.foldl (fun n c => n * 10 + (digit? c).getD 0) 0

/-- The exponent after the digits: nothing, or a mark, a sign and digits. -/
def exponent? : List Char → Option Int
  | [] => some 0
  | mark :: cs =>
    if mark = 'e' ∨ mark = 'E' then
      let (negative, cs) := match cs with
        | '-' :: cs => (true, cs)
        | '+' :: cs => (false, cs)
        | cs => (false, cs)
      if cs.isEmpty ∨ !cs.all (fun c => (digit? c).isSome) then none
      else
        let n : Int := ofDigits cs
        some (if negative then -n else n)
    else none

/-- Digits with an optional point and exponent; at least one digit. -/
def decimal? (cs : List Char) : Option Decimal := do
  let (whole, rest) := spanDigits cs
  let (places, rest) := match rest with
    | '.' :: rest => spanDigits rest
    | rest => ([], rest)
  if whole.isEmpty && places.isEmpty then none
  else
    let e ← exponent? rest
    return ⟨ofDigits (whole ++ places), e - places.length⟩

/-- A float without its sign. -/
def magnitude? {w : Width} (negative : Bool) (cs : List Char) : Option (BitVec w.bits) :=
  let word := String.ofList (cs.map Char.toLower)
  if word = "inf" ∨ word = "infinity" then some (Ieee.pack negative (Ieee.infinity w))
  else if word = "nan" then
    some (Ieee.pack negative (Ieee.infinity w + Ieee.quietBit w))
  else (decimal? cs).map (Decimal.toFloat negative)

def float (w : Width) (s : String) : Except Error (BitVec w.bits) :=
  if s.isEmpty then .error .emptyFloat
  else
    let number := match s.toList with
      | '-' :: cs => magnitude? true cs
      | '+' :: cs => magnitude? false cs
      | cs => magnitude? false cs
    match number with
    | some x => .ok x
    | none => .error .invalidFloat

/-- A value of the given type. An integer may be written signed or unsigned;
    what is neither is judged as an unsigned one. -/
def value (t : ValueType) (s : String) : Except Error Value :=
  match t with
  | .i32 => (integer 32).map Value.i32
  | .i64 => (integer 64).map Value.i64
  | .f32 => (float .w32 s).map Value.f32
  | .f64 => (float .w64 s).map Value.f64
where
  integer (bits : Nat) : Except Error (BitVec bits) :=
    match signed? bits s with
    | some i => .ok (BitVec.ofInt bits i)
    | none => (unsigned bits s).map (BitVec.ofNat bits)

end Wasm.Literal
