import Wasm.Number.Ieee
import Wasm.Value

/-!
# Conversions

The operators that turn a value of one type into one of another.
-/

namespace Wasm

/-- Whether an integer word is read as two's complement. -/
inductive Sign where
  | signed
  | unsigned
deriving DecidableEq

namespace Sign

def suffix : Sign → String
  | signed => "s"
  | unsigned => "u"

/-- The integer a word stands for. -/
def toInt {n : Nat} : Sign → BitVec n → Int
  | signed, x => x.toInt
  | unsigned, x => x.toNat

/-- The word of `n` bits that stands for an integer, if there is one. -/
def ofInt? (n : Nat) (sign : Sign) (i : Int) : Option (BitVec n) :=
  let x := BitVec.ofInt n i
  if sign.toInt x = i then some x else none

end Sign

inductive Conversion where
  /-- The low half of a 64-bit integer. -/
  | wrap
  /-- The integer part of a float; a trap if the word cannot hold it. -/
  | trunc (int float : Width) (sign : Sign)
  /-- A 32-bit integer in 64 bits. -/
  | extend (sign : Sign)
  /-- The float nearest to an integer. -/
  | convert (float int : Width) (sign : Sign)
  /-- The 32-bit float nearest to a 64-bit one. -/
  | demote
  /-- The 64-bit float equal to a 32-bit one. -/
  | promote
  /-- The bits of a float as an integer. -/
  | toBits (w : Width)
  /-- The float with the bits of an integer. -/
  | ofBits (w : Width)
deriving DecidableEq

namespace Conversion

open Width in
def all : List Conversion :=
  [wrap, trunc w32 w32 .signed, trunc w32 w32 .unsigned, trunc w32 w64 .signed,
    trunc w32 w64 .unsigned, extend .signed, extend .unsigned, trunc w64 w32 .signed,
    trunc w64 w32 .unsigned, trunc w64 w64 .signed, trunc w64 w64 .unsigned,
    convert w32 w32 .signed, convert w32 w32 .unsigned, convert w32 w64 .signed,
    convert w32 w64 .unsigned, demote, convert w64 w32 .signed, convert w64 w32 .unsigned,
    convert w64 w64 .signed, convert w64 w64 .unsigned, promote, toBits w32, toBits w64,
    ofBits w32, ofBits w64]

def name : Conversion → String
  | wrap => "i32.wrap_i64"
  | trunc int float sign =>
    (ValueType.int int).name ++ ".trunc_" ++ (ValueType.float float).name ++ "_" ++ sign.suffix
  | extend sign => "i64.extend_i32_" ++ sign.suffix
  | convert float int sign =>
    (ValueType.float float).name ++ ".convert_" ++ (ValueType.int int).name ++ "_" ++ sign.suffix
  | demote => "f32.demote_f64"
  | promote => "f64.promote_f32"
  | toBits w => (ValueType.int w).name ++ ".reinterpret_" ++ (ValueType.float w).name
  | ofBits w => (ValueType.float w).name ++ ".reinterpret_" ++ (ValueType.int w).name

/-- The integer part of a float as a word. -/
def truncate (int float : Width) (sign : Sign) (x : BitVec float.bits) :
    Except Trap (BitVec int.bits) :=
  match (Ieee.truncate? x).bind (sign.ofInt? int.bits) with
  | some word => .ok word
  | none => .error .invalidConversion

def eval : Conversion → Value → Except Trap Value
  | wrap, v => do return .i32 ((← v.toInt .w64).setWidth 32)
  | trunc int float sign, v => do
    return .int int (← truncate int float sign (← v.toFloat float))
  | extend sign, v => do return .i64 (BitVec.ofInt 64 (sign.toInt (← v.toInt .w32)))
  | convert float int sign, v => do
    return .float float (Ieee.ofInt (sign.toInt (← v.toInt int)))
  | demote, v => do return .f32 (Ieee.convert (w := .w32) (← v.toFloat .w64))
  | promote, v => do return .f64 (Ieee.convert (w := .w64) (← v.toFloat .w32))
  | toBits w, v => do return .int w (← v.toFloat w)
  | ofBits w, v => do return .float w (← v.toInt w)

end Conversion

end Wasm
