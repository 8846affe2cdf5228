import Wasm.Trap

/-!
# Integer operators

One definition serves both widths: a word is a `BitVec w`, read as unsigned
or as two's complement as the operator says.
-/

namespace Wasm

inductive IntUnary where
  | clz
  | ctz
  | popcnt
  | extend8S
  | extend16S
  | extend32S
deriving DecidableEq

inductive IntBinary where
  | add
  | sub
  | mul
  | divS
  | divU
  | remS
  | remU
  | and
  | or
  | xor
  | shl
  | shrS
  | shrU
  | rotl
  | rotr
deriving DecidableEq

inductive IntCompare where
  | eq
  | ne
  | ltS
  | ltU
  | gtS
  | gtU
  | leS
  | leU
  | geS
  | geU
deriving DecidableEq

namespace IntUnary

def all : List IntUnary := [clz, ctz, popcnt, extend8S, extend16S, extend32S]

def name : IntUnary → String
  | clz => "clz"
  | ctz => "ctz"
  | popcnt => "popcnt"
  | extend8S => "extend8_s"
  | extend16S => "extend16_s"
  | extend32S => "extend32_s"

/-- The two's-complement value of the low `n` bits. -/
def extend {w : Nat} (n : Nat) (a : BitVec w) : BitVec w :=
  (a.setWidth n).signExtend w

def eval {w : Nat} : IntUnary → BitVec w → BitVec w
  | clz, a => a.clz
  | ctz, a => a.ctz
  | popcnt, a => a.cpop
  | extend8S, a => extend 8 a
  | extend16S, a => extend 16 a
  | extend32S, a => extend 32 a

end IntUnary

namespace IntBinary

def all : List IntBinary :=
  [add, sub, mul, divS, divU, remS, remU, and, or, xor, shl, shrS, shrU, rotl, rotr]

def name : IntBinary → String
  | add => "add"
  | sub => "sub"
  | mul => "mul"
  | divS => "div_s"
  | divU => "div_u"
  | remS => "rem_s"
  | remU => "rem_u"
  | and => "and"
  | or => "or"
  | xor => "xor"
  | shl => "shl"
  | shrS => "shr_s"
  | shrU => "shr_u"
  | rotl => "rotl"
  | rotr => "rotr"

/-- Shift and rotate counts are taken modulo the width. A signed division
    overflows in exactly one case, the least word by minus one; the remainder
    of that pair is zero. -/
def eval {w : Nat} : IntBinary → BitVec w → BitVec w → Except Trap (BitVec w)
  | add, a, b => .ok (a + b)
  | sub, a, b => .ok (a - b)
  | mul, a, b => .ok (a * b)
  | divS, a, b =>
    if b = 0#w then .error .divisionByZero
    else if a = BitVec.intMin w ∧ b = -1#w then .error .integerOverflow
    else .ok (a.sdiv b)
  | divU, a, b => if b = 0#w then .error .divisionByZero else .ok (a / b)
  | remS, a, b => if b = 0#w then .error .divisionByZero else .ok (a.srem b)
  | remU, a, b => if b = 0#w then .error .divisionByZero else .ok (a % b)
  | and, a, b => .ok (a &&& b)
  | or, a, b => .ok (a ||| b)
  | xor, a, b => .ok (a ^^^ b)
  | shl, a, b => .ok (a <<< (b.toNat % w))
  | shrS, a, b => .ok (a.sshiftRight (b.toNat % w))
  | shrU, a, b => .ok (a >>> (b.toNat % w))
  | rotl, a, b => .ok (a.rotateLeft (b.toNat % w))
  | rotr, a, b => .ok (a.rotateRight (b.toNat % w))

end IntBinary

namespace IntCompare

def all : List IntCompare := [eq, ne, ltS, ltU, gtS, gtU, leS, leU, geS, geU]

def name : IntCompare → String
  | eq => "eq"
  | ne => "ne"
  | ltS => "lt_s"
  | ltU => "lt_u"
  | gtS => "gt_s"
  | gtU => "gt_u"
  | leS => "le_s"
  | leU => "le_u"
  | geS => "ge_s"
  | geU => "ge_u"

def eval {w : Nat} : IntCompare → BitVec w → BitVec w → Bool
  | eq, a, b => a == b
  | ne, a, b => a != b
  | ltS, a, b => a.slt b
  | ltU, a, b => a.ult b
  | gtS, a, b => b.slt a
  | gtU, a, b => b.ult a
  | leS, a, b => a.sle b
  | leU, a, b => a.ule b
  | geS, a, b => b.sle a
  | geU, a, b => b.ule a

end IntCompare

end Wasm
