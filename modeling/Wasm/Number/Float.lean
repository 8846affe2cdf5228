import Wasm.Number.Ieee

/-!
# Float operators

The operators of the two float types, in terms of the arithmetic on bit
patterns.
-/

namespace Wasm

inductive FloatUnary where
  | abs
  | neg
  | ceil
  | floor
  | trunc
  | nearest
  | sqrt
deriving DecidableEq

inductive FloatBinary where
  | add
  | sub
  | mul
  | div
  | min
  | max
  | copysign
deriving DecidableEq

inductive FloatCompare where
  | eq
  | ne
  | lt
  | gt
  | le
  | ge
deriving DecidableEq

namespace FloatUnary

def all : List FloatUnary := [abs, neg, ceil, floor, trunc, nearest, sqrt]

def name : FloatUnary → String
  | abs => "abs"
  | neg => "neg"
  | ceil => "ceil"
  | floor => "floor"
  | trunc => "trunc"
  | nearest => "nearest"
  | sqrt => "sqrt"

def eval {w : Width} : FloatUnary → BitVec w.bits → BitVec w.bits
  | abs, a => Ieee.abs a
  | neg, a => Ieee.neg a
  | ceil, a => Ieee.toIntegral .up a
  | floor, a => Ieee.toIntegral .down a
  | trunc, a => Ieee.toIntegral .zero a
  | nearest, a => Ieee.toIntegral .even a
  | sqrt, a => Ieee.sqrt a

end FloatUnary

namespace FloatBinary

def all : List FloatBinary := [add, sub, mul, div, min, max, copysign]

def name : FloatBinary → String
  | add => "add"
  | sub => "sub"
  | mul => "mul"
  | div => "div"
  | min => "min"
  | max => "max"
  | copysign => "copysign"

def eval {w : Width} : FloatBinary → BitVec w.bits → BitVec w.bits → BitVec w.bits
  | add, a, b => Ieee.add a b
  | sub, a, b => Ieee.sub a b
  | mul, a, b => Ieee.mul a b
  | div, a, b => Ieee.div a b
  | min, a, b => Ieee.minimum a b
  | max, a, b => Ieee.maximum a b
  | copysign, a, b => Ieee.copysign a b

end FloatBinary

namespace FloatCompare

def all : List FloatCompare := [eq, ne, lt, gt, le, ge]

def name : FloatCompare → String
  | eq => "eq"
  | ne => "ne"
  | lt => "lt"
  | gt => "gt"
  | le => "le"
  | ge => "ge"

/-- A NaN differs from everything and is ordered with nothing. -/
def eval {w : Width} : FloatCompare → BitVec w.bits → BitVec w.bits → Bool
  | eq, a, b => Ieee.eq a b
  | ne, a, b => !Ieee.eq a b
  | lt, a, b => Ieee.lt a b
  | gt, a, b => Ieee.lt b a
  | le, a, b => Ieee.le a b
  | ge, a, b => Ieee.le b a

end FloatCompare

end Wasm
