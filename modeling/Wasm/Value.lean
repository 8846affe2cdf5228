import Wasm.Trap

/-!
# Values

A value is a word tagged with its type. Floats are their bit patterns, so two
values are equal exactly when type and bits agree: a NaN equals itself and
minus zero differs from zero.
-/

namespace Wasm

inductive Value where
  | i32 (x : BitVec 32)
  | i64 (x : BitVec 64)
  | f32 (x : BitVec 32)
  | f64 (x : BitVec 64)
deriving DecidableEq

namespace Value

def type : Value → ValueType
  | i32 _ => .i32
  | i64 _ => .i64
  | f32 _ => .f32
  | f64 _ => .f64

/-- The initial value of a local. -/
def zero : ValueType → Value
  | .i32 => i32 0
  | .i64 => i64 0
  | .f32 => f32 0
  | .f64 => f64 0

def int : (w : Width) → BitVec w.bits → Value
  | .w32, x => i32 x
  | .w64, x => i64 x

def float : (w : Width) → BitVec w.bits → Value
  | .w32, x => f32 x
  | .w64, x => f64 x

/-- A truth value as an operand. -/
def ofBool (b : Bool) : Value := i32 (if b then 1 else 0)

def mismatch (expected : ValueType) (v : Value) : Trap :=
  .typeMismatch expected v.type

/-- The word of an integer of the given width. -/
def toInt (w : Width) (v : Value) : Except Trap (BitVec w.bits) :=
  match w, v with
  | .w32, i32 x => .ok x
  | .w64, i64 x => .ok x
  | w, v => .error (v.mismatch (.int w))

/-- The bits of a float of the given width. -/
def toFloat (w : Width) (v : Value) : Except Trap (BitVec w.bits) :=
  match w, v with
  | .w32, f32 x => .ok x
  | .w64, f64 x => .ok x
  | w, v => .error (v.mismatch (.float w))

/-- Overwrites a slot, which keeps its type. -/
def assign (slot value : Value) : Except Trap Value :=
  if slot.type = value.type then .ok value else .error (value.mismatch slot.type)

/-- The first of two values if the condition is not zero, otherwise the
    second. Both must have one type. -/
def select (cond : BitVec 32) (a b : Value) : Except Trap Value :=
  if a.type = b.type then .ok (if cond = 0 then b else a)
  else .error (b.mismatch a.type)

/-- The values have these types, one for one. -/
def haveTypes (values : List Value) (types : List ValueType) : Bool :=
  values.map type == types

/-- Values that must have the given types, one for one; the first that does
    not is the error. -/
def checkTypes : List Value → List ValueType → Except Trap Unit
  | v :: vs, t :: ts => if v.type = t then checkTypes vs ts else .error (v.mismatch t)
  | _, _ => .ok ()

end Value

end Wasm
