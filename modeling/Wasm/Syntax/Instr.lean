import Wasm.Number.Integer
import Wasm.Number.Float
import Wasm.Number.Conversion

/-!
# Instructions

Plain instructions hold no other instructions. A function body is a flat
sequence in which the block instructions carry the positions of the marks that
belong to them.
-/

namespace Wasm

/-- What a load reads: a whole word, or a narrow integer widened with its sign
    or with zeros. -/
inductive LoadKind where
  | i32
  | i64
  | f32
  | f64
  | i32S8
  | i32U8
  | i32S16
  | i32U16
  | i64S8
  | i64U8
  | i64S16
  | i64U16
  | i64S32
  | i64U32
deriving DecidableEq

/-- What a store writes: a whole word, or the low bytes of an integer. -/
inductive StoreKind where
  | i32
  | i64
  | f32
  | f64
  | i32N8
  | i32N16
  | i64N8
  | i64N16
  | i64N32
deriving DecidableEq

namespace LoadKind

def all : List LoadKind :=
  [i32, i64, f32, f64, i32S8, i32U8, i32S16, i32U16, i64S8, i64U8, i64S16, i64U16, i64S32, i64U32]

def name : LoadKind → String
  | i32 => "i32.load"
  | i64 => "i64.load"
  | f32 => "f32.load"
  | f64 => "f64.load"
  | i32S8 => "i32.load8_s"
  | i32U8 => "i32.load8_u"
  | i32S16 => "i32.load16_s"
  | i32U16 => "i32.load16_u"
  | i64S8 => "i64.load8_s"
  | i64U8 => "i64.load8_u"
  | i64S16 => "i64.load16_s"
  | i64U16 => "i64.load16_u"
  | i64S32 => "i64.load32_s"
  | i64U32 => "i64.load32_u"

/-- Number of bytes read. -/
def bytes : LoadKind → Nat
  | i32 | f32 | i64S32 | i64U32 => 4
  | i64 | f64 => 8
  | i32S8 | i32U8 | i64S8 | i64U8 => 1
  | i32S16 | i32U16 | i64S16 | i64U16 => 2

/-- The value of the number that the bytes spell. -/
def value (kind : LoadKind) (raw : Nat) : Value :=
  match kind with
  | i32 => .i32 (BitVec.ofNat 32 raw)
  | i64 => .i64 (BitVec.ofNat 64 raw)
  | f32 => .f32 (BitVec.ofNat 32 raw)
  | f64 => .f64 (BitVec.ofNat 64 raw)
  | i32S8 => .i32 ((BitVec.ofNat 8 raw).signExtend 32)
  | i32U8 => .i32 ((BitVec.ofNat 8 raw).setWidth 32)
  | i32S16 => .i32 ((BitVec.ofNat 16 raw).signExtend 32)
  | i32U16 => .i32 ((BitVec.ofNat 16 raw).setWidth 32)
  | i64S8 => .i64 ((BitVec.ofNat 8 raw).signExtend 64)
  | i64U8 => .i64 ((BitVec.ofNat 8 raw).setWidth 64)
  | i64S16 => .i64 ((BitVec.ofNat 16 raw).signExtend 64)
  | i64U16 => .i64 ((BitVec.ofNat 16 raw).setWidth 64)
  | i64S32 => .i64 ((BitVec.ofNat 32 raw).signExtend 64)
  | i64U32 => .i64 ((BitVec.ofNat 32 raw).setWidth 64)

end LoadKind

namespace StoreKind

def all : List StoreKind := [i32, i64, f32, f64, i32N8, i32N16, i64N8, i64N16, i64N32]

def name : StoreKind → String
  | i32 => "i32.store"
  | i64 => "i64.store"
  | f32 => "f32.store"
  | f64 => "f64.store"
  | i32N8 => "i32.store8"
  | i32N16 => "i32.store16"
  | i64N8 => "i64.store8"
  | i64N16 => "i64.store16"
  | i64N32 => "i64.store32"

/-- Number of bytes written. -/
def bytes : StoreKind → Nat
  | i32 | f32 | i64N32 => 4
  | i64 | f64 => 8
  | i32N8 | i64N8 => 1
  | i32N16 | i64N16 => 2

/-- The number of which the low bytes are written. -/
def raw (kind : StoreKind) (v : Value) : Except Trap Nat :=
  match kind with
  | i32 | i32N8 | i32N16 => (v.toInt .w32).map BitVec.toNat
  | i64 | i64N8 | i64N16 | i64N32 => (v.toInt .w64).map BitVec.toNat
  | f32 => (v.toFloat .w32).map BitVec.toNat
  | f64 => (v.toFloat .w64).map BitVec.toNat

end StoreKind

/-- An instruction without nested code. -/
inductive Plain where
  | unreachable
  | nop
  | br (depth : UInt32)
  | brIf (depth : UInt32)
  | brTable (targets : Array UInt32) (default : UInt32)
  | return_
  | call (func : UInt32)
  | callIndirect (type table : UInt32)
  | drop
  | select
  | localGet (index : UInt32)
  | localSet (index : UInt32)
  | localTee (index : UInt32)
  | globalGet (index : UInt32)
  | globalSet (index : UInt32)
  | load (kind : LoadKind) (arg : MemArg)
  | store (kind : StoreKind) (arg : MemArg)
  | memorySize
  | memoryGrow
  | const (v : Value)
  | intEqz (w : Width)
  | intCompare (w : Width) (op : IntCompare)
  | intUnary (w : Width) (op : IntUnary)
  | intBinary (w : Width) (op : IntBinary)
  | floatCompare (w : Width) (op : FloatCompare)
  | floatUnary (w : Width) (op : FloatUnary)
  | floatBinary (w : Width) (op : FloatBinary)
  | convert (op : Conversion)
deriving DecidableEq

/-- The branch depths an instruction names, in the order they are written. -/
def Plain.depths : Plain → List UInt32
  | br depth | brIf depth => [depth]
  | brTable targets default => targets.toList ++ [default]
  | _ => []

/-- An instruction of a flat body. `block` and `if_` know the position of
    their `end_`, an `if_` also that of its `else_`, and an `else_` that of
    the `end_` it shares with its `if_`. -/
inductive Instr where
  | plain (i : Plain)
  | block (type : BlockType) (stop : Nat)
  | loop (type : BlockType)
  | if_ (type : BlockType) (otherwise : Option Nat) (stop : Nat)
  | else_ (stop : Nat)
  | end_
deriving DecidableEq

/-- The instructions allowed in a constant expression. -/
inductive ConstInstr where
  | const (v : Value)
  | globalGet (index : UInt32)
deriving DecidableEq

end Wasm
