import Wasm.Format.Opcode
import Wasm.Format.Window

/-!
# Tokens

A token is one encoded instruction: a plain instruction, or a mark of the
block structure.
-/

namespace Wasm.Format

inductive Token where
  | plain (i : Plain)
  | block (type : BlockType)
  | loop (type : BlockType)
  | if_ (type : BlockType)
  | else_
  | end_
deriving DecidableEq

namespace Reader

def valueType : Reader ValueType := do
  match ← byte with
  | 0x7F => return .i32
  | 0x7E => return .i64
  | 0x7D => return .f32
  | 0x7C => return .f64
  | b => throw (.invalidValueType b)

/-- A signed 33-bit number: a type index, or below zero one of the one-byte
    forms. -/
def blockType : Reader BlockType := do
  let n ← signed 33
  if 0 ≤ n then return .func (UInt32.ofNat n.toNat)
  else if n = -0x40 then return .empty
  else if n = -1 then return .value .i32
  else if n = -2 then return .value .i64
  else if n = -3 then return .value .f32
  else if n = -4 then return .value .f64
  else throw (.invalidValueType (UInt8.ofNat (n % 128).toNat))

def memArg : Reader MemArg := do
  let align ← u32
  let offset ← u32
  return { align, offset }

/-- The operand of a constant instruction. -/
def constant : ValueType → Reader Value
  | .i32 => return .i32 (BitVec.ofInt 32 (← signed 32))
  | .i64 => return .i64 (BitVec.ofInt 64 (← signed 64))
  | .f32 => return .f32 (BitVec.ofNat 32 (← word 4))
  | .f64 => return .f64 (BitVec.ofNat 64 (← word 8))

/-- The reserved memory index. -/
def zeroByte : Reader Unit := do
  if (← byte) ≠ 0 then malformed .memoryIndex

/-- The immediates of an opcode. -/
def immediates : Opcode → Reader Token
  | .unreachable => return .plain .unreachable
  | .nop => return .plain .nop
  | .block => return .block (← blockType)
  | .loop => return .loop (← blockType)
  | .if_ => return .if_ (← blockType)
  | .else_ => return .else_
  | .end_ => return .end_
  | .br => return .plain (.br (← u32))
  | .brIf => return .plain (.brIf (← u32))
  | .brTable => do
    let targets ← vector u32
    let default ← u32
    return .plain (.brTable targets default)
  | .return_ => return .plain .return_
  | .call => return .plain (.call (← u32))
  | .callIndirect => do
    let type ← u32
    let table ← u32
    return .plain (.callIndirect type table)
  | .drop => return .plain .drop
  | .select => return .plain .select
  | .localGet => return .plain (.localGet (← u32))
  | .localSet => return .plain (.localSet (← u32))
  | .localTee => return .plain (.localTee (← u32))
  | .globalGet => return .plain (.globalGet (← u32))
  | .globalSet => return .plain (.globalSet (← u32))
  | .load kind => return .plain (.load kind (← memArg))
  | .store kind => return .plain (.store kind (← memArg))
  | .memorySize => do
    zeroByte
    return .plain .memorySize
  | .memoryGrow => do
    zeroByte
    return .plain .memoryGrow
  | .const t => return .plain (.const (← constant t))
  | .intEqz w => return .plain (.intEqz w)
  | .intCompare w op => return .plain (.intCompare w op)
  | .intUnary w op => return .plain (.intUnary w op)
  | .intBinary w op => return .plain (.intBinary w op)
  | .floatCompare w op => return .plain (.floatCompare w op)
  | .floatUnary w op => return .plain (.floatUnary w op)
  | .floatBinary w op => return .plain (.floatBinary w op)
  | .convert op => return .plain (.convert op)

def token : Reader Token := do
  let start ← offset
  let b ← byte
  match Opcode.ofByte? b with
  | some op => immediates op
  | none => throw (.unknownOpcode b start)

end Reader

end Wasm.Format
