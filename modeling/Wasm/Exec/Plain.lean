import Wasm.Exec.Context

/-!
# Plain instructions

What a plain instruction does to its context, and how control goes on after
it. Branches, calls and returns are only announced here; they are carried out
by whoever keeps track of positions and frames.
-/

namespace Wasm

/-- How control goes on. -/
inductive Effect where
  | next
  | branch (depth : UInt32)
  | call (func : UInt32)
  | return_
deriving DecidableEq

open Exec

namespace Plain

/-- The operand of `br_table` chooses the depth, the default past the end. -/
def tableDepth (targets : Array UInt32) (default : UInt32) (index : BitVec 32) : UInt32 :=
  targets[index.toNat]?.getD default

/-- An instruction that pushes one value and goes on. -/
def produce (value : Exec Value) : Exec Effect := do
  push (← value)
  return .next

/-- Runs a plain instruction; `types` are the types of the module. -/
def exec (types : Array FuncType) : Plain → Exec Effect
  | unreachable => trap .unreachable
  | nop => return .next
  | br depth => return .branch depth
  | brIf depth => do
    if (← popInt .w32) = 0 then return .next else return .branch depth
  | brTable targets default => do
    return .branch (tableDepth targets default (← popInt .w32))
  | return_ => return .return_
  | call func => return .call func
  | callIndirect type table => do
    let slot ← popInt .w32
    match types[type.toNat]? with
    | some expected => return .call (← resolve table.toNat slot.toNat expected)
    | none => trap .indirectCallTypeMismatch
  | drop => do
    let _ ← pop
    return .next
  | select => produce do
    let cond ← popInt .w32
    let b ← pop
    let a ← pop
    ofExcept (Value.select cond a b)
  | .localGet index => produce (Exec.localGet index)
  | .localSet index => do
    Exec.localSet index (← pop)
    return .next
  | localTee index => do
    Exec.localSet index (← top)
    return .next
  | .globalGet index => produce (Exec.globalGet index)
  | .globalSet index => do
    Exec.globalSet index (← pop)
    return .next
  | .load kind arg => produce do
    let base ← popInt .w32
    Exec.load kind (Memory.effectiveAddress base arg.offset)
  | .store kind arg => do
    let v ← pop
    let base ← popInt .w32
    Exec.store kind (Memory.effectiveAddress base arg.offset) v
    return .next
  | .memorySize => produce (return .i32 (← Exec.memorySize))
  | .memoryGrow => produce (return .i32 (← Exec.memoryGrow (← popInt .w32)))
  | const v => produce (return v)
  | intEqz w => produce do
    let a ← popInt w
    return .ofBool (a == 0)
  | intCompare w op => produce do
    let b ← popInt w
    let a ← popInt w
    return .ofBool (op.eval a b)
  | intUnary w op => produce (return .int w (op.eval (← popInt w)))
  | intBinary w op => produce do
    let b ← popInt w
    let a ← popInt w
    return .int w (← ofExcept (op.eval a b))
  | floatCompare w op => produce do
    let b ← popFloat w
    let a ← popFloat w
    return .ofBool (op.eval a b)
  | floatUnary w op => produce (return .float w (op.eval (← popFloat w)))
  | floatBinary w op => produce do
    let b ← popFloat w
    let a ← popFloat w
    return .float w (op.eval a b)
  | convert op => produce do
    ofExcept (op.eval (← pop))

end Plain

end Wasm
