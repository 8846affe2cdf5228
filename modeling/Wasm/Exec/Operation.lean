import Wasm.Exec.Context

/-!
# Operations

A function can be prepared for running: each instruction of its body becomes
an operation in which the immediates, the arities of blocks and the operator
are already settled. An operation says by itself where control goes on.

Prepared code is kept in a cache that all instances of a module share; a
function is prepared when it is first called.
-/

namespace Wasm

/-- Where control goes on after an operation. -/
inductive Flow where
  | next
  | jump (pc : Nat)
  | call (func : UInt32)
  | return_
deriving DecidableEq

abbrev Operation := Exec Flow

/-- The operations of a function, one for each instruction of its body. -/
abbrev Prepared := Array Operation

namespace Operation

open Exec

/-- A branch; going back to the start of a loop costs fuel. -/
def goto (depth : UInt32) : Operation := do
  match ← branch depth.toNat with
  | .jump pc => return .jump pc
  | .again pc =>
    burn
    return .jump pc
  | .leave => return .return_

def value (v : Value) : Operation := do
  push v
  return .next

def unary {α : Type} (operand : Exec α) (f : α → Value) : Operation := do
  let a ← operand
  push (f a)
  return .next

def binary {α : Type} (operand : Exec α) (f : α → α → Value) : Operation := do
  let b ← operand
  let a ← operand
  push (f a b)
  return .next

/-- A binary operation that may trap. -/
def checked {α : Type} (operand : Exec α) (f : α → α → Except Trap Value) : Operation := do
  let b ← operand
  let a ← operand
  let r ← ofExcept (f a b)
  push r
  return .next

def ofPlain (m : Module) : Plain → Operation
  | .unreachable => trap .unreachable
  | .nop => return .next
  | .br depth => goto depth
  | .brIf depth => do
    let cond ← popInt .w32
    if cond ≠ 0 then goto depth else return .next
  | .brTable targets default => do
    let index ← popInt .w32
    goto (targets[index.toNat]?.getD default)
  | .return_ => return .return_
  | .call func => return .call func
  | .callIndirect type table =>
    let expected := m.types[type.toNat]?.getD {}
    do
      let slot ← popInt .w32
      let func ← resolve table.toNat slot.toNat expected
      return .call func
  | .drop => do
    let _ ← pop
    return .next
  | .select => do
    let cond ← popInt .w32
    let b ← pop
    let a ← pop
    let r ← ofExcept (Value.select cond a b)
    push r
    return .next
  | .localGet index => do
    let v ← localGet index
    push v
    return .next
  | .localSet index => do
    let v ← pop
    localSet index v
    return .next
  | .localTee index => do
    let v ← top
    localSet index v
    return .next
  | .globalGet index => do
    let v ← globalGet index
    push v
    return .next
  | .globalSet index => do
    let v ← pop
    globalSet index v
    return .next
  | .load kind arg =>
    let offset := arg.offset
    do
      let base ← popInt .w32
      let v ← load kind (Memory.effectiveAddress base offset)
      push v
      return .next
  | .store kind arg =>
    let offset := arg.offset
    do
      let v ← pop
      let base ← popInt .w32
      store kind (Memory.effectiveAddress base offset) v
      return .next
  | .memorySize => do
    let size ← memorySize
    push (.i32 size)
    return .next
  | .memoryGrow => do
    let delta ← popInt .w32
    let old ← memoryGrow delta
    push (.i32 old)
    return .next
  | .const v => value v
  | .intEqz w => unary (popInt w) fun a => .ofBool (a == 0)
  | .intCompare w op => binary (popInt w) fun a b => .ofBool (op.eval a b)
  | .intUnary w op => unary (popInt w) fun a => .int w (op.eval a)
  | .intBinary w op => checked (popInt w) fun a b => (op.eval a b).map (Value.int w)
  | .floatCompare w op => binary (popFloat w) fun a b => .ofBool (op.eval a b)
  | .floatUnary w op => unary (popFloat w) fun a => .float w (op.eval a)
  | .floatBinary w op => binary (popFloat w) fun a b => .float w (op.eval a b)
  | .convert op => do
    let v ← pop
    let r ← ofExcept (op.eval v)
    push r
    return .next

/-- The operation of the instruction at position `pc`. -/
def ofInstr (m : Module) (pc : Nat) : Instr → Operation
  | .plain i => ofPlain m i
  | .block type stop =>
    let arity := m.blockArity type
    let target := stop + 1
    do
      enter .block target arity
      return .next
  | .loop type =>
    let arity := m.blockArity type
    do
      enter .loop pc arity
      return .next
  | .if_ type otherwise stop =>
    let arity := m.blockArity type
    let target := stop + 1
    let onFalse := otherwise.elim stop (· + 1)
    do
      let cond ← popInt .w32
      enter .if_ target arity
      return if cond ≠ 0 then .next else .jump onFalse
  | .else_ stop => return .jump stop
  | .end_ => do
    if ← close then return .next else return .return_

end Operation

/-- Prepares a defined function; one that does not exist has no operations. -/
def Module.prepare (m : Module) (func : Nat) : Prepared :=
  match m.functions[func]? with
  | some f => f.body.mapIdx (Operation.ofInstr m)
  | none => #[]

/-- Prepared functions, by index among the defined functions. -/
structure CodeCache where
  slots : Array (Option Prepared)

namespace CodeCache

def empty (m : Module) : CodeCache :=
  { slots := Array.replicate m.functions.size none }

/-- The prepared function of a filled slot. -/
def get? (cache : CodeCache) (func : Nat) : Option Prepared :=
  cache.slots[func]?.join

/-- The prepared function, taken from its slot or put there now. -/
def fetch (cache : CodeCache) (m : Module) (func : Nat) : Prepared × CodeCache :=
  match cache.get? func with
  | some code => (code, cache)
  | none =>
    let code := m.prepare func
    (code, { slots := cache.slots.setIfInBounds func (some code) })

/-- Number of functions prepared so far. -/
def count (cache : CodeCache) : Nat :=
  cache.slots.countP (·.isSome)

end CodeCache

end Wasm
