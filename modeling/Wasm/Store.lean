import Wasm.Memory
import Wasm.Syntax.Module

/-!
# Stores

The mutable state of one instance: its functions, memories, tables and
globals, the names it exports and the fuel it has left.
-/

namespace Wasm

/-- A function of the function index space. -/
inductive FuncInst where
  /-- Code of the module, by the index among its defined functions. -/
  | defined (type : FuncType) (code : Nat)
  /-- A function of the host, by its place among the host functions that the
      instance was linked with, and the name it was imported under. -/
  | host (type : FuncType) (module name : String) (slot : Nat)
deriving DecidableEq

def FuncInst.type : FuncInst → FuncType
  | defined type _ => type
  | host type _ _ _ => type

structure Table where
  slots : Array (Option UInt32)
  max : Option Nat := none
deriving DecidableEq

/-- A global of the global index space. -/
structure GlobalInst where
  value : Value
  mutable : Bool
deriving DecidableEq

structure Store where
  funcs : Array FuncInst := #[]
  memories : Array Memory := #[]
  tables : Array Table := #[]
  globals : Array GlobalInst := #[]
  /-- Exported names, last one first. -/
  exports : List (String × ExportDesc) := []
  /-- Loop repetitions left; `none` is no limit. -/
  fuel : Option Nat := none
  /-- The most pages a memory may grow to. -/
  pageLimit : Nat := 0

namespace Store

/-- The memory that instructions access. -/
def memory? (s : Store) : Option Memory := s.memories[0]?

/-- The last export of that name. -/
def export? (s : Store) (name : String) : Option ExportDesc := s.exports.lookup name

def read (s : Store) (address n : Nat) : Except Trap (List UInt8) :=
  match s.memory? with
  | some m => m.read address n
  | none => .error .memoryOutOfBounds

/-- Changes memory 0, which there must be. -/
def withMemory (s : Store) (change : Memory → Except Trap Memory) : Except Trap Store :=
  match s.memory? with
  | some m => return { s with memories := s.memories.setIfInBounds 0 (← change m) }
  | none => .error .memoryOutOfBounds

def write (s : Store) (address : Nat) (bytes : List UInt8) : Except Trap Store :=
  s.withMemory (·.write address bytes)

/-- Grows memory 0; the delta is read as unsigned. -/
def grow (s : Store) (delta : BitVec 32) : BitVec 32 × Store :=
  match s.memory? with
  | some m =>
    let (old, m) := m.grow delta.toNat s.pageLimit
    (old, { s with memories := s.memories.setIfInBounds 0 m })
  | none => (-1, s)

/-- Pays for one repetition of a loop. -/
def burn (s : Store) : Except Trap Store :=
  match s.fuel with
  | none => .ok s
  | some 0 => .error .outOfFuel
  | some (n + 1) => .ok { s with fuel := some n }

/-- The function in a slot of a table. -/
def element? (s : Store) (table slot : Nat) : Option UInt32 := do
  let t ← s.tables[table]?
  (← t.slots[slot]?)

/-- Puts a function into a slot of a table. -/
def setElement? (s : Store) (table slot : Nat) (func : Option UInt32) : Option Store := do
  let t ← s.tables[table]?
  if slot < t.slots.size then
    let t := { t with slots := t.slots.setIfInBounds slot func }
    return { s with tables := s.tables.setIfInBounds table t }
  else none

/-- The function an indirect call reaches, which must have the expected
    type. -/
def resolve (s : Store) (table slot : Nat) (expected : FuncType) : Except Trap UInt32 :=
  match s.element? table slot with
  | none => .error .undefinedElement
  | some func =>
    match s.funcs[func.toNat]? with
    | none => .error .undefinedElement
    | some f => if f.type = expected then .ok func else .error .indirectCallTypeMismatch

end Store

end Wasm
