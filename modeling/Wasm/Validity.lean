import Wasm.Format.Error
import Wasm.Syntax.Module

/-!
# Validity

A module is valid when every index it holds is in range, its limits are in
order and its constant expressions have the right type. Operand types are not
checked; they are a matter of execution.
-/

namespace Wasm.Validity

open Format (Error Malformation)

abbrev Check := Except Error Unit

/-- Checks every item, up to the first that fails. -/
def each {α : Type} (check : α → Check) : List α → Check
  | [] => .ok ()
  | x :: xs => do
    check x
    each check xs

theorem each_eq_ok_iff {α : Type} {check : α → Check} {xs : List α} :
    each check xs = .ok () ↔ ∀ x ∈ xs, check x = .ok () := by
  induction xs with
  | nil => simp [each]
  | cons x xs ih =>
    cases h : check x with
    | ok u => simp [each, h, bind, Except.bind, ih]
    | error e => simp [each, h, bind, Except.bind]

def require (holds : Bool) (reason : Malformation) : Check :=
  if holds then .ok () else .error (.malformed reason)

def inRange (space : IndexSpace) (index : UInt32) (count : Nat) : Check :=
  if index.toNat < count then .ok () else .error (.indexOutOfRange space index count)

-- ---------------------------------------------------------------------------
-- Limits
-- ---------------------------------------------------------------------------

/-- The most pages a memory can have. -/
def maxPages : Nat := 65536

def tableLimits (l : Limits) : Check :=
  require (l.max.all (l.min ≤ ·)) .minimumAboveMaximum

def memoryLimits (l : Limits) : Check := do
  require (l.min.toNat ≤ maxPages && l.max.all (·.toNat ≤ maxPages)) .memoryTooLarge
  tableLimits l

-- ---------------------------------------------------------------------------
-- Parts of a module
-- ---------------------------------------------------------------------------

variable (m : Module)

def typeIndex (type : UInt32) : Check := inRange .type type m.types.size

def importDesc : ImportDesc → Check
  | .func type => typeIndex m type
  | .table limits => tableLimits limits
  | .memory limits => memoryLimits limits
  | .global _ => .ok ()

def limits : Check := do
  require (m.memoryCount ≤ 1) .multipleMemories
  require (m.tableCount ≤ 1) .multipleTables
  each memoryLimits m.memories.toList
  each tableLimits m.tables.toList

/-- A constant expression is one instruction of the expected type; of the
    globals it may name those before `visible`. -/
def constExpr (expected : ValueType) (visible : Nat) : ConstExpr → Check
  | [.const v] => require (v.type = expected) (.constExprType v.type expected)
  | [.globalGet index] => do
    inRange .global index visible
    match m.globalTypes[index.toNat]? with
    | some g => require (g.type = expected) (.constExprType g.type expected)
    | none => .error (.indexOutOfRange .global index m.globalTypes.size)
  | _ => .error (.malformed .constExprShape)

/-- The initial value of a global may name imported globals only. -/
def global (g : Global) : Check :=
  constExpr m g.type.type m.importedGlobals.size g.init

def exportDesc : ExportDesc → Check
  | .func index => inRange .function index m.funcCount
  | .table index => inRange .table index m.tableCount
  | .memory index => inRange .memory index m.memoryCount
  | .global index => inRange .global index m.globalTypes.size

/-- The start function takes and returns nothing. -/
def start (func : UInt32) : Check := do
  inRange .function func m.funcCount
  require (m.funcType? func == some {}) .startType

def element (e : ElementSegment) : Check := do
  inRange .table e.table m.tableCount
  constExpr m .i32 m.globalTypes.size e.offset
  each (inRange .function · m.funcCount) e.funcs

def data (d : DataSegment) : Check := do
  inRange .memory d.memory m.memoryCount
  constExpr m .i32 m.globalTypes.size d.offset

-- ---------------------------------------------------------------------------
-- Function bodies
-- ---------------------------------------------------------------------------

def blockType : BlockType → Check
  | .func type => typeIndex m type
  | _ => .ok ()

def plain (locals : Nat) : Plain → Check
  | .call func => inRange .function func m.funcCount
  | .callIndirect type table => do
    typeIndex m type
    inRange .table table m.tableCount
  | .localGet index | .localSet index | .localTee index => inRange .localVar index locals
  | .globalGet index => inRange .global index m.globalTypes.size
  | .globalSet index => do
    inRange .global index m.globalTypes.size
    require (m.globalTypes[index.toNat]?.all (·.mutable)) (.immutableGlobal index)
  | .load _ _ | .store _ _ | .memorySize | .memoryGrow => inRange .memory 0 m.memoryCount
  | _ => .ok ()

def instr (locals : Nat) : Instr → Check
  | .plain i => plain m locals i
  | .block type _ | .loop type | .if_ type _ _ => blockType m type
  | _ => .ok ()

def function (f : Function) : Check :=
  match m.types[f.type.toNat]? with
  | none => .error (.indexOutOfRange .type f.type m.types.size)
  | some t => each (instr m (t.params.length + f.locals.size)) f.body.toList

def check : Check := do
  each (importDesc m ·.desc) m.imports.toList
  limits m
  each (global m) m.globals.toList
  each (exportDesc m ·.desc) m.exports.toList
  each (start m) m.start.toList
  each (element m) m.elements.toList
  each (data m) m.data.toList
  each (function m) m.functions.toList

end Wasm.Validity
