import Wasm.Syntax.Instr

/-!
# Modules

The contents of a module, with its index spaces: imported entries come first,
in import order, then the entries the module defines.
-/

namespace Wasm

/-- A constant expression; the mark that ends it is left out. -/
abbrev ConstExpr := List ConstInstr

inductive ImportDesc where
  | func (type : UInt32)
  | table (limits : Limits)
  | memory (limits : Limits)
  | global (type : GlobalType)
deriving DecidableEq

structure Import where
  module : String
  name : String
  desc : ImportDesc
deriving DecidableEq

inductive ExportDesc where
  | func (index : UInt32)
  | table (index : UInt32)
  | memory (index : UInt32)
  | global (index : UInt32)
deriving DecidableEq

structure Export where
  name : String
  desc : ExportDesc
deriving DecidableEq

/-- A defined function. Its locals come after its parameters. -/
structure Function where
  type : UInt32
  locals : Array ValueType
  body : Array Instr
deriving DecidableEq

structure Global where
  type : GlobalType
  init : ConstExpr
deriving DecidableEq

/-- Functions placed in a table. -/
structure ElementSegment where
  table : UInt32
  offset : ConstExpr
  funcs : List UInt32
deriving DecidableEq

/-- Bytes placed in a memory. -/
structure DataSegment where
  memory : UInt32
  offset : ConstExpr
  bytes : List UInt8
deriving DecidableEq

structure Module where
  types : Array FuncType := #[]
  imports : Array Import := #[]
  functions : Array Function := #[]
  tables : Array Limits := #[]
  memories : Array Limits := #[]
  globals : Array Global := #[]
  exports : Array Export := #[]
  start : Option UInt32 := none
  elements : Array ElementSegment := #[]
  data : Array DataSegment := #[]
deriving DecidableEq, Inhabited

namespace ImportDesc

def func? : ImportDesc → Option UInt32
  | func type => some type
  | _ => none

def table? : ImportDesc → Option Limits
  | table limits => some limits
  | _ => none

def memory? : ImportDesc → Option Limits
  | memory limits => some limits
  | _ => none

def global? : ImportDesc → Option GlobalType
  | global type => some type
  | _ => none

end ImportDesc

namespace Module

/-- Type indices of the imported functions. -/
def importedFuncs (m : Module) : Array UInt32 :=
  m.imports.filterMap (·.desc.func?)

/-- Type indices of the function index space. -/
def funcTypeIndices (m : Module) : Array UInt32 :=
  m.importedFuncs ++ m.functions.map (·.type)

def funcCount (m : Module) : Nat :=
  m.importedFuncs.size + m.functions.size

/-- Signature of a function of the function index space. -/
def funcType? (m : Module) (func : UInt32) : Option FuncType := do
  let type ← m.funcTypeIndices[func.toNat]?
  m.types[type.toNat]?

def importedGlobals (m : Module) : Array GlobalType :=
  m.imports.filterMap (·.desc.global?)

/-- Types of the global index space. -/
def globalTypes (m : Module) : Array GlobalType :=
  m.importedGlobals ++ m.globals.map (·.type)

def tableCount (m : Module) : Nat :=
  (m.imports.filterMap (·.desc.table?)).size + m.tables.size

def memoryCount (m : Module) : Nat :=
  (m.imports.filterMap (·.desc.memory?)).size + m.memories.size

/-- Numbers of parameters and results of a block. -/
def blockArity (m : Module) : BlockType → Nat × Nat
  | .empty => (0, 0)
  | .value _ => (0, 1)
  | .func type =>
    match m.types[type.toNat]? with
    | some t => (t.params.length, t.results.length)
    | none => (0, 0)

/-- The first export of that name. -/
def export? (m : Module) (name : String) : Option ExportDesc :=
  (m.exports.find? (·.name == name)).map (·.desc)

/-- The instruction at a position of a defined function's body. -/
def instr? (m : Module) (func pc : Nat) : Option Instr := do
  let f ← m.functions[func]?
  f.body[pc]?

-- ---------------------------------------------------------------------------
-- Changes
-- ---------------------------------------------------------------------------

/-- Keeps the first `n` instructions of a defined function. -/
def truncateBody (m : Module) (func n : Nat) : Module :=
  { m with functions := m.functions.modify func fun f => { f with body := f.body.take n } }

/-- Gives a defined function another type index. -/
def retype (m : Module) (func : Nat) (type : UInt32) : Module :=
  { m with functions := m.functions.modify func ({ · with type }) }

/-- Empties the initialiser of a defined global. -/
def clearInit (m : Module) (global : Nat) : Module :=
  { m with globals := m.globals.modify global ({ · with init := [] }) }

end Module

end Wasm
