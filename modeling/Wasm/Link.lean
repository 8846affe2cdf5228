import Wasm.Config
import Wasm.Host

/-!
# Linking

Resolving the imports of a module and laying out the store of an instance.
Segments are checked as a whole before any of them is written.
-/

namespace Wasm

namespace Link

/-- Why an import does not fit what the host gives. -/
inductive Mismatch where
  | funcType (expected found : FuncType)
  | globalType
  | memoryLimits
  | tableImport
  | kind
deriving DecidableEq

def Mismatch.message : Mismatch → String
  | funcType expected found => "expected " ++ expected.text ++ ", found " ++ found.text
  | globalType => "global type mismatch"
  | memoryLimits => "memory limits mismatch"
  | tableImport => "table imports are not supported"
  | kind => "import kind mismatch"

/-- Why a module cannot be instantiated. -/
inductive Error where
  | missingImport (module name : String)
  | incompatibleImport (module name : String) (reason : Mismatch)
  | elementSegmentOutOfBounds (index : Nat)
  | dataSegmentOutOfBounds (index : Nat)
  | memoryLimitExceeded (pages limit : Nat)
  | start (fault : Fault)
deriving DecidableEq

def Error.message : Error → String
  | missingImport module name => "unresolved import " ++ module ++ "." ++ name
  | incompatibleImport module name reason =>
    "incompatible import " ++ module ++ "." ++ name ++ ": " ++ reason.message
  | elementSegmentOutOfBounds index =>
    "element segment " ++ toString index ++ " does not fit in its table"
  | dataSegmentOutOfBounds index =>
    "data segment " ++ toString index ++ " does not fit in memory"
  | memoryLimitExceeded pages limit =>
    "memory of " ++ toString pages ++ " pages exceeds the limit of " ++ toString limit ++ " pages"
  | start fault => "start function trapped: " ++ fault.message

/-- A store and the host functions that its functions refer to. -/
structure Linked (σ : Type) where
  store : Store
  hosts : Array (HostFunc σ)

variable {σ : Type}

-- ---------------------------------------------------------------------------
-- Imports
-- ---------------------------------------------------------------------------

/-- A memory of the host is large enough for what is imported, and cannot grow
    further. -/
def memoryFits (limits : Limits) (memory : Memory) : Bool :=
  limits.min.toNat ≤ memory.pages &&
    limits.max.all fun bound => memory.max.any (· ≤ bound.toNat)

/-- Adds what the host gives for an import. -/
def supply (types : Array FuncType) (l : Linked σ) (i : Import) (value : HostValue σ) :
    Except Mismatch (Linked σ) :=
  match i.desc, value with
  | .func index, .func f =>
    let type := types[index.toNat]?.getD {}
    if f.type = type then
      .ok { store := { l.store with
              funcs := l.store.funcs.push (.host type i.module i.name l.hosts.size) }
            hosts := l.hosts.push f }
    else .error (.funcType type f.type)
  | .global type, .global value mutable =>
    if value.type = type.type ∧ mutable = type.mutable then
      .ok { l with store.globals := l.store.globals.push { value, mutable } }
    else .error .globalType
  | .memory limits, .memory memory =>
    if memoryFits limits memory then
      .ok { l with store.memories := l.store.memories.push memory }
    else .error .memoryLimits
  | .table _, _ => .error .tableImport
  | _, _ => .error .kind

/-- Resolves one import. -/
def resolve (types : Array FuncType) (imports : Imports σ) (l : Linked σ) (i : Import) :
    Except Error (Linked σ) :=
  match imports.get? i.module i.name with
  | none => .error (.missingImport i.module i.name)
  | some value => (supply types l i value).mapError (.incompatibleImport i.module i.name)

-- ---------------------------------------------------------------------------
-- Definitions
-- ---------------------------------------------------------------------------

def definedFuncs (m : Module) : Array FuncInst :=
  m.functions.mapIdx fun code f => .defined (m.types[f.type.toNat]?.getD {}) code

def memory (limits : Limits) : Memory :=
  .ofPages limits.min.toNat (limits.max.map UInt32.toNat)

def table (limits : Limits) : Table :=
  { slots := Array.replicate limits.min.toNat none, max := limits.max.map UInt32.toNat }

/-- The value of a constant expression under the globals there are so far. -/
def constant? (globals : Array GlobalInst) : ConstExpr → Option Value
  | [] => none
  | .const v :: _ => some v
  | .globalGet index :: _ => globals[index.toNat]?.map (·.value)

/-- Adds a defined global. -/
def addGlobal (globals : Array GlobalInst) (g : Global) : Array GlobalInst :=
  globals.push
    { value := (constant? globals g.init).getD (.zero g.type.type), mutable := g.type.mutable }

/-- Adds what the module defines to what it imports. -/
def define (m : Module) (s : Store) : Store :=
  { s with
    funcs := s.funcs ++ definedFuncs m
    memories := s.memories ++ m.memories.map memory
    tables := s.tables ++ m.tables.map table
    globals := m.globals.foldl addGlobal s.globals
    exports := (m.exports.toList.map fun e => (e.name, e.desc)).reverse }

-- ---------------------------------------------------------------------------
-- Segments
-- ---------------------------------------------------------------------------

/-- Where a segment starts; the offset is read as unsigned. -/
def offset (s : Store) (e : ConstExpr) : Nat :=
  match constant? s.globals e with
  | some (.i32 x) => x.toNat
  | _ => 0

def elementFits (s : Store) (e : ElementSegment) : Bool :=
  offset s e.offset + e.funcs.length ≤ (s.tables[e.table.toNat]?.map (·.slots.size)).getD 0

def dataFits (s : Store) (d : DataSegment) : Bool :=
  offset s d.offset + d.bytes.length ≤ (s.memories[d.memory.toNat]?.map (·.size)).getD 0

/-- Fills slots one after the other; those past the end have no effect. -/
def fill (slots : Array (Option UInt32)) (at_ : Nat) : List UInt32 → Array (Option UInt32)
  | [] => slots
  | f :: fs => fill (slots.setIfInBounds at_ (some f)) (at_ + 1) fs

def putElement (s : Store) (e : ElementSegment) : Store :=
  { s with
    tables := s.tables.modify e.table.toNat fun t =>
      { t with slots := fill t.slots (offset s e.offset) e.funcs } }

def putData (s : Store) (d : DataSegment) : Store :=
  { s with
    memories := s.memories.modify d.memory.toNat (·.put (offset s d.offset) d.bytes) }

/-- Writes all segments in order, if all of them fit. -/
def fillSegments (m : Module) (s : Store) : Except Error Store :=
  match m.elements.findIdx? (!elementFits s ·) with
  | some index => .error (.elementSegmentOutOfBounds index)
  | none =>
    match m.data.findIdx? (!dataFits s ·) with
    | some index => .error (.dataSegmentOutOfBounds index)
    | none => .ok (m.data.foldl putData (m.elements.foldl putElement s))

end Link

/-- The store of a new instance, before its start function runs. -/
def Module.link {σ : Type} (m : Module) (imports : Imports σ) (config : Config) :
    Except Link.Error (Link.Linked σ) := do
  let store : Store := { fuel := config.fuel, pageLimit := config.maxMemoryPages }
  let l ← m.imports.foldlM (Link.resolve m.types imports) { store, hosts := #[] }
  if let some limits := m.memories.find? (config.maxMemoryPages < ·.min.toNat) then
    throw (.memoryLimitExceeded limits.min.toNat config.maxMemoryPages)
  let store ← Link.fillSegments m (Link.define m l.store)
  return { l with store }

end Wasm
