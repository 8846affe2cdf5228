import Wasm.Format.Expr

/-!
# Sections

The kinds of sections and the readers of their contents.
-/

namespace Wasm.Format

inductive SectionKind where
  | custom
  | type
  | import_
  | function
  | table
  | memory
  | global
  | export_
  | start
  | element
  | code
  | data
  | dataCount
deriving DecidableEq

namespace SectionKind

/-- All kinds, each at the place of its id. -/
def all : List SectionKind :=
  [custom, type, import_, function, table, memory, global, export_, start, element, code, data,
    dataCount]

def ofByte? (id : UInt8) : Option SectionKind := all[id.toNat]?

/-- Place in the order of sections. The data count comes before the code,
    although its id is larger. Custom sections have no place. -/
def rank : SectionKind → Nat
  | custom => 0
  | type => 1
  | import_ => 2
  | function => 3
  | table => 4
  | memory => 5
  | global => 6
  | export_ => 7
  | start => 8
  | element => 9
  | dataCount => 10
  | code => 11
  | data => 12

end SectionKind

namespace Reader

/-- The mark of a function type and its parameters and results. -/
def funcType : Reader FuncType := do
  if (← byte) ≠ 0x60 then malformed .funcTypeForm
  else
    let params ← vector valueType
    let results ← vector valueType
    return { params := params.toList, results := results.toList }

def limits : Reader Limits := do
  match ← byte with
  | 0x00 => return { min := ← u32 }
  | 0x01 =>
    let min ← u32
    let max ← u32
    return { min, max }
  | _ => malformed .limitsFlag

def tableType : Reader Limits := do
  if (← byte) ≠ 0x70 then malformed .tableElementType else limits

def globalType : Reader GlobalType := do
  let type ← valueType
  match ← byte with
  | 0x00 => return { type, mutable := false }
  | 0x01 => return { type, mutable := true }
  | _ => malformed .globalMutability

def importDesc : Reader ImportDesc := do
  match ← byte with
  | 0x00 => return .func (← u32)
  | 0x01 => return .table (← tableType)
  | 0x02 => return .memory (← limits)
  | 0x03 => return .global (← globalType)
  | _ => malformed .importKind

def importEntry : Reader Import := do
  let module ← name
  let name ← name
  let desc ← importDesc
  return { module, name, desc }

def global : Reader Global := do
  let type ← globalType
  let init ← constExpr
  return { type, init }

def exportEntry : Reader Export := do
  let name ← name
  let kind ← byte
  let index ← u32
  match kind with
  | 0x00 => return { name, desc := .func index }
  | 0x01 => return { name, desc := .table index }
  | 0x02 => return { name, desc := .memory index }
  | 0x03 => return { name, desc := .global index }
  | _ => malformed .exportKind

/-- An element segment, of table 0 or with a table index and a kind byte. -/
def element : Reader ElementSegment := do
  match ← u32 with
  | 0 =>
    let offset ← constExpr
    let funcs ← vector u32
    return { table := 0, offset, funcs := funcs.toList }
  | 2 =>
    let table ← u32
    let offset ← constExpr
    if (← byte) ≠ 0 then malformed .elementKind
    else
      let funcs ← vector u32
      return { table, offset, funcs := funcs.toList }
  | _ => malformed .elementMode

/-- A data segment, of memory 0 or with a memory index. -/
def data : Reader DataSegment := do
  let memory ← match ← u32 with
    | 0 => pure 0
    | 2 => u32
    | _ => malformed .dataMode
  let offset ← constExpr
  let length ← u32
  let bytes ← bytes length.toNat
  return { memory, offset, bytes }

/-- The most locals a function can declare. -/
def maxLocals : Nat := 50000

/-- Reads `n` groups of equal locals, after those in `acc`. -/
def localGroups : (n : Nat) → (acc : Array ValueType) → Reader (Array ValueType)
  | 0, acc => return acc
  | n + 1, acc => do
    let count ← u32
    let type ← valueType
    if maxLocals < acc.size + count.toNat then malformed .tooManyLocals
    else localGroups n (acc ++ Array.replicate count.toNat type)

/-- Locals and body of a function. -/
structure FunctionCode where
  locals : Array ValueType
  body : Array Instr

def functionEntry : Reader FunctionCode := do
  let locals ← localGroups (← u32).toNat #[]
  let code ← functionCode
  if ← atEnd then return { locals, body := code.body }
  else malformed .bytesAfterBody

/-- A function's code in a frame of its own. -/
def framedFunction : Reader FunctionCode := do
  let size ← u32
  let inner ← frame size.toNat
  return (← within inner functionEntry).1

end Reader

end Wasm.Format
