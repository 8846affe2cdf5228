import Wasm.Format.Section
import Wasm.Validity

/-!
# Reading a module

A module is a header and a sequence of sections. The first error ends the
reading; what was read is then checked for validity.
-/

namespace Wasm.Format

/-- What the sections read so far say. -/
structure Draft where
  module : Module := {}
  funcTypes : Array UInt32 := #[]
  code : Array Reader.FunctionCode := #[]
  dataCount : Option UInt32 := none
  lastRank : Nat := 0

namespace Draft

/-- The place of a section must be after that of the last one; custom
    sections may stand anywhere. -/
def advance? (d : Draft) (kind : SectionKind) : Option Draft :=
  if kind = .custom then some d
  else if kind.rank ≤ d.lastRank then none
  else some { d with lastRank := kind.rank }

/-- Puts types and code of the functions together. -/
def finish (d : Draft) : Except Error Module := do
  if d.funcTypes.size ≠ d.code.size then throw (.malformed .bodyCount)
  if !d.dataCount.all (·.toNat = d.module.data.size) then throw (.malformed .dataCount)
  let functions := d.funcTypes.zipWith (fun type c => ⟨type, c.locals, c.body⟩) d.code
  return { d.module with functions }

end Draft

namespace Reader

/-- The contents of a section. -/
def payload (d : Draft) : SectionKind → Reader Draft
  | .custom => do
    let _ ← name
    let _ ← bytes (← remaining)
    return d
  | .type => return { d with module.types := ← vector funcType }
  | .import_ => return { d with module.imports := ← vector importEntry }
  | .function => return { d with funcTypes := ← vector u32 }
  | .table => return { d with module.tables := ← vector tableType }
  | .memory => return { d with module.memories := ← vector limits }
  | .global => return { d with module.globals := ← vector global }
  | .export_ => return { d with module.exports := ← vector exportEntry }
  | .start => return { d with module.start := some (← u32) }
  | .element => return { d with module.elements := ← vector element }
  | .code => return { d with code := ← vector framedFunction }
  | .data => return { d with module.data := ← vector data }
  | .dataCount => return { d with dataCount := some (← u32) }

/-- The bytes of a section must be used up exactly: reading past their end and
    leaving some are both a wrong size. -/
def framedPayload (d : Draft) (kind : SectionKind) (id : UInt8) (size : UInt32) : Reader Draft := do
  let inner ← frame size.toNat
  match (payload d kind).run inner with
  | .ok d rest =>
    if rest.bytes.isEmpty then return d
    else throw (.sectionSize id size (size.toNat - rest.bytes.length))
  | .error (.unexpectedEnd offset) _ =>
    throw (if offset = inner.stop then .sectionSize id size size.toNat else .unexpectedEnd offset)
  | .error e _ => throw e

def section_ (d : Draft) : Reader Draft := do
  let start ← offset
  let id ← byte
  match SectionKind.ofByte? id with
  | none => throw (.unknownSection id start)
  | some kind =>
    let size ← u32
    match d.advance? kind with
    | none => throw (.sectionOrder id)
    | some d =>
      let left ← remaining
      if left < size.toNat then throw (.sectionSize id size left)
      else framedPayload d kind id size

/-- Sections up to the end of the bytes, whose number bounds theirs. -/
def sections : (bound : Nat) → Draft → Reader Draft
  | 0, d => return d
  | bound + 1, d => do
    if ← atEnd then return d else sections bound (← section_ d)

end Reader

/-- The magic number and the version. -/
def header : List UInt8 := [0x00, 0x61, 0x73, 0x6D, 0x01, 0x00, 0x00, 0x00]

/-- Reads a module without checking its validity. -/
def parse (bytes : List UInt8) : Except Error Module :=
  if bytes.take header.length = header then
    let body := bytes.drop header.length
    match (Reader.sections body.length {}).run ⟨body, header.length⟩ with
    | .ok d _ => d.finish
    | .error e _ => .error e
  else .error .badHeader

/-- Reads a valid module. -/
def decode (bytes : List UInt8) : Except Error Module := do
  let m ← parse bytes
  Validity.check m
  return m

end Wasm.Format
