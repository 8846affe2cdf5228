import Wasm.Syntax.Types

/-!
# Format errors

Why bytes are no module, with the place in the file where that shows.
-/

namespace Wasm.Format

/-- Faults of a module other than a bad byte or index. -/
inductive Malformation where
  | funcTypeForm
  | limitsFlag
  | tableElementType
  | globalMutability
  | importKind
  | exportKind
  | elementKind
  | elementMode
  | dataMode
  | tooManyLocals
  | bytesAfterBody
  | missingEnd
  | unmatchedBlock
  | strayElse
  | memoryIndex
  | nonConstant
  | constExprShape
  | constExprType (found expected : ValueType)
  | bodyCount
  | dataCount
  | multipleMemories
  | multipleTables
  | memoryTooLarge
  | minimumAboveMaximum
  | startType
  | immutableGlobal (index : UInt32)
deriving DecidableEq

def Malformation.message : Malformation → String
  | funcTypeForm => "function type must start with 0x60"
  | limitsFlag => "invalid limits flag"
  | tableElementType => "only funcref tables are supported"
  | globalMutability => "invalid global mutability"
  | importKind => "invalid import kind"
  | exportKind => "invalid export kind"
  | elementKind => "invalid element kind"
  | elementMode => "only active function-index element segments are supported"
  | dataMode => "passive data segments are not supported"
  | tooManyLocals => "too many locals"
  | bytesAfterBody => "bytes after the end of a function body"
  | missingEnd => "function body is missing its end"
  | unmatchedBlock => "unmatched block"
  | strayElse => "else without matching if"
  | memoryIndex => "memory index must be zero"
  | nonConstant => "non-constant instruction in constant expression"
  | constExprShape => "constant expression must produce exactly one value"
  | constExprType found expected =>
    "constant expression has type " ++ found.name ++ ", expected " ++ expected.name
  | bodyCount => "function and code section lengths differ"
  | dataCount => "data count does not match the data section"
  | multipleMemories => "multiple memories"
  | multipleTables => "multiple tables"
  | memoryTooLarge => "memory size must be at most 65536 pages"
  | minimumAboveMaximum => "size minimum must not exceed the maximum"
  | startType => "start function must have type [] -> []"
  | immutableGlobal index => "global " ++ toString index.toNat ++ " is immutable"

/-- Offsets count bytes from the start of the file. -/
inductive Error where
  | badHeader
  | unexpectedEnd (offset : Nat)
  | numberOverflow (offset : Nat)
  | invalidUtf8 (offset : Nat)
  | sectionSize (section_ : UInt8) (declared : UInt32) (consumed : Nat)
  | sectionOrder (section_ : UInt8)
  | unknownSection (id : UInt8) (offset : Nat)
  | unknownOpcode (opcode : UInt8) (offset : Nat)
  | invalidValueType (byte : UInt8)
  | malformed (reason : Malformation)
  | indexOutOfRange (space : IndexSpace) (index : UInt32) (count : Nat)
deriving DecidableEq

/-- A byte as `0x` and two digits. -/
def hexByte (b : UInt8) : String :=
  String.ofList ('0' :: 'x' :: [b.toNat / 16, b.toNat % 16].map Nat.digitChar)

def Error.message : Error → String
  | badHeader => "bad magic number or version"
  | unexpectedEnd offset => "unexpected end of input at offset " ++ toString offset
  | numberOverflow offset =>
    "LEB128 value too long for its target width at offset " ++ toString offset
  | invalidUtf8 offset => "invalid UTF-8 in name at offset " ++ toString offset
  | sectionSize id declared consumed =>
    "section " ++ toString id.toNat ++ " declares " ++ toString declared.toNat ++
      " bytes but decoding consumed " ++ toString consumed
  | sectionOrder id => "section " ++ toString id.toNat ++ " is duplicated or out of order"
  | unknownSection id offset =>
    "unknown section id " ++ toString id.toNat ++ " at offset " ++ toString offset
  | unknownOpcode opcode offset =>
    "unknown opcode " ++ hexByte opcode ++ " at offset " ++ toString offset
  | invalidValueType byte => "invalid value type " ++ hexByte byte
  | malformed reason => "malformed module: " ++ reason.message
  | indexOutOfRange space index count =>
    space.name ++ " index " ++ toString index.toNat ++ " out of range (len " ++
      toString count ++ ")"

end Wasm.Format
