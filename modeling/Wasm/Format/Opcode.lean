import Wasm.Syntax.Instr

/-!
# Opcodes

An opcode is an instruction without its immediates. The table below is the
whole code page: each row gives a byte and the opcodes that stand from there
on.
-/

namespace Wasm.Format

inductive Opcode where
  | unreachable
  | nop
  | block
  | loop
  | if_
  | else_
  | end_
  | br
  | brIf
  | brTable
  | return_
  | call
  | callIndirect
  | drop
  | select
  | localGet
  | localSet
  | localTee
  | globalGet
  | globalSet
  | load (kind : LoadKind)
  | store (kind : StoreKind)
  | memorySize
  | memoryGrow
  | const (t : ValueType)
  | intEqz (w : Width)
  | intCompare (w : Width) (op : IntCompare)
  | intUnary (w : Width) (op : IntUnary)
  | intBinary (w : Width) (op : IntBinary)
  | floatCompare (w : Width) (op : FloatCompare)
  | floatUnary (w : Width) (op : FloatUnary)
  | floatBinary (w : Width) (op : FloatBinary)
  | convert (op : Conversion)
deriving DecidableEq

namespace Opcode

/-- Comparisons of integers of one width. -/
def intTests (w : Width) : List Opcode :=
  intEqz w :: IntCompare.all.map (intCompare w)

/-- Arithmetic on integers of one width. -/
def intArithmetic (w : Width) : List Opcode :=
  [IntUnary.clz, .ctz, .popcnt].map (intUnary w) ++ IntBinary.all.map (intBinary w)

/-- Arithmetic on floats of one width. -/
def floatArithmetic (w : Width) : List Opcode :=
  FloatUnary.all.map (floatUnary w) ++ FloatBinary.all.map (floatBinary w)

def rows : List (UInt8 × List Opcode) :=
  [(0x00, [unreachable, nop, block, loop, if_, else_]),
    (0x0B, [end_, br, brIf, brTable, return_, call, callIndirect]),
    (0x1A, [drop, select]),
    (0x20, [localGet, localSet, localTee, globalGet, globalSet]),
    (0x28, LoadKind.all.map load),
    (0x36, StoreKind.all.map store),
    (0x3F, [memorySize, memoryGrow]),
    (0x41, ValueType.all.map const),
    (0x45, intTests .w32),
    (0x50, intTests .w64),
    (0x5B, FloatCompare.all.map (floatCompare .w32)),
    (0x61, FloatCompare.all.map (floatCompare .w64)),
    (0x67, intArithmetic .w32),
    (0x79, intArithmetic .w64),
    (0x8B, floatArithmetic .w32),
    (0x99, floatArithmetic .w64),
    (0xA7, Conversion.all.map convert),
    (0xC0, [intUnary .w32 .extend8S, intUnary .w32 .extend16S, intUnary .w64 .extend8S,
      intUnary .w64 .extend16S, intUnary .w64 .extend32S])]

/-- Every byte that is an opcode, with its meaning. -/
def table : List (UInt8 × Opcode) :=
  rows.flatMap fun (start, ops) => ops.zipIdx.map fun (op, i) => (start + UInt8.ofNat i, op)

def ofByte? (b : UInt8) : Option Opcode := table.lookup b

/-- The name of the instruction in the text format. -/
def name : Opcode → String
  | unreachable => "unreachable"
  | nop => "nop"
  | block => "block"
  | loop => "loop"
  | if_ => "if"
  | else_ => "else"
  | end_ => "end"
  | br => "br"
  | brIf => "br_if"
  | brTable => "br_table"
  | return_ => "return"
  | call => "call"
  | callIndirect => "call_indirect"
  | drop => "drop"
  | select => "select"
  | localGet => "local.get"
  | localSet => "local.set"
  | localTee => "local.tee"
  | globalGet => "global.get"
  | globalSet => "global.set"
  | load kind => kind.name
  | store kind => kind.name
  | memorySize => "memory.size"
  | memoryGrow => "memory.grow"
  | const t => t.name ++ ".const"
  | intEqz w => (ValueType.int w).name ++ ".eqz"
  | intCompare w op => (ValueType.int w).name ++ "." ++ op.name
  | intUnary w op => (ValueType.int w).name ++ "." ++ op.name
  | intBinary w op => (ValueType.int w).name ++ "." ++ op.name
  | floatCompare w op => (ValueType.float w).name ++ "." ++ op.name
  | floatUnary w op => (ValueType.float w).name ++ "." ++ op.name
  | floatBinary w op => (ValueType.float w).name ++ "." ++ op.name
  | convert op => op.name

end Opcode

end Wasm.Format
