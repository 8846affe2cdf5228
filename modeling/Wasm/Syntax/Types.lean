/-!
# Types

Value types and the type forms built from them: function types, block types,
limits, global types, and the index spaces a module can refer into.
-/

namespace Wasm

/-- The two word sizes of numbers, shared by integers and floats. -/
inductive Width where
  | w32
  | w64
deriving DecidableEq

namespace Width

/-- Number of bits of a word. -/
@[reducible] def bits : Width → Nat
  | w32 => 32
  | w64 => 64

end Width

/-- The types of operands. -/
inductive ValueType where
  | i32
  | i64
  | f32
  | f64
deriving DecidableEq

namespace ValueType

def all : List ValueType := [i32, i64, f32, f64]

def name : ValueType → String
  | i32 => "i32"
  | i64 => "i64"
  | f32 => "f32"
  | f64 => "f64"

/-- The integer type of a width. -/
def int : Width → ValueType
  | .w32 => i32
  | .w64 => i64

/-- The float type of a width. -/
def float : Width → ValueType
  | .w32 => f32
  | .w64 => f64

end ValueType

/-- Parameters and results of a function, first one first. -/
structure FuncType where
  params : List ValueType := []
  results : List ValueType := []
deriving DecidableEq, Inhabited

/-- A function type as text, such as `[i32 i32] -> [i32]`. -/
def FuncType.text (t : FuncType) : String :=
  let list (ts : List ValueType) := "[" ++ " ".intercalate (ts.map ValueType.name) ++ "]"
  list t.params ++ " -> " ++ list t.results

/-- What a block consumes and produces: nothing, one value, or the parameters
    and results of a function type of the module. -/
inductive BlockType where
  | empty
  | value (t : ValueType)
  | func (type : UInt32)
deriving DecidableEq

/-- Bounds of a table (in slots) or a memory (in pages). -/
structure Limits where
  min : UInt32
  max : Option UInt32 := none
deriving DecidableEq

structure GlobalType where
  type : ValueType
  mutable : Bool
deriving DecidableEq

/-- Immediates of a memory access. The alignment is a hint and has no effect. -/
structure MemArg where
  align : UInt32
  offset : UInt32
deriving DecidableEq

/-- The index spaces of a module. -/
inductive IndexSpace where
  | type
  | function
  | table
  | memory
  | global
  | localVar
  | label
deriving DecidableEq

def IndexSpace.name : IndexSpace → String
  | type => "type"
  | function => "function"
  | table => "table"
  | memory => "memory"
  | global => "global"
  | localVar => "local"
  | label => "label"

end Wasm
