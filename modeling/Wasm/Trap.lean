import Wasm.Syntax.Types

/-!
# Traps

Why guest code stops. A trap ends the current top-level call only; the
instance it happened in stays usable.
-/

namespace Wasm

inductive Trap where
  | unreachable
  | divisionByZero
  | integerOverflow
  | invalidConversion
  | memoryOutOfBounds
  | indirectCallTypeMismatch
  | undefinedElement
  | callStackExhausted
  | outOfFuel
  | stackUnderflow
  | typeMismatch (expected found : ValueType)
  | exportNotFound (name : String)
  | argumentMismatch (name : String)
  | host (module name message : String)
deriving DecidableEq

def Trap.message : Trap → String
  | unreachable => "unreachable executed"
  | divisionByZero => "integer divide by zero"
  | integerOverflow => "integer overflow"
  | invalidConversion => "invalid conversion to integer"
  | memoryOutOfBounds => "out of bounds memory access"
  | indirectCallTypeMismatch => "indirect call type mismatch"
  | undefinedElement => "undefined element"
  | callStackExhausted => "call stack exhausted"
  | outOfFuel => "all fuel consumed"
  | stackUnderflow => "operand stack underflow"
  | typeMismatch expected found =>
    "type mismatch: expected " ++ expected.name ++ ", found " ++ found.name
  | exportNotFound name => "export function not found: " ++ name
  | argumentMismatch name => "arguments do not match the signature of " ++ name
  | host module name message =>
    "host function " ++ module ++ "." ++ name ++ " failed: " ++ message

/-- Why a run stops early: the guest trapped, or the code names an entry that
    does not exist, or the steps granted to the run are used up. The second
    is ruled out by validation, and the third says nothing about the guest. -/
inductive Fault where
  | trap (t : Trap)
  | missing (space : IndexSpace) (index : Nat)
  | unfinished
deriving DecidableEq

def Fault.message : Fault → String
  | trap t => t.message
  | missing space index => "no " ++ space.name ++ " " ++ toString index
  | unfinished => "the granted steps are used up"

end Wasm
