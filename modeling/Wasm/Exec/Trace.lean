import Wasm.Exec.Operation

/-!
# Traces

Running the operations of one function by themselves, with each step on
record. Calls are not made: the trace goes on behind them.
-/

namespace Wasm

/-- A step that did not trap, with the numbers of operands and labels after
    it. -/
structure TraceStep where
  pc : Nat
  flow : Flow
  operands : Nat
  labels : Nat

/-- What a trace ends with. -/
structure Trace where
  steps : List TraceStep
  fault : Option Fault
  context : Context

/-- Runs at most that many operations from a position. -/
def Prepared.trace (ops : Prepared) : (limit : Nat) → (pc : Nat) → Context → Trace
  | 0, _, c => { steps := [], fault := none, context := c }
  | limit + 1, pc, c =>
    match ops[pc]? with
    | none => { steps := [], fault := none, context := c }
    | some op =>
      match op c with
      | .error e c => { steps := [], fault := some e, context := c }
      | .ok flow c =>
        let step : TraceStep :=
          { pc, flow, operands := c.stack.length, labels := c.labels.length }
        let rest := match flow with
          | .next | .call _ => Prepared.trace ops limit (pc + 1) c
          | .jump target => Prepared.trace ops limit target c
          | .return_ => { steps := [], fault := none, context := c }
        { rest with steps := step :: rest.steps }

end Wasm
