import Wasm.Exec.Step
import Wasm.Syntax.Code

/-!
# Structured evaluation

Code evaluated along its nesting. There are no positions, labels or frames: a
block is evaluated by evaluating its body and looking at how that was left, a
loop by doing so again, and a call by evaluating the body of the function.

Evaluation works on machines but neither reads nor changes their frames. It is
given a bound on how deep repetitions and calls may nest; reaching it is the
fault `unfinished`.
-/

namespace Wasm

/-- How a piece of code was left, with the locals as they are then. -/
inductive Exit where
  | fall (locals : Array Value)
  /-- By a branch out of `depth + 1` of the blocks around it. -/
  | branch (depth : Nat) (locals : Array Value)
  | return_

namespace Structured

variable {σ α : Type}

-- ---------------------------------------------------------------------------
-- Operands
-- ---------------------------------------------------------------------------

/-- Runs an action on the operands, the locals and the store. -/
def onLocals (locals : Array Value) (action : Exec α) : Run σ (α × Array Value) := fun m =>
  match action { stack := m.stack, locals, store := m.store } with
  | .ok a c => .ok (a, c.locals) { m with stack := c.stack, store := c.store }
  | .error e c => .error e { m with stack := c.stack, store := c.store }

/-- The number of operands below the parameters. -/
def below (params : Nat) : Run σ Nat := do
  let m ← get
  if m.stack.length < params then Run.trap .stackUnderflow
  else return m.stack.length - params

/-- Keeps the bottom `height` and the top `arity` operands. -/
def keep (height arity : Nat) : Run σ Unit := do
  let m ← get
  let stack ← Run.ofExcept (Exec.unwound m.stack height arity)
  set { m with stack }

/-- Pays for one repetition of a loop. -/
def burn : Run σ Unit := do
  let m ← get
  let store ← Run.ofExcept m.store.burn
  set { m with store }

-- ---------------------------------------------------------------------------
-- Constructs
-- ---------------------------------------------------------------------------

/-- Goes on with the next piece of code if the first was not left early. -/
def andThen (first : Run σ Exit) (next : Array Value → Run σ Exit) : Run σ Exit := do
  match ← first with
  | .fall locals => next locals
  | exit => return exit

/-- What an exit of the body of a construct is outside of it. A construct keeps
    its results; `arrive` is what a branch to it does. -/
def outward (height results : Nat) (arrive : Array Value → Run σ Exit) : Exit → Run σ Exit
  | .fall locals => do
    keep height results
    return .fall locals
  | .branch 0 locals => arrive locals
  | .branch (depth + 1) locals => return .branch depth locals
  | .return_ => return .return_

/-- A construct of so many parameters and results. A branch to it is given the
    number of operands below the construct. -/
def enclose (arity : Nat × Nat) (body : Run σ Exit) (arrive : Nat → Array Value → Run σ Exit) :
    Run σ Exit := do
  let height ← below arity.1
  outward height arity.2 (arrive height) (← body)

/-- A block, left by a branch to it as by its end. -/
def block (arity : Nat × Nat) (body : Run σ Exit) : Run σ Exit :=
  enclose arity body fun height locals => do
    keep height arity.2
    return .fall locals

/-- A loop, which a branch to it runs again. -/
def loop (arity : Nat × Nat) (body : Run σ Exit) (again : Array Value → Run σ Exit) :
    Run σ Exit :=
  enclose arity body fun height locals => do
    keep height arity.1
    burn
    again locals

/-- A block whose body is chosen by the operand on top. -/
def choose (arity : Nat × Nat) (locals : Array Value) (yes no : Array Value → Run σ Exit) :
    Run σ Exit := do
  let (cond, locals) ← onLocals locals (Exec.popInt .w32)
  block arity (if cond = 0 then no locals else yes locals)

-- ---------------------------------------------------------------------------
-- Functions
-- ---------------------------------------------------------------------------

/-- Evaluates the body of a function and hands the results back, in whichever
    way the body was left. -/
def activate (func : UInt32) (body : Run σ Exit) (height arity : Nat) : Run σ Unit := do
  let _ ← Run.blaming func body
  modify fun m => { m with depth := m.depth - 1 }
  keep height arity

section

variable (env : Env σ) (trees : Array Code)

/-- Calls a function with the arguments on the stack. -/
def call (eval : Code → Array Value → Run σ Exit) (func : UInt32) : Run σ Unit := do
  match (← get).store.funcs[func.toNat]? with
  | none => Run.trap .undefinedElement
  | some (.host type module name slot) => Run.callHost env func type module name slot
  | some (.defined type code) =>
    let locals ← Run.blaming func (Run.takeLocals env type code)
    let m ← get
    set { m with depth := m.depth + 1 }
    activate func (eval (trees[code]?.getD .nil) locals) m.stack.length type.results.length

/-- Evaluates code; `eval` evaluates what is repeated or called. -/
def evalWith (eval : Code → Array Value → Run σ Exit) : Code → Array Value → Run σ Exit
  | .nil, locals => return .fall locals
  | .plain i rest, locals => do
    let (effect, locals) ← onLocals locals (i.exec env.module.types)
    match effect with
    | .next => evalWith eval rest locals
    | .branch depth => return .branch depth.toNat locals
    | .call func =>
      call env trees eval func
      evalWith eval rest locals
    | .return_ => return .return_
  | .block type body rest, locals =>
    andThen (block (env.module.blockArity type) (evalWith eval body locals)) (evalWith eval rest)
  | .loop type body rest, locals =>
    andThen
      (loop (env.module.blockArity type) (evalWith eval body locals) (eval (.loop type body .nil)))
      (evalWith eval rest)
  | .ifThen type body rest, locals =>
    andThen
      (choose (env.module.blockArity type) locals (evalWith eval body) (return .fall ·))
      (evalWith eval rest)
  | .ifElse type body otherwise rest, locals =>
    andThen
      (choose (env.module.blockArity type) locals (evalWith eval body) (evalWith eval otherwise))
      (evalWith eval rest)

/-- Evaluates code with repetitions and calls nested up to `n` deep. -/
def eval : Nat → Code → Array Value → Run σ Exit
  | 0, _, _ => throw .unfinished
  | n + 1, c, locals => evalWith env trees (eval n) c locals

/-- Evaluates the activation of a function that runs the code. -/
def run (n : Nat) (frame : Frame) (c : Code) : Run σ Unit :=
  activate frame.func (eval env trees n c frame.locals) frame.height frame.arity

end

end Structured

end Wasm
