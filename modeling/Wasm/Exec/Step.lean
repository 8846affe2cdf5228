import Wasm.Exec.Machine
import Wasm.Exec.Plain

/-!
# Steps

One step runs one instruction of the innermost frame, either from the body of
its function or as a prepared operation. A run takes steps until no frame is
left; how many it may take is given beforehand, and running out of them is a
fault of its own.
-/

namespace Wasm

namespace Run

variable {σ : Type}

-- ---------------------------------------------------------------------------
-- Bodies
-- ---------------------------------------------------------------------------

/-- Carries out a branch; going back to the start of a loop costs fuel. -/
def branch (depth : UInt32) : Run σ Unit := do
  match ← inFrame (Exec.branch depth.toNat) with
  | .jump pc => goto pc
  | .again pc =>
    goto pc
    inFrame Exec.burn
  | .leave => leave

/-- Carries out what a plain instruction announced. -/
def perform (env : Env σ) : Effect → Run σ Unit
  | .next => return
  | .branch depth => branch depth
  | .call func => call env func
  | .return_ => leave

/-- Runs an instruction of a body. The position of the frame is behind the
    instruction, whose own position is `pc`. -/
def interpret (env : Env σ) (pc : Nat) : Instr → Run σ Unit
  | .plain i => do
    perform env (← inFrame (i.exec env.module.types))
  | .block type stop => inFrame (Exec.enter .block (stop + 1) (env.module.blockArity type))
  | .loop type => inFrame (Exec.enter .loop pc (env.module.blockArity type))
  | .if_ type otherwise stop => do
    let cond ← inFrame (Exec.popInt .w32)
    inFrame (Exec.enter .if_ (stop + 1) (env.module.blockArity type))
    if cond = 0 then goto (otherwise.elim stop (· + 1))
  | .else_ stop => goto stop
  | .end_ => do
    if !(← inFrame Exec.close) then leave

def stepBody (env : Env σ) (func pc : Nat) : Run σ Unit := do
  match env.module.instr? func pc with
  | none => leave
  | some i =>
    goto (pc + 1)
    interpret env pc i

-- ---------------------------------------------------------------------------
-- Prepared code
-- ---------------------------------------------------------------------------

def stepPrepared (env : Env σ) (ops : Prepared) (pc : Nat) : Run σ Unit := do
  match ops[pc]? with
  | none => leave
  | some op =>
    match ← inFrame op with
    | .next => goto (pc + 1)
    | .jump target => goto target
    | .call func =>
      goto (pc + 1)
      call env func
    | .return_ => leave

-- ---------------------------------------------------------------------------
-- Runs
-- ---------------------------------------------------------------------------

/-- One step of the innermost frame. -/
def step (env : Env σ) : Run σ Unit := do
  match (← get).frames with
  | [] => return
  | frame :: _ =>
    match frame.code with
    | .body func => stepBody env func frame.pc
    | .prepared ops => stepPrepared env ops frame.pc

/-- Takes at most that many steps until no frame is left. -/
def steps (env : Env σ) : Nat → Run σ Unit
  | 0 => do
    if (← get).frames.isEmpty then return
    else throw .unfinished
  | budget + 1 => do
    if (← get).frames.isEmpty then return
    else
      step env
      steps env budget

/-- A fault of the action is due to the innermost frame at that point. -/
def blamingFrame (action : Run σ Unit) : Run σ Unit := fun m =>
  match action m with
  | .ok a m => .ok a m
  | .error e m =>
    match m.frames with
    | [] => .error e m
    | frame :: _ => .error e (m.blame frame.func)

/-- Calls a function with the arguments on the stack and runs it to its end,
    which leaves the results there. -/
def callToEnd (env : Env σ) (budget : Nat) (func : UInt32) : Run σ Unit := do
  call env func
  blamingFrame (steps env budget)

end Run

end Wasm
