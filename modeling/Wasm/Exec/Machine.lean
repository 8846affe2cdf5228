import Wasm.Config
import Wasm.Exec.Operation
import Wasm.Host

/-!
# Machines

The state of running code: operands and the frames of active functions, over
the store of an instance. Calls push frames and never nest machines, so the
depth limit is the only bound on them. A trap keeps the function it is due to
as its origin.
-/

namespace Wasm

/-- Where a frame takes its instructions from: the body of a defined function,
    or what was prepared from it. -/
inductive FrameCode where
  | body (func : Nat)
  | prepared (ops : Prepared)

def FrameCode.isPrepared : FrameCode → Bool
  | body _ => false
  | prepared _ => true

/-- An active function. -/
structure Frame where
  func : UInt32
  code : FrameCode
  pc : Nat := 0
  /-- Operands below the frame. -/
  height : Nat
  /-- Number of results. -/
  arity : Nat
  /-- Entered blocks, innermost first. -/
  labels : List Label := []
  locals : Array Value

/-- What stays the same while an instance runs. -/
structure Env (σ : Type) where
  module : Module
  hosts : Array (HostFunc σ)
  config : Config

/-- What the instances of a module have in common: prepared code, and the
    state of the host. -/
structure Shared (σ : Type) where
  cache : CodeCache
  host : σ

structure Machine (σ : Type) extends Shared σ where
  store : Store
  /-- Operands, top first. -/
  stack : List Value := []
  /-- Active functions, innermost first. -/
  frames : List Frame := []
  /-- Number of active functions. -/
  depth : Nat := 0
  /-- The function the last trap is due to. -/
  origin : Option UInt32 := none

abbrev Run (σ : Type) := EStateM Fault (Machine σ)

namespace Machine

variable {σ : Type}

/-- Frames that run bodies, innermost first. -/
def bodyFrames (m : Machine σ) : List Frame :=
  m.frames.filter (!·.code.isPrepared)

/-- Frames that run prepared code, innermost first. -/
def preparedFrames (m : Machine σ) : List Frame :=
  m.frames.filter (·.code.isPrepared)

/-- Names the origin of a trap, unless it has one already. -/
def blame (m : Machine σ) (func : UInt32) : Machine σ :=
  { m with origin := m.origin.or (some func) }

/-- Drops operands and frames. -/
def reset (m : Machine σ) : Machine σ :=
  { m with stack := [], frames := [], depth := 0 }

/-- What the instructions of a frame see. -/
def context (m : Machine σ) (frame : Frame) : Context :=
  { stack := m.stack, locals := frame.locals, labels := frame.labels, store := m.store }

/-- Takes over what the instructions of the innermost frame left. -/
def resume (m : Machine σ) (frame : Frame) (rest : List Frame) (c : Context) : Machine σ :=
  { m with
    stack := c.stack, store := c.store
    frames := { frame with locals := c.locals, labels := c.labels } :: rest }

end Machine

namespace Run

variable {σ α : Type}

def trap (t : Trap) : Run σ α := throw (.trap t)

def ofExcept : Except Trap α → Run σ α
  | .ok a => return a
  | .error t => trap t

/-- A fault of the action is due to this function. -/
def blaming (func : UInt32) (action : Run σ α) : Run σ α := fun m =>
  match action m with
  | .ok a m => .ok a m
  | .error e m => .error e (m.blame func)

-- ---------------------------------------------------------------------------
-- Frames
-- ---------------------------------------------------------------------------

/-- Runs an action in the innermost frame. -/
def inFrame (action : Exec α) : Run σ α := fun m =>
  match m.frames with
  | [] => .error (.trap .stackUnderflow) m
  | frame :: rest =>
    match action (m.context frame) with
    | .ok a c => .ok a (m.resume frame rest c)
    | .error e c => .error e (m.resume frame rest c)

/-- Sets the position of the innermost frame. -/
def goto (pc : Nat) : Run σ Unit :=
  modify fun m =>
    match m.frames with
    | [] => m
    | frame :: rest => { m with frames := { frame with pc } :: rest }

/-- Leaves the innermost frame and hands its results back. The frame is gone
    also if there are too few of them. -/
def leave : Run σ Unit := do
  let m ← get
  match m.frames with
  | [] => trap .stackUnderflow
  | frame :: rest =>
    let m := { m with frames := rest, depth := m.depth - 1 }
    set m
    let stack ← ofExcept (Exec.unwound m.stack frame.height frame.arity)
    set { m with stack }

-- ---------------------------------------------------------------------------
-- Calls
-- ---------------------------------------------------------------------------

/-- Pops arguments, first one first. They are gone also if one of them has
    the wrong type. -/
def takeArgs (params : List ValueType) : Run σ (List Value) := do
  let m ← get
  if m.stack.length < params.length then trap .stackUnderflow
  else
    let args := (m.stack.take params.length).reverse
    set { m with stack := m.stack.drop params.length }
    ofExcept (Value.checkTypes args params)
    return args

/-- The results of a host function, if they are what its type promises. -/
def checkReply (type : FuncType) (module name : String) :
    Except String (List Value) → Except Trap (List Value)
  | .error message => .error (.host module name message)
  | .ok results =>
    if results.length = type.results.length then do
      Value.checkTypes results type.results
      return results
    else
      .error (.host module name
        ("returned " ++ toString results.length ++ " values, expected " ++
          toString type.results.length))

/-- Calls a host function with the arguments on the stack. -/
def callHost (env : Env σ) (func : UInt32) (type : FuncType) (module name : String)
    (slot : Nat) : Run σ Unit := blaming func do
  match env.hosts[slot]? with
  | none => throw (.missing .function slot)
  | some f =>
    let args ← takeArgs type.params
    let m ← get
    let reply := f.call args m.store m.host
    let m := { m with store := reply.store, host := reply.state }
    set m
    let results ← ofExcept (checkReply type module name reply.result)
    set { m with stack := results.reverse ++ m.stack }

/-- Takes the arguments of a defined function and adds its other locals. -/
def takeLocals (env : Env σ) (type : FuncType) (code : Nat) : Run σ (Array Value) := do
  if env.config.maxCallDepth ≤ (← get).depth then trap .callStackExhausted
  else
    let args ← takeArgs type.params
    let declared := (env.module.functions[code]?.map (·.locals)).getD #[]
    return args.toArray ++ declared.map Value.zero

/-- What a frame of a defined function runs under the settings. -/
def frameCode (env : Env σ) (code : Nat) : Run σ FrameCode := do
  if env.config.compile then
    let m ← get
    let (ops, cache) := m.cache.fetch env.module code
    set { m with cache }
    return .prepared ops
  else return .body code

/-- Enters a defined function with the arguments on the stack. -/
def enter (env : Env σ) (func : UInt32) (type : FuncType) (code : Nat) : Run σ Unit := do
  let locals ← blaming func (takeLocals env type code)
  let code ← frameCode env code
  modify fun m =>
    let frame : Frame :=
      { func, code, height := m.stack.length, arity := type.results.length, locals }
    { m with frames := frame :: m.frames, depth := m.depth + 1 }

/-- Calls a function with the arguments on the stack: a host function runs at
    once, a defined function gets a frame. -/
def call (env : Env σ) (func : UInt32) : Run σ Unit := do
  match (← get).store.funcs[func.toNat]? with
  | none => trap .undefinedElement
  | some (.host type module name slot) => callHost env func type module name slot
  | some (.defined type code) => enter env func type code

end Run

end Wasm
