import Wasm.Exec.Step
import Wasm.Link

/-!
# Instances

A module linked with its imports, ready to be called. A trap ends one call:
the instance stays usable and keeps the writes made before. A call that is
rejected at the outset, for its name, slot or arguments, changes nothing.
-/

namespace Wasm

structure Instance (σ : Type) where
  env : Env σ
  machine : Machine σ

namespace Run

variable {σ : Type} (env : Env σ) (budget : Nat)

/-- Runs a function from a clean state and takes its results off the stack. -/
def runFunction (func : UInt32) (args : List Value) (results : Nat) : Run σ (List Value) := do
  modify fun m => { m with origin := none, stack := args.reverse }
  callToEnd env budget func
  let m ← get
  set { m with stack := [] }
  return (m.stack.take results).reverse

/-- After a fault no operands and frames are left. -/
def cleaning {α : Type} (action : Run σ α) : Run σ α := fun m =>
  match action m with
  | .ok a m => .ok a m
  | .error e m => .error e m.reset

/-- Calls a function, which goes by `name` in messages. -/
def invokeFunction (func : UInt32) (name : String) (args : List Value) : Run σ (List Value) := do
  match (← get).store.funcs[func.toNat]? with
  | none => trap .undefinedElement
  | some f =>
    if Value.haveTypes args f.type.params then
      cleaning (runFunction env budget func args f.type.results.length)
    else trap (.argumentMismatch name)

/-- Calls an exported function. -/
def invoke (name : String) (args : List Value) : Run σ (List Value) := do
  match (← get).store.export? name with
  | some (.func index) => invokeFunction env budget index name args
  | _ => trap (.exportNotFound name)

/-- Calls the function in a slot of table 0. -/
def invokeIndirect (slot : UInt32) (args : List Value) : Run σ (List Value) := do
  match (← get).store.element? 0 slot.toNat with
  | some func =>
    invokeFunction env budget func ("table[" ++ toString slot.toNat ++ "]") args
  | none => trap .undefinedElement

def readMemory (address n : Nat) : Run σ (List UInt8) := do
  ofExcept ((← get).store.read address n)

def writeMemory (address : Nat) (bytes : List UInt8) : Run σ Unit := do
  let m ← get
  let store ← ofExcept (m.store.write address bytes)
  set { m with store }

def setFuel (fuel : Option Nat) : Run σ Unit :=
  modify fun m => { m with store.fuel := fuel }

end Run

namespace Instance

variable {σ : Type}

/-- Runs an operation on an instance. -/
def run {α : Type} (i : Instance σ) (op : Env σ → Run σ α) : Except Fault α × Instance σ :=
  match op i.env i.machine with
  | .ok a machine => (.ok a, { i with machine })
  | .error e machine => (.error e, { i with machine })

/-- Names of the exports, in the order of the module. -/
def exports (i : Instance σ) : List String :=
  i.env.module.exports.toList.map (·.name)

/-- The value of an exported global. -/
def global? (i : Instance σ) (name : String) : Option Value :=
  match i.machine.store.export? name with
  | some (.global index) => i.machine.store.globals[index.toNat]?.map (·.value)
  | _ => none

end Instance

/-- Links a module and runs its start function. What the start function did to
    the shared state stays also if it traps. -/
def Module.instantiate {σ : Type} (m : Module) (imports : Imports σ) (config : Config)
    (budget : Nat) (shared : Shared σ) : Except Link.Error (Instance σ) × Shared σ :=
  match m.link imports config with
  | .error e => (.error e, shared)
  | .ok linked =>
    let env : Env σ := { module := m, hosts := linked.hosts, config }
    let machine : Machine σ := { shared with store := linked.store }
    match m.start with
    | none => (.ok { env, machine }, shared)
    | some func =>
      match Run.callToEnd env budget func machine with
      | .ok _ machine => (.ok { env, machine := { machine with stack := [] } }, machine.toShared)
      | .error e machine => (.error (.start e), machine.toShared)

end Wasm
