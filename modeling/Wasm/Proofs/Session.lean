import Wasm.Host.Script
import Wasm.Instance

/-!
# Sessions

The life of an instance as its host sees it: the module is instantiated, and
one request is made after the other. What can be seen after each of them is the
answer, the store, the origin of the last trap and the state of the host; a
host that keeps a log of its calls has that log as part of its state.
-/

namespace Wasm

variable {σ : Type}

-- ---------------------------------------------------------------------------
-- Requests
-- ---------------------------------------------------------------------------

/-- What a host can ask of an instance. -/
inductive Request where
  | invoke (name : String) (args : List Value)
  | invokeIndirect (slot : UInt32) (args : List Value)
  | readMemory (address n : Nat)
  | writeMemory (address : Nat) (bytes : List UInt8)
  | setFuel (fuel : Option Nat)

inductive Answer where
  | values (vs : List Value)
  | bytes (bs : List UInt8)
  | done
deriving DecidableEq

def Request.run (env : Env σ) (budget : Nat) : Request → Run σ Answer
  | invoke name args => return .values (← Run.invoke env budget name args)
  | invokeIndirect slot args => return .values (← Run.invokeIndirect env budget slot args)
  | readMemory address n => return .bytes (← Run.readMemory address n)
  | writeMemory address bytes => do
    Run.writeMemory address bytes
    return .done
  | setFuel fuel => do
    Run.setFuel fuel
    return .done

-- ---------------------------------------------------------------------------
-- Observations
-- ---------------------------------------------------------------------------

/-- What can be seen of an instance between requests. The fuel left is part of
    the store. -/
structure Sight (σ : Type) where
  store : Store
  origin : Option UInt32
  host : σ

def Machine.sight (m : Machine σ) : Sight σ :=
  { store := m.store, origin := m.origin, host := m.host }

structure Observation (σ : Type) where
  result : Except Fault Answer
  sight : Sight σ

/-- The request was answered, or faulted, within the steps granted to it. -/
def Observation.Finished (o : Observation σ) : Prop := o.result ≠ .error .unfinished

/-- Makes requests one after the other, up to the first that does not end. -/
def Instance.serve (budget : Nat) : Instance σ → List Request → List (Observation σ)
  | _, [] => []
  | i, request :: rest =>
    let (result, i) := i.run (request.run · budget)
    let o : Observation σ := { result, sight := i.machine.sight }
    o :: match result with
      | .error .unfinished => []
      | _ => serve budget i rest

/-- The life of an instance. -/
inductive Session (σ : Type) where
  /-- It could not be created. -/
  | rejected (e : Link.Error) (host : σ)
  | opened (sight : Sight σ) (observations : List (Observation σ))

/-- Every part of the session ended within the steps granted to it. -/
def Session.Finished : Session σ → Prop
  | rejected e _ => e ≠ .start .unfinished
  | opened _ observations => ∀ o ∈ observations, o.Finished

/-- Instantiates a module and makes requests of the instance. Each of these may
    take so many steps. -/
def Module.session (m : Module) (imports : Imports σ) (config : Config) (shared : Shared σ)
    (requests : List Request) (budget : Nat) : Session σ :=
  match m.instantiate imports config budget shared with
  | (.error e, shared) => .rejected e shared.host
  | (.ok i, _) => .opened i.machine.sight (i.serve budget requests)

-- ---------------------------------------------------------------------------
-- Logged hosts
-- ---------------------------------------------------------------------------

/-- The host function with each of its calls on record. -/
def HostFunc.logged (name : String) (f : HostFunc σ) : HostFunc (σ × HostLog) where
  type := f.type
  call args store state :=
    let reply := f.call args store state.1
    { result := reply.result, store := reply.store
      state := (reply.state, (name, args) :: state.2) }

def HostValue.logged (name : String) : HostValue σ → HostValue (σ × HostLog)
  | func f => .func (f.logged name)
  | global value mutable => .global value mutable
  | memory m => .memory m

/-- The imports with each call of a host function on record, under the name it
    was imported by. -/
def Imports.logged (imports : Imports σ) : Imports (σ × HostLog) where
  entries := imports.entries.map fun ((module, name), value) =>
    ((module, name), value.logged (module ++ "." ++ name))

end Wasm
