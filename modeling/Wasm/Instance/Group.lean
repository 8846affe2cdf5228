import Wasm.Instance

/-!
# Groups of instances

Several instances of one module. Each has its own settings, imports and store;
they share prepared code and the state of the host.
-/

namespace Wasm

structure Group (σ : Type) where
  module : Module
  shared : Shared σ
  /-- Instances in the order of their creation; `none` for one that could not
      be created. -/
  members : Array (Option (Instance σ)) := #[]

namespace Group

variable {σ : Type}

/-- A group without members. -/
def ofModule (m : Module) (host : σ) : Group σ :=
  { module := m, shared := { cache := .empty m, host } }

/-- Creates one more instance. -/
def instantiate (g : Group σ) (imports : Imports σ) (config : Config) (budget : Nat) :
    Except Link.Error Unit × Group σ :=
  match g.module.instantiate imports config budget g.shared with
  | (.ok i, shared) => (.ok (), { g with shared, members := g.members.push (some i) })
  | (.error e, shared) => (.error e, { g with shared, members := g.members.push none })

def member? (g : Group σ) (index : Nat) : Option (Instance σ) :=
  g.members[index]?.join

/-- Runs an operation on a member, which sees the shared state as the others
    left it. -/
def run {α : Type} (g : Group σ) (index : Nat) (op : Env σ → Run σ α) :
    Option (Except Fault α × Group σ) := do
  let i ← g.member? index
  let (result, i) := Instance.run { i with machine.toShared := g.shared } op
  return (result,
    { g with
      shared := i.machine.toShared
      members := g.members.setIfInBounds index (some i) })

end Group

end Wasm
