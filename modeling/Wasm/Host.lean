import Wasm.Store

/-!
# Host functions and imports

A host function is a function of its arguments, of the store it is called
from and of a state of the host's own, both of which it may change. What a
module imports is looked up by module and field name.
-/

namespace Wasm

/-- What a host call leaves. The changes stay also when it fails. -/
structure HostReply (σ : Type) where
  result : Except String (List Value)
  store : Store
  state : σ

/-- A host function and the type it promises. -/
structure HostFunc (σ : Type) where
  type : FuncType
  call : List Value → Store → σ → HostReply σ

/-- What a host can give to a module. -/
inductive HostValue (σ : Type) where
  | func (f : HostFunc σ)
  | global (value : Value) (mutable : Bool)
  | memory (m : Memory)

/-- Values by module and field name, latest first. -/
structure Imports (σ : Type) where
  entries : List ((String × String) × HostValue σ) := []

namespace Imports

variable {σ : Type}

/-- Adds a value, in place of an earlier one of that name. -/
def define (imports : Imports σ) (module name : String) (value : HostValue σ) : Imports σ :=
  { entries := ((module, name), value) :: imports.entries }

def get? (imports : Imports σ) (module name : String) : Option (HostValue σ) :=
  imports.entries.lookup (module, name)

end Imports

end Wasm
