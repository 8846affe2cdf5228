import Wasm.Instance

/-!
# Allocation in the guest

Guests may export an allocator (`malloc`, `free`) and a stack pointer
(`stackSave`, `stackRestore`, `stackAlloc`) for the host to place data with.
-/

namespace Wasm.Run

variable {σ : Type} (env : Env σ) (budget : Nat)

/-- Calls an export that must return a single 32-bit integer. -/
def invokeWord (name : String) (args : List Value) : Run σ UInt32 := do
  match ← invoke env budget name args with
  | [.i32 x] => return UInt32.ofBitVec x
  | [v] => trap (v.mismatch .i32)
  | _ => trap (.argumentMismatch name)

/-- Calls an export whose results do not matter. -/
def invokeUnit (name : String) (args : List Value) : Run σ Unit := do
  let _ ← invoke env budget name args
  return

def word (x : UInt32) : Value := .i32 x.toBitVec

def alloc (size : UInt32) : Run σ UInt32 :=
  invokeWord env budget "malloc" [word size]

def free (pointer : UInt32) : Run σ Unit :=
  invokeUnit env budget "free" [word pointer]

def stackSave : Run σ UInt32 :=
  invokeWord env budget "stackSave" []

def stackRestore (pointer : UInt32) : Run σ Unit :=
  invokeUnit env budget "stackRestore" [word pointer]

def stackAlloc (size : UInt32) : Run σ UInt32 :=
  invokeWord env budget "stackAlloc" [word size]

/-- Makes room for bytes and copies them there. -/
def place (allocate : UInt32 → Run σ UInt32) (bytes : List UInt8) : Run σ UInt32 := do
  let pointer ← allocate bytes.length.toUInt32
  writeMemory pointer.toNat bytes
  return pointer

def allocWrite (bytes : List UInt8) : Run σ UInt32 :=
  place (alloc env budget) bytes

def stackAllocWrite (bytes : List UInt8) : Run σ UInt32 :=
  place (stackAlloc env budget) bytes

end Wasm.Run
