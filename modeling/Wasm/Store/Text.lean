import Wasm.Store
import Wasm.Text.Utf16

/-!
# Strings in memory

Strings that guests keep in memory up to a zero, as bytes of UTF-8 or as
16-bit units of UTF-16. One that has no zero before the end of the memory is
out of bounds, and address zero stands for no string.
-/

namespace Wasm.Store

/-- The bytes of memory 0 from an address to its end. -/
def tail (s : Store) (address : Nat) : Except Trap (List UInt8) :=
  match s.memory? with
  | some m => m.read address (m.size - address)
  | none => .error .memoryOutOfBounds

/-- Number of bytes before the first zero. -/
def stringLength (s : Store) (address : UInt32) : Except Trap Nat := do
  match (← s.tail address.toNat).findIdx? (· == 0) with
  | some n => return n
  | none => throw .memoryOutOfBounds

/-- Number of 16-bit units before the first that is zero. -/
def stringLength16 (s : Store) (address : UInt32) : Except Trap Nat := do
  match (Utf16.ofBytes (← s.tail address.toNat)).findIdx? (· == 0) with
  | some n => return n
  | none => throw .memoryOutOfBounds

def readString (s : Store) (address : UInt32) : Except Trap (Option String) := do
  if address = 0 then return none
  else
    let n ← s.stringLength address
    return some (Utf8.decode (← s.read address.toNat n))

def readString16 (s : Store) (address : UInt32) : Except Trap (Option String) := do
  if address = 0 then return none
  else
    let n ← s.stringLength16 address
    return some (Utf16.decode (Utf16.ofBytes (← s.read address.toNat (n * 2))))

end Wasm.Store
