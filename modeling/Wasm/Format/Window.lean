import Wasm.Format.Error
import Wasm.Format.Leb128
import Wasm.LittleEndian

/-!
# Windows and readers

A window is a run of bytes of the file that is still to be read, with the
offset of its first byte. A reader takes a value from the front of a window
and leaves the rest. A read that fails leaves the window as it was; only a
name, which is made of several reads, stays after the parts it could read.
-/

namespace Wasm.Format

structure Window where
  bytes : List UInt8
  offset : Nat := 0
deriving DecidableEq

namespace Window

/-- Offset of the byte after the window. -/
def stop (w : Window) : Nat := w.offset + w.bytes.length

/-- The window without its first `n` bytes. -/
def drop (w : Window) (n : Nat) : Window := ⟨w.bytes.drop n, w.offset + n⟩

/-- The first `n` bytes, or all if there are fewer, as a window of their own. -/
def take (w : Window) (n : Nat) : Window := ⟨w.bytes.take n, w.offset⟩

end Window

abbrev Reader := EStateM Error Window

def malformed {α : Type} (reason : Malformation) : Reader α :=
  throw (.malformed reason)

namespace Reader

/-- The number of bytes left. -/
def remaining : Reader Nat := return (← get).bytes.length

def atEnd : Reader Bool := return (← get).bytes.isEmpty

def offset : Reader Nat := return (← get).offset

/-- Frames the next `n` bytes. -/
def frame (n : Nat) : Reader Window := do
  let w ← get
  let front := w.take n
  if front.bytes.length < n then throw (.unexpectedEnd w.stop)
  else
    set (w.drop n)
    return front

def bytes (n : Nat) : Reader (List UInt8) :=
  return (← frame n).bytes

def byte : Reader UInt8 := do
  let w ← get
  match w.bytes with
  | [] => throw (.unexpectedEnd w.stop)
  | b :: _ =>
    set (w.drop 1)
    return b

/-- A little-endian number of `n` bytes. -/
def word (n : Nat) : Reader Nat :=
  return LittleEndian.decode (← bytes n)

/-- The bytes of a LEB128 number. -/
def groups (bits : Nat) (fits : UInt8 → Bool) : Reader (List UInt8) := do
  let w ← get
  match Leb128.split bits fits w.bytes with
  | .ok groups =>
    set (w.drop groups.length)
    return groups
  | .error .truncated => throw (.unexpectedEnd w.stop)
  | .error .overflow => throw (.numberOverflow w.offset)

def unsigned (bits : Nat) : Reader Nat :=
  return Leb128.value (← groups bits (Leb128.unsignedFits bits))

def signed (bits : Nat) : Reader Int :=
  return Leb128.signedValue (← groups bits (Leb128.signedFits bits))

/-- An unsigned 32-bit number: an index, a count or a size. -/
def u32 : Reader UInt32 := return UInt32.ofNat (← unsigned 32)

/-- A length-prefixed UTF-8 string. -/
def name : Reader String := do
  let length ← u32
  let start ← offset
  match String.fromUTF8? (← bytes length.toNat).toByteArray with
  | some s => return s
  | none => throw (.invalidUtf8 start)

/-- Reads `n` items, after those in `acc`. -/
def items {α : Type} (item : Reader α) : (n : Nat) → (acc : Array α) → Reader (Array α)
  | 0, acc => return acc
  | n + 1, acc => do items item n (acc.push (← item))

/-- A count and so many items. -/
def vector {α : Type} (item : Reader α) : Reader (Array α) := do
  items item (← u32).toNat #[]

/-- Runs a reader on a window of its own and returns the rest of that window;
    the present window stays. -/
def within {α : Type} (inner : Window) (r : Reader α) : Reader (α × Window) := do
  match r.run inner with
  | .ok a rest => return (a, rest)
  | .error e _ => throw e

end Reader

end Wasm.Format
