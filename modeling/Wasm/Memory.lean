import Wasm.LittleEndian
import Wasm.Syntax.Instr

/-!
# Linear memory

A memory is a run of bytes that grows by whole pages. Guest and host accesses
obey one bound: the bytes must lie inside the memory.
-/

namespace Wasm

/-- Bytes of a page. -/
def pageSize : Nat := 65536

structure Memory where
  data : ByteArray
  /-- The most pages the memory may have by its own type. -/
  max : Option Nat := none

/-- So many zero bytes, doubled up from halves. -/
def zeros (n : Nat) : ByteArray :=
  if n = 0 then ByteArray.empty
  else
    let half := zeros (n / 2)
    if n % 2 = 0 then half ++ half else (half ++ half).push 0

theorem size_zeros (n : Nat) : (zeros n).size = n := by
  induction n using Nat.strongRecOn with
  | ind n ih =>
    rw [zeros]
    split
    · subst n; rfl
    · have := ih (n / 2) (by omega)
      simp only
      split <;> simp only [ByteArray.size_append, ByteArray.size_push, this] <;> omega

namespace Memory

def size (m : Memory) : Nat := m.data.size

/-- Number of whole pages, which is a 32-bit word for memories of less than
    2^48 bytes. -/
def pages (m : Memory) : Nat := m.size / pageSize

def ofPages (pages : Nat) (max : Option Nat) : Memory :=
  { data := zeros (pages * pageSize), max }

/-- Bytes cut or filled up with zeros to a length. -/
def resize (data : ByteArray) (n : Nat) : ByteArray :=
  if n ≤ data.size then data.extract 0 n else data ++ zeros (n - data.size)

/-- The most pages the memory may reach under an engine limit. -/
def bound (m : Memory) (limit : Nat) : Nat :=
  m.max.elim limit (min · limit)

/-- Adds pages and returns the former number of pages, or leaves the memory
    alone and returns `none` if that would pass a limit. -/
def grow? (m : Memory) (delta limit : Nat) : Option (Nat × Memory) :=
  if m.pages + delta ≤ m.bound limit then
    some (m.pages, { m with data := resize m.data ((m.pages + delta) * pageSize) })
  else none

/-- Result word of growing: the former number of pages, or minus one. -/
def grow (m : Memory) (delta limit : Nat) : BitVec 32 × Memory :=
  match m.grow? delta limit with
  | some (pages, m) => (BitVec.ofNat 32 pages, m)
  | none => (-1, m)

-- ---------------------------------------------------------------------------
-- Access
-- ---------------------------------------------------------------------------

/-- The `n` bytes from an address lie in the memory. -/
def fits (m : Memory) (address n : Nat) : Bool := address + n ≤ m.size

def slice (m : Memory) (address n : Nat) : List UInt8 :=
  (m.data.extract address (address + n)).toList

def read (m : Memory) (address n : Nat) : Except Trap (List UInt8) :=
  if m.fits address n then .ok (m.slice address n) else .error .memoryOutOfBounds

/-- Overwrites bytes one by one; those past the end have no effect. -/
def overwrite (data : ByteArray) (address : Nat) : List UInt8 → ByteArray
  | [] => data
  | b :: bs =>
    overwrite (if h : address < data.size then data.set address b h else data) (address + 1) bs

def put (m : Memory) (address : Nat) (bytes : List UInt8) : Memory :=
  { m with data := overwrite m.data address bytes }

def write (m : Memory) (address : Nat) (bytes : List UInt8) : Except Trap Memory :=
  if m.fits address bytes.length then .ok (m.put address bytes) else .error .memoryOutOfBounds

/-- The address of an access; it does not wrap. -/
def effectiveAddress (base : BitVec 32) (offset : UInt32) : Nat :=
  base.toNat + offset.toNat

def load (m : Memory) (kind : LoadKind) (address : Nat) : Except Trap Value := do
  return kind.value (LittleEndian.decode (← m.read address kind.bytes))

/-- The bytes a store writes. -/
def storeBytes (kind : StoreKind) (v : Value) : Except Trap (List UInt8) := do
  return LittleEndian.encode kind.bytes (← kind.raw v)

/-- The type of the value is checked before the bounds. -/
def store (m : Memory) (kind : StoreKind) (address : Nat) (v : Value) : Except Trap Memory := do
  m.write address (← storeBytes kind v)

end Memory

end Wasm
