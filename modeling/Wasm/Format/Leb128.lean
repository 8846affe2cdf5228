/-!
# LEB128 numbers

A number is written in groups of seven bits, least significant first; every
byte but the last has its top bit set. A signed number is in two's complement
over all its groups. A reader of `bits` bits takes at most `maxLength bits`
bytes, and of the last of these only the low bits.
-/

namespace Wasm.Leb128

/-- The most bytes a number of so many bits may take. -/
def maxLength (bits : Nat) : Nat := (bits + 6) / 7

/-- Bits that the last permitted byte contributes. -/
def lastBits (bits : Nat) : Nat := bits - 7 * (maxLength bits - 1)

/-- The first bytes up to one with a clear top bit, if there is one among the
    first `limit`. -/
def encoding? : (limit : Nat) → List UInt8 → Option (List UInt8)
  | 0, _ => none
  | _ + 1, [] => none
  | limit + 1, b :: bs => if b < 128 then some [b] else (encoding? limit bs).map (b :: ·)

/-- The number its seven-bit groups spell. -/
def value : List UInt8 → Nat
  | [] => 0
  | b :: bs => b.toNat % 128 + 128 * value bs

/-- The number its groups spell in two's complement. -/
def signedValue (bs : List UInt8) : Int :=
  let n := value bs
  let wrap := 1 <<< (7 * bs.length)
  if 2 * n < wrap then n else (n : Int) - wrap

/-- In an unsigned number the spare bits of the last permitted byte are
    clear. -/
def unsignedFits (bits : Nat) (last : UInt8) : Bool :=
  last.toNat % 128 < 1 <<< lastBits bits

/-- In a signed number the spare bits of the last permitted byte repeat the
    sign. -/
def signedFits (bits : Nat) (last : UInt8) : Bool :=
  let n := last.toNat % 128
  let half := 1 <<< (lastBits bits - 1)
  n < half || 128 - half ≤ n

/-- Why bytes are no number of the wanted width. -/
inductive Defect where
  /-- They end inside the number. -/
  | truncated
  /-- The number does not fit. -/
  | overflow
deriving DecidableEq

/-- The encoding at the front of the bytes. Its last byte is judged only when
    it is the last permitted one. -/
def split (bits : Nat) (fits : UInt8 → Bool) (bytes : List UInt8) :
    Except Defect (List UInt8) :=
  match encoding? (maxLength bits) bytes with
  | none => .error (if bytes.length < maxLength bits then .truncated else .overflow)
  | some groups =>
    if groups.length = maxLength bits && !groups.getLast?.all fits then .error .overflow
    else .ok groups

end Wasm.Leb128
