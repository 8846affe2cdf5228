/-!
# Decoding UTF-8 with replacement

Every part of the input that cannot be the start of a character is replaced by
U+FFFD. Such a part is as long as it can be while some continuation of it would
still be a character, and at least one byte.
-/

namespace Wasm.Utf8

def replacement : Char := '\uFFFD'

/-- The ranges that the bytes after a lead byte must lie in. -/
def continuations (lead : UInt8) : List (UInt8 × UInt8) :=
  let any := (0x80, 0xBF)
  if lead < 0xC2 then []
  else if lead < 0xE0 then [any]
  else if lead = 0xE0 then [(0xA0, 0xBF), any]
  else if lead = 0xED then [(0x80, 0x9F), any]
  else if lead < 0xF0 then [any, any]
  else if lead = 0xF0 then [(0x90, 0xBF), any, any]
  else if lead < 0xF4 then [any, any, any]
  else if lead = 0xF4 then [(0x80, 0x8F), any, any]
  else []

/-- How many bytes from a position lie in the ranges, one after the other. -/
def matching (bytes : ByteArray) (pos : Nat) : List (UInt8 × UInt8) → Nat
  | [] => 0
  | (lo, hi) :: ranges =>
    if h : pos < bytes.size then
      if lo ≤ bytes[pos] ∧ bytes[pos] ≤ hi then matching bytes (pos + 1) ranges + 1 else 0
    else 0

/-- Characters of the bytes from a position on. -/
def decodeFrom (bytes : ByteArray) (pos : Nat) : List Char :=
  if h : pos < bytes.size then
    match bytes.utf8DecodeChar? pos with
    | some c => c :: decodeFrom bytes (pos + c.utf8Size)
    | none =>
      replacement ::
        decodeFrom bytes (pos + 1 + matching bytes (pos + 1) (continuations bytes[pos]))
  else []
termination_by bytes.size - pos
decreasing_by
  · have := c.utf8Size_pos
    omega
  · omega

def decode (bytes : List UInt8) : String :=
  String.ofList (decodeFrom bytes.toByteArray 0)

end Wasm.Utf8
