import Wasm.Text.Utf8

/-!
# UTF-16

Code units of characters, and decoding with replacement: a surrogate that is
not part of a pair becomes U+FFFD.
-/

namespace Wasm.Utf16

def isHigh (u : UInt16) : Bool := 0xD800 ≤ u && u < 0xDC00

def isLow (u : UInt16) : Bool := 0xDC00 ≤ u && u < 0xE000

/-- The character of a unit that is no surrogate. -/
def single (u : UInt16) : Char := Char.ofNat u.toNat

/-- The character of a pair of surrogates. -/
def pair (high low : UInt16) : Char :=
  Char.ofNat (0x10000 + (high.toNat - 0xD800) * 0x400 + (low.toNat - 0xDC00))

/-- One unit on its own. -/
def lone (u : UInt16) : Char :=
  if isHigh u || isLow u then Utf8.replacement else single u

def decodeUnits : List UInt16 → List Char
  | [] => []
  | [u] => [lone u]
  | u :: v :: rest =>
    if isHigh u && isLow v then pair u v :: decodeUnits rest
    else lone u :: decodeUnits (v :: rest)

def decode (units : List UInt16) : String :=
  String.ofList (decodeUnits units)

/-- Code units of a character. -/
def encodeChar (c : Char) : List UInt16 :=
  if c.toNat < 0x10000 then [c.toNat.toUInt16]
  else
    let n := c.toNat - 0x10000
    [(0xD800 + n / 0x400).toUInt16, (0xDC00 + n % 0x400).toUInt16]

def encode (s : String) : List UInt16 :=
  s.toList.flatMap encodeChar

/-- Units of bytes taken in pairs, low byte first; an odd last byte is left
    out. -/
def ofBytes : List UInt8 → List UInt16
  | a :: b :: rest => (a.toNat + 256 * b.toNat).toUInt16 :: ofBytes rest
  | _ => []

end Wasm.Utf16
