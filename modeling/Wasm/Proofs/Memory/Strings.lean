import Wasm.Proofs.Memory.Access
import Wasm.Store.Text

/-!
# Strings in memory

Guests keep strings in two forms, which differ in the width of their units.
Whatever a memory holds, the length of the string at an address is the index of
the first unit from there on that is zero, and the string is what the units
before it spell. So a string without a zero that is written with one behind it
is read back.
-/

namespace Wasm

variable {σ : Type}

-- ---------------------------------------------------------------------------
-- UTF-8
-- ---------------------------------------------------------------------------

namespace Utf8

theorem decodeFrom_append (before : ByteArray) (cs : List Char) :
    decodeFrom (before ++ cs.utf8Encode) before.size = cs := by
  induction cs generalizing before with
  | nil => rw [decodeFrom]; simp
  | cons c cs ih =>
    have hfirst : (before ++ (c :: cs).utf8Encode).utf8DecodeChar? before.size = some c := by
      rw [ByteArray.utf8DecodeChar?_eq_utf8DecodeChar?_extract,
        ByteArray.extract_append_eq_right rfl ByteArray.size_append]
      exact List.utf8DecodeChar?_utf8Encode_cons
    have hpos := c.utf8Size_pos
    have hsize : (before ++ [c].utf8Encode).size = before.size + c.utf8Size := by
      simp [List.utf8Encode_singleton]
    have hlt : before.size < (before ++ (c :: cs).utf8Encode).size := by
      rw [List.utf8Encode_cons, ← ByteArray.append_assoc, ByteArray.size_append, hsize]
      omega
    rw [decodeFrom, dif_pos hlt, hfirst]
    dsimp only
    rw [List.utf8Encode_cons, ← ByteArray.append_assoc, ← hsize, ih]

theorem toList_toUTF8 (s : String) :
    s.toUTF8.data.toList = s.toList.flatMap String.utf8EncodeChar := by
  rw [String.toUTF8_eq_toByteArray, ← String.utf8Encode_toList, List.utf8Encode,
    List.toList_data_toByteArray]

theorem decode_toUTF8 (s : String) : decode s.toUTF8.data.toList = s := by
  have hbytes : s.toUTF8.data.toList.toByteArray = ByteArray.empty ++ s.toList.utf8Encode := by
    rw [toList_toUTF8, ByteArray.empty_append, List.utf8Encode]
  have hdecode := decodeFrom_append ByteArray.empty s.toList
  rw [ByteArray.size_empty] at hdecode
  rw [decode, hbytes, hdecode, String.ofList_toList]

theorem zero_notMem_encodeChar {c : Char} (h : c ≠ '\x00') : 0 ∉ String.utf8EncodeChar c := by
  have hpos : c.val.toNat ≠ 0 := fun hzero => h (Char.toNat_inj.mp hzero)
  have hbyte : ∀ n, 0 < n → n < 256 → (0 : UInt8) ≠ UInt8.ofNat n := by
    intro n hpos hlt heq
    have := congrArg UInt8.toNat heq
    simp at this
    omega
  simp only [String.utf8EncodeChar]
  repeat' split
  all_goals simp only [List.mem_cons, List.not_mem_nil, or_false, not_or]
  all_goals repeat' apply And.intro
  all_goals exact hbyte _ (by omega) (by omega)

theorem zero_notMem_toUTF8 {s : String} (h : '\x00' ∉ s.toList) :
    0 ∉ s.toUTF8.data.toList := by
  rw [toList_toUTF8]
  intro hzero
  obtain ⟨c, hc, hzero⟩ := List.mem_flatMap.mp hzero
  exact zero_notMem_encodeChar (fun heq => h (heq ▸ hc)) hzero

end Utf8

-- ---------------------------------------------------------------------------
-- UTF-16
-- ---------------------------------------------------------------------------

namespace Utf16

theorem isHigh_iff {u : UInt16} : isHigh u = true ↔ 0xD800 ≤ u.toNat ∧ u.toNat < 0xDC00 := by
  simp [isHigh, UInt16.le_iff_toNat_le, UInt16.lt_iff_toNat_lt]

theorem isLow_iff {u : UInt16} : isLow u = true ↔ 0xDC00 ≤ u.toNat ∧ u.toNat < 0xE000 := by
  simp [isLow, UInt16.le_iff_toNat_le, UInt16.lt_iff_toNat_lt]

theorem decodeUnits_cons_of_not_high {u : UInt16} (h : isHigh u = false) (us : List UInt16) :
    decodeUnits (u :: us) = lone u :: decodeUnits us := by
  cases us with
  | nil => rfl
  | cons v us => simp [decodeUnits, h]

theorem decodeUnits_encodeChar_append (c : Char) (us : List UInt16) :
    decodeUnits (encodeChar c ++ us) = c :: decodeUnits us := by
  have hvalid : c.toNat < 0xD800 ∨ 0xDFFF < c.toNat ∧ c.toNat < 0x110000 := c.valid
  rw [encodeChar]
  split
  · rename_i hlt
    have hunit : c.toNat.toUInt16.toNat = c.toNat := by
      simp only [Nat.toUInt16, UInt16.toNat_ofNat']
      omega
    have hhigh : isHigh c.toNat.toUInt16 = false := by
      rw [Bool.eq_false_iff, ne_eq, isHigh_iff, hunit]
      omega
    have hlow : isLow c.toNat.toUInt16 = false := by
      rw [Bool.eq_false_iff, ne_eq, isLow_iff, hunit]
      omega
    rw [List.singleton_append, decodeUnits_cons_of_not_high hhigh, lone, hhigh, hlow, single, hunit,
      Char.ofNat_toNat]
    rfl
  · rename_i hge
    have hhigh : (0xD800 + (c.toNat - 0x10000) / 0x400).toUInt16.toNat =
        0xD800 + (c.toNat - 0x10000) / 0x400 := by
      simp only [Nat.toUInt16, UInt16.toNat_ofNat']
      omega
    have hlow : (0xDC00 + (c.toNat - 0x10000) % 0x400).toUInt16.toNat =
        0xDC00 + (c.toNat - 0x10000) % 0x400 := by
      simp only [Nat.toUInt16, UInt16.toNat_ofNat']
      omega
    have hpair : (isHigh (0xD800 + (c.toNat - 0x10000) / 0x400).toUInt16 &&
        isLow (0xDC00 + (c.toNat - 0x10000) % 0x400).toUInt16) = true := by
      rw [Bool.and_eq_true, isHigh_iff, isLow_iff, hhigh, hlow]
      omega
    have hnumber : 0x10000 + (0xD800 + (c.toNat - 0x10000) / 0x400 - 0xD800) * 0x400 +
        (0xDC00 + (c.toNat - 0x10000) % 0x400 - 0xDC00) = c.toNat := by
      omega
    simp only [List.cons_append, List.nil_append]
    rw [decodeUnits, if_pos hpair, pair, hhigh, hlow, hnumber, Char.ofNat_toNat]

theorem decode_encode_string (s : String) : decode (encode s) = s := by
  have hchars (cs : List Char) : decodeUnits (cs.flatMap encodeChar) = cs := by
    induction cs with
    | nil => rfl
    | cons c cs ih => rw [List.flatMap_cons, decodeUnits_encodeChar_append, ih]
  rw [decode, encode, hchars, String.ofList_toList]

theorem zero_notMem_encode {s : String} (h : '\x00' ∉ s.toList) : 0 ∉ encode s := by
  intro hzero
  obtain ⟨c, hc, hzero⟩ := List.mem_flatMap.mp hzero
  have hne : c.toNat ≠ 0 := by
    intro heq
    obtain rfl : c = '\x00' := Char.toNat_inj.mp heq
    exact h hc
  have hunit : ∀ n, 0 < n → n < 65536 → (0 : UInt16) ≠ n.toUInt16 := by
    intro n hpos hlt heq
    have := congrArg UInt16.toNat heq
    simp at this
    omega
  have hvalid : c.toNat < 0xD800 ∨ 0xDFFF < c.toNat ∧ c.toNat < 0x110000 := c.valid
  rw [encodeChar] at hzero
  split at hzero
  · rw [List.mem_singleton] at hzero
    exact hunit _ (by omega) (by omega) hzero
  · simp only [List.mem_cons, List.not_mem_nil, or_false] at hzero
    rcases hzero with hzero | hzero
    · exact hunit _ (by omega) (by omega) hzero
    · exact hunit _ (by omega) (by omega) hzero

theorem ofBytes_encode_append (us : List UInt16) (bs : List UInt8) :
    ofBytes (us.flatMap (LittleEndian.encode 2 ·.toNat) ++ bs) = us ++ ofBytes bs := by
  induction us with
  | nil => rfl
  | cons u us ih =>
    have hu := u.toNat_lt
    have hunit : ((UInt8.ofNat u.toNat).toNat + 256 * (UInt8.ofNat (u.toNat / 256)).toNat).toUInt16
        = u := by
      apply UInt16.toNat_inj.mp
      simp only [Nat.toUInt16, UInt16.toNat_ofNat', UInt8.toNat_ofNat']
      omega
    rw [List.flatMap_cons, List.append_assoc, LittleEndian.encode, LittleEndian.encode,
      LittleEndian.encode, List.cons_append, List.cons_append, List.nil_append, ofBytes, hunit, ih,
      List.cons_append]

theorem toUInt16_pair_eq_zero_iff {a b : UInt8} :
    (a.toNat + 256 * b.toNat).toUInt16 = 0 ↔ a = 0 ∧ b = 0 := by
  have ha := a.toNat_lt
  have hb := b.toNat_lt
  simp only [← UInt16.toNat_inj, ← UInt8.toNat_inj, Nat.toUInt16, UInt16.toNat_ofNat',
    UInt16.toNat_zero, UInt8.toNat_zero]
  omega

theorem getElem?_ofBytes_eq_zero_iff {bs : List UInt8} {k : Nat} :
    (ofBytes bs)[k]? = some 0 ↔ bs[2 * k]? = some 0 ∧ bs[2 * k + 1]? = some 0 := by
  fun_induction ofBytes bs generalizing k with
  | case1 a b rest ih =>
    cases k with
    | zero =>
      simpa only [Nat.mul_zero, List.getElem?_cons_zero, List.getElem?_cons_succ,
        Option.some.injEq] using toUInt16_pair_eq_zero_iff
    | succ k => simpa [Nat.mul_succ] using ih
  | case2 bs h =>
    rcases bs with _ | ⟨a, _ | ⟨b, rest⟩⟩
    · simp
    · simp
    · exact absurd rfl (h a b rest)

end Utf16

-- ---------------------------------------------------------------------------
-- First indices
-- ---------------------------------------------------------------------------

section

variable {α : Type} [DecidableEq α] {a : α} {xs : List α} {k : Nat}

theorem idxOf?_eq_some_iff_getElem? :
    xs.idxOf? a = some k ↔ xs[k]? = some a ∧ ∀ j < k, xs[j]? ≠ some a := by
  simp only [List.idxOf?_eq_some_iff, List.getElem?_eq_some_iff, ne_eq, not_exists]
  constructor
  · rintro ⟨hk, hfirst, hbefore⟩
    exact ⟨⟨hk, hfirst⟩, fun j hj _ => hbefore j hj⟩
  · rintro ⟨⟨hk, hfirst⟩, hbefore⟩
    exact ⟨hk, hfirst, fun j hj => hbefore j hj (hj.trans hk)⟩

theorem idxOf?_eq_none_iff_getElem? : xs.idxOf? a = none ↔ ∀ k : Nat, xs[k]? ≠ some a := by
  simp only [List.idxOf?_eq_none_iff, List.mem_iff_getElem?, not_exists, ne_eq]

theorem idxOf?_append_cons (h : a ∉ xs) (ys : List α) :
    (xs ++ a :: ys).idxOf? a = some xs.length := by
  rw [idxOf?_eq_some_iff_getElem?]
  refine ⟨by simp, fun j hj heq => h ?_⟩
  rw [List.getElem?_append_left hj] at heq
  exact List.mem_of_getElem? heq

end

-- ---------------------------------------------------------------------------
-- Forms of strings
-- ---------------------------------------------------------------------------

/-- The forms in which guests keep strings. -/
inductive StringForm where
  | utf8
  | utf16

namespace StringForm

/-- Bytes of a unit. -/
def width : StringForm → Nat
  | utf8 => 1
  | utf16 => 2

theorem width_pos (form : StringForm) : 0 < form.width := by
  cases form <;> decide

/-- Number of units of a string. -/
def units : StringForm → String → Nat
  | utf8, s => s.toUTF8.size
  | utf16, s => (Utf16.encode s).length

/-- The units of a string as bytes, low byte first. -/
def spell : StringForm → String → List UInt8
  | utf8, s => s.toUTF8.data.toList
  | utf16, s => (Utf16.encode s).flatMap (LittleEndian.encode 2 ·.toNat)

/-- The zero unit behind a string. -/
def terminator (form : StringForm) : List UInt8 := List.replicate form.width 0

/-- The string that bytes spell, with replacements where they spell none. -/
def text : StringForm → List UInt8 → String
  | utf8, bs => Utf8.decode bs
  | utf16, bs => Utf16.decode (Utf16.ofBytes bs)

def lengthAt : StringForm → Store → UInt32 → Except Trap Nat
  | utf8 => Store.stringLength
  | utf16 => Store.stringLength16

def readAt : StringForm → Store → UInt32 → Except Trap (Option String)
  | utf8 => Store.readString
  | utf16 => Store.readString16

/-- Of the units that follow each other from a position on, the one with this
    index is zero. -/
def ZeroAt (form : StringForm) (bs : List UInt8) (start k : Nat) : Prop :=
  ∀ i < form.width, bs[start + form.width * k + i]? = some 0

/-- Index of the first unit that is zero. -/
def firstZero? : StringForm → List UInt8 → Option Nat
  | utf8, bs => bs.idxOf? 0
  | utf16, bs => (Utf16.ofBytes bs).idxOf? 0

variable {form : StringForm} {bs : List UInt8} {k : Nat}

theorem zeroAt_drop (start : Nat) :
    form.ZeroAt (bs.drop start) 0 k ↔ form.ZeroAt bs start k := by
  simp only [ZeroAt, List.getElem?_drop, Nat.zero_add, Nat.add_assoc]

theorem zeroAt_utf8 : utf8.ZeroAt bs 0 k ↔ bs[k]? = some 0 := by
  simp [ZeroAt, width]

theorem zeroAt_utf16 : utf16.ZeroAt bs 0 k ↔ (Utf16.ofBytes bs)[k]? = some 0 := by
  simp only [ZeroAt, width, Nat.zero_add, Utf16.getElem?_ofBytes_eq_zero_iff]
  constructor
  · exact fun h => ⟨h 0 (by decide), h 1 (by decide)⟩
  · rintro ⟨hfirst, hsecond⟩ i hi
    obtain rfl | rfl : i = 0 ∨ i = 1 := by omega
    · exact hfirst
    · exact hsecond

theorem firstZero?_eq_some_iff :
    form.firstZero? bs = some k ↔ form.ZeroAt bs 0 k ∧ ∀ j < k, ¬ form.ZeroAt bs 0 j := by
  cases form with
  | utf8 => simp only [firstZero?, zeroAt_utf8, idxOf?_eq_some_iff_getElem?, ne_eq]
  | utf16 => simp only [firstZero?, zeroAt_utf16, idxOf?_eq_some_iff_getElem?, ne_eq]

theorem firstZero?_eq_none_iff : form.firstZero? bs = none ↔ ∀ k, ¬ form.ZeroAt bs 0 k := by
  cases form with
  | utf8 => simp only [firstZero?, zeroAt_utf8, idxOf?_eq_none_iff_getElem?, ne_eq]
  | utf16 => simp only [firstZero?, zeroAt_utf16, idxOf?_eq_none_iff_getElem?, ne_eq]

theorem length_spell (form : StringForm) (s : String) :
    (form.spell s).length = form.width * form.units s := by
  cases form with
  | utf8 => exact (Nat.one_mul _).symm
  | utf16 => simp [spell, width, units, Nat.mul_comm]

theorem firstZero?_spell {s : String} (h : '\x00' ∉ s.toList) (back : List UInt8) :
    form.firstZero? (form.spell s ++ (form.terminator ++ back)) = some (form.units s) := by
  cases form with
  | utf8 => exact idxOf?_append_cons (Utf8.zero_notMem_toUTF8 h) back
  | utf16 =>
    rw [firstZero?, spell, Utf16.ofBytes_encode_append]
    exact idxOf?_append_cons (Utf16.zero_notMem_encode h) (Utf16.ofBytes back)

theorem text_spell (form : StringForm) (s : String) : form.text (form.spell s) = s := by
  cases form with
  | utf8 => exact Utf8.decode_toUTF8 s
  | utf16 =>
    have hunits := Utf16.ofBytes_encode_append (Utf16.encode s) []
    rw [List.append_nil] at hunits
    rw [text, spell, hunits, Utf16.ofBytes, List.append_nil, Utf16.decode_encode_string]
    exact nofun

end StringForm

-- ---------------------------------------------------------------------------
-- Strings of a store
-- ---------------------------------------------------------------------------

namespace Store

variable {s : Store} {memory : Memory} {form : StringForm} {address : UInt32}

theorem memory?_set (hmemory : s.memory? = some memory) (after : Memory) :
    { s with memories := s.memories.setIfInBounds 0 after }.memory? = some after :=
  Array.getElem?_setIfInBounds_self_of_lt (Array.getElem?_eq_some_iff.mp hmemory).1

theorem tail_of_memory (hmemory : s.memory? = some memory) (address : Nat) :
    s.tail address = if address ≤ memory.size then .ok (memory.bytes.drop address)
      else .error .memoryOutOfBounds := by
  rw [tail, hmemory]
  dsimp only
  split
  · rename_i hle
    have hall : (memory.bytes.drop address).length ≤ memory.size - address := by
      rw [List.length_drop, Memory.length_bytes]
    rw [Memory.read, Memory.fits, if_pos (by simp only [decide_eq_true_eq]; omega),
      Memory.slice_eq, List.take_of_length_le hall]
  · exact Memory.read_eq_error (by omega)

theorem lengthAt_eq (form : StringForm) (s : Store) (address : UInt32) :
    form.lengthAt s address = s.tail address.toNat >>= fun bs =>
      (form.firstZero? bs).elim (.error .memoryOutOfBounds) .ok := by
  cases form with
  | utf8 =>
    rw [StringForm.lengthAt, stringLength]
    congr 1
    funext bs
    rw [StringForm.firstZero?, List.idxOf?]
    cases bs.findIdx? (· == 0) <;> rfl
  | utf16 =>
    rw [StringForm.lengthAt, stringLength16]
    congr 1
    funext bs
    rw [StringForm.firstZero?, List.idxOf?]
    cases (Utf16.ofBytes bs).findIdx? (· == 0) <;> rfl

theorem lengthAt_of_memory (hmemory : s.memory? = some memory) :
    form.lengthAt s address = (form.firstZero? (memory.bytes.drop address.toNat)).elim
      (.error .memoryOutOfBounds) .ok := by
  rw [lengthAt_eq, tail_of_memory hmemory]
  split
  · rfl
  · rename_i hlt
    have hnone : form.firstZero? (memory.bytes.drop address.toNat) = none := by
      rw [List.drop_eq_nil_of_le (by rw [Memory.length_bytes]; omega)]
      cases form <;> rfl
    rw [hnone]
    rfl

theorem lengthAt_eq_ok_iff (hmemory : s.memory? = some memory) {k : Nat} :
    form.lengthAt s address = .ok k ↔ form.ZeroAt memory.bytes address.toNat k ∧
      ∀ j < k, ¬ form.ZeroAt memory.bytes address.toNat j := by
  simp only [← StringForm.zeroAt_drop address.toNat, ← StringForm.firstZero?_eq_some_iff,
    lengthAt_of_memory hmemory]
  cases form.firstZero? (memory.bytes.drop address.toNat) <;> simp

theorem lengthAt_eq_error_iff (hmemory : s.memory? = some memory) {t : Trap} :
    form.lengthAt s address = .error t ↔
      t = .memoryOutOfBounds ∧ ∀ k, ¬ form.ZeroAt memory.bytes address.toNat k := by
  simp only [← StringForm.zeroAt_drop address.toNat, ← StringForm.firstZero?_eq_none_iff,
    lengthAt_of_memory hmemory]
  cases form.firstZero? (memory.bytes.drop address.toNat) <;> simp [eq_comm]

theorem readAt_eq (form : StringForm) (s : Store) (haddress : address ≠ 0) :
    form.readAt s address = form.lengthAt s address >>= fun k =>
      (s.read address.toNat (form.width * k)).map (some ∘ form.text) := by
  cases form with
  | utf8 =>
    rw [StringForm.readAt, readString, if_neg haddress]
    congr 1
    funext k
    rw [StringForm.width, Nat.one_mul]
    cases s.read address.toNat k <;> rfl
  | utf16 =>
    rw [StringForm.readAt, readString16, if_neg haddress]
    congr 1
    funext k
    rw [StringForm.width, Nat.mul_comm]
    cases s.read address.toNat (2 * k) <;> rfl

/-- What is before the zero can be read. -/
theorem readAt_of_lengthAt (hmemory : s.memory? = some memory) (haddress : address ≠ 0) {k : Nat}
    (h : form.lengthAt s address = .ok k) :
    ∃ bs, bs.length = form.width * k ∧ memory.Holds address.toNat bs ∧
      form.readAt s address = .ok (some (form.text bs)) := by
  have hzero := ((lengthAt_eq_ok_iff hmemory).mp h).1 0 form.width_pos
  obtain ⟨hlt, -⟩ := List.getElem?_eq_some_iff.mp hzero
  rw [Memory.length_bytes] at hlt
  have hle : address.toNat + form.width * k ≤ memory.size := Nat.le_of_lt hlt
  obtain ⟨bs, hread⟩ := Memory.read_of_le hle
  obtain ⟨hholds, hlength⟩ := Memory.read_eq_ok_iff.mp hread
  refine ⟨bs, hlength, hholds, ?_⟩
  rw [readAt_eq form s haddress, h]
  exact congrArg (Except.map (some ∘ form.text)) ((read_of_memory hmemory).trans hread)

theorem readAt_eq_error_iff (hmemory : s.memory? = some memory) (haddress : address ≠ 0)
    {t : Trap} : form.readAt s address = .error t ↔ form.lengthAt s address = .error t := by
  cases h : form.lengthAt s address with
  | error t' =>
    have hread : form.readAt s address = .error t' := by
      rw [readAt_eq form s haddress, h]
      rfl
    rw [hread, Except.error.injEq, Except.error.injEq]
  | ok k =>
    obtain ⟨bs, -, -, hread⟩ := readAt_of_lengthAt hmemory haddress h
    rw [hread]
    simp

/-- A string that stands in memory with a zero behind it is read there. -/
theorem string_of_holds (hmemory : s.memory? = some memory) (haddress : address ≠ 0)
    {str : String} (hstr : '\x00' ∉ str.toList)
    (hholds : memory.Holds address.toNat (form.spell str ++ form.terminator)) :
    form.lengthAt s address = .ok (form.units str) ∧
      form.readAt s address = .ok (some str) := by
  obtain ⟨front, back, hbytes, hfront⟩ := hholds
  rw [List.append_assoc] at hbytes
  have hlength : form.lengthAt s address = .ok (form.units str) := by
    rw [lengthAt_of_memory hmemory, hbytes, ← hfront, List.drop_left,
      StringForm.firstZero?_spell hstr]
    rfl
  obtain ⟨bs, hbs, hread, htext⟩ := readAt_of_lengthAt hmemory haddress hlength
  have hspell : memory.Holds address.toNat (form.spell str) := ⟨front, _, hbytes, hfront⟩
  obtain rfl := hread.unique hspell (hbs.trans (form.length_spell str).symm)
  rw [StringForm.text_spell] at htext
  exact ⟨hlength, htext⟩

end Store

namespace Run

/-- In every machine with a memory, whatever it holds, a string has the length
    that the first zero unit from its address on gives it, and is out of bounds
    if there is none. It can be read whenever it has a length, and address zero
    always. A string without a zero that was written with one behind it is the
    string that is read, wherever its units stand. -/
theorem strings_exact {n : Machine σ} {memory : Memory} (hmemory : n.store.memory? = some memory)
    (form : StringForm) (address : UInt32) :
    (∀ str n', '\x00' ∉ str.toList → address ≠ 0 →
      writeMemory address.toNat (form.spell str ++ form.terminator) n = .ok () n' →
        form.lengthAt n'.store address = .ok (form.units str) ∧
          form.readAt n'.store address = .ok (some str)) ∧
    (∀ k, form.lengthAt n.store address = .ok k ↔
      form.ZeroAt memory.bytes address.toNat k ∧
        ∀ j < k, ¬ form.ZeroAt memory.bytes address.toNat j) ∧
    (∀ t, form.lengthAt n.store address = .error t ↔
      t = .memoryOutOfBounds ∧ ∀ k, ¬ form.ZeroAt memory.bytes address.toNat k) ∧
    (address ≠ 0 →
      (∀ t, form.readAt n.store address = .error t ↔ form.lengthAt n.store address = .error t) ∧
      ∀ k, form.lengthAt n.store address = .ok k →
        ∃ bs, bs.length = form.width * k ∧ memory.Holds address.toNat bs ∧
          form.readAt n.store address = .ok (some (form.text bs))) ∧
    form.readAt n.store 0 = .ok none := by
  refine ⟨?_, fun _ => Store.lengthAt_eq_ok_iff hmemory,
    fun _ => Store.lengthAt_eq_error_iff hmemory, ?_, ?_⟩
  · intro str n' hstr haddress hwrite
    have hafter := writeMemory_of_memory hmemory address.toNat (form.spell str ++ form.terminator)
    split at hafter
    · obtain ⟨after, hrewritten, hwritten⟩ := hafter
      rw [hwritten] at hwrite
      cases hwrite
      exact Store.string_of_holds (Store.memory?_set hmemory after) haddress hstr hrewritten.holds
    · rw [hafter] at hwrite
      cases hwrite
  · intro haddress
    exact ⟨fun t => Store.readAt_eq_error_iff hmemory haddress,
      fun k hk => Store.readAt_of_lengthAt hmemory haddress hk⟩
  · cases form <;> rfl

end Run

/-- A character that has two units, and a zero behind it. -/
def smile : List UInt8 := [0x3D, 0xD8, 0x00, 0xDE, 0x00, 0x00]

/-- At an odd address, up to the last byte but one of the page. -/
theorem smile_strings_exact :
    let memory : Memory := .ofPages 1 none
    let n : Machine Unit :=
      { cache := .empty poke, host := (), store := { memories := #[memory] } }
    n.store.memory? = some memory ∧ ∃ n', Run.writeMemory 65529 smile n = .ok () n' ∧
      n'.store.stringLength16 65529 = .ok 2 ∧ n'.store.readString16 65529 = .ok (some "😀") := by
  intro memory n
  have hmemory : n.store.memory? = some memory := rfl
  have hle : 65529 + smile.length ≤ memory.size := by
    rw [show memory.size = 65536 from size_zeros _]
    decide
  have hwrite := Run.writeMemory_of_memory hmemory 65529 smile
  rw [if_pos hle] at hwrite
  obtain ⟨after, -, hwrite⟩ := hwrite
  have hsmile : smile = StringForm.utf16.spell "😀" ++ StringForm.utf16.terminator := by
    decide +kernel
  obtain ⟨hlength, hread⟩ := (Run.strings_exact hmemory .utf16 65529).1 "😀" _ (by decide +kernel)
    (by decide) (hsmile ▸ hwrite)
  exact ⟨hmemory, _, hwrite, hlength, hread⟩

end Wasm
