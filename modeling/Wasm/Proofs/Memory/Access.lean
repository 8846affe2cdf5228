import Mathlib.Algebra.Divisibility.Basic
import Mathlib.Algebra.Order.Ring.Int
import Mathlib.Data.Nat.Cast.Basic
import Wasm.Proofs.Encoding.Reading
import Wasm.Proofs.Memory.Limits

/-!
# Accesses

A load or store of the guest names its bytes by a base and an offset, a read or
write of the host by a number; all of them reach the bytes of one list and obey
one bound. A value goes into that list as its low bytes, and comes out of it as
the one value of its type that has these low bytes and whose other bits are
what the kind of the load makes them.
-/

namespace Wasm

variable {σ : Type}

-- ---------------------------------------------------------------------------
-- Splices
-- ---------------------------------------------------------------------------

section

variable {α : Type} {xs : List α} {start : Nat} {items : List α}

/-- The list with items from a position on replaced by these. -/
def splice (xs : List α) (start : Nat) (items : List α) : List α :=
  xs.take start ++ (items ++ xs.drop (start + items.length))

theorem splice_nil (xs : List α) (start : Nat) : splice xs start [] = xs := by
  simp [splice]

/-- Items are replaced one after the other. -/
theorem splice_set {x : α} (h : start < xs.length) :
    splice (xs.set start x) (start + 1) items = splice xs start (x :: items) := by
  have hfront : (xs.take start ++ [x]).length = start + 1 := by
    simp [Nat.min_eq_left (Nat.le_of_lt h)]
  have hset : xs.set start x = (xs.take start ++ [x]) ++ xs.drop (start + 1) := by
    rw [List.set_eq_take_append_cons_drop, if_pos h, List.append_cons]
  rw [splice, splice, hset, List.take_left' hfront, ← List.drop_drop, List.drop_left' hfront,
    List.drop_drop, List.append_assoc, List.length_cons, Nat.add_right_comm, Nat.add_assoc]
  rfl

theorem length_splice (h : start + items.length ≤ xs.length) :
    (splice xs start items).length = xs.length := by
  simp only [splice, List.length_append, List.length_take, List.length_drop]
  omega

end

namespace Memory

/-- The bytes of the memory. -/
def bytes (m : Memory) : List UInt8 := m.data.data.toList

theorem length_bytes (m : Memory) : m.bytes.length = m.size := Array.length_toList

theorem toList_overwrite {data : ByteArray} {address : Nat} {bs : List UInt8}
    (h : address + bs.length ≤ data.size) :
    (overwrite data address bs).data.toList = splice data.data.toList address bs := by
  induction bs generalizing data address with
  | nil => rw [overwrite, splice_nil]
  | cons b bs ih =>
    rw [List.length_cons] at h
    have hlt : address < data.size := by omega
    have hset : (data.set address b hlt).data.toList = data.data.toList.set address b := rfl
    have hsize : (data.set address b hlt).size = data.size := Array.size_set _
    rw [overwrite, dif_pos hlt, ih (by omega), hset]
    exact splice_set hlt

theorem toList_loop (data : ByteArray) (i : Nat) (r : List UInt8) :
    ByteArray.toList.loop data i r = r.reverse ++ data.data.toList.drop i := by
  induction hn : data.size - i generalizing i r with
  | zero =>
    rw [ByteArray.toList.loop, if_neg (by omega), List.drop_eq_nil_of_le, List.append_nil]
    exact Nat.le_of_sub_eq_zero hn
  | succ n ih =>
    have hlt : i < data.data.toList.length := by
      rw [Array.length_toList]
      exact Nat.lt_of_sub_eq_succ hn
    rw [ByteArray.toList.loop, if_pos (Nat.lt_of_sub_eq_succ hn), ih _ _ (by omega)]
    have hget : data.get! i = data.data.toList[i] := by
      rw [ByteArray.get!, getElem!_pos data.data i (Nat.lt_of_sub_eq_succ hn), Array.getElem_toList]
    rw [List.drop_eq_getElem_cons hlt, List.reverse_cons, List.append_assoc, hget]
    rfl

theorem slice_eq (m : Memory) (address n : Nat) :
    m.slice address n = (m.bytes.drop address).take n := by
  rw [slice, ByteArray.toList, toList_loop, List.drop_zero, ByteArray.data_extract,
    Array.toList_extract, bytes]
  simp

/-- The bytes stand in the memory from the address on. -/
def Holds (m : Memory) (address : Nat) (bs : List UInt8) : Prop :=
  ∃ front back, m.bytes = front ++ (bs ++ back) ∧ front.length = address

/-- The second memory is the first with these bytes from the address on, where
    the first had as many others. -/
structure Rewritten (before : Memory) (address : Nat) (bs : List UInt8) (after : Memory) :
    Prop where
  bytes : ∃ front old back, before.bytes = front ++ (old ++ back) ∧
    after.bytes = front ++ (bs ++ back) ∧ front.length = address ∧ old.length = bs.length
  max : after.max = before.max

variable {m after : Memory} {address n : Nat} {bs : List UInt8}

theorem read_eq_ok_iff : m.read address n = .ok bs ↔ m.Holds address bs ∧ bs.length = n := by
  rw [read, fits, slice_eq]
  constructor
  · intro h
    split at h
    · rename_i hfits
      rw [decide_eq_true_eq, ← length_bytes] at hfits
      cases h
      refine ⟨⟨m.bytes.take address, m.bytes.drop (address + n), ?_, ?_⟩, ?_⟩
      · rw [← List.drop_drop, List.take_append_drop, List.take_append_drop]
      · rw [List.length_take]
        omega
      · rw [List.length_take, List.length_drop]
        omega
    · cases h
  · rintro ⟨⟨front, back, hbytes, rfl⟩, rfl⟩
    have hfits : front.length + bs.length ≤ m.size := by
      rw [← length_bytes, hbytes, List.length_append, List.length_append]
      omega
    rw [if_pos (decide_eq_true hfits), hbytes, List.drop_left, List.take_left]

theorem read_eq_error (h : m.size < address + n) :
    m.read address n = .error .memoryOutOfBounds := by
  rw [read, fits, if_neg (by simp only [decide_eq_true_eq]; omega)]

theorem read_of_le (h : address + n ≤ m.size) : ∃ bs, m.read address n = .ok bs :=
  ⟨m.slice address n, if_pos (decide_eq_true h)⟩

theorem rewritten_put (h : address + bs.length ≤ m.size) :
    m.Rewritten address bs (m.put address bs) := by
  refine ⟨⟨m.bytes.take address, (m.bytes.drop address).take bs.length,
    m.bytes.drop (address + bs.length), ?_, toList_overwrite h, ?_, ?_⟩, rfl⟩
  · rw [← List.drop_drop, List.take_append_drop, List.take_append_drop]
  · rw [List.length_take, length_bytes]
    omega
  · rw [List.length_take, List.length_drop, length_bytes]
    omega

namespace Rewritten

theorem holds (h : m.Rewritten address bs after) : after.Holds address bs := by
  obtain ⟨front, _, back, _, hafter, hfront, _⟩ := h.bytes
  exact ⟨front, back, hafter, hfront⟩

theorem size_eq (h : m.Rewritten address bs after) : after.size = m.size := by
  obtain ⟨front, old, back, hbefore, hafter, _, hlength⟩ := h.bytes
  rw [← length_bytes, ← length_bytes, hbefore, hafter]
  simp [hlength]

/-- Bytes that do not overlap those rewritten are read as before. -/
theorem read_disjoint (h : m.Rewritten address bs after) {other : Nat}
    (hdisjoint : other + n ≤ address ∨ address + bs.length ≤ other) :
    after.read other n = m.read other n := by
  obtain ⟨front, old, back, hbefore, hafter, rfl, hlength⟩ := h.bytes
  rw [read, read, fits, fits, h.size_eq, slice_eq, slice_eq, hbefore, hafter]
  congr 2
  rcases hdisjoint with hle | hle
  · rw [List.drop_append_of_le_length (by omega), List.drop_append_of_le_length (by omega),
      List.take_append_of_le_length, List.take_append_of_le_length]
    all_goals rw [List.length_drop]; omega
  · have hdrop (mid : List UInt8) (hmid : mid.length = bs.length) :
        (front ++ (mid ++ back)).drop other = back.drop (other - (front.length + bs.length)) := by
      rw [← List.append_assoc, List.drop_append, List.drop_eq_nil_of_le, List.nil_append,
        List.length_append, hmid]
      rw [List.length_append]
      omega
    rw [hdrop bs rfl, hdrop old hlength]

end Rewritten

end Memory

-- ---------------------------------------------------------------------------
-- Values as bytes
-- ---------------------------------------------------------------------------

namespace LittleEndian

theorem bound_eq (n : Nat) : bound n = 256 ^ n := by
  induction n with
  | zero => rfl
  | succ n ih => rw [bound, ih, Nat.pow_succ, Nat.mul_comm]

theorem decode_encode_mod (n x : Nat) : decode (encode n x) = x % 256 ^ n := by
  induction n generalizing x with
  | zero => rw [Nat.pow_zero, Nat.mod_one]; rfl
  | succ n ih => rw [encode, decode, ih, UInt8.toNat_ofNat', Nat.pow_succ' (n := n), Nat.mod_mul]

theorem getElem?_encode {n x i : Nat} {b : UInt8} (h : (encode n x)[i]? = some b) :
    b.toNat = x / 256 ^ i % 256 := by
  induction n generalizing x i with
  | zero => cases h
  | succ n ih =>
    cases i with
    | zero =>
      cases h
      rw [UInt8.toNat_ofNat', Nat.pow_zero, Nat.div_one]
    | succ i => rw [ih h, Nat.div_div_eq_div_mul, Nat.pow_succ, Nat.mul_comm 256]

end LittleEndian

namespace Value

/-- The word of the value, as a number without sign. -/
def bits : Value → Nat
  | i32 x | i64 x | f32 x | f64 x => x.toNat

/-- The word of the value, as a number in two's complement. -/
def signed : Value → Int
  | i32 x | i64 x | f32 x | f64 x => x.toInt

/-- The bytes are the low ones of the value, the least significant first. -/
def LowBytes (v : Value) (bs : List UInt8) : Prop :=
  ∀ i b, bs[i]? = some b → b.toNat = v.bits / 256 ^ i % 256

theorem lowBytes_encode (v : Value) (n : Nat) : v.LowBytes (LittleEndian.encode n v.bits) :=
  fun _ _ h => LittleEndian.getElem?_encode h

/-- The low bytes of a value are the number that its word leaves when it is
    divided. -/
theorem lowBytes_iff {v : Value} {bs : List UInt8} :
    v.LowBytes bs ↔ v.bits % 256 ^ bs.length = LittleEndian.decode bs := by
  constructor
  · intro h
    have hbs : bs = LittleEndian.encode bs.length v.bits := by
      refine List.ext_getElem (LittleEndian.length_encode _ _).symm fun i hi hi' => ?_
      apply UInt8.toNat_inj.mp
      rw [h i _ (List.getElem?_eq_getElem hi),
        ← LittleEndian.getElem?_encode (List.getElem?_eq_getElem hi')]
    rw [← LittleEndian.decode_encode_mod, ← hbs]
  · intro h i b hb
    obtain ⟨hi, -⟩ := List.getElem?_eq_some_iff.mp hb
    obtain ⟨k, hk⟩ := Nat.exists_eq_add_of_lt hi
    rw [← LittleEndian.encode_decode bs] at hb
    rw [LittleEndian.getElem?_encode hb, ← h, hk, Nat.add_assoc, Nat.pow_add,
      Nat.mod_mul_right_div_self, Nat.mod_mod_of_dvd _ (dvd_pow_self 256 (Nat.succ_ne_zero k))]

theorem eq_of_bits {v v' : Value} (htype : v.type = v'.type) (h : v.bits = v'.bits) : v = v' := by
  cases v <;> cases v' <;> first
    | exact congrArg _ (BitVec.eq_of_toNat_eq h)
    | cases htype

theorem eq_of_signed {v v' : Value} (htype : v.type = v'.type) (h : v.signed = v'.signed) :
    v = v' := by
  cases v <;> cases v' <;> first
    | exact congrArg _ (BitVec.eq_of_toInt_eq h)
    | cases htype

theorem toInt_eq_bmod {w n : Nat} {x : BitVec w} (hdvd : n ∣ 2 ^ w) (hlo : -(n : Int) ≤ 2 * x.toInt)
    (hhi : 2 * x.toInt < n) : x.toInt = Int.bmod (x.toNat % n : Nat) n := by
  rw [Int.natCast_emod, Int.emod_bmod, ← Int.bmod_bmod_of_dvd hdvd, ← BitVec.toInt_eq_toNat_bmod]
  exact (Int.bmod_eq_of_le_mul_two (by omega) (by omega)).symm

/-- A word that is a small number in two's complement is told by what it leaves
    when it is divided. -/
theorem signed_eq_bmod {v : Value} {n : Nat} (hdvd : n ∣ 2 ^ 32) (hlo : -(n : Int) ≤ 2 * v.signed)
    (hhi : 2 * v.signed < n) : v.signed = Int.bmod (v.bits % n : Nat) n := by
  cases v with
  | i32 x | f32 x => exact toInt_eq_bmod hdvd hlo hhi
  | i64 x | f64 x => exact toInt_eq_bmod (hdvd.trans (by decide)) hlo hhi

end Value

namespace LoadKind

def type : LoadKind → ValueType
  | i32 | i32S8 | i32U8 | i32S16 | i32U16 => .i32
  | i64 | i64S8 | i64U8 | i64S16 | i64U16 | i64S32 | i64U32 => .i64
  | f32 => .f32
  | f64 => .f64

def width : LoadKind → Nat
  | i32S8 | i32U8 | i64S8 | i64U8 => 1
  | i32S16 | i32U16 | i64S16 | i64U16 => 2
  | i32 | f32 | i64S32 | i64U32 => 4
  | i64 | f64 => 8

/-- Whether the bytes are a number in two's complement, which fills the word up
    with its sign. -/
def sign : LoadKind → Sign
  | i32S8 | i32S16 | i64S8 | i64S16 | i64S32 => .signed
  | i32 | i64 | f32 | f64 | i32U8 | i32U16 | i64U8 | i64U16 | i64U32 => .unsigned

theorem bytes_eq_width (kind : LoadKind) : kind.bytes = kind.width := by
  cases kind <;> rfl

/-- The value that a load makes of bytes: it has them as its low bytes, and is no
    other number than they are. -/
structure Gives (kind : LoadKind) (bs : List UInt8) (v : Value) : Prop where
  type : v.type = kind.type
  low : v.LowBytes bs
  range : match kind.sign with
    | .unsigned => v.bits < 256 ^ bs.length
    | .signed => -256 ^ bs.length ≤ 2 * v.signed ∧ 2 * v.signed < 256 ^ bs.length

theorem toNat_signExtend_mod {w v : Nat} (x : BitVec w) (h : w ≤ v) :
    (x.signExtend v).toNat % 2 ^ w = x.toNat := by
  have hle : 2 ^ w ∣ 2 ^ v - 2 ^ w := Nat.dvd_sub (Nat.pow_dvd_pow 2 h) (Nat.dvd_refl _)
  obtain ⟨k, hk⟩ := hle
  rw [BitVec.toNat_signExtend, BitVec.toNat_setWidth_of_le h]
  split
  · rw [hk, Nat.add_mul_mod_self_left, Nat.mod_eq_of_lt x.isLt]
  · rw [Nat.add_zero, Nat.mod_eq_of_lt x.isLt]

theorem gives_unsigned {kind : LoadKind} {bs : List UInt8} {v : Value}
    (htype : v.type = kind.type) (hsign : kind.sign = .unsigned)
    (hbits : v.bits = LittleEndian.decode bs) : kind.Gives bs v := by
  have hlt := LittleEndian.decode_lt bs
  rw [LittleEndian.bound_eq, ← hbits] at hlt
  refine ⟨htype, Value.lowBytes_iff.mpr ?_, ?_⟩
  · rw [Nat.mod_eq_of_lt hlt, hbits]
  · rw [hsign]
    exact hlt

theorem gives_signed {kind : LoadKind} {bs : List UInt8} {v : Value} {w width : Nat}
    {x : BitVec w} (htype : v.type = kind.type) (hsign : kind.sign = .signed)
    (hx : x = BitVec.ofNat w (LittleEndian.decode bs)) (hw : 2 ^ w = 256 ^ bs.length)
    (hle : w ≤ width) (hbits : v.bits = (x.signExtend width).toNat)
    (hsigned : v.signed = (x.signExtend width).toInt) : kind.Gives bs v := by
  have hlt := LittleEndian.decode_lt bs
  rw [LittleEndian.bound_eq, ← hw] at hlt
  refine ⟨htype, Value.lowBytes_iff.mpr ?_, ?_⟩
  · rw [hbits, ← hw, toNat_signExtend_mod x hle, hx, BitVec.toNat_ofNat, Nat.mod_eq_of_lt hlt]
  · rw [hsign, hsigned, BitVec.toInt_signExtend_of_le hle]
    have hlo := x.le_two_mul_toInt
    have hhi := x.two_mul_toInt_lt
    have hw : (2 : Int) ^ w = 256 ^ bs.length := by exact_mod_cast hw
    rw [hw] at hlo hhi
    exact ⟨hlo, hhi⟩

/-- A load makes of its bytes what its kind says. -/
theorem gives_value {kind : LoadKind} {bs : List UInt8} (h : bs.length = kind.width) :
    kind.Gives bs (kind.value (LittleEndian.decode bs)) := by
  have hlt := LittleEndian.decode_lt bs
  rw [LittleEndian.bound_eq, h] at hlt
  cases kind with
  | i32 | i64 | f32 | f64 => exact gives_unsigned rfl rfl (Nat.mod_eq_of_lt hlt)
  | i32U8 | i32U16 | i64U8 | i64U16 | i64U32 =>
    refine gives_unsigned rfl rfl ?_
    rw [value, Value.bits, BitVec.toNat_setWidth_of_le (by decide), BitVec.toNat_ofNat]
    exact Nat.mod_eq_of_lt hlt
  | i32S8 | i32S16 | i64S8 | i64S16 | i64S32 =>
    refine gives_signed rfl rfl rfl ?_ (by decide) rfl rfl
    rw [h]
    rfl

/-- No two values are made of the same bytes. -/
theorem Gives.unique {kind : LoadKind} {bs : List UInt8} {v v' : Value} (hv : kind.Gives bs v)
    (hv' : kind.Gives bs v') (h : bs.length = kind.width) : v = v' := by
  have htype : v.type = v'.type := hv.type.trans hv'.type.symm
  have hlow : v.bits % 256 ^ bs.length = v'.bits % 256 ^ bs.length :=
    (Value.lowBytes_iff.mp hv.low).trans (Value.lowBytes_iff.mp hv'.low).symm
  have hrange := hv.range
  have hrange' := hv'.range
  cases hsign : kind.sign with
  | unsigned =>
    rw [hsign] at hrange hrange'
    rw [Nat.mod_eq_of_lt hrange, Nat.mod_eq_of_lt hrange'] at hlow
    exact Value.eq_of_bits htype hlow
  | signed =>
    have hdvd : 256 ^ bs.length ∣ 2 ^ 32 := by
      rw [h]
      cases kind <;> first
        | decide
        | cases hsign
    rw [hsign] at hrange hrange'
    apply Value.eq_of_signed htype
    rw [Value.signed_eq_bmod hdvd (by exact_mod_cast hrange.1) (by exact_mod_cast hrange.2), hlow,
      ← Value.signed_eq_bmod hdvd (by exact_mod_cast hrange'.1) (by exact_mod_cast hrange'.2)]

end LoadKind

namespace StoreKind

def type : StoreKind → ValueType
  | i32 | i32N8 | i32N16 => .i32
  | i64 | i64N8 | i64N16 | i64N32 => .i64
  | f32 => .f32
  | f64 => .f64

def width : StoreKind → Nat
  | i32N8 | i64N8 => 1
  | i32N16 | i64N16 => 2
  | i32 | f32 | i64N32 => 4
  | i64 | f64 => 8

theorem bytes_eq_width (kind : StoreKind) : kind.bytes = kind.width := by
  cases kind <;> rfl

theorem raw_of_type {kind : StoreKind} {v : Value} (h : v.type = kind.type) :
    kind.raw v = .ok v.bits := by
  cases kind <;> cases v <;> first
    | rfl
    | cases h

theorem raw_of_ne {kind : StoreKind} {v : Value} (h : v.type ≠ kind.type) :
    kind.raw v = .error (.typeMismatch kind.type v.type) := by
  cases kind <;> cases v <;> first
    | rfl
    | exact absurd rfl h

end StoreKind

-- ---------------------------------------------------------------------------
-- Loads and stores of a memory
-- ---------------------------------------------------------------------------

namespace Memory

variable {m after : Memory} {kind : LoadKind} {address : Nat} {bs : List UInt8} {v : Value}

/-- The value is what a load of the kind makes of the bytes at the address. -/
def Loads (m : Memory) (kind : LoadKind) (address : Nat) (v : Value) : Prop :=
  ∃ bs, bs.length = kind.width ∧ m.Holds address bs ∧ kind.Gives bs v

theorem Holds.unique {bs' : List UInt8} (h : m.Holds address bs) (h' : m.Holds address bs')
    (hlength : bs.length = bs'.length) : bs = bs' := by
  have hread := read_eq_ok_iff.mpr ⟨h, hlength⟩
  rw [read_eq_ok_iff.mpr ⟨h', rfl⟩] at hread
  exact (Except.ok.inj hread).symm

theorem Loads.unique {v' : Value} (h : m.Loads kind address v) (h' : m.Loads kind address v') :
    v = v' := by
  obtain ⟨bs, hlength, hholds, hgives⟩ := h
  obtain ⟨bs', hlength', hholds', hgives'⟩ := h'
  obtain rfl := hholds.unique hholds' (hlength.trans hlength'.symm)
  exact hgives.unique hgives' hlength

/-- A load within the memory comes to the value that its bytes are. -/
theorem load_of_le (h : address + kind.width ≤ m.size) :
    ∃ v, m.load kind address = .ok v ∧ m.Loads kind address v := by
  obtain ⟨bs, hread⟩ := read_of_le h
  obtain ⟨hholds, hlength⟩ := read_eq_ok_iff.mp hread
  refine ⟨kind.value (LittleEndian.decode bs), ?_, bs, hlength, hholds,
    LoadKind.gives_value hlength⟩
  rw [load, kind.bytes_eq_width, hread]
  rfl

theorem load_of_lt (h : m.size < address + kind.width) :
    m.load kind address = .error .memoryOutOfBounds := by
  rw [load, kind.bytes_eq_width, read_eq_error h]
  rfl

theorem write_of_le (h : address + bs.length ≤ m.size) :
    m.write address bs = .ok (m.put address bs) := if_pos (decide_eq_true h)

theorem write_of_lt (h : m.size < address + bs.length) :
    m.write address bs = .error .memoryOutOfBounds := by
  rw [write, if_neg]
  simp only [fits, decide_eq_true_eq]
  omega

theorem store_of_type {kind : StoreKind} (h : v.type = kind.type) :
    m.store kind address v = m.write address (LittleEndian.encode kind.width v.bits) := by
  rw [store, storeBytes, StoreKind.raw_of_type h, kind.bytes_eq_width]
  rfl

theorem store_of_ne {kind : StoreKind} (h : v.type ≠ kind.type) :
    m.store kind address v = .error (.typeMismatch kind.type v.type) := by
  rw [store, storeBytes, StoreKind.raw_of_ne h]
  rfl

namespace Rewritten

/-- Where bytes were written, a load of as many makes its value of them. -/
theorem loads_iff (h : m.Rewritten address bs after) (hwidth : kind.width = bs.length) :
    after.Loads kind address v ↔ kind.Gives bs v := by
  constructor
  · rintro ⟨bs', hlength, hholds, hgives⟩
    rwa [h.holds.unique hholds (hwidth.symm.trans hlength.symm)]
  · exact fun hgives => ⟨bs, hwidth.symm, h.holds, hgives⟩

/-- Elsewhere a load comes to what it did before. -/
theorem loads_disjoint_iff (h : m.Rewritten address bs after) {other : Nat}
    (hdisjoint : other + kind.width ≤ address ∨ address + bs.length ≤ other) :
    after.Loads kind other v ↔ m.Loads kind other v := by
  have hread := h.read_disjoint hdisjoint
  have hholds (bs' : List UInt8) (hlength : bs'.length = kind.width) :
      after.Holds other bs' ↔ m.Holds other bs' := by
    have hafter : after.read other kind.width = .ok bs' ↔ _ := read_eq_ok_iff
    rw [hread, read_eq_ok_iff] at hafter
    simpa only [hlength, and_true] using hafter.symm
  constructor
  · rintro ⟨bs', hlength, h', hgives⟩
    exact ⟨bs', hlength, (hholds bs' hlength).mp h', hgives⟩
  · rintro ⟨bs', hlength, h', hgives⟩
    exact ⟨bs', hlength, (hholds bs' hlength).mpr h', hgives⟩

end Rewritten

end Memory

namespace Store

variable {s : Store} {memory : Memory} {address n : Nat} {bs : List UInt8}

theorem read_of_memory (hmemory : s.memory? = some memory) :
    s.read address n = memory.read address n := by
  rw [read, hmemory]

theorem withMemory_of_memory {change : Memory → Except Trap Memory}
    (hmemory : s.memory? = some memory) :
    s.withMemory change =
      (change memory).map fun m => { s with memories := s.memories.setIfInBounds 0 m } := by
  rw [withMemory, hmemory]
  cases hchange : change memory <;> simp only [hchange] <;> rfl

theorem write_of_le (hmemory : s.memory? = some memory) (h : address + bs.length ≤ memory.size) :
    s.write address bs =
      .ok { s with memories := s.memories.setIfInBounds 0 (memory.put address bs) } := by
  rw [write, withMemory_of_memory hmemory, Memory.write_of_le h]
  rfl

theorem write_of_lt (hmemory : s.memory? = some memory) (h : memory.size < address + bs.length) :
    s.write address bs = .error .memoryOutOfBounds := by
  rw [write, withMemory_of_memory hmemory, Memory.write_of_lt h]
  rfl

end Store

-- ---------------------------------------------------------------------------
-- Accesses of a machine
-- ---------------------------------------------------------------------------

namespace Plain

variable {types : Array FuncType} {c : Context} {memory : Memory} {arg : MemArg}
  {base : BitVec 32} {stack : List Value}

theorem exec_load {kind : LoadKind} (hmemory : c.store.memory? = some memory)
    (hstack : c.stack = .i32 base :: stack) :
    (load kind arg).exec types c =
      (Exec.ofExcept (memory.load kind (base.toNat + arg.offset.toNat)) >>= fun v =>
        Exec.push v >>= fun _ => pure Effect.next) { c with stack } := by
  obtain ⟨stack', locals, labels, store⟩ := c
  cases hstack
  have hload : Exec.load kind (base.toNat + arg.offset.toNat) ⟨stack, locals, labels, store⟩ =
      Exec.ofExcept (memory.load kind (base.toNat + arg.offset.toNat))
        ⟨stack, locals, labels, store⟩ := by
    rw [Exec.load, Exec.bind_apply, Exec.get_apply]
    simp only [hmemory]
  rw [Exec.bind_apply, ← hload, ← Exec.bind_apply]
  rfl

theorem exec_store {kind : StoreKind} {v : Value} (hmemory : c.store.memory? = some memory)
    (hstack : c.stack = v :: .i32 base :: stack) :
    (store kind arg).exec types c =
      (Exec.ofExcept (memory.store kind (base.toNat + arg.offset.toNat) v) >>= fun memory =>
        set { c with stack, store.memories := c.store.memories.setIfInBounds 0 memory } >>=
          fun _ => pure Effect.next) { c with stack } := by
  obtain ⟨stack', locals, labels, store⟩ := c
  cases hstack
  have hstore : Exec.store kind (base.toNat + arg.offset.toNat) v ⟨stack, locals, labels, store⟩ =
      (Exec.ofExcept (memory.store kind (base.toNat + arg.offset.toNat) v) >>= fun memory =>
        set (⟨stack, locals, labels, { store with
          memories := store.memories.setIfInBounds 0 memory }⟩ : Context))
        ⟨stack, locals, labels, store⟩ := by
    rw [Exec.store, Exec.bind_apply, Exec.get_apply]
    simp only [Store.withMemory_of_memory hmemory]
    cases memory.store kind (base.toNat + arg.offset.toNat) v <;> rfl
  have hnext : (Plain.store kind arg).exec types ⟨v :: .i32 base :: stack, locals, labels, store⟩ =
      (Exec.store kind (base.toNat + arg.offset.toNat) v >>= fun _ => pure Effect.next)
        ⟨stack, locals, labels, store⟩ := rfl
  rw [hnext, Exec.bind_apply, hstore, ← Exec.bind_apply]
  simp only [bind_assoc]

end Plain

namespace Run

variable {env : Env σ} {n : Machine σ} {frame : Frame} {rest : List Frame} {func : Nat}
  {memory : Memory} {arg : MemArg} {base : BitVec 32} {address : Nat} {stack : List Value}

theorem step_load {kind : LoadKind} (hmemory : n.store.memory? = some memory)
    (hframes : n.frames = frame :: rest) (hcode : frame.code.Of env.module func)
    (hinstr : env.module.instr? func frame.pc = some (.plain (.load kind arg)))
    (hstack : n.stack = .i32 base :: stack) (haddress : base.toNat + arg.offset.toNat = address) :
    if address + kind.width ≤ memory.size then
      ∃ v, (∀ v', memory.Loads kind address v' ↔ v' = v) ∧
        step env n = .ok () { n with
          stack := v :: stack
          frames := { frame with pc := frame.pc + 1 } :: rest }
    else ∃ n', step env n = .error (.trap .memoryOutOfBounds) n' ∧ n'.store = n.store := by
  have hexec : (Plain.load kind arg).exec env.module.types (n.context frame) = _ :=
    Plain.exec_load hmemory hstack
  rw [haddress] at hexec
  split
  · rename_i hle
    obtain ⟨v, hload, hloads⟩ := Memory.load_of_le hle
    refine ⟨v, fun v' => ⟨fun h => h.unique hloads, fun h => h ▸ hloads⟩, ?_⟩
    rw [hload] at hexec
    exact step_next hframes hcode hinstr nofun hexec
  · rename_i hlt
    rw [Memory.load_of_lt (Nat.lt_of_not_le hlt)] at hexec
    exact step_fault hframes hcode hinstr nofun hexec

theorem step_store {kind : StoreKind} {v : Value} (hmemory : n.store.memory? = some memory)
    (hframes : n.frames = frame :: rest) (hcode : frame.code.Of env.module func)
    (hinstr : env.module.instr? func frame.pc = some (.plain (.store kind arg)))
    (hstack : n.stack = v :: .i32 base :: stack)
    (haddress : base.toNat + arg.offset.toNat = address) :
    if v.type = kind.type ∧ address + kind.width ≤ memory.size then
      ∃ bs after, bs.length = kind.width ∧ v.LowBytes bs ∧ memory.Rewritten address bs after ∧
        step env n = .ok () { n with
          stack
          store := { n.store with memories := n.store.memories.setIfInBounds 0 after }
          frames := { frame with pc := frame.pc + 1 } :: rest }
    else ∃ t n', step env n = .error (.trap t) n' ∧ n'.store = n.store := by
  have hexec : (Plain.store kind arg).exec env.module.types (n.context frame) = _ :=
    Plain.exec_store hmemory hstack
  rw [haddress] at hexec
  split
  · rename_i h
    obtain ⟨htype, hle⟩ := h
    have hlength := LittleEndian.length_encode kind.width v.bits
    rw [← hlength] at hle
    refine ⟨_, _, hlength, v.lowBytes_encode kind.width, Memory.rewritten_put hle, ?_⟩
    rw [Memory.store_of_type htype, Memory.write_of_le hle] at hexec
    exact step_next hframes hcode hinstr nofun hexec
  · rename_i h
    by_cases htype : v.type = kind.type
    · have hlt : memory.size < address + (LittleEndian.encode kind.width v.bits).length := by
        rw [LittleEndian.length_encode]
        exact Nat.lt_of_not_le fun hle => h ⟨htype, hle⟩
      rw [Memory.store_of_type htype, Memory.write_of_lt hlt] at hexec
      exact ⟨_, step_fault hframes hcode hinstr nofun hexec⟩
    · rw [Memory.store_of_ne htype] at hexec
      exact ⟨_, step_fault hframes hcode hinstr nofun hexec⟩

theorem readMemory_of_memory (hmemory : n.store.memory? = some memory) (address length : Nat) :
    if address + length ≤ memory.size then
      ∃ bs, bs.length = length ∧ memory.Holds address bs ∧ readMemory address length n = .ok bs n
    else readMemory address length n = .error (.trap .memoryOutOfBounds) n := by
  have hread : readMemory address length n = ofExcept (memory.read address length) n := by
    rw [← Store.read_of_memory hmemory]
    rfl
  split
  · rename_i hle
    obtain ⟨bs, hbs⟩ := Memory.read_of_le hle
    obtain ⟨hholds, hlength⟩ := Memory.read_eq_ok_iff.mp hbs
    rw [hbs] at hread
    exact ⟨bs, hlength, hholds, hread⟩
  · rename_i hlt
    rw [Memory.read_eq_error (Nat.lt_of_not_le hlt)] at hread
    exact hread

theorem writeMemory_of_memory (hmemory : n.store.memory? = some memory) (address : Nat)
    (bs : List UInt8) :
    if address + bs.length ≤ memory.size then
      ∃ after, memory.Rewritten address bs after ∧ writeMemory address bs n = .ok () { n with
        store := { n.store with memories := n.store.memories.setIfInBounds 0 after } }
    else writeMemory address bs n = .error (.trap .memoryOutOfBounds) n := by
  have hwrite : writeMemory address bs n =
      (ofExcept (n.store.write address bs) >>= fun store => set { n with store }) n := rfl
  split
  · rename_i hle
    rw [Store.write_of_le hmemory hle] at hwrite
    exact ⟨_, Memory.rewritten_put hle, hwrite⟩
  · rename_i hlt
    rw [Store.write_of_lt hmemory (Nat.lt_of_not_le hlt)] at hwrite
    exact hwrite

/-- In every machine with a memory, a load comes to the one value that its bytes
    are, a store replaces as many bytes as it is wide by the low ones of its
    value, and the host reads and writes these same bytes. Each of them is done
    if it ends within the memory and, for a store, the value has the type of its
    kind; otherwise the store stays what it was. Addresses are sums of numbers
    and do not wrap. After bytes were written, however they were, a load of as
    many at their address makes its value of them, and one that shares none with
    them comes to what it did before. -/
theorem accesses_exact {env : Env σ} {n : Machine σ} {memory : Memory}
    (hmemory : n.store.memory? = some memory) :
    (∀ frame rest func arg (base : BitVec 32) stack,
      let address := base.toNat + arg.offset.toNat
      n.frames = frame :: rest → frame.code.Of env.module func →
        (∀ kind, env.module.instr? func frame.pc = some (.plain (.load kind arg)) →
          n.stack = .i32 base :: stack →
          if address + kind.width ≤ memory.size then
            ∃ v, (∀ v', memory.Loads kind address v' ↔ v' = v) ∧
              step env n = .ok () { n with
                stack := v :: stack
                frames := { frame with pc := frame.pc + 1 } :: rest }
          else ∃ n', step env n = .error (.trap .memoryOutOfBounds) n' ∧ n'.store = n.store) ∧
        ∀ kind v, env.module.instr? func frame.pc = some (.plain (.store kind arg)) →
          n.stack = v :: .i32 base :: stack →
          if v.type = kind.type ∧ address + kind.width ≤ memory.size then
            ∃ bs after, bs.length = kind.width ∧ v.LowBytes bs ∧
              memory.Rewritten address bs after ∧
              step env n = .ok () { n with
                stack
                store := { n.store with memories := n.store.memories.setIfInBounds 0 after }
                frames := { frame with pc := frame.pc + 1 } :: rest }
          else ∃ t n', step env n = .error (.trap t) n' ∧ n'.store = n.store) ∧
    (∀ address length,
      if address + length ≤ memory.size then
        ∃ bs, bs.length = length ∧ memory.Holds address bs ∧
          readMemory address length n = .ok bs n
      else readMemory address length n = .error (.trap .memoryOutOfBounds) n) ∧
    (∀ address bs,
      if address + bs.length ≤ memory.size then
        ∃ after, memory.Rewritten address bs after ∧ writeMemory address bs n = .ok () { n with
          store := { n.store with memories := n.store.memories.setIfInBounds 0 after } }
      else writeMemory address bs n = .error (.trap .memoryOutOfBounds) n) ∧
    ∀ address bs after, memory.Rewritten address bs after →
      after.size = memory.size ∧ after.Holds address bs ∧ ∀ kind v,
        (kind.width = bs.length → (after.Loads kind address v ↔ kind.Gives bs v)) ∧
        ∀ other, other + kind.width ≤ address ∨ address + bs.length ≤ other →
          (after.Loads kind other v ↔ memory.Loads kind other v) := by
  refine ⟨?_, readMemory_of_memory hmemory, writeMemory_of_memory hmemory, ?_⟩
  · intro frame rest func arg base stack address hframes hcode
    constructor
    · intro kind hinstr hstack
      exact step_load hmemory hframes hcode hinstr hstack rfl
    · intro kind v hinstr hstack
      exact step_store hmemory hframes hcode hinstr hstack rfl
  · intro address bs after h
    refine ⟨h.size_eq, h.holds, fun kind v => ⟨fun hwidth => h.loads_iff hwidth, ?_⟩⟩
    exact fun other hdisjoint => h.loads_disjoint_iff hdisjoint

end Run

/-- Stores the low half of an operand. -/
def poke : Module where
  types := #[{}]
  functions := #[
    { type := 0, locals := #[]
      body := #[.plain (.store .i32N16 { align := 0, offset := 2 }), .end_] }]
  memories := #[{ min := 1 }]

/-- At the last two bytes of a page. -/
theorem poke_accesses_exact :
    let memory : Memory := .ofPages 1 none
    let frame : Frame :=
      { func := 0, code := .prepared (poke.prepare 0), height := 0, arity := 0, locals := #[] }
    let n : Machine Unit :=
      { cache := .empty poke, host := (), store := { memories := #[memory] }
        stack := [.i32 0x12345, .i32 65532], frames := [frame] }
    n.store.memory? = some memory ∧
      ∃ bs after, bs.length = 2 ∧ (Value.i32 0x12345).LowBytes bs ∧
        memory.Rewritten 65534 bs after ∧
        Run.step { module := poke, hosts := #[], config := {} } n = .ok () { n with
          stack := []
          store := { memories := #[after] }
          frames := [{ frame with pc := 1 }] } := by
  intro memory frame n
  refine ⟨rfl, ?_⟩
  let env : Env Unit := { module := poke, hosts := #[], config := {} }
  have hmemory : n.store.memory? = some memory := rfl
  have hle : 65534 + 2 ≤ memory.size := (size_zeros _).ge
  obtain ⟨haccess, -⟩ := @Run.accesses_exact _ env n memory hmemory
  have hstore := (haccess frame [] 0 { align := 0, offset := 2 } 65532 [] rfl (.inr rfl)).2
    .i32N16 (.i32 0x12345) rfl rfl
  rw [if_pos ⟨rfl, hle⟩] at hstore
  exact hstore

end Wasm
