import Mathlib.Algebra.BigOperators.Fin
import Mathlib.Algebra.BigOperators.Ring.Finset
import Mathlib.Tactic.Ring
import Wasm.Number.Conversion
import Wasm.Proofs.Format.Exact

/-!
# Numbers of a width

A reader of numbers counts bytes and looks at the spare bits of the last one it
permits; it never compares a number with a bound. What it accepts are the
encodings, padded or not, of exactly the numbers of its width, and of those that
it does not accept it says whether bytes are missing or the number is too large.
-/

namespace Wasm

namespace Leb128

-- ---------------------------------------------------------------------------
-- Encodings
-- ---------------------------------------------------------------------------

/-- Every byte but the last has its top bit set. -/
def Terminated (gs : List UInt8) : Prop :=
  ∃ front last, gs = front ++ [last] ∧ (∀ b ∈ front, 128 ≤ b) ∧ last < 128

/-- The sum of the seven-bit groups, each at its place. -/
def total (gs : List UInt8) : Nat :=
  ∑ k : Fin gs.length, gs[k].toNat % 128 * 2 ^ (7 * k.val)

/-- The number that groups spell, plainly or in two's complement over all their
    bits. -/
def meaning (sign : Sign) (gs : List UInt8) : Int :=
  match sign with
  | .unsigned => total gs
  | .signed => (BitVec.ofNat (7 * gs.length) (total gs)).toInt

/-- The numbers that have so many bits. -/
def InRange (sign : Sign) (bits : Nat) (n : Int) : Prop :=
  match sign with
  | .unsigned => 0 ≤ n ∧ n < 2 ^ bits
  | .signed => -2 ^ (bits - 1) ≤ n ∧ n < 2 ^ (bits - 1)

/-- The groups are an encoding of the number, which has so many bits, with any
    padding that the width permits. -/
structure Encodes (sign : Sign) (bits : Nat) (gs : List UInt8) (n : Int) : Prop where
  terminated : Terminated gs
  length : gs.length ≤ (bits + 6) / 7
  meaning : meaning sign gs = n
  inRange : InRange sign bits n

theorem Terminated.singleton {b : UInt8} (h : b < 128) : Terminated [b] :=
  ⟨[], b, rfl, nofun, h⟩

theorem Terminated.cons {b : UInt8} {gs : List UInt8} (hb : 128 ≤ b) (h : Terminated gs) :
    Terminated (b :: gs) := by
  obtain ⟨front, last, rfl, hfront, hlast⟩ := h
  exact ⟨b :: front, last, rfl, List.forall_mem_cons.mpr ⟨hb, hfront⟩, hlast⟩

theorem Spells.terminated {gs : List UInt8} {n : Nat} (h : Spells gs n) : Terminated gs := by
  induction h with
  | last hb => exact .singleton hb
  | more hb _ ih => exact ih.cons hb

theorem Terminated.spells {gs : List UInt8} (h : Terminated gs) : Spells gs (value gs) := by
  obtain ⟨front, last, rfl, hfront, hlast⟩ := h
  obtain ⟨n, hn⟩ : ∃ n, Spells (front ++ [last]) n := by
    induction front with
    | nil => exact ⟨_, .last hlast⟩
    | cons b front ih =>
      obtain ⟨hb, hfront⟩ := List.forall_mem_cons.mp hfront
      obtain ⟨n, hn⟩ := ih hfront
      exact ⟨_, .more hb hn⟩
  exact hn.value_eq.symm ▸ hn

theorem encoding?_eq_some_iff {limit : Nat} {bytes gs : List UInt8} :
    encoding? limit bytes = some gs ↔ Terminated gs ∧ gs <+: bytes ∧ gs.length ≤ limit := by
  constructor
  · intro h
    obtain ⟨hspells, hfront, hlength⟩ := spells_of_encoding? h
    exact ⟨hspells.terminated, hfront, hlength⟩
  · rintro ⟨hterminated, ⟨rest, rfl⟩, hlength⟩
    exact hterminated.spells.encoding?_append hlength rest

theorem encoding?_eq_none_iff {limit : Nat} {bytes : List UInt8} :
    encoding? limit bytes = none ↔ ∀ b ∈ bytes.take limit, 128 ≤ b := by
  induction limit generalizing bytes with
  | zero => simp [encoding?]
  | succ limit ih =>
    cases bytes with
    | nil => simp [encoding?]
    | cons b bytes =>
      rw [encoding?, List.take_succ_cons, List.forall_mem_cons, ← ih]
      by_cases hb : b < 128
      · simp [hb, UInt8.not_le.mpr hb]
      · simp [hb, UInt8.not_lt.mp hb]

-- ---------------------------------------------------------------------------
-- Values
-- ---------------------------------------------------------------------------

theorem value_eq_total (gs : List UInt8) : value gs = total gs := by
  induction gs with
  | nil => rfl
  | cons b gs ih =>
    have hshift (k c : Nat) : c * 2 ^ (7 * (k + 1)) = 128 * (c * 2 ^ (7 * k)) := by
      rw [Nat.mul_add, Nat.pow_add]
      ring
    have hfirst : total (b :: gs) = b.toNat % 128 * 2 ^ (7 * 0) +
        ∑ k : Fin gs.length, gs[k].toNat % 128 * 2 ^ (7 * (k.val + 1)) := Fin.sum_univ_succ _
    rw [value, ih, hfirst, total, Finset.mul_sum, Nat.mul_zero, Nat.pow_zero, Nat.mul_one]
    simp only [hshift]

theorem value_lt (gs : List UInt8) : value gs < 2 ^ (7 * gs.length) := by
  induction gs with
  | nil => decide
  | cons b gs ih =>
    rw [value, List.length_cons, Nat.mul_add, Nat.pow_add]
    omega

theorem signedValue_eq_meaning (gs : List UInt8) : signedValue gs = meaning .signed gs := by
  have hlt := value_lt gs
  rw [meaning, ← value_eq_total, BitVec.toInt_eq_toNat_cond, BitVec.toNat_ofNat,
    Nat.mod_eq_of_lt hlt, signedValue, Nat.one_shiftLeft]

-- ---------------------------------------------------------------------------
-- Ranges
-- ---------------------------------------------------------------------------

theorem span_eq (c k : Nat) : span c k = c * 2 ^ (7 * k) := by
  induction k with
  | zero => rw [span, Nat.mul_zero, Nat.pow_zero, Nat.mul_one]
  | succ k ih =>
    rw [span, ih, Nat.mul_add, Nat.pow_add]
    ring

/-- All permitted groups but the last, and what that contributes, make up the
    width. -/
theorem lastBits_add {bits : Nat} (h : 0 < bits) :
    0 < lastBits bits ∧ lastBits bits ≤ 7 ∧ lastBits bits + 7 * (maxLength bits - 1) = bits ∧
      maxLength bits = maxLength bits - 1 + 1 := by
  unfold lastBits maxLength
  omega

theorem span_lastBits {bits : Nat} (h : 0 < bits) :
    span (1 <<< lastBits bits) (maxLength bits - 1) = 2 ^ bits := by
  obtain ⟨_, _, hsum, _⟩ := lastBits_add h
  rw [span_eq, Nat.one_shiftLeft, ← Nat.pow_add, hsum]

theorem span_half {bits : Nat} (h : 0 < bits) :
    span (1 <<< (lastBits bits - 1)) (maxLength bits - 1) = 2 ^ (bits - 1) := by
  obtain ⟨hpos, _, hsum, _⟩ := lastBits_add h
  rw [span_eq, Nat.one_shiftLeft, ← Nat.pow_add]
  congr 1
  omega

/-- Among `k + 1` groups, the numbers from `-span c k` up to `span c k` are those
    whose last group, if all are there, repeats the sign above its values. -/
theorem Spells.signed_span_iff {gs : List UInt8} {n : Nat} (h : Spells gs n) {k c : Nat}
    (hpos : 0 < c) (hc : c ≤ 64) (hlength : gs.length ≤ k + 1) :
    (-(span c k : Int) ≤ signedValue gs ∧ signedValue gs < span c k) ↔
      (gs.length = k + 1 → ∀ b ∈ gs.getLast?, b.toNat % 128 < c ∨ 128 - c ≤ b.toNat % 128) := by
  induction h generalizing k with
  | @last b hb =>
    rw [UInt8.lt_iff_toNat_lt] at hb
    change b.toNat < 128 at hb
    have hvalue : b.toNat < 64 ∧ signedValue [b] = b.toNat ∨
        64 ≤ b.toNat ∧ signedValue [b] = b.toNat - 128 := by
      simp only [signedValue, value, List.length_singleton, Nat.mod_eq_of_lt hb]
      split <;> omega
    cases k with
    | zero =>
      simp only [span, List.length_singleton, List.getLast?_singleton, Option.mem_def,
        Option.some.injEq, forall_eq', Nat.mod_eq_of_lt hb, Nat.zero_add, forall_const]
      omega
    | succ k =>
      have hspan : 0 < span c k := span_eq c k ▸ Nat.mul_pos hpos (Nat.two_pow_pos _)
      refine iff_of_true ?_ fun hk => absurd hk (by simp)
      rw [span]
      omega
  | @more b gs m hb hgs ih =>
    cases k with
    | zero => exact absurd (List.length_eq_zero_iff.mp (by simpa using hlength)) hgs.ne_nil
    | succ k =>
      rw [getLast?_cons_of_ne_nil b hgs.ne_nil, List.length_cons, Nat.add_right_cancel_iff,
        ← ih (Nat.le_of_succ_le_succ hlength), signedValue_cons b hgs.ne_nil, span]
      omega

/-- The check on the last permitted byte. -/
def fits (sign : Sign) (bits : Nat) : UInt8 → Bool :=
  match sign with
  | .unsigned => unsignedFits bits
  | .signed => signedFits bits

/-- Looking at the last permitted byte is as good as comparing the number with
    the bounds of the width. -/
theorem Terminated.inRange_iff {gs : List UInt8} (h : Terminated gs) (sign : Sign) {bits : Nat}
    (hbits : 0 < bits) (hlength : gs.length ≤ maxLength bits) :
    InRange sign bits (Leb128.meaning sign gs) ↔
      (gs.length = maxLength bits → ∀ b ∈ gs.getLast?, fits sign bits b = true) := by
  obtain ⟨_, hlast, _, hmax⟩ := lastBits_add hbits
  have hspells := h.spells
  cases sign with
  | unsigned =>
    have hiff := hspells.lt_span_iff (k := maxLength bits - 1) (c := 1 <<< lastBits bits)
      (by rw [Nat.one_shiftLeft]; exact Nat.two_pow_pos _) (hmax ▸ hlength)
    rw [span_lastBits hbits, ← hmax] at hiff
    simp only [fits, unsignedFits, decide_eq_true_eq]
    rw [← hiff, InRange, Leb128.meaning, ← value_eq_total]
    constructor
    · exact fun hrange => by exact_mod_cast hrange.2
    · exact fun hlt => ⟨Int.natCast_nonneg _, by exact_mod_cast hlt⟩
  | signed =>
    have hhalf : 1 <<< (lastBits bits - 1) ≤ 64 := by
      rw [Nat.one_shiftLeft]
      exact Nat.pow_le_pow_right (j := 6) Nat.two_pos (by omega)
    have hiff := hspells.signed_span_iff (k := maxLength bits - 1)
      (c := 1 <<< (lastBits bits - 1)) (by rw [Nat.one_shiftLeft]; exact Nat.two_pow_pos _) hhalf
      (hmax ▸ hlength)
    rw [span_half hbits, ← hmax] at hiff
    simp only [fits, signedFits, Bool.or_eq_true, decide_eq_true_eq]
    rw [← hiff, InRange, ← signedValue_eq_meaning]
    push_cast
    rfl

/-- What is split off the front of bytes is an encoding of a number of the
    width. -/
theorem split_eq_ok_iff (sign : Sign) {bits : Nat} (hbits : 0 < bits) {bytes gs : List UInt8} :
    split bits (fits sign bits) bytes = .ok gs ↔
      Encodes sign bits gs (Leb128.meaning sign gs) ∧ gs <+: bytes := by
  constructor
  · intro h
    obtain ⟨hencoding, hfits⟩ := of_split_eq_ok h
    obtain ⟨hterminated, hfront, hlength⟩ := encoding?_eq_some_iff.mp hencoding
    exact ⟨⟨hterminated, hlength, rfl, (hterminated.inRange_iff sign hbits hlength).mpr hfits⟩,
      hfront⟩
  · rintro ⟨⟨hterminated, hlength, -, hrange⟩, hfront⟩
    exact split_eq_ok (encoding?_eq_some_iff.mpr ⟨hterminated, hfront, hlength⟩)
      ((hterminated.inRange_iff sign hbits hlength).mp hrange)

/-- An encoding that ends in time is of a number too large, if it is not split
    off. -/
theorem split_eq_overflow (sign : Sign) {bits : Nat} (hbits : 0 < bits) {bytes gs : List UInt8}
    (hterminated : Terminated gs) (hfront : gs <+: bytes) (hlength : gs.length ≤ (bits + 6) / 7)
    (hout : ¬ InRange sign bits (Leb128.meaning sign gs)) :
    split bits (fits sign bits) bytes = .error .overflow := by
  have hencoding : encoding? (maxLength bits) bytes = some gs :=
    encoding?_eq_some_iff.mpr ⟨hterminated, hfront, hlength⟩
  have hnot : split bits (fits sign bits) bytes ≠ .ok gs :=
    fun h => hout ((split_eq_ok_iff sign hbits).mp h).1.inRange
  rw [split, hencoding] at hnot ⊢
  exact if_pos (Decidable.of_not_not fun hneg => hnot (if_neg hneg))

end Leb128

-- ---------------------------------------------------------------------------
-- Readers
-- ---------------------------------------------------------------------------

namespace Format.Reader

open Leb128

variable {α : Type}

theorem groups_eq_split (bits : Nat) (fits : UInt8 → Bool) (w : Window) :
    groups bits fits w = match split bits fits w.bytes with
      | .ok gs => .ok gs (w.drop gs.length)
      | .error .truncated => .error (.unexpectedEnd w.stop) w
      | .error .overflow => .error (.numberOverflow w.offset) w := by
  simp only [groups, get_bind]
  rcases split bits fits w.bytes with ⟨_ | _⟩ | gs <;> rfl

/-- The reader takes a number of so many bits off the front of a window, if an
    encoding of one stands there. Otherwise the window is as it was: the end of
    the bytes is found if they may go on, and the number overflows if they may
    not, or if its encoding ends but not within the width. -/
structure ReadsNumber (r : Reader α) (toInt : α → Int) (sign : Sign) (bits : Nat)
    (w : Window) : Prop where
  ok_iff : ∀ v w', r w = .ok v w' ↔ ∃ gs, Encodes sign bits gs (toInt v) ∧
    w.bytes = gs ++ w'.bytes ∧ w'.offset = w.offset + gs.length
  unterminated : (∀ b ∈ w.bytes.take ((bits + 6) / 7), 128 ≤ b) →
    r w = .error (if w.bytes.length < (bits + 6) / 7 then
      .unexpectedEnd (w.offset + w.bytes.length) else .numberOverflow w.offset) w
  overflow : ∀ gs, Terminated gs → gs <+: w.bytes → gs.length ≤ (bits + 6) / 7 →
    ¬ InRange sign bits (Leb128.meaning sign gs) → r w = .error (.numberOverflow w.offset) w
  unmoved : ∀ e w', r w = .error e w' → w' = w

/-- A view of the groups that agrees with their meaning within the width makes a
    reader of numbers. -/
theorem readsNumber_of_groups (sign : Sign) {toInt : α → Int} (hinj : Function.Injective toInt)
    {bits : Nat} (hbits : 0 < bits) {view : List UInt8 → α}
    (hview : ∀ gs, InRange sign bits (Leb128.meaning sign gs) →
      toInt (view gs) = Leb128.meaning sign gs) (w : Window) :
    ReadsNumber (do return view (← groups bits (fits sign bits))) toInt sign bits w where
  ok_iff v w' := by
    constructor
    · intro h
      obtain ⟨gs, v', hgs, h⟩ := bind_eq_ok_iff.mp h
      cases h
      obtain ⟨hsplit, hbytes⟩ := groups_eq_ok hgs
      obtain ⟨hencodes, -⟩ := (split_eq_ok_iff sign hbits).mp hsplit
      rw [groups_eq_split, hsplit] at hgs
      cases hgs
      exact ⟨gs, (hview gs hencodes.inRange).symm ▸ hencodes, hbytes, rfl⟩
    · rintro ⟨gs, hencodes, hbytes, hoffset⟩
      have hsplit : split bits (fits sign bits) w.bytes = .ok gs :=
        (split_eq_ok_iff sign hbits).mpr
          ⟨⟨hencodes.terminated, hencodes.length, rfl, hencodes.meaning ▸ hencodes.inRange⟩,
            ⟨w'.bytes, hbytes.symm⟩⟩
      have hdrop : w.drop gs.length = w' := by
        rw [Window.drop, hbytes, List.drop_left, ← hoffset]
      have hv : view gs = v := by
        apply hinj
        rw [← hencodes.meaning]
        exact hview gs (hencodes.meaning ▸ hencodes.inRange)
      rw [bind_eq_of_ok (by rw [groups_eq_split, hsplit]), hv, hdrop]
      rfl
  unterminated h := by
    apply bind_eq_error
    have hnone : encoding? (maxLength bits) w.bytes = none := encoding?_eq_none_iff.mpr h
    rw [groups_eq_split, split, hnone, maxLength]
    by_cases hlength : w.bytes.length < (bits + 6) / 7
    · simp only [if_pos hlength, Window.stop]
    · simp only [if_neg hlength]
  overflow gs hterminated hfront hlength hout := by
    apply bind_eq_error
    rw [groups_eq_split, split_eq_overflow sign hbits hterminated hfront hlength hout]
  unmoved e w' h := by
    simp only [bind, EStateM.bind, groups_eq_split] at h
    split at h
    · cases h
    · rename_i hgroups
      split at hgroups <;> cases hgroups <;> cases h <;> rfl

theorem readsNumber_unsigned {bits : Nat} (hbits : 0 < bits) (w : Window) :
    ReadsNumber (unsigned bits) Nat.cast .unsigned bits w := by
  have hcast : Function.Injective (Nat.cast : Nat → Int) := Nat.cast_injective
  refine readsNumber_of_groups .unsigned hcast hbits (fun gs _ => ?_) w
  rw [value_eq_total, Leb128.meaning]

theorem readsNumber_signed {bits : Nat} (hbits : 0 < bits) (w : Window) :
    ReadsNumber (signed bits) id .signed bits w :=
  readsNumber_of_groups .signed Function.injective_id hbits
    (fun gs _ => signedValue_eq_meaning gs) w

theorem readsNumber_u32 (w : Window) :
    ReadsNumber u32 (fun n => n.toNat) .unsigned 32 w := by
  have hu32 : u32 = do return UInt32.ofNat (value (← groups 32 (fits .unsigned 32))) := by
    rw [u32, unsigned, bind_assoc]
    rfl
  rw [hu32]
  refine readsNumber_of_groups .unsigned (fun n m h => ?_) (by decide) (fun gs hrange => ?_) w
  · exact UInt32.toNat_inj.mp (Nat.cast_injective h)
  · obtain ⟨-, hlt⟩ := hrange
    rw [Leb128.meaning, ← value_eq_total] at hlt ⊢
    rw [UInt32.toNat_ofNat_of_lt' (by exact_mod_cast hlt)]

/-- The five readers of numbers take exactly the encodings of their width and say
    what is wrong with anything else. -/
theorem numbers_exact (w : Window) :
    ReadsNumber u32 (fun n => n.toNat) .unsigned 32 w ∧
      ReadsNumber (unsigned 64) Nat.cast .unsigned 64 w ∧
      ReadsNumber (signed 32) id .signed 32 w ∧
      ReadsNumber (signed 64) id .signed 64 w ∧
      ReadsNumber (signed 33) id .signed 33 w :=
  ⟨readsNumber_u32 w, readsNumber_unsigned (by decide) w, readsNumber_signed (by decide) w,
    readsNumber_signed (by decide) w, readsNumber_signed (by decide) w⟩

end Format.Reader

end Wasm
