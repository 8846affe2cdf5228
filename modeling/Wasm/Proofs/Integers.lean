import Mathlib.Algebra.Order.Group.Abs
import Mathlib.Algebra.Ring.Divisibility.Basic
import Mathlib.Data.Finset.Card
import Mathlib.Data.Int.ModEq
import Wasm.Proofs.Limits.Metering

/-!
# Integer operators

What the operators compute, said of the numbers that words stand for, with and
without a sign, and of their bits. Each description fits exactly one word, and
each operator gives that word or traps where it must, at both widths.
-/

namespace Wasm

variable {w : Nat} {a b c : BitVec w}

-- ---------------------------------------------------------------------------
-- Words
-- ---------------------------------------------------------------------------

theorem toInt_modEq_iff {n : Int} : c.toInt ≡ n [ZMOD 2 ^ w] ↔ BitVec.ofInt w n = c := by
  have hofInt : (BitVec.ofInt w n).toInt ≡ n [ZMOD 2 ^ w] := by
    rw [BitVec.toInt_ofInt, Int.ModEq]
    exact_mod_cast Int.bmod_emod
  constructor
  · intro h
    have hbmod := (hofInt.trans h.symm).dvd
    rw [← BitVec.toInt_inj, ← BitVec.toInt_bmod_cancel (BitVec.ofInt w n),
      ← BitVec.toInt_bmod_cancel c, Int.bmod_eq_bmod_iff_bmod_sub_eq_zero]
    apply Int.bmod_eq_zero_of_dvd
    rw [← dvd_neg, neg_sub]
    exact_mod_cast hbmod
  · rintro rfl
    exact hofInt

theorem toNat_modEq_iff {n : Nat} : c.toNat ≡ n [MOD 2 ^ w] ↔ BitVec.ofNat w n = c := by
  rw [← BitVec.toNat_inj, BitVec.toNat_ofNat, Nat.ModEq, Nat.mod_eq_of_lt c.isLt]
  exact eq_comm

theorem toInt_eq_zero_iff : b.toInt = 0 ↔ b = 0#w := by
  rw [← BitVec.toInt_inj, BitVec.toInt_zero]

theorem toInt_eq_neg_one_iff (hw : 0 < w) : b.toInt = -1 ↔ b = -1#w := by
  rw [← BitVec.toInt_inj, BitVec.neg_one_eq_allOnes, BitVec.toInt_allOnes, if_pos hw]

theorem toInt_eq_min_iff (hw : 0 < w) : a.toInt = -2 ^ (w - 1) ↔ a = BitVec.intMin w := by
  rw [← BitVec.toInt_inj, BitVec.toInt_intMin_of_pos hw]

/-- How far a word shifts or rotates another of its width: what it leaves, as a
    number with a sign, when it is divided by the width. -/
def shiftCount (b : BitVec w) : Nat := (b.toInt % w).toNat

/-- The sign makes no difference, as the width divides the number of words. -/
theorem shiftCount_eq (hw : w ∣ 2 ^ w) (b : BitVec w) : shiftCount b = b.toNat % w := by
  have hdvd : (w : Int) ∣ ((2 ^ w : Nat) : Int) := Int.natCast_dvd_natCast.mpr hw
  have hmod : b.toInt % w = (b.toNat : Int) % w := by
    rw [← Int.emod_emod_of_dvd b.toInt hdvd, BitVec.toInt_eq_toNat_bmod, Int.bmod_emod,
      Int.emod_emod_of_dvd _ hdvd]
  rw [shiftCount, hmod, ← Int.natCast_mod, Int.toNat_natCast]

/-- The remainder of a division that rounds to zero is told by its size and its
    sign. -/
theorem tmod_eq_iff {a b r : Int} :
    (∃ q, a = q * b + r) ∧ |r| < |b| ∧ (r = 0 ∨ r.sign = a.sign) ↔ b ≠ 0 ∧ a.tmod b = r := by
  constructor
  · rintro ⟨⟨q, hq⟩, hlt, hsign⟩
    have hb : b ≠ 0 := by
      rintro rfl
      exact absurd hlt (by simp)
    have hsum : r + b * q = a := by rw [hq, Int.mul_comm, Int.add_comm]
    have hnat : |r| < (b.natAbs : Int) := by rwa [Int.natCast_natAbs]
    obtain ⟨hlo, hhi⟩ := abs_lt.mp hnat
    refine ⟨hb, ?_⟩
    rcases le_total 0 a with ha | ha
    · have hr : 0 ≤ r := by
        rcases hsign with rfl | hsign
        · exact le_refl 0
        · exact Int.sign_nonneg_iff.mp (hsign ▸ Int.sign_nonneg_iff.mpr ha)
      exact ((Int.tdiv_tmod_unique ha hb).mpr ⟨hsum, hr, hhi⟩).2
    · have hr : r ≤ 0 := by
        rcases hsign with rfl | hsign
        · exact le_refl 0
        · exact Int.sign_nonpos_iff.mp (hsign ▸ Int.sign_nonpos_iff.mpr ha)
      exact ((Int.tdiv_tmod_unique' ha hb).mpr ⟨hsum, hlo, hr⟩).2
  · rintro ⟨hb, rfl⟩
    refine ⟨⟨a.tdiv b, ?_⟩, ?_, ?_⟩
    · rw [Int.add_comm, Int.tmod_add_tdiv_mul]
    · rw [Int.abs_eq_natAbs, Int.abs_eq_natAbs, Int.natAbs_tmod]
      exact_mod_cast Nat.mod_lt _ (Int.natAbs_pos.mpr hb)
    · by_cases hdvd : b ∣ a
      · exact .inl (Int.tmod_eq_zero_of_dvd hdvd)
      · exact .inr (by rw [Int.sign_tmod, if_neg hdvd])

-- ---------------------------------------------------------------------------
-- Bits
-- ---------------------------------------------------------------------------

/-- Every place is reached from one by going on in a circle. -/
theorem exists_add_mod {j k : Nat} (hj : j < w) (hk : k < w) : ∃ i < w, (i + k) % w = j := by
  rcases Nat.lt_or_ge j k with hjk | hjk
  · refine ⟨j + w - k, by omega, ?_⟩
    rw [show j + w - k + k = j + w by omega, Nat.add_mod_right, Nat.mod_eq_of_lt hj]
  · refine ⟨j - k, by omega, ?_⟩
    rw [Nat.sub_add_cancel hjk, Nat.mod_eq_of_lt hj]

theorem add_mod_cases {i k : Nat} (hi : i < w) (hk : k < w) :
    i + k < w ∧ (i + k) % w = i + k ∨ w ≤ i + k ∧ (i + k) % w = i + k - w := by
  rcases Nat.lt_or_ge (i + k) w with h | h
  · exact .inl ⟨h, Nat.mod_eq_of_lt h⟩
  · refine .inr ⟨h, ?_⟩
    rw [Nat.mod_eq_sub_mod h, Nat.mod_eq_of_lt (by omega)]

theorem getLsbD_rotateLeft_add {i k : Nat} (hi : i < w) (hk : k < w) :
    (a.rotateLeft k).getLsbD ((i + k) % w) = a.getLsbD i := by
  rw [BitVec.getLsbD_rotateLeft_of_le hk]
  rcases add_mod_cases hi hk with ⟨h, hmod⟩ | ⟨h, hmod⟩
  · have hge : ¬ i + k < k := by omega
    simp [hmod, h, hge]
  · have hlt : i + k - w < k := by omega
    have hback : w - k + (i + k - w) = i := by omega
    simp [hmod, hlt, hback]

theorem getLsbD_rotateRight_add {i k : Nat} (hi : i < w) (hk : k < w) :
    (a.rotateRight k).getLsbD i = a.getLsbD ((i + k) % w) := by
  rw [BitVec.getLsbD_rotateRight_of_lt hk]
  rcases add_mod_cases hi hk with ⟨h, hmod⟩ | ⟨h, hmod⟩
  · have hlt : i < w - k := by omega
    simp [hmod, hlt, Nat.add_comm k i]
  · have hge : ¬ i < w - k := by omega
    have hback : i - (w - k) = i + k - w := by omega
    simp [hmod, hge, hi, hback]

theorem rotateLeft_eq_iff {k : Nat} (hk : k < w) :
    a.rotateLeft k = c ↔ ∀ i < w, c.getLsbD ((i + k) % w) = a.getLsbD i := by
  constructor
  · rintro rfl i hi
    exact getLsbD_rotateLeft_add hi hk
  · intro h
    refine BitVec.eq_of_getLsbD_eq fun j hj => ?_
    obtain ⟨i, hi, rfl⟩ := exists_add_mod hj hk
    rw [getLsbD_rotateLeft_add hi hk, h i hi]

theorem rotateRight_eq_iff {k : Nat} (hk : k < w) :
    a.rotateRight k = c ↔ ∀ i < w, c.getLsbD i = a.getLsbD ((i + k) % w) := by
  constructor
  · rintro rfl i hi
    exact getLsbD_rotateRight_add hi hk
  · intro h
    refine BitVec.eq_of_getLsbD_eq fun i hi => ?_
    rw [getLsbD_rotateRight_add hi hk, h i hi]

/-- Of the bits, in the order given, `n` are clear in front of the first that is
    set, or `n` is the width and all are. -/
structure ZerosBefore (w : Nat) (bit : Nat → Bool) (n : Nat) : Prop where
  le : n ≤ w
  clear : ∀ i < n, bit i = false
  set : n < w → bit n = true

theorem ZerosBefore.unique {bit : Nat → Bool} {n n' : Nat} (h : ZerosBefore w bit n)
    (h' : ZerosBefore w bit n') : n = n' := by
  have hle {m m' : Nat} (h : ZerosBefore w bit m) (h' : ZerosBefore w bit m') : m ≤ m' := by
    by_contra hlt
    have hset := h'.set (lt_of_lt_of_le (not_le.mp hlt) h.le)
    rw [h.clear m' (not_le.mp hlt)] at hset
    cases hset
  exact le_antisymm (hle h h') (hle h' h)

theorem zerosBefore_ctz (a : BitVec w) : ZerosBefore w a.getLsbD a.ctz.toNat where
  le := by
    have hle := BitVec.le_def.mp (BitVec.clz_le (x := a.reverse))
    rw [BitVec.ctz_eq_reverse_clz]
    exact hle.trans (Nat.mod_le _ _)
  clear i hi := BitVec.getLsbD_false_of_lt_ctz hi
  set h := by
    apply BitVec.getLsbD_true_ctz_of_ne_zero
    apply BitVec.ctz_lt_iff_ne_zero.mp
    rw [BitVec.lt_def]
    simpa [Nat.mod_eq_of_lt Nat.lt_two_pow_self] using h

theorem zerosBefore_clz (a : BitVec w) : ZerosBefore w a.getMsbD a.clz.toNat := by
  have h := zerosBefore_ctz a.reverse
  rw [← BitVec.clz_eq_reverse_ctz] at h
  simpa only [funext fun i => BitVec.getLsbD_reverse (x := a) (i := i)] using h

theorem toNat_cpop_eq_card (a : BitVec w) :
    a.cpop.toNat = ((Finset.range w).filter fun i => a.getLsbD i = true).card := by
  have hcount (n : Nat) :
      a.cpopNatRec n 0 = ((Finset.range n).filter fun i => a.getLsbD i = true).card := by
    induction n with
    | zero => simp
    | succ n ih =>
      rw [BitVec.cpopNatRec_succ, BitVec.cpopNatRec_eq, ih, Finset.range_add_one,
        Finset.filter_insert]
      cases a.getLsbD n <;> simp
  rw [BitVec.toNat_cpop, hcount]

-- ---------------------------------------------------------------------------
-- Two operands
-- ---------------------------------------------------------------------------

namespace IntBinary

/-- The operator traps on the operands. -/
inductive Traps : IntBinary → BitVec w → BitVec w → Trap → Prop where
  | byZero {op : IntBinary} {a b : BitVec w} (hop : op ∈ [divS, divU, remS, remU])
      (hb : b.toInt = 0) : Traps op a b .divisionByZero
  | overflow {a b : BitVec w} (ha : a.toInt = -2 ^ (w - 1)) (hb : b.toInt = -1) :
      Traps divS a b .integerOverflow

/-- The word is what the operator makes of its operands. -/
def Gives (op : IntBinary) (a b c : BitVec w) : Prop :=
  match op with
  | add => c.toInt ≡ a.toInt + b.toInt [ZMOD 2 ^ w]
  | sub => c.toInt ≡ a.toInt - b.toInt [ZMOD 2 ^ w]
  | mul => c.toInt ≡ a.toInt * b.toInt [ZMOD 2 ^ w]
  | divS => c.toInt = a.toInt.tdiv b.toInt
  | divU => c.toNat = a.toNat / b.toNat
  | remS => (∃ q, a.toInt = q * b.toInt + c.toInt) ∧ |c.toInt| < |b.toInt| ∧
      (c.toInt = 0 ∨ c.toInt.sign = a.toInt.sign)
  | remU => c.toNat = a.toNat % b.toNat
  | and => ∀ i < w, c.getLsbD i = (a.getLsbD i && b.getLsbD i)
  | or => ∀ i < w, c.getLsbD i = (a.getLsbD i || b.getLsbD i)
  | xor => ∀ i < w, c.getLsbD i = (a.getLsbD i ^^ b.getLsbD i)
  | shl => c.toNat ≡ a.toNat * 2 ^ shiftCount b [MOD 2 ^ w]
  | shrS => c.toInt = a.toInt / 2 ^ shiftCount b
  | shrU => c.toNat = a.toNat / 2 ^ shiftCount b
  | rotl => ∀ i < w, c.getLsbD ((i + shiftCount b) % w) = a.getLsbD i
  | rotr => ∀ i < w, c.getLsbD i = a.getLsbD ((i + shiftCount b) % w)

theorem traps_iff {op : IntBinary} {t : Trap} :
    op.Traps a b t ↔
      (op = divS ∨ op = divU ∨ op = remS ∨ op = remU) ∧ b.toInt = 0 ∧ t = .divisionByZero ∨
      op = divS ∧ (a.toInt = -2 ^ (w - 1) ∧ b.toInt = -1) ∧ t = .integerOverflow := by
  constructor
  · intro h
    cases h with
    | byZero hop hb => exact .inl ⟨by simpa using hop, hb, rfl⟩
    | overflow ha hb => exact .inr ⟨rfl, ⟨ha, hb⟩, rfl⟩
  · rintro (⟨hop, hb, rfl⟩ | ⟨rfl, ⟨ha, hb⟩, rfl⟩)
    · exact .byZero (by simpa using hop) hb
    · exact .overflow ha hb

theorem eval_eq_error_iff (hw : 0 < w) (op : IntBinary) (a b : BitVec w) (t : Trap) :
    op.eval a b = .error t ↔ op.Traps a b t := by
  rw [traps_iff, toInt_eq_zero_iff, toInt_eq_min_iff hw, toInt_eq_neg_one_iff hw]
  cases op with
  | divS =>
    have hne : ¬ (0#w = -1#w) := fun h => hw.ne' (BitVec.zero_eq_neg_one_iff.mp h)
    by_cases hb : b = 0#w
    · subst hb
      simp [eval, hne, eq_comm]
    · by_cases hover : a = BitVec.intMin w ∧ b = -1#w
      · simp [eval, hover, hw.ne', eq_comm]
      · simp [eval, hb, hover]
  | divU | remS | remU =>
    by_cases hb : b = 0#w
    · simp [eval, hb, eq_comm]
    · simp [eval, hb]
  | _ => simp [eval]

/-- The description of the word fits what the operator computes, and nothing
    else. -/
theorem eval_eq_ok_iff (hw : w ∣ 2 ^ w) (op : IntBinary) (a b c : BitVec w) :
    op.eval a b = .ok c ↔ (∀ t, ¬ op.Traps a b t) ∧ op.Gives a b c := by
  have hpos : 0 < w := Nat.pos_of_dvd_of_pos hw (Nat.two_pow_pos w)
  have hcount : shiftCount b < w := shiftCount_eq hw b ▸ Nat.mod_lt _ hpos
  have hok {op : IntBinary} {v : BitVec w} (heval : op.eval a b = .ok v)
      (hv : v = c ↔ op.Gives a b c) :
      op.eval a b = .ok c ↔ (∀ t, ¬ op.Traps a b t) ∧ op.Gives a b c := by
    have hnone (t : Trap) : ¬ op.Traps a b t := by
      rw [← eval_eq_error_iff hpos, heval]
      nofun
    rw [heval, Except.ok.injEq, hv]
    exact (and_iff_right hnone).symm
  have herror {op : IntBinary} {t : Trap} (heval : op.eval a b = .error t) :
      op.eval a b = .ok c ↔ (∀ t, ¬ op.Traps a b t) ∧ op.Gives a b c := by
    have htraps := (eval_eq_error_iff hpos op a b t).mp heval
    rw [heval]
    exact ⟨nofun, fun h => absurd htraps (h.1 t)⟩
  cases op with
  | add =>
    refine hok rfl ?_
    rw [Gives, toInt_modEq_iff, BitVec.ofInt_add, BitVec.ofInt_toInt, BitVec.ofInt_toInt]
  | sub =>
    refine hok rfl ?_
    rw [Gives, toInt_modEq_iff, Int.sub_eq_add_neg, BitVec.ofInt_add, BitVec.ofInt_neg,
      BitVec.ofInt_toInt, BitVec.ofInt_toInt, BitVec.sub_eq_add_neg]
  | mul =>
    refine hok rfl ?_
    rw [Gives, toInt_modEq_iff, BitVec.ofInt_mul, BitVec.ofInt_toInt, BitVec.ofInt_toInt]
  | divS =>
    by_cases hb : b = 0#w
    · exact herror (if_pos hb)
    by_cases hover : a = BitVec.intMin w ∧ b = -1#w
    · exact herror ((if_neg hb).trans (if_pos hover))
    refine hok ((if_neg hb).trans (if_neg hover)) ?_
    rw [Gives, ← BitVec.toInt_sdiv_of_ne_or_ne a b (not_and_or.mp hover), BitVec.toInt_inj]
    exact eq_comm
  | divU =>
    by_cases hb : b = 0#w
    · exact herror (if_pos hb)
    refine hok (if_neg hb) ?_
    rw [Gives, ← BitVec.toNat_udiv, BitVec.toNat_inj]
    exact eq_comm
  | remS =>
    by_cases hb : b = 0#w
    · exact herror (if_pos hb)
    refine hok (if_neg hb) ?_
    rw [Gives, tmod_eq_iff, ← BitVec.toInt_srem, BitVec.toInt_inj]
    exact (and_iff_right (mt toInt_eq_zero_iff.mp hb)).symm
  | remU =>
    by_cases hb : b = 0#w
    · exact herror (if_pos hb)
    refine hok (if_neg hb) ?_
    rw [Gives, ← BitVec.toNat_umod, BitVec.toNat_inj]
    exact eq_comm
  | and | or | xor =>
    refine hok rfl ?_
    rw [eq_comm, BitVec.eq_of_getLsbD_eq_iff]
    simp only [Gives, BitVec.getLsbD_and, BitVec.getLsbD_or, BitVec.getLsbD_xor]
  | shl =>
    refine hok rfl ?_
    rw [Gives, toNat_modEq_iff, ← shiftCount_eq hw, ← Nat.shiftLeft_eq, ← BitVec.toNat_inj,
      BitVec.toNat_shiftLeft, ← BitVec.toNat_inj, BitVec.toNat_ofNat]
  | shrS =>
    refine hok rfl ?_
    rw [Gives, ← shiftCount_eq hw, ← BitVec.toInt_inj, BitVec.toInt_sshiftRight,
      Int.shiftRight_eq_div_pow]
    push_cast
    exact eq_comm
  | shrU =>
    refine hok rfl ?_
    rw [Gives, ← shiftCount_eq hw, ← BitVec.toNat_inj, BitVec.toNat_ushiftRight,
      Nat.shiftRight_eq_div_pow]
    exact eq_comm
  | rotl => exact hok rfl (shiftCount_eq hw b ▸ rotateLeft_eq_iff hcount)
  | rotr => exact hok rfl (shiftCount_eq hw b ▸ rotateRight_eq_iff hcount)

end IntBinary

-- ---------------------------------------------------------------------------
-- Comparisons and one operand
-- ---------------------------------------------------------------------------

namespace IntCompare

/-- The comparison holds of the operands. -/
def Holds (op : IntCompare) (a b : BitVec w) : Prop :=
  match op with
  | eq => a.toNat = b.toNat
  | ne => a.toNat ≠ b.toNat
  | ltS => a.toInt < b.toInt
  | ltU => a.toNat < b.toNat
  | gtS => a.toInt > b.toInt
  | gtU => a.toNat > b.toNat
  | leS => a.toInt ≤ b.toInt
  | leU => a.toNat ≤ b.toNat
  | geS => a.toInt ≥ b.toInt
  | geU => a.toNat ≥ b.toNat

theorem eval_eq_true_iff (op : IntCompare) (a b : BitVec w) :
    op.eval a b = true ↔ op.Holds a b := by
  cases op with
  | eq => rw [eval, beq_iff_eq, Holds, BitVec.toNat_inj]
  | ne => rw [eval, bne_iff_ne, Holds, ne_eq, ne_eq, BitVec.toNat_inj]
  | ltS | gtS => exact BitVec.slt_iff_toInt_lt
  | ltU | gtU => exact BitVec.ult_iff_toNat_lt
  | leS | geS => exact BitVec.sle_iff_toInt_le
  | leU | geU => exact BitVec.ule_iff_toNat_le

end IntCompare

namespace IntUnary

/-- The word is, in two's complement, the number that the low `n` bits are. -/
def Extends (n : Nat) (a c : BitVec w) : Prop :=
  c.toInt ≡ a.toInt [ZMOD 2 ^ n] ∧ -2 ^ (n - 1) ≤ c.toInt ∧ c.toInt < 2 ^ (n - 1)

/-- The word is what the operator makes of its operand. -/
def Gives (op : IntUnary) (a c : BitVec w) : Prop :=
  match op with
  | clz => ZerosBefore w a.getMsbD c.toNat
  | ctz => ZerosBefore w a.getLsbD c.toNat
  | popcnt => c.toNat = ((Finset.range w).filter fun i => a.getLsbD i = true).card
  | extend8S => Extends 8 a c
  | extend16S => Extends 16 a c
  | extend32S => Extends 32 a c

theorem extend_eq_iff {n : Nat} (hn : 0 < n) (hle : n ≤ w) : extend n a = c ↔ Extends n a c := by
  have hhalf : ((2 ^ n : Nat) : Int) = 2 * 2 ^ (n - 1) := by
    obtain ⟨k, rfl⟩ := Nat.exists_eq_succ_of_ne_zero hn.ne'
    push_cast
    exact pow_succ' 2 k
  have hvalue : (extend n a).toInt = Int.bmod a.toInt (2 ^ n) := by
    rw [extend, BitVec.toInt_signExtend_of_le hle, BitVec.toInt_setWidth,
      BitVec.toInt_eq_toNat_bmod, Int.bmod_bmod_of_dvd (Nat.pow_dvd_pow 2 hle)]
  have hmod : c.toInt ≡ a.toInt [ZMOD 2 ^ n] ↔ ((2 ^ n : Nat) : Int) ∣ c.toInt - a.toInt := by
    rw [Int.modEq_comm, Int.modEq_iff_dvd]
    push_cast
    rfl
  rw [← BitVec.toInt_inj, hvalue, Int.bmod_eq_iff (Nat.two_pow_pos n), Extends, hmod, hhalf]
  omega

theorem eval_eq_iff (hw : 32 ≤ w) (op : IntUnary) (a c : BitVec w) :
    op.eval a = c ↔ op.Gives a c := by
  have hcount {bit : Nat → Bool} {v : BitVec w} (hv : ZerosBefore w bit v.toNat) :
      v = c ↔ ZerosBefore w bit c.toNat := by
    constructor
    · rintro rfl
      exact hv
    · exact fun hc => BitVec.eq_of_toNat_eq (hv.unique hc)
  cases op with
  | clz => exact hcount (zerosBefore_clz a)
  | ctz => exact hcount (zerosBefore_ctz a)
  | popcnt =>
    rw [Gives, ← toNat_cpop_eq_card, BitVec.toNat_inj]
    exact eq_comm
  | extend8S => exact extend_eq_iff (by decide) (by omega)
  | extend16S => exact extend_eq_iff (by decide) (by omega)
  | extend32S => exact extend_eq_iff (by decide) hw

end IntUnary

-- ---------------------------------------------------------------------------
-- Instructions
-- ---------------------------------------------------------------------------

namespace Plain

variable {types : Array FuncType} {c : Context} {width : Width} {a b : BitVec width.bits}
  {stack : List Value}

theorem exec_intBinary {op : IntBinary}
    (hstack : c.stack = .int width b :: .int width a :: stack) :
    (intBinary width op).exec types c =
      match op.eval a b with
      | .ok v => .ok .next { c with stack := .int width v :: stack }
      | .error t => .error (.trap t) { c with stack } := by
  obtain ⟨stack', locals, labels, store⟩ := c
  cases hstack
  have hpops : (intBinary width op).exec types
      ⟨.int width b :: .int width a :: stack, locals, labels, store⟩ =
      produce (do return .int width (← Exec.ofExcept (op.eval a b)))
        ⟨stack, locals, labels, store⟩ := by
    cases width <;> rfl
  rw [hpops]
  cases op.eval a b <;> rfl

theorem exec_intCompare {op : IntCompare}
    (hstack : c.stack = .int width b :: .int width a :: stack) :
    (intCompare width op).exec types c =
      .ok .next { c with stack := .ofBool (op.eval a b) :: stack } := by
  obtain ⟨stack', locals, labels, store⟩ := c
  cases hstack
  cases width <;> rfl

theorem exec_intUnary {op : IntUnary} (hstack : c.stack = .int width a :: stack) :
    (intUnary width op).exec types c =
      .ok .next { c with stack := .int width (op.eval a) :: stack } := by
  obtain ⟨stack', locals, labels, store⟩ := c
  cases hstack
  cases width <;> rfl

end Plain

theorem Width.bits_dvd (width : Width) : width.bits ∣ 2 ^ width.bits := by
  cases width <;> decide

theorem Width.le_bits (width : Width) : 32 ≤ width.bits := by
  cases width <;> decide

namespace Run

variable {σ : Type}

/-- The operators compute what the numbers and bits of their operands say, and
    one that divides traps where there is no quotient. An instruction finds the
    second operand on top of the first and leaves the result in their place, or
    traps as the operator does, in either strategy. -/
theorem integers_exact (width : Width) :
    (∀ (op : IntBinary) (a b : BitVec width.bits),
      (∀ t, op.eval a b = .error t ↔ op.Traps a b t) ∧
      ∀ c, op.eval a b = .ok c ↔ (∀ t, ¬ op.Traps a b t) ∧ op.Gives a b c) ∧
    (∀ (op : IntCompare) (a b : BitVec width.bits), op.eval a b = true ↔ op.Holds a b) ∧
    (∀ (op : IntUnary) (a c : BitVec width.bits), op.eval a = c ↔ op.Gives a c) ∧
    ∀ (env : Env σ) (n : Machine σ) (frame : Frame) (rest : List Frame) (func : Nat)
      (a b : BitVec width.bits) (stack : List Value),
      n.frames = frame :: rest → frame.code.Of env.module func →
      let done (v : Value) : Machine σ :=
        { n with stack := v :: stack, frames := { frame with pc := frame.pc + 1 } :: rest }
      (∀ op, env.module.instr? func frame.pc = some (.plain (.intBinary width op)) →
        n.stack = .int width b :: .int width a :: stack →
        match op.eval a b with
        | .ok v => step env n = .ok () (done (.int width v))
        | .error t => ∃ n', step env n = .error (.trap t) n' ∧ n'.store = n.store) ∧
      (∀ op, env.module.instr? func frame.pc = some (.plain (.intCompare width op)) →
        n.stack = .int width b :: .int width a :: stack →
        step env n = .ok () (done (.i32 (if op.eval a b then 1 else 0)))) ∧
      ∀ op, env.module.instr? func frame.pc = some (.plain (.intUnary width op)) →
        n.stack = .int width a :: stack →
        step env n = .ok () (done (.int width (op.eval a))) := by
  have hpos : 0 < width.bits := lt_of_lt_of_le (by decide) width.le_bits
  refine ⟨fun op a b => ⟨op.eval_eq_error_iff hpos a b, op.eval_eq_ok_iff width.bits_dvd a b⟩,
    fun op => op.eval_eq_true_iff, fun op => op.eval_eq_iff width.le_bits, ?_⟩
  intro env n frame rest func a b stack hframes hcode done
  refine ⟨fun op hinstr hstack => ?_, fun op hinstr hstack => ?_, fun op hinstr hstack => ?_⟩
  · have hexec : (Plain.intBinary width op).exec env.module.types (n.context frame) = _ :=
      Plain.exec_intBinary hstack
    cases heval : op.eval a b with
    | ok v =>
      rw [heval] at hexec
      exact step_next hframes hcode hinstr nofun hexec
    | error t =>
      rw [heval] at hexec
      exact step_fault hframes hcode hinstr nofun hexec
  · exact step_next hframes hcode hinstr nofun (Plain.exec_intCompare hstack)
  · exact step_next hframes hcode hinstr nofun (Plain.exec_intUnary hstack)

end Run

/-- Rotates one operand by another. -/
def turn : Module where
  types := #[{}]
  functions := #[
    { type := 0, locals := #[], body := #[.plain (.intBinary .w64 .rotl), .end_] }]

/-- A rotation by minus one, that is by 63 of 64 places. -/
theorem turn_integers_exact :
    let frame : Frame :=
      { func := 0, code := .prepared (turn.prepare 0), height := 0, arity := 0, locals := #[] }
    let n : Machine Unit :=
      { cache := .empty turn, host := (), store := {}, stack := [.i64 (-1), .i64 3]
        frames := [frame] }
    IntBinary.rotl.Gives (3 : BitVec 64) (-1) 0x8000000000000001 ∧
      Run.step { module := turn, hosts := #[], config := {} } n = .ok () { n with
        stack := [.i64 0x8000000000000001]
        frames := [{ frame with pc := 1 }] } := by
  intro frame n
  let env : Env Unit := { module := turn, hosts := #[], config := {} }
  have heval : IntBinary.rotl.eval (3 : BitVec 64) (-1) = .ok 0x8000000000000001 := by decide
  obtain ⟨hbinary, -, -, hstep⟩ := @Run.integers_exact Unit .w64
  have hdone := (hstep env n frame [] 0 3 (-1) [] rfl (.inr rfl)).1 .rotl rfl rfl
  rw [heval] at hdone
  exact ⟨(((hbinary .rotl 3 (-1)).2 _).mp heval).2, hdone⟩

end Wasm
