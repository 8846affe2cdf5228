import Wasm.Format.Leb128

/-!
# Writing LEB128 numbers

The shortest encoding of a number, unsigned or signed, and how it is read
back: it is found at the front of whatever follows it, it spells the number,
and it fits every width the number fits. A number has longer encodings too,
whose last groups are zero; they are read in the same way.
-/

namespace Wasm.Leb128

-- ---------------------------------------------------------------------------
-- Encodings
-- ---------------------------------------------------------------------------

/-- The shortest unsigned encoding. -/
def encode (n : Nat) : List UInt8 :=
  if n < 128 then [UInt8.ofNat n] else UInt8.ofNat (n % 128 + 128) :: encode (n / 128)
termination_by n
decreasing_by omega

/-- The shortest signed encoding. -/
def encodeSigned (n : Int) : List UInt8 :=
  if -64 ≤ n ∧ n < 64 then [UInt8.ofNat (n % 128).toNat]
  else UInt8.ofNat ((n % 128).toNat + 128) :: encodeSigned (n / 128)
termination_by n.natAbs
decreasing_by omega

/-- `128 ^ k * c`, the numbers of `k` full groups and one of `c` values. -/
def span (c : Nat) : Nat → Nat
  | 0 => c
  | k + 1 => 128 * span c k

theorem encode_ne_nil (n : Nat) : encode n ≠ [] := by
  rw [encode]
  split <;> simp

theorem encodeSigned_ne_nil (n : Int) : encodeSigned n ≠ [] := by
  rw [encodeSigned]
  split <;> simp

-- ---------------------------------------------------------------------------
-- Finding an encoding
-- ---------------------------------------------------------------------------

theorem toNat_last {n : Nat} (h : n < 128) : (UInt8.ofNat n).toNat = n := by
  rw [UInt8.toNat_ofNat']
  omega

theorem toNat_more {n : Nat} (h : n < 128) : (UInt8.ofNat (n + 128)).toNat = n + 128 := by
  rw [UInt8.toNat_ofNat']
  omega

theorem encoding?_last {n limit : Nat} (h : n < 128) (rest : List UInt8) :
    encoding? (limit + 1) (UInt8.ofNat n :: rest) = some [UInt8.ofNat n] := by
  have hlt : UInt8.ofNat n < 128 := by
    rw [UInt8.lt_iff_toNat_lt, toNat_last h]
    exact h
  simp only [encoding?, hlt, if_true]

theorem encoding?_more {n limit : Nat} (h : n < 128) (rest : List UInt8) :
    encoding? (limit + 1) (UInt8.ofNat (n + 128) :: rest) =
      (encoding? limit rest).map (UInt8.ofNat (n + 128) :: ·) := by
  have hlt : ¬ UInt8.ofNat (n + 128) < 128 := by
    rw [UInt8.lt_iff_toNat_lt, toNat_more h]
    exact Nat.not_lt.mpr (Nat.le_add_left 128 n)
  simp only [encoding?, hlt, if_false]

theorem encoding?_encode {n limit : Nat} (h : (encode n).length ≤ limit) (rest : List UInt8) :
    encoding? limit (encode n ++ rest) = some (encode n) := by
  induction limit generalizing n with
  | zero => exact absurd (List.length_eq_zero_iff.mp (Nat.le_zero.mp h)) (encode_ne_nil n)
  | succ limit ih =>
    rw [encode] at h ⊢
    split
    · rename_i hn
      exact encoding?_last hn rest
    · rename_i hn
      rw [if_neg hn, List.length_cons] at h
      rw [List.cons_append, encoding?_more (Nat.mod_lt n (by decide)), ih (by omega)]
      rfl

theorem encoding?_encodeSigned {n : Int} {limit : Nat} (h : (encodeSigned n).length ≤ limit)
    (rest : List UInt8) : encoding? limit (encodeSigned n ++ rest) = some (encodeSigned n) := by
  induction limit generalizing n with
  | zero => exact absurd (List.length_eq_zero_iff.mp (Nat.le_zero.mp h)) (encodeSigned_ne_nil n)
  | succ limit ih =>
    have hmod : (n % 128).toNat < 128 := by omega
    rw [encodeSigned] at h ⊢
    split
    · exact encoding?_last hmod rest
    · rename_i hn
      rw [if_neg hn, List.length_cons] at h
      rw [List.cons_append, encoding?_more hmod, ih (by omega)]
      rfl

-- ---------------------------------------------------------------------------
-- Values
-- ---------------------------------------------------------------------------

theorem value_encode (n : Nat) : value (encode n) = n := by
  induction n using Nat.strongRecOn with
  | ind n ih =>
    rw [encode]
    split
    · rename_i hn
      simp only [value, toNat_last hn]
      omega
    · simp only [value, ih (n / 128) (by omega), toNat_more (Nat.mod_lt n (by decide : 0 < 128))]
      omega

theorem wrap_succ (k : Nat) : 1 <<< (7 * (k + 1)) = 128 * (1 <<< (7 * k)) := by
  rw [Nat.mul_add, Nat.mul_one, Nat.shiftLeft_add, Nat.shiftLeft_eq, Nat.mul_comm]

theorem signedValue_cons (b : UInt8) {bs : List UInt8} (h : bs ≠ []) :
    signedValue (b :: bs) = (b.toNat % 128 : Nat) + 128 * signedValue bs := by
  obtain ⟨k, hk⟩ : ∃ k, bs.length = k + 1 :=
    Nat.exists_eq_succ_of_ne_zero fun h0 => h (List.length_eq_zero_iff.mp h0)
  simp only [signedValue, value, List.length_cons, hk, wrap_succ]
  split <;> split <;> omega

theorem signedValue_encodeSigned (n : Int) : signedValue (encodeSigned n) = n := by
  induction hk : n.natAbs using Nat.strongRecOn generalizing n with
  | ind k ih =>
    have hmod : (n % 128).toNat < 128 := by omega
    rw [encodeSigned]
    split
    · rename_i hn
      simp only [signedValue, value, toNat_last hmod, List.length_singleton]
      split <;> omega
    · rename_i hn
      rw [signedValue_cons _ (encodeSigned_ne_nil _), toNat_more hmod,
        ih (n / 128).natAbs (by omega) (n / 128) rfl]
      omega

-- ---------------------------------------------------------------------------
-- Widths
-- ---------------------------------------------------------------------------

theorem getLast?_cons_of_ne_nil (b : UInt8) {bs : List UInt8} (h : bs ≠ []) :
    (b :: bs).getLast? = bs.getLast? := by
  obtain ⟨c, cs, rfl⟩ := List.exists_cons_of_ne_nil h
  rw [List.getLast?_cons_cons]

/-- A number of `k` full groups and one of `c` values takes no more than
    `k + 1` groups, of which the last is the one of `c` values. -/
theorem encode_fits {n k c : Nat} (hc : c ≤ 128) (hn : n < span c k) :
    (encode n).length ≤ k + 1 ∧
      ((encode n).length = k + 1 → ∀ b ∈ (encode n).getLast?, b.toNat % 128 < c) := by
  induction k generalizing n with
  | zero =>
    simp only [span] at hn
    rw [encode, if_pos (by omega)]
    refine ⟨Nat.le_refl _, fun _ b hb => ?_⟩
    rw [List.getLast?_singleton] at hb
    obtain rfl := Option.some.inj hb
    rw [toNat_last (by omega)]
    omega
  | succ k ih =>
    simp only [span] at hn
    obtain ⟨hle, hlast⟩ := @ih (n / 128) (by omega)
    rw [encode]
    split
    · exact ⟨by simp, fun hlength => absurd hlength (by simp)⟩
    · rw [List.length_cons, getLast?_cons_of_ne_nil _ (encode_ne_nil _)]
      exact ⟨by omega, fun hlength => hlast (by omega)⟩

/-- Of a signed number the last group repeats the sign above its values. -/
theorem encodeSigned_fits {n : Int} {k c : Nat} (hc : c ≤ 64) (hlo : -(span c k : Nat) ≤ n)
    (hhi : n < (span c k : Nat)) :
    (encodeSigned n).length ≤ k + 1 ∧
      ((encodeSigned n).length = k + 1 → ∀ b ∈ (encodeSigned n).getLast?,
        b.toNat % 128 < c ∨ 128 - c ≤ b.toNat % 128) := by
  induction k generalizing n with
  | zero =>
    simp only [span] at hlo hhi
    rw [encodeSigned, if_pos (by omega)]
    refine ⟨Nat.le_refl _, fun _ b hb => ?_⟩
    rw [List.getLast?_singleton] at hb
    obtain rfl := Option.some.inj hb
    rw [toNat_last (by omega)]
    omega
  | succ k ih =>
    simp only [span] at hlo hhi
    obtain ⟨hle, hlast⟩ := @ih (n / 128) (by omega) (by omega)
    rw [encodeSigned]
    split
    · exact ⟨by simp, fun hlength => absurd hlength (by simp)⟩
    · rw [List.length_cons, getLast?_cons_of_ne_nil _ (encodeSigned_ne_nil _)]
      exact ⟨by omega, fun hlength => hlast (by omega)⟩

-- ---------------------------------------------------------------------------
-- Splitting off an encoding
-- ---------------------------------------------------------------------------

theorem split_eq_ok {bits : Nat} {fits : UInt8 → Bool} {bytes groups : List UInt8}
    (hencoding : encoding? (maxLength bits) bytes = some groups)
    (hfits : groups.length = maxLength bits → ∀ b ∈ groups.getLast?, fits b = true) :
    split bits fits bytes = .ok groups := by
  unfold split
  rw [hencoding]
  refine if_neg fun hbad => ?_
  simp only [Bool.and_eq_true, decide_eq_true_eq, Bool.not_eq_true'] at hbad
  obtain ⟨hlength, hlast⟩ := hbad
  cases hgroups : groups.getLast? with
  | none => simp [hgroups] at hlast
  | some b => simp [hgroups, hfits hlength b hgroups] at hlast

theorem split_encode {n : Nat} (hn : n < UInt32.size) (rest : List UInt8) :
    split 32 (unsignedFits 32) (encode n ++ rest) = .ok (encode n) := by
  obtain ⟨hle, hlast⟩ := @encode_fits n 4 16 (by decide) hn
  refine split_eq_ok (encoding?_encode hle rest) fun hlength b hb => ?_
  exact decide_eq_true (hlast hlength b hb)

theorem split_encodeSigned {n : Int} {bits k : Nat} (hlength : maxLength bits = k + 1)
    (hhalf : 1 <<< (lastBits bits - 1) ≤ 64)
    (hlo : -(span (1 <<< (lastBits bits - 1)) k : Nat) ≤ n)
    (hhi : n < (span (1 <<< (lastBits bits - 1)) k : Nat)) (rest : List UInt8) :
    split bits (signedFits bits) (encodeSigned n ++ rest) = .ok (encodeSigned n) := by
  obtain ⟨hle, hlast⟩ := encodeSigned_fits hhalf hlo hhi
  rw [← hlength] at hle hlast
  refine split_eq_ok (encoding?_encodeSigned hle rest) fun h b hb => ?_
  simp only [signedFits, Bool.or_eq_true, decide_eq_true_eq]
  exact hlast h b hb

-- ---------------------------------------------------------------------------
-- All encodings
-- ---------------------------------------------------------------------------

/-- The bytes are an unsigned encoding of the number, the shortest or not. -/
inductive Spells : List UInt8 → Nat → Prop where
  | last {b : UInt8} (hb : b < 128) : Spells [b] b.toNat
  | more {b : UInt8} {bs : List UInt8} {n : Nat} (hb : 128 ≤ b) (hbs : Spells bs n) :
      Spells (b :: bs) (b.toNat - 128 + 128 * n)

/-- The bytes are an encoding of the 32-bit number, which has five groups at
    most. -/
def SpellsU32 (bs : List UInt8) (n : UInt32) : Prop :=
  Spells bs n.toNat ∧ bs.length ≤ 5

namespace Spells

variable {bs front : List UInt8} {n : Nat}

theorem ne_nil (h : Spells bs n) : bs ≠ [] := by
  cases h <;> exact List.cons_ne_nil _ _

theorem value_eq (h : Spells bs n) : value bs = n := by
  induction h with
  | @last b hb =>
    rw [UInt8.lt_iff_toNat_lt] at hb
    exact Nat.mod_eq_of_lt hb
  | @more b bs n hb hbs ih =>
    have hlt := b.toNat_lt
    rw [UInt8.le_iff_toNat_le] at hb
    change 128 ≤ b.toNat at hb
    rw [value, ih]
    omega

theorem encoding?_append (h : Spells bs n) {limit : Nat} (hlength : bs.length ≤ limit)
    (rest : List UInt8) : encoding? limit (bs ++ rest) = some bs := by
  induction h generalizing limit with
  | last hb =>
    cases limit with
    | zero => exact absurd hlength (Nat.not_succ_le_zero 0)
    | succ limit => exact if_pos hb
  | more hb hbs ih =>
    cases limit with
    | zero => exact absurd hlength (Nat.not_succ_le_zero _)
    | succ limit =>
      rw [List.cons_append, encoding?, if_neg (UInt8.not_lt.mpr hb),
        ih (Nat.le_of_succ_le_succ hlength)]
      rfl

/-- Without its last byte an encoding does not end. -/
theorem encoding?_front (h : Spells bs n) (hfront : front <+: bs) (hne : front ≠ bs)
    (limit : Nat) : encoding? limit front = none := by
  induction h generalizing front limit with
  | last hb =>
    cases limit with
    | zero => rfl
    | succ limit =>
      cases front with
      | nil => rfl
      | cons c front =>
        obtain ⟨rfl, hnil⟩ := List.cons_prefix_cons.mp hfront
        exact absurd (congrArg _ (List.prefix_nil.mp hnil)) hne
  | more hb hbs ih =>
    cases limit with
    | zero => rfl
    | succ limit =>
      cases front with
      | nil => rfl
      | cons c front =>
        obtain ⟨rfl, htail⟩ := List.cons_prefix_cons.mp hfront
        have hshort : front ≠ _ := fun heq => hne (congrArg _ heq)
        rw [encoding?, if_neg (UInt8.not_lt.mpr hb), ih htail hshort limit]
        rfl

/-- Among `k + 1` groups, the numbers below `span c k` are those whose last
    group, if all are there, is below `c`. -/
theorem lt_span_iff (h : Spells bs n) {k c : Nat} (hpos : 0 < c) (hlength : bs.length ≤ k + 1) :
    n < span c k ↔ (bs.length = k + 1 → ∀ b ∈ bs.getLast?, b.toNat % 128 < c) := by
  have hspan : ∀ k, 0 < span c k := by
    intro k
    induction k with
    | zero => exact hpos
    | succ k ih => exact Nat.mul_pos (by decide) ih
  induction h generalizing k with
  | @last b hb =>
    rw [UInt8.lt_iff_toNat_lt] at hb
    change b.toNat < 128 at hb
    cases k with
    | zero => simp [span, Nat.mod_eq_of_lt hb]
    | succ k =>
      have := hspan k
      simp only [span, List.length_singleton]
      constructor
      · exact fun _ hk => absurd hk (by omega)
      · exact fun _ => by omega
  | @more b bs m hb hbs ih =>
    cases k with
    | zero => exact absurd (List.length_eq_zero_iff.mp (by simpa using hlength)) hbs.ne_nil
    | succ k =>
      have hlt := b.toNat_lt
      rw [getLast?_cons_of_ne_nil b hbs.ne_nil, List.length_cons, Nat.add_right_cancel_iff, span]
      refine Iff.trans ?_ (ih (Nat.le_of_succ_le_succ hlength))
      omega

theorem lt_size_iff (h : Spells bs n) (hlength : bs.length ≤ maxLength 32) :
    n < UInt32.size ↔
      (bs.length = maxLength 32 → ∀ b ∈ bs.getLast?, unsignedFits 32 b = true) := by
  have hiff := @lt_span_iff bs n h 4 16 (by decide) hlength
  simp only [unsignedFits, decide_eq_true_eq]
  exact hiff

end Spells

theorem spells_of_encoding? {limit : Nat} {bytes bs : List UInt8}
    (h : encoding? limit bytes = some bs) :
    Spells bs (value bs) ∧ bs <+: bytes ∧ bs.length ≤ limit := by
  induction limit generalizing bytes bs with
  | zero => cases h
  | succ limit ih =>
    cases bytes with
    | nil => cases h
    | cons b bytes =>
      rw [encoding?] at h
      split at h
      · rename_i hb
        cases h
        have hspells := Spells.last hb
        exact ⟨hspells.value_eq.symm ▸ hspells, ⟨bytes, rfl⟩, Nat.succ_le_succ (Nat.zero_le _)⟩
      · rename_i hb
        obtain ⟨bs, hbs, rfl⟩ := Option.map_eq_some_iff.mp h
        obtain ⟨hspells, hfront, hlength⟩ := ih hbs
        have hmore := Spells.more (UInt8.not_lt.mp hb) hspells
        refine ⟨hmore.value_eq.symm ▸ hmore, ?_, Nat.succ_le_succ hlength⟩
        exact List.cons_prefix_cons.mpr ⟨rfl, hfront⟩

theorem of_split_eq_ok {bits : Nat} {fits : UInt8 → Bool} {bytes bs : List UInt8}
    (h : split bits fits bytes = .ok bs) :
    encoding? (maxLength bits) bytes = some bs ∧
      (bs.length = maxLength bits → ∀ b ∈ bs.getLast?, fits b = true) := by
  unfold split at h
  split at h
  · cases h
  · rename_i groups hencoding
    split at h
    · cases h
    · rename_i hgood
      cases h
      refine ⟨hencoding, fun hlength b hb => ?_⟩
      simpa [hlength, Option.mem_def.mp hb] using hgood

theorem split_eq_truncated {bits : Nat} {fits : UInt8 → Bool} {bytes : List UInt8}
    (hencoding : encoding? (maxLength bits) bytes = none)
    (hlength : bytes.length < maxLength bits) :
    split bits fits bytes = .error .truncated := by
  rw [split, hencoding]
  exact congrArg Except.error (if_pos hlength)

theorem SpellsU32.split {bs : List UInt8} {n : UInt32} (h : SpellsU32 bs n) (rest : List UInt8) :
    split 32 (unsignedFits 32) (bs ++ rest) = .ok bs := by
  obtain ⟨hspells, hlength⟩ := h
  exact split_eq_ok (hspells.encoding?_append hlength rest)
    ((hspells.lt_size_iff hlength).mp n.toNat_lt_size)

theorem spellsU32_of_split {bytes bs : List UInt8}
    (h : Leb128.split 32 (unsignedFits 32) bytes = .ok bs) :
    SpellsU32 bs (UInt32.ofNat (value bs)) := by
  obtain ⟨hencoding, hfits⟩ := of_split_eq_ok h
  obtain ⟨hspells, _, hlength⟩ := spells_of_encoding? hencoding
  have hlt : value bs < UInt32.size := (hspells.lt_size_iff hlength).mpr hfits
  refine ⟨?_, hlength⟩
  rw [UInt32.toNat_ofNat_of_lt' hlt]
  exact hspells

end Wasm.Leb128
