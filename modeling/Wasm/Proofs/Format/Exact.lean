import Wasm.Proofs.Encoding.Reading
import Wasm.Proofs.Format.Decoded

/-!
# Exact readers

An exact reader looks at no byte but those it takes. So it takes the same ones
and returns the same value wherever they stand and whatever follows them, and
if some are missing it finds the end of the bytes. The contents of every
section but a custom one are read exactly.

Inside the frame of a function the end of the bytes has a meaning of its own.
Its reader is not exact, but it still does not depend on where the frame
stands.
-/

namespace Wasm.Format.Reader

variable {α β : Type}

-- ---------------------------------------------------------------------------
-- Runs of bytes
-- ---------------------------------------------------------------------------

/-- Given a part of the bytes only, the reader finds their end. -/
def RunsOut (r : Reader α) (bytes : List UInt8) : Prop :=
  ∀ ⦃front⦄, front <+: bytes → front ≠ bytes → ∀ offset,
    ∃ w, r ⟨front, offset⟩ = .error (.unexpectedEnd (offset + front.length)) w

/-- The reader needs all the bytes, and no more, for the value. -/
structure Spans (r : Reader α) (bytes : List UInt8) (v : α) : Prop where
  reads : Reads r bytes v
  runsOut : RunsOut r bytes

theorem bind_eq_of_ok {r : Reader α} {w v : Window} {a : α} (h : r w = .ok a v)
    (f : α → Reader β) : (r >>= f) w = f a v := by
  simp only [bind, EStateM.bind, h]

theorem bind_eq_error {r : Reader α} {w v : Window} {e : Error} (h : r w = .error e v)
    (f : α → Reader β) : (r >>= f) w = .error e v := by
  simp only [bind, EStateM.bind, h]

theorem RunsOut.nil (r : Reader α) : RunsOut r [] :=
  fun _ hfront hne => absurd (List.prefix_nil.mp hfront) hne

theorem Spans.pure (v : α) : Spans (pure v) [] v := ⟨Reads.pure v, RunsOut.nil _⟩

/-- A part of the bytes ends either in those of the first reader, or after
    them in those of the second. -/
theorem RunsOut.bind {r : Reader α} {f : α → Reader β} {xs ys : List UInt8} {x : α}
    (hr : Spans r xs x) (hf : RunsOut (f x) ys) : RunsOut (r >>= f) (xs ++ ys) := by
  intro front hfront hne offset
  by_cases hall : xs <+: front
  · obtain ⟨tail, rfl⟩ := hall
    have htail : tail <+: ys := (List.prefix_append_right_inj xs).mp hfront
    have hshort : tail ≠ ys := fun heq => hne (congrArg _ heq)
    obtain ⟨w, hw⟩ := hf htail hshort (offset + xs.length)
    refine ⟨w, ?_⟩
    rw [bind_eq_of_ok (hr.reads tail offset), hw, List.length_append, Nat.add_assoc]
  · have hin : front <+: xs :=
      (List.prefix_or_prefix_of_prefix hfront (List.prefix_append xs ys)).resolve_right hall
    have hshort : front ≠ xs := by
      rintro rfl
      exact hall (List.prefix_refl front)
    obtain ⟨w, hw⟩ := hr.runsOut hin hshort offset
    exact ⟨w, bind_eq_error hw f⟩

theorem Spans.bind {r : Reader α} {f : α → Reader β} {xs ys : List UInt8} {x : α} {y : β}
    (hr : Spans r xs x) (hf : Spans (f x) ys y) : Spans (r >>= f) (xs ++ ys) y :=
  ⟨hr.reads.bind hf.reads, RunsOut.bind hr hf.runsOut⟩

-- ---------------------------------------------------------------------------
-- Exact readers
-- ---------------------------------------------------------------------------

/-- Whatever the reader takes, it needs all of it and no more. -/
def Exact (r : Reader α) : Prop :=
  ∀ ⦃w a w'⦄, r w = .ok a w' → ∃ taken, w.bytes = taken ++ w'.bytes ∧ Spans r taken a

theorem Exact.spans {r : Reader α} (h : Exact r) {w w' : Window} {a : α} (hr : r w = .ok a w')
    {taken : List UInt8} (htaken : w.bytes = taken ++ w'.bytes) : Spans r taken a := by
  obtain ⟨taken', htaken', hspans⟩ := h hr
  rw [htaken, List.append_left_inj] at htaken'
  exact htaken' ▸ hspans

theorem Exact.pure (a : α) : Exact (pure a : Reader α) := by
  intro w b w' h
  cases h
  exact ⟨[], rfl, Spans.pure a⟩

theorem Exact.throw (e : Error) : Exact (throw e : Reader α) := by
  intro w a w' h
  cases h

theorem Exact.bind {r : Reader α} {f : α → Reader β} (hr : Exact r) (hf : ∀ a, Exact (f a)) :
    Exact (r >>= f) := by
  intro w b w' h
  obtain ⟨a, v, ha, hb⟩ := bind_eq_ok_iff.mp h
  obtain ⟨xs, hxs, hx⟩ := hr ha
  obtain ⟨ys, hys, hy⟩ := hf a hb
  refine ⟨xs ++ ys, ?_, hx.bind hy⟩
  rw [hxs, hys, List.append_assoc]

theorem Exact.map {r : Reader α} (hr : Exact r) (f : α → β) : Exact (do return f (← r)) :=
  hr.bind fun _ => Exact.pure _

/-- A reader that looks at its offset first, to name it in an error only. -/
theorem Exact.of_offset {f : Nat → Reader β} (hf : ∀ offset, Exact (f offset))
    (hsame : ∀ ⦃offset w b w'⦄, f offset w = .ok b w' → ∀ offset', f offset' w = .ok b w') :
    Exact (offset >>= f) := by
  intro w b w' h
  obtain ⟨taken, htaken, -⟩ := hf w.offset h
  have hspans : ∀ offset, Spans (f offset) taken b :=
    fun offset => (hf offset).spans (hsame h offset) htaken
  refine ⟨taken, htaken, Reads.of_offset fun offset => (hspans offset).reads, ?_⟩
  exact fun front hfront hne offset => (hspans offset).runsOut hfront hne offset

/-- A reader that first counts the bytes, for a bound that is large enough. -/
theorem Exact.of_remaining {f : Nat → Reader β} (hf : ∀ n, Exact (f n))
    (hsame : ∀ ⦃w n n'⦄, w.bytes.length ≤ n → w.bytes.length ≤ n' → f n w = f n' w) :
    Exact (remaining >>= f) := by
  intro w b w' h
  obtain ⟨taken, htaken, -⟩ := hf w.bytes.length h
  have hspans : ∀ n, w.bytes.length ≤ n → Spans (f n) taken b := by
    intro n hn
    have hread : f n w = .ok b w' := hsame hn (Nat.le_refl _) ▸ h
    exact (hf n).spans hread htaken
  refine ⟨taken, htaken, fun rest offset => ?_, fun front hfront hne offset => ?_⟩
  · have hlarge := hspans (w.bytes.length + (taken ++ rest).length) (Nat.le_add_right _ _)
    exact (hsame (Nat.le_refl _) (Nat.le_add_left _ _)).trans (hlarge.reads rest offset)
  · have hle : front.length ≤ w.bytes.length := by
      rw [htaken, List.length_append]
      exact Nat.le_trans hfront.length_le (Nat.le_add_right _ _)
    obtain ⟨v, hv⟩ := (hspans w.bytes.length (Nat.le_refl _)).runsOut hfront hne offset
    exact ⟨v, (hsame (Nat.le_refl _) hle).trans hv⟩

theorem exact_byte : Exact byte := by
  intro w b w' h
  obtain ⟨bytes, offset⟩ := w
  cases bytes with
  | nil => cases h
  | cons c rest =>
    cases h
    refine ⟨[b], rfl, reads_byte b, ?_⟩
    intro front hfront hne offset
    cases front with
    | nil => exact ⟨_, rfl⟩
    | cons d front =>
      obtain ⟨rfl, hnil⟩ := List.cons_prefix_cons.mp hfront
      exact absurd (congrArg _ (List.prefix_nil.mp hnil)) hne

theorem frame_short {front : List UInt8} {n : Nat} (h : front.length < n) (offset : Nat) :
    frame n ⟨front, offset⟩ = .error (.unexpectedEnd (offset + front.length)) ⟨front, offset⟩ := by
  have hfront : ((Window.mk front offset).take n).bytes.length < n := by
    rw [Window.take, List.take_of_length_le (Nat.le_of_lt h)]
    exact h
  simp only [frame, get_bind, hfront, if_true]
  rfl

theorem frame_of_le {n : Nat} {w : Window} (h : n ≤ w.bytes.length) :
    frame n w = .ok (w.take n) (w.drop n) := by
  have hlength : ¬ (w.take n).bytes.length < n := by
    rw [Window.take, List.length_take_of_le h]
    exact Nat.lt_irrefl n
  simp only [frame, get_bind, hlength, if_false]
  rfl

theorem length_lt_of_front {front bytes : List UInt8} (hfront : front <+: bytes)
    (hne : front ≠ bytes) : front.length < bytes.length :=
  Nat.lt_of_le_of_ne hfront.length_le fun heq => hne (hfront.eq_of_length heq)

theorem exact_bytes (n : Nat) : Exact (bytes n) := by
  intro w bs w' h
  obtain ⟨inner, v, hframe, h⟩ := bind_eq_ok_iff.mp h
  cases h
  obtain ⟨-, rfl, hbytes⟩ := frame_eq_ok hframe
  refine ⟨inner.bytes, hbytes, reads_bytes _, fun front hfront hne offset => ?_⟩
  exact ⟨_, bind_eq_error (frame_short (length_lt_of_front hfront hne) offset) _⟩

theorem exact_word (n : Nat) : Exact (word n) := (exact_bytes n).map _

-- ---------------------------------------------------------------------------
-- Numbers
-- ---------------------------------------------------------------------------

theorem exact_groups (bits : Nat) (fits : UInt8 → Bool) : Exact (groups bits fits) := by
  intro w bs w' h
  obtain ⟨hsplit, hbytes⟩ := groups_eq_ok h
  obtain ⟨hencoding, hfits⟩ := Leb128.of_split_eq_ok hsplit
  obtain ⟨hspells, -, hlength⟩ := Leb128.spells_of_encoding? hencoding
  refine ⟨bs, hbytes, reads_groups fun rest => ?_, fun front hfront hne offset => ?_⟩
  · exact Leb128.split_eq_ok (hspells.encoding?_append hlength rest) hfits
  · have hshort := length_lt_of_front hfront hne
    have htruncated : Leb128.split bits fits front = .error .truncated :=
      Leb128.split_eq_truncated (hspells.encoding?_front hfront hne _) (by omega)
    refine ⟨⟨front, offset⟩, ?_⟩
    simp only [groups, get_bind, htruncated]
    rfl

theorem exact_unsigned (bits : Nat) : Exact (unsigned bits) := (exact_groups bits _).map _

theorem exact_signed (bits : Nat) : Exact (signed bits) := (exact_groups bits _).map _

theorem exact_u32 : Exact u32 := (exact_unsigned 32).map _

-- ---------------------------------------------------------------------------
-- Names
-- ---------------------------------------------------------------------------

theorem exact_name : Exact name := by
  refine exact_u32.bind fun length => Exact.of_offset (fun start => ?_) ?_
  · refine (exact_bytes _).bind fun bs => ?_
    split
    · exact Exact.pure _
    · exact Exact.throw _
  · intro start w s w' h start'
    obtain ⟨bs, v, hbs, h⟩ := bind_eq_ok_iff.mp h
    refine bind_eq_ok_iff.mpr ⟨bs, v, hbs, ?_⟩
    cases hs : String.fromUTF8? bs.toByteArray with
    | some s =>
      rw [hs] at h
      exact h
    | none =>
      rw [hs] at h
      cases h

/-- What is read of a name once its length is. -/
theorem name_of_u32 {w v : Window} {length : UInt32} (h : u32 w = .ok length v) :
    name w = (bytes length.toNat >>= fun bs =>
      (String.fromUTF8? bs.toByteArray).elim (throw (.invalidUtf8 v.offset)) pure) v := by
  rw [name, bind_eq_of_ok h]
  refine congrFun (congrArg (bytes length.toNat >>= ·) (funext fun bs => ?_)) v
  cases String.fromUTF8? bs.toByteArray <;> rfl

-- ---------------------------------------------------------------------------
-- Instructions
-- ---------------------------------------------------------------------------

theorem exact_basis : Basis fun _ r _ => Exact r where
  pure _ := Exact.pure _
  throw _ := Exact.throw _
  bind := Exact.bind
  carry h _ := h
  weaken h _ _ := h
  byte := exact_byte
  u32 := exact_u32
  signed bits _ := exact_signed bits
  word := exact_word
  ofImmediates h := by
    refine Exact.of_offset (fun start => exact_byte.bind fun b => ?_) ?_
    · split
      · exact h _
      · exact Exact.throw _
    · intro start w t w' ht start'
      obtain ⟨b, v, hb, ht⟩ := bind_eq_ok_iff.mp ht
      refine bind_eq_ok_iff.mpr ⟨b, v, hb, ?_⟩
      cases hop : Opcode.ofByte? b with
      | some op =>
        rw [hop] at ht
        exact ht
      | none =>
        rw [hop] at ht
        cases ht

theorem exact_token : Exact token := exact_basis.token

/-- Every token takes a byte, so a bound above their number is not reached. -/
theorem constInstrs_bound {bound bound' : Nat} {w : Window} (acc : List ConstInstr)
    (h : w.bytes.length < bound) (h' : w.bytes.length < bound') :
    constInstrs bound acc w = constInstrs bound' acc w := by
  induction bound generalizing bound' acc w with
  | zero => omega
  | succ bound ih =>
    cases bound' with
    | zero => omega
    | succ bound' =>
      cases ht : token w with
      | error e v => rw [constInstrs, constInstrs, bind_eq_error ht, bind_eq_error ht]
      | ok t v =>
        have htakes := takes_token ht
        simp only [constInstrs, bind, EStateM.bind, ht]
        cases t with
        | plain i =>
          dsimp only
          cases constInstr? i with
          | some c => exact ih (c :: acc) (by omega) (by omega)
          | none => rfl
        | end_ | block | loop | if_ | else_ => rfl

-- ---------------------------------------------------------------------------
-- Function bodies
-- ---------------------------------------------------------------------------

/-- What the reader returns and leaves does not depend on where the bytes
    stand. -/
def Movable (r : Reader α) : Prop :=
  ∀ ⦃w a w'⦄, r w = .ok a w' →
    ∀ offset, ∃ offset', r ⟨w.bytes, offset⟩ = .ok a ⟨w'.bytes, offset'⟩

theorem Exact.movable {r : Reader α} (h : Exact r) : Movable r := by
  intro w a w' ha offset
  obtain ⟨taken, htaken, hspans⟩ := h ha
  rw [htaken]
  exact ⟨_, hspans.reads w'.bytes offset⟩

theorem Movable.bind {r : Reader α} {f : α → Reader β} (hr : Movable r)
    (hf : ∀ a, Movable (f a)) : Movable (r >>= f) := by
  intro w b w' h offset
  obtain ⟨a, v, ha, hb⟩ := bind_eq_ok_iff.mp h
  obtain ⟨offset₁, ha'⟩ := hr ha offset
  obtain ⟨offset₂, hb'⟩ := hf a hb offset₁
  exact ⟨offset₂, bind_eq_ok_iff.mpr ⟨a, _, ha', hb'⟩⟩

theorem movable_bodyBasis : BodyBasis fun _ r _ => Movable r where
  pure _ := (Exact.pure _).movable
  throw _ := (Exact.throw _).movable
  bind := Movable.bind
  carry h _ := h
  weaken h _ _ := h
  byte := exact_byte.movable
  u32 := exact_u32.movable
  signed bits _ := (exact_signed bits).movable
  word n := (exact_word n).movable
  ofImmediates _ := exact_token.movable
  remaining := by
    intro w n w' h offset
    cases h
    exact ⟨offset, rfl⟩
  atEnd := by
    intro w ended w' h offset
    cases h
    exact ⟨offset, rfl⟩

/-- The frame of a function is taken as a whole before it is looked into, so
    of a part of it the end is found at once. -/
theorem exact_framedFunction : Exact framedFunction := by
  refine exact_u32.bind fun size => ?_
  intro w f w' h
  obtain ⟨inner, v, hframe, h⟩ := bind_eq_ok_iff.mp h
  obtain ⟨⟨g, rest⟩, v', hwithin, h⟩ := bind_eq_ok_iff.mp h
  cases h
  obtain ⟨hentry, rfl⟩ := within_eq_ok hwithin
  obtain ⟨-, hsize, hbytes⟩ := frame_eq_ok hframe
  rw [← hsize]
  refine ⟨inner.bytes, hbytes, fun rest' offset => ?_, fun front hfront hne offset => ?_⟩
  · obtain ⟨offset', hmoved⟩ := movable_bodyBasis.functionEntry hentry offset
    simp only [bind, EStateM.bind, frame_append, within, EStateM.run, hmoved]
    rfl
  · exact ⟨_, bind_eq_error (frame_short (length_lt_of_front hfront hne) offset) _⟩

-- ---------------------------------------------------------------------------
-- Sections
-- ---------------------------------------------------------------------------

theorem exact_sectionBasis : SectionBasis fun _ r _ => Exact r where
  toBasis := exact_basis
  bytes := exact_bytes
  name := exact_name
  cut _ _ _ := nofun
  ofConstInstrs h := by
    refine Exact.of_remaining (fun n => h (n + 1)) fun w n n' hn hn' => ?_
    exact constInstrs_bound [] (Nat.lt_succ_of_le hn) (Nat.lt_succ_of_le hn')
  framedFunction := exact_framedFunction

theorem movable_sectionBasis : SectionBasis fun _ r _ => Movable r where
  toBasis := movable_bodyBasis.toBasis
  bytes n := (exact_bytes n).movable
  name := exact_name.movable
  cut _ _ _ := nofun
  ofConstInstrs _ := exact_sectionBasis.constExpr.movable
  framedFunction := exact_framedFunction.movable

theorem exact_payload (d : Draft) {kind : SectionKind} (h : kind ≠ .custom) :
    Exact (payload d kind) := exact_sectionBasis.payload d h

/-- A custom section takes whatever its frame has, wherever that stands. -/
theorem movable_payload (d : Draft) (kind : SectionKind) : Movable (payload d kind) :=
  movable_sectionBasis.payload_all movable_bodyBasis.remaining d kind

end Wasm.Format.Reader
