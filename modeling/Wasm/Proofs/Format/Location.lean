import Wasm.Proofs.Format.Numbers
import Wasm.Proofs.Format.SectionSize

/-!
# Where errors point

An error that names an offset names one of the file, however deep inside
sections and functions it arose, and what stands there is what the error says.
This is kept by every reader as long as its window is a part of the file, at the
place that its offset says.
-/

namespace Wasm

namespace Leb128

variable {bits : Nat} {bytes : List UInt8}

/-- A number that overflows is no number of the width, whatever follows. -/
theorem not_encodes_of_overflow (sign : Sign) (hbits : 0 < bits)
    (h : split bits (fits sign bits) bytes = .error .overflow) {gs after : List UInt8} {n : Int}
    (hfront : gs <+: bytes ++ after) : ¬ Encodes sign bits gs n := by
  intro hencodes
  have hlimit : encoding? (maxLength bits) (bytes ++ after) = some gs :=
    encoding?_eq_some_iff.mpr ⟨hencodes.terminated, hfront, hencodes.length⟩
  -- the bytes that were looked at are all that matter
  have hinside : gs <+: bytes := by
    cases hencoding : encoding? (maxLength bits) bytes with
    | none =>
      rw [split, hencoding] at h
      have hlength : ¬ bytes.length < maxLength bits := fun hlt => by simp [hlt] at h
      exact List.prefix_of_prefix_length_le hfront (List.prefix_append _ _)
        (hencodes.length.trans (not_lt.mp hlength))
    | some groups =>
      obtain ⟨hterminated, hgroups, hlength⟩ := encoding?_eq_some_iff.mp hencoding
      have hsame := encoding?_eq_some_iff.mpr
        ⟨hterminated, hgroups.trans (List.prefix_append bytes after), hlength⟩
      rwa [Option.some.inj (hlimit.symm.trans hsame)]
  have hok := (split_eq_ok_iff sign hbits).mpr
    ⟨{ hencodes with meaning := rfl, inRange := hencodes.meaning ▸ hencodes.inRange }, hinside⟩
  rw [hok] at h
  cases h

theorem ne_nil_of_overflow {fits : UInt8 → Bool} (hbits : 0 < bits)
    (h : split bits fits bytes = .error .overflow) : bytes ≠ [] := by
  rintro rfl
  have hpos : 0 < maxLength bits := by
    unfold maxLength
    omega
  have hnone : encoding? (maxLength bits) [] = none := by
    obtain ⟨k, hk⟩ := Nat.exists_eq_succ_of_ne_zero hpos.ne'
    rw [hk, encoding?]
  simp [split, hnone, hpos] at h

end Leb128

namespace Format

open Leb128

variable {α β : Type} {file : List UInt8} {w : Window}

-- ---------------------------------------------------------------------------
-- Windows of a file
-- ---------------------------------------------------------------------------

/-- The window is a part of the file, at the place that its offset says. -/
def Window.Of (file : List UInt8) (w : Window) : Prop :=
  ∃ before after, file = before ++ (w.bytes ++ after) ∧ before.length = w.offset

namespace Window.Of

theorem drop (h : w.Of file) {n : Nat} (hn : n ≤ w.bytes.length) : (w.drop n).Of file := by
  obtain ⟨before, after, hfile, hoffset⟩ := h
  refine ⟨before ++ w.bytes.take n, after, ?_, ?_⟩
  · rw [Window.drop, List.append_assoc, ← List.append_assoc (w.bytes.take n),
      List.take_append_drop, hfile]
  · rw [List.length_append, List.length_take_of_le hn, hoffset, Window.drop]

theorem take (h : w.Of file) (n : Nat) : (w.take n).Of file := by
  obtain ⟨before, after, hfile, hoffset⟩ := h
  refine ⟨before, w.bytes.drop n ++ after, ?_, hoffset⟩
  rw [Window.take, ← List.append_assoc (w.bytes.take n), List.take_append_drop, hfile]

theorem stop_le (h : w.Of file) : w.stop ≤ file.length := by
  obtain ⟨before, after, rfl, hoffset⟩ := h
  simp only [Window.stop, List.length_append]
  omega

/-- What stands in the file at the offset of the window and behind it. -/
theorem drop_eq (h : w.Of file) : ∃ after, file.drop w.offset = w.bytes ++ after := by
  obtain ⟨before, after, rfl, hoffset⟩ := h
  exact ⟨after, List.drop_left' hoffset⟩

theorem getElem?_offset (h : w.Of file) {b : UInt8} {bs : List UInt8} (hb : w.bytes = b :: bs) :
    file[w.offset]? = some b := by
  obtain ⟨after, hdrop⟩ := h.drop_eq
  rw [← List.head?_drop, hdrop, hb, List.cons_append, List.head?_cons]

end Window.Of

-- ---------------------------------------------------------------------------
-- Errors of a file
-- ---------------------------------------------------------------------------

/-- The kinds of numbers that modules hold. -/
def numberForms : List (Sign × Nat) :=
  [(.unsigned, 32), (.signed, 32), (.signed, 33), (.signed, 64)]

/-- What the error says of an offset is so in the file. -/
def Error.PointsInto (file : List UInt8) : Error → Prop
  | unknownOpcode opcode offset =>
    file[offset]? = some opcode ∧ ∀ op, (opcode, op) ∉ Opcode.table
  | unknownSection id offset => file[offset]? = some id ∧ SectionKind.all.length ≤ id.toNat
  | numberOverflow offset =>
    offset < file.length ∧ ∃ form ∈ numberForms, ∀ gs n, gs <+: file.drop offset →
      ¬ Encodes form.1 form.2 gs n
  | invalidUtf8 offset =>
    offset < file.length ∧ ∃ before size name after,
      file = before ++ (size ++ (name ++ after)) ∧ offset = before.length + size.length ∧
      Encodes .unsigned 32 size name.length ∧ ∀ s : String, s.toUTF8.data.toList ≠ name
  | unexpectedEnd offset => offset ≤ file.length
  | sectionSize _ declared consumed => consumed ≤ declared.toNat
  | badHeader | sectionOrder _ | invalidValueType _ | malformed _ | indexOutOfRange _ _ _ => True

theorem Error.Placeless.pointsInto {e : Error} (h : e.Placeless) (file : List UInt8) :
    e.PointsInto file := by
  cases e with
  | badHeader | sectionOrder | invalidValueType | malformed | indexOutOfRange => trivial
  | unexpectedEnd | numberOverflow | invalidUtf8 | sectionSize | unknownSection | unknownOpcode =>
    exact h.elim

namespace Reader

/-- On a part of the file the reader leaves a part of the file, or fails with an
    error that points into it. -/
def Located (file : List UInt8) (r : Reader α) : Prop :=
  ∀ ⦃w⦄, w.Of file → match r w with
    | .ok _ w' => w'.Of file
    | .error e _ => e.PointsInto file

namespace Located

theorem pure (a : α) : Located file (pure a : Reader α) := fun _ hw => hw

theorem throw {e : Error} (he : e.PointsInto file) : Located file (throw e : Reader α) :=
  fun _ _ => he

theorem bind {r : Reader α} {f : α → Reader β} (hr : Located file r)
    (hf : ∀ a, Located file (f a)) : Located file (r >>= f) := by
  intro w hw
  have hfirst := hr hw
  cases h : r w with
  | ok a v =>
    rw [h] at hfirst
    rw [bind_eq_of_ok h]
    exact hf a hfirst
  | error e v =>
    rw [h] at hfirst
    rw [bind_eq_error h]
    exact hfirst

theorem map {r : Reader α} (hr : Located file r) (f : α → β) :
    Located file (do return f (← r)) :=
  hr.bind fun _ => pure _

/-- A reader that frames bytes has a part of the file to look into. -/
theorem of_frame {n : Nat} {f : Window → Reader β}
    (hf : ∀ inner : Window, inner.Of file → Located file (f inner)) :
    Located file (frame n >>= f) := by
  intro w hw
  by_cases hn : n ≤ w.bytes.length
  · rw [bind_eq_of_ok (frame_of_le hn)]
    exact hf _ (hw.take n) (hw.drop hn)
  · rw [bind_eq_error (frame_short (not_le.mp hn) w.offset)]
    exact hw.stop_le

/-- A reader that looks at one byte knows where that stands. -/
theorem of_byte {f : Nat → UInt8 → Reader β}
    (hf : ∀ start b, file[start]? = some b → Located file (f start b)) :
    Located file (offset >>= fun start => byte >>= f start) := by
  intro w hw
  obtain ⟨bytes, start⟩ := w
  cases bytes with
  | nil => exact hw.stop_le
  | cons b bs => exact hf start b (hw.getElem?_offset rfl) (hw.drop (n := 1) (by simp))

end Located

theorem located_byte : Located file byte := by
  intro w hw
  obtain ⟨bytes, start⟩ := w
  cases bytes with
  | nil => exact hw.stop_le
  | cons b bs => exact hw.drop (n := 1) (by simp)

theorem located_bytes (n : Nat) : Located file (bytes n) :=
  Located.of_frame fun _ _ => Located.pure _

theorem located_word (n : Nat) : Located file (word n) := (located_bytes n).map _

-- ---------------------------------------------------------------------------
-- Numbers and names
-- ---------------------------------------------------------------------------

theorem located_groups {sign : Sign} {bits : Nat} (hform : (sign, bits) ∈ numberForms) :
    Located file (groups bits (fits sign bits)) := by
  have hbits : 0 < bits := by
    have hall : ∀ form ∈ numberForms, 0 < form.2 := by decide
    exact hall _ hform
  intro w hw
  rw [groups_eq_split]
  cases hsplit : split bits (fits sign bits) w.bytes with
  | ok gs =>
    obtain ⟨-, hfront⟩ := (split_eq_ok_iff sign hbits).mp hsplit
    exact hw.drop hfront.length_le
  | error d =>
    cases d with
    | truncated => exact hw.stop_le
    | overflow =>
      obtain ⟨after, hdrop⟩ := hw.drop_eq
      have hne : file.drop w.offset ≠ [] := by
        rw [hdrop]
        exact List.append_ne_nil_of_left_ne_nil (ne_nil_of_overflow hbits hsplit) _
      refine ⟨not_le.mp fun hle => hne (List.drop_eq_nil_of_le hle), _, hform, ?_⟩
      intro gs n hfront
      rw [hdrop] at hfront
      exact not_encodes_of_overflow sign hbits hsplit hfront

theorem located_u32 : Located file u32 := by
  have hform : (Sign.unsigned, 32) ∈ numberForms := by decide
  exact ((located_groups hform).map _).map _

theorem located_signed {bits : Nat} (hform : (.signed, bits) ∈ numberForms) :
    Located file (signed bits) :=
  (located_groups hform).map _

theorem toUTF8_ne_of_fromUTF8? {bs : List UInt8} (h : String.fromUTF8? bs.toByteArray = none)
    (s : String) : s.toUTF8.data.toList ≠ bs := by
  rintro rfl
  have hbytes : s.toUTF8.data.toList.toByteArray = s.toUTF8 := by
    apply ByteArray.ext
    simp
  have hsome : String.fromUTF8? s.toUTF8 = some s := dif_pos s.isValidUTF8
  rw [hbytes, hsome] at h
  cases h

/-- Bytes behind a number that counts them, which are no string. -/
theorem invalidUtf8_pointsInto {w v v' : Window} {length : UInt32} {bs : List UInt8}
    (hw : w.Of file) (hlength : u32 w = .ok length v) (hbs : bytes length.toNat v = .ok bs v')
    (hnone : String.fromUTF8? bs.toByteArray = none) :
    (Error.invalidUtf8 v.offset).PointsInto file := by
  obtain ⟨size, hencodes, hbytes, hoffset⟩ := ((readsNumber_u32 w).ok_iff length v).mp hlength
  obtain ⟨inner, v₁, hframe, hpure⟩ := bind_eq_ok_iff.mp hbs
  cases hpure
  obtain ⟨-, hcount, hrest⟩ := frame_eq_ok hframe
  obtain ⟨before, after, rfl, hbefore⟩ := hw
  have hstring := toUTF8_ne_of_fromUTF8? hnone
  have hpos : 0 < inner.bytes.length :=
    List.length_pos_iff.mpr fun hnil => hstring "" (by rw [hnil]; rfl)
  refine ⟨?_, before, size, inner.bytes, v'.bytes ++ after, ?_, ?_, ?_, hstring⟩
  · rw [hoffset, ← hbefore, hbytes, hrest]
    simp only [List.length_append]
    omega
  · simp only [hbytes, hrest, List.append_assoc]
  · rw [hoffset, hbefore]
  · rw [hcount]
    exact hencodes

theorem located_name : Located file name := by
  intro w hw
  have hsize := located_u32 hw
  cases hu32 : u32 w with
  | error e v =>
    rw [hu32] at hsize
    rw [name, bind_eq_error hu32]
    exact hsize
  | ok length v =>
    rw [hu32] at hsize
    have hcontents := located_bytes length.toNat hsize
    have hname := name_of_u32 hu32
    cases hbs : bytes length.toNat v with
    | error e v' =>
      rw [hbs] at hcontents
      rw [hname, bind_eq_error hbs]
      exact hcontents
    | ok bs v' =>
      rw [hbs] at hcontents
      rw [hname, bind_eq_of_ok hbs]
      cases hutf8 : String.fromUTF8? bs.toByteArray with
      | some s => exact hcontents
      | none => exact invalidUtf8_pointsInto hw hu32 hbs hutf8

-- ---------------------------------------------------------------------------
-- Code
-- ---------------------------------------------------------------------------

theorem located_bodyBasis (file : List UInt8) : BodyBasis fun _ r _ => Located file r where
  pure _ := Located.pure _
  throw he := Located.throw (he.pointsInto file)
  bind := Located.bind
  carry h _ := h
  weaken h _ _ := h
  byte := located_byte
  u32 := located_u32
  signed bits hbits := by
    refine located_signed ?_
    revert bits
    decide
  word := located_word
  ofImmediates h := by
    refine Located.of_byte fun start b hb => ?_
    cases hop : Opcode.ofByte? b with
    | some op => exact h op
    | none =>
      refine Located.throw ⟨hb, fun op hmem => ?_⟩
      have hnone := List.lookup_eq_none_iff.mp hop (b, op) hmem
      simp at hnone
  remaining := fun _ hw => hw
  atEnd := fun _ hw => hw

theorem located_within {inner : Window} {r : Reader α} (hinner : inner.Of file)
    (hr : Located file r) : Located file (within inner r) := by
  intro w hw
  have hrun := hr hinner
  unfold within
  cases h : r.run inner with
  | ok a rest => exact hw
  | error e rest =>
    rw [EStateM.run] at h
    rw [h] at hrun
    exact hrun

theorem located_framedFunction : Located file framedFunction := by
  refine located_u32.bind fun size => Located.of_frame fun inner hinner => ?_
  exact (located_within hinner (located_bodyBasis file).functionEntry).bind fun _ => Located.pure _

-- ---------------------------------------------------------------------------
-- Sections
-- ---------------------------------------------------------------------------

theorem located_sectionBasis (file : List UInt8) : SectionBasis fun _ r _ => Located file r where
  toBasis := (located_bodyBasis file).toBasis
  bytes := located_bytes
  name := located_name
  cut _ _ _ := fun _ hw => hw.stop_le
  ofConstInstrs h := (located_bodyBasis file).remaining.bind fun n => h (n + 1)
  framedFunction := located_framedFunction

theorem located_payload (d : Draft) (kind : SectionKind) : Located file (payload d kind) :=
  (located_sectionBasis file).payload_all (located_bodyBasis file).remaining d kind

theorem located_framedPayload (d : Draft) (kind : SectionKind) (id : UInt8) (size : UInt32) :
    Located file (framedPayload d kind id size) := by
  refine Located.of_frame fun inner hinner => ?_
  have hpayload := located_payload d kind hinner
  cases h : (payload d kind).run inner with
  | ok d' rest =>
    dsimp only
    split
    · exact Located.pure _
    · exact Located.throw (Nat.sub_le _ _)
  | error e rest =>
    rw [EStateM.run] at h
    rw [h] at hpayload
    cases e with
    | unexpectedEnd offset =>
      refine Located.throw ?_
      split
      · exact Nat.le_refl _
      · exact hpayload
    | _ => exact Located.throw hpayload

theorem located_section (d : Draft) : Located file (section_ d) := by
  refine Located.of_byte fun start id hid => ?_
  cases hkind : SectionKind.ofByte? id with
  | none => exact Located.throw ⟨hid, List.getElem?_eq_none_iff.mp hkind⟩
  | some kind =>
    refine located_u32.bind fun size => ?_
    cases d.advance? kind with
    | none => exact Located.throw trivial
    | some d' =>
      refine (located_bodyBasis file).remaining.bind fun left => ?_
      split
      · rename_i hleft
        exact Located.throw (Nat.le_of_lt hleft)
      · exact located_framedPayload d' kind id size

theorem located_sections (bound : Nat) (d : Draft) : Located file (sections bound d) := by
  induction bound generalizing d with
  | zero => exact Located.pure d
  | succ bound ih =>
    refine (located_bodyBasis file).atEnd.bind fun ended => ?_
    split
    · exact Located.pure d
    · exact (located_section d).bind ih

end Reader

end Format

-- ---------------------------------------------------------------------------
-- Files
-- ---------------------------------------------------------------------------

namespace Validity

/-- The check fails only with errors that say nothing of a place. -/
def Placeless (c : Check) : Prop := ∀ e, c = .error e → e.Placeless

theorem Placeless.ok : Placeless (.ok ()) := nofun

theorem Placeless.seq {first second : Check} (h : Placeless first) (h' : Placeless second) :
    Placeless (do first; second) := by
  intro e he
  cases first with
  | ok u => exact h' e he
  | error e' => exact h e he

theorem placeless_require (holds : Bool) (reason : Format.Malformation) :
    Placeless (require holds reason) := by
  cases holds with
  | true => exact Placeless.ok
  | false =>
    rintro e ⟨⟩
    exact trivial

theorem placeless_inRange (space : IndexSpace) (index : UInt32) (count : Nat) :
    Placeless (inRange space index count) := by
  unfold inRange
  split
  · exact Placeless.ok
  · rintro e ⟨⟩
    exact trivial

theorem placeless_each {α : Type} {check : α → Check} (h : ∀ x, Placeless (check x))
    (xs : List α) : Placeless (each check xs) := by
  induction xs with
  | nil => exact Placeless.ok
  | cons x xs ih => exact (h x).seq ih

theorem placeless_memoryLimits (l : Limits) : Placeless (memoryLimits l) :=
  (placeless_require _ _).seq (placeless_require _ _)

variable (m : Module)

theorem placeless_importDesc (d : ImportDesc) : Placeless (importDesc m d) := by
  cases d with
  | func type => exact placeless_inRange _ _ _
  | table limits => exact placeless_require _ _
  | memory limits => exact placeless_memoryLimits limits
  | global type => exact Placeless.ok

theorem placeless_limits : Placeless (limits m) :=
  (placeless_require _ _).seq <| (placeless_require _ _).seq <|
    (placeless_each placeless_memoryLimits _).seq <|
      placeless_each (fun _ => placeless_require _ _) _

theorem placeless_constExpr (expected : ValueType) (visible : Nat) (e : ConstExpr) :
    Placeless (constExpr m expected visible e) := by
  unfold constExpr
  split
  · exact placeless_require _ _
  · refine (placeless_inRange _ _ _).seq ?_
    split
    · exact placeless_require _ _
    · rintro e ⟨⟩
      exact trivial
  · rintro e ⟨⟩
    exact trivial

theorem placeless_instr (locals : Nat) (i : Instr) : Placeless (instr m locals i) := by
  have hblock (type : BlockType) : Placeless (blockType m type) := by
    cases type with
    | func type => exact placeless_inRange _ _ _
    | empty | value => exact Placeless.ok
  cases i with
  | plain i =>
    cases i with
    | callIndirect => exact (placeless_inRange _ _ _).seq (placeless_inRange _ _ _)
    | globalSet => exact (placeless_inRange _ _ _).seq (placeless_require _ _)
    | call | localGet | localSet | localTee | globalGet => exact placeless_inRange _ _ _
    | load | store | memorySize | memoryGrow => exact placeless_inRange _ _ _
    | _ => exact Placeless.ok
  | block type | loop type | if_ type => exact hblock type
  | _ => exact Placeless.ok

theorem placeless_function (f : Function) : Placeless (function m f) := by
  unfold function
  split
  · rintro e ⟨⟩
    exact trivial
  · exact placeless_each (placeless_instr m _) _

theorem placeless_exportDesc (d : ExportDesc) : Placeless (exportDesc m d) := by
  cases d <;> exact placeless_inRange _ _ _

theorem placeless_start (func : UInt32) : Placeless (start m func) :=
  (placeless_inRange _ _ _).seq (placeless_require _ _)

theorem placeless_element (e : ElementSegment) : Placeless (element m e) :=
  (placeless_inRange _ _ _).seq <| (placeless_constExpr m _ _ e.offset).seq <|
    placeless_each (fun _ => placeless_inRange _ _ _) e.funcs

theorem placeless_data (d : DataSegment) : Placeless (data m d) :=
  (placeless_inRange _ _ _).seq (placeless_constExpr m _ _ d.offset)

theorem placeless_check : Placeless (check m) := by
  refine (placeless_each (fun i : Import => placeless_importDesc m i.desc) _).seq ?_
  refine (placeless_limits m).seq ?_
  refine (placeless_each (fun g : Global => placeless_constExpr m _ _ g.init) _).seq ?_
  refine (placeless_each (fun e : Export => placeless_exportDesc m e.desc) _).seq ?_
  refine (placeless_each (placeless_start m) _).seq ?_
  refine (placeless_each (placeless_element m) _).seq ?_
  refine (placeless_each (placeless_data m) _).seq ?_
  exact placeless_each (placeless_function m) _

end Validity

namespace Format

theorem Draft.finish_error {d : Draft} {e : Error} (h : d.finish = .error e) : e.Placeless := by
  unfold finish at h
  by_cases hsize : d.funcTypes.size = d.code.size
  · by_cases hcount : d.dataCount.all (·.toNat = d.module.data.size)
    · simp [hsize, hcount, pure, Except.pure] at h
    · simp [hsize, hcount, throw, throwThe, MonadExceptOf.throw, bind, Except.bind] at h
      exact h ▸ trivial
  · simp [hsize, throw, throwThe, MonadExceptOf.throw, bind, Except.bind] at h
    exact h ▸ trivial

theorem parse_error {file : List UInt8} {e : Error} (h : parse file = .error e) :
    e.PointsInto file := by
  unfold parse at h
  split at h
  · rename_i hheader
    have hbody : Window.Of file ⟨file.drop header.length, header.length⟩ :=
      ⟨header, [], by simpa [hheader] using (List.take_append_drop header.length file).symm, rfl⟩
    have hsections := Reader.located_sections (file.drop header.length).length {} hbody
    dsimp only at h
    split at h
    · exact (Draft.finish_error h).pointsInto file
    · rename_i herror
      rw [EStateM.run] at herror
      rw [herror] at hsections
      cases h
      exact hsections
  · cases h
    exact trivial

/-- Every error of a file points into it: an unknown byte is the one at its offset,
    no encoding of a number stands where one overflows, no string where one is
    malformed, an end lies within the file, and no section is found to be longer
    than it claims. -/
theorem decode_error_pointsInto {file : List UInt8} {e : Error} (h : decode file = .error e) :
    e.PointsInto file := by
  unfold decode at h
  cases hparse : parse file with
  | ok m =>
    rw [hparse] at h
    cases hcheck : Validity.check m with
    | ok u => simp [hcheck, bind, Except.bind, pure, Except.pure] at h
    | error e' =>
      simp only [hcheck, bind, Except.bind, Except.error.injEq] at h
      exact h ▸ (Validity.placeless_check m e' hcheck).pointsInto file
  | error e' =>
    rw [hparse] at h
    cases h
    exact parse_error hparse

end Format

/-- The bytes of `countdown` with one that is no opcode in the place of its
    subtraction. -/
def smudgedBytes : List UInt8 := countdownBytes.set 57 0xFF

/-- The byte stands in a function that stands in a section. -/
theorem smudged_error_pointsInto :
    Format.decode smudgedBytes = .error (.unknownOpcode 0xFF 57) ∧
      smudgedBytes[57]? = some 0xFF ∧ ∀ op, (0xFF, op) ∉ Format.Opcode.table := by
  have hdecode : Format.decode smudgedBytes = .error (.unknownOpcode 0xFF 57) := rfl
  exact ⟨hdecode, Format.decode_error_pointsInto hdecode⟩

end Wasm
