import Wasm.Proofs.Format.Exact

/-!
# Section sizes

A section states the size of its contents, although the contents show by
themselves where they end. So a wrong size cannot go unnoticed: a smaller one
cuts the contents off, and a larger one takes in bytes that they leave.
-/

namespace Wasm.Format

-- ---------------------------------------------------------------------------
-- Sections as bytes
-- ---------------------------------------------------------------------------

/-- A section as it stands in a file, with its size in any encoding. -/
structure Chunk where
  id : UInt8
  size : List UInt8
  contents : List UInt8
  sized : ∃ n : UInt32, Leb128.SpellsU32 size n ∧ n.toNat = contents.length

namespace Chunk

/-- The bytes with others in the place of the size. -/
def resized (c : Chunk) (size : List UInt8) : List UInt8 := c.id :: (size ++ c.contents)

def bytes (c : Chunk) : List UInt8 := c.resized c.size

/-- The section may come next, and its contents turn the draft into another. -/
def Adds (c : Chunk) (d d' : Draft) : Prop :=
  ∃ kind d₁, SectionKind.ofByte? c.id = some kind ∧ d.advance? kind = some d₁ ∧
    ∃ offset stop, Reader.payload d₁ kind ⟨c.contents, offset⟩ = .ok d' ⟨[], stop⟩

/-- The sections turn the draft into another one after the other. -/
def AddAll : List Chunk → Draft → Draft → Prop
  | [], d, d' => d' = d
  | c :: cs, d, d' => ∃ d₁, c.Adds d d₁ ∧ AddAll cs d₁ d'

end Chunk

namespace Reader

-- ---------------------------------------------------------------------------
-- One section
-- ---------------------------------------------------------------------------

theorem reads_spelled {size : List UInt8} {n : UInt32} (h : Leb128.SpellsU32 size n) :
    Reads u32 size n := by
  have hgroups := (reads_groups h.split).map Leb128.value
  rw [h.1.value_eq] at hgroups
  have hread := hgroups.map UInt32.ofNat
  rw [UInt32.ofNat_toNat] at hread
  exact hread

theorem u32_eq_ok {w w' : Window} {n : UInt32} (h : u32 w = .ok n w') :
    ∃ size, w.bytes = size ++ w'.bytes ∧ Leb128.SpellsU32 size n := by
  obtain ⟨k, v, hk, h⟩ := bind_eq_ok_iff.mp h
  cases h
  obtain ⟨size, v, hsize, hk⟩ := bind_eq_ok_iff.mp hk
  cases hk
  obtain ⟨hsplit, hbytes⟩ := groups_eq_ok hsize
  exact ⟨size, hbytes, Leb128.spellsU32_of_split hsplit⟩

variable {d d' : Draft} {kind : SectionKind} {n : UInt32}

theorem framedPayload_eq_ok {id : UInt8} {w w' : Window}
    (h : framedPayload d kind id n w = .ok d' w') :
    ∃ contents stop, w.bytes = contents ++ w'.bytes ∧ contents.length = n.toNat ∧
      payload d kind ⟨contents, w.offset⟩ = .ok d' ⟨[], stop⟩ := by
  obtain ⟨inner, v, hframe, h⟩ := bind_eq_ok_iff.mp h
  obtain ⟨hinner, hlength, hbytes⟩ := frame_eq_ok hframe
  cases hp : (payload d kind).run inner with
  | ok d₂ left =>
    rw [hp] at h
    dsimp only at h
    split at h
    · rename_i hempty
      cases h
      obtain ⟨bytes, stop⟩ := left
      obtain rfl : bytes = [] := List.isEmpty_iff.mp hempty
      exact ⟨inner.bytes, stop, hbytes, hlength, hinner ▸ hp⟩
    · cases h
  | error e left =>
    rw [hp] at h
    cases e <;> cases h

section

variable {front : List UInt8} {offset stop : Nat} (id : UInt8) (hn : n.toNat = front.length)
  (rest : List UInt8)

include hn

theorem framedPayload_all (hp : payload d kind ⟨front, offset⟩ = .ok d' ⟨[], stop⟩) :
    framedPayload d kind id n ⟨front ++ rest, offset⟩ = .ok d' ⟨rest, offset + front.length⟩ := by
  simp only [framedPayload, bind, EStateM.bind, EStateM.run, hn, frame_append, hp]
  rfl

/-- A frame that ends inside the contents. -/
theorem framedPayload_short {w : Window}
    (hp : payload d kind ⟨front, offset⟩ = .error (.unexpectedEnd (offset + front.length)) w) :
    framedPayload d kind id n ⟨front ++ rest, offset⟩ =
      .error (.sectionSize id n n.toNat) ⟨rest, offset + front.length⟩ := by
  simp only [framedPayload, bind, EStateM.bind, EStateM.run, hn, frame_append, hp, Window.stop,
    if_true]
  rfl

/-- A frame that ends after the contents. -/
theorem framedPayload_long {left : List UInt8} (hleft : left ≠ [])
    (hp : payload d kind ⟨front, offset⟩ = .ok d' ⟨left, stop⟩) :
    framedPayload d kind id n ⟨front ++ rest, offset⟩ =
      .error (.sectionSize id n (n.toNat - left.length)) ⟨rest, offset + front.length⟩ := by
  have hempty : left.isEmpty = false := List.isEmpty_eq_false_iff.mpr hleft
  simp only [framedPayload, bind, EStateM.bind, EStateM.run, hn, frame_append, hp, hempty]
  rfl

end

theorem framedPayload_wrongSize {contents rest : List UInt8} (id : UInt8)
    (hp : Spans (payload d kind) contents d') (hn : n.toNat ≠ contents.length)
    (hrest : n.toNat ≤ (contents ++ rest).length) (offset : Nat) :
    ∃ consumed w, framedPayload d kind id n ⟨contents ++ rest, offset⟩ =
      .error (.sectionSize id n consumed) w := by
  rcases Nat.lt_or_gt_of_ne hn with hless | hmore
  · obtain ⟨front, back, rfl, hfront⟩ : ∃ front back,
        contents = front ++ back ∧ n.toNat = front.length :=
      ⟨contents.take n.toNat, contents.drop n.toNat, (List.take_append_drop _ _).symm,
        (List.length_take_of_le (Nat.le_of_lt hless)).symm⟩
    have hne : front ≠ front ++ back := fun heq => hn (hfront.trans (congrArg List.length heq))
    obtain ⟨w, hend⟩ := hp.runsOut (List.prefix_append front back) hne offset
    rw [List.append_assoc]
    exact ⟨_, _, framedPayload_short id hfront _ hend⟩
  · obtain ⟨extra, back, rfl, hextra⟩ : ∃ extra back,
        rest = extra ++ back ∧ n.toNat = (contents ++ extra).length := by
      refine ⟨rest.take (n.toNat - contents.length), rest.drop (n.toNat - contents.length),
        (List.take_append_drop _ _).symm, ?_⟩
      rw [List.length_append] at hrest ⊢
      rw [List.length_take]
      omega
    have hne : extra ≠ [] := by
      rintro rfl
      exact hn (hextra.trans (congrArg List.length (List.append_nil contents)))
    rw [← List.append_assoc]
    exact ⟨_, _, framedPayload_long id hextra _ hne (hp.reads extra offset)⟩

theorem offset_bind_byte {β : Type} (f : Nat → UInt8 → Reader β) (b : UInt8) (bs : List UInt8)
    (start : Nat) :
    (offset >>= fun start => byte >>= fun b => f start b) ⟨b :: bs, start⟩ =
      f start b ⟨bs, start + 1⟩ := rfl

theorem remaining_bind {β : Type} (f : Nat → Reader β) (w : Window) :
    (remaining >>= f) w = f w.bytes.length w := rfl

/-- What is read of a section once its id and size are. -/
theorem section_spelled (d : Draft) (id : UInt8) {size : List UInt8}
    (hsize : Leb128.SpellsU32 size n) (rest : List UInt8) (offset : Nat) :
    section_ d ⟨id :: (size ++ rest), offset⟩ =
      match SectionKind.ofByte? id with
      | none => .error (.unknownSection id offset) ⟨size ++ rest, offset + 1⟩
      | some kind => match d.advance? kind with
        | none => .error (.sectionOrder id) ⟨rest, offset + 1 + size.length⟩
        | some d =>
          if rest.length < n.toNat then
            .error (.sectionSize id n rest.length) ⟨rest, offset + 1 + size.length⟩
          else framedPayload d kind id n ⟨rest, offset + 1 + size.length⟩ := by
  have hread := reads_spelled hsize rest (offset + 1)
  rw [section_, offset_bind_byte]
  cases SectionKind.ofByte? id with
  | none => rfl
  | some kind =>
    dsimp only
    rw [bind_eq_of_ok hread]
    cases d.advance? kind with
    | none => rfl
    | some d =>
      dsimp only
      rw [remaining_bind]
      split <;> rfl

end Reader

theorem SectionKind.eq_zero_of_custom {id : UInt8} (h : ofByte? id = some .custom) : id = 0 := by
  have hzero : all[0]? = all[id.toNat]? := h.symm
  have hlength : 0 < all.length := by decide
  have hnodup : all.Nodup := by decide
  exact UInt8.toNat_inj.mp ((List.getElem?_inj hlength hnodup).mp hzero).symm

namespace Chunk

open Reader

variable {c : Chunk} {d d' : Draft}

theorem resized_append (c : Chunk) (size rest : List UInt8) :
    c.resized size ++ rest = c.id :: (size ++ (c.contents ++ rest)) := by
  rw [resized, List.cons_append, List.append_assoc]

theorem adds_of_section {rest : List UInt8} {offset : Nat} {w : Window}
    (h : section_ d ⟨c.bytes ++ rest, offset⟩ = .ok d' w) : c.Adds d d' := by
  obtain ⟨n, hsize, hn⟩ := c.sized
  rw [bytes, resized_append, section_spelled d c.id hsize] at h
  split at h
  · cases h
  rename_i kind hkind
  split at h
  · cases h
  rename_i d₁ hadvance
  split at h
  · cases h
  obtain ⟨contents, stop, hcontents, hlength, hp⟩ := framedPayload_eq_ok h
  obtain ⟨rfl, -⟩ := List.append_inj hcontents (hlength.trans hn).symm
  exact ⟨kind, d₁, hkind, hadvance, _, stop, hp⟩

theorem Adds.reads (h : c.Adds d d') : Reads (section_ d) c.bytes d' := by
  obtain ⟨kind, d₁, hkind, hadvance, start, stop, hp⟩ := h
  obtain ⟨n, hsize, hn⟩ := c.sized
  intro rest offset
  obtain ⟨stop', hp'⟩ := movable_payload d₁ kind hp (offset + 1 + c.size.length)
  have hfits : ¬ (c.contents ++ rest).length < n.toNat := by
    rw [List.length_append]
    omega
  rw [bytes, resized_append, section_spelled d c.id hsize, hkind]
  simp only [hadvance, if_neg hfits]
  rw [framedPayload_all c.id hn rest hp', resized, List.length_cons, List.length_append]
  congr 2
  omega

theorem Adds.wrongSize (h : c.Adds d d') (hid : c.id ≠ 0) {size : List UInt8} {n : UInt32}
    (hsize : Leb128.SpellsU32 size n) (hn : n.toNat ≠ c.contents.length) (rest : List UInt8)
    (offset : Nat) :
    ∃ consumed w, section_ d ⟨c.resized size ++ rest, offset⟩ =
      .error (.sectionSize c.id n consumed) w := by
  obtain ⟨kind, d₁, hkind, hadvance, start, stop, hp⟩ := h
  have hcustom : kind ≠ .custom := by
    rintro rfl
    exact hid (SectionKind.eq_zero_of_custom hkind)
  have hspans := (exact_payload d₁ hcustom).spans hp (List.append_nil _).symm
  rw [resized_append, section_spelled d c.id hsize, hkind]
  simp only [hadvance]
  split
  · exact ⟨_, _, rfl⟩
  · rename_i hrest
    exact framedPayload_wrongSize c.id hspans hn (Nat.not_lt.mp hrest) _

/-- Every section that is read stands in the file as a chunk. -/
theorem exists_of_section {w w' : Window} (h : section_ d w = .ok d' w') :
    ∃ c : Chunk, w.bytes = c.bytes ++ w'.bytes := by
  obtain ⟨bytes, offset⟩ := w
  cases bytes with
  | nil => cases h
  | cons id rest =>
    obtain ⟨size, tail, n, rfl, hsize⟩ : ∃ size tail n,
        rest = size ++ tail ∧ Leb128.SpellsU32 size n := by
      rw [section_, offset_bind_byte] at h
      cases hkind : SectionKind.ofByte? id with
      | none =>
        rw [hkind] at h
        cases h
      | some kind =>
        rw [hkind] at h
        obtain ⟨n, v, hn, -⟩ := bind_eq_ok_iff.mp h
        obtain ⟨size, hrest, hsize⟩ := u32_eq_ok hn
        exact ⟨size, v.bytes, n, hrest, hsize⟩
    rw [section_spelled d id hsize] at h
    split at h
    · cases h
    split at h
    · cases h
    split at h
    · cases h
    obtain ⟨contents, stop, hcontents, hlength, -⟩ := framedPayload_eq_ok h
    obtain rfl : tail = contents ++ w'.bytes := hcontents
    refine ⟨⟨id, size, contents, n, hsize, hlength.symm⟩, ?_⟩
    rw [Chunk.bytes, resized_append]

-- ---------------------------------------------------------------------------
-- Sections in a row
-- ---------------------------------------------------------------------------

theorem sections_cons (bound : Nat) (d : Draft) (b : UInt8) (bs : List UInt8) (offset : Nat) :
    sections (bound + 1) d ⟨b :: bs, offset⟩ =
      (section_ d >>= sections bound) ⟨b :: bs, offset⟩ := rfl

theorem addAll_append {before after : List Chunk} :
    AddAll (before ++ after) d d' ↔ ∃ d₁, AddAll before d d₁ ∧ AddAll after d₁ d' := by
  induction before generalizing d with
  | nil => simp [AddAll]
  | cons b before ih =>
    simp only [List.cons_append, AddAll, ih]
    constructor
    · rintro ⟨d₁, hb, d₂, hbefore, hafter⟩
      exact ⟨d₂, ⟨d₁, hb, hbefore⟩, hafter⟩
    · rintro ⟨d₂, ⟨d₁, hb, hbefore⟩, hafter⟩
      exact ⟨d₁, hb, d₂, hbefore, hafter⟩

theorem addAll_concat {before : List Chunk} :
    AddAll (before ++ [c]) d d' ↔ ∃ d₁, AddAll before d d₁ ∧ c.Adds d₁ d' := by
  simp [addAll_append, AddAll]

/-- Sections that can be read are read first, whatever follows them. -/
theorem AddAll.sections_append {before : List Chunk} (h : AddAll before d d') {bound : Nat}
    {rest : List UInt8} (hbound : (before.flatMap bytes ++ rest).length ≤ bound) (offset : Nat) :
    ∃ bound' offset', rest.length ≤ bound' ∧
      sections bound d ⟨before.flatMap bytes ++ rest, offset⟩ =
        sections bound' d' ⟨rest, offset'⟩ := by
  induction before generalizing d bound offset with
  | nil =>
    obtain rfl := h
    exact ⟨bound, offset, hbound, rfl⟩
  | cons c before ih =>
    obtain ⟨d₁, hc, hbefore⟩ := h
    rw [List.flatMap_cons, List.append_assoc, bytes, resized_append] at hbound ⊢
    cases bound with
    | zero => exact absurd hbound (Nat.not_succ_le_zero _)
    | succ bound =>
      have hread := hc.reads (before.flatMap bytes ++ rest) offset
      rw [bytes, resized_append] at hread
      rw [sections_cons, bind_eq_of_ok hread]
      refine ih hbefore ?_ _
      simp only [List.length_cons, List.length_append] at hbound ⊢
      omega

theorem AddAll.wrongSize {before : List Chunk} {d₁ : Draft} (h : AddAll before d d₁)
    (hc : c.Adds d₁ d') (hid : c.id ≠ 0) {size : List UInt8} {n : UInt32}
    (hsize : Leb128.SpellsU32 size n) (hn : n.toNat ≠ c.contents.length) (rest : List UInt8)
    (offset : Nat) :
    ∃ consumed w,
      sections (before.flatMap bytes ++ (c.resized size ++ rest)).length d
        ⟨before.flatMap bytes ++ (c.resized size ++ rest), offset⟩ =
      .error (.sectionSize c.id n consumed) w := by
  obtain ⟨bound, offset', hbound, hsections⟩ :=
    h.sections_append (Nat.le_refl (before.flatMap bytes ++ (c.resized size ++ rest)).length) offset
  obtain ⟨consumed, w, hsection⟩ := hc.wrongSize hid hsize hn rest offset'
  refine ⟨consumed, w, hsections.trans ?_⟩
  rw [resized_append] at hbound hsection ⊢
  cases bound with
  | zero => exact absurd hbound (Nat.not_succ_le_zero _)
  | succ bound => rw [sections_cons, bind_eq_error hsection]

theorem addAll_of_sections {chunks : List Chunk} {bound offset : Nat} {rest : List UInt8}
    {w : Window} (hbound : (chunks.flatMap bytes ++ rest).length ≤ bound)
    (h : sections bound d ⟨chunks.flatMap bytes ++ rest, offset⟩ = .ok d' w) :
    ∃ d₁, AddAll chunks d d₁ := by
  induction chunks generalizing d bound offset with
  | nil => exact ⟨d, rfl⟩
  | cons c chunks ih =>
    rw [List.flatMap_cons, List.append_assoc, bytes, resized_append] at hbound h
    cases bound with
    | zero => exact absurd hbound (Nat.not_succ_le_zero _)
    | succ bound =>
      rw [sections_cons] at h
      obtain ⟨d₁, v, hsection, h⟩ := bind_eq_ok_iff.mp h
      rw [← resized_append] at hsection
      have hc : c.Adds d d₁ := adds_of_section hsection
      have hread := hc.reads (chunks.flatMap bytes ++ rest) offset
      obtain ⟨-, rfl⟩ := EStateM.Result.ok.inj (hread.symm.trans hsection)
      have hlength : (chunks.flatMap bytes ++ rest).length ≤ bound := by
        simp only [List.length_cons, List.length_append] at hbound ⊢
        omega
      obtain ⟨d₂, hchunks⟩ := ih hlength h
      exact ⟨d₂, d₁, hc, hchunks⟩

theorem exists_of_sections {bound : Nat} {w w' : Window} (hbound : w.bytes.length ≤ bound)
    (h : sections bound d w = .ok d' w') :
    ∃ chunks : List Chunk, w.bytes = chunks.flatMap bytes := by
  induction bound generalizing d w with
  | zero => exact ⟨[], List.length_eq_zero_iff.mp (Nat.le_zero.mp hbound)⟩
  | succ bound ih =>
    obtain ⟨bs, offset⟩ := w
    cases bs with
    | nil => exact ⟨[], rfl⟩
    | cons b bs =>
      rw [sections_cons] at h
      obtain ⟨d₁, v, hsection, h⟩ := bind_eq_ok_iff.mp h
      obtain ⟨c, hc⟩ := exists_of_section hsection
      have hlength : v.bytes.length ≤ bound := by
        have hsum := congrArg List.length hc
        simp only [bytes, resized, List.length_cons, List.length_append] at hsum hbound
        omega
      obtain ⟨chunks, hchunks⟩ := ih hlength h
      exact ⟨c :: chunks, by rw [hc, hchunks, List.flatMap_cons]⟩

end Chunk

-- ---------------------------------------------------------------------------
-- Files
-- ---------------------------------------------------------------------------

theorem parse_header (body : List UInt8) :
    parse (header ++ body) =
      match Reader.sections body.length {} ⟨body, header.length⟩ with
      | .ok d _ => d.finish
      | .error e _ => .error e := by
  rw [parse, if_pos List.take_left, List.drop_left]
  rfl

theorem sections_of_decode {bytes : List UInt8} {m : Module} (h : decode bytes = .ok m) :
    ∃ body d w, bytes = header ++ body ∧
      Reader.sections body.length {} ⟨body, header.length⟩ = .ok d w := by
  obtain ⟨hparse, -⟩ := decode_eq_ok_iff.mp h
  by_cases hheader : bytes.take header.length = header
  · have hbytes : bytes = header ++ bytes.drop header.length := by
      have hsplit := (List.take_append_drop header.length bytes).symm
      rwa [hheader] at hsplit
    generalize bytes.drop header.length = body at hbytes
    rw [hbytes, parse_header] at hparse
    split at hparse
    · rename_i d w hsections
      exact ⟨body, d, w, hbytes, hsections⟩
    · cases hparse
  · rw [parse, if_neg hheader] at hparse
    cases hparse

theorem decode_eq_error {body : List UInt8} {e : Error} {w : Window}
    (h : Reader.sections body.length {} ⟨body, header.length⟩ = .error e w) :
    decode (header ++ body) = .error e := by
  rw [decode, parse_header, h]
  rfl

/-- Contents that are read as a whole run out if they are cut, and leave what
    is put after them. So a section of a file that can be read, custom ones
    apart, cannot have another size, in whatever encoding. -/
theorem section_size_detected :
    (∀ (d d' : Draft) (kind : SectionKind) (bytes : List UInt8) (offset stop : Nat),
      kind ≠ .custom → Reader.payload d kind ⟨bytes, offset⟩ = .ok d' ⟨[], stop⟩ →
        Reader.RunsOut (Reader.payload d kind) bytes ∧
        Reader.Reads (Reader.payload d kind) bytes d') ∧
    ∀ (bytes : List UInt8) (m : Module), decode bytes = .ok m →
      (∃ chunks : List Chunk, bytes = header ++ chunks.flatMap Chunk.bytes) ∧
      ∀ (before : List Chunk) (c : Chunk) (after size : List UInt8) (n : UInt32),
        bytes = header ++ (before.flatMap Chunk.bytes ++ (c.bytes ++ after)) → c.id ≠ 0 →
        Leb128.SpellsU32 size n → n.toNat ≠ c.contents.length →
          ∃ consumed,
            decode (header ++ (before.flatMap Chunk.bytes ++ (c.resized size ++ after))) =
              .error (.sectionSize c.id n consumed) := by
  refine ⟨fun d d' kind bytes offset stop hkind hp => ?_, fun bytes m hm => ?_⟩
  · have hspans := (Reader.exact_payload d hkind).spans hp (List.append_nil _).symm
    exact ⟨hspans.runsOut, hspans.reads⟩
  · obtain ⟨body, d, w, rfl, hsections⟩ := sections_of_decode hm
    constructor
    · obtain ⟨chunks, hchunks⟩ :=
        Chunk.exists_of_sections (w := ⟨body, header.length⟩) (Nat.le_refl _) hsections
      exact ⟨chunks, congrArg _ hchunks⟩
    · intro before c after size n hbody hid hsize hn
      obtain rfl := List.append_cancel_left hbody
      have hchunks : before.flatMap Chunk.bytes ++ (c.bytes ++ after) =
          (before ++ [c]).flatMap Chunk.bytes ++ after := by
        simp only [List.flatMap_append, List.flatMap_singleton, List.append_assoc]
      rw [hchunks] at hsections
      obtain ⟨d₂, hadds⟩ := Chunk.addAll_of_sections (Nat.le_refl _) hsections
      obtain ⟨d₁, hbefore, hc⟩ := Chunk.addAll_concat.mp hadds
      obtain ⟨consumed, w', herror⟩ := hbefore.wrongSize hc hid hsize hn after header.length
      exact ⟨consumed, decode_eq_error herror⟩

end Wasm.Format

namespace Wasm

open Format

def countdownTypes : Chunk where
  id := 0x01
  size := [0x05]
  contents := [0x01, 0x60, 0x01, 0x7F, 0x00]
  sized := ⟨5, ⟨.last (by decide), by decide⟩, rfl⟩

def countdownImports : Chunk where
  id := 0x02
  size := [0x0C]
  contents := [0x01, 0x03, 0x65, 0x6E, 0x76, 0x04, 0x74, 0x69, 0x63, 0x6B, 0x00, 0x00]
  sized := ⟨12, ⟨.last (by decide), by decide⟩, rfl⟩

/-- The size of the imports, 12, is written as 13 in two bytes. -/
theorem countdown_section_size_detected :
    Reader.RunsOut (Reader.payload {} .type) countdownTypes.contents ∧
      decode countdownBytes = .ok countdown ∧
      countdownBytes = header ++ ([countdownTypes].flatMap Chunk.bytes ++
        (countdownImports.bytes ++ countdownBytes.drop 29)) ∧
      ∃ consumed, decode (header ++ ([countdownTypes].flatMap Chunk.bytes ++
        (countdownImports.resized [0x8D, 0x00] ++ countdownBytes.drop 29))) =
          .error (.sectionSize 0x02 13 consumed) := by
  have htypes : Reader.payload {} .type ⟨countdownTypes.contents, 0⟩ =
      .ok { module.types := #[{ params := [.i32] }] } ⟨[], 5⟩ := rfl
  have hsize : Leb128.SpellsU32 [0x8D, 0x00] 13 :=
    ⟨.more (by decide) (.last (by decide)), by decide⟩
  have hfile := section_size_detected.2 countdownBytes countdown decode_countdown
  refine ⟨(section_size_detected.1 _ _ _ _ _ _ (by decide) htypes).1, decode_countdown, rfl, ?_⟩
  exact hfile.2 [countdownTypes] countdownImports _ _ 13 rfl (by decide) hsize (by decide)

end Wasm
