import Wasm.Proofs.Format.SectionSize

/-!
# Custom sections

A file can be read exactly if it is a header and a row of sections each of which
adds to what those before it gave. How a row of sections is told apart does not
depend on what they hold, and a custom section adds nothing. So one may be put
in or taken out between any two sections, and the module stays the same.
-/

namespace Wasm

open Format.Reader

namespace Format

-- ---------------------------------------------------------------------------
-- Rows of sections
-- ---------------------------------------------------------------------------

namespace Chunk

variable {d d' : Draft}

theorem sections_nil (bound : Nat) (d : Draft) (offset : Nat) :
    sections bound d ⟨[], offset⟩ = .ok d ⟨[], offset⟩ := by
  cases bound <;> rfl

/-- Reading sections up to the end is adding up those that the bytes are. -/
theorem sections_eq_ok_iff {bytes : List UInt8} {bound : Nat} (hbound : bytes.length ≤ bound)
    (offset : Nat) :
    (∃ w, sections bound d ⟨bytes, offset⟩ = .ok d' w) ↔
      ∃ chunks : List Chunk, bytes = chunks.flatMap Chunk.bytes ∧ AddAll chunks d d' := by
  have hread : ∀ {chunks : List Chunk} {d₁ : Draft}, AddAll chunks d d₁ →
      bytes = chunks.flatMap Chunk.bytes →
      ∃ offset', sections bound d ⟨bytes, offset⟩ = .ok d₁ ⟨[], offset'⟩ := by
    rintro chunks d₁ hadds rfl
    have hlength : (chunks.flatMap Chunk.bytes ++ []).length ≤ bound := by
      rwa [List.append_nil]
    obtain ⟨bound', offset', -, hsections⟩ := hadds.sections_append hlength offset
    rw [List.append_nil, sections_nil] at hsections
    exact ⟨offset', hsections⟩
  constructor
  · rintro ⟨w, h⟩
    obtain ⟨chunks, hchunks⟩ := exists_of_sections (w := ⟨bytes, offset⟩) hbound h
    have hrow : bytes = chunks.flatMap Chunk.bytes ++ [] := by rwa [List.append_nil]
    rw [hrow] at h hbound
    obtain ⟨d₁, hadds⟩ := addAll_of_sections hbound h
    rw [← hrow] at h
    obtain ⟨offset', hsections⟩ := hread hadds hchunks
    obtain ⟨rfl, -⟩ := EStateM.Result.ok.inj (h.symm.trans hsections)
    exact ⟨chunks, hchunks, hadds⟩
  · rintro ⟨chunks, hchunks, hadds⟩
    obtain ⟨offset', hsections⟩ := hread hadds hchunks
    exact ⟨_, hsections⟩

end Chunk

theorem decode_header_eq_ok_iff {body : List UInt8} {m : Module} :
    decode (header ++ body) = .ok m ↔
      ∃ (chunks : List Chunk) (d : Draft), body = chunks.flatMap Chunk.bytes ∧
        Chunk.AddAll chunks {} d ∧ d.finish = .ok m ∧ Validity.check m = .ok () := by
  rw [decode_eq_ok_iff, parse_header]
  constructor
  · rintro ⟨hparse, hvalid⟩
    split at hparse
    · rename_i d w hsections
      obtain ⟨chunks, hbody, hadds⟩ :=
        (Chunk.sections_eq_ok_iff (Nat.le_refl _) _).mp ⟨w, hsections⟩
      exact ⟨chunks, d, hbody, hadds, hparse, hvalid⟩
    · cases hparse
  · rintro ⟨chunks, d, hbody, hadds, hfinish, hvalid⟩
    obtain ⟨w, hsections⟩ :=
      (Chunk.sections_eq_ok_iff (Nat.le_refl body.length) header.length).mpr
        ⟨chunks, hbody, hadds⟩
    rw [hsections]
    exact ⟨hfinish, hvalid⟩

end Format

-- ---------------------------------------------------------------------------
-- Framing
-- ---------------------------------------------------------------------------

/-- Of two encodings in front of the same bytes neither is longer. -/
theorem Leb128.Spells.eq_of_append {bs bs' rest rest' : List UInt8} {n n' : Nat}
    (h : Spells bs n) (h' : Spells bs' n') (heq : bs ++ rest = bs' ++ rest') :
    bs = bs' ∧ n = n' := by
  have hfirst := h.encoding?_append (Nat.le_add_right bs.length bs'.length) rest
  have hsecond := h'.encoding?_append (Nat.le_add_left bs'.length bs.length) rest'
  rw [heq, hsecond] at hfirst
  obtain rfl : bs' = bs := Option.some.inj hfirst
  exact ⟨rfl, h.value_eq.symm.trans h'.value_eq⟩

namespace Format

/-- An id, a size and so many bytes. The id may be of no section, the bytes need
    not be what it asks for, and the size may have more groups than are read. -/
structure Framed where
  id : UInt8
  size : List UInt8
  contents : List UInt8
  sized : Leb128.Spells size contents.length

def Framed.bytes (f : Framed) : List UInt8 := f.id :: (f.size ++ f.contents)

namespace Chunk

/-- A row of sections that begins with what is framed has that as its first. -/
theorem exists_of_framed_append {chunks : List Chunk} {f : Framed} {rest : List UInt8}
    (h : chunks.flatMap bytes = f.bytes ++ rest) :
    ∃ c cs, chunks = c :: cs ∧ c.bytes = f.bytes ∧ cs.flatMap bytes = rest := by
  cases chunks with
  | nil => cases h
  | cons c cs =>
    obtain ⟨n, hsize, hn⟩ := c.sized
    rw [List.flatMap_cons, bytes, resized_append, Framed.bytes, List.cons_append,
      List.append_assoc] at h
    obtain ⟨hid, htail⟩ := List.cons.inj h
    obtain ⟨hsizes, hlength⟩ := hsize.1.eq_of_append f.sized htail
    rw [hsizes, List.append_cancel_left_eq] at htail
    obtain ⟨hcontents, hrest⟩ := List.append_inj htail (hn.symm.trans hlength)
    refine ⟨c, cs, rfl, ?_, hrest⟩
    rw [bytes, resized, Framed.bytes, hid, hsizes, hcontents]

theorem exists_of_framed_row_append {chunks : List Chunk} {before : List Framed}
    {rest : List UInt8} (h : chunks.flatMap bytes = before.flatMap Framed.bytes ++ rest) :
    ∃ front back, chunks = front ++ back ∧ front.flatMap bytes = before.flatMap Framed.bytes ∧
      back.flatMap bytes = rest := by
  induction before generalizing chunks with
  | nil => exact ⟨[], chunks, rfl, rfl, h⟩
  | cons f before ih =>
    rw [List.flatMap_cons, List.append_assoc] at h
    obtain ⟨c, cs, rfl, hc, hcs⟩ := exists_of_framed_append h
    obtain ⟨front, back, rfl, hfront, hback⟩ := ih hcs
    refine ⟨c :: front, back, rfl, ?_, hback⟩
    rw [List.flatMap_cons, List.flatMap_cons, hc, hfront]

end Chunk

-- ---------------------------------------------------------------------------
-- Custom sections
-- ---------------------------------------------------------------------------

/-- A section with id zero that holds a name, whose length may be in any
    encoding, and whatever else. -/
structure CustomSection extends Chunk where
  id_eq : id = 0
  named : ∃ (length : List UInt8) (n : UInt32) (name : String) (rest : List UInt8),
    contents = length ++ name.toUTF8.data.toList ++ rest ∧
      Leb128.SpellsU32 length n ∧ n.toNat = name.toUTF8.data.toList.length

namespace CustomSection

def framed (c : CustomSection) : Framed where
  id := c.id
  size := c.size
  contents := c.contents
  sized := by
    obtain ⟨n, hsize, hn⟩ := c.sized
    exact hn ▸ hsize.1

theorem payload_custom (c : CustomSection) (d : Draft) (offset : Nat) :
    ∃ stop, payload d .custom ⟨c.contents, offset⟩ = .ok d ⟨[], stop⟩ := by
  obtain ⟨length, n, name, rest, hcontents, hlength, hn⟩ := c.named
  have hname := (reads_spelled hlength).name hn rest offset
  have hrest := reads_bytes rest [] (offset + (length ++ name.toUTF8.data.toList).length)
  rw [List.append_nil] at hrest
  rw [payload, hcontents, bind_eq_of_ok hname, remaining_bind, bind_eq_of_ok hrest]
  exact ⟨_, rfl⟩

/-- A custom section may come anywhere and changes nothing. -/
theorem adds (c : CustomSection) (d : Draft) : c.toChunk.Adds d d := by
  obtain ⟨stop, hpayload⟩ := c.payload_custom d 0
  exact ⟨.custom, d, by rw [c.id_eq]; rfl, rfl, 0, stop, hpayload⟩

end CustomSection

/-- Whatever has the bytes of a custom section adds nothing. -/
theorem Chunk.Adds.eq_of_custom {c : Chunk} {d d' : Draft} (h : c.Adds d d') (hid : c.id = 0) :
    d' = d := by
  obtain ⟨kind, d₁, hkind, hadvance, offset, stop, hpayload⟩ := h
  obtain rfl : kind = .custom := by
    rw [hid] at hkind
    exact (Option.some.inj hkind).symm
  obtain rfl : d = d₁ := Option.some.inj hadvance
  obtain ⟨name, v, -, hpayload⟩ := bind_eq_ok_iff.mp hpayload
  rw [remaining_bind] at hpayload
  obtain ⟨bytes, v', -, hpayload⟩ := bind_eq_ok_iff.mp hpayload
  cases hpayload
  rfl

/-- A custom section is invisible wherever it stands between sections: behind
    the last of any that are framed, and in front of any bytes. -/
theorem decode_custom_inserted (before : List Framed) (c : CustomSection) (after : List UInt8)
    (m : Module) :
    decode (header ++ (before.flatMap Framed.bytes ++ (c.bytes ++ after))) = .ok m ↔
      decode (header ++ (before.flatMap Framed.bytes ++ after)) = .ok m := by
  simp only [decode_header_eq_ok_iff]
  constructor
  · rintro ⟨chunks, d, hbody, hadds, hmodule⟩
    obtain ⟨front, back, rfl, hfront, hback⟩ := Chunk.exists_of_framed_row_append hbody.symm
    obtain ⟨c', after', rfl, hc', rfl⟩ := Chunk.exists_of_framed_append (f := c.framed) hback
    have hid : c'.id = 0 := (List.cons.inj hc').1.trans c.id_eq
    obtain ⟨d₁, hbefore, d₂, hcustom, hafter⟩ := Chunk.addAll_append.mp hadds
    obtain rfl : d₂ = d₁ := hcustom.eq_of_custom hid
    refine ⟨front ++ after', d, ?_, Chunk.addAll_append.mpr ⟨d₂, hbefore, hafter⟩, hmodule⟩
    rw [List.flatMap_append, hfront]
  · rintro ⟨chunks, d, hbody, hadds, hmodule⟩
    obtain ⟨front, back, rfl, hfront, rfl⟩ := Chunk.exists_of_framed_row_append hbody.symm
    obtain ⟨d₁, hbefore, hafter⟩ := Chunk.addAll_append.mp hadds
    have hinserted : Chunk.AddAll (front ++ c.toChunk :: back) {} d :=
      Chunk.addAll_append.mpr ⟨d₁, hbefore, d₁, c.adds d₁, hafter⟩
    refine ⟨front ++ c.toChunk :: back, d, ?_, hinserted, hmodule⟩
    rw [List.flatMap_append, List.flatMap_cons, hfront]

end Format

/-- A name section that is cut off behind the name and says nothing. -/
def emptyNames : Format.CustomSection where
  id := 0
  size := [0x05]
  contents := [0x04, 0x6E, 0x61, 0x6D, 0x65]
  sized := ⟨5, ⟨.last (by decide), by decide⟩, rfl⟩
  id_eq := rfl
  named := ⟨[0x04], 4, "name", [], rfl, ⟨.last (by decide), by decide⟩, rfl⟩

example : (Format.decode (Format.header ++ (countdownTypes.bytes ++
    (emptyNames.bytes ++ countdownBytes.drop 15)))).toOption = some countdown := by decide +kernel

end Wasm
