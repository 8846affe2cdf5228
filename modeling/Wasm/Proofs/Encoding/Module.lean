import Wasm.Proofs.Encoding.Section
import Wasm.Proofs.Format.Decoded

/-!
# Encoded modules

A module is written as its sections in their order, without those that would
be empty. The main result is that reading the bytes of a valid module gives
the module back.
-/

namespace Wasm

namespace Format

-- ---------------------------------------------------------------------------
-- Sections
-- ---------------------------------------------------------------------------

def SectionKind.id : SectionKind → UInt8
  | custom => 0
  | type => 1
  | import_ => 2
  | function => 3
  | table => 4
  | memory => 5
  | global => 6
  | export_ => 7
  | start => 8
  | element => 9
  | code => 10
  | data => 11
  | dataCount => 12

theorem SectionKind.ofByte?_id (kind : SectionKind) : ofByte? kind.id = some kind := by
  cases kind <;> rfl

/-- The kinds that have a place, in their order. -/
def SectionKind.ordered : List SectionKind :=
  [type, import_, function, table, memory, global, export_, start, element, dataCount, code, data]

structure Section where
  kind : SectionKind
  payload : List UInt8

def Section.encode (s : Section) : List UInt8 :=
  s.kind.id :: (Leb128.encode s.payload.length ++ s.payload)

/-- A vector that is left out if it is empty. -/
def encodeVector? {α : Type} (encode : α → List UInt8) (xs : List α) : Option (List UInt8) :=
  if xs.isEmpty then none else some (encodeVector encode xs)

theorem encodeVector?_eq_some {α : Type} {encode : α → List UInt8} {xs : List α}
    {bytes : List UInt8} (h : encodeVector? encode xs = some bytes) :
    encodeVector encode xs = bytes := by
  unfold encodeVector? at h
  split at h
  · cases h
  · exact Option.some.inj h

theorem encodeVector?_eq_none {α : Type} {encode : α → List UInt8} {xs : List α}
    (h : encodeVector? encode xs = none) : xs = [] := by
  unfold encodeVector? at h
  split at h
  · rename_i hempty
    exact List.isEmpty_iff.mp hempty
  · cases h

end Format

theorem FuncType.encode_ne_nil (t : FuncType) : t.encode ≠ [] := List.cons_ne_nil _ _

theorem Limits.encode_ne_nil (l : Limits) : l.encode ≠ [] := by
  unfold Limits.encode
  split <;> exact List.cons_ne_nil _ _

theorem Import.encode_ne_nil (i : Import) : i.encode ≠ [] :=
  List.append_ne_nil_of_left_ne_nil (Format.encodeName_ne_nil _) _

theorem Export.encode_ne_nil (e : Export) : e.encode ≠ [] :=
  List.append_ne_nil_of_left_ne_nil (Format.encodeName_ne_nil _) _

theorem ElementSegment.encode_ne_nil (named : Bool) (e : ElementSegment) : e.encode named ≠ [] := by
  unfold ElementSegment.encode
  split <;> exact List.append_ne_nil_of_left_ne_nil (Leb128.encode_ne_nil _) _

theorem DataSegment.encode_ne_nil (named : Bool) (d : DataSegment) : d.encode named ≠ [] := by
  refine List.append_ne_nil_of_left_ne_nil ?_ _
  split
  · exact Leb128.encode_ne_nil _
  · exact List.append_ne_nil_of_left_ne_nil (Leb128.encode_ne_nil _) _

theorem Function.encode_ne_nil (f : Function) : f.encode ≠ [] :=
  List.append_ne_nil_of_left_ne_nil (Leb128.encode_ne_nil _) _

/-- The segments that name their table or memory although it is the one of
    index 0, by their places. -/
structure SegmentForms where
  element : Nat → Bool := fun _ => false
  data : Nat → Bool := fun _ => false

namespace Module

open Format

/-- The contents of a section, if the module has it. -/
def payload? (forms : SegmentForms) (m : Module) : SectionKind → Option (List UInt8)
  | .custom | .dataCount => none
  | .type => encodeVector? FuncType.encode m.types.toList
  | .import_ => encodeVector? Import.encode m.imports.toList
  | .function => encodeVector? (fun f => Leb128.encode f.type.toNat) m.functions.toList
  | .table => encodeVector? Limits.encodeTable m.tables.toList
  | .memory => encodeVector? Limits.encode m.memories.toList
  | .global => encodeVector? Global.encode m.globals.toList
  | .export_ => encodeVector? Export.encode m.exports.toList
  | .start => m.start.map fun func => Leb128.encode func.toNat
  | .element => encodeVector? (fun (e, i) => e.encode (forms.element i)) m.elements.toList.zipIdx
  | .code => encodeVector? Function.encode m.functions.toList
  | .data => encodeVector? (fun (d, i) => d.encode (forms.data i)) m.data.toList.zipIdx

def section? (forms : SegmentForms) (m : Module) (kind : SectionKind) : Option Section :=
  (m.payload? forms kind).map fun payload => { kind, payload }

def sections (forms : SegmentForms) (m : Module) : List Section :=
  SectionKind.ordered.filterMap (m.section? forms)

def encode (forms : SegmentForms) (m : Module) : List UInt8 :=
  header ++ (m.sections forms).flatMap Section.encode

end Module

-- ---------------------------------------------------------------------------
-- Reading sections
-- ---------------------------------------------------------------------------

namespace Format

/-- What the sections up to a rank say of a module. The last of them may have
    stood before. -/
def Draft.upTo (m : Module) (rank lastRank : Nat) : Draft where
  module :=
    { types := if SectionKind.type.rank ≤ rank then m.types else #[]
      imports := if SectionKind.import_.rank ≤ rank then m.imports else #[]
      tables := if SectionKind.table.rank ≤ rank then m.tables else #[]
      memories := if SectionKind.memory.rank ≤ rank then m.memories else #[]
      globals := if SectionKind.global.rank ≤ rank then m.globals else #[]
      exports := if SectionKind.export_.rank ≤ rank then m.exports else #[]
      start := if SectionKind.start.rank ≤ rank then m.start else none
      elements := if SectionKind.element.rank ≤ rank then m.elements else #[]
      data := if SectionKind.data.rank ≤ rank then m.data else #[] }
  funcTypes := if SectionKind.function.rank ≤ rank then m.functions.map (·.type) else #[]
  code :=
    if SectionKind.code.rank ≤ rank then m.functions.map fun f => ⟨f.locals, f.body⟩ else #[]
  lastRank := lastRank

/-- A section that is left out has nothing to say. -/
theorem Draft.upTo_succ {forms : SegmentForms} {m : Module} {kind : SectionKind} {rank : Nat}
    (hrank : kind.rank = rank + 1) (hnone : m.payload? forms kind = none) (lastRank : Nat) :
    Draft.upTo m rank lastRank = Draft.upTo m (rank + 1) lastRank := by
  obtain rfl : rank = kind.rank - 1 := by omega
  cases kind with
  | custom => cases hrank
  | dataCount => rfl
  | start =>
    have hstart : m.start = none := Option.map_eq_none_iff.mp hnone
    simp [Draft.upTo, SectionKind.rank, hstart]
  | type | import_ | function | table | memory | global | export_ | element | code | data =>
    have hempty := encodeVector?_eq_none hnone
    simp only [List.zipIdx_eq_nil_iff, Array.toList_eq_nil_iff] at hempty
    simp [Draft.upTo, SectionKind.rank, hempty]

theorem Draft.finish_upTo (m : Module) (lastRank : Nat) :
    (Draft.upTo m SectionKind.ordered.length lastRank).finish = .ok m := by
  refine Draft.finish_eq_ok_iff.mpr ⟨?_, rfl, ?_⟩
  · simp [Draft.upTo, SectionKind.rank, SectionKind.ordered]
  · have hfunctions : (m.functions.map (·.type)).zipWith
        (fun type (c : Reader.FunctionCode) => Function.mk type c.locals c.body)
        (m.functions.map fun f => ⟨f.locals, f.body⟩) = m.functions := by
      apply Array.ext <;> simp
    simp [Draft.upTo, SectionKind.rank, SectionKind.ordered, hfunctions]

theorem Draft.advance?_eq_some {d : Draft} {kind : SectionKind} (h : d.lastRank < kind.rank) :
    d.advance? kind = some { d with lastRank := kind.rank } := by
  have hcustom : kind ≠ .custom := by
    rintro rfl
    exact Nat.not_lt_zero _ h
  rw [advance?, if_neg hcustom, if_neg (by omega)]

namespace Reader

/-- The contents of a section add to the draft what the section says. -/
theorem reads_payload {forms : SegmentForms} {m : Module} {kind : SectionKind} {rank lastRank : Nat}
    {bytes : List UInt8} (hrank : kind.rank = rank + 1)
    (hfunctions : ∀ f ∈ m.functions, f.Encodable)
    (hbytes : m.payload? forms kind = some bytes) (hlength : bytes.length < UInt32.size) :
    Reads (payload (Draft.upTo m rank lastRank) kind) bytes (Draft.upTo m (rank + 1) lastRank) := by
  obtain rfl : rank = kind.rank - 1 := by omega
  cases kind with
  | custom | dataCount => cases hbytes
  | type =>
    obtain rfl := encodeVector?_eq_some hbytes
    exact (reads_vector FuncType.encode_ne_nil hlength fun _ _ => reads_funcType).map _
  | import_ =>
    obtain rfl := encodeVector?_eq_some hbytes
    exact (reads_vector Import.encode_ne_nil hlength fun _ _ => reads_importEntry).map _
  | function =>
    obtain rfl := encodeVector?_eq_some hbytes
    have hread := reads_vectorOf (fun f => Leb128.encode_ne_nil _) hlength
      fun f _ _ => reads_u32 f.type
    rw [← List.map_toArray] at hread
    exact hread.map _
  | table =>
    obtain rfl := encodeVector?_eq_some hbytes
    have hread := reads_vector (fun l => List.cons_ne_nil _ _) hlength
      fun l _ _ => reads_tableType l
    exact hread.map _
  | memory =>
    obtain rfl := encodeVector?_eq_some hbytes
    exact (reads_vector Limits.encode_ne_nil hlength fun l _ _ => reads_limits l).map _
  | global =>
    obtain rfl := encodeVector?_eq_some hbytes
    exact (reads_vector (fun g => List.cons_ne_nil _ _) hlength fun _ _ => reads_global).map _
  | export_ =>
    obtain rfl := encodeVector?_eq_some hbytes
    exact (reads_vector Export.encode_ne_nil hlength fun _ _ => reads_exportEntry).map _
  | start =>
    obtain ⟨func, hstart, rfl⟩ := Option.map_eq_some_iff.mp hbytes
    refine (reads_u32 func).last ?_
    rw [← hstart]
    exact Reads.pure _
  | element =>
    obtain rfl := encodeVector?_eq_some hbytes
    have hread := reads_vectorOf (fun e => ElementSegment.encode_ne_nil _ _) hlength
      fun _ _ => reads_element
    rw [List.zipIdx_map_fst] at hread
    exact hread.map _
  | code =>
    obtain rfl := encodeVector?_eq_some hbytes
    have hread := reads_vectorOf Function.encode_ne_nil hlength fun f hf =>
      reads_framedFunction (hfunctions f (Array.mem_toList_iff.mp hf))
    rw [← List.map_toArray] at hread
    exact hread.map _
  | data =>
    obtain rfl := encodeVector?_eq_some hbytes
    have hread := reads_vectorOf (fun d => DataSegment.encode_ne_nil _ _) hlength
      fun _ _ => reads_data
    rw [List.zipIdx_map_fst] at hread
    exact hread.map _

theorem reads_section {d d' : Draft} {kind : SectionKind} {bytes : List UInt8}
    (hrank : d.lastRank < kind.rank) (hlength : bytes.length < UInt32.size)
    (h : Reads (payload { d with lastRank := kind.rank } kind) bytes d') :
    Reads (section_ d) (Section.encode ⟨kind, bytes⟩) d' := by
  refine Reads.of_offset fun offset => Reads.byte ?_
  rw [SectionKind.ofByte?_id]
  refine (reads_size hlength).bind ?_
  rw [Draft.advance?_eq_some hrank]
  refine Reads.of_remaining fun left hleft => ?_
  rw [UInt32.toNat_ofNat_of_lt' hlength, if_neg (Nat.not_lt.mpr hleft), framedPayload,
    UInt32.toNat_ofNat_of_lt' hlength]
  -- The contents are read in a window of their own, which they use up.
  intro rest offset
  simp only [Bind.bind, EStateM.bind, frame_append, EStateM.run, h.all offset]
  rfl

/-- The ranks of the kinds count on from a rank. -/
def Consecutive : (rank : Nat) → List SectionKind → Prop
  | _, [] => True
  | rank, kind :: kinds => kind.rank = rank + 1 ∧ Consecutive (rank + 1) kinds

/-- Every section adds what it says, up to the last one. -/
theorem readsAll_sections {forms : SegmentForms} {m : Module} {kinds : List SectionKind}
    {rank lastRank bound : Nat} (hfunctions : ∀ f ∈ m.functions, f.Encodable)
    (hkinds : Consecutive rank kinds) (hlast : lastRank ≤ rank)
    (hsizes : ∀ s ∈ kinds.filterMap (m.section? forms), s.payload.length < UInt32.size)
    (hbound : ((kinds.filterMap (m.section? forms)).flatMap Section.encode).length ≤ bound) :
    ∃ last, ReadsAll (sections bound (Draft.upTo m rank lastRank))
      ((kinds.filterMap (m.section? forms)).flatMap Section.encode)
      (Draft.upTo m (rank + kinds.length) last) := by
  induction kinds generalizing rank lastRank bound with
  | nil =>
    refine ⟨lastRank, fun offset => ?_⟩
    cases bound <;> rfl
  | cons kind kinds ih =>
    obtain ⟨hrank, hkinds⟩ := hkinds
    have hcount : rank + (kind :: kinds).length = rank + 1 + kinds.length := by
      rw [List.length_cons]
      omega
    rw [hcount]
    cases hpayload : m.payload? forms kind with
    | none =>
      -- The rank moves on over what is left out, and the last rank stays behind it.
      have hsection : m.section? forms kind = none := by rw [Module.section?, hpayload]; rfl
      rw [List.filterMap_cons_none hsection] at hsizes hbound ⊢
      rw [Draft.upTo_succ hrank hpayload]
      exact ih hkinds (by omega) hsizes hbound
    | some bytes =>
      have hsection : m.section? forms kind = some ⟨kind, bytes⟩ := by
        rw [Module.section?, hpayload]; rfl
      rw [List.filterMap_cons_some hsection] at hsizes hbound ⊢
      have hsize : bytes.length < UInt32.size := hsizes _ List.mem_cons_self
      have hlater : (Draft.upTo m rank lastRank).lastRank < kind.rank :=
        hrank ▸ Nat.lt_succ_of_le hlast
      have hfirst := reads_section hlater hsize (reads_payload hrank hfunctions hpayload hsize)
      rw [List.flatMap_cons, Section.encode, List.length_append, List.length_cons] at hbound
      cases bound with
      | zero => omega
      | succ bound =>
        obtain ⟨last, hrest⟩ := @ih (rank + 1) kind.rank bound hkinds (by omega)
          (fun s hs => hsizes s (List.mem_cons_of_mem _ hs)) (by omega)
        exact ⟨last, fun offset => (hfirst.bindAll hrest) offset⟩

end Reader

-- ---------------------------------------------------------------------------
-- Modules
-- ---------------------------------------------------------------------------

theorem parse_encode {m : Module} (forms : SegmentForms)
    (hfunctions : ∀ f ∈ m.functions, f.Encodable)
    (hsizes : ∀ s ∈ m.sections forms, s.payload.length < UInt32.size) :
    parse (m.encode forms) = .ok m := by
  have hordered : Reader.Consecutive 0 SectionKind.ordered := by
    simp [Reader.Consecutive, SectionKind.ordered, SectionKind.rank]
  obtain ⟨last, hread⟩ := Reader.readsAll_sections hfunctions hordered (Nat.le_refl 0) hsizes
    (Nat.le_refl _)
  have hbody : (m.encode forms).drop header.length = (m.sections forms).flatMap Section.encode :=
    List.drop_left
  have hheader : (m.encode forms).take header.length = header := List.take_left
  have hempty : Draft.upTo m 0 0 = {} := rfl
  rw [Nat.zero_add, hempty] at hread
  rw [parse, if_pos hheader, hbody]
  simp only [EStateM.run, Module.sections, hread header.length]
  exact Draft.finish_upTo m last

/-- Reading the bytes of a valid module gives the module back, whichever of
    its segments name their index. -/
theorem decode_encode {m : Module} (forms : SegmentForms) (hvalid : Validity.check m = .ok ())
    (hfunctions : ∀ f ∈ m.functions, f.Encodable)
    (hsizes : ∀ s ∈ m.sections forms, s.payload.length < UInt32.size) :
    decode (m.encode forms) = .ok m :=
  decode_eq_ok_iff.mpr ⟨parse_encode forms hfunctions hsizes, hvalid⟩

/-- Chooses between a NaN with a payload and a negative zero. -/
def choiceCode : Code :=
  .block .empty
    (.plain (.localGet 0) <| .plain (.brTable #[1, 0] 0) .nil) <|
  .plain (.localGet 0) <|
  .ifElse (.value .f64)
    (.plain (.const (.f64 0x7FF0000000000123)) .nil)
    (.plain (.const (.f64 0x8000000000000000)) .nil) .nil

/-- A module with an entry in every section. -/
def specimen : Module where
  types := #[{}, { params := [.i32], results := [.f64] }]
  imports := #[{ module := "env", name := "tick", desc := .func 0 }]
  functions :=
    #[{ type := 0, locals := #[], body := Code.nil.body },
      { type := 1, locals := #[.i64, .i64, .f32], body := choiceCode.body }]
  tables := #[{ min := 2, max := some 200 }]
  memories := #[{ min := 1 }]
  globals := #[{ type := ⟨.f32, true⟩, init := [.const (.f32 0x7FA00001)] }]
  exports := #[{ name := "choose", desc := .func 2 }, { name := "memory", desc := .memory 0 }]
  start := some 1
  elements := #[⟨0, [.const (.i32 0)], [1, 2]⟩, ⟨0, [.const (.i32 1)], [2]⟩]
  data := #[⟨0, [.const (.i32 0xFFFFFFFF)], [0x00, 0xFF]⟩]

/-- Its second segment of elements names the table, the others are short. -/
theorem specimen_decode_encode :
    let forms : SegmentForms := { element := fun i => i == 1 }
    Validity.check specimen = .ok () ∧ (∀ f ∈ specimen.functions, f.Encodable) ∧
      (∀ s ∈ specimen.sections forms, s.payload.length < UInt32.size) ∧
      decode (specimen.encode forms) = .ok specimen := by
  intro forms
  have hvalid : Validity.check specimen = .ok () := by with_unfolding_all rfl
  have hfunctions : ∀ f ∈ specimen.functions, f.Encodable := by
    intro f hf
    rcases List.mem_cons.mp (Array.mem_toList_iff.mpr hf) with rfl | hf
    · exact ⟨⟨.nil, trivial, rfl⟩, by decide, by decide +kernel⟩
    · obtain rfl := List.mem_singleton.mp hf
      exact ⟨⟨choiceCode, by decide +kernel, rfl⟩, by decide, by decide +kernel⟩
  have hsizes : ∀ s ∈ specimen.sections forms, s.payload.length < UInt32.size := by decide +kernel
  exact ⟨hvalid, hfunctions, hsizes, decode_encode forms hvalid hfunctions hsizes⟩

end Format

end Wasm
