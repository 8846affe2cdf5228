import Wasm.Proofs.Encoding.Code

/-!
# Encoded entries

The bytes of the entries of sections: imports, exports, globals, segments and
the code of functions.
-/

namespace Wasm

-- ---------------------------------------------------------------------------
-- Imports, exports and globals
-- ---------------------------------------------------------------------------

/-- A table of functions. -/
def Limits.encodeTable (l : Limits) : List UInt8 := 0x70 :: l.encode

def ImportDesc.encode : ImportDesc → List UInt8
  | func type => 0x00 :: Leb128.encode type.toNat
  | table limits => 0x01 :: limits.encodeTable
  | memory limits => 0x02 :: limits.encode
  | global type => 0x03 :: type.encode

def Import.encode (i : Import) : List UInt8 :=
  Format.encodeName i.module ++ (Format.encodeName i.name ++ i.desc.encode)

def ExportDesc.encode : ExportDesc → List UInt8
  | func index => 0x00 :: Leb128.encode index.toNat
  | table index => 0x01 :: Leb128.encode index.toNat
  | memory index => 0x02 :: Leb128.encode index.toNat
  | global index => 0x03 :: Leb128.encode index.toNat

def Export.encode (e : Export) : List UInt8 := Format.encodeName e.name ++ e.desc.encode

def Global.encode (g : Global) : List UInt8 := g.type.encode ++ g.init.encode

namespace Format

theorem encodeName_ne_nil (s : String) : encodeName s ≠ [] :=
  List.append_ne_nil_of_left_ne_nil (Leb128.encode_ne_nil _) _

namespace Reader

theorem reads_tableType (l : Limits) : Reads tableType l.encodeTable l :=
  Reads.byte (reads_limits l)

theorem reads_importDesc (d : ImportDesc) : Reads importDesc d.encode d := by
  cases d with
  | func type => exact Reads.byte ((reads_u32 type).map _)
  | table limits => exact Reads.byte ((reads_tableType limits).map _)
  | memory limits => exact Reads.byte ((reads_limits limits).map _)
  | global type => exact Reads.byte ((reads_globalType type).map _)

theorem reads_importEntry {i : Import} (h : i.encode.length < UInt32.size) :
    Reads importEntry i.encode i := by
  simp only [Import.encode, List.length_append] at h
  refine (reads_name (by omega)).bind ((reads_name (by omega)).bind ?_)
  exact (reads_importDesc i.desc).map _

theorem reads_exportEntry {e : Export} (h : e.encode.length < UInt32.size) :
    Reads exportEntry e.encode e := by
  simp only [Export.encode, List.length_append] at h
  refine (reads_name (by omega)).bind ?_
  obtain ⟨name, desc⟩ := e
  cases desc with
  | func index | table index | memory index | global index =>
    exact Reads.byte ((reads_u32 index).last (Reads.pure _))

theorem reads_global {g : Global} (h : g.encode.length < UInt32.size) :
    Reads global g.encode g := by
  simp only [Global.encode, List.length_append] at h
  exact (reads_globalType g.type).bind ((reads_constExpr (by omega)).map _)

end Reader

end Format

-- ---------------------------------------------------------------------------
-- Segments
-- ---------------------------------------------------------------------------

/-- A segment of table 0 need not name it, but may. -/
def ElementSegment.encode (named : Bool) (e : ElementSegment) : List UInt8 :=
  if e.table = 0 ∧ named = false then
    Leb128.encode 0 ++ (e.offset.encode ++ Format.encodeIndices e.funcs)
  else
    Leb128.encode 2 ++ (Leb128.encode e.table.toNat ++
      (e.offset.encode ++ 0x00 :: Format.encodeIndices e.funcs))

/-- A segment of memory 0 need not name it, but may. -/
def DataSegment.encode (named : Bool) (d : DataSegment) : List UInt8 :=
  (if d.memory = 0 ∧ named = false then Leb128.encode 0
    else Leb128.encode 2 ++ Leb128.encode d.memory.toNat) ++
  (d.offset.encode ++ (Leb128.encode d.bytes.length ++ d.bytes))

namespace Format.Reader

theorem reads_element {named : Bool} {e : ElementSegment}
    (h : (e.encode named).length < UInt32.size) : Reads element (e.encode named) e := by
  obtain ⟨table, offset, funcs⟩ := e
  simp only [ElementSegment.encode] at h ⊢
  split at h
  · rename_i hzero
    rw [if_pos hzero]
    obtain rfl := hzero.1
    simp only [List.length_append] at h
    refine (reads_u32 0).bind ((reads_constExpr (by omega)).bind ?_)
    exact (reads_indices (by omega)).map _
  · rename_i hnamed
    rw [if_neg hnamed]
    simp only [List.length_append, List.length_cons] at h
    refine (reads_u32 2).bind ((reads_u32 table).bind ((reads_constExpr (by omega)).bind ?_))
    exact Reads.byte ((reads_indices (by omega)).map _)

theorem reads_data {named : Bool} {d : DataSegment}
    (h : (d.encode named).length < UInt32.size) : Reads data (d.encode named) d := by
  obtain ⟨memory, offset, bytes⟩ := d
  simp only [DataSegment.encode, List.length_append] at h
  have hsize : bytes.length < UInt32.size := by omega
  have hrest : Reads (do
      let offset ← constExpr
      let length ← u32
      let bytes ← Reader.bytes length.toNat
      return ({ memory, offset, bytes } : DataSegment))
      (offset.encode ++ (Leb128.encode bytes.length ++ bytes)) ⟨memory, offset, bytes⟩ := by
    refine (reads_constExpr (by omega)).bind ((reads_size hsize).bind ?_)
    rw [UInt32.toNat_ofNat_of_lt' hsize]
    exact (reads_bytes bytes).map _
  unfold DataSegment.encode
  split
  · rename_i hzero
    obtain rfl : memory = 0 := hzero.1
    exact (reads_u32 0).bind ((Reads.pure 0).bind hrest)
  · rw [List.append_assoc]
    exact (reads_u32 2).bind ((reads_u32 memory).bind hrest)

end Format.Reader

-- ---------------------------------------------------------------------------
-- Functions
-- ---------------------------------------------------------------------------

namespace ValueType

/-- The longest runs of equal types, with their lengths. -/
def runs : List ValueType → List (Nat × ValueType)
  | [] => []
  | t :: ts =>
    match runs ts with
    | [] => [(1, t)]
    | (n, u) :: rest => if t = u then (n + 1, u) :: rest else (1, t) :: (n, u) :: rest

/-- What runs stand for. -/
def expand (runs : List (Nat × ValueType)) : List ValueType :=
  runs.flatMap fun run => List.replicate run.1 run.2

theorem expand_runs (ts : List ValueType) : expand (runs ts) = ts := by
  induction ts with
  | nil => rfl
  | cons t ts ih =>
    unfold runs
    cases hruns : runs ts with
    | nil =>
      rw [hruns] at ih
      rw [← ih]
      rfl
    | cons run rest =>
      obtain ⟨n, u⟩ := run
      rw [hruns] at ih
      dsimp only
      split
      · rename_i htu
        rw [htu, ← ih]
        rfl
      · rw [← ih]
        rfl

theorem length_runs_le (ts : List ValueType) : (runs ts).length ≤ ts.length := by
  induction ts with
  | nil => exact Nat.le_refl _
  | cons t ts ih =>
    unfold runs
    cases hruns : runs ts with
    | nil => exact Nat.succ_le_succ (Nat.zero_le _)
    | cons run rest =>
      rw [hruns] at ih
      dsimp only
      split
      · exact Nat.le_succ_of_le ih
      · exact Nat.succ_le_succ ih

end ValueType

def encodeRun (run : Nat × ValueType) : List UInt8 := Leb128.encode run.1 ++ [run.2.byte]

/-- The locals of a function and its body. -/
def Function.encodeEntry (f : Function) : List UInt8 :=
  Leb128.encode (ValueType.runs f.locals.toList).length ++
    ((ValueType.runs f.locals.toList).flatMap encodeRun ++ f.body.toList.flatMap Instr.encode)

/-- The code of a function, after its size. -/
def Function.encode (f : Function) : List UInt8 :=
  Leb128.encode f.encodeEntry.length ++ f.encodeEntry

/-- What it takes for a function to have bytes that can be read: the body is
    well nested with its positions resolved, no branch leaves the function,
    the locals are not too many, and no instruction is without an opcode. -/
structure Function.Encodable (f : Function) : Prop where
  nested : ∃ c : Code, c.Scoped 0 ∧ f.body = c.body
  locals : f.locals.size ≤ 50000
  opcodes : Instr.plain (.intUnary .w32 .extend32S) ∉ f.body

namespace Format.Reader

theorem reads_localGroups {runs : List (Nat × ValueType)} {acc : Array ValueType}
    (h : acc.size + (ValueType.expand runs).length ≤ maxLocals) :
    Reads (localGroups runs.length acc) (runs.flatMap encodeRun)
      (acc ++ (ValueType.expand runs).toArray) := by
  induction runs generalizing acc with
  | nil => simpa [localGroups, ValueType.expand] using Reads.pure acc
  | cons run runs ih =>
    obtain ⟨n, t⟩ := run
    have hexpand : ValueType.expand ((n, t) :: runs) =
        List.replicate n t ++ ValueType.expand runs := rfl
    rw [hexpand, List.length_append, List.length_replicate] at h
    have hsize : n < UInt32.size := by simp only [maxLocals, UInt32.size] at h ⊢; omega
    have hrest := @ih (acc ++ Array.replicate n t) (by simp; omega)
    rw [List.flatMap_cons, encodeRun, List.append_assoc, hexpand]
    refine (reads_size hsize).bind ((reads_valueType t).bind ?_)
    rw [UInt32.toNat_ofNat_of_lt' hsize, if_neg (by omega), ← List.append_toArray,
      List.toArray_replicate, ← Array.append_assoc]
    exact hrest

theorem readsAll_functionEntry {f : Function} (h : f.Encodable)
    (hlength : f.encodeEntry.length < UInt32.size) :
    ReadsAll functionEntry f.encodeEntry ⟨f.locals, f.body⟩ := by
  obtain ⟨c, hscoped, hbody⟩ := h.nested
  rw [Function.encodeEntry, List.length_append, List.length_append] at hlength
  have hcount : (ValueType.runs f.locals.toList).length < UInt32.size := by
    have hle := ValueType.length_runs_le f.locals.toList
    have hlocals := h.locals
    simp only [Array.length_toList, UInt32.size] at hle ⊢
    omega
  have hgroups : Reads (localGroups (ValueType.runs f.locals.toList).length #[])
      ((ValueType.runs f.locals.toList).flatMap encodeRun) f.locals := by
    have hread := @reads_localGroups (ValueType.runs f.locals.toList) #[]
    rw [ValueType.expand_runs] at hread
    simpa using hread (by simpa [maxLocals] using h.locals)
  have hencodable : ∀ i ∈ f.body, i.Encodable := by
    intro i hi
    refine ⟨fun hop => h.opcodes (hop ▸ hi), ?_⟩
    have hle : i.encode.length ≤ (f.body.toList.flatMap Instr.encode).length :=
      length_item_le (Array.mem_toList_iff.mpr hi)
    omega
  have hcode : Reads functionCode (f.body.toList.flatMap Instr.encode) c := by
    rw [hbody] at hencodable ⊢
    exact reads_functionCode hscoped hencodable
  rw [Function.encodeEntry]
  refine (reads_size hcount).bindAll ?_
  rw [UInt32.toNat_ofNat_of_lt' hcount]
  refine hgroups.bindAll ?_
  intro offset
  have hread := hcode.all offset
  simp only [Bind.bind, EStateM.bind, hread]
  rw [hbody]
  rfl

theorem reads_framedFunction {f : Function} (h : f.Encodable)
    (hlength : f.encode.length < UInt32.size) :
    Reads framedFunction f.encode ⟨f.locals, f.body⟩ := by
  rw [Function.encode, List.length_append] at hlength
  have hsize : f.encodeEntry.length < UInt32.size := by omega
  refine (reads_size hsize).bind ?_
  rw [UInt32.toNat_ofNat_of_lt' hsize]
  intro rest offset
  have hentry := readsAll_functionEntry h hsize offset
  simp only [Bind.bind, EStateM.bind, frame_append, within, EStateM.run, hentry]
  rfl

end Format.Reader

end Wasm
