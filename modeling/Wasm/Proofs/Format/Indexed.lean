import Wasm.Proofs.Format.Decoded
import Wasm.Proofs.Validity

/-!
# Decoded modules are in range

Decoding accepts the modules that can be read and in which every index names
an entry that is there, every branch leaves what is open around it, limits are
in order and constant expressions are single instructions of the right type.
Labels are checked while a body is read, all other indices afterwards; the
description of the result does not show which.
-/

namespace Wasm

-- ---------------------------------------------------------------------------
-- Modules in range
-- ---------------------------------------------------------------------------

/-- The minimum is not above the maximum. -/
def Limits.Ordered (l : Limits) : Prop := ∀ max ∈ l.max, l.min ≤ max

/-- The limits are of a memory that can be addressed. -/
def Limits.Addressable (l : Limits) : Prop :=
  l.Ordered ∧ l.min.toNat ≤ 65536 ∧ ∀ max ∈ l.max, max.toNat ≤ 65536

/-- The expression is one constant, or one of the `visible` first globals, of
    the type. -/
def ConstExpr.Single (m : Module) (type : ValueType) (visible : Nat) (e : ConstExpr) : Prop :=
  (∃ v : Value, e.body = [.plain (.const v), .end_] ∧ v.type = type) ∨
  (∃ (index : UInt32) (g : GlobalType), e.body = [.plain (.globalGet index), .end_] ∧
    index.toNat < visible ∧ m.globalTypes[index.toNat]? = some g ∧ g.type = type)

theorem ConstExpr.body_eq_iff (e : ConstExpr) (c : ConstInstr) :
    e.body = [.plain c.plain, .end_] ↔ e = [c] := by
  have hinjective (c d : ConstInstr) (h : Instr.plain c.plain = .plain d.plain) : c = d := by
    cases c <;> cases d <;> simp_all [ConstInstr.plain]
  have hsingle : [.plain c.plain, .end_] = ConstExpr.body [c] := rfl
  rw [hsingle, ConstExpr.body, ConstExpr.body, List.append_left_inj]
  exact List.map_inj_right hinjective

/-- The globals a constant expression names are there. -/
theorem ConstExpr.Single.references_exist {m : Module} {type : ValueType} {visible : Nat}
    {e : ConstExpr} (h : e.Single m type visible) : ∀ r ∈ e.references, r.Exists m 0 := by
  rcases h with ⟨v, hbody, _⟩ | ⟨index, g, hbody, _, hg, _⟩
  · simp [ConstExpr.references, hbody, Instr.references, Plain.references]
  · have hindex := (Array.getElem?_eq_some_iff.mp hg).1
    simpa [ConstExpr.references, hbody, Instr.references, Plain.references, Reference.Exists,
      Module.count] using hindex

/-- A function of type `t` is in range. -/
structure Function.Indexed (m : Module) (f : Function) (t : FuncType) : Prop where
  references : ∀ i ∈ f.body, ∀ r ∈ i.references, r.Exists m (t.params.length + f.locals.size)
  /-- Only mutable globals are assigned. -/
  assigned : ∀ index, Instr.plain (.globalSet index) ∈ f.body →
    ∃ g, m.globalTypes[index.toNat]? = some g ∧ g.mutable
  branches : ∀ pc i, f.body[pc]? = some i → ∀ depth ∈ i.depths, depth.toNat ≤ f.openAt pc

namespace Module

/-- Limits of the tables, imported ones first. -/
def allTables (m : Module) : Array Limits := m.imports.filterMap (·.desc.table?) ++ m.tables

/-- Limits of the memories, imported ones first. -/
def allMemories (m : Module) : Array Limits := m.imports.filterMap (·.desc.memory?) ++ m.memories

/-- Everything the module refers to is there, and its parts are in order. -/
structure Indexed (m : Module) : Prop where
  references : ∀ r ∈ m.references, r.Exists m 0
  functions : ∀ f ∈ m.functions, ∃ t, m.types[f.type.toNat]? = some t ∧ f.Indexed m t
  start : ∀ func ∈ m.start, m.funcType? func = some { params := [], results := [] }
  oneTable : m.allTables.size ≤ 1
  oneMemory : m.allMemories.size ≤ 1
  tables : ∀ l ∈ m.allTables, l.Ordered
  memories : ∀ l ∈ m.allMemories, l.Addressable
  /-- The initial value of a global names imported globals only. -/
  inits : ∀ g ∈ m.globals, g.init.Single m g.type.type m.importedGlobals.size
  elements : ∀ e ∈ m.elements, e.offset.Single m .i32 m.globalTypes.size
  data : ∀ d ∈ m.data, d.offset.Single m .i32 m.globalTypes.size

end Module

-- ---------------------------------------------------------------------------
-- Checks
-- ---------------------------------------------------------------------------

namespace Validity

variable {m : Module}

theorem require_ok_iff {holds : Bool} {reason : Format.Malformation} :
    require holds reason = .ok () ↔ holds = true := by
  cases holds <;> simp [require]

theorem tableLimits_ok_iff {l : Limits} : tableLimits l = .ok () ↔ l.Ordered := by
  rw [tableLimits, require_ok_iff, Limits.Ordered]
  cases l.max <;> simp

theorem memoryLimits_ok_iff {l : Limits} : memoryLimits l = .ok () ↔ l.Addressable := by
  rw [memoryLimits, seq_ok_iff, require_ok_iff, tableLimits_ok_iff, and_comm]
  refine and_congr_right fun _ => ?_
  show _ ↔ l.min.toNat ≤ maxPages ∧ ∀ max ∈ l.max, max.toNat ≤ maxPages
  cases l.max <;> simp

theorem constExpr_ok_iff {type : ValueType} {visible : Nat} {e : ConstExpr} :
    constExpr m type visible e = .ok () ↔ e.Single m type visible := by
  have hconst (v : Value) := e.body_eq_iff (.const v)
  have hglobal (index : UInt32) := e.body_eq_iff (.globalGet index)
  simp only [ConstInstr.plain] at hconst hglobal
  simp only [ConstExpr.Single, hconst, hglobal]
  unfold constExpr
  split
  · simp [require_ok_iff]
  · rename_i index
    rw [seq_ok_iff, inRange_ok_iff]
    cases hg : m.globalTypes[index.toNat]? with
    | none => simp [hg]
    | some g => simp [hg, require_ok_iff]
  · rename_i hnoConst hnoGlobal
    refine iff_of_false nofun ?_
    rintro (⟨v, rfl, _⟩ | ⟨index, g, rfl, _⟩)
    · exact hnoConst v rfl
    · exact hnoGlobal index rfl

theorem importDesc_ok_iff {d : ImportDesc} :
    importDesc m d = .ok () ↔
      (∀ r ∈ d.references, r.Exists m 0) ∧ (∀ l ∈ d.table?, l.Ordered) ∧
        ∀ l ∈ d.memory?, l.Addressable := by
  cases d with
  | func type =>
    simp [importDesc, typeIndex, inRange_ok_iff, ImportDesc.references, Reference.Exists,
      Module.count, ImportDesc.table?, ImportDesc.memory?]
  | table limits =>
    simp [importDesc, tableLimits_ok_iff, ImportDesc.references, ImportDesc.table?,
      ImportDesc.memory?]
  | memory limits =>
    simp [importDesc, memoryLimits_ok_iff, ImportDesc.references, ImportDesc.table?,
      ImportDesc.memory?]
  | global type =>
    simp [importDesc, ImportDesc.references, ImportDesc.table?, ImportDesc.memory?]

theorem exportDesc_ok_iff {d : ExportDesc} :
    exportDesc m d = .ok () ↔ ∀ r ∈ d.references, r.Exists m 0 := by
  cases d <;>
    simp [exportDesc, inRange_ok_iff, ExportDesc.references, Reference.Exists, Module.count]

theorem element_ok_iff {e : ElementSegment} :
    element m e = .ok () ↔
      (∀ r ∈ e.references, r.Exists m 0) ∧ e.offset.Single m .i32 m.globalTypes.size := by
  simp only [element, seq_ok_iff, inRange_ok_iff, constExpr_ok_iff, each_eq_ok_iff,
    ElementSegment.references, List.cons_append, List.forall_mem_cons, List.forall_mem_append,
    List.forall_mem_map]
  constructor
  · rintro ⟨htable, hoffset, hfuncs⟩
    exact ⟨⟨htable, hoffset.references_exist, hfuncs⟩, hoffset⟩
  · rintro ⟨⟨htable, _, hfuncs⟩, hoffset⟩
    exact ⟨htable, hoffset, hfuncs⟩

theorem data_ok_iff {d : DataSegment} :
    data m d = .ok () ↔
      (∀ r ∈ d.references, r.Exists m 0) ∧ d.offset.Single m .i32 m.globalTypes.size := by
  simp only [data, seq_ok_iff, inRange_ok_iff, constExpr_ok_iff, DataSegment.references,
    List.forall_mem_cons]
  constructor
  · rintro ⟨hmemory, hoffset⟩
    exact ⟨⟨hmemory, hoffset.references_exist⟩, hoffset⟩
  · rintro ⟨⟨hmemory, _⟩, hoffset⟩
    exact ⟨hmemory, hoffset⟩

theorem plain_ok_iff {locals : Nat} {i : Plain} :
    plain m locals i = .ok () ↔
      (∀ r ∈ i.references, r.Exists m locals) ∧
        ∀ index, i = .globalSet index →
          ∃ g, m.globalTypes[index.toNat]? = some g ∧ g.mutable := by
  unfold plain
  cases i with
  | globalSet index =>
    by_cases hindex : index.toNat < m.globalTypes.size
    · simp [seq_ok_iff, inRange_ok_iff, require_ok_iff, Plain.references, Reference.Exists,
        Module.count, hindex]
    · simp [seq_ok_iff, inRange_ok_iff, Plain.references, Reference.Exists, Module.count, hindex]
  | callIndirect type table =>
    simp [seq_ok_iff, typeIndex, inRange_ok_iff, Plain.references, Reference.Exists, Module.count]
  | _ => simp [inRange_ok_iff, Plain.references, Reference.Exists, Module.count]

theorem instr_ok_iff {locals : Nat} {i : Instr} :
    instr m locals i = .ok () ↔
      (∀ r ∈ i.references, r.Exists m locals) ∧
        ∀ index, i = .plain (.globalSet index) →
          ∃ g, m.globalTypes[index.toNat]? = some g ∧ g.mutable := by
  have hblock (type : BlockType) :
      blockType m type = .ok () ↔ ∀ r ∈ type.references, r.Exists m locals := by
    cases type <;>
      simp [blockType, typeIndex, inRange_ok_iff, BlockType.references, Reference.Exists,
        Module.count]
  cases i with
  | plain i => simp [instr, plain_ok_iff, Instr.references]
  | block type stop => simp [instr, hblock, Instr.references]
  | loop type => simp [instr, hblock, Instr.references]
  | if_ type middle stop => simp [instr, hblock, Instr.references]
  | else_ stop => simp [instr, Instr.references]
  | end_ => simp [instr, Instr.references]

/-- A function passes its check if it is in range, where its branches are. -/
theorem function_ok_iff_indexed {f : Function} {c : Code} (hbody : f.body = c.body)
    (hscoped : c.Scoped 0) :
    function m f = .ok () ↔ ∃ t, m.types[f.type.toNat]? = some t ∧ f.Indexed m t := by
  rw [function_ok_iff]
  refine exists_congr fun t => and_congr_right fun _ => ?_
  simp only [Array.mem_toList_iff, instr_ok_iff]
  constructor
  · intro h
    refine ⟨fun i hi => (h i hi).1, fun index hi => (h _ hi).2 index rfl, ?_⟩
    exact fun pc i hi => hscoped.openAt hbody hi
  · rintro h i hi
    refine ⟨h.references i hi, ?_⟩
    rintro index rfl
    exact h.assigned index hi

theorem limits_ok_iff :
    limits m = .ok () ↔ m.allMemories.size ≤ 1 ∧ m.allTables.size ≤ 1 ∧
      (∀ l ∈ m.memories, l.Addressable) ∧ ∀ l ∈ m.tables, l.Ordered := by
  have hmemories : m.memoryCount = m.allMemories.size := Array.size_append.symm
  have htables : m.tableCount = m.allTables.size := Array.size_append.symm
  simp only [limits, seq_ok_iff, require_ok_iff, each_eq_ok_iff, memoryLimits_ok_iff,
    tableLimits_ok_iff, Array.mem_toList_iff, decide_eq_true_eq, hmemories, htables]

theorem start_ok_iff {func : UInt32} :
    start m func = .ok () ↔ func.toNat < m.funcCount ∧ m.funcType? func = some {} := by
  simp only [start, seq_ok_iff, inRange_ok_iff, require_ok_iff, beq_iff_eq]

theorem references_exist_iff :
    (∀ r ∈ m.references, r.Exists m 0) ↔
      (∀ i ∈ m.imports, ∀ r ∈ i.desc.references, r.Exists m 0) ∧
      (∀ f ∈ m.functions, f.type.toNat < m.types.size) ∧
      (∀ g ∈ m.globals, ∀ r ∈ g.init.references, r.Exists m 0) ∧
      (∀ e ∈ m.exports, ∀ r ∈ e.desc.references, r.Exists m 0) ∧
      (∀ func ∈ m.start, func.toNat < m.funcCount) ∧
      (∀ e ∈ m.elements, ∀ r ∈ e.references, r.Exists m 0) ∧
      ∀ d ∈ m.data, ∀ r ∈ d.references, r.Exists m 0 := by
  simp only [Module.references, List.forall_mem_append, List.forall_mem_flatMap,
    List.forall_mem_map, Array.mem_toList_iff, Option.mem_toList, and_assoc]
  rfl

/-- Something holds of imported and defined limits. -/
theorem forall_imported_iff {P : Limits → Prop} {part : ImportDesc → Option Limits}
    {defined : Array Limits} :
    (∀ l ∈ m.imports.filterMap (part ·.desc) ++ defined, P l) ↔
      (∀ i ∈ m.imports, ∀ l ∈ part i.desc, P l) ∧ ∀ l ∈ defined, P l := by
  simp only [Array.mem_append, Array.mem_filterMap, or_imp, forall_and, forall_exists_index,
    and_imp, Option.mem_def]
  refine and_congr_left fun _ => ?_
  exact ⟨fun h i hi l => h l i hi, fun h l i hi => h i hi l⟩

/-- A module that could be read passes its checks if it is in range. -/
theorem check_ok_iff_indexed (hread : Format.Readable m) : check m = .ok () ↔ m.Indexed := by
  have hfunction {f : Function} (hf : f ∈ m.functions) :
      function m f = .ok () ↔ ∃ t, m.types[f.type.toNat]? = some t ∧ f.Indexed m t := by
    obtain ⟨c, hbody, _, hscoped⟩ := hread.bodies f hf
    exact function_ok_iff_indexed hbody hscoped
  simp only [check_ok_iff, Array.mem_toList_iff, Option.mem_toList, importDesc_ok_iff,
    limits_ok_iff, global, constExpr_ok_iff, exportDesc_ok_iff, start_ok_iff, element_ok_iff,
    data_ok_iff]
  constructor
  · rintro ⟨himports, ⟨honeMemory, honeTable, hmemories, htables⟩, hglobals, hexports, hstart,
      helements, hdata, hfunctions⟩
    have hfunctions f hf := (hfunction hf).mp (hfunctions f hf)
    refine {
      references := references_exist_iff.mpr ⟨fun i hi => (himports i hi).1, ?_,
        fun g hg => (hglobals g hg).references_exist, hexports,
        fun func hfunc => (hstart func hfunc).1, fun e he => (helements e he).1,
        fun d hd => (hdata d hd).1⟩
      functions := hfunctions
      start := fun func hfunc => (hstart func hfunc).2
      oneTable := honeTable
      oneMemory := honeMemory
      tables := forall_imported_iff.mpr ⟨fun i hi => (himports i hi).2.1, htables⟩
      memories := forall_imported_iff.mpr ⟨fun i hi => (himports i hi).2.2, hmemories⟩
      inits := hglobals
      elements := fun e he => (helements e he).2
      data := fun d hd => (hdata d hd).2 }
    intro f hf
    obtain ⟨t, ht, _⟩ := hfunctions f hf
    exact (Array.getElem?_eq_some_iff.mp ht).1
  · intro h
    obtain ⟨himports, _, _, hexports, hstart, helements, hdata⟩ :=
      references_exist_iff.mp h.references
    have htables := forall_imported_iff.mp h.tables
    have hmemories := forall_imported_iff.mp h.memories
    exact ⟨fun i hi => ⟨himports i hi, htables.1 i hi, hmemories.1 i hi⟩,
      ⟨h.oneMemory, h.oneTable, hmemories.2, htables.2⟩, h.inits, hexports,
      fun func hfunc => ⟨hstart func hfunc, h.start func hfunc⟩,
      fun e he => ⟨helements e he, h.elements e he⟩, fun d hd => ⟨hdata d hd, h.data d hd⟩,
      fun f hf => (hfunction hf).mpr (h.functions f hf)⟩

end Validity

theorem Format.indexed_of_decode {bytes : List UInt8} {m : Module} (h : decode bytes = .ok m) :
    m.Indexed := by
  obtain ⟨hparse, hvalid⟩ := decode_eq_ok_iff.mp h
  exact (Validity.check_ok_iff_indexed (parse_readable hparse)).mp hvalid

/-- Decoding accepts exactly what can be read and is in range. -/
theorem Format.decode_eq_ok_iff_indexed (bytes : List UInt8) (m : Module) :
    decode bytes = .ok m ↔ parse bytes = .ok m ∧ m.Indexed := by
  rw [decode_eq_ok_iff]
  exact and_congr_right fun hparse => Validity.check_ok_iff_indexed (parse_readable hparse)

end Wasm
