import Wasm.Proofs.Format.Indexed
import Wasm.Proofs.Safety.Linking
import Wasm.Proofs.Strategy.Agreement

/-!
# Index spaces

A module finds its index spaces by filtering its imports and counting what it
defines behind them; linking finds them by adding one import after the other to
the store. Both number everything alike, whatever the order of the imports, so
that an index the module was checked with is one of the store.
-/

namespace Wasm

variable {σ : Type}

namespace Link

-- ---------------------------------------------------------------------------
-- Functions
-- ---------------------------------------------------------------------------

theorem map_type_imported (types : Array FuncType) (is : List (Import × UInt32)) :
    (is.mapIdx fun slot (i, index) =>
        FuncInst.host (signature types index) i.module i.name slot).map (·.type) =
      (is.map (·.2)).map (signature types) := by
  apply List.ext_getElem?
  intro slot
  simp [FuncInst.type, Function.comp_def]

-- ---------------------------------------------------------------------------
-- Globals
-- ---------------------------------------------------------------------------

/-- A defined global under the imported ones. -/
def initial (imported : Array GlobalInst) (g : Global) : GlobalInst :=
  { value := (constant? imported g.init).getD (.zero g.type.type), mutable := g.type.mutable }

/-- Initial values name imported globals only, so the defined ones in front of
    a global have no part in its own. -/
theorem foldl_addGlobal {m : Module} (imported : Array GlobalInst) (gs : List Global)
    (hinits : ∀ g ∈ gs, g.init.Single m g.type.type imported.size) (added : Array GlobalInst) :
    gs.foldl addGlobal (imported ++ added) =
      imported ++ added ++ (gs.map (initial imported)).toArray := by
  induction gs generalizing added with
  | nil => simp
  | cons g gs ih =>
    have hconstant : constant? (imported ++ added) g.init = constant? imported g.init := by
      rcases hinits g List.mem_cons_self with ⟨v, hbody, _⟩ | ⟨index, _, hbody, hindex, _⟩
      · rw [(g.init.body_eq_iff (.const v)).mp hbody]
        rfl
      · rw [(g.init.body_eq_iff (.globalGet index)).mp hbody, constant?, constant?,
          Array.getElem?_append_left hindex]
    have hadd : addGlobal (imported ++ added) g = imported ++ added.push (initial imported g) := by
      rw [addGlobal, hconstant, Array.append_push]
      rfl
    rw [List.foldl_cons, hadd, ih (fun g' hg' => hinits g' (List.mem_cons_of_mem _ hg'))]
    simp

theorem define_globals {m : Module} (hm : m.Indexed) {s : Store}
    (hsize : s.globals.size = m.importedGlobals.size) :
    (define m s).globals = s.globals ++ m.globals.map (initial s.globals) := by
  have hfold := foldl_addGlobal s.globals m.globals.toList
    (fun g hg => hsize ▸ hm.inits g (Array.mem_toList_iff.mp hg)) #[]
  rw [Array.append_empty, Array.foldl_toList] at hfold
  rw [define, hfold, ← Array.toList_map]

/-- The type that a global of the store has. -/
def globalType (g : GlobalInst) : GlobalType := ⟨g.value.type, g.mutable⟩

theorem Linked.Supplied.map_globalType {m : Module} {imports : Imports σ} {config : Config}
    {l : Linked σ} (h : l.Supplied m.types imports config m.imports.toList) :
    l.store.globals.map globalType = m.importedGlobals := by
  have htypes : l.store.globals.toList.map globalType =
      (importsOf ImportDesc.global? m.imports.toList).map (·.2) := by
    apply List.forall₂_eq_eq_eq ▸ List.forall₂_map_left_iff.mpr (List.forall₂_map_right_iff.mpr ?_)
    exact h.globals.flip.imp fun _ _ hg => hg.2.symm
  rw [map_snd_importsOf, ← Array.toList_filterMap, ← Array.toList_map] at htypes
  exact Array.toList_inj.mp htypes

/-- The initial value of a global is the value of its expression, which has
    one of its type. -/
theorem initial_eq {m : Module} (hm : m.Indexed) {imported : Array GlobalInst}
    (htypes : imported.map globalType = m.importedGlobals) {g : Global} (hg : g ∈ m.globals) :
    ∃ v, constant? imported g.init = some v ∧ v.type = g.type.type ∧
      initial imported g = ⟨v, g.type.mutable⟩ := by
  obtain ⟨v, hv, htype⟩ : ∃ v, constant? imported g.init = some v ∧ v.type = g.type.type := by
    rcases hm.inits g hg with ⟨v, hbody, htype⟩ | ⟨index, t, hbody, hindex, ht, htype⟩
    · rw [(g.init.body_eq_iff (.const v)).mp hbody]
      exact ⟨v, rfl, htype⟩
    · rw [Module.globalTypes, Array.getElem?_append_left hindex, ← htypes,
        Array.getElem?_map] at ht
      obtain ⟨source, hsource, rfl⟩ := Option.map_eq_some_iff.mp ht
      rw [(g.init.body_eq_iff (.globalGet index)).mp hbody, constant?, hsource]
      exact ⟨source.value, rfl, htype⟩
  refine ⟨v, hv, htype, ?_⟩
  rw [initial, hv]
  rfl

/-- Imported globals come first, then the defined ones; the initial values of
    those are found under the imported ones alone. -/
theorem Linked.Supplied.define_globals {m : Module} (hm : m.Indexed) {imports : Imports σ}
    {config : Config} {l : Linked σ}
    (hl : l.Supplied m.types imports config m.imports.toList) :
    (define m l.store).globals = l.store.globals ++ m.globals.map (initial l.store.globals) := by
  apply Link.define_globals hm
  rw [← hl.map_globalType, Array.size_map]

/-- The globals there are before anything has run have the types that the module
    gives them. -/
theorem map_globalType_define {m : Module} (hm : m.Indexed) {imports : Imports σ}
    {config : Config} {l : Linked σ}
    (hl : l.Supplied m.types imports config m.imports.toList) :
    (define m l.store).globals.map globalType = m.globalTypes := by
  have hinitial : m.globals.map (globalType ∘ initial l.store.globals) =
      m.globals.map (·.type) := by
    refine Array.map_congr_left fun g hg => ?_
    obtain ⟨v, _, htype, hinitial⟩ := initial_eq hm hl.map_globalType hg
    rw [Function.comp_apply, hinitial, globalType, htype]
  rw [hl.define_globals hm, Array.map_append, hl.map_globalType, Array.map_map, hinitial,
    Module.globalTypes]

-- ---------------------------------------------------------------------------
-- Tables and memories
-- ---------------------------------------------------------------------------

namespace Linked.Supplied

variable {m : Module} {imports : Imports σ} {config : Config} {l : Linked σ}

/-- All tables are defined ones. -/
theorem define_tables (hl : l.Supplied m.types imports config m.imports.toList) :
    (define m l.store).tables = m.tables.map table := by
  rw [define, hl.tables.2, Array.empty_append]

theorem size_define_tables (hl : l.Supplied m.types imports config m.imports.toList) :
    (define m l.store).tables.size = m.tableCount := by
  have hnone : (m.imports.filterMap (·.desc.table?)).size = 0 := by
    rw [← Array.length_toList, Array.toList_filterMap, ← length_importsOf, hl.tables.1]
    rfl
  rw [hl.define_tables, Array.size_map, Module.tableCount, hnone, Nat.zero_add]

theorem size_memories (hl : l.Supplied m.types imports config m.imports.toList) :
    l.store.memories.size = (m.imports.filterMap (·.desc.memory?)).size := by
  rw [← Array.length_toList, ← hl.memories.length_eq, length_importsOf, ← Array.toList_filterMap,
    Array.length_toList]

theorem size_define_memories (hl : l.Supplied m.types imports config m.imports.toList) :
    (define m l.store).memories.size = m.memoryCount := by
  rw [define, Array.size_append, Array.size_map, hl.size_memories, Module.memoryCount]

end Linked.Supplied

-- ---------------------------------------------------------------------------
-- Segments
-- ---------------------------------------------------------------------------

theorem mem_fill {slots : Array (Option UInt32)} {at_ : Nat} {fs : List UInt32} {func : UInt32}
    (h : some func ∈ fill slots at_ fs) : some func ∈ slots ∨ func ∈ fs := by
  induction fs generalizing slots at_ with
  | nil => exact .inl h
  | cons f fs ih =>
    rcases ih h with h | h
    · rcases Array.mem_or_eq_of_mem_setIfInBounds h with h | h
      · exact .inl h
      · cases h
        exact .inr List.mem_cons_self
    · exact .inr (List.mem_cons_of_mem _ h)

/-- The functions in the tables are among the first `n`. -/
def SlotsBelow (n : Nat) (tables : Array Table) : Prop :=
  ∀ t ∈ tables, ∀ func, some func ∈ t.slots → func.toNat < n

theorem SlotsBelow.putElement {n : Nat} {s : Store} (h : SlotsBelow n s.tables)
    {e : ElementSegment} (he : ∀ func ∈ e.funcs, func.toNat < n) :
    SlotsBelow n (putElement s e).tables := by
  intro t ht func hfunc
  obtain ⟨index, hindex⟩ := Array.mem_iff_getElem?.mp ht
  simp only [Link.putElement, Array.getElem?_modify] at hindex
  split at hindex
  · obtain ⟨t₀, ht₀, rfl⟩ := Option.map_eq_some_iff.mp hindex
    rcases mem_fill hfunc with hfunc | hfunc
    · exact h t₀ (Array.mem_of_getElem? ht₀) func hfunc
    · exact he func hfunc
  · exact h t (Array.mem_of_getElem? hindex) func hfunc

theorem SlotsBelow.foldl_putElement {n : Nat} (es : List ElementSegment) {s : Store}
    (h : SlotsBelow n s.tables) (hes : ∀ e ∈ es, ∀ func ∈ e.funcs, func.toNat < n) :
    SlotsBelow n (es.foldl Link.putElement s).tables ∧
      (es.foldl Link.putElement s).tables.size = s.tables.size := by
  induction es generalizing s with
  | nil => exact ⟨h, rfl⟩
  | cons e es ih =>
    obtain ⟨hslots, hsize⟩ := ih (h.putElement (hes e List.mem_cons_self))
      fun e' he' => hes e' (List.mem_cons_of_mem _ he')
    refine ⟨hslots, hsize.trans ?_⟩
    rw [Link.putElement, Array.size_modify]

theorem slotsBelow_replicate (n : Nat) (limits : Array Limits) :
    SlotsBelow n (limits.map table) := by
  intro t ht func hfunc
  obtain ⟨l, _, rfl⟩ := Array.mem_map.mp ht
  simp [table] at hfunc

theorem size_foldl_putData (ds : List DataSegment) (s : Store) :
    (ds.foldl putData s).memories.size = s.memories.size := by
  induction ds generalizing s with
  | nil => rfl
  | cons d ds ih => rw [List.foldl_cons, ih, putData, Array.size_modify]

/-- Segments name functions that are there, and leave as many tables and
    memories as there were. -/
theorem fillSegments_slots {m : Module} (hm : m.Indexed) {s s' : Store}
    (hs : SlotsBelow m.funcCount s.tables) (h : fillSegments m s = .ok s') :
    SlotsBelow m.funcCount s'.tables ∧ s'.tables.size = s.tables.size ∧
      s'.memories.size = s.memories.size := by
  have helements : ∀ e ∈ m.elements.toList, ∀ func ∈ e.funcs, func.toNat < m.funcCount := by
    intro e he func hfunc
    obtain ⟨_, _, _, _, _, hreferences, _⟩ := Validity.references_exist_iff.mp hm.references
    refine hreferences e (Array.mem_toList_iff.mp he) ⟨.function, func⟩ ?_
    exact List.mem_append_right _ (List.mem_map_of_mem hfunc)
  obtain ⟨hslots, hsize⟩ := hs.foldl_putElement m.elements.toList helements
  obtain ⟨tables, htables⟩ := Link.foldl_putElement m.elements.toList s
  obtain ⟨memories, hmemories⟩ := foldl_putData m.data.toList (m.elements.toList.foldl putElement s)
  rw [fillSegments_eq_foldl h]
  refine ⟨?_, ?_, ?_⟩
  · rw [hmemories]
    exact hslots
  · rw [hmemories]
    exact hsize
  · rw [size_foldl_putData, htables]

end Link

-- ---------------------------------------------------------------------------
-- The spaces of a linked module
-- ---------------------------------------------------------------------------

section

variable {m : Module} {imports : Imports σ} {config : Config} {linked : Link.Linked σ}

theorem Module.length_importedFuncs (m : Module) :
    (Link.importsOf ImportDesc.func? m.imports.toList).length = m.importedFuncs.size := by
  rw [Link.length_importsOf, ← Array.toList_filterMap, Array.length_toList]
  rfl

/-- Imported functions come first, then the defined ones. -/
theorem Module.link_funcs (h : m.link imports config = .ok linked) :
    linked.store.funcs.toList =
      ((Link.importsOf ImportDesc.func? m.imports.toList).mapIdx fun slot (i, index) =>
        .host (Link.signature m.types index) i.module i.name slot) ++
      (Link.definedFuncs m).toList := by
  obtain ⟨l, hl, _, hfill, _⟩ := Module.link_eq_ok h
  obtain ⟨tables, memories, hstore⟩ := Link.fillSegments_eq_ok hfill
  have hfuncs : linked.store.funcs = l.store.funcs ++ Link.definedFuncs m := by
    rw [hstore]
    rfl
  rw [hfuncs, Array.toList_append, hl.funcs]

/-- The functions of a linked module have the signatures that it gives them. -/
theorem Module.link_types (h : m.link imports config = .ok linked) :
    linked.store.funcs.toList.map (·.type) =
      m.funcTypeIndices.toList.map (Link.signature m.types) := by
  have hdefined : (Link.definedFuncs m).toList.map (·.type) =
      (m.functions.toList.map (·.type)).map (Link.signature m.types) := by
    apply List.ext_getElem?
    intro index
    simp [Link.definedFuncs, Link.signature, FuncInst.type, Function.comp_def]
  rw [Module.link_funcs h, List.map_append, Link.map_type_imported, Link.map_snd_importsOf,
    hdefined]
  simp [Module.funcTypeIndices, Module.importedFuncs]

theorem Module.link_exports (h : m.link imports config = .ok linked) :
    linked.store.exports = (m.exports.toList.map fun e => (e.name, e.desc)).reverse := by
  obtain ⟨l, _, _, hfill, _⟩ := Module.link_eq_ok h
  obtain ⟨tables, memories, hstore⟩ := Link.fillSegments_eq_ok hfill
  rw [hstore]
  rfl

/-- Every type index of the function index space exists. -/
theorem Module.Indexed.type_of_mem {m : Module} (hm : m.Indexed) {index : UInt32}
    (hindex : index ∈ m.funcTypeIndices) :
    m.types[index.toNat]? = some (Link.signature m.types index) := by
  obtain ⟨himports, hfunctions, _⟩ := Validity.references_exist_iff.mp hm.references
  have hlt : index.toNat < m.types.size := by
    rcases Array.mem_append.mp hindex with hindex | hindex
    · obtain ⟨i, hi, hdesc⟩ := Array.mem_filterMap.mp hindex
      cases hkind : i.desc with
      | func type =>
        rw [hkind] at hdesc
        cases hdesc
        refine himports i hi ⟨.type, index⟩ ?_
        rw [hkind]
        exact List.mem_singleton.mpr rfl
      | _ => simp [hkind, ImportDesc.func?] at hdesc
    · obtain ⟨f, hf, rfl⟩ := Array.mem_map.mp hindex
      exact hfunctions f hf
  simp [Link.signature, hlt]

/-- The store has what an export names. -/
def Store.Holds (s : Store) : ExportDesc → Prop
  | .func index => index.toNat < s.funcs.size
  | .table index => index.toNat < s.tables.size
  | .memory index => index.toNat < s.memories.size
  | .global index => index.toNat < s.globals.size

theorem Store.holds_of_exportDesc {s : Store} (hfuncs : s.funcs.size = m.funcCount)
    (htables : s.tables.size = m.tableCount) (hmemories : s.memories.size = m.memoryCount)
    (hglobals : s.globals.size = m.globalTypes.size) {d : ExportDesc}
    (h : Validity.exportDesc m d = .ok ()) : s.Holds d := by
  cases d with
  | func index => simpa only [Holds, hfuncs] using Validity.inRange_ok_iff.mp h
  | table index => simpa only [Holds, htables] using Validity.inRange_ok_iff.mp h
  | memory index => simpa only [Holds, hmemories] using Validity.inRange_ok_iff.mp h
  | global index => simpa only [Holds, hglobals] using Validity.inRange_ok_iff.mp h

/-- A store is laid out as the module numbers its functions, globals, memories
    and tables. -/
structure Module.LaidOut (m : Module) (imports : Imports σ) (linked : Link.Linked σ) : Prop where
  funcCount : linked.store.funcs.size = m.funcCount
  funcType : ∀ func : UInt32, linked.store.funcs[func.toNat]?.map (·.type) = m.funcType? func
  /-- Imported functions come first, in the order of the imports. -/
  imported : ∀ slot < m.importedFuncs.size, ∃ i f,
    (m.imports.filter (·.desc.func?.isSome))[slot]? = some i ∧
      imports.get? i.module i.name = some (.func f) ∧ linked.hosts[slot]? = some f ∧
      linked.store.funcs[slot]? = some (.host f.type i.module i.name slot)
  /-- Behind them come those that the module defines. -/
  defined : ∀ code f, m.functions[code]? = some f → ∃ type,
    m.types[f.type.toNat]? = some type ∧
      linked.store.funcs[m.importedFuncs.size + code]? = some (.defined type code)
  globals : linked.store.globals.map Link.globalType = m.globalTypes
  memories : linked.store.memories.size = m.memoryCount
  tables : linked.store.tables.size = m.tableCount
  exports : ∀ e ∈ linked.store.exports, linked.store.Holds e.2
  slots : ∀ t ∈ linked.store.tables, ∀ func, some func ∈ t.slots →
    func.toNat < linked.store.funcs.size

theorem Module.size_funcs_link (h : m.link imports config = .ok linked) :
    linked.store.funcs.size = m.funcCount := by
  have hlength := congrArg List.length (Module.link_types h)
  simpa [Module.funcTypeIndices, Module.funcCount] using hlength

theorem Module.funcType_link (hm : m.Indexed) (h : m.link imports config = .ok linked)
    (func : UInt32) : linked.store.funcs[func.toNat]?.map (·.type) = m.funcType? func := by
  have hget := congrArg (·[func.toNat]?) (Module.link_types h)
  simp only [List.getElem?_map, Array.getElem?_toList] at hget
  rw [hget, Module.funcType?]
  cases hindex : m.funcTypeIndices[func.toNat]? with
  | none => rfl
  | some index => exact (hm.type_of_mem (Array.mem_of_getElem? hindex)).symm

theorem Module.imported_link (h : m.link imports config = .ok linked) (slot : Nat)
    (hslot : slot < m.importedFuncs.size) : ∃ i f,
    (m.imports.filter (·.desc.func?.isSome))[slot]? = some i ∧
      imports.get? i.module i.name = some (.func f) ∧ linked.hosts[slot]? = some f ∧
      linked.store.funcs[slot]? = some (.host f.type i.module i.name slot) := by
  obtain ⟨l, hl, _, _, hhosts⟩ := Module.link_eq_ok h
  rw [← Module.length_importedFuncs] at hslot
  have hi := List.getElem?_eq_getElem hslot
  generalize (Link.importsOf ImportDesc.func? m.imports.toList)[slot] = entry at hi
  obtain ⟨i, index⟩ := entry
  obtain ⟨f, hf, hget, htype⟩ := Link.getElem?_of_forall₂ hl.hosts hi
  refine ⟨i, f, ?_, hget, ?_, ?_⟩
  · rw [← Array.getElem?_toList, Array.toList_filter, ← Link.map_fst_importsOf,
      List.getElem?_map, hi]
    rfl
  · rw [hhosts, ← Array.getElem?_toList, hf]
  · rw [← Array.getElem?_toList, Module.link_funcs h, List.getElem?_append_left (by simpa),
      List.getElem?_mapIdx, hi, htype]
    rfl

theorem Module.defined_link (hm : m.Indexed) (h : m.link imports config = .ok linked)
    (code : Nat) (f : Function) (hf : m.functions[code]? = some f) : ∃ type,
    m.types[f.type.toNat]? = some type ∧
      linked.store.funcs[m.importedFuncs.size + code]? = some (.defined type code) := by
  have hmem : f.type ∈ m.funcTypeIndices :=
    Array.mem_append_right _ (Array.mem_map_of_mem (Array.mem_of_getElem? hf))
  refine ⟨_, hm.type_of_mem hmem, ?_⟩
  have hlength := Module.length_importedFuncs m
  rw [← Array.getElem?_toList, Module.link_funcs h, List.getElem?_append_right]
  all_goals simp [hlength, Link.definedFuncs, hf, Link.signature]

theorem Module.globals_link (hm : m.Indexed) (h : m.link imports config = .ok linked) :
    linked.store.globals.map Link.globalType = m.globalTypes := by
  obtain ⟨l, hl, _, hfill, _⟩ := Module.link_eq_ok h
  obtain ⟨tables, memories, hstore⟩ := Link.fillSegments_eq_ok hfill
  rw [hstore]
  exact Link.map_globalType_define hm hl

theorem Module.tables_link (hm : m.Indexed) (h : m.link imports config = .ok linked) :
    linked.store.memories.size = m.memoryCount ∧ linked.store.tables.size = m.tableCount ∧
      Link.SlotsBelow m.funcCount linked.store.tables := by
  obtain ⟨l, hl, _, hfill, _⟩ := Module.link_eq_ok h
  have hempty : Link.SlotsBelow m.funcCount (Link.define m l.store).tables := by
    rw [hl.define_tables]
    exact Link.slotsBelow_replicate _ _
  obtain ⟨hslots, hsizes, hmemories⟩ := Link.fillSegments_slots hm hempty hfill
  exact ⟨hmemories.trans hl.size_define_memories, hsizes.trans hl.size_define_tables, hslots⟩

/-- Whatever the imports and the settings are, linking a module that was read
    lays out its store as the module numbers what it imports and defines. -/
theorem Module.link_laidOut {bytes : List UInt8} (hread : Format.decode bytes = .ok m)
    (h : m.link imports config = .ok linked) : m.LaidOut imports linked := by
  have hm := Format.indexed_of_decode hread
  have hcount := Module.size_funcs_link h
  have hglobals := Module.globals_link hm h
  obtain ⟨hmemories, htables, hslots⟩ := Module.tables_link hm h
  refine {
    funcCount := hcount
    funcType := Module.funcType_link hm h
    imported := Module.imported_link h
    defined := Module.defined_link hm h
    globals := hglobals
    memories := hmemories
    tables := htables
    exports := ?_
    slots := hcount ▸ hslots }
  intro e he
  rw [Module.link_exports h, List.mem_reverse, List.mem_map] at he
  obtain ⟨x, hx, rfl⟩ := he
  obtain ⟨_, _, _, hexports, _⟩ :=
    Validity.check_ok_iff.mp (Format.decode_eq_ok_iff.mp hread).2
  have hrange := hexports x hx
  have hglobalCount : linked.store.globals.size = m.globalTypes.size := by
    rw [← hglobals, Array.size_map]
  exact Store.holds_of_exportDesc hcount htables hmemories hglobalCount hrange

end

/-- Tells the host its argument, counts the call in steps that the host gives,
    and grows its memory by so many pages. -/
def meter : Module where
  types := #[{ params := [.i32] }, { params := [.i32], results := [.i32] }]
  imports := #[{ module := "env", name := "step", desc := .global ⟨.i32, false⟩ },
    { module := "env", name := "tick", desc := .func 0 }]
  functions := #[{ type := 1, locals := #[.i64], body := #[.plain (.localGet 0), .plain (.call 0),
    .plain (.globalGet 1), .plain (.globalGet 0), .plain (.intBinary .w32 .add),
    .plain (.globalSet 1), .plain (.localGet 0), .plain .memoryGrow, .end_] }]
  tables := #[{ min := 2 }]
  memories := #[{ min := 1, max := some 3 }]
  globals := #[{ type := ⟨.i32, true⟩, init := [.globalGet 0] },
    { type := ⟨.i64, false⟩, init := [.const (.i64 7)] }]
  exports := #[{ name := "grow", desc := .func 1 }, { name := "count", desc := .global 1 },
    { name := "memory", desc := .memory 0 }]
  elements := #[{ table := 0, offset := [.const (.i32 0)], funcs := [1] }]

/-- The bytes of `meter`. -/
def meterBytes : List UInt8 :=
  [0x00, 0x61, 0x73, 0x6D, 0x01, 0x00, 0x00, 0x00,
    0x01, 0x0A, 0x02, 0x60, 0x01, 0x7F, 0x00, 0x60, 0x01, 0x7F, 0x01, 0x7F,
    0x02, 0x18, 0x02, 0x03, 0x65, 0x6E, 0x76, 0x04, 0x73, 0x74, 0x65, 0x70, 0x03, 0x7F, 0x00,
    0x03, 0x65, 0x6E, 0x76, 0x04, 0x74, 0x69, 0x63, 0x6B, 0x00, 0x00,
    0x03, 0x02, 0x01, 0x01,
    0x04, 0x04, 0x01, 0x70, 0x00, 0x02,
    0x05, 0x04, 0x01, 0x01, 0x01, 0x03,
    0x06, 0x0B, 0x02, 0x7F, 0x01, 0x23, 0x00, 0x0B, 0x7E, 0x00, 0x42, 0x07, 0x0B,
    0x07, 0x19, 0x03, 0x04, 0x67, 0x72, 0x6F, 0x77, 0x00, 0x01, 0x05, 0x63, 0x6F, 0x75, 0x6E,
    0x74, 0x03, 0x01, 0x06, 0x6D, 0x65, 0x6D, 0x6F, 0x72, 0x79, 0x02, 0x00,
    0x09, 0x07, 0x01, 0x00, 0x41, 0x00, 0x0B, 0x01, 0x01,
    0x0A, 0x15, 0x01, 0x13, 0x01, 0x01, 0x7E, 0x20, 0x00, 0x10, 0x00, 0x23, 0x01, 0x23, 0x00,
    0x6A, 0x24, 0x01, 0x20, 0x00, 0x40, 0x00, 0x0B]

theorem decode_meter : Format.decode meterBytes = .ok meter :=
  Format.eq_ok_of_toOption (by decide +kernel)

/-- A host that counts its calls and lets others count in twos. -/
def twoSteps : Imports Nat := ticks.define "env" "step" (.global (.i32 2) false)

/-- An instance of `meter` that was not used yet. -/
def meterLinked : Link.Linked Nat where
  store :=
    { funcs := #[.host tick.type "env" "tick" 0,
        .defined { params := [.i32], results := [.i32] } 0]
      memories := #[.ofPages 1 (some 3)]
      tables := #[{ slots := #[some 1, none] }]
      globals := #[⟨.i32 2, false⟩, ⟨.i32 2, true⟩, ⟨.i64 7, false⟩]
      exports := [("memory", .memory 0), ("count", .global 1), ("grow", .func 1)]
      pageLimit := 65536 }
  hosts := #[tick]

/-- Any function of that type can stand for `tick`. -/
theorem link_meter_of {imports : Imports Nat} {f : HostFunc Nat}
    (hstep : imports.get? "env" "step" = some (.global (.i32 2) false))
    (htick : imports.get? "env" "tick" = some (.func f)) (htype : f.type = tick.type) :
    meter.link imports {} = .ok { meterLinked with hosts := #[f] } := by
  let imported : Store :=
    { funcs := #[.host tick.type "env" "tick" 0], globals := #[⟨.i32 2, false⟩]
      pageLimit := 65536 }
  let empty : Array Table := #[{ slots := #[none, none] }]
  have himports : meter.imports.foldlM (Link.resolve meter.types imports)
      { store := { pageLimit := 65536 }, hosts := #[] } = .ok ⟨imported, #[f]⟩ := by
    obtain ⟨type, call⟩ := f
    obtain rfl : type = tick.type := htype
    simp only [meter, List.foldlM_toArray, List.foldlM_cons, List.foldlM_nil, Link.resolve, hstep,
      htick]
    rfl
  have hsmall : meter.memories.find? (65536 < ·.min.toNat) = none := by decide
  have hdefine : Link.define meter imported = { meterLinked.store with tables := empty } := by
    simp [imported, empty, meterLinked, Link.define, meter, Link.definedFuncs, Link.table,
      Link.memory, Link.addGlobal, Link.constant?]
    rfl
  -- the bytes of the memory are not looked at, so they need not be computed
  have hfill (memories : Array Memory) :
      Link.fillSegments meter { meterLinked.store with tables := empty, memories } =
        .ok { meterLinked.store with memories } := by
    simp only [meterLinked, empty]
    generalize Memory.ofPages 1 (some 3) = memory
    cbv
  unfold Module.link
  dsimp only
  rw [himports]
  simp only [bind, Except.bind, hsmall, hdefine]
  rw [hfill]
  rfl

theorem link_meter : meter.link twoSteps {} = .ok meterLinked := link_meter_of rfl rfl rfl

/-- The global comes before the function, and both are entries 0. -/
theorem meter_link_laidOut :
    Format.decode meterBytes = .ok meter ∧ meter.link twoSteps {} = .ok meterLinked ∧
      meter.LaidOut twoSteps meterLinked :=
  ⟨decode_meter, link_meter, Module.link_laidOut decode_meter link_meter⟩

end Wasm
