import Wasm.Proofs.Linking.Imports
import Wasm.Proofs.Safety.Execution

/-!
# Linking

Linking a valid module gives a store in which everything the module names is
there, and what it relies on while it lays out that store is given.
-/

namespace Wasm

variable {σ : Type}

/-- Every host function given to a module is tame. -/
def Imports.Tame (imports : Imports σ) : Prop :=
  ∀ module name f, imports.get? module name = some (.func f) → f.Tame

namespace Link

-- ---------------------------------------------------------------------------
-- Imports
-- ---------------------------------------------------------------------------

/-- A store that holds imports only. -/
structure Linked.Sound (l : Linked σ) : Prop where
  funcs : ∀ f ∈ l.store.funcs, ∃ type module name slot,
    f = .host type module name slot ∧ slot < l.hosts.size
  hosts : ∀ f ∈ l.hosts, f.Tame
  pageLimit : l.store.pageLimit < UInt32.size

theorem Linked.Supplied.sound {types : Array FuncType} {imports : Imports σ} {config : Config}
    {is : List Import} {l : Linked σ} (h : l.Supplied types imports config is)
    (himports : imports.Tame) (hpages : config.maxMemoryPages < UInt32.size) : l.Sound where
  funcs _ hf := h.host_of_mem_funcs hf
  hosts f hf := by
    obtain ⟨module, name, hget⟩ := h.get?_of_mem_hosts hf
    exact himports module name f hget
  pageLimit := h.pageLimit ▸ hpages

-- ---------------------------------------------------------------------------
-- Definitions
-- ---------------------------------------------------------------------------

theorem size_addGlobals (gs : List Global) (globals : Array GlobalInst) :
    (gs.foldl addGlobal globals).size = globals.size + gs.length := by
  induction gs generalizing globals with
  | nil => rfl
  | cons g gs ih =>
    rw [List.foldl_cons, ih]
    simp [addGlobal]
    omega

theorem size_define_globals {m : Module} {s : Store}
    (hs : s.globals.size = m.importedGlobals.size) :
    (define m s).globals.size = m.globalTypes.size := by
  have h := size_addGlobals m.globals.toList s.globals
  simp only [define, Module.globalTypes, Array.size_append, Array.size_map]
  rw [← Array.foldl_toList, h, hs, Array.length_toList]

theorem mem_definedFuncs {m : Module} (hm : Validity.check m = .ok ()) {f : FuncInst}
    (hf : f ∈ definedFuncs m) :
    ∃ type code g, f = .defined type code ∧ m.functions[code]? = some g ∧
      m.types[g.type.toNat]? = some type := by
  obtain ⟨code, hcode, rfl⟩ := Array.mem_iff_getElem.mp hf
  simp only [definedFuncs, Array.size_mapIdx] at hcode
  have hg : m.functions[code] ∈ m.functions.toList := by simp
  obtain ⟨type, htype, _⟩ :=
    Validity.function_ok_iff.mp ((Validity.check_ok_iff.mp hm).2.2.2.2.2.2.2 _ hg)
  refine ⟨type, code, m.functions[code], ?_, Array.getElem?_eq_getElem hcode, htype⟩
  simp [definedFuncs, htype]

theorem define_sound {m : Module} (hm : Validity.check m = .ok ()) {l : Linked σ} (hl : l.Sound)
    (hglobals : l.store.globals.size = m.importedGlobals.size) (config : Config) :
    (define m l.store).Sound { module := m, hosts := l.hosts, config } where
  hosts {type module name slot} hf := by
    rcases Array.mem_append.mp hf with hf | hf
    · obtain ⟨_, _, _, _, heq, hslot⟩ := hl.funcs _ hf
      cases heq
      exact hslot
    · obtain ⟨_, _, _, heq, _⟩ := mem_definedFuncs hm hf
      cases heq
  defined {type code} hf := by
    rcases Array.mem_append.mp hf with hf | hf
    · obtain ⟨_, _, _, _, heq, _⟩ := hl.funcs _ hf
      cases heq
    · obtain ⟨_, _, g, heq, hg, htype⟩ := mem_definedFuncs hm hf
      cases heq
      exact ⟨g, hg, htype⟩
  globals := Nat.le_of_eq (size_define_globals hglobals).symm
  pageLimit := hl.pageLimit

-- ---------------------------------------------------------------------------
-- Segments
-- ---------------------------------------------------------------------------

@[simp] theorem size_fill (slots : Array (Option UInt32)) (at_ : Nat) (fs : List UInt32) :
    (fill slots at_ fs).size = slots.size := by
  induction fs generalizing slots at_ with
  | nil => rfl
  | cons f fs ih => simp [fill, ih]

theorem size_overwrite (data : ByteArray) (address : Nat) (bs : List UInt8) :
    (Memory.overwrite data address bs).size = data.size := by
  induction bs generalizing data address with
  | nil => rfl
  | cons b bs ih =>
    rw [Memory.overwrite, ih]
    split
    · exact Array.size_set _
    · rfl

theorem elementFits_putElement (s : Store) (e e' : ElementSegment) :
    elementFits (putElement s e) e' = elementFits s e' := by
  have hoffset : offset (putElement s e) e'.offset = offset s e'.offset := rfl
  unfold elementFits
  rw [hoffset]
  congr 2
  simp only [putElement, Array.getElem?_modify]
  split
  · cases s.tables[e'.table.toNat]? <;> simp_all
  · rfl

theorem dataFits_putData (s : Store) (d d' : DataSegment) :
    dataFits (putData s d) d' = dataFits s d' := by
  have hoffset : offset (putData s d) d'.offset = offset s d'.offset := rfl
  unfold dataFits
  rw [hoffset]
  congr 2
  simp only [putData, Array.getElem?_modify]
  split
  · cases s.memories[d'.memory.toNat]? <;> simp_all [Memory.put, Memory.size, size_overwrite]
  · rfl

theorem elementDemands_met (es : List ElementSegment) {s : Store}
    (h : ∀ e ∈ es, elementFits s e) : ∀ d ∈ elementDemands es s, d.Met := by
  induction es generalizing s with
  | nil => simp [elementDemands]
  | cons e es ih =>
    intro d hd
    rcases List.mem_append.mp hd with hd | hd
    · have hfits := h e List.mem_cons_self
      cases htable : s.tables[e.table.toNat]? with
      | none => simp [htable] at hd
      | some t =>
        simp only [htable, List.mem_cons, List.not_mem_nil, or_false] at hd
        subst hd
        simp only [elementFits, htable, Option.map_some, Option.getD_some,
          decide_eq_true_eq] at hfits
        simp only [Demand.Met]
        omega
    · refine ih (fun e' he' => ?_) d hd
      rw [elementFits_putElement]
      exact h e' (List.mem_cons_of_mem _ he')

theorem dataDemands_met (ds : List DataSegment) {s : Store}
    (h : ∀ d ∈ ds, dataFits s d) : ∀ d ∈ dataDemands ds s, d.Met := by
  induction ds generalizing s with
  | nil => simp [dataDemands]
  | cons seg ds ih =>
    intro d hd
    rcases List.mem_append.mp hd with hd | hd
    · have hfits := h seg List.mem_cons_self
      cases hmemory : s.memories[seg.memory.toNat]? with
      | none => simp [hmemory] at hd
      | some memory =>
        simp only [hmemory, List.mem_cons, List.not_mem_nil, or_false] at hd
        subst hd
        simp only [dataFits, hmemory, Option.map_some, Option.getD_some,
          decide_eq_true_eq] at hfits
        exact ⟨Nat.le_add_right _ _, hfits⟩
    · refine ih (fun d' hd' => ?_) d hd
      rw [dataFits_putData]
      exact h d' (List.mem_cons_of_mem _ hd')

theorem offset_lt (s : Store) (e : ConstExpr) : offset s e < UInt32.size := by
  unfold offset
  split
  · rename_i x _
    exact x.isLt
  · decide

/-- Writing segments changes contents only. -/
theorem foldl_putElement (es : List ElementSegment) (s : Store) :
    ∃ tables, es.foldl putElement s = { s with tables } := by
  induction es generalizing s with
  | nil => exact ⟨s.tables, rfl⟩
  | cons e es ih =>
    obtain ⟨tables, h⟩ := ih (putElement s e)
    exact ⟨tables, h⟩

theorem foldl_putData (ds : List DataSegment) (s : Store) :
    ∃ memories, ds.foldl putData s = { s with memories } := by
  induction ds generalizing s with
  | nil => exact ⟨s.memories, rfl⟩
  | cons d ds ih =>
    obtain ⟨memories, h⟩ := ih (putData s d)
    exact ⟨memories, h⟩

theorem fillSegments_eq_foldl {m : Module} {s s' : Store} (h : fillSegments m s = .ok s') :
    s' = m.data.toList.foldl putData (m.elements.toList.foldl putElement s) := by
  unfold fillSegments at h
  split at h
  · cases h
  · split at h
    · cases h
    · cases h
      rw [← Array.foldl_toList, ← Array.foldl_toList]

theorem fillSegments_eq_ok {m : Module} {s s' : Store} (h : fillSegments m s = .ok s') :
    ∃ tables memories, s' = { s with tables, memories } := by
  obtain ⟨tables, htables⟩ := foldl_putElement m.elements.toList s
  obtain ⟨memories, hmemories⟩ := foldl_putData m.data.toList { s with tables }
  exact ⟨tables, memories, by rw [fillSegments_eq_foldl h, htables, hmemories]⟩

theorem demands_met {m : Module} (hm : m.Sized) (s : Store) : ∀ d ∈ demands m s, d.Met := by
  have hsum : UInt32.size + UInt32.size ≤ UInt64.size := by decide
  intro d hd
  simp only [demands, List.mem_append, List.mem_map] at hd
  rcases hd with ((⟨limits, _, rfl⟩ | ⟨e, he, rfl⟩) | ⟨seg, hseg, rfl⟩) | hd
  · have hmin := limits.min.toNat_lt_size
    calc limits.min.toNat * pageSize ≤ UInt32.size * pageSize :=
          Nat.mul_le_mul_right _ (Nat.le_of_lt hmin)
      _ < UInt64.size := by decide
  · have hlen := hm.elements e (Array.mem_toList_iff.mp he)
    have hoffset := offset_lt s e.offset
    simp only [Demand.Met]
    omega
  · have hlen := hm.data seg (Array.mem_toList_iff.mp hseg)
    have hoffset := offset_lt s seg.offset
    simp only [Demand.Met]
    omega
  · split at hd
    · rename_i hfits
      simp only [Bool.and_eq_true, Array.all_eq_true'] at hfits
      rcases List.mem_append.mp hd with hd | hd
      · exact elementDemands_met _ (fun e he => hfits.1 e (Array.mem_toList_iff.mp he)) d hd
      · refine dataDemands_met _ (fun seg hseg => ?_) d hd
        -- elements do not touch memories
        obtain ⟨tables, htables⟩ := foldl_putElement m.elements.toList s
        rw [← Array.foldl_toList, htables]
        exact hfits.2 seg (Array.mem_toList_iff.mp hseg)
    · cases hd

end Link

/-- Linking alone runs no code. -/
theorem Module.link_ne_start {m : Module} {imports : Imports σ} {config : Config} (e : Fault) :
    m.link imports config ≠ .error (.start e) := by
  have hresolve : ∀ (is : List Import) (l : Link.Linked σ),
      is.foldlM (Link.resolve m.types imports) l ≠ .error (.start e) := by
    intro is
    induction is with
    | nil =>
      intro l h
      cases h
    | cons i is ih =>
      intro l h
      rw [List.foldlM_cons] at h
      cases hi : Link.resolve m.types imports l i with
      | ok l' =>
        rw [hi] at h
        exact ih l' h
      | error reason =>
        rw [hi] at h
        cases h
        unfold Link.resolve at hi
        split at hi
        · cases hi
        · cases hsupply : Link.supply m.types l i _ <;> rw [hsupply] at hi <;> cases hi
  intro h
  unfold Module.link at h
  dsimp only at h
  rw [← Array.foldlM_toList] at h
  cases hl : m.imports.toList.foldlM (Link.resolve m.types imports)
      { store := { fuel := config.fuel, pageLimit := config.maxMemoryPages }, hosts := #[] } with
  | error reason =>
    rw [hl] at h
    cases h
    exact hresolve _ _ hl
  | ok l =>
    rw [hl] at h
    simp only [bind, Except.bind] at h
    split at h
    · cases h
    · cases hstore : Link.fillSegments m (Link.define m l.store) with
      | ok store =>
        rw [hstore] at h
        cases h
      | error reason =>
        rw [hstore] at h
        cases h
        unfold Link.fillSegments at hstore
        split at hstore
        · cases hstore
        · split at hstore <;> cases hstore

/-- The store of a new instance is sound. -/
theorem Module.link_sound {m : Module} (hm : Validity.check m = .ok ()) {imports : Imports σ}
    (himports : imports.Tame) {config : Config} (hpages : config.maxMemoryPages < UInt32.size)
    {linked : Link.Linked σ} (h : m.link imports config = .ok linked) :
    linked.store.Sound { module := m, hosts := linked.hosts, config } ∧
      ∀ f ∈ linked.hosts, f.Tame := by
  obtain ⟨l, hl, _, hfill, hhosts⟩ := Module.link_eq_ok h
  have hsound := hl.sound himports hpages
  have himported : l.store.globals.size = m.importedGlobals.size := by
    rw [hl.size_globals, ← Array.toList_filterMap, Array.length_toList]
    rfl
  obtain ⟨tables, memories, hstore⟩ := Link.fillSegments_eq_ok hfill
  have hdefine := Link.define_sound hm hsound himported config
  rw [hhosts, hstore]
  exact ⟨⟨hdefine.hosts, hdefine.defined, hdefine.globals, hdefine.pageLimit⟩, hsound.hosts⟩

theorem Module.linkDemands_met {m : Module} (hm : m.Sized) (imports : Imports σ)
    (config : Config) : ∀ d ∈ m.linkDemands imports config, d.Met := by
  unfold Module.linkDemands
  dsimp only
  split
  · exact Link.demands_met hm _
  · simp

end Wasm
