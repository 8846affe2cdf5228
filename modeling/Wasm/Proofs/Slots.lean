import Wasm.Proofs.Linking.IndexSpaces
import Wasm.Proofs.Machine.Life
import Wasm.Proofs.Memory.Growth

/-!
# Slots keep their types

Operands are not checked before code runs, so whether a slot holds a value of
its type rests on what is checked on the way into it: a constant expression
when the module is read, an import when it is linked, an argument when it is
passed and a value when it is assigned. Together they are enough, for globals
and for the locals of every active function, over any number of calls. Globals
that are not mutable keep their initial values, and of the store nothing else
changes but the bytes of memories and the fuel.
-/

namespace Wasm

variable {σ : Type}

theorem map_setIfInBounds_of_eq {α β : Type} {f : α → β} {xs : Array α} {index : Nat} {old x : α}
    (hold : xs[index]? = some old) (hx : f x = f old) :
    (xs.setIfInBounds index x).toList.map f = xs.toList.map f := by
  obtain ⟨hindex, rfl⟩ := Array.getElem?_eq_some_iff.mp hold
  have hindex' : index < (xs.toList.map f).length := by simpa using hindex
  have hget : f xs[index] = (xs.toList.map f)[index] := by simp
  rw [Array.toList_setIfInBounds, List.map_set, hx, hget, List.set_getElem_self]

/-- A host function that writes no functions, tables, globals or exports. -/
structure HostFunc.SparesSlots (f : HostFunc σ) : Prop where
  funcs : ∀ args s state, (f.call args s state).store.funcs = s.funcs
  tables : ∀ args s state, (f.call args s state).store.tables = s.tables
  globals : ∀ args s state, (f.call args s state).store.globals = s.globals
  exports : ∀ args s state, (f.call args s state).store.exports = s.exports

/-- The most pages that each memory may have. -/
def Store.maxima (s : Store) : Array (Option Nat) := s.memories.map (·.max)

theorem Store.maxima_setMemory {s : Store} {m m' : Memory} (hm : s.memory? = some m)
    (hmax : m'.max = m.max) :
    ({ s with memories := s.memories.setIfInBounds 0 m' } : Store).maxima = s.maxima := by
  apply Array.toList_inj.mp
  rw [maxima, maxima, Array.toList_map, Array.toList_map]
  exact map_setIfInBounds_of_eq hm hmax

theorem Store.maxima_grow (s : Store) (delta : BitVec 32) : (s.grow delta).2.maxima = s.maxima := by
  unfold grow
  split
  · rename_i m hm
    exact maxima_setMemory hm (m.max_grow delta.toNat s.pageLimit)
  · rfl

/-- A host function that adds no memory, takes none away and leaves their
    maxima as they are. -/
def HostFunc.SparesMaxima (f : HostFunc σ) : Prop :=
  ∀ args s state, (f.call args s state).store.maxima = s.maxima

-- ---------------------------------------------------------------------------
-- Initial values
-- ---------------------------------------------------------------------------

namespace Module

/-- The value that the host gives for an imported global. -/
def importedValue? (m : Module) (imports : Imports σ) (index : Nat) : Option Value := do
  let i ← (m.imports.filter (·.desc.global?.isSome))[index]?
  match imports.get? i.module i.name with
  | some (.global value _) => some value
  | _ => none

/-- The value of a constant expression that names imported globals only. -/
def constantValue? (m : Module) (imports : Imports σ) : ConstExpr → Option Value
  | [.const v] => some v
  | [.globalGet source] => m.importedValue? imports source.toNat
  | _ => none

/-- The value of a global before anything has run. -/
def initialValue? (m : Module) (imports : Imports σ) (index : Nat) : Option Value :=
  if index < m.importedGlobals.size then m.importedValue? imports index
  else m.globals[index - m.importedGlobals.size]?.bind (m.constantValue? imports ·.init)

variable {m : Module} {imports : Imports σ} {config : Config} {linked : Link.Linked σ}

theorem importedValue?_eq {l : Link.Linked σ}
    (h : l.Supplied m.types imports config m.imports.toList) (index : Nat) :
    m.importedValue? imports index = l.store.globals[index]?.map (·.value) := by
  have hfilter : (m.imports.filter (·.desc.global?.isSome))[index]? =
      (Link.importsOf ImportDesc.global? m.imports.toList)[index]?.map (·.1) := by
    rw [← Array.getElem?_toList, Array.toList_filter, ← Link.map_fst_importsOf,
      List.getElem?_map]
  rw [importedValue?, hfilter, ← Array.getElem?_toList]
  cases hi : (Link.importsOf ImportDesc.global? m.imports.toList)[index]? with
  | none =>
    have hlength := List.getElem?_eq_none_iff.mp hi
    rw [List.getElem?_eq_none (h.globals.length_eq ▸ hlength)]
    rfl
  | some entry =>
    obtain ⟨g, hg, hget, _⟩ := Link.getElem?_of_forall₂ h.globals hi
    simp [hg, hget]

theorem constantValue?_eq {l : Link.Linked σ}
    (h : l.Supplied m.types imports config m.imports.toList) {e : ConstExpr} {type : ValueType}
    {visible : Nat} (he : e.Single m type visible) :
    m.constantValue? imports e = Link.constant? l.store.globals e := by
  rcases he with ⟨v, hbody, _⟩ | ⟨index, _, hbody, _⟩
  · rw [(e.body_eq_iff (.const v)).mp hbody]
    rfl
  · rw [(e.body_eq_iff (.globalGet index)).mp hbody]
    exact importedValue?_eq h index.toNat

/-- A global has its initial value before anything has run. -/
theorem define_initialValue? (hm : m.Indexed) {l : Link.Linked σ}
    (hl : l.Supplied m.types imports config m.imports.toList) {index : Nat} {g : GlobalInst}
    (hg : (Link.define m l.store).globals[index]? = some g) :
    m.initialValue? imports index = some g.value := by
  have hsize : l.store.globals.size = m.importedGlobals.size := by
    rw [← hl.map_globalType, Array.size_map]
  rw [hl.define_globals hm] at hg
  unfold initialValue?
  split
  · rename_i himported
    rw [Array.getElem?_append_left (hsize ▸ himported)] at hg
    rw [importedValue?_eq hl, hg]
    rfl
  · rename_i hdefined
    rw [Array.getElem?_append_right (hsize ▸ Nat.le_of_not_lt hdefined), Array.getElem?_map,
      hsize] at hg
    obtain ⟨d, hd, rfl⟩ := Option.map_eq_some_iff.mp hg
    have hmem := Array.mem_of_getElem? hd
    obtain ⟨v, hv, _, hinitial⟩ := Link.initial_eq hm hl.map_globalType hmem
    rw [hd, Option.bind_some, constantValue?_eq hl (hm.inits d hmem), hv, hinitial]

theorem link_initialValue? (hm : m.Indexed) (h : m.link imports config = .ok linked)
    {index : Nat} {g : GlobalInst} (hg : linked.store.globals[index]? = some g) :
    m.initialValue? imports index = some g.value := by
  obtain ⟨l, hl, _, hfill, _⟩ := Module.link_eq_ok h
  obtain ⟨tables, memories, hstore⟩ := Link.fillSegments_eq_ok hfill
  rw [hstore] at hg
  exact define_initialValue? hm hl hg

end Module

-- ---------------------------------------------------------------------------
-- The invariant
-- ---------------------------------------------------------------------------

/-- The locals of an active function have the types of its parameters and of
    the locals that it declares. -/
def Activation.Typed (m : Module) (funcs : Array FuncInst) (a : Activation) : Prop :=
  ∃ type code f, funcs[a.func.toNat]? = some (.defined type code) ∧
    m.functions[code]? = some f ∧ a.locals.toList.map Value.type = type.params ++ f.locals.toList

/-- What running code keeps of a store `s` that was linked. -/
structure Holdings.Kept (m : Module) (s : Store) (h : Holdings) : Prop where
  funcs : h.store.funcs = s.funcs
  tables : h.store.tables = s.tables
  exports : h.store.exports = s.exports
  globals : h.store.globals.map Link.globalType = s.globals.map Link.globalType
  constants : ∀ (index : Nat) (g : GlobalInst), s.globals[index]? = some g → g.mutable = false →
    h.store.globals[index]? = some g
  locals : ∀ a ∈ h.active, a.Typed m s.funcs

/-- The module declares the global mutable. -/
def Module.Mutable (m : Module) (index : UInt32) : Prop :=
  ∃ type, m.globalTypes[index.toNat]? = some type ∧ type.mutable

theorem Module.Indexed.assigns {m : Module} (hm : m.Indexed) : m.Assigns m.Mutable := by
  intro func pc index hinstr
  obtain ⟨f, hf, hpc⟩ := Option.bind_eq_some_iff.mp hinstr
  obtain ⟨t, _, hindexed⟩ := hm.functions f (Array.mem_of_getElem? hf)
  exact hindexed.assigned index (Array.mem_of_getElem? hpc)

namespace Holdings.Change

variable {env : Env σ} {h h' : Holdings} {s : Store}

theorem kept (hhosts : ∀ f ∈ env.hosts, f.SparesSlots)
    (htypes : s.globals.map Link.globalType = env.module.globalTypes)
    (hdefined : ∀ type code, .defined type code ∈ s.funcs →
      ∃ f, env.module.functions[code]? = some f)
    (hchange : Change env env.module.Mutable h h') (hkept : h.Kept env.module s) :
    h'.Kept env.module s := by
  cases hchange with
  | @assignLocal _ func locals rest index old v hold htype =>
    refine { hkept with locals := ?_ }
    intro a ha
    rcases List.mem_cons.mp ha with rfl | ha
    · obtain ⟨type, code, f, hfunc, hf, hlocals⟩ := hkept.locals ⟨func, locals⟩ List.mem_cons_self
      refine ⟨type, code, f, hfunc, hf, ?_⟩
      rw [← hlocals]
      exact map_setIfInBounds_of_eq hold htype
    · exact hkept.locals a (List.mem_cons_of_mem _ ha)
  | @assignGlobal s₀ active index g v hamong hg htype =>
    refine { hkept with globals := ?_, constants := ?_ }
    · rw [← hkept.globals]
      apply Array.ext_getElem?
      intro i
      simp only [Array.getElem?_map, Array.getElem?_modify]
      split
      · rename_i hi
        rw [← hi, hg]
        simp [Link.globalType, htype]
      · rfl
    · intro i g' hg' himmutable
      have hne : index.toNat ≠ i := by
        rintro rfl
        obtain ⟨t, ht, hmutable⟩ := hamong
        rw [← htypes, Array.getElem?_map, hg'] at ht
        cases ht
        exact absurd hmutable (by simp [Link.globalType, himmutable])
      simp only [Array.getElem?_modify, if_neg hne]
      exact hkept.constants i g' hg' himmutable
  | write hwrite =>
    obtain ⟨_, _, rfl⟩ := Store.write_eq_ok hwrite
    exact { hkept with }
  | @grow s₀ active delta =>
    unfold Store.grow
    split <;> exact { hkept with }
  | fuel fuel => exact { hkept with }
  | host hf args state =>
    have hspares := hhosts _ hf
    exact {
      funcs := (hspares.funcs args _ state).trans hkept.funcs
      tables := (hspares.tables args _ state).trans hkept.tables
      exports := (hspares.exports args _ state).trans hkept.exports
      globals := (congrArg _ (hspares.globals args _ state)).trans hkept.globals
      constants := fun index g hg hmutable =>
        (congrArg (·[index]?) (hspares.globals args _ state)).trans
          (hkept.constants index g hg hmutable)
      locals := hkept.locals }
  | @enter s₀ active a type code hfunc ha =>
    refine { hkept with locals := List.forall_mem_cons.mpr ⟨?_, hkept.locals⟩ }
    have hlinked := hkept.funcs ▸ hfunc
    obtain ⟨f, hf⟩ := hdefined type code (Array.mem_of_getElem? hlinked)
    refine ⟨type, code, f, hlinked, hf, ?_⟩
    rw [Activation.Fresh, hf] at ha
    exact ha
  | leave => exact { hkept with locals := fun a ha => hkept.locals a (List.mem_cons_of_mem _ ha) }

theorem maxima {among : UInt32 → Prop} (hhosts : ∀ f ∈ env.hosts, f.SparesMaxima)
    (hchange : Change env among h h') : h'.store.maxima = h.store.maxima := by
  cases hchange with
  | assignLocal | assignGlobal | fuel | enter | leave => rfl
  | write hwrite =>
    obtain ⟨m, hm, rfl⟩ := Store.write_eq_ok hwrite
    exact Store.maxima_setMemory hm rfl
  | grow delta => exact Store.maxima_grow _ delta
  | host hf args state => exact hhosts _ hf args _ state

end Holdings.Change

/-- A defined function of a linked store has its code in the module. -/
theorem Module.functions_link {m : Module} {imports : Imports σ} {config : Config}
    {linked : Link.Linked σ} (h : m.link imports config = .ok linked) (type : FuncType)
    (code : Nat) (hmem : .defined type code ∈ linked.store.funcs) :
    ∃ f, m.functions[code]? = some f := by
  rw [← Array.mem_toList_iff, Module.link_funcs h] at hmem
  rcases List.mem_append.mp hmem with hmem | hmem
  · obtain ⟨slot, _, hslot⟩ := List.mem_mapIdx.mp hmem
    cases hslot
  · obtain ⟨code', hcode', hget⟩ := List.mem_iff_getElem.mp hmem
    simp [Link.definedFuncs] at hget hcode'
    exact ⟨m.functions[code], Array.getElem?_eq_getElem (hget.2 ▸ hcode')⟩

/-- Whatever the imports, the settings and the calls are: in every state that an
    instance of a module comes to, globals and locals have their types, those
    that are not mutable their initial values, and the rest of the store but
    the bytes of memories and the fuel is as it was linked. For the memories
    there are and their maxima, host functions have to leave those alone too. -/
theorem Module.slots_kept {bytes : List UInt8} {m : Module} (hread : Format.decode bytes = .ok m)
    {imports : Imports σ} {config : Config} {linked : Link.Linked σ}
    (hlink : m.link imports config = .ok linked) (hhosts : ∀ f ∈ linked.hosts, f.SparesSlots)
    {called : List Nat} {host : σ} {n : Machine σ}
    (hleads : Machine.Leads { module := m, hosts := linked.hosts, config }
      { cache := .filled m called, host, store := linked.store } n) :
    n.store.globals.map Link.globalType = m.globalTypes ∧
    (∀ (index : Nat) (type : GlobalType), m.globalTypes[index]? = some type →
      type.mutable = false → ∃ v, m.initialValue? imports index = some v ∧
        n.store.globals[index]? = some ⟨v, false⟩) ∧
    (∀ frame ∈ n.frames, frame.activation.Typed m linked.store.funcs) ∧
    n.store.funcs = linked.store.funcs ∧ n.store.tables = linked.store.tables ∧
    n.store.exports = linked.store.exports ∧
    ((∀ f ∈ linked.hosts, f.SparesMaxima) → n.store.maxima = linked.store.maxima) := by
  have hm := Format.indexed_of_decode hread
  have htypes := Module.globals_link hm hlink
  have hsourced := Machine.sourced_filled m called
  have hkept : n.holdings.Kept m linked.store := by
    have hchanges := hleads.changes hm.assigns hsourced
    apply hchanges.preserve
    · intro h h' hchange hh
      have hdefined := Module.functions_link hlink
      exact Holdings.Change.kept hhosts htypes hdefined hchange hh
    · exact ⟨rfl, rfl, rfl, rfl, fun _ _ hg _ => hg, List.forall_mem_nil _⟩
  refine ⟨hkept.globals.trans htypes, ?_, ?_, hkept.funcs, hkept.tables, hkept.exports, ?_⟩
  · intro index type htype hmutable
    rw [← htypes, Array.getElem?_map] at htype
    obtain ⟨g, hg, rfl⟩ := Option.map_eq_some_iff.mp htype
    refine ⟨g.value, Module.link_initialValue? hm hlink hg, ?_⟩
    have hkeeps : n.store.globals[index]? = some g := hkept.constants index g hg hmutable
    rw [hkeeps, ← hmutable]
    rfl
  · intro frame hframe
    exact hkept.locals _ (List.mem_map_of_mem hframe)
  · intro hmaxima
    refine (hleads.changes m.assigns_any hsourced).preserve
      (P := fun h => h.store.maxima = linked.store.maxima) ?_ rfl
    exact fun h h' hchange hh => (hchange.maxima hmaxima).trans hh

/-- A host function that counts its calls and makes other memories of those
    there are. -/
def remaking (remake : Array Memory → Array Memory) : HostFunc Nat where
  type := tick.type
  call _ s n := ⟨.ok [], { s with memories := remake s.memories }, n + 1⟩

theorem remaking_sparesSlots (remake : Array Memory → Array Memory) :
    (remaking remake).SparesSlots :=
  ⟨fun _ _ _ => rfl, fun _ _ _ => rfl, fun _ _ _ => rfl, fun _ _ _ => rfl⟩

theorem tick_sparesSlots : tick.SparesSlots := remaking_sparesSlots id

/-- Along seven steps of `meter`, which assign its one mutable global and grow
    its memory. -/
theorem meter_slots_kept :
    Format.decode meterBytes = .ok meter ∧ meter.link twoSteps {} = .ok meterLinked ∧
      let env : Env Nat := { module := meter, hosts := #[tick], config := {} }
      let start : Machine Nat :=
        { cache := .filled meter [], host := 0, store := meterLinked.store }
      let trail := (Request.invoke "grow" [.i32 1]).trail env 7 start
      trail.length = 8 ∧ ∀ n ∈ trail,
        n.store.globals.map Link.globalType = meter.globalTypes ∧
        n.store.globals[0]? = some ⟨.i32 2, false⟩ ∧ n.store.globals[2]? = some ⟨.i64 7, false⟩ ∧
        (∀ frame ∈ n.frames, frame.activation.Typed meter meterLinked.store.funcs) ∧
        n.store.funcs = meterLinked.store.funcs ∧ n.store.tables = meterLinked.store.tables ∧
        n.store.exports = meterLinked.store.exports ∧ n.store.maxima = #[some 3] := by
  have hhosts : ∀ f ∈ meterLinked.hosts, f.SparesSlots := by
    intro f hf
    obtain rfl := List.mem_singleton.mp (List.mem_toArray.mp hf)
    exact tick_sparesSlots
  have hmaxima : ∀ f ∈ meterLinked.hosts, f.SparesMaxima := by
    intro f hf
    obtain rfl := List.mem_singleton.mp (List.mem_toArray.mp hf)
    exact fun _ _ _ => rfl
  refine ⟨decode_meter, link_meter, ?_⟩
  intro env start trail
  refine ⟨by decide +kernel, fun n hn => ?_⟩
  have hleads : Machine.Leads env start n := Machine.leads_requestTrail rfl 7 _ n hn
  obtain ⟨hglobals, hconstants, hlocals, hfuncs, htables, hexports, hmemories⟩ :=
    Module.slots_kept decode_meter link_meter hhosts hleads
  obtain ⟨v, hv, hstep⟩ := hconstants 0 ⟨.i32, false⟩ (by decide +kernel) rfl
  obtain ⟨w, hw, hseven⟩ := hconstants 2 ⟨.i64, false⟩ (by decide +kernel) rfl
  have hv' : meter.initialValue? twoSteps 0 = some (.i32 2) := by decide +kernel
  have hw' : meter.initialValue? twoSteps 2 = some (.i64 7) := by decide +kernel
  cases hv.symm.trans hv'
  cases hw.symm.trans hw'
  exact ⟨hglobals, hstep, hseven, hlocals, hfuncs, htables, hexports,
    (hmemories hmaxima).trans (by decide +kernel)⟩

/-- Host functions that write no functions, tables, globals or exports can still
    take away the memories of `meter`, or just their maxima. -/
theorem meter_maxima_lost :
    Format.decode meterBytes = .ok meter ∧ meterLinked.store.maxima = #[some 3] ∧
      let imports (remake : Array Memory → Array Memory) : Imports Nat :=
        twoSteps.define "env" "tick" (.func (remaking remake))
      let env (remake : Array Memory → Array Memory) : Env Nat :=
        { module := meter, hosts := #[remaking remake], config := {} }
      let start : Machine Nat :=
        { cache := .filled meter [], host := 0, store := meterLinked.store }
      (∀ remake, (remaking remake).SparesSlots ∧ meter.link (imports remake) {} =
        .ok { meterLinked with hosts := #[remaking remake] }) ∧
      (∃ n, Machine.Leads (env fun _ => #[]) start n ∧ n.store.maxima = #[]) ∧
      ∃ n, Machine.Leads (env (Array.map ({ · with max := none }))) start n ∧
        n.store.maxima = #[none] := by
  refine ⟨decode_meter, by decide +kernel, ?_⟩
  intro imports env start
  have hleads {remake : Array Memory → Array Memory} {maxima : Array (Option Nat)}
      (h : ∃ n ∈ (Request.invoke "grow" [.i32 1]).trail (env remake) 7 start,
        n.store.maxima = maxima) :
      ∃ n, Machine.Leads (env remake) start n ∧ n.store.maxima = maxima := by
    obtain ⟨n, hn, hmaxima⟩ := h
    exact ⟨n, Machine.leads_requestTrail rfl 7 _ n hn, hmaxima⟩
  refine ⟨fun remake => ⟨remaking_sparesSlots remake, link_meter_of rfl rfl rfl⟩, ?_, ?_⟩
  · exact hleads (by decide +kernel)
  · exact hleads (by decide +kernel)

end Wasm
