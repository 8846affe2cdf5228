import Mathlib.Data.List.Forall2
import Wasm.Link

/-!
# Imports in their index spaces

Imports of four kinds stand mixed in one list, and each is added to the index
space of its kind. What is there after all of them is, kind by kind, what the
host gives for the imports of that kind, in their order.
-/

namespace Wasm

variable {σ : Type}

namespace Link

variable {α : Type}

/-- The signature under a type index; one that does not exist is empty. -/
def signature (types : Array FuncType) (index : UInt32) : FuncType := types[index.toNat]?.getD {}

/-- The imports of one kind, each with what it asks for. -/
def importsOf (kind : ImportDesc → Option α) (is : List Import) : List (Import × α) :=
  is.filterMap fun i => (kind i.desc).map (i, ·)

section

variable (kind : ImportDesc → Option α)

theorem importsOf_concat (is : List Import) (i : Import) :
    importsOf kind (is ++ [i]) =
      importsOf kind is ++ ((kind i.desc).map (i, ·)).toList := by
  rw [importsOf, List.filterMap_append]
  cases h : kind i.desc <;> simp [importsOf, h]

theorem map_snd_importsOf (is : List Import) :
    (importsOf kind is).map (·.2) = is.filterMap (kind ·.desc) := by
  rw [importsOf, List.map_filterMap]
  congr 1
  funext i
  cases kind i.desc <;> rfl

theorem map_fst_importsOf (is : List Import) :
    (importsOf kind is).map (·.1) = is.filter (kind ·.desc |>.isSome) := by
  rw [importsOf, List.map_filterMap, ← List.filterMap_eq_filter]
  congr 1
  funext i
  cases h : kind i.desc <;> simp [h, Option.guard]

theorem length_importsOf (is : List Import) :
    (importsOf kind is).length = (is.filterMap (kind ·.desc)).length := by
  rw [← map_snd_importsOf, List.length_map]

end

theorem getElem?_of_forall₂ {β : Type} {R : α → β → Prop} {xs : List α} {ys : List β}
    (h : List.Forall₂ R xs ys) {index : Nat} {x : α} (hx : xs[index]? = some x) :
    ∃ y, ys[index]? = some y ∧ R x y := by
  obtain ⟨hindex, rfl⟩ := List.getElem?_eq_some_iff.mp hx
  have hindex' : index < ys.length := h.length_eq ▸ hindex
  exact ⟨ys[index], List.getElem?_eq_getElem hindex', h.get hindex hindex'⟩

-- ---------------------------------------------------------------------------
-- One import
-- ---------------------------------------------------------------------------

/-- An import for which the host gives what it asks for, and what is linked
    with it. -/
inductive Supplies (types : Array FuncType) (l : Linked σ) (i : Import) :
    HostValue σ → Linked σ → Prop where
  | func {index : UInt32} {f : HostFunc σ} (hdesc : i.desc = .func index)
      (htype : f.type = signature types index) :
      Supplies types l i (.func f)
        { store := { l.store with
            funcs := l.store.funcs.push
              (.host (signature types index) i.module i.name l.hosts.size) }
          hosts := l.hosts.push f }
  | global {type : GlobalType} {value : Value} {mutable : Bool} (hdesc : i.desc = .global type)
      (htype : type = ⟨value.type, mutable⟩) :
      Supplies types l i (.global value mutable)
        { l with store.globals := l.store.globals.push { value, mutable } }
  | memory {limits : Limits} {memory : Memory} (hdesc : i.desc = .memory limits)
      (hfits : memoryFits limits memory) :
      Supplies types l i (.memory memory)
        { l with store.memories := l.store.memories.push memory }

theorem supplies_of_supply {types : Array FuncType} {l l' : Linked σ} {i : Import}
    {value : HostValue σ} (h : supply types l i value = .ok l') : Supplies types l i value l' := by
  unfold supply at h
  split at h
  · rename_i hdesc
    dsimp only at h
    split at h
    · rename_i htype
      cases h
      exact .func hdesc htype
    · cases h
  · rename_i type value mutable hdesc
    split at h
    · rename_i htype
      cases h
      refine .global hdesc ?_
      rw [htype.1, htype.2]
    · cases h
  · rename_i hdesc
    split at h
    · rename_i hfits
      cases h
      exact .memory hdesc hfits
    · cases h
  · cases h
  · cases h

theorem supplies_of_resolve {types : Array FuncType} {imports : Imports σ} {l l' : Linked σ}
    {i : Import} (h : resolve types imports l i = .ok l') :
    ∃ value, imports.get? i.module i.name = some value ∧ Supplies types l i value l' := by
  unfold resolve at h
  split at h
  · cases h
  · rename_i value hvalue
    cases hsupply : supply types l i value with
    | error e =>
      rw [hsupply] at h
      cases h
    | ok l₁ =>
      rw [hsupply] at h
      cases h
      exact ⟨value, hvalue, supplies_of_supply hsupply⟩

-- ---------------------------------------------------------------------------
-- All imports
-- ---------------------------------------------------------------------------

/-- The imports are linked, in their order and kind by kind. There is none of a
    table. -/
structure Linked.Supplied (types : Array FuncType) (imports : Imports σ) (config : Config)
    (is : List Import) (l : Linked σ) : Prop where
  funcs : l.store.funcs.toList = (importsOf ImportDesc.func? is).mapIdx fun slot (i, index) =>
    .host (signature types index) i.module i.name slot
  hosts : List.Forall₂
    (fun (i, index) f =>
      imports.get? i.module i.name = some (.func f) ∧ f.type = signature types index)
    (importsOf ImportDesc.func? is) l.hosts.toList
  globals : List.Forall₂
    (fun (i, type) g =>
      imports.get? i.module i.name = some (.global g.value g.mutable) ∧
        type = ⟨g.value.type, g.mutable⟩)
    (importsOf ImportDesc.global? is) l.store.globals.toList
  memories : List.Forall₂
    (fun (i, limits) memory =>
      imports.get? i.module i.name = some (.memory memory) ∧ memoryFits limits memory)
    (importsOf ImportDesc.memory? is) l.store.memories.toList
  tables : importsOf ImportDesc.table? is = [] ∧ l.store.tables = #[]
  fuel : l.store.fuel = config.fuel
  pageLimit : l.store.pageLimit = config.maxMemoryPages

namespace Linked.Supplied

variable {types : Array FuncType} {imports : Imports σ} {config : Config} {is js : List Import}
  {l l' : Linked σ}

theorem empty : Linked.Supplied types imports config [] (σ := σ)
    { store := { fuel := config.fuel, pageLimit := config.maxMemoryPages }, hosts := #[] } :=
  ⟨rfl, .nil, .nil, .nil, ⟨rfl, rfl⟩, rfl, rfl⟩

theorem size_hosts (h : l.Supplied types imports config is) :
    l.hosts.size = (importsOf ImportDesc.func? is).length := by
  rw [← Array.length_toList, h.hosts.length_eq]

theorem resolve (h : l.Supplied types imports config is) {i : Import}
    (hi : Link.resolve types imports l i = .ok l') :
    l'.Supplied types imports config (is ++ [i]) := by
  have hconcat {α β : Type} {R : α → β → Prop} {xs ys x y} (hxs : List.Forall₂ R xs ys)
      (hx : R x y) : List.Forall₂ R (xs ++ [x]) (ys ++ [y]) :=
    List.rel_append hxs (.cons hx .nil)
  obtain ⟨value, hvalue, hsupplies⟩ := supplies_of_resolve hi
  cases hsupplies with
  | func hdesc htype =>
    refine { h with funcs := ?_, hosts := ?_, globals := ?_, memories := ?_, tables := ?_ }
    all_goals simp only [importsOf_concat, hdesc, ImportDesc.func?, ImportDesc.global?,
      ImportDesc.memory?, ImportDesc.table?, Option.map_some, Option.map_none, Option.toList_some,
      Option.toList_none, List.append_nil, Array.toList_push]
    · rw [List.mapIdx_concat, h.funcs, h.size_hosts]
    · exact hconcat h.hosts ⟨hvalue, htype⟩
    · exact h.globals
    · exact h.memories
    · exact h.tables
  | global hdesc htype =>
    refine { h with funcs := ?_, hosts := ?_, globals := ?_, memories := ?_, tables := ?_ }
    all_goals simp only [importsOf_concat, hdesc, ImportDesc.func?, ImportDesc.global?,
      ImportDesc.memory?, ImportDesc.table?, Option.map_some, Option.map_none, Option.toList_some,
      Option.toList_none, List.append_nil, Array.toList_push]
    · exact h.funcs
    · exact h.hosts
    · exact hconcat h.globals ⟨hvalue, htype⟩
    · exact h.memories
    · exact h.tables
  | memory hdesc hfits =>
    refine { h with funcs := ?_, hosts := ?_, globals := ?_, memories := ?_, tables := ?_ }
    all_goals simp only [importsOf_concat, hdesc, ImportDesc.func?, ImportDesc.global?,
      ImportDesc.memory?, ImportDesc.table?, Option.map_some, Option.map_none, Option.toList_some,
      Option.toList_none, List.append_nil, Array.toList_push]
    · exact h.funcs
    · exact h.hosts
    · exact h.globals
    · exact hconcat h.memories ⟨hvalue, hfits⟩
    · exact h.tables

theorem resolveAll (is : List Import) (h : l.Supplied types imports config js)
    (hall : is.foldlM (Link.resolve types imports) l = .ok l') :
    l'.Supplied types imports config (js ++ is) := by
  induction is generalizing l js with
  | nil =>
    cases hall
    rwa [List.append_nil]
  | cons i is ih =>
    rw [List.foldlM_cons] at hall
    cases hi : Link.resolve types imports l i with
    | error e =>
      rw [hi] at hall
      cases hall
    | ok l₁ =>
      rw [hi] at hall
      have hrest := ih (h.resolve hi) hall
      rwa [List.append_assoc] at hrest

/-- The host functions are among those imported. -/
theorem get?_of_mem_hosts (h : l.Supplied types imports config is) {f : HostFunc σ}
    (hf : f ∈ l.hosts) : ∃ module name, imports.get? module name = some (.func f) := by
  obtain ⟨slot, hslot⟩ := List.mem_iff_getElem?.mp (Array.mem_toList_iff.mpr hf)
  obtain ⟨⟨i, index⟩, _, hget, _⟩ := getElem?_of_forall₂ h.hosts.flip hslot
  exact ⟨i.module, i.name, hget⟩

/-- The functions are those of the host, each under its own number. -/
theorem host_of_mem_funcs (h : l.Supplied types imports config is) {f : FuncInst}
    (hf : f ∈ l.store.funcs) :
    ∃ type module name slot, f = .host type module name slot ∧ slot < l.hosts.size := by
  rw [← Array.mem_toList_iff, h.funcs] at hf
  obtain ⟨slot, hslot, rfl⟩ := List.mem_mapIdx.mp hf
  exact ⟨_, _, _, slot, rfl, h.size_hosts ▸ hslot⟩

theorem size_globals (h : l.Supplied types imports config is) :
    l.store.globals.size = (is.filterMap (·.desc.global?)).length := by
  rw [← Array.length_toList, ← h.globals.length_eq, length_importsOf]

end Linked.Supplied

end Link

/-- What is linked before segments are written. -/
theorem Module.link_eq_ok {m : Module} {imports : Imports σ} {config : Config}
    {linked : Link.Linked σ} (h : m.link imports config = .ok linked) :
    ∃ l : Link.Linked σ, l.Supplied m.types imports config m.imports.toList ∧
      (∀ limits ∈ m.memories, limits.min.toNat ≤ config.maxMemoryPages) ∧
      Link.fillSegments m (Link.define m l.store) = .ok linked.store ∧
      linked.hosts = l.hosts := by
  unfold Module.link at h
  dsimp only at h
  rw [← Array.foldlM_toList] at h
  cases hl : m.imports.toList.foldlM (Link.resolve m.types imports)
      { store := { fuel := config.fuel, pageLimit := config.maxMemoryPages }, hosts := #[] } with
  | error e =>
    rw [hl] at h
    cases h
  | ok l =>
    rw [hl] at h
    simp only [bind, Except.bind] at h
    split at h
    · cases h
    · rename_i hsmall
      cases hstore : Link.fillSegments m (Link.define m l.store) with
      | error e =>
        rw [hstore] at h
        cases h
      | ok store =>
        rw [hstore] at h
        cases h
        refine ⟨l, Link.Linked.Supplied.empty.resolveAll _ hl, ?_, hstore, rfl⟩
        intro limits hlimits
        have hnone := Array.find?_eq_none.mp (Option.eq_none_iff_forall_ne_some.mpr hsmall)
        simpa using hnone limits hlimits

end Wasm
