import Wasm.Proofs.Linking.IndexSpaces
import Wasm.Proofs.Machine.Life
import Wasm.Proofs.Memory.Growth

/-!
# A memory within its limits

Three limits on a memory are checked in three places: that its minimum is not
above its maximum when the module is read, that it is not above what the
settings allow when the module is linked, and both maxima when it grows. Over
any run they make one bound. Below it a memory only ever gains pages of zeros,
whether the guest or the host has it grow.
-/

namespace Wasm

variable {σ : Type}

-- ---------------------------------------------------------------------------
-- Handling a memory
-- ---------------------------------------------------------------------------

namespace Store

/-- Bytes of memory 0 are written, it grows, or something else is done. -/
inductive Touch : Store → Store → Prop where
  | write {s s' : Store} {address : Nat} {bytes : List UInt8}
      (h : s.write address bytes = .ok s') : Touch s s'
  | grow {s : Store} (delta : BitVec 32) : Touch s (s.grow delta).2
  | other {s s' : Store} (hmemories : s'.memories = s.memories)
      (hlimit : s'.pageLimit = s.pageLimit) : Touch s s'

/-- Memories are touched in these ways only, any number of times. -/
abbrev Handled : Store → Store → Prop := Relation.ReflTransGen Touch

end Store

/-- A host function that writes bytes of the memory and has it grow, and touches
    it in no other way. -/
def HostFunc.HandlesMemory (f : HostFunc σ) : Prop :=
  ∀ args (s : Store) state, s.Handled (f.call args s state).store

theorem Holdings.Change.handled {env : Env σ} {among : UInt32 → Prop} {h h' : Holdings}
    (hhosts : ∀ f ∈ env.hosts, f.HandlesMemory) (hchange : Change env among h h') :
    h.store.Handled h'.store := by
  cases hchange with
  | assignLocal | enter | leave => exact .refl
  | assignGlobal | fuel => exact .single (.other rfl rfl)
  | write hwrite => exact .single (.write hwrite)
  | grow delta => exact .single (.grow delta)
  | host hf args state => exact hhosts _ hf args _ state

/-- Whatever a machine goes through, its memory is handled. -/
theorem Machine.Leads.handled {env : Env σ} {m n : Machine σ}
    (hhosts : ∀ f ∈ env.hosts, f.HandlesMemory) (hm : m.outline.Sourced env.module)
    (h : Leads env m n) : m.store.Handled n.store := by
  refine (h.changes env.module.assigns_any hm).preserve
    (P := fun h => m.store.Handled h.store) ?_ .refl
  exact fun h h' hchange hh => hh.trans (hchange.handled hhosts)

-- ---------------------------------------------------------------------------
-- Limits
-- ---------------------------------------------------------------------------

/-- The memory consists of whole pages within the bound that its maximum and
    the limit of the store make. -/
structure Memory.Within (limit bound : Nat) (m : Memory) : Prop where
  whole : m.Whole
  bounded : m.pages ≤ bound
  bound_eq : m.bound limit = bound

namespace Memory.Within

variable {limit bound : Nat} {m : Memory}

theorem put (h : m.Within limit bound) (address : Nat) (bytes : List UInt8) :
    (m.put address bytes).Within limit bound := by
  have hsize : (m.put address bytes).size = m.size := Link.size_overwrite _ _ _
  have hpages : (m.put address bytes).pages = m.pages := by rw [pages, hsize, pages]
  refine ⟨?_, ?_, h.bound_eq⟩
  · rw [Whole, hsize, hpages]
    exact h.whole
  · rw [hpages]
    exact h.bounded

theorem grow (h : m.Within limit bound) (delta : Nat) :
    (m.grow delta limit).2.Within limit bound ∧ m.size ≤ (m.grow delta limit).2.size := by
  rcases Nat.lt_or_ge bound (m.pages + delta) with hlt | hle
  · rw [grow_of_lt (h.bound_eq ▸ hlt)]
    exact ⟨h, Nat.le_refl _⟩
  · rw [grow_of_le h.whole (h.bound_eq ▸ hle)]
    let grown : Memory := { m with data := m.data ++ zeros (delta * pageSize) }
    have hsize : grown.size = m.size + delta * pageSize := by
      show (m.data ++ zeros (delta * pageSize)).size = _
      rw [ByteArray.size_append, size_zeros]
      rfl
    have hpages : grown.pages = m.pages + delta := by
      rw [Memory.pages, hsize, h.whole, ← Nat.add_mul, Nat.mul_div_cancel _ (by decide)]
    refine ⟨⟨?_, ?_, h.bound_eq⟩, ?_⟩
    · show grown.size = grown.pages * pageSize
      rw [hsize, hpages, h.whole, Nat.add_mul]
    · exact hpages ▸ hle
    · exact hsize ▸ Nat.le_add_right _ _

end Memory.Within

namespace Store

variable {bound least : Nat} {s s' : Store}

theorem grow_of_memory {memory : Memory} (hmemory : s.memory? = some memory)
    (delta : BitVec 32) :
    s.grow delta = ((memory.grow delta.toNat s.pageLimit).1,
      { s with memories :=
          s.memories.setIfInBounds 0 (memory.grow delta.toNat s.pageLimit).2 }) := by
  unfold Store.grow
  rw [hmemory]

theorem memory?_setMemory {memory : Memory} (hmemory : s.memory? = some memory)
    (memory' : Memory) :
    ({ s with memories := s.memories.setIfInBounds 0 memory' } : Store).memory? = some memory' :=
  Array.getElem?_setIfInBounds_self_of_lt (Array.getElem?_eq_some_iff.mp hmemory).1

theorem memory?_grow {memory : Memory} (hmemory : s.memory? = some memory)
    (delta : BitVec 32) :
    (s.grow delta).2.memory? = some (memory.grow delta.toNat s.pageLimit).2 := by
  rw [grow_of_memory hmemory]
  exact memory?_setMemory hmemory _

theorem setIfInBounds_memory {memory : Memory} (hmemory : s.memory? = some memory) :
    s.memories.setIfInBounds 0 memory = s.memories := by
  obtain ⟨hsize, rfl⟩ := Array.getElem?_eq_some_iff.mp hmemory
  rw [Array.setIfInBounds, dif_pos hsize, Array.set_getElem_self]

/-- What a touch can do to a memory. -/
theorem Touch.memory (h : Touch s s') {memory : Memory} (hmemory : s.memory? = some memory) :
    ∃ memory', s'.memory? = some memory' ∧ s'.pageLimit = s.pageLimit ∧
      (memory' = memory ∨ (∃ address bytes, memory' = memory.put address bytes) ∨
        ∃ delta : BitVec 32, memory' = (memory.grow delta.toNat s.pageLimit).2) := by
  cases h with
  | @write _ address bytes h =>
    obtain ⟨m, hm, rfl⟩ := write_eq_ok h
    cases hmemory.symm.trans hm
    refine ⟨memory.put address bytes, ?_, rfl, .inr (.inl ⟨address, bytes, rfl⟩)⟩
    exact memory?_setMemory hmemory _
  | grow delta =>
    refine ⟨_, memory?_grow hmemory delta, ?_, .inr (.inr ⟨delta, rfl⟩)⟩
    rw [grow_of_memory hmemory]
  | other hmemories hlimit =>
    refine ⟨memory, ?_, hlimit, .inl rfl⟩
    rw [memory?, hmemories]
    exact hmemory

/-- The store has a memory within its limits, of at least so many bytes. -/
def Within (bound least : Nat) (s : Store) : Prop :=
  ∃ memory, s.memory? = some memory ∧ memory.Within s.pageLimit bound ∧ least ≤ memory.size

theorem Touch.within (h : Touch s s') (hs : s.Within bound least) : s'.Within bound least := by
  obtain ⟨memory, hmemory, hwithin, hleast⟩ := hs
  obtain ⟨memory', hmemory', hlimit, rfl | ⟨address, bytes, rfl⟩ | ⟨delta, rfl⟩⟩ :=
    h.memory hmemory
  · exact ⟨_, hmemory', hlimit ▸ hwithin, hleast⟩
  · refine ⟨_, hmemory', hlimit ▸ hwithin.put address bytes, ?_⟩
    rw [Memory.size, Memory.put, Link.size_overwrite]
    exact hleast
  · obtain ⟨hgrown, hsize⟩ := hwithin.grow delta.toNat
    exact ⟨_, hmemory', hlimit ▸ hgrown, Nat.le_trans hleast hsize⟩

theorem Handled.within (h : s.Handled s') (hs : s.Within bound least) :
    s'.Within bound least := by
  induction h with
  | refl => exact hs
  | tail _ htouch ih => exact htouch.within ih

/-- A memory grows by zero bytes up to a bound. Past it the store is left alone
    and the answer is minus one, otherwise it is the former number of pages. -/
def GrowsTo (bound : Nat) (s : Store) (memory : Memory) : Prop :=
  ∀ delta : BitVec 32,
    if bound < memory.pages + delta.toNat then s.grow delta = (-1, s)
    else
      let zeroed : ByteArray :=
        ⟨memory.data.data ++ Array.replicate (delta.toNat * 65536) 0⟩
      s.grow delta = (BitVec.ofNat 32 memory.pages,
        { s with memories := s.memories.setIfInBounds 0 { memory with data := zeroed } }) ∧
      (bound < 0x80000000 → (s.grow delta).1.toInt = memory.pages)

theorem growsTo {memory : Memory} (hmemory : s.memory? = some memory)
    (h : memory.Within s.pageLimit bound) : s.GrowsTo bound memory := by
  intro delta
  have hgrow := grow_of_memory hmemory delta
  split
  · rename_i hlt
    rw [hgrow, Memory.grow_of_lt (h.bound_eq ▸ hlt)]
    exact congrArg (fun memories => ((-1 : BitVec 32), { s with memories }))
      (setIfInBounds_memory hmemory)
  · rename_i hle
    have hzeroed : memory.data ++ zeros (delta.toNat * pageSize) =
        ⟨memory.data.data ++ Array.replicate (delta.toNat * 65536) 0⟩ := by
      apply ByteArray.ext
      rw [ByteArray.data_append, data_zeros]
      rfl
    have hbound : memory.pages + delta.toNat ≤ memory.bound s.pageLimit :=
      h.bound_eq ▸ Nat.le_of_not_lt hle
    rw [hgrow, Memory.grow_of_le h.whole hbound, hzeroed]
    refine ⟨rfl, fun hsmall => ?_⟩
    have hpages : memory.pages < 0x80000000 := Nat.lt_of_le_of_lt h.bounded hsmall
    have htoNat : (BitVec.ofNat 32 memory.pages).toNat = memory.pages :=
      Nat.mod_eq_of_lt (Nat.lt_trans hpages (by decide))
    show (BitVec.ofNat 32 memory.pages).toInt = memory.pages
    rw [BitVec.toInt_eq_toNat_of_lt (by rw [htoNat]; omega), htoNat]

end Store

-- ---------------------------------------------------------------------------
-- Linked memories
-- ---------------------------------------------------------------------------

namespace Link

/-- Writing data changes neither the length of a memory nor its maximum. -/
theorem memory?_foldl_putData (ds : List DataSegment) {s : Store} {memory : Memory}
    (hmemory : s.memory? = some memory) :
    ∃ filled, (ds.foldl putData s).memory? = some filled ∧ filled.size = memory.size ∧
      filled.max = memory.max := by
  induction ds generalizing s memory with
  | nil => exact ⟨memory, hmemory, rfl, rfl⟩
  | cons d ds ih =>
    obtain ⟨next, hnext, hsize, hmax⟩ : ∃ next, (putData s d).memory? = some next ∧
        next.size = memory.size ∧ next.max = memory.max := by
      rw [Store.memory?, putData, Array.getElem?_modify]
      rw [Store.memory?] at hmemory
      split
      · refine ⟨memory.put (offset s d.offset) d.bytes, ?_, size_overwrite _ _ _, rfl⟩
        rw [hmemory]
        rfl
      · exact ⟨memory, hmemory, rfl, rfl⟩
    obtain ⟨filled, hfilled, hsize', hmax'⟩ := ih hnext
    exact ⟨filled, hfilled, hsize'.trans hsize, hmax'.trans hmax⟩

theorem memory?_fillSegments {m : Module} {s s' : Store} (h : fillSegments m s = .ok s')
    {memory : Memory} (hmemory : s.memory? = some memory) :
    ∃ filled, s'.memory? = some filled ∧ filled.size = memory.size ∧
      filled.max = memory.max ∧ s'.pageLimit = s.pageLimit := by
  have helements : (m.elements.toList.foldl putElement s).memory? = some memory := by
    obtain ⟨tables, htables⟩ := foldl_putElement m.elements.toList s
    rw [htables]
    exact hmemory
  obtain ⟨filled, hfilled, hsize, hmax⟩ := memory?_foldl_putData m.data.toList helements
  rw [← fillSegments_eq_foldl h] at hfilled
  obtain ⟨tables, memories, hstore⟩ := fillSegments_eq_ok h
  exact ⟨filled, hfilled, hsize, hmax, by rw [hstore]⟩

end Link

section

variable {m : Module} {imports : Imports σ} {config : Config} {linked : Link.Linked σ}

/-- The most pages that a memory may have under its limits and the settings. -/
def Config.pageBound (config : Config) (limits : Limits) : Nat :=
  limits.max.elim config.maxMemoryPages fun max => min max.toNat config.maxMemoryPages

theorem Module.min_le_pageBound (hm : m.Indexed) {limits : Limits} (hlimits : limits ∈ m.memories)
    (hsmall : limits.min.toNat ≤ config.maxMemoryPages) :
    limits.min.toNat ≤ config.pageBound limits := by
  have hordered := (hm.memories limits (Array.mem_append_right _ hlimits)).1
  unfold Config.pageBound
  cases hmax : limits.max with
  | none => exact hsmall
  | some max => exact Nat.le_min.mpr ⟨UInt32.le_iff_toNat_le.mp (hordered max hmax), hsmall⟩

theorem Module.link_within (hm : m.Indexed) (h : m.link imports config = .ok linked)
    {limits : Limits} (hlimits : m.memories[0]? = some limits) :
    linked.store.Within (config.pageBound limits) 0 := by
  obtain ⟨l, hl, hsmall, hfill, _⟩ := Module.link_eq_ok h
  have hnone : l.store.memories = #[] := by
    have hcount := hm.oneMemory
    have hpos := (Array.getElem?_eq_some_iff.mp hlimits).1
    have himported := hl.memories.length_eq
    rw [Link.length_importsOf, ← Array.toList_filterMap, Array.length_toList,
      Array.length_toList] at himported
    rw [Module.allMemories, Array.size_append, himported] at hcount
    exact Array.eq_empty_of_size_eq_zero (by omega)
  have hdefine : (Link.define m l.store).memory? = some (Link.memory limits) := by
    rw [Store.memory?, Link.define, hnone, Array.empty_append, Array.getElem?_map, hlimits]
    rfl
  obtain ⟨memory, hmemory, hsize, hmax, hdefined⟩ := Link.memory?_fillSegments hfill hdefine
  have hlimit : linked.store.pageLimit = config.maxMemoryPages := hdefined.trans hl.pageLimit
  have hbytes : memory.size = limits.min.toNat * pageSize := by
    rw [hsize]
    exact size_zeros _
  have hpages : memory.pages = limits.min.toNat := by
    rw [Memory.pages, hbytes, Nat.mul_div_cancel _ (by decide)]
  refine ⟨memory, hmemory, ⟨?_, ?_, ?_⟩, Nat.zero_le _⟩
  · rw [Memory.Whole, hbytes, hpages]
  · rw [hpages]
    exact Module.min_le_pageBound hm (Array.mem_of_getElem? hlimits)
      (hsmall limits (Array.mem_of_getElem? hlimits))
  · rw [Memory.bound, hmax, hlimit, Config.pageBound]
    cases hmax : limits.max <;> simp [Link.memory, Memory.ofPages, hmax]

end

-- ---------------------------------------------------------------------------
-- Runs
-- ---------------------------------------------------------------------------

/-- The instruction to grow, in either strategy, reads its operand as the number
    of pages and leaves the answer in its place. -/
theorem Run.step_memoryGrow {env : Env σ} {m : Machine σ} {frame : Frame} {rest : List Frame}
    {func : Nat} {delta : BitVec 32} {stack : List Value} (hframes : m.frames = frame :: rest)
    (hcode : frame.code.Of env.module func)
    (hinstr : env.module.instr? func frame.pc = some (.plain .memoryGrow))
    (hstack : m.stack = .i32 delta :: stack) :
    step env m = .ok () { m with
      stack := .i32 (m.store.grow delta).1 :: stack
      store := (m.store.grow delta).2
      frames := { frame with pc := frame.pc + 1 } :: rest } := by
  obtain ⟨shared, store, stack', frames, depth, origin⟩ := m
  cases hstack
  exact step_next hframes hcode hinstr nofun rfl

/-- Whatever the settings and the calls are, a memory that the module defines
    consists of whole pages, never shrinks and stays within the bound that its
    limits and the settings make; and up to that bound it grows, by zero bytes,
    when the host or the instruction of the guest asks for it. This is so in
    every state `n` that an instance comes to, in those that come after it, and
    in whatever state `s` a host function has got to from there. -/
theorem Module.memory_limited {bytes : List UInt8} {m : Module}
    (hread : Format.decode bytes = .ok m) {imports : Imports σ} {config : Config}
    {linked : Link.Linked σ} (hlink : m.link imports config = .ok linked) {limits : Limits}
    (hlimits : m.memories[0]? = some limits) (hhosts : ∀ f ∈ linked.hosts, f.HandlesMemory)
    {called : List Nat} {host : σ} {n : Machine σ} :
    let env : Env σ := { module := m, hosts := linked.hosts, config }
    let bound := config.pageBound limits
    Machine.Leads env { cache := .filled m called, host, store := linked.store } n →
      (∀ n' s, Machine.Leads env n n' → n'.store.Handled s → ∃ before memory,
        n.store.memory? = some before ∧ s.memory? = some memory ∧ before.size ≤ memory.size ∧
        memory.size % 65536 = 0 ∧ memory.size ≤ bound * 65536 ∧ s.GrowsTo bound memory) ∧
      ∀ frame rest func delta stack, n.frames = frame :: rest → frame.code.Of m func →
        m.instr? func frame.pc = some (.plain .memoryGrow) → n.stack = .i32 delta :: stack →
        Run.step env n = .ok () { n with
          stack := .i32 (n.store.grow delta).1 :: stack
          store := (n.store.grow delta).2
          frames := { frame with pc := frame.pc + 1 } :: rest } := by
  intro env bound hleads
  constructor
  · intro n' s hleads' hhandled
    have hstart := Machine.sourced_filled m called
    have hsourced := hleads.sourced hstart
    have hlinked := Module.link_within (Format.indexed_of_decode hread) hlink hlimits
    obtain ⟨before, hbefore, hwithin, _⟩ := (hleads.handled hhosts hstart).within hlinked
    have hlater : n.store.Handled s := (hleads'.handled hhosts hsourced).trans hhandled
    obtain ⟨memory, hmemory, hpaged, hsize⟩ :=
      hlater.within ⟨before, hbefore, hwithin, Nat.le_refl _⟩
    refine ⟨before, memory, hbefore, hmemory, hsize, ?_, ?_, Store.growsTo hmemory hpaged⟩
    · rw [hpaged.whole]
      exact Nat.mul_mod_left _ _
    · rw [hpaged.whole]
      exact Nat.mul_le_mul_right _ hpaged.bounded
  · intro frame rest func delta stack hframes hcode hinstr hstack
    exact Run.step_memoryGrow hframes hcode hinstr hstack

theorem tick_handlesMemory : tick.HandlesMemory := fun _ _ _ => .refl

/-- An instance of `meter` with a memory of one page, whose maximum is three,
    after it was asked to grow it by one. -/
theorem meter_memory_limited :
    Format.decode meterBytes = .ok meter ∧ meter.link twoSteps {} = .ok meterLinked ∧
      let env : Env Nat := { module := meter, hosts := #[tick], config := {} }
      let start : Machine Nat :=
        { cache := .filled meter [], host := 0, store := meterLinked.store }
      let n := finalState ((Request.invoke "grow" [.i32 1]).run env 100 start)
      ∃ memory, n.store.memory? = some memory ∧ memory.size % 65536 = 0 ∧
        memory.size ≤ 3 * 65536 ∧ n.store.GrowsTo 3 memory := by
  have hhosts : ∀ f ∈ meterLinked.hosts, f.HandlesMemory := by
    simp [meterLinked, tick_handlesMemory]
  refine ⟨decode_meter, link_meter, ?_⟩
  intro env start n
  have hleads : Machine.Leads env start n := Machine.leads_request rfl 100 _
  obtain ⟨_, memory, _, hmemory, _, hpaged, hbound, hgrows⟩ :=
    (Module.memory_limited decode_meter link_meter rfl hhosts hleads).1 n n.store .refl .refl
  exact ⟨memory, hmemory, hpaged, hbound, hgrows⟩

end Wasm
