import Wasm.Proofs.Memory.Limits

/-!
# Growing a memory of the host

A memory that the host supplies has any number of bytes, also a broken last
page, and may already be larger than the settings allow. It grows by counting
its whole pages. Growing by one page or more keeps every byte, and so does
growing past a limit. Growing by no page cuts a broken last page off, bytes and
all. That happens once at most, since whole pages are left.
-/

namespace Wasm

variable {σ : Type}

-- ---------------------------------------------------------------------------
-- Bytes that are kept
-- ---------------------------------------------------------------------------

namespace Memory

theorem toList_resize_of_le {data : ByteArray} {n : Nat} (h : n ≤ data.size) :
    (resize data n).data.toList = data.data.toList.take n := by
  rw [resize, if_pos h, ByteArray.data_extract, Array.toList_extract]
  simp

/-- The bytes stay where they are unless there are too many. -/
theorem extends_resize_iff (data : ByteArray) (n : Nat) :
    data.data.toList <+: (resize data n).data.toList ↔ data.size ≤ n := by
  constructor
  · intro h
    by_contra hlt
    have hlength := h.length_le
    rw [toList_resize_of_le (Nat.le_of_not_le hlt), List.length_take] at hlength
    exact hlt (Nat.le_trans hlength (Nat.min_le_left _ _))
  · intro h
    obtain ⟨more, rfl⟩ := Nat.exists_eq_add_of_le h
    rw [resize_add, ByteArray.data_append, Array.toList_append]
    exact List.prefix_append _ _

/-- Growing cuts off a broken last page: it is by no page, and allowed. -/
def CutBy (m : Memory) (delta limit : Nat) : Prop :=
  delta = 0 ∧ ¬ m.Whole ∧ m.pages ≤ m.bound limit

variable {m : Memory} {delta limit : Nat}

theorem data_grow (h : m.pages + delta ≤ m.bound limit) :
    (m.grow delta limit).2 = { m with data := resize m.data ((m.pages + delta) * pageSize) } := by
  rw [grow, grow?, if_pos h]

theorem size_le_iff (m : Memory) (delta : Nat) :
    m.size ≤ (m.pages + delta) * pageSize ↔ ¬ (delta = 0 ∧ ¬ m.Whole) := by
  unfold Whole pages pageSize
  omega

theorem extends_grow_iff (m : Memory) (delta limit : Nat) :
    m.data.data.toList <+: (m.grow delta limit).2.data.data.toList ↔
      ¬ m.CutBy delta limit := by
  unfold CutBy
  rcases Nat.lt_or_ge (m.bound limit) (m.pages + delta) with hlt | hle
  · rw [grow_of_lt hlt]
    refine iff_of_true (List.prefix_refl _) ?_
    rintro ⟨rfl, _, hbound⟩
    omega
  · rw [data_grow hle, extends_resize_iff]
    refine (size_le_iff m delta).trans (not_congr ?_)
    constructor
    · rintro ⟨hzero, hbroken⟩
      exact ⟨hzero, hbroken, by omega⟩
    · rintro ⟨hzero, hbroken, _⟩
      exact ⟨hzero, hbroken⟩

theorem toList_grow_of_cutBy (h : m.CutBy delta limit) :
    (m.grow delta limit).2.data.data.toList = m.data.data.toList.take (m.pages * 65536) := by
  obtain ⟨rfl, _, hbound⟩ := h
  rw [data_grow hbound]
  exact toList_resize_of_le (Nat.div_mul_le_self _ _)

theorem whole_resize (m : Memory) (n : Nat) :
    Whole { m with data := resize m.data (n * pageSize) } := by
  have hsize : (resize m.data (n * pageSize)).size = n * pageSize := by
    unfold resize
    split
    · rename_i hle
      rw [ByteArray.size_extract, Nat.min_eq_left hle, Nat.sub_zero]
    · rename_i hlt
      rw [ByteArray.size_append, size_zeros]
      omega
  rw [Whole, pages, size, hsize, Nat.mul_div_cancel _ (by decide)]

/-- A memory that has grown consists of whole pages. -/
theorem grow_whole_or_eq (m : Memory) (delta limit : Nat) :
    (m.grow delta limit).2.Whole ∨ (m.grow delta limit).2 = m := by
  rcases Nat.lt_or_ge (m.bound limit) (m.pages + delta) with hlt | hle
  · exact .inr (by rw [grow_of_lt hlt])
  · exact .inl (data_grow hle ▸ whole_resize m _)

theorem bound_le (m : Memory) (limit : Nat) : m.bound limit ≤ limit := by
  unfold bound
  cases m.max with
  | none => exact Nat.le_refl _
  | some max => exact Nat.min_le_right _ _

/-- Minus one is also the number of pages of the largest memory there is. It
    cannot grow either. -/
theorem grow_of_minus_one (hlimit : limit < UInt32.size) (h : (m.grow delta limit).1 = -1)
    (hkept : ¬ m.CutBy delta limit) : (m.grow delta limit).2 = m := by
  rcases Nat.lt_or_ge (m.bound limit) (m.pages + delta) with hlt | hle
  · rw [grow_of_lt hlt]
  · have hbound := m.bound_le limit
    have hwords : UInt32.size = 0x100000000 := rfl
    have hpages : m.pages = 0xFFFFFFFF := by
      rw [grow, grow?, if_pos hle] at h
      have hword := congrArg BitVec.toNat h
      rw [BitVec.toNat_ofNat, Nat.mod_eq_of_lt (by omega)] at hword
      exact hword
    have hzero : delta = 0 := by omega
    have hwhole : m.Whole := by
      by_contra hbroken
      exact hkept ⟨hzero, hbroken, by omega⟩
    subst hzero
    rw [grow_of_le hwhole hle, Nat.zero_mul, zeros]
    simp

end Memory

-- ---------------------------------------------------------------------------
-- Stores
-- ---------------------------------------------------------------------------

namespace Store

/-- The memory keeps its bytes, and is left alone if the answer is minus one,
    unless growing cuts it down to its whole pages. -/
structure GrowsOrCuts (s : Store) (memory : Memory) (delta : BitVec 32) : Prop where
  bytes : ∃ grown, (s.grow delta).2.memory? = some grown ∧
    (memory.data.data.toList <+: grown.data.data.toList ↔
      ¬ memory.CutBy delta.toNat s.pageLimit) ∧
    (memory.CutBy delta.toNat s.pageLimit →
      grown.data.data.toList = memory.data.data.toList.take (memory.pages * 65536))
  alone : (s.grow delta).1 = -1 → ¬ memory.CutBy delta.toNat s.pageLimit →
    (s.grow delta).2 = s

variable {s s' : Store} {memory : Memory}

theorem growsOrCuts (hmemory : s.memory? = some memory) (hlimit : s.pageLimit < UInt32.size)
    (delta : BitVec 32) : s.GrowsOrCuts memory delta := by
  refine ⟨⟨_, memory?_grow hmemory delta, Memory.extends_grow_iff _ _ _,
    Memory.toList_grow_of_cutBy⟩, fun hword hkept => ?_⟩
  rw [grow_of_memory hmemory] at hword ⊢
  rw [Memory.grow_of_minus_one hlimit hword hkept, setIfInBounds_memory hmemory]

/-- The memory that the host gave still has its length, or it consists of whole
    pages. -/
structure Keeps (given : Memory) (limit : Nat) (s : Store) (memory : Memory) : Prop where
  has : s.memory? = some memory
  pageLimit : s.pageLimit = limit
  max : memory.max = given.max
  length : memory.size = given.size ∨ memory.Whole

namespace Keeps

variable {given : Memory} {limit : Nat}

theorem touch (h : s.Keeps given limit memory) (htouch : Touch s s') :
    ∃ memory', s'.Keeps given limit memory' := by
  obtain ⟨memory', hmemory', hlimit, hdone⟩ := htouch.memory h.has
  refine ⟨memory', hmemory', hlimit.trans h.pageLimit, ?_, ?_⟩
  · obtain rfl | ⟨address, bytes, rfl⟩ | ⟨delta, rfl⟩ := hdone
    · exact h.max
    · exact h.max
    · exact (Memory.max_grow _ _ _).trans h.max
  · obtain rfl | ⟨address, bytes, rfl⟩ | ⟨delta, rfl⟩ := hdone
    · exact h.length
    · have hsize : (memory.put address bytes).size = memory.size := Link.size_overwrite _ _ _
      rw [Memory.Whole, Memory.pages, hsize]
      exact h.length
    · rcases memory.grow_whole_or_eq delta.toNat s.pageLimit with hwhole | hsame
      · exact .inr hwhole
      · exact hsame.symm ▸ h.length

theorem handled (h : s.Keeps given limit memory) (hhandled : s.Handled s') :
    ∃ memory', s'.Keeps given limit memory' := by
  induction hhandled with
  | refl => exact ⟨memory, h⟩
  | tail _ htouch ih =>
    obtain ⟨_, hmiddle⟩ := ih
    exact hmiddle.touch htouch

end Keeps

end Store

-- ---------------------------------------------------------------------------
-- Imports
-- ---------------------------------------------------------------------------

section

variable {m : Module} {imports : Imports σ} {config : Config} {linked : Link.Linked σ}

/-- The one memory of the module is the one that the host gives for it, with the
    data of the module written over it. -/
theorem Module.link_keeps (hm : m.Indexed) (h : m.link imports config = .ok linked)
    {i : Import} (hi : i ∈ m.imports) {limits : Limits} (hdesc : i.desc = .memory limits)
    {given : Memory} (hgiven : imports.get? i.module i.name = some (.memory given)) :
    ∃ memory, linked.store.Keeps given config.maxMemoryPages memory := by
  obtain ⟨l, hl, _, hfill, _⟩ := Module.link_eq_ok h
  have hmem : (i, limits) ∈ Link.importsOf ImportDesc.memory? m.imports.toList := by
    refine List.mem_filterMap.mpr ⟨i, Array.mem_toList_iff.mpr hi, ?_⟩
    rw [hdesc]
    rfl
  obtain ⟨index, hindex⟩ := List.getElem?_of_mem hmem
  obtain ⟨memory, hmemory, hget, _⟩ := Link.getElem?_of_forall₂ hl.memories hindex
  obtain rfl : memory = given := by
    rw [hgiven] at hget
    cases hget
    rfl
  -- there is one memory at most, so the index is that of the first
  obtain rfl : index = 0 := by
    have hcount := hm.oneMemory
    have hlt := (List.getElem?_eq_some_iff.mp hindex).1
    rw [Link.length_importsOf, ← Array.toList_filterMap, Array.length_toList] at hlt
    rw [Module.allMemories, Array.size_append] at hcount
    omega
  have hdefine : (Link.define m l.store).memory? = some memory := by
    rw [Array.getElem?_toList] at hmemory
    rw [Store.memory?, Link.define]
    exact Array.getElem?_append_left (Array.getElem?_eq_some_iff.mp hmemory).1 |>.trans hmemory
  obtain ⟨filled, hfilled, hsize, hmax, hlimit⟩ := Link.memory?_fillSegments hfill hdefine
  exact ⟨filled, hfilled, hlimit.trans hl.pageLimit, hmax, .inl hsize⟩

end

/-- Whatever bytes and maximum a host gives a memory for an import, and whatever
    the settings and the calls are: each time the host or the instruction of the
    guest has it grow, its bytes stay where they are, and it is left alone when
    the answer is minus one, unless it is asked to grow by no page, may do so and
    has a broken last page. Then that page is cut off, and the length is no longer
    the given one. This is so in every state `n` that an instance comes to and in
    whatever state `s` a host function has got to from there. -/
theorem Module.imported_memory_grows {bytes : List UInt8} {m : Module}
    (hread : Format.decode bytes = .ok m) {imports : Imports σ} {config : Config}
    {linked : Link.Linked σ} (hlink : m.link imports config = .ok linked) {i : Import}
    (hi : i ∈ m.imports) {limits : Limits} (hdesc : i.desc = .memory limits) {given : Memory}
    (hgiven : imports.get? i.module i.name = some (.memory given))
    (hconfig : config.maxMemoryPages < UInt32.size)
    (hhosts : ∀ f ∈ linked.hosts, f.HandlesMemory) {called : List Nat} {host : σ}
    {n : Machine σ} :
    let env : Env σ := { module := m, hosts := linked.hosts, config }
    Machine.Leads env { cache := .filled m called, host, store := linked.store } n →
      (∀ s, n.store.Handled s → ∃ memory, s.Keeps given config.maxMemoryPages memory ∧
        ∀ delta, s.GrowsOrCuts memory delta) ∧
      ∀ frame rest func delta stack, n.frames = frame :: rest → frame.code.Of m func →
        m.instr? func frame.pc = some (.plain .memoryGrow) → n.stack = .i32 delta :: stack →
        Run.step env n = .ok () { n with
          stack := .i32 (n.store.grow delta).1 :: stack
          store := (n.store.grow delta).2
          frames := { frame with pc := frame.pc + 1 } :: rest } := by
  intro env hleads
  constructor
  · intro s hhandled
    obtain ⟨_, hlinked⟩ :=
      Module.link_keeps (Format.indexed_of_decode hread) hlink hi hdesc hgiven
    have hstart := Machine.sourced_filled m called
    obtain ⟨memory, hkeeps⟩ := hlinked.handled ((hleads.handled hhosts hstart).trans hhandled)
    refine ⟨memory, hkeeps, Store.growsOrCuts hkeeps.has ?_⟩
    rw [hkeeps.pageLimit]
    exact hconfig
  · intro frame rest func delta stack hframes hcode hinstr hstack
    exact Run.step_memoryGrow hframes hcode hinstr hstack

/-- Grows the memory that it is given. -/
def lodger : Module where
  types := #[{ params := [.i32], results := [.i32] }]
  imports := #[{ module := "env", name := "mem", desc := .memory { min := 0 } }]
  functions := #[{ type := 0, locals := #[], body := #[.plain (.localGet 0), .plain .memoryGrow,
    .end_] }]
  exports := #[{ name := "grow", desc := .func 0 }]

/-- The bytes of `lodger`. -/
def lodgerBytes : List UInt8 :=
  [0x00, 0x61, 0x73, 0x6D, 0x01, 0x00, 0x00, 0x00,
    0x01, 0x06, 0x01, 0x60, 0x01, 0x7F, 0x01, 0x7F,
    0x02, 0x0C, 0x01, 0x03, 0x65, 0x6E, 0x76, 0x03, 0x6D, 0x65, 0x6D, 0x02, 0x00, 0x00,
    0x03, 0x02, 0x01, 0x00,
    0x07, 0x08, 0x01, 0x04, 0x67, 0x72, 0x6F, 0x77, 0x00, 0x00,
    0x0A, 0x08, 0x01, 0x06, 0x00, 0x20, 0x00, 0x40, 0x00, 0x0B]

theorem decode_lodger : Format.decode lodgerBytes = .ok lodger :=
  Format.eq_ok_of_toOption (by decide +kernel)

/-- Three bytes are no page. -/
def scrap : Memory := { data := ⟨#[1, 2, 3]⟩ }

/-- A host that gives `scrap` for a memory. -/
def scrapHost : Imports Unit := Imports.define {} "env" "mem" (.memory scrap)

def lodgerLinked : Link.Linked Unit where
  store :=
    { funcs := #[.defined { params := [.i32], results := [.i32] } 0]
      memories := #[scrap]
      exports := [("grow", .func 0)]
      pageLimit := 65536 }
  hosts := #[]

theorem link_lodger (compile : Bool) :
    lodger.link scrapHost { compile } = .ok lodgerLinked := by
  cases compile <;> with_unfolding_all rfl

/-- An instance of `lodger` after it was asked to grow three bytes by a page. -/
theorem lodger_memory_grows :
    Format.decode lodgerBytes = .ok lodger ∧ lodger.link scrapHost {} = .ok lodgerLinked ∧
      let env : Env Unit := { module := lodger, hosts := #[], config := {} }
      let start : Machine Unit :=
        { cache := .filled lodger [], host := (), store := lodgerLinked.store }
      let n := finalState ((Request.invoke "grow" [.i32 1]).run env 100 start)
      ∃ memory, n.store.Keeps scrap 65536 memory ∧ ∀ delta, n.store.GrowsOrCuts memory delta := by
  refine ⟨decode_lodger, link_lodger true, ?_⟩
  intro env start n
  have hhosts : ∀ f ∈ lodgerLinked.hosts, f.HandlesMemory := by simp [lodgerLinked]
  have hleads : Machine.Leads env start n := Machine.leads_request rfl 100 _
  exact (Module.imported_memory_grows decode_lodger (link_lodger true) (i := lodger.imports[0])
    (by simp [lodger]) rfl rfl (by decide) hhosts hleads).1 n.store .refl

def lodgerInstance (compile : Bool) : Instance Unit where
  env := { module := lodger, hosts := #[], config := { compile } }
  machine := { cache := .filled lodger [], host := (), store := lodgerLinked.store }

/-- Asked to grow `scrap` by no page, the instance says that it had none and that
    it grew, and the bytes are gone. -/
theorem lodger_loses_scrap :
    Format.decode lodgerBytes = .ok lodger ∧ ∀ compile,
      lodger.link scrapHost { compile } = .ok lodgerLinked ∧
        (lodgerInstance compile).machine.store.read 0 3 = .ok [1, 2, 3] ∧
        let (answer, i) :=
          (lodgerInstance compile).run ((Request.invoke "grow" [.i32 0]).run · 10)
        answer = .ok (.values [.i32 0]) ∧
          i.machine.store.read 0 3 = .error .memoryOutOfBounds := by
  refine ⟨decode_lodger, fun compile => ⟨link_lodger compile, ?_⟩⟩
  cases compile <;> exact ⟨by decide +kernel, by decide +kernel, by decide +kernel⟩

end Wasm
