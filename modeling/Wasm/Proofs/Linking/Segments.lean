import Wasm.Proofs.Memory.Access
import Wasm.Proofs.Slots

/-!
# Segments

The segments of a module may overlap, start where a global says, be empty, and
stand at the very end of what they are for. All of them are checked against the
tables and memories there are, and then written one after the other. What comes
of it is said position by position: the last segment over a position decides,
and without one it stays as it was.
-/

namespace Wasm

variable {σ α : Type}

-- ---------------------------------------------------------------------------
-- Pieces
-- ---------------------------------------------------------------------------

theorem getElem?_splice_of_mem {xs items : List α} {start p : Nat}
    (hfits : start + items.length ≤ xs.length) (hlo : start ≤ p) (hhi : p < start + items.length) :
    (splice xs start items)[p]? = items[p - start]? := by
  have hfront : (xs.take start).length = start := by
    rw [List.length_take]
    omega
  rw [splice, List.getElem?_append_right (by omega), hfront,
    List.getElem?_append_left (by omega)]

theorem getElem?_splice_of_not_mem {xs items : List α} {start p : Nat}
    (hfits : start + items.length ≤ xs.length)
    (h : ¬ (start ≤ p ∧ p < start + items.length)) :
    (splice xs start items)[p]? = xs[p]? := by
  have hfront : (xs.take start).length = start := by
    rw [List.length_take]
    omega
  rw [splice]
  rcases Nat.lt_or_ge p start with hlt | hge
  · rw [List.getElem?_append_left (by omega), List.getElem?_take_of_lt hlt]
  · rw [List.getElem?_append_right (by omega), hfront, List.getElem?_append_right (by omega),
      List.getElem?_drop]
    congr 1
    omega

/-- Items that are to stand in one of several lists, from a position on. -/
structure Piece (α : Type) where
  target : Nat
  start : Nat
  items : List α

namespace Piece

/-- The piece has an item for the position of the list. -/
def Covers (piece : Piece α) (target position : Nat) : Prop :=
  piece.target = target ∧ piece.start ≤ position ∧ position < piece.start + piece.items.length

instance (piece : Piece α) (target position : Nat) : Decidable (piece.Covers target position) :=
  inferInstanceAs (Decidable (_ ∧ _ ∧ _))

/-- The piece goes past the end of its list. -/
def Overruns (lists : Nat → Option (List α)) (piece : Piece α) : Prop :=
  ∃ xs, lists piece.target = some xs ∧ xs.length < piece.start + piece.items.length

/-- What a list becomes when the piece is written. -/
def put (piece : Piece α) (target : Nat) (xs : List α) : List α :=
  if piece.target = target then splice xs piece.start piece.items else xs

/-- What the lists become when the piece is written. -/
def lay (lists : Nat → Option (List α)) (piece : Piece α) (target : Nat) : Option (List α) :=
  (lists target).map (piece.put target)

variable {piece : Piece α} {target p : Nat} {xs : List α} {lists : Nat → Option (List α)}

theorem le_of_not_overruns (h : ¬ piece.Overruns lists) (hxs : lists target = some xs)
    (htarget : piece.target = target) : piece.start + piece.items.length ≤ xs.length := by
  subst htarget
  exact Nat.le_of_not_lt fun hlt => h ⟨xs, hxs, hlt⟩

section

variable (hfits : piece.target = target → piece.start + piece.items.length ≤ xs.length)
include hfits

theorem length_put : (piece.put target xs).length = xs.length := by
  unfold put
  split
  · exact length_splice (hfits ‹_›)
  · rfl

theorem getElem?_put_of_covers (h : piece.Covers target p) :
    (piece.put target xs)[p]? = piece.items[p - piece.start]? := by
  obtain ⟨htarget, hlo, hhi⟩ := h
  rw [put, if_pos htarget]
  exact getElem?_splice_of_mem (hfits htarget) hlo hhi

theorem getElem?_put_of_not_covers (h : ¬ piece.Covers target p) :
    (piece.put target xs)[p]? = xs[p]? := by
  unfold put
  split
  · rename_i htarget
    exact getElem?_splice_of_not_mem (hfits htarget) fun hp => h ⟨htarget, hp⟩
  · rfl

end

/-- Writing a piece leaves room for as much as there was. -/
theorem overruns_lay_iff {other : Piece α} (h : ¬ piece.Overruns lists) :
    other.Overruns (lay lists piece) ↔ other.Overruns lists := by
  unfold Overruns lay
  cases hxs : lists other.target with
  | none => simp
  | some xs =>
    have hlength : (piece.put other.target xs).length = xs.length :=
      length_put (le_of_not_overruns h hxs)
    simp [hlength]

/-- Writing a piece that fits into what holds its list. -/
theorem modify_eq_lay {τ : Type} (piece : Piece α) (xs : Array τ) (view : τ → List α) (f : τ → τ)
    (hpiece : ¬ piece.Overruns fun index => xs[index]?.map view)
    (h : ∀ t, piece.start + piece.items.length ≤ (view t).length →
      view (f t) = splice (view t) piece.start piece.items) :
    (fun index => (xs.modify piece.target f)[index]?.map view) =
      lay (fun index => xs[index]?.map view) piece := by
  funext index
  rw [lay, Array.getElem?_modify]
  split
  · rename_i hindex
    subst hindex
    cases ht : xs[piece.target]? with
    | none => rfl
    | some t =>
      have hview : xs[piece.target]?.map view = some (view t) := by rw [ht, Option.map_some]
      simp [put, h t (le_of_not_overruns hpiece hview rfl)]
  · rename_i hindex
    cases xs[index]? <;> simp [put, hindex]

end Piece

/-- What a list becomes when pieces are written one after the other. -/
structure Laid (pieces : List (Piece α)) (target : Nat) (before after : List α) : Prop where
  length : after.length = before.length
  /-- The last piece over a position decides. -/
  last : ∀ k piece p, pieces[k]? = some piece → piece.Covers target p →
    (∀ later ∈ pieces.drop (k + 1), ¬ later.Covers target p) →
    after[p]? = piece.items[p - piece.start]?
  rest : ∀ p, (∀ piece ∈ pieces, ¬ piece.Covers target p) → after[p]? = before[p]?

/-- A piece in front of the others shows where they do not cover it. -/
theorem Laid.cons {piece : Piece α} {pieces : List (Piece α)} {target : Nat}
    {before after : List α}
    (hfits : piece.target = target → piece.start + piece.items.length ≤ before.length)
    (h : Laid pieces target (piece.put target before) after) :
    Laid (piece :: pieces) target before after where
  length := h.length.trans (Piece.length_put hfits)
  last k piece' p hk hcovers hlater := by
    cases k with
    | zero =>
      cases hk
      rw [h.rest p hlater, Piece.getElem?_put_of_covers hfits hcovers]
    | succ k => exact h.last k piece' p hk hcovers hlater
  rest p hp := by
    obtain ⟨hpiece, hpieces⟩ := List.forall_mem_cons.mp hp
    rw [h.rest p hpieces, Piece.getElem?_put_of_not_covers hfits hpiece]

/-- Writing what fits, one piece after the other, lays the pieces. Where the
    pieces are for must not depend on what was written. -/
theorem laid_foldl {τ β : Type} (put : τ → β → τ) (view : τ → Nat → Option (List α))
    (piece : τ → β → Piece α)
    (hput : ∀ s x, ¬ (piece s x).Overruns (view s) →
      view (put s x) = Piece.lay (view s) (piece s x))
    (hpiece : ∀ s x, piece (put s x) = piece s) {s : τ} (xs : List β)
    (hfits : ∀ x ∈ xs.map (piece s), ¬ x.Overruns (view s)) (target : Nat) :
    Option.Rel (Laid (xs.map (piece s)) target) (view s target)
      (view (xs.foldl put s) target) := by
  induction xs generalizing s with
  | nil =>
    rw [List.foldl_nil, List.map_nil]
    cases view s target with
    | none => exact .none
    | some xs => exact .some ⟨rfl, nofun, fun _ _ => rfl⟩
  | cons x xs ih =>
    obtain ⟨hx, hxs⟩ := List.forall_mem_cons.mp hfits
    have hrest := ih (s := put s x) <| by
      rw [hpiece, hput s x hx]
      exact fun y hy => (not_congr (Piece.overruns_lay_iff hx)).mpr (hxs y hy)
    rw [List.foldl_cons, List.map_cons]
    rw [hpiece, hput s x hx, Piece.lay] at hrest
    generalize view (xs.foldl put (put s x)) target = after at hrest ⊢
    cases hview : view s target with
    | none =>
      rw [hview] at hrest
      cases hrest
      exact .none
    | some before =>
      rw [hview] at hrest
      cases hrest with
      | some hlaid => exact .some (hlaid.cons (Piece.le_of_not_overruns hx hview))

/-- The first of the pieces that go past the end of their lists. -/
def FirstOverrun (lists : Nat → Option (List α)) (pieces : List (Piece α)) (k : Nat) : Prop :=
  (∃ piece, pieces[k]? = some piece ∧ piece.Overruns lists) ∧
    ∀ piece ∈ pieces.take k, ¬ piece.Overruns lists

theorem findIdx?_eq_some_iff {β : Type} {segments : List β} {p : β → Bool} {piece : β → Piece α}
    {lists : Nat → Option (List α)} (h : ∀ x ∈ segments, p x ↔ (piece x).Overruns lists)
    {k : Nat} :
    segments.findIdx? p = some k ↔ FirstOverrun lists (segments.map piece) k := by
  rw [List.findIdx?_eq_some_iff_getElem, FirstOverrun, ← List.map_take, List.forall_mem_map]
  constructor
  · rintro ⟨hk, hp, hbefore⟩
    refine ⟨⟨piece segments[k], by simp [hk], (h _ (List.getElem_mem hk)).mp hp⟩, ?_⟩
    intro x hx hover
    obtain ⟨j, hj, rfl⟩ := List.mem_take_iff_getElem.mp hx
    exact hbefore j (by omega) ((h _ (List.getElem_mem _)).mpr hover)
  · rintro ⟨⟨_, hpiece, hover⟩, hbefore⟩
    rw [List.getElem?_map] at hpiece
    obtain ⟨x, hx, rfl⟩ := Option.map_eq_some_iff.mp hpiece
    obtain ⟨hk, rfl⟩ := List.getElem?_eq_some_iff.mp hx
    refine ⟨hk, (h _ (List.getElem_mem hk)).mpr hover, fun j hj hp => ?_⟩
    refine hbefore _ ?_ ((h _ (List.getElem_mem _)).mp hp)
    exact List.mem_take_iff_getElem.mpr ⟨j, by omega, rfl⟩

theorem findIdx?_eq_none_iff {β : Type} {segments : List β} {p : β → Bool} {piece : β → Piece α}
    {lists : Nat → Option (List α)} (h : ∀ x ∈ segments, p x ↔ (piece x).Overruns lists) :
    segments.findIdx? p = none ↔ ∀ x ∈ segments.map piece, ¬ x.Overruns lists := by
  rw [List.findIdx?_eq_none_iff, List.forall_mem_map]
  refine forall₂_congr fun x hx => ?_
  rw [← h x hx, Bool.not_eq_true]

-- ---------------------------------------------------------------------------
-- Segments of a store
-- ---------------------------------------------------------------------------

/-- What the slots of a table hold. -/
def Store.slots? (s : Store) (index : Nat) : Option (List (Option UInt32)) :=
  s.tables[index]?.map (·.slots.toList)

/-- The bytes of a memory. -/
def Store.bytes? (s : Store) (index : Nat) : Option (List UInt8) :=
  s.memories[index]?.map (·.bytes)

namespace Link

variable {s : Store}

def elementPiece (s : Store) (e : ElementSegment) : Piece (Option UInt32) :=
  ⟨e.table.toNat, offset s e.offset, e.funcs.map some⟩

def dataPiece (s : Store) (d : DataSegment) : Piece UInt8 :=
  ⟨d.memory.toNat, offset s d.offset, d.bytes⟩

theorem toList_fill {slots : Array (Option UInt32)} {at_ : Nat} {fs : List UInt32}
    (h : at_ + fs.length ≤ slots.size) :
    (fill slots at_ fs).toList = splice slots.toList at_ (fs.map some) := by
  induction fs generalizing slots at_ with
  | nil => rw [fill, List.map_nil, splice_nil]
  | cons f fs ih =>
    rw [List.length_cons] at h
    have hsize : (slots.setIfInBounds at_ (some f)).size = slots.size := Array.size_setIfInBounds
    rw [fill, ih (by omega), Array.toList_setIfInBounds, List.map_cons]
    apply splice_set
    rw [Array.length_toList]
    omega

theorem slots?_putElement {e : ElementSegment} (h : ¬ (elementPiece s e).Overruns s.slots?) :
    (putElement s e).slots? = Piece.lay s.slots? (elementPiece s e) := by
  refine (elementPiece s e).modify_eq_lay s.tables (·.slots.toList) _ h ?_
  intro t hfits
  rw [elementPiece, List.length_map, Array.length_toList] at hfits
  exact toList_fill hfits

theorem bytes?_putData {d : DataSegment} (h : ¬ (dataPiece s d).Overruns s.bytes?) :
    (putData s d).bytes? = Piece.lay s.bytes? (dataPiece s d) := by
  refine (dataPiece s d).modify_eq_lay s.memories Memory.bytes _ h ?_
  intro memory hfits
  rw [Memory.length_bytes] at hfits
  exact Memory.toList_overwrite hfits

/-- Writing segments leaves the globals, and so the offsets of the others,
    alone. -/
theorem slots?_foldl (es : List ElementSegment)
    (h : ∀ piece ∈ es.map (elementPiece s), ¬ piece.Overruns s.slots?) (index : Nat) :
    Option.Rel (Laid (es.map (elementPiece s)) index) (s.slots? index)
      ((es.foldl putElement s).slots? index) :=
  laid_foldl putElement Store.slots? elementPiece (fun _ _ => slots?_putElement)
    (fun _ _ => rfl) es h index

theorem bytes?_foldl (ds : List DataSegment)
    (h : ∀ piece ∈ ds.map (dataPiece s), ¬ piece.Overruns s.bytes?) (index : Nat) :
    Option.Rel (Laid (ds.map (dataPiece s)) index) (s.bytes? index)
      ((ds.foldl putData s).bytes? index) :=
  laid_foldl putData Store.bytes? dataPiece (fun _ _ => bytes?_putData) (fun _ _ => rfl) ds h
    index

variable {m : Module}

/-- The tables of segments are there, so only their lengths count. -/
theorem not_elementFits_iff (h : ∀ e ∈ m.elements, e.table.toNat < s.tables.size) :
    ∀ e ∈ m.elements.toList, !elementFits s e ↔ (elementPiece s e).Overruns s.slots? := by
  intro e he
  have htable := h e (Array.mem_toList_iff.mp he)
  simp [elementFits, Piece.Overruns, elementPiece, Store.slots?, htable]

theorem not_dataFits_iff (h : ∀ d ∈ m.data, d.memory.toNat < s.memories.size) :
    ∀ d ∈ m.data.toList, !dataFits s d ↔ (dataPiece s d).Overruns s.bytes? := by
  intro d hd
  have hmemory := h d (Array.mem_toList_iff.mp hd)
  simp [dataFits, Piece.Overruns, dataPiece, Store.bytes?, hmemory, Memory.length_bytes]

theorem fillSegments_eq (m : Module) (s : Store) :
    fillSegments m s = match m.elements.toList.findIdx? (!elementFits s ·) with
      | some index => .error (.elementSegmentOutOfBounds index)
      | none =>
        match m.data.toList.findIdx? (!dataFits s ·) with
        | some index => .error (.dataSegmentOutOfBounds index)
        | none => .ok (m.data.toList.foldl putData (m.elements.toList.foldl putElement s)) := by
  rw [← List.findIdx?_toArray, ← List.findIdx?_toArray, Array.toArray_toList, Array.toArray_toList,
    Array.foldl_toList, Array.foldl_toList]
  rfl

section

variable (helements : ∀ e ∈ m.elements, e.table.toNat < s.tables.size)

include helements

/-- The first element segment that does not fit is reported. -/
theorem fillSegments_eq_element_iff {k : Nat} :
    fillSegments m s = .error (.elementSegmentOutOfBounds k) ↔
      FirstOverrun s.slots? (m.elements.toList.map (elementPiece s)) k := by
  rw [← findIdx?_eq_some_iff (not_elementFits_iff helements), fillSegments_eq]
  cases m.elements.toList.findIdx? (!elementFits s ·) with
  | some index => simp
  | none => cases m.data.toList.findIdx? (!dataFits s ·) <;> simp

variable (hdata : ∀ d ∈ m.data, d.memory.toNat < s.memories.size)

include hdata

/-- If there is none, the first data segment that does not fit is. -/
theorem fillSegments_eq_data_iff {k : Nat} :
    fillSegments m s = .error (.dataSegmentOutOfBounds k) ↔
      (∀ piece ∈ m.elements.toList.map (elementPiece s), ¬ piece.Overruns s.slots?) ∧
        FirstOverrun s.bytes? (m.data.toList.map (dataPiece s)) k := by
  rw [← findIdx?_eq_some_iff (not_dataFits_iff hdata),
    ← findIdx?_eq_none_iff (not_elementFits_iff helements), fillSegments_eq]
  cases m.elements.toList.findIdx? (!elementFits s ·) with
  | some index => simp
  | none => cases m.data.toList.findIdx? (!dataFits s ·) <;> simp

/-- If all of them fit, they are laid. -/
theorem fillSegments_of_fits
    (hslots : ∀ piece ∈ m.elements.toList.map (elementPiece s), ¬ piece.Overruns s.slots?)
    (hbytes : ∀ piece ∈ m.data.toList.map (dataPiece s), ¬ piece.Overruns s.bytes?) :
    ∃ s', fillSegments m s = .ok s' ∧
      (∀ index, Option.Rel (Laid (m.elements.toList.map (elementPiece s)) index)
        (s.slots? index) (s'.slots? index)) ∧
      ∀ index, Option.Rel (Laid (m.data.toList.map (dataPiece s)) index)
        (s.bytes? index) (s'.bytes? index) := by
  have hnone := (findIdx?_eq_none_iff (not_elementFits_iff helements)).mpr hslots
  have hnone' := (findIdx?_eq_none_iff (not_dataFits_iff hdata)).mpr hbytes
  obtain ⟨tables, htables⟩ := foldl_putElement m.elements.toList s
  obtain ⟨memories, hmemories⟩ := foldl_putData m.data.toList (m.elements.toList.foldl putElement s)
  refine ⟨m.data.toList.foldl putData (m.elements.toList.foldl putElement s), ?_, ?_, ?_⟩
  · rw [fillSegments_eq, hnone, hnone']
  · intro index
    have hlaid := slots?_foldl m.elements.toList hslots index
    rw [hmemories]
    exact hlaid
  · intro index
    -- the elements were written to tables only
    rw [htables]
    exact bytes?_foldl (s := { s with tables }) m.data.toList hbytes index

end

end Link

-- ---------------------------------------------------------------------------
-- Segments of a module
-- ---------------------------------------------------------------------------

theorem Value.exists_i32 {v : Value} (h : v.type = .i32) : ∃ x, v = .i32 x := by
  cases v with
  | i32 x => exact ⟨x, rfl⟩
  | _ => cases h

/-- The host gives what the import asks for. -/
def Import.Answered (types : Array FuncType) (imports : Imports σ) (i : Import) : Prop :=
  ∃ value, imports.get? i.module i.name = some value ∧
    match i.desc, value with
    | .func index, .func f => types[index.toNat]? = some f.type
    | .global type, .global v mutable => type = ⟨v.type, mutable⟩
    | .memory limits, .memory memory =>
      limits.min.toNat * 65536 ≤ memory.size ∧
        ∀ max ∈ limits.max, ∃ bound ∈ memory.max, bound ≤ max.toNat
    | _, _ => False

namespace Link

theorem supply_of_supplies {types : Array FuncType} {l l' : Linked σ} {i : Import}
    {value : HostValue σ} (h : Supplies types l i value l') : supply types l i value = .ok l' := by
  unfold supply
  cases h with
  | func hdesc htype =>
    simp only [hdesc]
    exact if_pos htype
  | global hdesc htype =>
    simp only [hdesc, htype, and_self, if_true]
  | memory hdesc hfits =>
    simp only [hdesc]
    exact if_pos hfits

theorem resolve_of_answered {types : Array FuncType} {imports : Imports σ} {i : Import}
    (h : i.Answered types imports) (l : Linked σ) : ∃ l', resolve types imports l i = .ok l' := by
  obtain ⟨value, hvalue, hmatch⟩ := h
  suffices hsupplies : ∃ l', Supplies types l i value l' by
    obtain ⟨l', hl'⟩ := hsupplies
    refine ⟨l', ?_⟩
    unfold resolve
    simp only [hvalue, supply_of_supplies hl']
    rfl
  split at hmatch
  · rename_i hdesc
    refine ⟨_, .func hdesc ?_⟩
    rw [signature, hmatch, Option.getD_some]
  · rename_i hdesc
    exact ⟨_, .global hdesc hmatch⟩
  · rename_i limits memory hdesc
    refine ⟨_, .memory hdesc ?_⟩
    rw [memoryFits, Bool.and_eq_true, decide_eq_true_eq, Memory.pages,
      Nat.le_div_iff_mul_le (by decide)]
    refine ⟨hmatch.1, ?_⟩
    rw [Option.all_eq_true]
    intro max hmax
    obtain ⟨bound, hbound, hle⟩ := hmatch.2 max hmax
    rw [hbound]
    exact decide_eq_true hle
  · cases hmatch

theorem foldlM_resolve {types : Array FuncType} {imports : Imports σ} (is : List Import)
    (h : ∀ i ∈ is, i.Answered types imports) (l : Linked σ) :
    ∃ l', is.foldlM (resolve types imports) l = .ok l' := by
  induction is generalizing l with
  | nil => exact ⟨l, rfl⟩
  | cons i is ih =>
    obtain ⟨hi, his⟩ := List.forall_mem_cons.mp h
    obtain ⟨l₁, hl₁⟩ := resolve_of_answered hi l
    obtain ⟨l', hl'⟩ := ih his l₁
    refine ⟨l', ?_⟩
    rw [List.foldlM_cons, hl₁]
    exact hl'

end Link

namespace Module

variable {m : Module} {imports : Imports σ} {config : Config}

/-- Linking comes down to its segments if nothing else is wrong. -/
theorem link_of_answered (himports : ∀ i ∈ m.imports, i.Answered m.types imports)
    (hpages : ∀ limits ∈ m.memories, limits.min.toNat ≤ config.maxMemoryPages) :
    ∃ l : Link.Linked σ, l.Supplied m.types imports config m.imports.toList ∧
      m.link imports config =
        (Link.fillSegments m (Link.define m l.store)).map fun store => { l with store } := by
  obtain ⟨l, hl⟩ := Link.foldlM_resolve m.imports.toList
    (fun i hi => himports i (Array.mem_toList_iff.mp hi))
    { store := { fuel := config.fuel, pageLimit := config.maxMemoryPages }, hosts := #[] }
  refine ⟨l, Link.Linked.Supplied.empty.resolveAll _ hl, ?_⟩
  have hnone : m.memories.find? (config.maxMemoryPages < ·.min.toNat) = none :=
    Array.find?_eq_none.mpr fun limits hlimits => by simpa using hpages limits hlimits
  unfold link
  dsimp only
  rw [← Array.foldlM_toList, hl]
  simp only [bind, Except.bind, hnone]
  cases Link.fillSegments m (Link.define m l.store) <;> rfl

/-- The offset of a segment: the word of a constant or the initial value of a
    global, as a number without sign. -/
def Starts (m : Module) (imports : Imports σ) (e : ConstExpr) (start : Nat) : Prop :=
  ∃ x : BitVec 32, start = x.toNat ∧
    (e = [.const (.i32 x)] ∨
      ∃ index, e = [.globalGet index] ∧ m.initialValue? imports index.toNat = some (.i32 x))

/-- The piece is a segment with these parts. -/
structure Places (m : Module) (imports : Imports σ) (target : UInt32) (offset : ConstExpr)
    (items : List α) (piece : Piece α) : Prop where
  target : piece.target = target.toNat
  items : piece.items = items
  start : m.Starts imports offset piece.start

theorem Starts.unique {e : ConstExpr} {start start' : Nat} (h : m.Starts imports e start)
    (h' : m.Starts imports e start') : start = start' := by
  obtain ⟨x, rfl, hx⟩ := h
  obtain ⟨x', rfl, hx'⟩ := h'
  rcases hx with rfl | ⟨index, rfl, hvalue⟩
  · rcases hx' with heq | ⟨_, heq, _⟩
    · cases heq
      rfl
    · cases heq
  · rcases hx' with heq | ⟨_, heq, hvalue'⟩
    · cases heq
    · cases heq
      cases hvalue.symm.trans hvalue'
      rfl

theorem Places.eq {target : UInt32} {offset : ConstExpr} {items : List α} {piece : Piece α}
    (h : m.Places imports target offset items piece) {start : Nat}
    (hstart : m.Starts imports offset start) : piece = ⟨target.toNat, start, items⟩ := by
  rw [← h.target, ← h.items, ← h.start.unique hstart]

/-- The slots of a table before segments are written. -/
def initialSlots? (m : Module) (index : Nat) : Option (List (Option UInt32)) :=
  m.tables[index]?.map fun limits => List.replicate limits.min.toNat none

/-- The bytes of a memory before segments are written: those that the host gives
    for an imported one, zeros otherwise. -/
def initialBytes? (m : Module) (imports : Imports σ) (index : Nat) : Option (List UInt8) :=
  match (m.imports.filter (·.desc.memory?.isSome))[index]? with
  | some i =>
    match imports.get? i.module i.name with
    | some (.memory memory) => some memory.bytes
    | _ => none
  | none =>
    m.memories[index - (m.imports.filter (·.desc.memory?.isSome)).size]?.map fun limits =>
      List.replicate (limits.min.toNat * 65536) 0

section

variable {l : Link.Linked σ} (hl : l.Supplied m.types imports config m.imports.toList)
include hl

theorem starts_offset (hm : m.Indexed) {e : ConstExpr}
    (he : e.Single m .i32 m.globalTypes.size) :
    m.Starts imports e (Link.offset (Link.define m l.store) e) := by
  rcases he with ⟨v, hbody, htype⟩ | ⟨index, type, hbody, _, hindex, htype⟩
  · obtain ⟨x, rfl⟩ := Value.exists_i32 htype
    rw [(e.body_eq_iff (.const (.i32 x))).mp hbody]
    exact ⟨x, rfl, .inl rfl⟩
  · rw [← Link.map_globalType_define hm hl, Array.getElem?_map] at hindex
    obtain ⟨g, hg, rfl⟩ := Option.map_eq_some_iff.mp hindex
    have hvalue := define_initialValue? hm hl hg
    obtain ⟨x, hx⟩ := Value.exists_i32 htype
    rw [hx] at hvalue
    rw [(e.body_eq_iff (.globalGet index)).mp hbody]
    refine ⟨x, ?_, .inr ⟨index, rfl, hvalue⟩⟩
    rw [Link.offset, Link.constant?, hg, Option.map_some, hx]

theorem slots?_define : (Link.define m l.store).slots? = m.initialSlots? := by
  funext index
  rw [Store.slots?, hl.define_tables, initialSlots?, Array.getElem?_map, Option.map_map]
  congr 1

theorem bytes?_define : (Link.define m l.store).bytes? = m.initialBytes? imports := by
  funext index
  have hfilter : (m.imports.filter (·.desc.memory?.isSome)).toList =
      (Link.importsOf ImportDesc.memory? m.imports.toList).map (·.1) := by
    rw [Array.toList_filter, Link.map_fst_importsOf]
  have hsize : (m.imports.filter (·.desc.memory?.isSome)).size = l.store.memories.size := by
    rw [← Array.length_toList, hfilter, List.length_map, hl.memories.length_eq, Array.length_toList]
  have hindex : (m.imports.filter (·.desc.memory?.isSome))[index]? =
      (Link.importsOf ImportDesc.memory? m.imports.toList)[index]?.map (·.1) := by
    rw [← Array.getElem?_toList, hfilter, List.getElem?_map]
  rw [Store.bytes?, initialBytes?, Link.define, hsize, hindex]
  cases hi : (Link.importsOf ImportDesc.memory? m.imports.toList)[index]? with
  | none =>
    have hle : l.store.memories.size ≤ index := by
      rw [← Array.length_toList, ← hl.memories.length_eq]
      exact List.getElem?_eq_none_iff.mp hi
    rw [Array.getElem?_append_right hle, Array.getElem?_map, Option.map_map]
    congr 1
    funext limits
    simp only [Function.comp_apply, Memory.bytes, Link.memory, Memory.ofPages, data_zeros,
      Array.toList_replicate]
    rfl
  | some entry =>
    obtain ⟨memory, hmemory, hget, _⟩ := Link.getElem?_of_forall₂ hl.memories hi
    rw [Array.getElem?_toList] at hmemory
    rw [Array.getElem?_append_left (Array.getElem?_eq_some_iff.mp hmemory).1, hmemory]
    simp [hget]

theorem table_lt (hm : m.Indexed) :
    ∀ e ∈ m.elements, e.table.toNat < (Link.define m l.store).tables.size := by
  intro e he
  obtain ⟨_, _, _, _, _, helements, _⟩ := Validity.references_exist_iff.mp hm.references
  rw [hl.size_define_tables]
  exact helements e he ⟨.table, e.table⟩ List.mem_cons_self

theorem memory_lt (hm : m.Indexed) :
    ∀ d ∈ m.data, d.memory.toNat < (Link.define m l.store).memories.size := by
  intro d hd
  obtain ⟨_, _, _, _, _, _, hdata⟩ := Validity.references_exist_iff.mp hm.references
  rw [hl.size_define_memories]
  exact hdata d hd ⟨.memory, d.memory⟩ List.mem_cons_self

end

/-- A module that was read, and whose imports and memories are in order, is
    linked if all its segments fit, counted without wrapping. Otherwise the
    first element segment that does not is named, or the first such data segment
    if there is none. Slots and bytes are those of the last segment over them,
    or else empty, zero or what the host has there. What the host gives is only
    read, and the state it shares with the instances of the module stays as it
    was until a start function runs. -/
theorem segments_laid {bytes : List UInt8} (hread : Format.decode bytes = .ok m)
    (himports : ∀ i ∈ m.imports, i.Answered m.types imports)
    (hpages : ∀ limits ∈ m.memories, limits.min.toNat ≤ config.maxMemoryPages) :
    ∃ (elements : List (Piece (Option UInt32))) (data : List (Piece UInt8)),
      List.Forall₂ (fun e => m.Places imports e.table e.offset (e.funcs.map some))
        m.elements.toList elements ∧
      List.Forall₂ (fun d => m.Places imports d.memory d.offset d.bytes) m.data.toList data ∧
      (∀ k, m.link imports config = .error (.elementSegmentOutOfBounds k) ↔
        FirstOverrun m.initialSlots? elements k) ∧
      (∀ k, m.link imports config = .error (.dataSegmentOutOfBounds k) ↔
        (∀ piece ∈ elements, ¬ piece.Overruns m.initialSlots?) ∧
          FirstOverrun (m.initialBytes? imports) data k) ∧
      ((∀ piece ∈ elements, ¬ piece.Overruns m.initialSlots?) →
        (∀ piece ∈ data, ¬ piece.Overruns (m.initialBytes? imports)) →
        ∃ linked, m.link imports config = .ok linked ∧
          (∀ index, Option.Rel (Laid elements index) (m.initialSlots? index)
            (linked.store.slots? index)) ∧
          ∀ index, Option.Rel (Laid data index) (m.initialBytes? imports index)
            (linked.store.bytes? index)) ∧
      ∀ budget shared, m.start = none ∨ (∃ e, m.link imports config = .error e) →
        (m.instantiate imports config budget shared).2 = shared := by
  have hm := Format.indexed_of_decode hread
  obtain ⟨l, hl, hlink⟩ := link_of_answered himports hpages
  have herror (e : Link.Error) : m.link imports config = .error e ↔
      Link.fillSegments m (Link.define m l.store) = .error e := by
    rw [hlink]
    cases Link.fillSegments m (Link.define m l.store) <;> simp [Except.map]
  have htables := table_lt hl hm
  have hmemories := memory_lt hl hm
  rw [← slots?_define hl, ← bytes?_define hl]
  refine ⟨m.elements.toList.map (Link.elementPiece (Link.define m l.store)),
    m.data.toList.map (Link.dataPiece (Link.define m l.store)), ?_, ?_, ?_, ?_, ?_, ?_⟩
  · refine List.forall₂_map_right_iff.mpr (List.forall₂_same.mpr fun e he => ⟨rfl, rfl, ?_⟩)
    exact starts_offset hl hm (hm.elements e (Array.mem_toList_iff.mp he))
  · refine List.forall₂_map_right_iff.mpr (List.forall₂_same.mpr fun d hd => ⟨rfl, rfl, ?_⟩)
    exact starts_offset hl hm (hm.data d (Array.mem_toList_iff.mp hd))
  · intro k
    rw [herror, Link.fillSegments_eq_element_iff htables]
  · intro k
    rw [herror, Link.fillSegments_eq_data_iff htables hmemories]
  · intro helements hdata
    obtain ⟨s, hfill, hlaid⟩ := Link.fillSegments_of_fits htables hmemories helements hdata
    refine ⟨{ l with store := s }, ?_, hlaid⟩
    rw [hlink, hfill]
    rfl
  · rintro budget shared (hstart | ⟨e, he⟩)
    · unfold instantiate
      cases m.link imports config <;> simp [hstart]
    · rw [instantiate, he]

end Module

/-- Segments that overlap and start where the host says, and an empty one at the
    end of the memory. -/
def patch : Module where
  types := #[{}]
  imports := #[{ module := "env", name := "base", desc := .global ⟨.i32, false⟩ },
    { module := "env", name := "mem", desc := .memory { min := 0 } }]
  functions := #[{ type := 0, locals := #[], body := #[.end_] }]
  tables := #[{ min := 3 }]
  elements := #[{ table := 0, offset := [.const (.i32 1)], funcs := [0, 0] }]
  data := #[{ memory := 0, offset := [.const (.i32 1)], bytes := [1, 2, 3] },
    { memory := 0, offset := [.globalGet 0], bytes := [9] },
    { memory := 0, offset := [.const (.i32 5)], bytes := [] }]

/-- The bytes of `patch`. -/
def patchBytes : List UInt8 :=
  [0x00, 0x61, 0x73, 0x6D, 0x01, 0x00, 0x00, 0x00,
    0x01, 0x04, 0x01, 0x60, 0x00, 0x00,
    0x02, 0x18, 0x02, 0x03, 0x65, 0x6E, 0x76, 0x04, 0x62, 0x61, 0x73, 0x65, 0x03, 0x7F, 0x00,
    0x03, 0x65, 0x6E, 0x76, 0x03, 0x6D, 0x65, 0x6D, 0x02, 0x00, 0x00,
    0x03, 0x02, 0x01, 0x00,
    0x04, 0x04, 0x01, 0x70, 0x00, 0x03,
    0x09, 0x08, 0x01, 0x00, 0x41, 0x01, 0x0B, 0x02, 0x00, 0x00,
    0x0A, 0x04, 0x01, 0x02, 0x00, 0x0B,
    0x0B, 0x14, 0x03, 0x00, 0x41, 0x01, 0x0B, 0x03, 0x01, 0x02, 0x03,
    0x00, 0x23, 0x00, 0x0B, 0x01, 0x09, 0x00, 0x41, 0x05, 0x0B, 0x00]

theorem decode_patch : Format.decode patchBytes = .ok patch :=
  Format.eq_ok_of_toOption (by decide +kernel)

/-- A host with a memory of five sevens. -/
def fiveSevens : Imports Unit :=
  (({} : Imports Unit).define "env" "base" (.global (.i32 2) false)).define "env" "mem"
    (.memory { data := ⟨#[7, 7, 7, 7, 7]⟩ })

theorem fiveSevens_answers : ∀ i ∈ patch.imports, i.Answered patch.types fiveSevens := by
  intro i hi
  simp only [patch, List.mem_toArray, List.mem_cons, List.not_mem_nil, or_false] at hi
  rcases hi with rfl | rfl
  · exact ⟨_, rfl, rfl⟩
  · exact ⟨_, rfl, Nat.zero_le _, nofun⟩

/-- The second data segment shows inside the first, the host around it. -/
theorem patch_segments_laid :
    Format.decode patchBytes = .ok patch ∧
      (∀ i ∈ patch.imports, i.Answered patch.types fiveSevens) ∧
      ∃ linked bs, patch.link fiveSevens {} = .ok linked ∧ linked.store.bytes? 0 = some bs ∧
        bs.length = 5 ∧ bs[1]? = some 1 ∧ bs[2]? = some 9 ∧ bs[3]? = some 3 ∧ bs[4]? = some 7 := by
  refine ⟨decode_patch, fiveSevens_answers, ?_⟩
  obtain ⟨elements, data, helements, hdata, _, _, hlaid, _⟩ := @Module.segments_laid Unit patch
    fiveSevens {} patchBytes decode_patch fiveSevens_answers (by simp [patch])
  have hslots : patch.initialSlots? 0 = some [none, none, none] := rfl
  have hbytes : patch.initialBytes? fiveSevens 0 = some [7, 7, 7, 7, 7] := by decide +kernel
  have hbase : patch.initialValue? fiveSevens 0 = some (.i32 2) := by decide +kernel
  obtain rfl : elements = [⟨0, 1, [some 0, some 0]⟩] := by
    cases helements with | cons he hrest =>
    cases hrest
    rw [he.eq ⟨1, rfl, .inl rfl⟩]
    rfl
  obtain rfl : data = [⟨0, 1, [1, 2, 3]⟩, ⟨0, 2, [9]⟩, ⟨0, 5, []⟩] := by
    cases hdata with | cons h₁ hrest =>
    cases hrest with | cons h₂ hrest =>
    cases hrest with | cons h₃ hrest =>
    cases hrest
    rw [h₁.eq ⟨1, rfl, .inl rfl⟩, h₂.eq ⟨2, rfl, .inr ⟨0, rfl, hbase⟩⟩, h₃.eq ⟨5, rfl, .inl rfl⟩]
    rfl
  obtain ⟨linked, hlink, _, hmemories⟩ := hlaid
    (by simp [Piece.Overruns, hslots]) (by simp [Piece.Overruns, hbytes])
  have hmemory := hmemories 0
  rw [hbytes] at hmemory
  generalize hbs : linked.store.bytes? 0 = final at hmemory
  cases hmemory with | @some _ bs h =>
  refine ⟨linked, bs, hlink, hbs, h.length, ?_, ?_, ?_, ?_⟩
  · exact h.last 0 _ 1 rfl (by decide) (by decide)
  · exact h.last 1 _ 2 rfl (by decide) (by decide)
  · exact h.last 0 _ 3 rfl (by decide) (by decide)
  · exact h.rest 4 (by decide)

end Wasm
