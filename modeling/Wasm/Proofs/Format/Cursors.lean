import Wasm.Proofs.Format.Reads

/-!
# Cursors

A cursor is a window together with what is left of it to read. Framing gives a
part of what is left to a cursor of its own, so that after some time many may be
at work on one file, one inside the other and each read from in turn. Whatever
the order of the calls, a cursor has its own part of the file, looks at nothing
else, and is moved by no call but its own.
-/

namespace Wasm.Format

-- ---------------------------------------------------------------------------
-- One cursor
-- ---------------------------------------------------------------------------

structure Cursor where
  /-- The window as it was given. -/
  whole : Window
  /-- What has not been passed yet. -/
  left : Window
  /-- How many windows were framed. -/
  frames : Nat := 0

namespace Cursor

def start (w : Window) : Cursor := { whole := w, left := w }

/-- How far into its window the cursor is. -/
def pos (c : Cursor) : Nat := c.left.offset - c.whole.offset

/-- The cursor `n` bytes further on. -/
def advance (c : Cursor) (n : Nat) : Cursor := { c with left := c.left.drop n }

def read (c : Cursor) (k : Read) : Except Error k.Result × Cursor :=
  match k.reader c.left with
  | .ok v left => (.ok v, { c with left })
  | .error e left => (.error e, { c with left })

/-- Gives the next `n` bytes to a cursor of their own. -/
def frame (c : Cursor) (n : Nat) : Except Error Cursor × Cursor :=
  match Reader.frame n c.left with
  | .ok inner left => (.ok (start inner), { c with left, frames := c.frames + 1 })
  | .error e left => (.error e, { c with left })

/-- The cursor stands in a part of the file: its window is what the file has
    there, and what is left is the window behind the position. -/
structure Within (c : Cursor) (file : Window) : Prop where
  whole_eq : c.whole = (file.drop (c.whole.offset - file.offset)).take c.whole.bytes.length
  stop_le : c.whole.stop ≤ file.stop
  left_eq : c.left = c.whole.drop c.pos
  pos_le : c.pos ≤ c.whole.bytes.length

variable {c d : Cursor} {file : Window} {k : Read} {n : Nat}

/-- A cursor that has passed nothing. -/
theorem Within.of_start {w : Window}
    (hw : w = (file.drop (w.offset - file.offset)).take w.bytes.length)
    (hstop : w.stop ≤ file.stop) : (start w).Within file where
  whole_eq := hw
  stop_le := hstop
  left_eq := by simp [start, pos, Window.drop]
  pos_le := by simp [start, pos]

theorem Within.start (file : Window) : (start file).Within file :=
  .of_start (by simp [Window.drop, Window.take]) (Nat.le_refl _)

namespace Within

variable (h : c.Within file)

include h

theorem length_left : c.left.bytes.length = c.whole.bytes.length - c.pos := by
  rw [h.left_eq, Window.length_drop]

theorem offset_left : c.left.offset = c.whole.offset + c.pos := by
  conv_lhs => rw [h.left_eq, Window.offset_drop]

theorem stop_left : c.left.stop = c.whole.stop := by
  rw [h.left_eq, Window.stop_drop h.pos_le]

theorem offset_le : file.offset ≤ c.whole.offset := by
  have hoffset := congrArg Window.offset h.whole_eq
  simp only [Window.take, Window.drop] at hoffset
  omega

theorem pos_advance (n : Nat) : (c.advance n).pos = c.pos + n := by
  have hoffset := h.offset_left
  simp only [pos, advance, Window.offset_drop] at hoffset ⊢
  omega

/-- Passing bytes that are left. -/
theorem pass (hn : n ≤ c.left.bytes.length) (hwhole : d.whole = c.whole)
    (hleft : d.left = c.left.drop n) : d.Within file := by
  have hpos : d.pos = c.pos + n := by
    rw [← h.pos_advance n, pos, pos, hwhole, hleft, advance]
  have hlength := h.length_left
  refine ⟨hwhole ▸ h.whole_eq, hwhole ▸ h.stop_le, ?_, ?_⟩
  · rw [hleft, hwhole, hpos, ← Window.drop_drop, ← h.left_eq]
  · have hle := h.pos_le
    rw [hwhole, hpos]
    omega

/-- A window made of bytes that are left. -/
theorem framed (hn : n ≤ c.left.bytes.length) : (Cursor.start (c.left.take n)).Within file := by
  have hlength := h.length_left
  have hoffset := h.offset_left
  have hpos := h.pos_le
  have hfile := h.offset_le
  refine .of_start ?_ ?_
  · calc c.left.take n
        = (((file.drop (c.whole.offset - file.offset)).take c.whole.bytes.length).drop c.pos).take
            n := by rw [← h.whole_eq, ← h.left_eq]
      _ = (file.drop (c.left.offset - file.offset)).take n := by
        rw [Window.take_drop_take (by omega), Window.drop_drop]
        congr 2
        omega
      _ = (file.drop (c.left.offset - file.offset)).take (c.left.take n).bytes.length := by
        rw [Window.length_take hn]
  · calc (c.left.take n).stop
        ≤ c.left.stop := Nat.add_le_add_left (List.length_take_le' n c.left.bytes) _
      _ ≤ file.stop := h.stop_left ▸ h.stop_le

end Within

-- ---------------------------------------------------------------------------
-- Reading and framing
-- ---------------------------------------------------------------------------

theorem read_of_ok {v : k.Result} {left : Window} (h : k.reader c.left = .ok v left) :
    c.read k = (.ok v, { c with left }) := by
  rw [read, h]

theorem read_of_error {e : Error} {left : Window} (h : k.reader c.left = .error e left) :
    c.read k = (.error e, { c with left }) := by
  rw [read, h]

theorem read_eq_ok {v : k.Result} (h : (c.read k).1 = .ok v) :
    ∃ left, k.reader c.left = .ok v left ∧ (c.read k).2 = { c with left } := by
  cases hread : k.reader c.left with
  | ok v' left =>
    rw [read_of_ok hread] at h ⊢
    cases h
    exact ⟨left, rfl, rfl⟩
  | error e left =>
    rw [read_of_error hread] at h
    cases h

theorem read_eq_error {e : Error} (h : (c.read k).1 = .error e) :
    ∃ left, k.reader c.left = .error e left ∧ (c.read k).2 = { c with left } := by
  cases hread : k.reader c.left with
  | ok v' left =>
    rw [read_of_ok hread] at h
    cases h
  | error e' left =>
    rw [read_of_error hread] at h ⊢
    cases h
    exact ⟨left, rfl, rfl⟩

theorem frame_of_lt (h : c.left.bytes.length < n) :
    c.frame n = (.error (.unexpectedEnd c.left.stop), c) := by
  rw [frame, Reader.frame_of_lt h]

theorem frame_of_le (h : n ≤ c.left.bytes.length) :
    c.frame n = (.ok (start (c.left.take n)), { c.advance n with frames := c.frames + 1 }) := by
  rw [frame, Reader.frame_of_le h]
  rfl

/-- A read that succeeds passes the bytes that it wants, and any cursor that has
    the same bytes next reads the same from them. One that fails finds the end of
    the window if it wants more bytes than are left, and otherwise refuses
    them. -/
structure ReadsOwn (c : Cursor) (k : Read) : Prop where
  ok : ∀ v, (c.read k).1 = .ok v →
    k.extent c.left.bytes ≤ c.left.bytes.length ∧
    (c.read k).2 = c.advance (k.extent c.left.bytes) ∧
    (c.read k).2.pos = c.pos + k.extent c.left.bytes ∧
    ∀ d : Cursor, d.left.bytes.take (k.extent c.left.bytes) =
      c.left.bytes.take (k.extent c.left.bytes) →
        d.read k = (.ok v, d.advance (k.extent c.left.bytes))
  ends : ∀ offset, (c.read k).1 = .error (.unexpectedEnd offset) ↔
    c.left.bytes.length < k.extent c.left.bytes ∧ offset = c.whole.stop
  refused : ∀ e, (c.read k).1 = .error e → k.extent c.left.bytes ≤ c.left.bytes.length →
    k.Refused c.left e
  unmoved : k ≠ .name → ∀ e, (c.read k).1 = .error e → (c.read k).2 = c

theorem Within.readsOwn (h : c.Within file) (k : Read) : c.ReadsOwn k where
  ok v hv := by
    obtain ⟨left, hread, hcursor⟩ := read_eq_ok hv
    obtain ⟨hle, rfl⟩ := (k.reader_wants c.left).ok v left hread
    refine ⟨hle, hcursor, hcursor ▸ h.pos_advance _, fun d hd => ?_⟩
    exact read_of_ok (k.reader_exact.eq_ok_of_take_eq hle hread hd)
  ends offset := by
    constructor
    · intro he
      obtain ⟨left, hread, -⟩ := read_eq_error he
      rcases (k.reader_wants c.left).error _ left hread with ⟨hlt, hend⟩ | ⟨-, hrefused⟩
      · cases hend
        exact ⟨hlt, h.stop_left⟩
      · exact absurd hrefused (k.not_refused_unexpectedEnd c.left offset)
    · rintro ⟨hlt, rfl⟩
      cases hread : k.reader c.left with
      | ok v left => exact absurd hlt (not_lt.mpr ((k.reader_wants c.left).ok v left hread).1)
      | error e left =>
        obtain ⟨-, rfl⟩ | ⟨hle, -⟩ := (k.reader_wants c.left).error e left hread
        · rw [read_of_error hread, h.stop_left]
        · exact absurd hlt (not_lt.mpr hle)
  refused e he hle := by
    obtain ⟨left, hread, -⟩ := read_eq_error he
    obtain ⟨hlt, -⟩ | ⟨-, hrefused⟩ := (k.reader_wants c.left).error e left hread
    · exact absurd hlt (not_lt.mpr hle)
    · exact hrefused
  unmoved hk e he := by
    obtain ⟨left, hread, hcursor⟩ := read_eq_error he
    rw [hcursor, Read.reader_atomic hk hread]

/-- A name that fails has passed nothing if its length could not be read, its
    length if the bytes end before it does, and all that it wants if they are no
    text. -/
def NameFailure (c : Cursor) : Prop :=
  ∀ e, (c.read .name).1 = .error e →
    (c.read .unsigned32).1 = .error e ∧ (c.read .name).2 = c ∨
    ∃ length : UInt32, (c.read .unsigned32).1 = .ok length ∧
      (e = .unexpectedEnd c.whole.stop ∧ (c.read .name).2 = (c.read .unsigned32).2 ∨
       e = .invalidUtf8 (c.read .unsigned32).2.left.offset ∧
        (c.read .name).2 = (c.read .unsigned32).2.advance length.toNat)

theorem Within.nameFailure (h : c.Within file) : c.NameFailure := by
  intro e he
  obtain ⟨left, hread, hcursor⟩ := read_eq_error he
  have houtcome : Reader.NameOutcome c.left (.error e left) := hread ▸ Reader.name_outcome c.left
  cases houtcome with
  | noLength hlength =>
    have hsize := read_of_error (k := .unsigned32) hlength
    exact .inl ⟨by rw [hsize], hcursor⟩
  | short hlength =>
    have hsize := read_of_ok (k := .unsigned32) hlength
    refine .inr ⟨_, by rw [hsize], .inl ⟨by rw [h.stop_left], ?_⟩⟩
    rw [hcursor, hsize]
  | noText hlength =>
    have hsize := read_of_ok (k := .unsigned32) hlength
    refine .inr ⟨_, by rw [hsize], .inr ⟨by rw [hsize, Window.offset_drop], ?_⟩⟩
    rw [hcursor, hsize, Reader.nameExtent_of_ok hlength, advance, Window.drop_drop]

-- ---------------------------------------------------------------------------
-- Calls
-- ---------------------------------------------------------------------------

/-- What can be asked of a cursor. -/
inductive Call where
  | read (k : Read)
  | frame (n : Nat)

/-- The cursor after the call. -/
def after (c : Cursor) : Call → Cursor
  | .read k => (c.read k).2
  | .frame n => (c.frame n).2

/-- The cursor that the call makes, if it makes one. -/
def child? (c : Cursor) : Call → Option Cursor
  | .read _ => none
  | .frame n => (c.frame n).1.toOption

variable {call : Call}

theorem Within.after (h : c.Within file) (call : Call) : (c.after call).Within file := by
  cases call with
  | read k =>
    rw [Cursor.after]
    cases hread : k.reader c.left with
    | ok v left =>
      obtain ⟨hle, rfl⟩ := (k.reader_wants c.left).ok v left hread
      rw [read_of_ok hread]
      exact h.pass hle rfl rfl
    | error e left =>
      obtain ⟨n, hle, rfl⟩ := Read.error_drop hread
      rw [read_of_error hread]
      exact h.pass hle rfl rfl
  | frame n =>
    rw [Cursor.after]
    rcases Nat.lt_or_ge c.left.bytes.length n with hlt | hle
    · rw [frame_of_lt hlt]
      exact h
    · rw [frame_of_le hle]
      exact h.pass hle rfl rfl

theorem child?_eq_some (h : c.child? call = some d) :
    ∃ n ≤ c.left.bytes.length, call = .frame n ∧ d = start (c.left.take n) ∧
      (c.after call).frames = c.frames + 1 := by
  cases call with
  | read k => cases h
  | frame n =>
    rcases Nat.lt_or_ge c.left.bytes.length n with hlt | hle
    · rw [child?, frame_of_lt hlt] at h
      cases h
    · rw [child?, frame_of_le hle] at h
      cases h
      exact ⟨n, hle, rfl, rfl, by rw [Cursor.after, frame_of_le hle]⟩

theorem frames_le_after (c : Cursor) (call : Call) : c.frames ≤ (c.after call).frames := by
  cases call with
  | read k =>
    rw [Cursor.after, Cursor.read]
    split <;> exact Nat.le_refl _
  | frame n =>
    rw [Cursor.after, Cursor.frame]
    split
    · exact Nat.le_succ _
    · exact Nat.le_refl _

end Cursor

-- ---------------------------------------------------------------------------
-- Many cursors
-- ---------------------------------------------------------------------------

/-- Where a cursor comes from: the number of the frame among those of the cursor
    that made it, and then where that comes from. -/
abbrev Address := List Nat

/-- The cursors at work. -/
abbrev Cursors := Address → Option Cursor

/-- A call of the cursor at an address. -/
structure Step where
  address : Address
  call : Cursor.Call

/-- The call as one among the cursors that come from an address, if it is. -/
def Step.under? (b : Address) (st : Step) : Option Step :=
  (st.address.dropSuffix? b).map (⟨·, st.call⟩)

namespace Cursors

def start (file : Window) : Cursors
  | [] => some (.start file)
  | _ :: _ => none

/-- Makes the call, if there is such a cursor. If it makes another cursor, that
    has the next number. -/
def step (s : Cursors) (st : Step) : Cursors :=
  match s st.address with
  | none => s
  | some c => fun a =>
    if a = st.address then some (c.after st.call)
    else if a = c.frames :: st.address then (c.child? st.call).or (s a)
    else s a

def run (s : Cursors) (steps : List Step) : Cursors := steps.foldl step s

/-- The cursors that come from an address. -/
def under (s : Cursors) (b : Address) : Cursors := fun a => s (a ++ b)

/-- The calls of the cursor at an address, in order. -/
def callsAt (a : Address) (steps : List Step) : List Cursor.Call :=
  (steps.filter (·.address = a)).map (·.call)

/-- A cursor that was framed has the number of its frame. -/
def Numbered (s : Cursors) : Prop :=
  ∀ ⦃i a d⦄, s (i :: a) = some d → ∃ c, s a = some c ∧ i < c.frames

variable {s : Cursors} {st : Step} {a b : Address} {c d : Cursor} {file : Window}

-- ---------------------------------------------------------------------------
-- One call
-- ---------------------------------------------------------------------------

theorem step_of_none (h : s a = none) (call : Cursor.Call) : s.step ⟨a, call⟩ = s := by
  rw [step, h]

theorem step_of_some (h : s a = some c) (call : Cursor.Call) (x : Address) :
    s.step ⟨a, call⟩ x = if x = a then some (c.after call)
      else if x = c.frames :: a then (c.child? call).or (s x) else s x := by
  rw [step, h]

/-- After a call there are the cursor that was called, the one that it made, and
    those that were there. -/
theorem step_eq_some (h : s.step st a = some d) :
    (∃ c, a = st.address ∧ s a = some c ∧ d = c.after st.call) ∨
    (∃ c, s st.address = some c ∧ a = c.frames :: st.address ∧ c.child? st.call = some d) ∨
    s a = some d := by
  cases hst : s st.address with
  | none =>
    rw [step_of_none hst st.call] at h
    exact .inr (.inr h)
  | some c =>
    rw [step_of_some hst st.call] at h
    split at h
    · rename_i ha
      cases h
      exact .inl ⟨c, ha, ha ▸ hst, rfl⟩
    split at h
    · rename_i ha
      rcases Option.or_eq_some_iff.mp h with hchild | ⟨-, hd⟩
      · exact .inr (.inl ⟨c, rfl, ha, hchild⟩)
      · exact .inr (.inr hd)
    · exact .inr (.inr h)

/-- The address that a new cursor gets is free. -/
theorem Numbered.free (hs : s.Numbered) (h : s a = some c) : s (c.frames :: a) = none := by
  refine Option.eq_none_iff_forall_ne_some.mpr fun d hd => ?_
  obtain ⟨c', hc', hlt⟩ := hs hd
  rw [h] at hc'
  cases hc'
  exact Nat.lt_irrefl _ hlt

/-- A call moves the cursor that it is made of and no other. -/
theorem step_apply (hs : s.Numbered) (h : s a = some c) (st : Step) :
    s.step st a = some (if a = st.address then c.after st.call else c) := by
  cases hst : s st.address with
  | none =>
    have hne : a ≠ st.address := by
      rintro rfl
      rw [h] at hst
      cases hst
    rw [step_of_none hst st.call, if_neg hne, h]
  | some c' =>
    rw [step_of_some hst st.call]
    by_cases ha : a = st.address
    · subst ha
      rw [h] at hst
      cases hst
      rw [if_pos rfl, if_pos rfl]
    · have hfree : a ≠ c'.frames :: st.address := by
        rintro rfl
        rw [hs.free hst] at h
        cases h
      rw [if_neg ha, if_neg hfree, if_neg ha, h]

theorem Numbered.start (file : Window) : (start file).Numbered := nofun

theorem Numbered.step (hs : s.Numbered) (st : Step) : (s.step st).Numbered := by
  intro i a d h
  have hkeep {c : Cursor} (hc : s a = some c) (hi : i < c.frames) :
      ∃ c', s.step st a = some c' ∧ i < c'.frames := by
    refine ⟨_, step_apply hs hc st, ?_⟩
    split
    · exact Nat.lt_of_lt_of_le hi (c.frames_le_after st.call)
    · exact hi
  obtain ⟨c', -, hc', -⟩ | ⟨c', hc', ha, hchild⟩ | hd := step_eq_some h
  · obtain ⟨c, hc, hi⟩ := hs hc'
    exact hkeep hc hi
  · cases ha
    obtain ⟨n, -, -, -, hframes⟩ := Cursor.child?_eq_some hchild
    refine ⟨_, step_apply hs hc' st, ?_⟩
    rw [if_pos rfl, hframes]
    exact Nat.lt_succ_self _
  · obtain ⟨c, hc, hi⟩ := hs hd
    exact hkeep hc hi

/-- What comes from an address has that address on its way. -/
theorem Numbered.exists_of_append (hs : s.Numbered) (h : s (a ++ b) = some d) :
    ∃ c, s b = some c := by
  induction a generalizing d with
  | nil => exact ⟨d, h⟩
  | cons i a ih =>
    obtain ⟨c, hc, -⟩ := hs h
    exact ih hc

-- ---------------------------------------------------------------------------
-- The cursors that come from an address
-- ---------------------------------------------------------------------------

theorem step_under (s : Cursors) (a b : Address) (call : Cursor.Call) :
    (s.step ⟨a ++ b, call⟩).under b = (s.under b).step ⟨a, call⟩ := by
  funext x
  cases hc : s (a ++ b) with
  | none =>
    have hunder : s.under b a = none := hc
    rw [step_of_none hc, step_of_none hunder]
  | some c =>
    have hunder : s.under b a = some c := hc
    rw [step_of_some hunder, under, step_of_some hc]
    simp only [← List.cons_append, List.append_left_inj]
    rfl

/-- A call of a cursor that does not come from an address leaves those that
    do. -/
theorem step_under_of_not_suffix (hs : s.Numbered) (hb : s b = some c)
    (hout : ¬ b <:+ st.address) : (s.step st).under b = s.under b := by
  funext x
  have hne : x ++ b ≠ st.address := by
    rintro heq
    exact hout ⟨x, heq⟩
  cases hx : s (x ++ b) with
  | some d => rw [under, under, step_apply hs hx, if_neg hne, hx]
  | none =>
    rw [under, under, hx]
    refine Option.eq_none_iff_forall_ne_some.mpr fun d hd => ?_
    obtain ⟨c', ha, -⟩ | ⟨c', -, ha, -⟩ | hd := step_eq_some hd
    · exact hne ha
    · -- only a cursor from `b` makes one further from it, and `b` itself is taken
      cases x with
      | nil =>
        rw [List.nil_append, hb] at hx
        cases hx
      | cons i x =>
        rw [List.cons_append, List.cons_eq_cons] at ha
        exact hout ⟨x, ha.2⟩
    · rw [hx] at hd
      cases hd

/-- Nothing comes from a new cursor yet. -/
theorem under_child (hs : s.Numbered) (h : s a = some c) {call : Cursor.Call} {w : Window}
    (hchild : c.child? call = some (.start w)) :
    (s.step ⟨a, call⟩).under (c.frames :: a) = start w := by
  funext x
  cases x with
  | nil =>
    rw [under, List.nil_append, step_of_some h, if_neg (List.cons_ne_self _ _), if_pos rfl, hchild]
    rfl
  | cons i x =>
    have hlong : a.length + 1 < (i :: x ++ c.frames :: a).length := by
      simp only [List.length_append, List.length_cons]
      omega
    refine Option.eq_none_iff_forall_ne_some.mpr fun d hd => ?_
    obtain ⟨-, ha, -⟩ | ⟨c', -, ha, -⟩ | hd := step_eq_some hd
    · rw [ha] at hlong
      exact absurd hlong (by simp)
    · rw [ha] at hlong
      exact absurd hlong (by simp)
    · obtain ⟨d, hd⟩ := hs.exists_of_append hd
      rw [hs.free h] at hd
      cases hd

-- ---------------------------------------------------------------------------
-- Many calls
-- ---------------------------------------------------------------------------

theorem Numbered.run (hs : s.Numbered) (steps : List Step) : (s.run steps).Numbered := by
  induction steps generalizing s with
  | nil => exact hs
  | cons st steps ih => exact ih (hs.step st)

/-- What becomes of a cursor is settled by its own calls. -/
theorem run_apply (hs : s.Numbered) (h : s a = some c) (steps : List Step) :
    s.run steps a = some ((callsAt a steps).foldl Cursor.after c) := by
  induction steps generalizing s c with
  | nil => exact h
  | cons st steps ih =>
    have hrest := ih (hs.step st) (step_apply hs h st)
    by_cases ha : a = st.address
    · rw [if_pos ha] at hrest
      rw [callsAt, List.filter_cons_of_pos (by simpa using ha.symm)]
      exact hrest
    · rw [if_neg ha] at hrest
      rw [callsAt, List.filter_cons_of_neg (by simpa using Ne.symm ha)]
      exact hrest

/-- The cursors that come from an address are at work by themselves. -/
theorem run_under (hs : s.Numbered) (hb : s b = some c) (steps : List Step) :
    (s.run steps).under b = (s.under b).run (steps.filterMap (Step.under? b)) := by
  induction steps generalizing s c with
  | nil => rfl
  | cons st steps ih =>
    -- the address stays taken, by its cursor as the call leaves it
    have hrest := ih (hs.step st) (step_apply hs hb st)
    cases hunder : st.address.dropSuffix? b with
    | none =>
      have hout : ¬ b <:+ st.address := by
        rintro ⟨a, ha⟩
        have hsome := List.dropSuffix?_eq_some_iff.mpr ⟨b, ha.symm, beq_self_eq_true b⟩
        rw [hunder] at hsome
        cases hsome
      rw [step_under_of_not_suffix hs hb hout] at hrest
      rw [List.filterMap_cons_none (by rw [Step.under?, hunder]; rfl)]
      exact hrest
    | some a =>
      obtain ⟨b', ha, hb'⟩ := List.dropSuffix?_eq_some_iff.mp hunder
      obtain rfl := eq_of_beq hb'
      obtain ⟨address, call⟩ := st
      obtain rfl : address = a ++ b' := ha
      rw [step_under] at hrest
      rw [List.filterMap_cons_some (by rw [Step.under?, hunder]; rfl)]
      exact hrest

/-- Every cursor has its own part of the file. -/
theorem within_run (hs : ∀ ⦃a c⦄, s a = some c → c.Within file) (steps : List Step) :
    ∀ ⦃a c⦄, s.run steps a = some c → c.Within file := by
  induction steps generalizing s with
  | nil => exact hs
  | cons st steps ih =>
    refine ih fun a d h => ?_
    obtain ⟨c, -, hc, rfl⟩ | ⟨c, hc, -, hchild⟩ | hd := step_eq_some h
    · exact (hs hc).after st.call
    · obtain ⟨n, hle, -, rfl, -⟩ := Cursor.child?_eq_some hchild
      exact (hs hc).framed hle
    · exact hs hd

theorem within_start (file : Window) : ∀ ⦃a c⦄, start file a = some c → c.Within file
  | [], _, h => by
    cases h
    exact .start file

/-- Framing passes the bytes that are framed. From then on the cursor that framed
    them is moved by its own calls only, and the new one, with all that come from
    it, is at work as if those bytes were all there is. -/
structure Separates (s : Cursors) (a : Address) (c : Cursor) (n : Nat) : Prop where
  frame_eq : c.frame n =
    (.ok (.start (c.left.take n)), { c.advance n with frames := c.frames + 1 })
  pos_eq : (c.frame n).2.pos = c.pos + n
  parent : ∀ more, s.run (⟨a, .frame n⟩ :: more) a =
    some ((callsAt a more).foldl Cursor.after (c.frame n).2)
  child : ∀ more, (s.run (⟨a, .frame n⟩ :: more)).under (c.frames :: a) =
    (start (c.left.take n)).run (more.filterMap (Step.under? (c.frames :: a)))

theorem Numbered.separates (hs : s.Numbered) (h : s a = some c) (hwithin : c.Within file) {n : Nat}
    (hn : n ≤ c.left.bytes.length) : s.Separates a c n := by
  have hframe := Cursor.frame_of_le hn
  have hstep := step_apply hs h ⟨a, .frame n⟩
  have hchild : c.child? (.frame n) = some (.start (c.left.take n)) := by
    rw [Cursor.child?, hframe]
    rfl
  have hunder := under_child hs h hchild
  refine ⟨hframe, ?_, fun more => ?_, fun more => ?_⟩
  · rw [hframe]
    exact hwithin.pos_advance n
  · rw [if_pos rfl] at hstep
    exact run_apply (hs.step _) hstep more
  · have hnew : s.step ⟨a, .frame n⟩ (c.frames :: a) = some (.start (c.left.take n)) :=
      congrFun hunder []
    rw [← hunder]
    exact run_under (hs.step _) hnew more

/-- Whatever was read and framed before, and from whichever cursor, a cursor stands
    in its own part of the file, so that no offset lies beyond the end of the file.
    Its reads and frames are those of that part alone. -/
theorem reads_confined {steps : List Step} (h : (start file).run steps a = some c) :
    c.Within file ∧ c.left.offset + c.left.bytes.length = c.whole.stop ∧
      (∀ k, c.ReadsOwn k) ∧ c.NameFailure ∧
      (∀ n, c.left.bytes.length < n → c.frame n = (.error (.unexpectedEnd c.whole.stop), c)) ∧
      ∀ n ≤ c.left.bytes.length, ((start file).run steps).Separates a c n := by
  have hwithin := within_run (within_start file) steps h
  have hnumbered := (Numbered.start file).run steps
  refine ⟨hwithin, hwithin.stop_left, hwithin.readsOwn, hwithin.nameFailure, fun n hn => ?_,
    fun n hn => hnumbered.separates h hwithin hn⟩
  rw [Cursor.frame_of_lt hn, hwithin.stop_left]

end Cursors

/-- A name that is no text stands in a frame, and a number without an end in a
    frame inside that one. -/
def nestedFile : Window where
  bytes := [0xAA, 0x04, 0x02, 0xC3, 0x28, 0x80, 0x80, 0x01]
  offset := 10

def nestedSteps : List Step :=
  [⟨[], .read .byte⟩, ⟨[], .read .unsigned32⟩, ⟨[], .frame 4⟩, ⟨[0], .read .name⟩,
    ⟨[], .read .byte⟩, ⟨[0], .frame 1⟩]

def nestedCursor : Cursor := .start ⟨[0x80], 15⟩

/-- The number goes on in the file, but not in its frame. -/
theorem nested_reads_confined :
    (Cursors.start nestedFile).run nestedSteps [0, 0] = some nestedCursor ∧
      nestedCursor.Within nestedFile ∧
      (nestedCursor.read .unsigned32).1 = .error (.unexpectedEnd 16) ∧
      (nestedCursor.read .unsigned32).2 = nestedCursor := by
  have hrun : (Cursors.start nestedFile).run nestedSteps [0, 0] = some nestedCursor := rfl
  obtain ⟨hwithin, -, hreads, -⟩ := Cursors.reads_confined hrun
  have hend := ((hreads .unsigned32).ends 16).mpr ⟨by decide, rfl⟩
  exact ⟨hrun, hwithin, hend, (hreads .unsigned32).unmoved nofun _ hend⟩

end Wasm.Format
