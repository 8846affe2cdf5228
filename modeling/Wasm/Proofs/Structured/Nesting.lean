import Mathlib.Logic.ExistsUnique
import Wasm.Proofs.Structured.Refinement

/-!
# Nesting

Blocks, loops and conditionals of a flat body are nested in each other. Which of
them are open at a position is told by going through the tokens in front of it,
and the mark that closes one is the `end_` in front of which it is the
innermost. In the layout of a tree every construct is closed, where its first
instruction says, and every branch of a conditional ends there.
-/

namespace Wasm

namespace Format

/-- The constructs open behind a token at position `p`, innermost first, with
    these open in front of it. A construct goes by the position of its first
    token. -/
def Token.openedBehind (p : Nat) (outer : List Nat) : Token → List Nat
  | block _ | loop _ | if_ _ => p :: outer
  | end_ => outer.tail
  | plain _ | else_ => outer

/-- The constructs open in front of a position of a row of tokens, innermost
    first. -/
def opened (ts : List Token) : (pos : Nat) → List Nat
  | 0 => []
  | p + 1 =>
    match ts[p]? with
    | some t => t.openedBehind p (opened ts p)
    | none => opened ts p

variable {ts : List Token} {p pos : Nat}

theorem opened_succ {t : Token} (h : ts[p]? = some t) :
    opened ts (p + 1) = t.openedBehind p (opened ts p) := by
  rw [opened, h]

theorem mem_opened_succ (h : p ∈ opened ts (pos + 1)) : p = pos ∨ p ∈ opened ts pos := by
  rw [opened] at h
  split at h
  · rename_i t _
    cases t with
    | block | loop | if_ => exact List.mem_cons.mp h
    | end_ => exact .inr (List.mem_of_mem_tail h)
    | plain | else_ => exact .inr h
  · exact .inr h

/-- The first token of an open construct opens it. -/
theorem opens_of_mem_opened (h : p ∈ opened ts pos) :
    ∃ t, ts[p]? = some t ∧ t.openedBehind p [] = [p] := by
  induction pos with
  | zero => cases h
  | succ pos ih =>
    rw [opened] at h
    split at h
    · rename_i t ht
      cases t with
      | block | loop | if_ =>
        rcases List.mem_cons.mp h with rfl | h
        · exact ⟨_, ht, rfl⟩
        · exact ih h
      | end_ => exact ih (List.mem_of_mem_tail h)
      | plain | else_ => exact ih h
    · exact ih h

/-- What is around an open construct was open when it started. -/
theorem opened_of_suffix {outer : List Nat} (h : p :: outer <:+ opened ts pos) :
    opened ts p = outer ∧ p < pos := by
  induction pos with
  | zero => cases List.suffix_nil.mp h
  | succ pos ih =>
    have hearlier (h : p :: outer <:+ opened ts pos) : opened ts p = outer ∧ p < pos + 1 :=
      ⟨(ih h).1, Nat.lt_succ_of_lt (ih h).2⟩
    rw [opened] at h
    split at h
    · rename_i t _
      cases t with
      | block | loop | if_ =>
        rcases List.suffix_cons_iff.mp h with heq | h
        · cases heq
          exact ⟨rfl, Nat.lt_succ_self _⟩
        · exact hearlier h
      | end_ => exact hearlier (h.trans (List.tail_suffix _))
      | plain | else_ => exact hearlier h
    · exact hearlier h

theorem lt_of_mem_opened (h : p ∈ opened ts pos) : p < pos := by
  obtain ⟨inner, outer, heq⟩ := List.append_of_mem h
  exact (opened_of_suffix ⟨inner, heq.symm⟩).2

theorem opened_sorted (ts : List Token) (pos : Nat) : (opened ts pos).Pairwise (· > ·) := by
  induction pos with
  | zero => exact .nil
  | succ pos ih =>
    rw [opened]
    split
    · rename_i t _
      cases t with
      | block | loop | if_ => exact ih.cons fun _ hmem => lt_of_mem_opened hmem
      | end_ => exact ih.tail
      | plain | else_ => exact ih
    · exact ih

/-- The constructs around the one that is that many further out. -/
theorem opened_of_getElem? {depth : Nat} (h : (opened ts pos)[depth]? = some p) :
    opened ts p = (opened ts pos).drop (depth + 1) := by
  obtain ⟨hlt, rfl⟩ := List.getElem?_eq_some_iff.mp h
  have hsuffix := List.drop_suffix depth (opened ts pos)
  rw [List.drop_eq_getElem_cons hlt] at hsuffix
  exact (opened_of_suffix hsuffix).1

/-- A construct that is closed is not opened again. -/
theorem not_mem_opened {r : Nat} (hclosed : p ∉ opened ts r) (hlt : p < r) (hle : r ≤ pos) :
    p ∉ opened ts pos := by
  induction hle with
  | refl => exact hclosed
  | step hle ih =>
    intro hmem
    rcases mem_opened_succ hmem with rfl | hmem
    · exact absurd hlt (Nat.not_lt.mpr hle)
    · exact ih hmem

end Format

theorem Instr.length_openedBehind (p : Nat) (outer : List Nat) (i : Instr) :
    (i.token.openedBehind p outer).length = i.openBehind outer.length := by
  cases i with
  | end_ => exact List.length_tail
  | block | loop | if_ | plain | else_ => rfl

namespace Module

open Format

/-- The tokens of a body. -/
def tokens (m : Module) (code : Nat) : List Token :=
  (m.functions[code]?.elim [] (·.body.toList)).map Instr.token

/-- The constructs open in front of a position of a body, innermost first. -/
def enclosing (m : Module) (code pc : Nat) : List Nat := opened (m.tokens code) pc

/-- The construct that starts at `p` is closed at `q`. -/
structure Closes (m : Module) (code p q : Nat) : Prop where
  mark : m.instr? code q = some .end_
  innermost : m.enclosing code q = p :: m.enclosing code p

variable {m : Module} {code p q pc : Nat}

theorem getElem?_tokens (m : Module) (code pc : Nat) :
    (m.tokens code)[pc]? = (m.instr? code pc).map Instr.token := by
  rw [tokens, List.getElem?_map, instr?]
  cases m.functions[code]? with
  | none => rfl
  | some f => exact congrArg (Option.map Instr.token) Array.getElem?_toList

theorem enclosing_succ {i : Instr} (h : m.instr? code pc = some i) :
    m.enclosing code (pc + 1) = i.token.openedBehind pc (m.enclosing code pc) :=
  opened_succ (by rw [getElem?_tokens, h]; rfl)

namespace Closes

theorem enclosing_succ (h : m.Closes code p q) :
    m.enclosing code (q + 1) = m.enclosing code p := by
  rw [Module.enclosing_succ h.mark, h.innermost]
  rfl

theorem mem (h : m.Closes code p q) : p ∈ m.enclosing code q := by
  rw [h.innermost]
  exact List.mem_cons_self

/-- A construct is open behind its first instruction up to the mark that closes
    it. -/
theorem mem_enclosing_iff (h : m.Closes code p q) :
    p ∈ m.enclosing code pc ↔ p < pc ∧ pc ≤ q := by
  have hself : p ∉ m.enclosing code (q + 1) := by
    rw [h.enclosing_succ]
    exact fun hmem => Nat.lt_irrefl p (lt_of_mem_opened hmem)
  constructor
  · intro hmem
    refine ⟨lt_of_mem_opened hmem, Nat.le_of_not_lt fun hlt => ?_⟩
    have hopen := lt_of_mem_opened h.mem
    exact not_mem_opened hself (Nat.lt_succ_of_lt hopen) hlt hmem
  · rintro ⟨hlt, hle⟩
    refine Decidable.byContradiction fun hclosed => ?_
    exact not_mem_opened hclosed hlt hle h.mem

/-- There is one mark that closes it. -/
theorem unique {q' : Nat} (h : m.Closes code p q) (h' : m.Closes code p q') : q = q' :=
  Nat.le_antisymm (h'.mem_enclosing_iff.mp h.mem).2 (h.mem_enclosing_iff.mp h'.mem).2

end Closes

theorem length_enclosing {f : Function} (hf : m.functions[code]? = some f) (pc : Nat) :
    (m.enclosing code pc).length = f.openAt pc := by
  have hinstr : ∀ pc, m.instr? code pc = f.body[pc]? := by
    intro pc
    simp [instr?, hf]
  induction pc with
  | zero => simp [enclosing, opened, Function.openAt]
  | succ pc ih =>
    rw [Function.openAt, List.take_add_one, List.foldl_append, ← Function.openAt, ← ih,
      enclosing, opened, getElem?_tokens, hinstr, Array.getElem?_toList]
    cases f.body[pc]? with
    | none => rfl
    | some i => exact i.length_openedBehind pc _

end Module

-- ---------------------------------------------------------------------------
-- Layouts
-- ---------------------------------------------------------------------------

/-- What the instruction says of the construct that it belongs to is so: where
    that ends, and where its other branch starts. -/
def Instr.Placed (m : Module) (code pc : Nat) : Instr → Prop
  | plain _ => True
  | block _ stop => m.Closes code pc stop
  | loop _ => ∃ stop, m.Closes code pc stop
  | if_ _ otherwise stop => m.Closes code pc stop ∧
    ∀ middle, otherwise = some middle →
      middle < stop ∧ m.enclosing code (middle + 1) = pc :: m.enclosing code pc
  | else_ stop => ∃ p, m.Closes code p stop ∧ m.enclosing code pc = p :: m.enclosing code p
  | end_ => ∃ p, m.Closes code p pc

namespace Module

/-- Between two positions all that is opened is closed, and the instructions are
    placed. -/
structure NestedIn (m : Module) (code p q : Nat) : Prop where
  enclosing : m.enclosing code q = m.enclosing code p
  placed : ∀ pc i, p ≤ pc → pc < q → m.instr? code pc = some i → i.Placed m code pc

variable {m : Module} {code p q r : Nat}

theorem NestedIn.refl (m : Module) (code p : Nat) : m.NestedIn code p p :=
  ⟨rfl, fun _ _ hle hlt _ => absurd hlt (Nat.not_lt.mpr hle)⟩

theorem NestedIn.trans (h₁ : m.NestedIn code p q) (h₂ : m.NestedIn code q r) :
    m.NestedIn code p r := by
  refine ⟨h₂.enclosing.trans h₁.enclosing, fun pc i hle hlt hi => ?_⟩
  rcases Nat.lt_or_ge pc q with hfront | hback
  · exact h₁.placed pc i hle hfront hi
  · exact h₂.placed pc i hback hlt hi

/-- An instruction that opens and closes nothing. -/
theorem NestedIn.single {i : Instr} (hi : m.instr? code p = some i)
    (hopen : ∀ outer, i.token.openedBehind p outer = outer) (hplaced : i.Placed m code p) :
    m.NestedIn code p (p + 1) := by
  refine ⟨?_, fun pc j hle hlt hj => ?_⟩
  · rw [enclosing_succ hi, hopen]
  · obtain rfl : pc = p := by omega
    cases hi.symm.trans hj
    exact hplaced

/-- A construct whose inside closes what it opens. -/
theorem NestedIn.closes (h : m.NestedIn code (p + 1) q) {i : Instr}
    (hi : m.instr? code p = some i)
    (hopen : ∀ outer, i.token.openedBehind p outer = p :: outer)
    (hmark : m.instr? code q = some .end_) : m.Closes code p q := by
  refine ⟨hmark, ?_⟩
  rw [h.enclosing, enclosing_succ hi, hopen]

theorem Closes.nestedIn (h : m.Closes code p q) {i : Instr} (hi : m.instr? code p = some i)
    (hplaced : i.Placed m code p) (hinside : m.NestedIn code (p + 1) q) :
    m.NestedIn code p (q + 1) := by
  refine ⟨h.enclosing_succ, fun pc j hle hlt hj => ?_⟩
  rcases Nat.lt_or_ge p pc with hlater | hfirst
  · rcases Nat.lt_or_ge pc q with hfront | hlast
    · exact hinside.placed pc j hlater hfront hj
    · obtain rfl : pc = q := by omega
      cases h.mark.symm.trans hj
      exact ⟨p, h⟩
  · obtain rfl : pc = p := by omega
    cases hi.symm.trans hj
    exact hplaced

/-- Code closes what it opens and its instructions are placed, wherever it
    stands. -/
theorem Holds.nestedIn {c : Code} (h : m.Holds code p (c.layout p)) :
    m.NestedIn code p (p + c.size) := by
  induction c generalizing p with
  | nil => exact .refl m code p
  | plain i rest ih =>
    obtain ⟨hi, hrest⟩ := Holds.cons_iff.mp h
    have hsize : p + (Code.plain i rest).size = p + 1 + rest.size := by
      simp only [Code.size]
      omega
    rw [hsize]
    exact (NestedIn.single hi (fun _ => rfl) trivial).trans (ih hrest)
  | block type body rest ihb ihr =>
    obtain ⟨hi, hbody, hmark, hrest⟩ := Holds.enclosed_iff.mp h
    rw [Code.length_layout] at hmark hrest
    have hsize : p + (Code.block type body rest).size = p + 1 + body.size + 1 + rest.size := by
      simp only [Code.size]
      omega
    have hcloses := (ihb hbody).closes hi (fun _ => rfl) hmark
    rw [hsize]
    exact (hcloses.nestedIn hi hcloses (ihb hbody)).trans (ihr hrest)
  | loop type body rest ihb ihr =>
    obtain ⟨hi, hbody, hmark, hrest⟩ := Holds.enclosed_iff.mp h
    rw [Code.length_layout] at hmark hrest
    have hsize : p + (Code.loop type body rest).size = p + 1 + body.size + 1 + rest.size := by
      simp only [Code.size]
      omega
    have hcloses := (ihb hbody).closes hi (fun _ => rfl) hmark
    rw [hsize]
    exact (hcloses.nestedIn hi ⟨_, hcloses⟩ (ihb hbody)).trans (ihr hrest)
  | ifThen type body rest ihb ihr =>
    obtain ⟨hi, hbody, hmark, hrest⟩ := Holds.enclosed_iff.mp h
    rw [Code.length_layout] at hmark hrest
    have hsize : p + (Code.ifThen type body rest).size = p + 1 + body.size + 1 + rest.size := by
      simp only [Code.size]
      omega
    have hcloses := (ihb hbody).closes hi (fun _ => rfl) hmark
    have hif : (Instr.if_ type none (p + 1 + body.size)).Placed m code p := by
      refine ⟨hcloses, fun middle hsome => ?_⟩
      cases hsome
    rw [hsize]
    exact (hcloses.nestedIn hi hif (ihb hbody)).trans (ihr hrest)
  | ifElse type body otherwise rest ihb iho ihr =>
    rw [Code.layout, List.append_assoc] at h
    obtain ⟨hi, hbody, hmiddle, hafter⟩ := Holds.enclosed_iff.mp h
    obtain ⟨hother, hstop⟩ := Holds.append_iff.mp hafter
    obtain ⟨hmark, hrest⟩ := Holds.cons_iff.mp hstop
    simp only [Code.length_layout] at hmiddle hother hmark hrest
    have hsize : p + (Code.ifElse type body otherwise rest).size =
        p + 1 + body.size + 1 + otherwise.size + 1 + rest.size := by
      simp only [Code.size]
      omega
    -- the mark between the branches belongs to the construct around both
    have hfront := ihb hbody
    have hback := iho hother
    have hopen : m.enclosing code (p + 1) = p :: m.enclosing code p := enclosing_succ hi
    have hcloses : m.Closes code p (p + 1 + body.size + 1 + otherwise.size) := by
      refine ⟨hmark, ?_⟩
      rw [hback.enclosing, enclosing_succ hmiddle]
      exact hfront.enclosing.trans hopen
    have helse : m.NestedIn code (p + 1 + body.size) (p + 1 + body.size + 1) :=
      .single hmiddle (fun _ => rfl) ⟨p, hcloses, hfront.enclosing.trans hopen⟩
    have hif : (Instr.if_ type (some (p + 1 + body.size))
        (p + 1 + body.size + 1 + otherwise.size)).Placed m code p := by
      refine ⟨hcloses, fun middle hsome => ?_⟩
      cases hsome
      exact ⟨by omega, helse.enclosing.trans (hfront.enclosing.trans hopen)⟩
    rw [hsize]
    exact (hcloses.nestedIn hi hif ((hfront.trans helse).trans hback)).trans (ihr hrest)

/-- The body of a function: all constructs are closed in front of the `end_` that
    it ends with. -/
structure Nested (m : Module) (code last : Nat) : Prop where
  inside : m.NestedIn code 0 last
  mark : m.instr? code last = some .end_
  valid : ∀ pc, (m.instr? code pc).isSome ↔ pc ≤ last

theorem nested_of_body {f : Function} {c : Code} (hf : m.functions[code]? = some f)
    (hbody : f.body = c.body) : m.Nested code c.size := by
  have hinstr : ∀ pc, m.instr? code pc = (c.layout 0 ++ [Instr.end_])[pc]? := by
    intro pc
    simp [instr?, hf, hbody, Code.body]
  have hholds : m.Holds code 0 (c.layout 0) := by
    intro k i hi
    rw [Nat.zero_add, hinstr, List.getElem?_append_left (List.getElem?_eq_some_iff.mp hi).1]
    exact hi
  refine ⟨?_, ?_, fun pc => ?_⟩
  · have hnested := hholds.nestedIn
    rwa [Nat.zero_add] at hnested
  · rw [hinstr, List.getElem?_append_right (by simp)]
    simp
  · have hlength : (c.layout 0 ++ [Instr.end_]).length = c.size + 1 := by
      rw [List.length_append, Code.length_layout, List.length_singleton]
    rw [hinstr, Option.isSome_iff_ne_none, Ne, List.getElem?_eq_none_iff, hlength]
    omega

namespace Nested

variable {last pc : Nat}

theorem enclosing_last (h : m.Nested code last) : m.enclosing code last = [] := h.inside.enclosing

/-- An instruction is placed, unless it is the last `end_`. -/
theorem placed_or_last (h : m.Nested code last) {i : Instr} (hi : m.instr? code pc = some i) :
    (pc < last ∧ i.Placed m code pc) ∨ (pc = last ∧ i = .end_) := by
  have hle : pc ≤ last := (h.valid pc).mp (by rw [hi]; rfl)
  rcases Nat.lt_or_eq_of_le hle with hlt | rfl
  · exact .inl ⟨hlt, h.inside.placed pc i (Nat.zero_le _) hlt hi⟩
  · exact .inr ⟨rfl, Option.some.inj (hi.symm.trans h.mark)⟩

/-- A mark that closes a construct is not the last one. -/
theorem closes_lt (h : m.Nested code last) (hcloses : m.Closes code p q) : q < last := by
  have hle : q ≤ last := (h.valid q).mp (by rw [hcloses.mark]; rfl)
  refine Nat.lt_of_le_of_ne hle ?_
  rintro rfl
  have hopen := hcloses.innermost
  rw [h.enclosing_last] at hopen
  cases hopen

/-- What is open somewhere is closed. -/
theorem exists_closes (h : m.Nested code last) (hmem : p ∈ m.enclosing code pc) :
    ∃ q, m.Closes code p q := by
  obtain ⟨t, ht, hopens⟩ := Format.opens_of_mem_opened hmem
  rw [getElem?_tokens] at ht
  obtain ⟨i, hi, rfl⟩ := Option.map_eq_some_iff.mp ht
  rcases h.placed_or_last hi with ⟨_, hplaced⟩ | ⟨_, rfl⟩
  · cases i with
    | block type stop => exact ⟨stop, hplaced⟩
    | loop type => exact hplaced
    | if_ type otherwise stop => exact ⟨stop, hplaced.1⟩
    | plain | else_ | end_ => cases hopens
  · cases hopens

/-- The constructs open at a position are those around it. -/
theorem mem_enclosing_iff (h : m.Nested code last) :
    p ∈ m.enclosing code pc ↔ ∃! q, m.Closes code p q ∧ p < pc ∧ pc ≤ q := by
  constructor
  · intro hmem
    obtain ⟨q, hcloses⟩ := h.exists_closes hmem
    refine ⟨q, ⟨hcloses, hcloses.mem_enclosing_iff.mp hmem⟩, ?_⟩
    rintro q' ⟨hcloses', _⟩
    exact hcloses'.unique hcloses
  · rintro ⟨q, ⟨hcloses, hextent⟩, _⟩
    exact hcloses.mem_enclosing_iff.mpr hextent

end Nested

end Module

end Wasm
