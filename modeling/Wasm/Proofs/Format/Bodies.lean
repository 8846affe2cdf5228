import Wasm.Proofs.Format.Spelling
import Wasm.Proofs.Structured.Nesting

/-!
# Bodies

Which rows of instructions are function bodies, and what their constructs are
told about each other. Both are said position by position: the constructs that
are open in front of a position are those begun and not ended before it, and a
mark belongs to the innermost of them. The reader takes exactly the rows that
are nested so, from any of their spellings, and the body it gives has each
construct resolved to its own marks.
-/

namespace Wasm.Format

-- ---------------------------------------------------------------------------
-- Nested rows
-- ---------------------------------------------------------------------------

/-- The mark at `p` is one of the construct that starts at `s`. -/
structure Marks (ts : List Token) (mark : Token) (s p : Nat) : Prop where
  mark : ts[p]? = some mark
  innermost : (opened ts p).head? = some s

/-- The row is a function body. -/
structure WellNested (ts : List Token) : Prop where
  /-- Outside all constructs there is one end mark, at the end. -/
  closed : ∃ last, ts.length = last + 1 ∧ ∀ p, ts[p]? = some .end_ ∧ opened ts p = [] ↔ p = last
  /-- An else mark is the first one of an `if_`. -/
  elses : ∀ p, ts[p]? = some .else_ → ∃ s type, Marks ts .else_ s p ∧
    ts[s]? = some (.if_ type) ∧ ∀ q < p, ¬ Marks ts .else_ s q
  /-- A branch leaves no more than is open and the function. -/
  depths : ∀ p i, ts[p]? = some (.plain i) →
    ∀ depth ∈ i.depths, depth.toNat ≤ (opened ts p).length

/-- The constructs of a body know their marks. -/
structure Resolved (body : Array Instr) : Prop where
  block : ∀ s type stop, body[s]? = some (.block type stop) →
    Marks (body.toList.map Instr.token) .end_ s stop ∧ s < stop ∧ stop + 1 < body.size
  if_ : ∀ s type otherwise stop, body[s]? = some (.if_ type otherwise stop) →
    Marks (body.toList.map Instr.token) .end_ s stop ∧ s < stop ∧ stop + 1 < body.size ∧
      ∀ p, otherwise = some p ↔ Marks (body.toList.map Instr.token) .else_ s p
  arms : ∀ s type p stop, body[s]? = some (Instr.if_ type (some p) stop) →
    s < p ∧ p < stop ∧ body[p]? = some (Instr.else_ stop)
  else_ : ∀ p stop, body[p]? = some (Instr.else_ stop) →
    ∃ (s : Nat) (type : BlockType), body[s]? = some (.if_ type (some p) stop)

theorem Marks.lt {ts : List Token} {mark : Token} {s p : Nat} (h : Marks ts mark s p) : s < p :=
  lt_of_mem_opened (List.mem_of_head? h.innermost)

-- ---------------------------------------------------------------------------
-- Nested rows are code
-- ---------------------------------------------------------------------------

/-- Tokens up to the end mark of a function, inside constructs of which each may
    still have an else mark or not. -/
def Closing : (mayElse : List Bool) → List Token → Prop
  | _, [] => False
  | outer, .plain i :: ts => (∀ depth ∈ i.depths, depth.toNat ≤ outer.length) ∧ Closing outer ts
  | outer, .block _ :: ts | outer, .loop _ :: ts => Closing (false :: outer) ts
  | outer, .if_ _ :: ts => Closing (true :: outer) ts
  | true :: outer, .else_ :: ts => Closing (false :: outer) ts
  | _, .else_ :: _ => False
  | [], .end_ :: ts => ts = []
  | _ :: outer, .end_ :: ts => Closing outer ts

open Reader (Mark)

/-- The tokens start with code and a mark that may end it there. -/
theorem Closing.exists_code {outer : List Bool} {ts : List Token} (h : Closing outer ts) :
    ∃ (c : Code) (mark : Mark) (rest : List Token), ts = c.tokens ++ mark.token :: rest ∧
      c.Scoped outer.length ∧ Closing outer (mark.token :: rest) := by
  -- The rest of a sequence starts behind a body, so the induction is on the length.
  induction hn : ts.length using Nat.strong_induction_on generalizing outer ts with
  | _ n ih =>
    subst hn
    cases ts with
    | nil => exact h.elim
    | cons t ts =>
      have next {outer : List Bool} {us : List Token} (hlt : us.length < (t :: ts).length)
          (h : Closing outer us) := ih _ hlt h rfl
      -- a body that no else mark may end is ended by an end mark
      have inside {us : List Token} (hlt : us.length < (t :: ts).length)
          (h : Closing (false :: outer) us) : ∃ (body : Code) (rest : List Token),
          us = body.tokens ++ Token.end_ :: rest ∧ body.Scoped (outer.length + 1) ∧
            Closing outer rest := by
        obtain ⟨body, mark, rest, heq, hscoped, hclosing⟩ := next hlt h
        cases mark with
        | end_ => exact ⟨body, rest, heq, hscoped, hclosing⟩
        | else_ => exact hclosing.elim
      cases t with
      | end_ => exact ⟨.nil, .end_, ts, rfl, trivial, h⟩
      | else_ => exact ⟨.nil, .else_, ts, rfl, trivial, h⟩
      | plain i =>
        obtain ⟨hdepths, h⟩ := h
        obtain ⟨c, mark, rest, rfl, hscoped, hclosing⟩ := next (by simp) h
        exact ⟨.plain i c, mark, rest, rfl, ⟨hdepths, hscoped⟩, hclosing⟩
      | block type =>
        obtain ⟨body, us, rfl, hscoped, h⟩ := inside (by simp) h
        obtain ⟨c, mark, rest, rfl, hscoped', hclosing⟩ := next (by simp; omega) h
        exact ⟨.block type body c, mark, rest, by simp [Code.tokens], ⟨hscoped, hscoped'⟩, hclosing⟩
      | loop type =>
        obtain ⟨body, us, rfl, hscoped, h⟩ := inside (by simp) h
        obtain ⟨c, mark, rest, rfl, hscoped', hclosing⟩ := next (by simp; omega) h
        exact ⟨.loop type body c, mark, rest, by simp [Code.tokens], ⟨hscoped, hscoped'⟩, hclosing⟩
      | if_ type =>
        have h : Closing (true :: outer) ts := h
        obtain ⟨body, mark, us, rfl, hscoped, h⟩ := next (by simp) h
        cases mark with
        | end_ =>
          have h : Closing outer us := h
          obtain ⟨c, mark, rest, rfl, hscoped', hclosing⟩ := next (by simp; omega) h
          exact ⟨.ifThen type body c, mark, rest, by simp [Code.tokens, Mark.token],
            ⟨hscoped, hscoped'⟩, hclosing⟩
        | else_ =>
          obtain ⟨otherwise, us, rfl, hscoped', h⟩ := inside (by simp; omega) h
          obtain ⟨c, mark, rest, rfl, hscoped'', hclosing⟩ := next (by simp; omega) h
          exact ⟨.ifElse type body otherwise c, mark, rest, by simp [Code.tokens, Mark.token],
            ⟨hscoped, hscoped', hscoped''⟩, hclosing⟩

/-- The flag tells whether the construct that starts at `s` may have an else mark
    from `p` on. -/
def Tells (ts : List Token) (p s : Nat) (flag : Bool) : Prop :=
  flag = true ↔ (∃ type, ts[s]? = some (.if_ type)) ∧ ∀ q < p, ¬ Marks ts .else_ s q

theorem Tells.succ {ts : List Token} {p s : Nat} {flag : Bool} (h : Tells ts p s flag)
    (hp : ¬ Marks ts .else_ s p) : Tells ts (p + 1) s flag := by
  unfold Tells at h ⊢
  rw [h, Nat.forall_lt_succ_right]
  simp only [hp, not_false_eq_true, and_true]

theorem Tells.keep {ts : List Token} {p : Nat} {outer : List Nat} {flags : List Bool}
    (h : List.Forall₂ (Tells ts p) outer flags) (hp : ∀ s ∈ outer, ¬ Marks ts .else_ s p) :
    List.Forall₂ (Tells ts (p + 1)) outer flags := by
  induction h with
  | nil => exact .nil
  | cons hs _ ih =>
    obtain ⟨hfirst, hrest⟩ := List.forall_mem_cons.mp hp
    exact .cons (hs.succ hfirst) (ih hrest)

/-- From each position of a nested row on, with the flags of the constructs open
    there. -/
theorem WellNested.closing {ts : List Token} (h : WellNested ts) {n p : Nat} {flags : List Bool}
    (hn : p + (n + 1) = ts.length) (hflags : List.Forall₂ (Tells ts p) (opened ts p) flags) :
    Closing flags (ts.drop p) := by
  obtain ⟨last, hlength, hlast⟩ := h.closed
  -- Backwards from the last position, as the rest of the row grows.
  induction n generalizing p flags with
  | zero =>
    obtain rfl : p = last := by omega
    obtain ⟨hend, hopen⟩ := (hlast p).mpr rfl
    rw [hopen] at hflags
    cases hflags
    obtain ⟨hlt, hget⟩ := List.getElem?_eq_some_iff.mp hend
    rw [List.drop_eq_getElem_cons hlt, hget]
    exact List.drop_eq_nil_of_le (by omega)
  | succ n ih =>
    have hlt : p < ts.length := by omega
    have ht := List.getElem?_eq_getElem hlt
    rw [List.drop_eq_getElem_cons hlt]
    generalize ts[p] = t at ht
    have next {flags' : List Bool}
        (hflags' : List.Forall₂ (Tells ts (p + 1)) (t.openedBehind p (opened ts p)) flags') :
        Closing flags' (ts.drop (p + 1)) := ih (by omega) (opened_succ ht ▸ hflags')
    -- a construct that starts here may have an else mark if it is an `if_`
    have starts {flag : Bool} (hflag : flag = true ↔ ∃ type, t = .if_ type) :
        Tells ts (p + 1) p flag := by
      have hnone : ∀ q < p + 1, ¬ Marks ts .else_ p q :=
        fun q hq hmarks => absurd hmarks.lt (by omega)
      rw [Tells, hflag, ht, and_iff_left hnone]
      simp only [Option.some.injEq]
    have keep (hne : t ≠ .else_) : List.Forall₂ (Tells ts (p + 1)) (opened ts p) flags :=
      Tells.keep hflags fun s _ hmarks => hne (Option.some.inj (ht.symm.trans hmarks.mark))
    cases t with
    | plain i =>
      refine ⟨fun depth hdepth => ?_, next (keep nofun)⟩
      exact hflags.length_eq ▸ h.depths p i ht depth hdepth
    | block type | loop type =>
      exact next (.cons (starts (by simp)) (keep nofun))
    | if_ type => exact next (.cons (starts (by simp)) (keep nofun))
    | else_ =>
      obtain ⟨s, type, hmarks, hif, hfirst⟩ := h.elses p ht
      obtain ⟨outer, hopen⟩ := List.head?_eq_some_iff.mp hmarks.innermost
      have hsorted := opened_sorted ts p
      rw [hopen, List.pairwise_cons] at hsorted
      rw [Token.openedBehind, hopen] at next
      rw [hopen] at hflags
      cases hflags with
      | @cons _ flag _ flags hs houter =>
        obtain rfl : flag = true := hs.mpr ⟨⟨type, hif⟩, hfirst⟩
        have hused : Tells ts (p + 1) s false :=
          iff_of_false Bool.false_ne_true fun hmay => hmay.2 p (Nat.lt_succ_self p) hmarks
        refine next (.cons hused (Tells.keep houter fun s' hs' hmarks' => ?_))
        cases hmarks.innermost.symm.trans hmarks'.innermost
        exact lt_irrefl _ (hsorted.1 _ hs')
    | end_ =>
      have hopen : opened ts p ≠ [] := fun hnil => by
        have := (hlast p).mp ⟨ht, hnil⟩
        omega
      obtain ⟨s, outer, hopen⟩ := List.exists_cons_of_ne_nil hopen
      have hkeep := keep nofun
      rw [Token.openedBehind, hopen] at next
      rw [hopen] at hkeep
      cases hkeep with
      | cons _ houter => exact next houter

/-- A nested row is code and the end mark of the function. -/
theorem WellNested.exists_code {ts : List Token} (h : WellNested ts) :
    ∃ c : Code, ts = c.tokens ++ [.end_] ∧ c.Scoped 0 := by
  obtain ⟨last, hlength, -⟩ := h.closed
  have hclosing : Closing [] (ts.drop 0) := h.closing (n := last) (by omega) .nil
  obtain ⟨c, mark, rest, hts, hscoped, hmark⟩ := hclosing.exists_code
  cases mark with
  | end_ =>
    obtain rfl : rest = [] := hmark
    exact ⟨c, hts, hscoped⟩
  | else_ => exact hmark.elim

end Wasm.Format

-- ---------------------------------------------------------------------------
-- Code is a nested row
-- ---------------------------------------------------------------------------

namespace Wasm

/-- The two arms of a conditional name each other, among instructions that stand
    at these places. -/
def Instr.Paired (at_ : Nat → Instr → Prop) (pc : Nat) : Instr → Prop
  | if_ _ (some middle) stop => at_ middle (.else_ stop)
  | else_ stop => ∃ s type, at_ s (.if_ type (some pc) stop)
  | _ => True

theorem Code.paired_layout {at_ : Nat → Instr → Prop} {c : Code} {p : Nat}
    (h : ∀ x ∈ (c.layout p).zipIdx p, at_ x.2 x.1) :
    ∀ x ∈ (c.layout p).zipIdx p, x.1.Paired at_ x.2 := by
  induction c generalizing p with
  | nil => exact nofun
  | plain i rest ih =>
    simp only [layout, List.zipIdx_cons, List.forall_mem_cons] at h ⊢
    exact ⟨trivial, ih h.2⟩
  | block _ body rest ihb ihr | loop _ body rest ihb ihr | ifThen _ body rest ihb ihr =>
    simp only [layout, List.cons_append, List.zipIdx_cons, List.zipIdx_append, length_layout,
      List.forall_mem_cons, List.forall_mem_append] at h ⊢
    obtain ⟨_, hbody, _, hrest⟩ := h
    exact ⟨trivial, ihb hbody, trivial, ihr hrest⟩
  | ifElse type body otherwise rest ihb iho ihr =>
    simp only [layout, List.cons_append, List.append_assoc, List.zipIdx_cons, List.zipIdx_append,
      length_layout, List.forall_mem_cons, List.forall_mem_append] at h ⊢
    obtain ⟨hif, hbody, helse, hotherwise, _, hrest⟩ := h
    exact ⟨helse, ihb hbody, ⟨p, type, hif⟩, iho hotherwise, trivial, ihr hrest⟩

/-- The arms of the conditionals of a body name each other. -/
theorem Code.paired_body {c : Code} {pc : Nat} {i : Instr} (hi : c.body[pc]? = some i) :
    i.Paired (fun pc i => c.body[pc]? = some i) pc := by
  have hall : ∀ x ∈ (c.layout 0).zipIdx 0, c.body[x.2]? = some x.1 := by
    intro x hx
    have hget := List.mem_zipIdx_iff_getElem?.mp hx
    simp [body, List.getElem?_append_left (List.getElem?_eq_some_iff.mp hget).1, hget]
  rw [body, List.getElem?_toArray, List.getElem?_append] at hi
  split at hi
  · exact paired_layout hall (i, pc) (List.mem_zipIdx_iff_getElem?.mpr hi)
  · obtain rfl := List.mem_singleton.mp (List.mem_of_getElem? hi)
    trivial

def Function.ofBody (body : Array Instr) : Function := { type := 0, locals := #[], body }

/-- A module of one function. -/
def Module.ofBody (body : Array Instr) : Module where
  functions := #[.ofBody body]

open Format

theorem Module.enclosing_ofBody (body : Array Instr) (pc : Nat) :
    (ofBody body).enclosing 0 pc = opened (body.toList.map Instr.token) pc := rfl

namespace Code

variable {c : Code} {s p stop : Nat} {type : BlockType}

theorem nested_body (c : Code) : (Module.ofBody c.body).Nested 0 c.size :=
  Module.nested_of_body rfl rfl

theorem getElem?_tokens {t : Token} :
    (c.body.toList.map Instr.token)[p]? = some t ↔ ∃ i, c.body[p]? = some i ∧ i.token = t := by
  rw [List.getElem?_map, Array.getElem?_toList, Option.map_eq_some_iff]

theorem marks_of_closes (h : (Module.ofBody c.body).Closes 0 s stop) :
    Marks (c.body.toList.map Instr.token) .end_ s stop := by
  refine ⟨getElem?_tokens.mpr ⟨_, h.mark, rfl⟩, ?_⟩
  rw [← Module.enclosing_ofBody, h.innermost]
  rfl

/-- Where a conditional has two arms, the mark between them is its own. -/
theorem arms_body (h : c.body[s]? = some (.if_ type (some p) stop)) :
    c.body[p]? = some (.else_ stop) ∧ p < stop ∧
      Marks (c.body.toList.map Instr.token) .else_ s p := by
  have helse : c.body[p]? = some (.else_ stop) := paired_body h
  rcases c.nested_body.placed_or_last h with ⟨_, _, hmiddle⟩ | ⟨_, hend⟩
  · have hinstr : (Module.ofBody c.body).instr? 0 p = some (.else_ stop) := helse
    obtain ⟨hlt, hopen⟩ := hmiddle p rfl
    rw [Module.enclosing_succ hinstr, Module.enclosing_ofBody] at hopen
    refine ⟨helse, hlt, getElem?_tokens.mpr ⟨_, helse, rfl⟩, ?_⟩
    rw [show opened _ p = _ from hopen]
    rfl
  · cases hend

theorem marks_else_iff : Marks (c.body.toList.map Instr.token) .else_ s p ↔
    ∃ type stop, c.body[s]? = some (.if_ type (some p) stop) := by
  constructor
  · intro h
    obtain ⟨i, hi, htoken⟩ := getElem?_tokens.mp h.mark
    cases i with
    | else_ stop =>
      obtain ⟨s', type, hif⟩ := paired_body hi
      obtain ⟨-, -, hmarks⟩ := arms_body hif
      cases hmarks.innermost.symm.trans h.innermost
      exact ⟨type, stop, hif⟩
    | plain | block | loop | if_ | end_ => cases htoken
  · rintro ⟨type, stop, hif⟩
    exact (arms_body hif).2.2

/-- The positions in a body are those of the marks. -/
theorem resolved_body (c : Code) : Resolved c.body := by
  have hclosed {s stop : Nat} (h : (Module.ofBody c.body).Closes 0 s stop) :
      Marks (c.body.toList.map Instr.token) .end_ s stop ∧ s < stop ∧ stop + 1 < c.body.size := by
    have hlt := c.nested_body.closes_lt h
    exact ⟨marks_of_closes h, (marks_of_closes h).lt, by rw [size_body]; omega⟩
  refine ⟨?_, ?_, ?_, ?_⟩
  · intro s type stop h
    rcases c.nested_body.placed_or_last h with ⟨_, hcloses⟩ | ⟨_, hend⟩
    · exact hclosed hcloses
    · cases hend
  · intro s type otherwise stop h
    rcases c.nested_body.placed_or_last h with ⟨_, hcloses, _⟩ | ⟨_, hend⟩
    · obtain ⟨hmarks, hlt, hsize⟩ := hclosed hcloses
      refine ⟨hmarks, hlt, hsize, fun p => ⟨?_, fun helse => ?_⟩⟩
      · rintro rfl
        exact marks_else_iff.mpr ⟨type, stop, h⟩
      · obtain ⟨type', stop', h'⟩ := marks_else_iff.mp helse
        cases h.symm.trans h'
        rfl
    · cases hend
  · intro s type p stop h
    obtain ⟨helse, hlt, hmarks⟩ := arms_body h
    exact ⟨hmarks.lt, hlt, helse⟩
  · exact fun p stop h => paired_body h

theorem wellNested_body (h : c.Scoped 0) : WellNested (c.body.toList.map Instr.token) := by
  refine ⟨⟨c.size, ?_, fun p => ⟨?_, ?_⟩⟩, fun p hp => ?_, fun p i hp => ?_⟩
  · rw [List.length_map, Array.length_toList, size_body]
  · rintro ⟨hp, hopen⟩
    obtain ⟨i, hi, htoken⟩ := getElem?_tokens.mp hp
    cases i with
    | end_ =>
      rcases c.nested_body.placed_or_last hi with ⟨_, s, hcloses⟩ | ⟨hlast, _⟩
      · have hinside := hcloses.innermost
        rw [Module.enclosing_ofBody, hopen] at hinside
        cases hinside
      · exact hlast
    | plain | block | loop | if_ | else_ => cases htoken
  · rintro rfl
    have hopen := c.nested_body.enclosing_last
    rw [Module.enclosing_ofBody] at hopen
    exact ⟨getElem?_tokens.mpr ⟨_, c.nested_body.mark, rfl⟩, hopen⟩
  · obtain ⟨i, hi, htoken⟩ := getElem?_tokens.mp hp
    cases i with
    | else_ stop =>
      obtain ⟨s, type, hif⟩ := paired_body hi
      refine ⟨s, type, (arms_body hif).2.2, getElem?_tokens.mpr ⟨_, hif, rfl⟩, ?_⟩
      intro q hq hmarks
      obtain ⟨type', stop', hif'⟩ := marks_else_iff.mp hmarks
      cases hif.symm.trans hif'
      exact absurd hq (lt_irrefl _)
    | plain | block | loop | if_ | end_ => cases htoken
  · obtain ⟨j, hj, htoken⟩ := getElem?_tokens.mp hp
    cases j with
    | plain j =>
      cases htoken
      have hf : (Module.ofBody c.body).functions[0]? = some (.ofBody c.body) := rfl
      rw [← Module.enclosing_ofBody, Module.length_enclosing hf]
      have hbody : (Function.ofBody c.body).body = c.body := rfl
      exact h.openAt hbody (hbody ▸ hj)
    | block | loop | if_ | else_ | end_ => cases htoken

end Code

namespace Format.Reader

theorem functionCode_eq_ok_iff {w w' : Window} {c : Code} :
    functionCode w = .ok c w' ↔ Row w (c.tokens ++ [.end_]) w' ∧ c.Scoped 0 := by
  constructor
  · intro h
    obtain ⟨bound, v, hbound, h⟩ := bind_eq_ok_iff.mp h
    cases hbound
    obtain ⟨⟨c, mark⟩, v, hcode, h⟩ := bind_eq_ok_iff.mp h
    cases h
    obtain ⟨hrow, hscoped, hmark⟩ := row_of_code hcode
    cases mark with
    | end_ => exact ⟨hrow, hscoped⟩
    | else_ => cases hmark rfl
  · rintro ⟨hrow, hscoped⟩
    exact functionCode_of_row hrow hscoped

/-- The code of a function is read from the spellings of nested rows and from
    nothing else, whatever follows them, and its body is the row with every
    construct resolved. -/
theorem functionCode_exact (w w' : Window) (ts : List Token) :
    ((∃ c, functionCode w = .ok c w' ∧ c.body.toList.map Instr.token = ts) ↔
      WellNested ts ∧ ∃ front, Spelling ts front ∧ w.bytes = front ++ w'.bytes ∧
        w'.offset = w.offset + front.length) ∧
    ∀ c, functionCode w = .ok c w' → Resolved c.body := by
  refine ⟨⟨?_, ?_⟩, fun c _ => c.resolved_body⟩
  · rintro ⟨c, hread, rfl⟩
    obtain ⟨hrow, hscoped⟩ := functionCode_eq_ok_iff.mp hread
    rw [← Code.map_token_body] at hrow
    exact ⟨Code.wellNested_body hscoped, row_iff.mp hrow⟩
  · rintro ⟨hnested, hspelling⟩
    obtain ⟨c, rfl, hscoped⟩ := hnested.exists_code
    exact ⟨c, functionCode_eq_ok_iff.mpr ⟨row_iff.mpr hspelling, hscoped⟩, c.map_token_body⟩

end Format.Reader

end Wasm
