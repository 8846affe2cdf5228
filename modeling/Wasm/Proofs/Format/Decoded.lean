import Wasm.Proofs.Encoding.Leb128
import Wasm.Proofs.Format.Readers
import Wasm.Proofs.Syntax.References

/-!
# Decoded modules

What every module that can be read has, valid or not: its vectors are counted
by 32-bit numbers, and each body is the layout of structured code that is
shorter than the bytes it was read from and whose branches stay inside it.
-/

namespace Wasm

/-- The token that an instruction is written as, which holds no positions. -/
def Instr.token : Instr → Format.Token
  | plain i => .plain i
  | block type _ => .block type
  | loop type => .loop type
  | if_ type _ _ => .if_ type
  | else_ _ => .else_
  | end_ => .end_

namespace Code

/-- The tokens that code is written as. -/
def tokens : Code → List Format.Token
  | nil => []
  | plain i rest => .plain i :: rest.tokens
  | block type body rest => .block type :: (body.tokens ++ .end_ :: rest.tokens)
  | loop type body rest => .loop type :: (body.tokens ++ .end_ :: rest.tokens)
  | ifThen type body rest => .if_ type :: (body.tokens ++ .end_ :: rest.tokens)
  | ifElse type body otherwise rest =>
    .if_ type :: (body.tokens ++ .else_ :: (otherwise.tokens ++ .end_ :: rest.tokens))

theorem length_tokens (c : Code) : c.tokens.length = c.size := by
  induction c with
  | nil => rfl
  | plain i rest ih => simp [tokens, size, ih]
  | block _ body rest ihb ihr => simp [tokens, size, ihb, ihr]; omega
  | loop _ body rest ihb ihr => simp [tokens, size, ihb, ihr]; omega
  | ifThen _ body rest ihb ihr => simp [tokens, size, ihb, ihr]; omega
  | ifElse _ body otherwise rest ihb iho ihr => simp [tokens, size, ihb, iho, ihr]; omega

theorem size_body (c : Code) : c.body.size = c.size + 1 := by
  simp [body]

/-- The tokens of code do not depend on where it is laid out. -/
theorem map_token_layout (c : Code) (at_ : Nat) : (c.layout at_).map Instr.token = c.tokens := by
  induction c generalizing at_ with
  | nil => rfl
  | plain i rest ih => simp [layout, tokens, Instr.token, ih]
  | block _ body rest ihb ihr => simp [layout, tokens, Instr.token, ihb, ihr]
  | loop _ body rest ihb ihr => simp [layout, tokens, Instr.token, ihb, ihr]
  | ifThen _ body rest ihb ihr => simp [layout, tokens, Instr.token, ihb, ihr]
  | ifElse _ body otherwise rest ihb iho ihr => simp [layout, tokens, Instr.token, ihb, iho, ihr]

theorem map_token_body (c : Code) :
    c.body.toList.map Instr.token = c.tokens ++ [Format.Token.end_] := by
  simp [body, map_token_layout, Instr.token]

end Code

namespace Format

namespace Reader

variable {α β : Type}

theorem bind_eq_ok_iff {r : Reader α} {f : α → Reader β} {w w' : Window} {b : β} :
    (r >>= f) w = .ok b w' ↔ ∃ a v, r w = .ok a v ∧ f a v = .ok b w' := by
  simp only [bind, EStateM.bind]
  cases r w with
  | ok a v =>
    constructor
    · exact fun h => ⟨a, v, rfl, h⟩
    · rintro ⟨a', v', h, h'⟩
      cases h
      exact h'
  | error e v => simp

-- ---------------------------------------------------------------------------
-- Bytes taken
-- ---------------------------------------------------------------------------

theorem frame_eq_ok {n : Nat} {w inner w' : Window} (h : frame n w = .ok inner w') :
    inner = ⟨inner.bytes, w.offset⟩ ∧ inner.bytes.length = n ∧
      w.bytes = inner.bytes ++ w'.bytes := by
  obtain ⟨v, v', hv, h⟩ := bind_eq_ok_iff.mp h
  cases hv
  split at h
  · cases h
  · rename_i hlength
    cases h
    refine ⟨rfl, ?_, (List.take_append_drop n w.bytes).symm⟩
    simp only [Window.take, List.length_take] at hlength ⊢
    omega

theorem groups_eq_ok {bits : Nat} {fits : UInt8 → Bool} {w w' : Window} {bs : List UInt8}
    (h : groups bits fits w = .ok bs w') :
    Leb128.split bits fits w.bytes = .ok bs ∧ w.bytes = bs ++ w'.bytes := by
  obtain ⟨v, v', hv, h⟩ := bind_eq_ok_iff.mp h
  cases hv
  cases hsplit : Leb128.split bits fits w.bytes with
  | ok groups =>
    rw [hsplit] at h
    cases h
    obtain ⟨hencoding, -⟩ := Leb128.of_split_eq_ok hsplit
    obtain ⟨-, ⟨rest, hrest⟩, -⟩ := Leb128.spells_of_encoding? hencoding
    refine ⟨rfl, ?_⟩
    rw [Window.drop, ← hrest, List.drop_left]
  | error d =>
    rw [hsplit] at h
    cases d <;> cases h

theorem within_eq_ok {inner w w' rest : Window} {r : Reader α} {a : α}
    (h : within inner r w = .ok (a, rest) w') : r inner = .ok a rest ∧ w' = w := by
  unfold within at h
  cases hr : r.run inner with
  | ok b rest' =>
    rw [hr] at h
    cases h
    exact ⟨hr, rfl⟩
  | error e rest' =>
    rw [hr] at h
    cases h

/-- What is read is no larger than the bytes taken for it and a credit from
    before. -/
def Pays (credit : Nat) (r : Reader α) (size : α → Nat) : Prop :=
  ∀ ⦃w a w'⦄, r w = .ok a w' → w'.bytes.length + size a ≤ w.bytes.length + credit

/-- A successful read takes at least so many bytes off the window. -/
def Takes (n : Nat) (r : Reader α) : Prop :=
  ∀ ⦃w a w'⦄, r w = .ok a w' → w'.bytes.length + n ≤ w.bytes.length

theorem Takes.pays {n : Nat} {r : Reader α} (h : Takes n r) : Pays 0 r fun _ => n := h

theorem Pays.takes {n : Nat} {r : Reader α} {size : α → Nat} (h : Pays 0 r size)
    (hsize : ∀ a, n ≤ size a) : Takes n r :=
  fun _ a _ ha => Nat.le_trans (Nat.add_le_add_left (hsize a) _) (h ha)

theorem Pays.bind {credit : Nat} {mid : α → Nat} {size : β → Nat} {r : Reader α}
    {f : α → Reader β} (hr : Pays credit r mid) (hf : ∀ a, Pays (mid a) (f a) size) :
    Pays credit (r >>= f) size := by
  intro w b w' h
  obtain ⟨a, v, ha, hb⟩ := bind_eq_ok_iff.mp h
  exact Nat.le_trans (hf a hb) (hr ha)

theorem Pays.pure {credit : Nat} {size : α → Nat} {a : α} (h : size a ≤ credit) :
    Pays credit (pure a : Reader α) size := by
  intro w b w' hb
  cases hb
  exact Nat.add_le_add_left h _

/-- A read that ends by computing its result. -/
theorem Takes.map {n : Nat} {r : Reader α} (hr : Takes n r) (f : α → β) :
    Takes n (do return f (← r)) :=
  Pays.bind hr.pays fun _ => Pays.pure (Nat.le_refl n)

theorem takes_byte : Takes 1 byte := by
  intro w b w' h
  obtain ⟨bytes, offset⟩ := w
  cases bytes with
  | nil => cases h
  | cons c rest =>
    cases h
    simp [Window.drop]

theorem pays_bytes (n : Nat) : Pays 0 (bytes n) List.length := by
  intro w bs w' h
  obtain ⟨inner, v, hframe, h⟩ := bind_eq_ok_iff.mp h
  cases h
  obtain ⟨-, -, hbytes⟩ := frame_eq_ok hframe
  rw [hbytes, List.length_append]
  exact Nat.le_of_eq (Nat.add_comm _ _)

theorem takes_groups (bits : Nat) (fits : UInt8 → Bool) : Takes 1 (groups bits fits) := by
  intro w bs w' h
  obtain ⟨hsplit, hbytes⟩ := groups_eq_ok h
  obtain ⟨hencoding, -⟩ := Leb128.of_split_eq_ok hsplit
  obtain ⟨hspells, -, -⟩ := Leb128.spells_of_encoding? hencoding
  have hpos := List.length_pos_iff.mpr hspells.ne_nil
  rw [hbytes, List.length_append]
  omega

theorem pays_basis : Basis Pays where
  pure := Pays.pure
  throw _ := nofun
  bind := Pays.bind
  carry h credit w a w' ha := by
    have := h ha
    dsimp only
    omega
  weaken h hcredit hsize w a w' ha := by
    have h₁ := h ha
    have h₂ := hsize a
    omega
  byte := takes_byte
  u32 := ((takes_groups 32 _).map _).map _
  signed bits _ := (takes_groups bits _).map _
  word n := ((pays_bytes n).takes fun _ => Nat.zero_le _).map _
  ofImmediates h := by
    intro w t w' ht
    obtain ⟨start, v, hstart, ht⟩ := bind_eq_ok_iff.mp ht
    cases hstart
    refine Pays.bind takes_byte.pays (fun b => ?_) ht
    split
    · exact h _
    · exact nofun

theorem takes_token : Takes 1 token := pays_basis.token.takes Token.one_le_entries

theorem pays_bodyBasis : BodyBasis Pays where
  toBasis := pays_basis
  remaining := by
    intro w n w' h
    cases h
    exact Nat.le_refl _
  atEnd := by
    intro w ended w' h
    cases h
    exact Nat.le_refl _

/-- Depths that pass their check leave what is open at most, and nothing is
    read. -/
theorem checkDepths_eq_ok {open_ : Nat} {depths : List UInt32} {w w' : Window} {u : Unit}
    (h : checkDepths open_ depths w = .ok u w') :
    (∀ depth ∈ depths, depth.toNat ≤ open_) ∧ w' = w := by
  induction depths with
  | nil =>
    cases h
    exact ⟨nofun, rfl⟩
  | cons depth rest ih =>
    unfold checkDepths at h
    split at h
    · cases h
    · rename_i hdepth
      obtain ⟨hrest, hw⟩ := ih h
      exact ⟨List.forall_mem_cons.mpr ⟨Nat.le_of_not_lt hdepth, hrest⟩, hw⟩

-- ---------------------------------------------------------------------------
-- Rows of tokens
-- ---------------------------------------------------------------------------

/-- The tokens are read one after the other. -/
inductive Row : Window → List Token → Window → Prop where
  | nil (w : Window) : Row w [] w
  | cons {w v w' : Window} {t : Token} {ts : List Token} (ht : token w = .ok t v)
      (hts : Row v ts w') : Row w (t :: ts) w'

namespace Row

variable {w v w' : Window} {t : Token} {ts us : List Token}

theorem single (ht : token w = .ok t w') : Row w [t] w' := .cons ht (.nil w')

theorem cons_iff : Row w (t :: ts) w' ↔ ∃ v, token w = .ok t v ∧ Row v ts w' := by
  constructor
  · intro h
    cases h with
    | cons ht hts => exact ⟨_, ht, hts⟩
  · rintro ⟨v, ht, hts⟩
    exact .cons ht hts

theorem append (h : Row w ts v) (h' : Row v us w') : Row w (ts ++ us) w' := by
  induction h with
  | nil => exact h'
  | cons ht _ ih => exact .cons ht (ih h')

theorem append_iff : Row w (ts ++ us) w' ↔ ∃ v, Row w ts v ∧ Row v us w' := by
  constructor
  · intro h
    induction ts generalizing w with
    | nil => exact ⟨w, .nil w, h⟩
    | cons t ts ih =>
      obtain ⟨v, ht, h⟩ := cons_iff.mp h
      obtain ⟨v', hts, hus⟩ := ih h
      exact ⟨v', .cons ht hts, hus⟩
  · rintro ⟨v, hts, hus⟩
    exact hts.append hus

/-- A row that starts with a construct. -/
theorem enclosed_iff {mark : Token} {body rest : List Token} :
    Row w (t :: (body ++ mark :: rest) ++ us) w' ↔
      ∃ v v', token w = .ok t v ∧ Row v (body ++ [mark]) v' ∧ Row v' (rest ++ us) w' := by
  have hsplit : t :: (body ++ mark :: rest) ++ us = t :: ((body ++ [mark]) ++ (rest ++ us)) := by
    simp
  rw [hsplit, cons_iff]
  constructor
  · rintro ⟨v, ht, h⟩
    obtain ⟨v', hbody, hrest⟩ := append_iff.mp h
    exact ⟨v, v', ht, hbody, hrest⟩
  · rintro ⟨v, v', ht, hbody, hrest⟩
    exact ⟨v, ht, hbody.append hrest⟩

/-- Each token takes a byte at least. -/
theorem length_le (h : Row w ts w') : w'.bytes.length + ts.length ≤ w.bytes.length := by
  induction h with
  | nil => exact Nat.le_refl _
  | cons ht _ ih =>
    have htakes := takes_token ht
    rw [List.length_cons]
    omega

end Row

def Mark.token : Mark → Token
  | else_ => .else_
  | end_ => .end_

/-- Code is read from its tokens and the mark that ends it. Its branches stay
    within what is open around it. -/
theorem row_of_code {bound open_ : Nat} {mayElse : Bool} {w w' : Window} {c : Code} {mark : Mark}
    (h : code bound open_ mayElse w = .ok (c, mark) w') :
    Row w (c.tokens ++ [mark.token]) w' ∧ c.Scoped open_ ∧ (mark = .else_ → mayElse = true) := by
  induction bound generalizing open_ mayElse w w' c mark with
  | zero => cases h
  | succ bound ih =>
    -- a body that no else mark may end is ended by an end mark
    have inside {v v' : Window} {body : Code} {m : Mark}
        (h : code bound (open_ + 1) false v = .ok (body, m) v') :
        Row v (body.tokens ++ [.end_]) v' ∧ body.Scoped (open_ + 1) := by
      obtain ⟨hrow, hscoped, hmark⟩ := ih h
      cases m with
      | end_ => exact ⟨hrow, hscoped⟩
      | else_ => cases hmark rfl
    obtain ⟨ended, v, hended, h⟩ := bind_eq_ok_iff.mp h
    cases hended
    split at h
    · cases h
    obtain ⟨t, v, ht, h⟩ := bind_eq_ok_iff.mp h
    cases t with
    | end_ =>
      cases h
      exact ⟨.single ht, trivial, nofun⟩
    | else_ =>
      dsimp only at h
      split at h
      · rename_i hmay
        cases h
        exact ⟨.single ht, trivial, fun _ => hmay⟩
      · cases h
    | plain i =>
      obtain ⟨u, v₁, hdepths, h⟩ := bind_eq_ok_iff.mp h
      obtain ⟨⟨rest, m⟩, v₂, hrest, h⟩ := bind_eq_ok_iff.mp h
      cases h
      obtain ⟨hinside, rfl⟩ := checkDepths_eq_ok hdepths
      obtain ⟨hrow, hscoped, hmark⟩ := ih hrest
      exact ⟨.cons ht hrow, ⟨hinside, hscoped⟩, hmark⟩
    | block type | loop type =>
      obtain ⟨⟨body, m⟩, v₁, hbody, h⟩ := bind_eq_ok_iff.mp h
      obtain ⟨⟨rest, m'⟩, v₂, hrest, h⟩ := bind_eq_ok_iff.mp h
      cases h
      obtain ⟨hrow, hscoped⟩ := inside hbody
      obtain ⟨hrow', hscoped', hmark⟩ := ih hrest
      refine ⟨?_, ⟨hscoped, hscoped'⟩, hmark⟩
      exact Row.enclosed_iff.mpr ⟨_, _, ht, hrow, hrow'⟩
    | if_ type =>
      obtain ⟨⟨body, m⟩, v₁, hbody, h⟩ := bind_eq_ok_iff.mp h
      obtain ⟨hrow, hscoped, -⟩ := ih hbody
      cases m with
      | end_ =>
        obtain ⟨⟨rest, m'⟩, v₂, hrest, h⟩ := bind_eq_ok_iff.mp h
        cases h
        obtain ⟨hrow', hscoped', hmark⟩ := ih hrest
        refine ⟨?_, ⟨hscoped, hscoped'⟩, hmark⟩
        exact Row.enclosed_iff.mpr ⟨_, _, ht, hrow, hrow'⟩
      | else_ =>
        obtain ⟨⟨otherwise, m'⟩, v₂, hother, h⟩ := bind_eq_ok_iff.mp h
        obtain ⟨⟨rest, m''⟩, v₃, hrest, h⟩ := bind_eq_ok_iff.mp h
        cases h
        obtain ⟨hrow', hscoped'⟩ := inside hother
        obtain ⟨hrow'', hscoped'', hmark⟩ := ih hrest
        refine ⟨?_, ⟨hscoped, hscoped', hscoped''⟩, hmark⟩
        refine Row.enclosed_iff.mpr ⟨_, _, ht, hrow, ?_⟩
        simpa using hrow'.append hrow''

/-- Code is shorter than its bytes: each instruction takes one of them at
    least, and so does the mark that ends the code. Its branches stay within
    what is open around it. -/
theorem code_eq_ok {bound open_ : Nat} {mayElse : Bool} {w w' : Window} {c : Code} {mark : Mark}
    (h : code bound open_ mayElse w = .ok (c, mark) w') :
    w'.bytes.length + c.size + 1 ≤ w.bytes.length ∧ c.Scoped open_ := by
  obtain ⟨hrow, hscoped, -⟩ := row_of_code h
  have hlength := hrow.length_le
  rw [List.length_append, Code.length_tokens, List.length_singleton] at hlength
  exact ⟨hlength, hscoped⟩

-- ---------------------------------------------------------------------------
-- Values read
-- ---------------------------------------------------------------------------

/-- Every value that is read has the property. -/
def Gives (r : Reader α) (P : α → Prop) : Prop := ∀ ⦃w a w'⦄, r w = .ok a w' → P a

theorem Gives.trivial (r : Reader α) : Gives r fun _ => True := fun _ _ _ _ => True.intro

theorem Gives.pure {P : α → Prop} {a : α} (h : P a) : Gives (pure a : Reader α) P := by
  intro w b w' hb
  cases hb
  exact h

theorem Gives.throw {P : α → Prop} (e : Error) : Gives (throw e : Reader α) P := by
  intro w a w' h
  cases h

theorem Gives.bind {P : α → Prop} {Q : β → Prop} {r : Reader α} {f : α → Reader β}
    (hr : Gives r P) (hf : ∀ a, P a → Gives (f a) Q) : Gives (r >>= f) Q := by
  intro w b w' h
  obtain ⟨a, v, ha, hb⟩ := bind_eq_ok_iff.mp h
  exact hf a (hr ha) hb

/-- What is read first does not matter. -/
theorem Gives.after {Q : β → Prop} {r : Reader α} {f : α → Reader β}
    (hf : ∀ a, Gives (f a) Q) : Gives (r >>= f) Q :=
  (Gives.trivial r).bind fun a _ => hf a

theorem gives_items {P : α → Prop} {item : Reader α} (h : Gives item P) (n : Nat) (acc : Array α)
    (hacc : ∀ a ∈ acc, P a) :
    Gives (items item n acc) fun as => as.size = acc.size + n ∧ ∀ a ∈ as, P a := by
  induction n generalizing acc with
  | zero => exact Gives.pure ⟨rfl, hacc⟩
  | succ n ih =>
    refine h.bind fun a ha => ?_
    have hpush : ∀ b ∈ acc.push a, P b := by
      intro b hb
      rcases Array.mem_push.mp hb with hb | rfl
      · exact hacc b hb
      · exact ha
    intro w as w' has
    have := ih (acc.push a) hpush has
    rw [Array.size_push] at this
    exact ⟨by omega, this.2⟩

theorem gives_vector {P : α → Prop} {item : Reader α} (h : Gives item P) :
    Gives (vector item) fun as => as.size < UInt32.size ∧ ∀ a ∈ as, P a := by
  refine Gives.after fun n => ?_
  intro w as w' has
  have hitems := gives_items h n.toNat #[] (by simp) has
  refine ⟨?_, hitems.2⟩
  have := n.toNat_lt_size
  simp only [List.size_toArray, List.length_nil] at hitems
  omega

theorem gives_frame (n : Nat) : Gives (frame n) fun inner => inner.bytes.length = n :=
  fun _ _ _ h => (frame_eq_ok h).2.1

theorem gives_funcType :
    Gives funcType fun t => t.params.length < UInt32.size ∧ t.results.length < UInt32.size := by
  refine Gives.after fun b => ?_
  split
  · exact Gives.throw _
  · refine (gives_vector (Gives.trivial valueType)).bind fun params hparams => ?_
    refine (gives_vector (Gives.trivial valueType)).bind fun results hresults => ?_
    exact Gives.pure ⟨by simpa using hparams.1, by simpa using hresults.1⟩

theorem gives_element : Gives element fun e => e.funcs.length < UInt32.size := by
  refine Gives.after fun mode => ?_
  split
  · refine Gives.after fun offset => ?_
    refine (gives_vector (Gives.trivial u32)).bind fun funcs hfuncs => ?_
    exact Gives.pure (by simpa using hfuncs.1)
  · refine Gives.after fun table => Gives.after fun offset => Gives.after fun kind => ?_
    split
    · exact Gives.throw _
    · refine (gives_vector (Gives.trivial u32)).bind fun funcs hfuncs => ?_
      exact Gives.pure (by simpa using hfuncs.1)
  · exact Gives.throw _

theorem gives_data : Gives data fun d => d.bytes.length < UInt32.size := by
  have hrest : ∀ memory, Gives (do
      let offset ← constExpr
      let length ← u32
      let bytes ← bytes length.toNat
      return ({ memory, offset, bytes } : DataSegment)) fun d => d.bytes.length < UInt32.size := by
    intro memory
    refine Gives.after fun offset => Gives.after fun length => ?_
    have hbytes : Gives (bytes length.toNat) fun bs => bs.length = length.toNat :=
      (gives_frame length.toNat).bind fun inner hinner => Gives.pure hinner
    refine hbytes.bind fun bs hbs => Gives.pure ?_
    exact hbs ▸ length.toNat_lt_size
  refine Gives.after fun mode => ?_
  dsimp only
  split
  · exact Gives.after hrest
  · exact Gives.after hrest
  · exact Gives.after hrest

/-- The body is the layout of code that is shorter than the bytes of a frame
    can be and whose branches stay inside it. -/
def FunctionCode.Spelled (f : FunctionCode) : Prop :=
  ∃ c : Code, f.body = c.body ∧ c.size + 1 < UInt32.size ∧ c.Scoped 0

theorem functionEntry_spelled {w w' : Window} {f : FunctionCode}
    (h : functionEntry w = .ok f w') :
    ∃ c : Code, f.body = c.body ∧ c.size + 1 ≤ w.bytes.length ∧ c.Scoped 0 := by
  obtain ⟨n, v₁, hn, h⟩ := bind_eq_ok_iff.mp h
  obtain ⟨locals, v₂, hlocals, h⟩ := bind_eq_ok_iff.mp h
  obtain ⟨c, v₃, hcode, h⟩ := bind_eq_ok_iff.mp h
  obtain ⟨ended, v₄, hended, h⟩ := bind_eq_ok_iff.mp h
  split at h
  · cases h
    obtain ⟨left, v₅, hleft, hcode⟩ := bind_eq_ok_iff.mp hcode
    cases hleft
    obtain ⟨⟨c', mark⟩, v₆, hcode, h⟩ := bind_eq_ok_iff.mp hcode
    cases h
    have h₁ := pays_basis.u32 hn
    have h₂ := pays_bodyBasis.localGroups _ _ hlocals
    obtain ⟨h₃, hscoped⟩ := code_eq_ok hcode
    exact ⟨c', rfl, by omega, hscoped⟩
  · cases h

theorem gives_framedFunction : Gives framedFunction FunctionCode.Spelled := by
  refine Gives.after fun size => (gives_frame size.toNat).bind fun inner hinner => ?_
  have hwithin : Gives (within inner functionEntry) fun r => FunctionCode.Spelled r.1 := by
    intro w r w' h
    obtain ⟨c, hbody, hsize, hscoped⟩ := functionEntry_spelled (within_eq_ok h).1
    have := size.toNat_lt_size
    exact ⟨c, hbody, by omega, hscoped⟩
  exact hwithin.bind fun r hr => Gives.pure hr

end Reader

-- ---------------------------------------------------------------------------
-- Modules
-- ---------------------------------------------------------------------------

/-- What reading gives to a module, whether it is valid or not. -/
structure Readable (m : Module) : Prop where
  types : ∀ t ∈ m.types, t.params.length < UInt32.size ∧ t.results.length < UInt32.size
  bodies : ∀ f ∈ m.functions, ∃ c : Code,
    f.body = c.body ∧ c.size + 1 < UInt32.size ∧ c.Scoped 0
  elements : ∀ e ∈ m.elements, e.funcs.length < UInt32.size
  data : ∀ d ∈ m.data, d.bytes.length < UInt32.size

/-- What is kept while the sections of a module are read. -/
structure Draft.Readable (d : Draft) : Prop where
  module : Format.Readable d.module
  code : ∀ f ∈ d.code, f.Spelled

theorem Draft.Readable.payload {d : Draft} (h : d.Readable) (kind : SectionKind) :
    Reader.Gives (Reader.payload d kind) Draft.Readable := by
  cases kind with
  | type =>
    refine (Reader.gives_vector Reader.gives_funcType).bind fun types htypes => Reader.Gives.pure ?_
    exact ⟨{ h.module with types := htypes.2 }, h.code⟩
  | element =>
    refine (Reader.gives_vector Reader.gives_element).bind fun es hes => Reader.Gives.pure ?_
    exact ⟨{ h.module with elements := hes.2 }, h.code⟩
  | data =>
    refine (Reader.gives_vector Reader.gives_data).bind fun ds hds => Reader.Gives.pure ?_
    exact ⟨{ h.module with data := hds.2 }, h.code⟩
  | code =>
    refine (Reader.gives_vector Reader.gives_framedFunction).bind fun fs hfs => ?_
    exact Reader.Gives.pure ⟨h.module, hfs.2⟩
  | custom =>
    exact .after fun _ => .after fun _ => .after fun _ => .pure h
  | import_ | table | memory | global | export_ | start =>
    exact .after fun _ => .pure ⟨{ h.module with }, h.code⟩
  | function | dataCount => exact .after fun _ => .pure ⟨h.module, h.code⟩

theorem Draft.Readable.framedPayload {d : Draft} (h : d.Readable) (kind : SectionKind)
    (id : UInt8) (size : UInt32) :
    Reader.Gives (Reader.framedPayload d kind id size) Draft.Readable := by
  refine .after fun inner => ?_
  intro w d' w' hd'
  cases hpayload : (Reader.payload d kind).run inner with
  | ok draft rest =>
    rw [hpayload] at hd'
    dsimp only at hd'
    split at hd'
    · cases hd'
      exact h.payload kind hpayload
    · cases hd'
  | error e rest =>
    rw [hpayload] at hd'
    cases e <;> cases hd'

theorem Draft.Readable.section_ {d : Draft} (h : d.Readable) :
    Reader.Gives (Reader.section_ d) Draft.Readable := by
  refine .after fun start => .after fun id => ?_
  split
  · exact .throw _
  · rename_i kind _
    refine .after fun size => ?_
    cases hadvance : d.advance? kind with
    | none => exact .throw _
    | some d' =>
      have hd' : d'.Readable := by
        unfold Draft.advance? at hadvance
        split at hadvance
        · cases hadvance
          exact h
        · split at hadvance
          · cases hadvance
          · cases hadvance
            exact ⟨h.module, h.code⟩
      refine .after fun left => ?_
      split
      · exact .throw _
      · exact hd'.framedPayload kind id size

theorem Draft.Readable.sections (bound : Nat) {d : Draft} (h : d.Readable) :
    Reader.Gives (Reader.sections bound d) Draft.Readable := by
  induction bound generalizing d with
  | zero => exact .pure h
  | succ bound ih =>
    refine .after fun ended => ?_
    split
    · exact .pure h
    · exact h.section_.bind fun d' hd' => ih hd'

theorem Draft.finish_eq_ok_iff {d : Draft} {m : Module} :
    d.finish = .ok m ↔
      d.funcTypes.size = d.code.size ∧ d.dataCount.all (·.toNat = d.module.data.size) ∧
        m = { d.module with
          functions := d.funcTypes.zipWith (fun type c => ⟨type, c.locals, c.body⟩) d.code } := by
  unfold Draft.finish
  by_cases hsize : d.funcTypes.size = d.code.size
  · by_cases hcount : d.dataCount.all (·.toNat = d.module.data.size)
    · simp only [hsize, hcount, ne_eq, not_true_eq_false, ↓reduceIte, Bool.not_true,
        Bool.false_eq_true, pure, Except.pure, Except.ok.injEq, true_and]
      exact eq_comm
    · simp [hsize, hcount, throw, throwThe, MonadExceptOf.throw, bind, Except.bind]
  · simp [hsize, throw, throwThe, MonadExceptOf.throw, bind, Except.bind]

theorem Draft.Readable.finish {d : Draft} (h : d.Readable) {m : Module}
    (hm : d.finish = .ok m) : Format.Readable m := by
  obtain ⟨_, _, rfl⟩ := Draft.finish_eq_ok_iff.mp hm
  refine { h.module with bodies := ?_ }
  intro f hf
  obtain ⟨i, hi, rfl⟩ := Array.mem_iff_getElem.mp hf
  rw [Array.getElem_zipWith]
  exact h.code _ (Array.getElem_mem _)

theorem parse_readable {bytes : List UInt8} {m : Module} (h : parse bytes = .ok m) :
    Readable m := by
  unfold parse at h
  split at h
  · have hempty : Draft.Readable {} := by
      refine ⟨⟨?_, ?_, ?_, ?_⟩, ?_⟩ <;> simp
    dsimp only at h
    cases hsections : (Reader.sections (bytes.drop header.length).length {}).run
        ⟨bytes.drop header.length, header.length⟩ with
    | ok d rest =>
      rw [hsections] at h
      exact (hempty.sections _ hsections).finish h
    | error e rest =>
      rw [hsections] at h
      cases h
  · cases h

theorem decode_eq_ok_iff {bytes : List UInt8} {m : Module} :
    decode bytes = .ok m ↔ parse bytes = .ok m ∧ Validity.check m = .ok () := by
  unfold decode
  cases hparse : parse bytes with
  | error e => simp [bind, Except.bind]
  | ok m' =>
    simp only [bind, Except.bind]
    cases hcheck : Validity.check m' with
    | error e =>
      simp only [Except.ok.injEq, reduceCtorEq, false_iff, not_and]
      rintro rfl
      simp [hcheck]
    | ok u =>
      simp only [pure, Except.pure, Except.ok.injEq]
      constructor
      · rintro rfl
        exact ⟨rfl, hcheck⟩
      · exact fun h => h.1

theorem eq_ok_of_toOption {r : Except Error Module} {m : Module} (h : r.toOption = some m) :
    r = .ok m := by
  cases r with
  | error e => cases h
  | ok m' => exact congrArg Except.ok (Option.some.inj h)

end Format

/-- Repeats a call with its argument, which it counts down to zero. -/
def countdownLoop : Code :=
  .loop .empty
    (.plain (.localGet 0) <| .plain (.call 0) <| .plain (.localGet 0) <|
      .plain (.const (.i32 1)) <| .plain (.intBinary .w32 .sub) <| .plain (.localTee 0) <|
      .plain (.brIf 0) .nil) .nil

/-- Tells the host each number from its argument down to one. -/
def countdown : Module where
  types := #[{ params := [.i32] }]
  imports := #[{ module := "env", name := "tick", desc := .func 0 }]
  functions := #[{ type := 0, locals := #[], body := countdownLoop.body }]
  exports := #[{ name := "run", desc := .func 1 }]

/-- The bytes of `countdown`. -/
def countdownBytes : List UInt8 :=
  [0x00, 0x61, 0x73, 0x6D, 0x01, 0x00, 0x00, 0x00,
    0x01, 0x05, 0x01, 0x60, 0x01, 0x7F, 0x00,
    0x02, 0x0C, 0x01, 0x03, 0x65, 0x6E, 0x76, 0x04, 0x74, 0x69, 0x63, 0x6B, 0x00, 0x00,
    0x03, 0x02, 0x01, 0x00,
    0x07, 0x07, 0x01, 0x03, 0x72, 0x75, 0x6E, 0x00, 0x01,
    0x0A, 0x14, 0x01, 0x12, 0x00, 0x03, 0x40, 0x20, 0x00, 0x10, 0x00, 0x20, 0x00, 0x41, 0x01, 0x6B,
    0x22, 0x00, 0x0D, 0x00, 0x0B, 0x0B]

theorem decode_countdown : Format.decode countdownBytes = .ok countdown :=
  Format.eq_ok_of_toOption (by decide +kernel)

end Wasm
