import Mathlib.Algebra.Ring.Nat
import Wasm.Format.Module

/-!
# What readers are made of

Readers are put together from few: from those of a byte, a number and a run of
bytes, and from errors. A property that holds of these, and of one reader after
another, holds of every reader.

Some properties are about how large a value may be, so the rules keep accounts.
A value has as many entries as there are things in its lists, and each has to be
paid for, by a credit from before or by the bytes that are read. A property that
is not about sizes takes no notice of them.
-/

namespace Wasm

-- ---------------------------------------------------------------------------
-- Entries
-- ---------------------------------------------------------------------------

/-- An instruction is an entry, and so is each target of a table of branches. -/
def Plain.entries : Plain → Nat
  | .brTable targets _ => 1 + targets.size
  | _ => 1

def Instr.entries : Instr → Nat
  | .plain i => i.entries
  | _ => 1

/-- The mark that ends the code is an entry too. -/
def Code.entries : Code → Nat
  | nil => 1
  | plain i rest => i.entries + rest.entries
  | block _ body rest | loop _ body rest | ifThen _ body rest => 1 + body.entries + rest.entries
  | ifElse _ body otherwise rest => 1 + body.entries + otherwise.entries + rest.entries

/-- The mark that ends the expression is an entry too. -/
def ConstExpr.entries (e : ConstExpr) : Nat := e.length + 1

def FuncType.entries (t : FuncType) : Nat := 1 + t.params.length + t.results.length

def Function.entries (f : Function) : Nat := 1 + (f.body.map Instr.entries).sum

def Global.entries (g : Global) : Nat := 1 + ConstExpr.entries g.init

def ElementSegment.entries (e : ElementSegment) : Nat :=
  1 + ConstExpr.entries e.offset + e.funcs.length

def DataSegment.entries (d : DataSegment) : Nat :=
  1 + ConstExpr.entries d.offset + d.bytes.length

/-- What all lists of a module hold together, the locals of its functions
    apart. -/
def Module.entries (m : Module) : Nat :=
  (m.types.map FuncType.entries).sum + m.imports.size + (m.functions.map Function.entries).sum +
    m.tables.size + m.memories.size + (m.globals.map Global.entries).sum + m.exports.size +
    (m.elements.map ElementSegment.entries).sum + (m.data.map DataSegment.entries).sum

theorem Code.entries_layout (c : Code) (p : Nat) :
    ((c.layout p).map Instr.entries).sum + 1 = c.entries := by
  induction c generalizing p with
  | nil => rfl
  | plain i rest ih =>
    have := ih (p + 1)
    simp [layout, entries, Instr.entries, ← this]
    omega
  | block _ body rest ihb ihr | loop _ body rest ihb ihr | ifThen _ body rest ihb ihr =>
    simp [layout, entries, Instr.entries, ← ihb (p + 1), ← ihr (p + 1 + body.size + 1)]
    omega
  | ifElse _ body otherwise rest ihb iho ihr =>
    simp [layout, entries, Instr.entries, ← ihb (p + 1), ← iho (p + 1 + body.size + 1),
      ← ihr (p + 1 + body.size + 1 + otherwise.size + 1)]
    omega

theorem Code.entries_body (c : Code) : (c.body.map Instr.entries).sum = c.entries := by
  simp [body, ← c.entries_layout 0, Instr.entries]

namespace Format

def Token.entries : Token → Nat
  | .plain i => i.entries
  | _ => 1

theorem Token.one_le_entries (t : Token) : 1 ≤ t.entries := by
  cases t with
  | plain i => cases i <;> simp [entries, Plain.entries]
  | block | loop | if_ | else_ | end_ => exact Nat.le_refl 1

def Reader.FunctionCode.entries (f : FunctionCode) : Nat := (f.body.map Instr.entries).sum

/-- A function is an entry from when its type is read. -/
def Draft.entries (d : Draft) : Nat :=
  d.module.entries + d.funcTypes.size + (d.code.map Reader.FunctionCode.entries).sum

-- ---------------------------------------------------------------------------
-- Rules
-- ---------------------------------------------------------------------------

/-- The error says nothing of a place in the file. -/
def Error.Placeless : Error → Prop
  | badHeader | sectionOrder _ | invalidValueType _ | malformed _ | indexOutOfRange _ _ _ => True
  | _ => False

namespace Reader

/-- The property holds of the readers that instructions are read with, and
    carries over to what is put together from them. It may speak of a credit
    and of the size of what is read. -/
structure Basis (P : ∀ {α : Type}, Nat → Reader α → (α → Nat) → Prop) : Prop where
  pure : ∀ {α : Type} {credit : Nat} {size : α → Nat} {a : α}, size a ≤ credit →
    P credit (pure a) size
  throw : ∀ {α : Type} {credit : Nat} {size : α → Nat} {e : Error}, e.Placeless →
    P credit (throw e) size
  /-- The size of what is read first is the credit of what follows. -/
  bind : ∀ {α β : Type} {credit : Nat} {mid : α → Nat} {size : β → Nat} {r : Reader α}
    {f : α → Reader β}, P credit r mid → (∀ a, P (mid a) (f a) size) → P credit (r >>= f) size
  carry : ∀ {α : Type} {size : α → Nat} {r : Reader α}, P 0 r size → ∀ credit,
    P credit r fun a => credit + size a
  weaken : ∀ {α : Type} {credit credit' : Nat} {size size' : α → Nat} {r : Reader α},
    P credit r size → credit ≤ credit' → (∀ a, size' a ≤ size a) → P credit' r size'
  byte : P 0 byte fun _ => 1
  u32 : P 0 u32 fun _ => 1
  signed : ∀ bits ∈ [32, 33, 64], P 0 (signed bits) fun _ => 1
  word : ∀ n, P 0 (word n) fun _ => 0
  /-- A byte that is no opcode is named with its place. -/
  ofImmediates : (∀ op, P 1 (immediates op) Token.entries) → P 0 token Token.entries

/-- The property also holds of the readers that look ahead for the end of a
    body. -/
structure BodyBasis (P : ∀ {α : Type}, Nat → Reader α → (α → Nat) → Prop) : Prop
    extends Basis P where
  remaining : P 0 remaining fun _ => 0
  atEnd : P 0 atEnd fun _ => 0

/-- The property also holds of the readers that sections are read with. -/
structure SectionBasis (P : ∀ {α : Type}, Nat → Reader α → (α → Nat) → Prop) : Prop
    extends Basis P where
  bytes : ∀ n, P 0 (bytes n) List.length
  name : P 0 name fun _ => 1
  cut : ∀ credit acc size, P credit (constInstrs 0 acc) size
  ofConstInstrs : (∀ bound, P 0 (constInstrs bound []) ConstExpr.entries) →
    P 0 constExpr ConstExpr.entries
  framedFunction : P 0 framedFunction fun f => 1 + f.entries

section

variable {α β : Type} {P : ∀ {α : Type}, Nat → Reader α → (α → Nat) → Prop}

-- ---------------------------------------------------------------------------
-- Tokens
-- ---------------------------------------------------------------------------

namespace Basis

variable {credit : Nat} {mid : α → Nat} {size : β → Nat} {r : Reader α}

/-- What is read next adds to the credit. -/
theorem next (h : Basis P) {f : α → Reader β} (hr : P 0 r mid)
    (hf : ∀ a, P (credit + mid a) (f a) size) : P credit (r >>= f) size :=
  h.bind (h.carry hr credit) hf

/-- A read that ends by computing its result. -/
theorem map (h : Basis P) {f : α → β} (hr : P 0 r mid)
    (hf : ∀ a, size (f a) ≤ credit + mid a) : P credit (do return f (← r)) size :=
  h.next hr fun a => h.pure (hf a)

theorem malformed (h : Basis P) {reason : Malformation} : P credit (malformed reason) size :=
  h.throw trivial

theorem items (h : Basis P) {item : Reader α} (hitem : P 0 item mid) (n : Nat) (acc : Array α) :
    P (acc.map mid).sum (items item n acc) fun as => (as.map mid).sum := by
  induction n generalizing acc with
  | zero => exact h.pure (Nat.le_refl _)
  | succ n ih =>
    refine h.next hitem fun a => ?_
    have hpush : (acc.map mid).sum + mid a = ((acc.push a).map mid).sum := by simp
    exact hpush ▸ ih (acc.push a)

theorem vector (h : Basis P) {item : Reader α} (hitem : P 0 item mid) :
    P 0 (vector item) fun as => (as.map mid).sum := by
  refine h.bind h.u32 fun n => h.weaken (h.items hitem n.toNat #[]) ?_ fun _ => Nat.le_refl _
  simp

/-- A vector of items that take a byte each. -/
theorem vector_size (h : Basis P) {item : Reader α} (hitem : P 0 item fun _ => 1) :
    P 0 (Reader.vector item) Array.size :=
  h.weaken (h.vector hitem) (Nat.le_refl 0) fun as => by simp [Array.map_const']

theorem valueType (h : Basis P) : P 0 valueType fun _ => 1 := by
  refine h.bind h.byte fun b => ?_
  split <;> first
    | exact h.pure (Nat.le_refl _)
    | exact h.throw trivial

theorem blockType (h : Basis P) : P 0 blockType fun _ => 1 := by
  refine h.bind (h.signed 33 (by decide)) fun n => ?_
  repeat' split
  all_goals first
    | exact h.pure (Nat.le_refl _)
    | exact h.throw trivial

theorem memArg (h : Basis P) : P 0 memArg fun _ => 2 :=
  h.bind h.u32 fun _ => h.map h.u32 fun _ => Nat.le_refl _

theorem constant (h : Basis P) (t : ValueType) : P 0 (constant t) fun _ => 0 := by
  cases t with
  | i32 => exact h.map (h.signed 32 (by decide)) fun _ => Nat.zero_le _
  | i64 => exact h.map (h.signed 64 (by decide)) fun _ => Nat.zero_le _
  | f32 | f64 => exact h.map (h.word _) fun _ => Nat.zero_le _

theorem zeroByte (h : Basis P) : P 0 zeroByte fun _ => 1 := by
  refine h.bind h.byte fun b => ?_
  split
  · exact h.malformed
  · exact h.pure (Nat.le_refl _)

theorem immediates (h : Basis P) (op : Opcode) : P 1 (immediates op) Token.entries := by
  cases op with
  | block | loop | if_ => exact h.map h.blockType fun _ => Nat.le_add_right 1 _
  | br | brIf | call => exact h.map h.u32 fun _ => Nat.le_add_right 1 _
  | localGet | localSet | localTee | globalGet | globalSet =>
    exact h.map h.u32 fun _ => Nat.le_add_right 1 _
  | brTable =>
    refine h.next (h.vector_size h.u32) fun targets => h.map h.u32 fun _ => ?_
    exact Nat.le_add_right _ 1
  | callIndirect => exact h.next h.u32 fun _ => h.map h.u32 fun _ => Nat.le_add_right 1 2
  | load | store => exact h.map h.memArg fun _ => Nat.le_add_right 1 _
  | memorySize | memoryGrow => exact h.map h.zeroByte fun _ => Nat.le_add_right 1 _
  | const t => exact h.map (h.constant t) fun _ => Nat.le_refl 1
  | _ => exact h.pure (Nat.le_refl 1)

theorem token (h : Basis P) : P 0 token Token.entries := h.ofImmediates h.immediates

end Basis

-- ---------------------------------------------------------------------------
-- Bodies
-- ---------------------------------------------------------------------------

namespace BodyBasis

theorem checkDepths (h : BodyBasis P) (open_ : Nat) (depths : List UInt32) :
    P 0 (checkDepths open_ depths) fun _ => 0 := by
  induction depths with
  | nil => exact h.pure (Nat.le_refl 0)
  | cons depth rest ih =>
    unfold Reader.checkDepths
    split
    · exact h.throw trivial
    · exact ih

theorem code (h : BodyBasis P) (bound open_ : Nat) (mayElse : Bool) :
    P 0 (code bound open_ mayElse) fun c => c.1.entries := by
  induction bound generalizing open_ mayElse with
  | zero => exact h.malformed
  | succ bound ih =>
    refine h.bind h.atEnd fun ended => ?_
    split
    · exact h.malformed
    refine h.bind h.token fun t => ?_
    cases t with
    | end_ => exact h.pure (Nat.le_refl 1)
    | else_ =>
      dsimp only
      split
      · exact h.pure (Nat.le_refl 1)
      · exact h.malformed
    | plain i =>
      refine h.next (h.checkDepths open_ i.depths) fun _ => ?_
      exact h.map (ih open_ mayElse) fun _ => Nat.le_refl _
    | block type | loop type =>
      refine h.next (ih (open_ + 1) false) fun body => ?_
      exact h.map (ih open_ mayElse) fun _ => Nat.le_refl _
    | if_ type =>
      refine h.next (ih (open_ + 1) true) fun (body, mark) => ?_
      cases mark with
      | end_ => exact h.map (ih open_ mayElse) fun _ => Nat.le_refl _
      | else_ =>
        refine h.next (ih (open_ + 1) false) fun _ => ?_
        exact h.map (ih open_ mayElse) fun _ => Nat.le_refl _

theorem localGroups (h : BodyBasis P) (n : Nat) (acc : Array ValueType) :
    P 0 (localGroups n acc) fun _ => 0 := by
  induction n generalizing acc with
  | zero => exact h.pure (Nat.le_refl 0)
  | succ n ih =>
    refine h.bind h.u32 fun count => h.next h.valueType fun type => ?_
    split
    · exact h.malformed
    · exact h.weaken (ih _) (Nat.zero_le _) fun _ => Nat.le_refl 0

theorem functionEntry (h : BodyBasis P) : P 0 functionEntry FunctionCode.entries := by
  have hcode : P 0 functionCode Code.entries :=
    h.bind h.remaining fun left => h.map (h.code left 0 false) fun _ => Nat.le_add_left _ _
  refine h.bind h.u32 fun n => ?_
  refine h.next (h.localGroups n.toNat #[]) fun locals => h.next hcode fun c => ?_
  refine h.next h.atEnd fun ended => ?_
  split
  · refine h.pure ?_
    rw [FunctionCode.entries, c.entries_body]
    omega
  · exact h.malformed

end BodyBasis

-- ---------------------------------------------------------------------------
-- Sections
-- ---------------------------------------------------------------------------

namespace SectionBasis

theorem constInstrs (h : SectionBasis P) (bound : Nat) (acc : List ConstInstr) :
    P acc.length (constInstrs bound acc) ConstExpr.entries := by
  induction bound generalizing acc with
  | zero => exact h.cut _ acc _
  | succ bound ih =>
    have htoken : P 0 token fun _ => 1 :=
      h.weaken h.token (Nat.le_refl 0) Token.one_le_entries
    refine h.next htoken fun t => ?_
    cases t with
    | end_ => exact h.pure (by simp [ConstExpr.entries])
    | plain i =>
      dsimp only
      split
      · exact ih (_ :: acc)
      · exact h.malformed
    | block | loop | if_ | else_ => exact h.malformed

theorem constExpr (h : SectionBasis P) : P 0 constExpr ConstExpr.entries :=
  h.ofConstInstrs fun bound => h.constInstrs bound []

theorem funcType (h : SectionBasis P) : P 0 funcType FuncType.entries := by
  have htypes := h.vector_size h.valueType
  refine h.bind h.byte fun form => ?_
  split
  · exact h.malformed
  · refine h.next htypes fun params => h.map htypes fun results => ?_
    simp [FuncType.entries]

theorem limits (h : SectionBasis P) : P 0 limits fun _ => 1 := by
  refine h.bind h.byte fun flag => ?_
  split
  · exact h.map h.u32 fun _ => Nat.le_add_right 1 _
  · exact h.next h.u32 fun _ => h.map h.u32 fun _ => Nat.le_add_right 1 2
  · exact h.malformed

theorem tableType (h : SectionBasis P) : P 0 tableType fun _ => 1 := by
  refine h.bind h.byte fun type => ?_
  split
  · exact h.malformed
  · exact h.weaken h.limits (Nat.zero_le _) fun _ => Nat.le_refl 1

theorem globalType (h : SectionBasis P) : P 0 globalType fun _ => 1 := by
  refine h.bind h.valueType fun type => h.next h.byte fun flag => ?_
  split
  · exact h.pure (Nat.le_add_right 1 1)
  · exact h.pure (Nat.le_add_right 1 1)
  · exact h.malformed

theorem importDesc (h : SectionBasis P) : P 0 importDesc fun _ => 1 := by
  refine h.bind h.byte fun kind => ?_
  split
  · exact h.map h.u32 fun _ => Nat.le_add_right 1 _
  · exact h.map h.tableType fun _ => Nat.le_add_right 1 _
  · exact h.map h.limits fun _ => Nat.le_add_right 1 _
  · exact h.map h.globalType fun _ => Nat.le_add_right 1 _
  · exact h.malformed

theorem importEntry (h : SectionBasis P) : P 0 importEntry fun _ => 1 :=
  h.bind h.name fun _ => h.next h.name fun _ => h.map h.importDesc fun _ => Nat.le_add_right 1 2

theorem global (h : SectionBasis P) : P 0 global Global.entries :=
  h.bind h.globalType fun _ => h.map h.constExpr fun _ => Nat.le_refl _

theorem exportEntry (h : SectionBasis P) : P 0 exportEntry fun _ => 1 := by
  refine h.bind h.name fun name => h.next h.byte fun kind => h.next h.u32 fun index => ?_
  split <;> first
    | exact h.pure (Nat.le_add_right 1 2)
    | exact h.malformed

theorem element (h : SectionBasis P) : P 0 element ElementSegment.entries := by
  have hfuncs := h.vector_size h.u32
  refine h.bind h.u32 fun mode => ?_
  split
  · refine h.next h.constExpr fun offset => h.map hfuncs fun funcs => ?_
    simp [ElementSegment.entries]
  · refine h.next h.u32 fun table => h.next h.constExpr fun offset => h.next h.byte fun kind => ?_
    split
    · exact h.malformed
    · refine h.map hfuncs fun funcs => ?_
      simp only [ElementSegment.entries, Array.length_toList]
      omega
  · exact h.malformed

theorem data (h : SectionBasis P) : P 0 data DataSegment.entries := by
  have hrest : ∀ memory, P 1 (do
      let offset ← Reader.constExpr
      let length ← u32
      let bytes ← Reader.bytes length.toNat
      return ({ memory, offset, bytes } : DataSegment)) DataSegment.entries := by
    intro memory
    refine h.next h.constExpr fun offset => h.next h.u32 fun length => ?_
    refine h.map (h.bytes _) fun bytes => ?_
    simp only [DataSegment.entries]
    omega
  refine h.bind h.u32 fun mode => ?_
  dsimp only
  split
  · exact h.bind (h.pure (Nat.le_refl 1)) hrest
  · exact h.bind (h.weaken h.u32 (Nat.zero_le 1) fun _ => Nat.le_refl 1) hrest
  · exact h.bind h.malformed hrest

/-- The contents of a section pay for what they add to the draft. -/
theorem payload (h : SectionBasis P) (d : Draft) {kind : SectionKind} (hkind : kind ≠ .custom) :
    P d.entries (payload d kind) Draft.entries := by
  -- a vector may stand in the place of one that was there before
  cases kind with
  | custom => exact absurd rfl hkind
  | type =>
    refine h.map (h.vector h.funcType) fun types => ?_
    simp only [Draft.entries, Module.entries]
    omega
  | import_ =>
    refine h.map (h.vector_size h.importEntry) fun imports => ?_
    simp only [Draft.entries, Module.entries]
    omega
  | function =>
    refine h.map (h.vector_size h.u32) fun types => ?_
    simp only [Draft.entries]
    omega
  | table =>
    refine h.map (h.vector_size h.tableType) fun tables => ?_
    simp only [Draft.entries, Module.entries]
    omega
  | memory =>
    refine h.map (h.vector_size h.limits) fun memories => ?_
    simp only [Draft.entries, Module.entries]
    omega
  | global =>
    refine h.map (h.vector h.global) fun globals => ?_
    simp only [Draft.entries, Module.entries]
    omega
  | export_ =>
    refine h.map (h.vector_size h.exportEntry) fun exports => ?_
    simp only [Draft.entries, Module.entries]
    omega
  | start | dataCount => exact h.map h.u32 fun _ => Nat.le_add_right _ 1
  | element =>
    refine h.map (h.vector h.element) fun elements => ?_
    simp only [Draft.entries, Module.entries]
    omega
  | code =>
    have hfunction := h.weaken h.framedFunction (Nat.le_refl 0) fun _ => Nat.le_add_left _ 1
    refine h.map (h.vector hfunction) fun fs => ?_
    simp only [Draft.entries]
    omega
  | data =>
    refine h.map (h.vector h.data) fun ds => ?_
    simp only [Draft.entries, Module.entries]
    omega

/-- A custom section takes all the bytes there are, and adds nothing. -/
theorem payload_all (h : SectionBasis P) (hremaining : P 0 remaining fun _ => 0) (d : Draft)
    (kind : SectionKind) : P d.entries (Reader.payload d kind) Draft.entries := by
  by_cases hkind : kind = .custom
  · subst hkind
    refine h.next h.name fun _ => h.next hremaining fun left => h.map (h.bytes left) fun _ => ?_
    omega
  · exact h.payload d hkind

end SectionBasis

end

end Reader

end Format

end Wasm
