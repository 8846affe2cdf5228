import Wasm.Syntax.Code
import Wasm.Syntax.Module

/-!
# References

What the parts of a module refer to: entries of its index spaces, each by its
index, and the constructs around a branch, by their number. A branch may leave
the constructs that are open where it stands and the function, no more.
-/

namespace Wasm

-- ---------------------------------------------------------------------------
-- Entries
-- ---------------------------------------------------------------------------

/-- An index and the space it is taken from. -/
structure Reference where
  space : IndexSpace
  index : UInt32
deriving DecidableEq

/-- The entries an instruction refers to. One that uses memory refers to
    memory 0. -/
def Plain.references : Plain → List Reference
  | .call func => [⟨.function, func⟩]
  | .callIndirect type table => [⟨.type, type⟩, ⟨.table, table⟩]
  | .localGet index | .localSet index | .localTee index => [⟨.localVar, index⟩]
  | .globalGet index | .globalSet index => [⟨.global, index⟩]
  | .load _ _ | .store _ _ | .memorySize | .memoryGrow => [⟨.memory, 0⟩]
  | .unreachable | .nop | .br _ | .brIf _ | .brTable _ _ | .return_ | .drop | .select | .const _
  | .intEqz _ | .intCompare _ _ | .intUnary _ _ | .intBinary _ _ | .floatCompare _ _
  | .floatUnary _ _ | .floatBinary _ _ | .convert _ => []

def BlockType.references : BlockType → List Reference
  | .func type => [⟨.type, type⟩]
  | _ => []

def Instr.references : Instr → List Reference
  | .plain i => i.references
  | .block type _ | .loop type | .if_ type _ _ => type.references
  | _ => []

def ConstInstr.plain : ConstInstr → Plain
  | const v => .const v
  | globalGet index => .globalGet index

/-- The instructions of a constant expression, with the mark that ends it. -/
def ConstExpr.body (e : ConstExpr) : List Instr :=
  e.map (.plain ·.plain) ++ [.end_]

def ImportDesc.references : ImportDesc → List Reference
  | .func type => [⟨.type, type⟩]
  | _ => []

def ExportDesc.references : ExportDesc → List Reference
  | .func index => [⟨.function, index⟩]
  | .table index => [⟨.table, index⟩]
  | .memory index => [⟨.memory, index⟩]
  | .global index => [⟨.global, index⟩]

def ConstExpr.references (e : ConstExpr) : List Reference :=
  e.body.flatMap Instr.references

def ElementSegment.references (e : ElementSegment) : List Reference :=
  ⟨.table, e.table⟩ :: e.offset.references ++ e.funcs.map (⟨.function, ·⟩)

def DataSegment.references (d : DataSegment) : List Reference :=
  ⟨.memory, d.memory⟩ :: d.offset.references

namespace Module

/-- What a module refers to outside the bodies of its functions. -/
def references (m : Module) : List Reference :=
  m.imports.toList.flatMap (·.desc.references) ++
    m.functions.toList.map (⟨.type, ·.type⟩) ++
    m.globals.toList.flatMap (·.init.references) ++
    m.exports.toList.flatMap (·.desc.references) ++
    m.start.toList.map (⟨.function, ·⟩) ++
    m.elements.toList.flatMap ElementSegment.references ++
    m.data.toList.flatMap DataSegment.references

/-- Number of entries of an index space, where there are so many locals.
    Imported entries count too. -/
def count (m : Module) (locals : Nat) : IndexSpace → Nat
  | .type => m.types.size
  | .function => m.funcCount
  | .table => m.tableCount
  | .memory => m.memoryCount
  | .global => m.globalTypes.size
  | .localVar => locals
  | .label => 0

end Module

/-- The entry is there. -/
def Reference.Exists (m : Module) (locals : Nat) (r : Reference) : Prop :=
  r.index.toNat < m.count locals r.space

-- ---------------------------------------------------------------------------
-- Branches
-- ---------------------------------------------------------------------------

namespace Instr

/-- The branch depths an instruction names. -/
def depths : Instr → List UInt32
  | plain i => i.depths
  | _ => []

/-- Number of constructs open behind an instruction, with `n` open in front of
    it. -/
def openBehind (n : Nat) : Instr → Nat
  | block _ _ | loop _ | if_ _ _ _ => n + 1
  | end_ => n - 1
  | plain _ | else_ _ => n

/-- With `n` constructs open in front of the instructions, no branch leaves
    more than are open where it stands and the function. -/
def Scoped : (n : Nat) → List Instr → Prop
  | _, [] => True
  | n, i :: is => (∀ depth ∈ i.depths, depth.toNat ≤ n) ∧ Scoped (i.openBehind n) is

theorem Scoped.append {n : Nat} {is js : List Instr} (his : Scoped n is)
    (hjs : Scoped (is.foldl openBehind n) js) : Scoped n (is ++ js) := by
  induction is generalizing n with
  | nil => exact hjs
  | cons i is ih => exact ⟨his.1, ih his.2 hjs⟩

theorem Scoped.getElem? {n pc : Nat} {is : List Instr} {i : Instr} (h : Scoped n is)
    (hi : is[pc]? = some i) :
    ∀ depth ∈ i.depths, depth.toNat ≤ (is.take pc).foldl openBehind n := by
  induction is generalizing n pc with
  | nil => cases hi
  | cons j is ih =>
    cases pc with
    | zero =>
      cases hi
      exact h.1
    | succ pc => exact ih h.2 hi

end Instr

/-- Number of constructs open in front of a position of the body. -/
def Function.openAt (f : Function) (pc : Nat) : Nat :=
  (f.body.toList.take pc).foldl Instr.openBehind 0

namespace Code

/-- No branch leaves more than the open blocks and the function. -/
def Scoped : (open_ : Nat) → Code → Prop
  | _, nil => True
  | open_, plain i rest => (∀ depth ∈ i.depths, depth.toNat ≤ open_) ∧ rest.Scoped open_
  | open_, block _ body rest | open_, loop _ body rest | open_, ifThen _ body rest =>
    body.Scoped (open_ + 1) ∧ rest.Scoped open_
  | open_, ifElse _ body otherwise rest =>
    body.Scoped (open_ + 1) ∧ otherwise.Scoped (open_ + 1) ∧ rest.Scoped open_

instance decidableScoped : (open_ : Nat) → (c : Code) → Decidable (c.Scoped open_)
  | _, nil => .isTrue trivial
  | open_, plain i rest =>
    have : Decidable (∀ depth ∈ i.depths, depth.toNat ≤ open_) := List.decidableBAll _ _
    have := decidableScoped open_ rest
    inferInstanceAs (Decidable (_ ∧ _))
  | open_, block _ body rest | open_, loop _ body rest | open_, ifThen _ body rest =>
    have := decidableScoped (open_ + 1) body
    have := decidableScoped open_ rest
    inferInstanceAs (Decidable (_ ∧ _))
  | open_, ifElse _ body otherwise rest =>
    have := decidableScoped (open_ + 1) body
    have := decidableScoped (open_ + 1) otherwise
    have := decidableScoped open_ rest
    inferInstanceAs (Decidable (_ ∧ _ ∧ _))

/-- Code closes what it opens. -/
theorem openBehind_layout (c : Code) (p n : Nat) :
    (c.layout p).foldl Instr.openBehind n = n := by
  induction c generalizing p n with
  | nil => rfl
  | plain i rest ih => exact ih (p + 1) n
  | block _ body rest ihb ihr => simp [layout, Instr.openBehind, ihb, ihr]
  | loop _ body rest ihb ihr => simp [layout, Instr.openBehind, ihb, ihr]
  | ifThen _ body rest ihb ihr => simp [layout, Instr.openBehind, ihb, ihr]
  | ifElse _ body otherwise rest ihb iho ihr => simp [layout, Instr.openBehind, ihb, iho, ihr]

/-- A construct in a layout: its first instruction, what is inside, the mark
    that ends this and what follows. -/
theorem scoped_enclosed {n p : Nat} {i mark : Instr} {body : Code} {js : List Instr}
    (hi : i.depths = []) (hopen : i.openBehind n = n + 1) (hmark : mark.depths = [])
    (hbody : Instr.Scoped (n + 1) (body.layout p))
    (hjs : Instr.Scoped (mark.openBehind (n + 1)) js) :
    Instr.Scoped n (i :: body.layout p ++ mark :: js) := by
  refine ⟨by simp [hi], ?_⟩
  rw [hopen]
  refine hbody.append ?_
  rw [openBehind_layout]
  exact ⟨by simp [hmark], hjs⟩

theorem Scoped.layout {n : Nat} {c : Code} (h : c.Scoped n) (p : Nat) :
    Instr.Scoped n (c.layout p) := by
  induction c generalizing n p with
  | nil => trivial
  | plain i rest ih => exact ⟨h.1, ih h.2 (p + 1)⟩
  | block _ body rest ihb ihr => exact scoped_enclosed rfl rfl rfl (ihb h.1 _) (ihr h.2 _)
  | loop _ body rest ihb ihr => exact scoped_enclosed rfl rfl rfl (ihb h.1 _) (ihr h.2 _)
  | ifThen _ body rest ihb ihr => exact scoped_enclosed rfl rfl rfl (ihb h.1 _) (ihr h.2 _)
  | ifElse _ body otherwise rest ihb iho ihr =>
    have hotherwise := iho h.2.1 (p + 1 + body.size + 1)
    have hrest := ihr h.2.2 (p + 1 + body.size + 1 + otherwise.size + 1)
    rw [Code.layout, List.append_assoc]
    refine scoped_enclosed rfl rfl rfl (ihb h.1 _) (hotherwise.append ?_)
    rw [openBehind_layout]
    exact ⟨by simp [Instr.depths], hrest⟩

/-- In a body the branches leave what is open, counted position by position. -/
theorem Scoped.openAt {c : Code} (h : c.Scoped 0) {f : Function} (hf : f.body = c.body) {pc : Nat}
    {i : Instr} (hi : f.body[pc]? = some i) :
    ∀ depth ∈ i.depths, depth.toNat ≤ f.openAt pc := by
  have hscoped : Instr.Scoped 0 f.body.toList := by
    rw [hf]
    refine (h.layout 0).append ?_
    rw [openBehind_layout]
    exact ⟨by simp [Instr.depths], trivial⟩
  exact hscoped.getElem? (by rwa [Array.getElem?_toList])

end Code

end Wasm
