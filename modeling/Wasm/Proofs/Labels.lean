import Wasm.Proofs.Limits.Termination
import Wasm.Proofs.Machine.Advance
import Wasm.Proofs.Slots
import Wasm.Proofs.Structured.Nesting

/-!
# Labels follow the nesting

A frame keeps labels of the constructs that it has entered. They are pushed and
popped one at a time, cut off by branches of any depth, and a loop that is gone
back to pushes its own anew. In every state that an instance comes to they are
the labels of the constructs that are open at the position of the frame, so a
branch leaves the function exactly if it goes past all of them.
-/

namespace Wasm

variable {σ : Type}

/-- A construct of the one type takes and leaves what a function of the other
    does. -/
inductive BlockType.Means (m : Module) : BlockType → FuncType → Prop where
  | empty : Means m .empty {}
  | value (t : ValueType) : Means m (.value t) { results := [t] }
  | func {type : UInt32} {t : FuncType} (h : m.types[type.toNat]? = some t) :
      Means m (.func type) t

/-- The label of the construct that starts at `p`: a branch to it goes on behind
    the mark that closes it, with its results, or back to the start of a loop,
    with its parameters. -/
inductive Label.Marks (m : Module) (code p : Nat) : Label → Prop where
  | block {type : BlockType} {t : FuncType} {stop q height : Nat}
      (hp : m.instr? code p = some (.block type stop)) (ht : type.Means m t)
      (hq : m.Closes code p q) :
      Marks m code p
        { kind := .block, target := q + 1, height, arity := t.results.length
          results := t.results.length }
  | loop {type : BlockType} {t : FuncType} {height : Nat}
      (hp : m.instr? code p = some (.loop type)) (ht : type.Means m t) :
      Marks m code p
        { kind := .loop, target := p, height, arity := t.params.length
          results := t.results.length }
  | if_ {type : BlockType} {t : FuncType} {otherwise : Option Nat} {stop q height : Nat}
      (hp : m.instr? code p = some (.if_ type otherwise stop)) (ht : type.Means m t)
      (hq : m.Closes code p q) :
      Marks m code p
        { kind := .if_, target := q + 1, height, arity := t.results.length
          results := t.results.length }

/-- The labels are those of the constructs that are open at the position. -/
def Module.Labelled (m : Module) (code pc : Nat) (labels : List Label) : Prop :=
  List.Forall₂ (Label.Marks m code) (m.enclosing code pc) labels

-- ---------------------------------------------------------------------------
-- Types of constructs
-- ---------------------------------------------------------------------------

theorem BlockType.Means.blockArity {m : Module} {type : BlockType} {t : FuncType}
    (h : type.Means m t) : m.blockArity type = (t.params.length, t.results.length) := by
  cases h with
  | empty | value => rfl
  | func h => rw [Module.blockArity, h]

namespace Module.Indexed

variable {m : Module} {code pc : Nat} {i : Instr}

theorem exists_of_instr (hm : m.Indexed) (hi : m.instr? code pc = some i) :
    ∃ locals, ∀ r ∈ i.references, r.Exists m locals := by
  obtain ⟨f, hf, hpc⟩ := Option.bind_eq_some_iff.mp hi
  obtain ⟨t, _, hindexed⟩ := hm.functions f (Array.mem_of_getElem? hf)
  exact ⟨_, hindexed.references i (Array.mem_of_getElem? hpc)⟩

theorem callTypesExist (hm : m.Indexed) : m.CallTypesExist := by
  intro code pc type table hi
  obtain ⟨locals, hexist⟩ := hm.exists_of_instr hi
  exact hexist ⟨.type, type⟩ List.mem_cons_self

/-- The type that a construct names is there. -/
theorem exists_means (hm : m.Indexed) (hi : m.instr? code pc = some i) {type : BlockType}
    (htype : i.references = type.references) : ∃ t, type.Means m t := by
  obtain ⟨locals, hexist⟩ := hm.exists_of_instr hi
  rw [htype] at hexist
  cases type with
  | empty => exact ⟨_, .empty⟩
  | value t => exact ⟨_, .value t⟩
  | func type =>
    have hlt : type.toNat < m.types.size := hexist ⟨.type, type⟩ List.mem_cons_self
    exact ⟨_, .func (Array.getElem?_eq_getElem hlt)⟩

end Module.Indexed

-- ---------------------------------------------------------------------------
-- Labels of a context
-- ---------------------------------------------------------------------------

namespace Exec

variable {c c' : Context}

theorem labels_enter {m : Module} {type : BlockType} {t : FuncType} (ht : type.Means m t)
    {kind : LabelKind} {target : Nat} {u : Unit}
    (h : enter kind target (m.blockArity type) c = .ok u c') :
    ∃ height, c'.labels =
      { kind, target, height
        arity := if kind = .loop then t.params.length else t.results.length
        results := t.results.length } :: c.labels := by
  simp only [enter, bind_apply, get_apply, ht.blockArity] at h
  split at h
  · cases h
  · cases h
    exact ⟨_, rfl⟩

theorem labels_unwind {height arity : Nat} {u : Unit} (h : unwind height arity c = .ok u c') :
    c'.labels = c.labels := by
  rw [unwind_apply] at h
  split at h
  · cases h
    rfl
  · cases h

theorem labels_close {closed : Bool} (h : close c = .ok closed c') :
    if closed then ∃ label, c.labels = label :: c'.labels else c.labels = [] := by
  obtain ⟨_, _, hget, h⟩ := bind_eq_ok h
  cases hget
  cases hlabels : c.labels with
  | nil =>
    rw [hlabels] at h
    cases h
    rfl
  | cons label rest =>
    rw [hlabels] at h
    obtain ⟨_, _, hset, h⟩ := bind_eq_ok h
    cases hset
    obtain ⟨_, _, hunwind, h⟩ := bind_eq_ok h
    cases h
    exact ⟨label, by rw [labels_unwind hunwind]⟩

theorem labels_branch {depth : Nat} {target : Target} (h : branch depth c = .ok target c') :
    (target = .leave ∧ c.labels[depth]? = none) ∨
      ∃ label, c.labels[depth]? = some label ∧ c'.labels = c.labels.drop (depth + 1) ∧
        (target = .jump label.target ∨ target = .again label.target) := by
  obtain ⟨_, _, hget, h⟩ := bind_eq_ok h
  cases hget
  cases hlabel : c.labels[depth]? with
  | none =>
    rw [hlabel] at h
    cases h
    exact .inl ⟨rfl, rfl⟩
  | some label =>
    rw [hlabel] at h
    obtain ⟨_, _, hunwind, h⟩ := bind_eq_ok h
    cases h
    refine .inr ⟨label, rfl, congrArg _ (labels_unwind hunwind), ?_⟩
    cases label.kind with
    | block | if_ => exact .inl rfl
    | loop => exact .inr rfl

theorem labels_burn {u : Unit} (h : burn c = .ok u c') : c'.labels = c.labels := by
  simp only [burn, bind_apply, get_apply, ofExcept_apply] at h
  cases hburn : c.store.burn with
  | error t =>
    rw [hburn] at h
    cases h
  | ok store =>
    rw [hburn] at h
    cases h
    rfl

theorem Confined.labels_eq {α : Type} {a : Exec α} (ha : Confined a) {x : α}
    (h : a c = .ok x c') : c'.labels = c.labels := by
  have hkept := (ha.kept c).1
  rwa [h] at hkept

end Exec

namespace Operation

open Exec

variable {c c' : Context} {flow : Flow}

/-- A branch leaves the function if it goes past all labels, and goes to one of
    them otherwise. -/
theorem labels_goto {depth : UInt32} (h : Operation.goto depth c = .ok flow c') :
    (flow = .return_ ∧ c.labels[depth.toNat]? = none) ∨
      ∃ label, c.labels[depth.toNat]? = some label ∧ flow = .jump label.target ∧
        c'.labels = c.labels.drop (depth.toNat + 1) := by
  obtain ⟨target, c₁, hbranch, h⟩ := bind_eq_ok h
  rcases labels_branch hbranch with ⟨rfl, hnone⟩ | ⟨label, hsome, hlabels, rfl | rfl⟩
  · cases h
    exact .inl ⟨rfl, hnone⟩
  · cases h
    exact .inr ⟨label, hsome, rfl, hlabels⟩
  · obtain ⟨u, c₂, hburn, h⟩ := bind_eq_ok h
    cases h
    exact .inr ⟨label, hsome, rfl, (labels_burn hburn).trans hlabels⟩

end Operation

-- ---------------------------------------------------------------------------
-- Operations
-- ---------------------------------------------------------------------------

/-- The position that a frame goes on at, or comes back to after a call. -/
def Flow.position? (pc : Nat) : Flow → Option Nat
  | next | call _ => some (pc + 1)
  | jump target => some target
  | return_ => none

namespace Module

variable {m : Module} {code last pc : Nat} {c c' : Context} {flow : Flow}

/-- The frame can go on at a position of the body with these labels. -/
structure Ready (m : Module) (code pc : Nat) (labels : List Label) : Prop where
  valid : (m.instr? code pc).isSome
  labelled : m.Labelled code pc labels

/-- The target of a branch, with the labels that are left. -/
theorem Labelled.branch (h : m.Nested code last) {labels : List Label} {label : Label}
    {depth : Nat} (hlabels : m.Labelled code pc labels) (hlabel : labels[depth]? = some label) :
    m.Ready code label.target (labels.drop (depth + 1)) := by
  obtain ⟨p, hp, hmarks⟩ := Link.getElem?_of_forall₂ hlabels.flip hlabel
  have houter : m.Labelled code p (labels.drop (depth + 1)) := by
    rw [Labelled, enclosing, Format.opened_of_getElem? hp]
    exact List.forall₂_drop _ hlabels
  cases hmarks with
  | loop hloop => exact ⟨by rw [hloop]; rfl, houter⟩
  | block _ _ hcloses | if_ _ _ hcloses =>
    refine ⟨(h.valid _).mpr (h.closes_lt hcloses), ?_⟩
    rw [Labelled, hcloses.enclosing_succ]
    exact houter

theorem Nested.ready_next (h : m.Nested code last) {i : Instr} {labels : List Label}
    (hi : m.instr? code pc = some i) (hlt : pc < last)
    (hlabels : List.Forall₂ (Label.Marks m code)
      (i.token.openedBehind pc (m.enclosing code pc)) labels) :
    m.Ready code (pc + 1) labels := by
  refine ⟨(h.valid _).mpr hlt, ?_⟩
  rw [Labelled, enclosing_succ hi]
  exact hlabels

/-- A position inside a construct that was just entered. -/
theorem Nested.ready_entered (h : m.Nested code last) {label : Label} {labels : List Label}
    {q : Nat} (hq : q ≤ last) (hopen : m.enclosing code q = pc :: m.enclosing code pc)
    (hmarks : label.Marks m code pc) (hlabels : m.Labelled code pc labels) :
    m.Ready code q (label :: labels) := by
  refine ⟨(h.valid _).mpr hq, ?_⟩
  rw [Labelled, hopen]
  exact .cons hmarks hlabels

/-- The operation of an instruction leaves the labels that belong to the position
    where the frame goes on, one case for each form of instruction. -/
theorem Nested.ready (h : m.Nested code last) (hm : m.Indexed) {i : Instr}
    (hi : m.instr? code pc = some i) (hlabels : m.Labelled code pc c.labels)
    (hop : Operation.ofInstr m pc i c = .ok flow c') {q : Nat} (hq : flow.position? pc = some q) :
    m.Ready code q c'.labels := by
  cases i with
  | plain i =>
    have hplain : Operation.ofPlain m i = i.exec m.types >>= Effect.flow :=
      Operation.ofPlain_eq fun type table heq => hm.callTypesExist code pc type table (heq ▸ hi)
    rw [Operation.ofInstr, hplain] at hop
    obtain ⟨effect, c₁, hexec, hop⟩ := Exec.bind_eq_ok hop
    have hkept : c₁.labels = c.labels := (Exec.Confined.plain m.types i).labels_eq hexec
    rw [← hkept] at hlabels
    have hlt : pc < last := by
      rcases h.placed_or_last hi with ⟨hlt, _⟩ | ⟨_, heq⟩
      · exact hlt
      · cases heq
    have hnext : m.Ready code (pc + 1) c₁.labels := h.ready_next hi hlt hlabels
    cases effect with
    | next | call func =>
      cases hop
      cases hq
      exact hnext
    | return_ =>
      cases hop
      cases hq
    | branch depth =>
      rcases Operation.labels_goto hop with ⟨rfl, _⟩ | ⟨label, hlabel, rfl, hdrop⟩
      · cases hq
      · cases hq
        rw [hdrop]
        exact hlabels.branch h hlabel
  | block type stop =>
    obtain ⟨t, ht⟩ := hm.exists_means hi rfl
    obtain ⟨_, c₁, henter, hop⟩ := Exec.bind_eq_ok hop
    obtain ⟨height, hentered⟩ := Exec.labels_enter ht henter
    cases hop
    cases hq
    rcases h.placed_or_last hi with ⟨hlt, hcloses⟩ | ⟨_, heq⟩
    · rw [hentered]
      exact h.ready_entered hlt (enclosing_succ hi) (.block hi ht hcloses) hlabels
    · cases heq
  | loop type =>
    obtain ⟨t, ht⟩ := hm.exists_means hi rfl
    obtain ⟨_, c₁, henter, hop⟩ := Exec.bind_eq_ok hop
    obtain ⟨height, hentered⟩ := Exec.labels_enter ht henter
    cases hop
    cases hq
    rcases h.placed_or_last hi with ⟨hlt, _⟩ | ⟨_, heq⟩
    · rw [hentered]
      exact h.ready_entered hlt (enclosing_succ hi) (.loop hi ht) hlabels
    · cases heq
  | if_ type otherwise stop =>
    obtain ⟨t, ht⟩ := hm.exists_means hi rfl
    obtain ⟨cond, c₁, hpop, hop⟩ := Exec.bind_eq_ok hop
    obtain ⟨_, c₂, henter, hop⟩ := Exec.bind_eq_ok hop
    obtain ⟨height, hentered⟩ := Exec.labels_enter ht henter
    rw [(Exec.Confined.popInt .w32).labels_eq hpop] at hentered
    cases hop
    rcases h.placed_or_last hi with ⟨hlt, hcloses, hmiddle⟩ | ⟨_, heq⟩
    · have hstop := Nat.le_of_lt (h.closes_lt hcloses)
      rw [hentered]
      split at hq
      · cases hq
        exact h.ready_entered hlt (enclosing_succ hi) (.if_ hi ht hcloses) hlabels
      · cases hq
        cases otherwise with
        | none => exact h.ready_entered hstop hcloses.innermost (.if_ hi ht hcloses) hlabels
        | some middle =>
          obtain ⟨hbefore, hopen⟩ := hmiddle middle rfl
          exact h.ready_entered (Nat.le_trans hbefore hstop) hopen (.if_ hi ht hcloses) hlabels
    · cases heq
  | else_ stop =>
    cases hop
    cases hq
    rcases h.placed_or_last hi with ⟨_, p, hcloses, hopen⟩ | ⟨_, heq⟩
    · refine ⟨(h.valid _).mpr (Nat.le_of_lt (h.closes_lt hcloses)), ?_⟩
      rw [Labelled, hcloses.innermost, ← hopen]
      exact hlabels
    · cases heq
  | end_ =>
    obtain ⟨closed, c₁, hclose, hop⟩ := Exec.bind_eq_ok hop
    have hclosed := Exec.labels_close hclose
    cases closed with
    | false =>
      cases hop
      cases hq
    | true =>
      cases hop
      cases hq
      obtain ⟨label, hcons⟩ := hclosed
      rw [Labelled, hcons] at hlabels
      have hlt : pc < last := by
        rcases h.placed_or_last hi with ⟨hlt, _⟩ | ⟨rfl, _⟩
        · exact hlt
        · rw [h.enclosing_last] at hlabels
          cases hlabels
      refine h.ready_next hi hlt ?_
      cases hopen : m.enclosing code pc with
      | nil =>
        rw [hopen] at hlabels
        cases hlabels
      | cons p outer =>
        rw [hopen] at hlabels
        exact (List.forall₂_cons.mp hlabels).2

end Module

-- ---------------------------------------------------------------------------
-- Machines
-- ---------------------------------------------------------------------------

/-- The frame runs its function, at a position of the body and with the labels
    that belong there. -/
def Frame.Follows (m : Module) (funcs : Array FuncInst) (frame : Frame) : Prop :=
  ∃ type code, funcs[frame.func.toNat]? = some (.defined type code) ∧
    frame.code.Of m code ∧ m.Ready code frame.pc frame.labels

/-- The defined functions have nested bodies. -/
def Module.NestsAll (m : Module) (funcs : Array FuncInst) : Prop :=
  ∀ type code, .defined type code ∈ funcs → ∃ last, m.Nested code last

section

variable {env : Env σ} {funcs : Array FuncInst} {m n : Machine σ} {func : UInt32}

theorem Run.Called.follows (h : Run.Called env func m n) (hall : env.module.NestsAll funcs)
    (hfuncs : n.store.funcs = funcs) (hframes : ∀ f ∈ m.frames, f.Follows env.module funcs) :
    ∀ f ∈ n.frames, f.Follows env.module funcs := by
  cases h with
  | host => exact hframes
  | @defined type code _ _ _ hfunc _ hcode =>
    refine List.forall_mem_cons.mpr ⟨⟨type, code, hfuncs ▸ hfunc, hcode, ?_, .nil⟩, hframes⟩
    obtain ⟨last, hnested⟩ := hall type code (hfuncs ▸ Array.mem_of_getElem? hfunc)
    exact (hnested.valid 0).mpr (Nat.zero_le _)

/-- A step keeps the labels of all frames where they belong. -/
theorem Run.step_keeps_labels (henv : env.module.Indexed)
    (hall : env.module.NestsAll funcs) (hcache : m.cache.Coherent env.module)
    (hfuncs : n.store.funcs = funcs) (hframes : ∀ f ∈ m.frames, f.Follows env.module funcs)
    (h : Run.step env m = .ok () n) : ∀ f ∈ n.frames, f.Follows env.module funcs := by
  cases hcons : m.frames with
  | nil =>
    rw [step_nil hcons] at h
    cases h
    exact hframes
  | cons frame rest =>
    obtain ⟨hframe, hrest⟩ := List.forall_mem_cons.mp (hcons ▸ hframes)
    obtain ⟨type, code, hfunc, hcode, hready⟩ := hframe
    obtain ⟨last, hnested⟩ := hall type code (Array.mem_of_getElem? hfunc)
    obtain ⟨i, hi⟩ := Option.isSome_iff_exists.mp hready.valid
    obtain ⟨flow, c, hahead, hfollow⟩ := step_follows henv.callTypesExist hcons hcode h
    have hop := ahead?_eq_some hcons hcode hi hahead
    have hmoved : ∀ q, flow.position? frame.pc = some q →
        ∀ f ∈ ((m.resume frame rest c).goto q).frames, f.Follows env.module funcs := by
      intro q hq
      refine List.forall_mem_cons.mpr ⟨⟨type, code, hfunc, hcode, ?_⟩, hrest⟩
      exact hnested.ready henv hi hready.labelled hop hq
    cases flow with
    | next | jump =>
      rw [follow, goto_apply] at hfollow
      cases hfollow
      exact hmoved _ rfl
    | call func => exact (called_of_follow hcache hfollow).follows hall hfuncs (hmoved _ rfl)
    | return_ =>
      obtain ⟨hpopped, _⟩ := leave_eq_ok rfl hfollow
      rw [hpopped]
      exact hrest

theorem Machine.Move.keeps_labels (henv : env.module.Indexed)
    (hall : env.module.NestsAll funcs) (hcache : m.cache.Coherent env.module)
    (hfuncs : n.store.funcs = funcs) (hframes : ∀ f ∈ m.frames, f.Follows env.module funcs)
    (h : Move env m n) : ∀ f ∈ n.frames, f.Follows env.module funcs := by
  cases h with
  | call _ h => exact (Run.call_eq_ok hcache h).follows hall hfuncs hframes
  | step h => exact Run.step_keeps_labels henv hall hcache hfuncs hframes h
  | callFault | stepFault | giveUp => exact List.forall_mem_nil _
  | arguments | write | refuel | elsewhere => exact hframes

theorem Machine.Leads.keeps_labels (hhosts : ∀ f ∈ env.hosts, f.SparesFuncs)
    (henv : env.module.Indexed) (hall : env.module.NestsAll m.store.funcs)
    (hm : m.outline.Sourced env.module) (hframes : m.frames = []) (h : Leads env m n) :
    ∀ f ∈ n.frames, f.Follows env.module m.store.funcs := by
  induction h with
  | refl =>
    rw [hframes]
    exact List.forall_mem_nil _
  | tail hleads hmove ih =>
    have hcache := (Leads.sourced hleads hm).cache
    have hfuncs := Leads.funcs hhosts hm (hleads.tail hmove)
    exact hmove.keeps_labels henv hall hcache hfuncs ih

end

-- ---------------------------------------------------------------------------
-- Branches
-- ---------------------------------------------------------------------------

namespace Plain

/-- The depth of the branch that the instruction takes on these operands, if it
    takes one. -/
def taken? (stack : List Value) : Plain → Option UInt32
  | br depth => some depth
  | brIf depth =>
    match stack with
    | .i32 cond :: _ => if cond = 0 then none else some depth
    | _ => none
  | brTable targets default =>
    match stack with
    | .i32 index :: _ => some (tableDepth targets default index)
    | _ => none
  | _ => none

theorem mem_depths_of_taken {i : Plain} {stack : List Value} {depth : UInt32}
    (h : i.taken? stack = some depth) : depth ∈ i.depths := by
  cases i with
  | br d =>
    cases h
    exact List.mem_singleton_self _
  | brIf d =>
    simp only [taken?] at h
    split at h
    · split at h
      · cases h
      · cases h
        exact List.mem_singleton_self _
    · cases h
  | brTable targets default =>
    simp only [taken?] at h
    split at h
    · cases h
      rename_i index _
      rw [depths, List.mem_append, List.mem_singleton, tableDepth]
      cases hget : targets[index.toNat]? with
      | none => exact .inr rfl
      | some d => exact .inl (Array.mem_toList_iff.mpr (Array.mem_of_getElem? hget))
    · cases h
  | _ => cases h

/-- What an instruction that names depths announces. -/
theorem exec_of_depths {i : Plain} (hi : i.depths ≠ []) {types : Array FuncType}
    {c c' : Context} {effect : Effect} (h : i.exec types c = .ok effect c') :
    effect = (i.taken? c.stack).elim .next .branch := by
  cases i with
  | br depth =>
    cases h
    rfl
  | brIf depth =>
    obtain ⟨cond, c₁, hpop, h⟩ := Exec.bind_eq_ok h
    simp only [(Exec.popInt_eq_ok hpop).1, taken?]
    split at h
    · rename_i hzero
      cases h
      rw [if_pos hzero]
      rfl
    · rename_i hnonzero
      cases h
      rw [if_neg hnonzero]
      rfl
  | brTable targets default =>
    obtain ⟨index, c₁, hpop, h⟩ := Exec.bind_eq_ok h
    simp only [(Exec.popInt_eq_ok hpop).1, taken?]
    cases h
    rfl
  | _ => exact absurd rfl hi

end Plain

/-- A branch leaves the function if its depth is the number of labels, and in no
    other case. -/
theorem Run.step_branch {env : Env σ} {m n : Machine σ} {frame : Frame} {rest : List Frame}
    {code : Nat} {i : Plain} (htypes : env.module.CallTypesExist)
    (hframes : m.frames = frame :: rest) (hcode : frame.code.Of env.module code)
    (hi : env.module.instr? code frame.pc = some (.plain i)) (hdepths : i.depths ≠ [])
    (hbound : ∀ depth ∈ i.depths, depth.toNat ≤ frame.labels.length)
    (h : Run.step env m = .ok () n) :
    n.frames = rest ↔ ∃ depth, i.taken? m.stack = some depth ∧
      depth.toNat = frame.labels.length := by
  obtain ⟨flow, c, hahead, hfollow⟩ := step_follows htypes hframes hcode h
  have hop := ahead?_eq_some hframes hcode hi hahead
  have hplain : Operation.ofPlain env.module i = i.exec env.module.types >>= Effect.flow :=
    Operation.ofPlain_eq fun type table heq => htypes code frame.pc type table (heq ▸ hi)
  rw [Operation.ofInstr, hplain] at hop
  obtain ⟨effect, c₁, hexec, hop⟩ := Exec.bind_eq_ok hop
  have hkept : c₁.labels = frame.labels :=
    (Exec.Confined.plain env.module.types i).labels_eq hexec
  have heffect : effect = (i.taken? m.stack).elim .next .branch :=
    Plain.exec_of_depths hdepths hexec
  cases htaken : i.taken? m.stack with
  | none =>
    rw [heffect, htaken] at hop
    cases hop
    rw [follow, goto_apply] at hfollow
    cases hfollow
    exact iff_of_false (List.cons_ne_self _ _) (by simp)
  | some depth =>
    have hle := hbound depth (Plain.mem_depths_of_taken htaken)
    rw [heffect, htaken] at hop
    rcases Operation.labels_goto hop with ⟨rfl, hnone⟩ | ⟨label, hsome, rfl, _⟩
    · rw [hkept, List.getElem?_eq_none_iff] at hnone
      exact iff_of_true (leave_eq_ok rfl hfollow).1 ⟨depth, rfl, Nat.le_antisymm hle hnone⟩
    · rw [hkept] at hsome
      have hlt := (List.getElem?_eq_some_iff.mp hsome).1
      rw [follow, goto_apply] at hfollow
      cases hfollow
      refine iff_of_false (List.cons_ne_self _ _) ?_
      rintro ⟨_, heq, hlast⟩
      cases heq
      exact absurd hlast (Nat.ne_of_lt hlt)

/-- Whatever the imports, the settings and the calls are: in every state that an
    instance of a module comes to, each frame stands at an instruction of its
    function, and its labels are those of the constructs that are open there,
    innermost first. So no branch that it comes to goes further than past all of
    them, and one that goes this far is the only kind that leaves the
    function. -/
theorem Module.labels_nested {bytes : List UInt8} {m : Module}
    (hread : Format.decode bytes = .ok m) {imports : Imports σ} {config : Config}
    {linked : Link.Linked σ} (hlink : m.link imports config = .ok linked)
    (hhosts : ∀ f ∈ linked.hosts, f.SparesFuncs) {called : List Nat} {host : σ}
    {n : Machine σ} :
    let env : Env σ := { module := m, hosts := linked.hosts, config }
    Machine.Leads env { cache := .filled m called, host, store := linked.store } n →
      (∀ frame ∈ n.frames, ∃ type code f,
        n.store.funcs[frame.func.toNat]? = some (.defined type code) ∧
        m.functions[code]? = some f ∧ frame.code.Of m code ∧ frame.pc < f.body.size ∧
        (m.enclosing code frame.pc).Pairwise (· > ·) ∧
        (∀ p, p ∈ m.enclosing code frame.pc ↔
          ∃! q, m.Closes code p q ∧ p < frame.pc ∧ frame.pc ≤ q) ∧
        List.Forall₂ (Label.Marks m code) (m.enclosing code frame.pc) frame.labels) ∧
      ∀ frame rest type code i, n.frames = frame :: rest →
        n.store.funcs[frame.func.toNat]? = some (.defined type code) →
        m.instr? code frame.pc = some (.plain i) → i.depths ≠ [] →
        (∀ depth, i.taken? n.stack = some depth → depth.toNat ≤ frame.labels.length) ∧
        ∀ n', Run.step env n = .ok () n' →
          (n'.frames = rest ↔ ∃ depth, i.taken? n.stack = some depth ∧
            depth.toNat = frame.labels.length) := by
  intro env hleads
  have hm := Format.indexed_of_decode hread
  have hbodies := (Format.parse_readable (Format.decode_eq_ok_iff.mp hread).1).bodies
  have hall : m.NestsAll linked.store.funcs := by
    intro type code hmem
    obtain ⟨f, hf⟩ := Module.functions_link hlink type code hmem
    obtain ⟨c, hbody, _⟩ := hbodies f (Array.mem_of_getElem? hf)
    exact ⟨c.size, Module.nested_of_body hf hbody⟩
  have hstart := Machine.sourced_filled m called
  have hfuncs : n.store.funcs = linked.store.funcs := hleads.funcs hhosts hstart
  have hfollows := hleads.keeps_labels hhosts hm hall hstart rfl
  constructor
  · intro frame hframe
    obtain ⟨type, code, hfunc, hcode, hvalidPc, hlabels⟩ := hfollows frame hframe
    obtain ⟨last, hnested⟩ := hall type code (Array.mem_of_getElem? hfunc)
    obtain ⟨f, hf⟩ := Module.functions_link hlink type code (Array.mem_of_getElem? hfunc)
    refine ⟨type, code, f, hfuncs ▸ hfunc, hf, hcode, ?_, Format.opened_sorted _ frame.pc,
      fun p => hnested.mem_enclosing_iff, hlabels⟩
    have hvalidPc : (m.instr? code frame.pc).isSome := hvalidPc
    simpa [Module.instr?, hf] using hvalidPc
  · intro frame rest type code i hframes hfunc hi hdepths
    obtain ⟨type', code', hfunc', hcode, _, hlabels⟩ :=
      hfollows frame (hframes ▸ List.mem_cons_self)
    rw [hfuncs, hfunc'] at hfunc
    cases hfunc
    obtain ⟨f, hf⟩ := Module.functions_link hlink type code (Array.mem_of_getElem? hfunc')
    have hbound : ∀ depth ∈ i.depths, depth.toNat ≤ frame.labels.length := by
      obtain ⟨t, _, hindexed⟩ := hm.functions f (Array.mem_of_getElem? hf)
      have hget : f.body[frame.pc]? = some (.plain i) := by simpa [Module.instr?, hf] using hi
      have hopen := hindexed.branches frame.pc _ hget
      rw [← Module.length_enclosing hf, hlabels.length_eq] at hopen
      exact hopen
    refine ⟨fun depth htaken => hbound depth (Plain.mem_depths_of_taken htaken), ?_⟩
    intro n' hstep
    exact Run.step_branch hm.callTypesExist hframes hcode hi hdepths hbound hstep

/-- An instance of `countdown` that was not used yet. -/
def countdownLinked : Link.Linked Nat where
  store := { (countdownIdle none).store with pageLimit := 65536 }
  hosts := #[tick]

theorem link_countdown : countdown.link ticks {} = .ok countdownLinked := by
  with_unfolding_all rfl

/-- Through the loop of `countdown` up to where it goes back. -/
theorem countdown_labels_nested :
    Format.decode countdownBytes = .ok countdown ∧
      countdown.link ticks {} = .ok countdownLinked ∧
      let env : Env Nat := { module := countdown, hosts := #[tick], config := {} }
      let start : Machine Nat :=
        { cache := .filled countdown [], host := 0, store := countdownLinked.store }
      let trail := (Request.invoke "run" [.i32 2]).trail env 8 start
      trail.length = 9 ∧ ∀ n ∈ trail, ∀ frame ∈ n.frames, ∃ code f,
        countdown.functions[code]? = some f ∧ frame.pc < f.body.size ∧
        List.Forall₂ (Label.Marks countdown code) (countdown.enclosing code frame.pc)
          frame.labels := by
  have hhosts : ∀ f ∈ countdownLinked.hosts, f.SparesFuncs := by
    simp [countdownLinked, HostFunc.SparesFuncs, tick_sparesSlots.funcs]
  refine ⟨decode_countdown, link_countdown, ?_⟩
  intro env start trail
  refine ⟨by decide +kernel, fun n hn frame hframe => ?_⟩
  have hleads : Machine.Leads env start n := Machine.leads_requestTrail rfl 8 _ n hn
  obtain ⟨_, code, f, _, hf, _, hpc, _, _, hlabels⟩ :=
    (Module.labels_nested decode_countdown link_countdown hhosts hleads).1 frame hframe
  exact ⟨code, f, hf, hpc, hlabels⟩

end Wasm
