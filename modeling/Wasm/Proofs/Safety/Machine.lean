import Wasm.Proofs.Machine.Actions
import Wasm.Proofs.Safety.Context
import Wasm.Proofs.Safety.Demand

/-!
# Sound machines

The invariant of a machine that runs a valid module: its functions and globals
are those the module was checked against, every frame has the locals of its
function, and the heights and arities on record are small. A step from such a
machine leaves such a machine or traps; it never misses an entry.
-/

namespace Wasm

variable {σ α β : Type}

-- ---------------------------------------------------------------------------
-- Types of values
-- ---------------------------------------------------------------------------

namespace Value

@[simp] theorem type_zero (t : ValueType) : (zero t).type = t := by
  cases t <;> rfl

/-- As many values as types pass the check if they have them. -/
theorem map_type_of_checkTypes {vs : List Value} {ts : List ValueType}
    (hlength : vs.length = ts.length) (h : checkTypes vs ts = .ok ()) : vs.map type = ts := by
  induction vs generalizing ts with
  | nil => exact (List.length_eq_zero_iff.mp hlength.symm).symm
  | cons v vs ih =>
    cases ts with
    | nil => cases hlength
    | cons t ts =>
      unfold checkTypes at h
      split at h
      · rename_i htype
        rw [List.map_cons, htype, ih (Nat.succ.inj hlength) h]
      · cases h

end Value

-- ---------------------------------------------------------------------------
-- The invariant
-- ---------------------------------------------------------------------------

/-- Arities, positions and lengths fit 32 bits. -/
structure Module.Sized (m : Module) : Prop where
  types : ∀ t ∈ m.types, t.params.length < UInt32.size ∧ t.results.length < UInt32.size
  positions : ∀ f ∈ m.functions, f.body.size ≤ UInt32.size ∧
    ∀ i ∈ f.body, ∀ p ∈ i.positions, p < UInt32.size
  elements : ∀ e ∈ m.elements, e.funcs.length < UInt32.size
  data : ∀ d ∈ m.data, d.bytes.length < UInt32.size

theorem Module.Sized.blockArity {m : Module} (h : m.Sized) (type : BlockType) :
    (m.blockArity type).1 < UInt32.size ∧ (m.blockArity type).2 < UInt32.size := by
  have hzero : 0 < UInt32.size := by decide
  have hone : 1 < UInt32.size := by decide
  cases type with
  | empty => exact ⟨hzero, hzero⟩
  | value t => exact ⟨hzero, hone⟩
  | func index =>
    cases ht : m.types[index.toNat]? with
    | none =>
      simp only [Module.blockArity, ht]
      exact ⟨hzero, hzero⟩
    | some t =>
      simp only [Module.blockArity, ht]
      exact h.types t (Array.mem_of_getElem? ht)

structure Store.Sound (env : Env σ) (s : Store) : Prop where
  hosts : ∀ {type : FuncType} {module name : String} {slot : Nat},
    .host type module name slot ∈ s.funcs → slot < env.hosts.size
  defined : ∀ {type : FuncType} {code : Nat}, .defined type code ∈ s.funcs →
    ∃ f, env.module.functions[code]? = some f ∧ env.module.types[f.type.toNat]? = some type
  globals : env.module.globalTypes.size ≤ s.globals.size
  pageLimit : s.pageLimit < UInt32.size

structure Label.Within (H : Nat) (label : Label) : Prop where
  height : label.height ≤ H
  arity : label.arity < UInt32.size
  results : label.results < UInt32.size

/-- The frame runs the body of its function. -/
structure Frame.Sound (env : Env σ) (H : Nat) (funcs : Array FuncInst) (frame : Frame) : Prop where
  runs : ∃ type code f, funcs[frame.func.toNat]? = some (.defined type code) ∧
    env.module.functions[code]? = some f ∧ frame.code = .body code ∧
    frame.locals.size = type.params.length + f.locals.size
  height : frame.height ≤ H
  arity : frame.arity < UInt32.size
  labels : ∀ label ∈ frame.labels, label.Within H

/-- No more than `H` operands are below any frame or block. -/
structure Machine.Sound (env : Env σ) (H : Nat) (m : Machine σ) : Prop where
  store : m.store.Sound env
  depth : m.depth = m.frames.length
  frames : ∀ frame ∈ m.frames, frame.Sound env H m.store.funcs

/-- A host function that leaves functions alone and takes no globals away. -/
def HostFunc.Tame (f : HostFunc σ) : Prop :=
  ∀ args (s : Store) state, (f.call args s state).store.funcs = s.funcs ∧
    s.globals.size ≤ (f.call args s state).store.globals.size ∧
    (s.pageLimit < UInt32.size → (f.call args s state).store.pageLimit < UInt32.size)

/-- What a run in the environment may rely on. -/
structure Env.Sound (env : Env σ) : Prop where
  valid : Validity.check env.module = .ok ()
  sized : env.module.Sized
  hosts : ∀ f ∈ env.hosts, f.Tame
  maxCallDepth : env.config.maxCallDepth < UInt64.size

-- ---------------------------------------------------------------------------
-- Stores and frames
-- ---------------------------------------------------------------------------

theorem Store.Sound.of_kept {env : Env σ} {s s' : Store} (h : s.Sound env)
    (hfuncs : s'.funcs = s.funcs) (hglobals : s.globals.size ≤ s'.globals.size)
    (hpages : s'.pageLimit < UInt32.size) : s'.Sound env where
  hosts hf := h.hosts (hfuncs ▸ hf)
  defined hf := h.defined (hfuncs ▸ hf)
  globals := Nat.le_trans h.globals hglobals
  pageLimit := hpages

/-- The instructions of a sound frame were checked against its locals. -/
theorem Frame.Sound.checked {env : Env σ} {H : Nat} {s : Store} {frame : Frame}
    (hframe : frame.Sound env H s.funcs) (henv : env.Sound) (hstore : s.Sound env) :
    ∃ type code, s.funcs[frame.func.toNat]? = some (.defined type code) ∧
      frame.code = .body code ∧ ∀ pc i, env.module.instr? code pc = some i →
        Validity.instr env.module frame.locals.size i = .ok () := by
  obtain ⟨type, code, f, hfunc, hf, hcode, hlocals⟩ := hframe.runs
  refine ⟨type, code, hfunc, hcode, fun pc i hi => ?_⟩
  obtain ⟨g, t, hg, ht, hcheck⟩ := Validity.instr_ok henv.valid hi
  obtain ⟨f', hf', htype⟩ := hstore.defined (Array.mem_of_getElem? hfunc)
  have hfg : g = f := Option.some.inj (hg.symm.trans hf)
  have hff' : f' = f := Option.some.inj (hf'.symm.trans hf)
  subst hfg hff'
  have htt : t = type := Option.some.inj (ht.symm.trans htype)
  subst htt
  rwa [hlocals]

namespace Machine

variable {env : Env σ} {H : Nat} {m : Machine σ}

/-- The result of an action that left a sound machine, or trapped with the
    store still sound. -/
def Lands (env : Env σ) (H : Nat) : EStateM.Result Fault (Machine σ) α → Prop
  | .ok _ m => m.Sound env H
  | .error e m => (∃ t, e = .trap t) ∧ m.store.Sound env

theorem Sound.resume {frame : Frame} {rest : List Frame} (h : m.Sound env H)
    (hframes : m.frames = frame :: rest) {c : Context}
    (hkept : (m.context frame).Kept c) : (m.resume frame rest c).Sound env H := by
  have hframe := h.frames frame (by simp [hframes])
  have hfuncs : c.store.funcs = m.store.funcs := hkept.funcs
  refine ⟨?_, ?_, ?_⟩
  · refine h.store.of_kept hfuncs (Nat.le_of_eq hkept.globals.symm) ?_
    exact hkept.pageLimit ▸ h.store.pageLimit
  · rw [show (m.resume frame rest c).depth = m.depth from rfl, h.depth, hframes]
    rfl
  · intro g hg
    rw [show (m.resume frame rest c).store.funcs = m.store.funcs from hfuncs]
    rcases List.mem_cons.mp hg with rfl | hg
    · refine ⟨?_, hframe.height, hframe.arity, fun label hl => ?_⟩
      · obtain ⟨type, code, f, hfunc, hf, hcode, hlocals⟩ := hframe.runs
        exact ⟨type, code, f, hfunc, hf, hcode, hkept.locals.trans hlocals⟩
      · exact hframe.labels label (hkept.labels hl)
    · exact h.frames g (by simp [hframes, hg])

theorem Sound.goto (h : m.Sound env H) (pc : Nat) : (m.goto pc).Sound env H := by
  obtain ⟨shared, store, stack, frames, depth, origin⟩ := m
  cases frames with
  | nil => exact h
  | cons frame rest =>
    refine ⟨h.store, h.depth, ?_⟩
    intro g hg
    rcases List.mem_cons.mp hg with rfl | hg
    · have hframe := h.frames frame List.mem_cons_self
      exact ⟨hframe.runs, hframe.height, hframe.arity, hframe.labels⟩
    · exact h.frames g (List.mem_cons_of_mem _ hg)

end Machine

namespace Run

open Machine (Lands)
open Exec (Steady)

variable {env : Env σ} {H : Nat} {m : Machine σ}

/-- Whatever the number of operands, a sound machine stays sound. -/
def Keeps (env : Env σ) (H : Nat) (a : Run σ α) : Prop :=
  ∀ m, m.Sound env H → Lands env H (a m)

theorem Keeps.bind {a : Run σ α} {f : α → Run σ β} (ha : Keeps env H a)
    (hf : ∀ x, Keeps env H (f x)) : Keeps env H (a >>= f) := by
  intro m hm
  have ham := ha m hm
  rw [bind_apply]
  cases hresult : a m with
  | error e m' =>
    rw [hresult] at ham
    exact ham
  | ok x m' =>
    rw [hresult] at ham
    exact hf x m' ham

theorem keeps_pure (x : α) : Keeps env H (pure x : Run σ α) := fun _ hm => hm

theorem keeps_goto (pc : Nat) : Keeps (σ := σ) env H (goto pc) := by
  intro m hm
  rw [goto_apply]
  exact hm.goto pc

/-- Going on after an action in the innermost frame. -/
theorem inFrame_bind_lands {locals n : Nat} {a : Exec α} {f : α → Run σ β}
    (ha : Steady locals env.module.globalTypes.size n a) (hm : m.Sound env H)
    (hlocals : ∀ frame ∈ m.frames.head?, locals ≤ frame.locals.size)
    (hf : ∀ x (m' : Machine σ), m'.Sound env H → m'.stack.length ≤ m.stack.length + n →
      Lands env H (f x m')) :
    Lands env H ((inFrame a >>= f) m) := by
  rw [bind_apply]
  unfold inFrame
  cases hframes : m.frames with
  | nil => exact ⟨⟨_, rfl⟩, hm.store⟩
  | cons frame rest =>
    have hc := ha (m.context frame) (hlocals frame (by simp [hframes])) hm.store.globals
    dsimp only
    cases haction : a (m.context frame) with
    | error e c =>
      rw [haction] at hc
      exact ⟨hc.1, (hm.resume hframes hc.2).store⟩
    | ok x c =>
      rw [haction] at hc
      exact hf x _ (hm.resume hframes hc.1) hc.2

/-- An action that names no local. -/
theorem keeps_inFrame {n : Nat} {a : Exec α} (ha : Steady 0 env.module.globalTypes.size n a) :
    Keeps (σ := σ) env H (inFrame a) := by
  intro m hm
  have h := inFrame_bind_lands (f := fun x => (pure x : Run σ α)) ha hm
    (fun frame _ => Nat.zero_le _) fun x m' hm' _ => hm'
  rwa [bind_pure] at h

theorem keeps_leave : Keeps (σ := σ) env H leave := by
  intro m hm
  unfold leave
  simp only [bind_apply, get_apply]
  cases hframes : m.frames with
  | nil => exact ⟨⟨_, rfl⟩, hm.store⟩
  | cons frame rest =>
    simp only [bind_apply, set_apply]
    have hdepth : m.depth - 1 = rest.length := by
      rw [hm.depth, hframes]
      rfl
    have hrest : ∀ g ∈ rest, g.Sound env H m.store.funcs := fun g hg =>
      hm.frames g (by simp [hframes, hg])
    cases Exec.unwound m.stack frame.height frame.arity with
    | error t => exact ⟨⟨t, rfl⟩, hm.store⟩
    | ok stack => exact ⟨hm.store, hdepth, hrest⟩

theorem keeps_branch (depth : UInt32) : Keeps (σ := σ) env H (branch depth) := by
  refine (keeps_inFrame (Exec.steady_branch depth.toNat)).bind fun target => ?_
  cases target with
  | jump pc => exact keeps_goto pc
  | again pc => exact (keeps_goto pc).bind fun _ => keeps_inFrame Exec.steady_burn
  | leave => exact keeps_leave

-- ---------------------------------------------------------------------------
-- Calls
-- ---------------------------------------------------------------------------

theorem Lands.blaming {a : Run σ α} (func : UInt32) (h : Lands env H (a m)) :
    Lands env H (Run.blaming func a m) := by
  cases hresult : a m with
  | ok x m' =>
    rw [blaming_ok hresult]
    rwa [hresult] at h
  | error e m' =>
    rw [blaming_error hresult]
    rwa [hresult] at h

/-- Arguments are popped also if they have a wrong type. -/
theorem takeArgs_cases (params : List ValueType) (m : Machine σ) :
    (∃ args, takeArgs params m = .ok args { m with stack := m.stack.drop params.length } ∧
      args.map Value.type = params) ∨
    ∃ t stack, takeArgs params m = .error (.trap t) { m with stack } := by
  unfold takeArgs
  simp only [bind_apply, get_apply]
  split
  · exact .inr ⟨_, m.stack, rfl⟩
  · rename_i henough
    have hlength : (m.stack.take params.length).reverse.length = params.length := by
      rw [List.length_reverse, List.length_take, Nat.min_eq_left (Nat.le_of_not_lt henough)]
    simp only [set_apply, bind_apply]
    cases hcheck : Value.checkTypes (m.stack.take params.length).reverse params with
    | error t => exact .inr ⟨t, _, rfl⟩
    | ok u => exact .inl ⟨_, rfl, Value.map_type_of_checkTypes hlength hcheck⟩

theorem callHost_lands (henv : env.Sound) (hm : m.Sound env H) {func : UInt32} {type : FuncType}
    {module name : String} {slot : Nat} (hslot : slot < env.hosts.size) :
    Lands env H (callHost env func type module name slot m) := by
  refine Lands.blaming func ?_
  rw [Array.getElem?_eq_getElem hslot]
  dsimp only
  rcases takeArgs_cases type.params m with ⟨args, hargs, _⟩ | ⟨t, stack, hargs⟩
  · rw [bind_ok hargs]
    obtain ⟨hfuncs, hglobals, hpages⟩ :=
      henv.hosts env.hosts[slot] (Array.getElem_mem hslot) args m.store m.host
    have hstore : (env.hosts[slot].call args m.store m.host).store.Sound env :=
      hm.store.of_kept hfuncs hglobals (hpages hm.store.pageLimit)
    simp only [bind_apply, get_apply, set_apply]
    cases checkReply type module name (env.hosts[slot].call args m.store m.host).result with
    | error t => exact ⟨⟨t, rfl⟩, hstore⟩
    | ok results => exact ⟨hstore, hm.depth, hfuncs ▸ hm.frames⟩
  · rw [bind_error hargs]
    exact ⟨⟨t, rfl⟩, hm.store⟩

theorem takeLocals_cases (env : Env σ) (type : FuncType) (code : Nat) (m : Machine σ) :
    (∃ locals, takeLocals env type code m =
        .ok locals { m with stack := m.stack.drop type.params.length } ∧
      locals.toList.map Value.type =
        type.params ++ ((env.module.functions[code]?.map (·.locals)).getD #[]).toList) ∨
    ∃ t stack, takeLocals env type code m = .error (.trap t) { m with stack } := by
  unfold takeLocals
  simp only [bind_apply, get_apply]
  split
  · exact .inr ⟨_, m.stack, rfl⟩
  · rcases takeArgs_cases type.params m with ⟨args, hargs, htypes⟩ | ⟨t, stack, hargs⟩
    · rw [bind_ok hargs]
      exact .inl ⟨_, rfl, by simp [htypes, Function.comp_def]⟩
    · rw [bind_error hargs]
      exact .inr ⟨t, stack, rfl⟩

/-- A function of the store that is not one of the host has its code in the
    module. -/
theorem enter_lands (henv : env.Sound) (hcompile : env.config.compile = false)
    (hm : m.Sound env H) (hstack : m.stack.length ≤ H) {func : UInt32} {type : FuncType}
    {code : Nat} (hfunc : m.store.funcs[func.toNat]? = some (.defined type code)) :
    Lands env H (enter env func type code m) := by
  obtain ⟨f, hf, htype⟩ := hm.store.defined (Array.mem_of_getElem? hfunc)
  have harity := (henv.sized.types type (Array.mem_of_getElem? htype)).2
  unfold enter
  rcases takeLocals_cases env type code m with ⟨locals, hlocals, htypes⟩ | ⟨t, stack, hlocals⟩
  · rw [bind_ok (blaming_ok hlocals func)]
    simp only [bind_apply, frameCode, hcompile, Bool.false_eq_true, if_false, pure_apply,
      modify_apply]
    refine ⟨hm.store, by rw [List.length_cons, hm.depth], fun frame hframe => ?_⟩
    rcases List.mem_cons.mp hframe with rfl | hframe
    · refine ⟨⟨type, code, f, hfunc, hf, rfl, ?_⟩, ?_, harity, by simp⟩
      · simpa [hf] using congrArg List.length htypes
      · simp only [List.length_drop]
        omega
    · exact hm.frames frame hframe
  · rw [bind_error (blaming_error hlocals func)]
    exact ⟨⟨t, rfl⟩, hm.store⟩

theorem call_lands (henv : env.Sound) (hcompile : env.config.compile = false)
    (hm : m.Sound env H) (hstack : m.stack.length ≤ H) (func : UInt32) :
    Lands env H (call env func m) := by
  unfold call
  simp only [bind_apply, get_apply]
  cases hfunc : m.store.funcs[func.toNat]? with
  | none => exact ⟨⟨_, rfl⟩, hm.store⟩
  | some f =>
    cases f with
    | host type module name slot =>
      exact callHost_lands henv hm (hm.store.hosts (Array.mem_of_getElem? hfunc))
    | defined type code => exact enter_lands henv hcompile hm hstack hfunc

-- ---------------------------------------------------------------------------
-- Instructions
-- ---------------------------------------------------------------------------

theorem enterBlock_lands (hm : m.Sound env H) (hstack : m.stack.length ≤ H) (kind : LabelKind)
    (target : Nat) {arity : Nat × Nat}
    (harity : arity.1 < UInt32.size ∧ arity.2 < UInt32.size) :
    Lands env H (inFrame (Exec.enter kind target arity) m) := by
  unfold inFrame
  cases hframes : m.frames with
  | nil => exact ⟨⟨_, rfl⟩, hm.store⟩
  | cons frame rest =>
    have hframe := hm.frames frame (by simp [hframes])
    dsimp only
    rcases Exec.enter_cases kind target arity (m.context frame) with henter | henter
    · rw [henter]
      exact ⟨⟨_, rfl⟩, hm.store⟩
    · rw [henter]
      refine ⟨hm.store, ?_, fun g hg => ?_⟩
      · rw [show (m.resume frame rest _).depth = m.depth from rfl, hm.depth, hframes]
        rfl
      · rcases List.mem_cons.mp hg with rfl | hg
        · refine ⟨hframe.runs, hframe.height, hframe.arity, fun label hl => ?_⟩
          rcases List.mem_cons.mp hl with rfl | hl
          · refine ⟨?_, ?_, harity.2⟩
            · exact Nat.le_trans (Nat.sub_le _ _) hstack
            · dsimp only
              split
              · exact harity.1
              · exact harity.2
          · exact hframe.labels label hl
        · exact hm.frames g (by simp [hframes, hg])

theorem interpret_lands (henv : env.Sound) (hcompile : env.config.compile = false)
    (hm : m.Sound env H) (hstack : m.stack.length < H) {frame : Frame} {rest : List Frame}
    (hframes : m.frames = frame :: rest) {i : Instr}
    (hi : Validity.instr env.module frame.locals.size i = .ok ()) (pc : Nat) :
    Lands env H (interpret env pc i m) := by
  cases i with
  | plain i =>
    refine inFrame_bind_lands (Plain.exec_steady hi) hm (by simp [hframes]) ?_
    intro effect m' hm' hstack'
    cases effect with
    | next => exact hm'
    | branch depth => exact keeps_branch depth m' hm'
    | call func => exact call_lands henv hcompile hm' (by omega) func
    | return_ => exact keeps_leave m' hm'
  | block type stop | loop type =>
    exact enterBlock_lands hm (by omega) _ _ (henv.sized.blockArity type)
  | if_ type otherwise stop =>
    have hpop : Steady 0 env.module.globalTypes.size 0 (Exec.popInt .w32) := Exec.steady_popInt .w32
    refine inFrame_bind_lands hpop hm (by simp) ?_
    intro cond m' hm' hstack'
    have hblock := enterBlock_lands hm' (by omega) .if_ (stop + 1) (henv.sized.blockArity type)
    rw [bind_apply]
    cases henter : inFrame (Exec.enter .if_ (stop + 1) (env.module.blockArity type)) m' with
    | error e m'' =>
      rw [henter] at hblock
      exact hblock
    | ok u m'' =>
      rw [henter] at hblock
      dsimp only
      split
      · exact keeps_goto _ m'' hblock
      · exact hblock
  | else_ stop => exact keeps_goto stop m hm
  | end_ =>
    refine (keeps_inFrame Exec.steady_close).bind (fun closed => ?_) m hm
    cases closed with
    | true => exact keeps_pure ()
    | false => exact keeps_leave

-- ---------------------------------------------------------------------------
-- Steps
-- ---------------------------------------------------------------------------

theorem step_lands (henv : env.Sound) (hcompile : env.config.compile = false)
    (hm : m.Sound env H) (hstack : m.stack.length < H) : Lands env H (step env m) := by
  cases hframes : m.frames with
  | nil =>
    rw [step_nil hframes]
    exact hm
  | cons frame rest =>
    have hframe := hm.frames frame (by simp [hframes])
    obtain ⟨type, code, _, hcode, hchecked⟩ := hframe.checked henv hm.store
    rw [step_body hframes hcode]
    unfold stepBody
    cases hi : env.module.instr? code frame.pc with
    | none => exact keeps_leave m hm
    | some i =>
      have hgoto : (m.goto (frame.pc + 1)).frames = { frame with pc := frame.pc + 1 } :: rest := by
        rw [Machine.goto_cons hframes]
      simp only [bind_apply, goto_apply]
      exact interpret_lands henv hcompile (hm.goto _) hstack hgoto (hchecked _ i hi) _

end Run

end Wasm
