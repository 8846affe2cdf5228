import Wasm.Proofs.Machine.Trail
import Wasm.Proofs.Safety.Machine

/-!
# Outlines

What calls and returns change of a machine, apart from its operands: the codes
of its frames, its depth and the prepared code at hand. An invariant of
outlines has to be checked for entering and for leaving a function only, and
then holds along every trail.
-/

namespace Wasm

variable {σ α : Type}

structure Outline where
  /-- What each frame runs, innermost first. -/
  codes : List FrameCode
  depth : Nat
  cache : CodeCache

def Machine.outline (m : Machine σ) : Outline where
  codes := m.frames.map (·.code)
  depth := m.depth
  cache := m.cache

namespace Outline

/-- The innermost function is left. -/
def leave (o : Outline) : Outline := { o with codes := o.codes.tail, depth := o.depth - 1 }

/-- A defined function is entered. -/
def enter (env : Env σ) (code : Nat) (o : Outline) : Outline :=
  if env.config.compile then
    let (ops, cache) := o.cache.fetch env.module code
    { codes := .prepared ops :: o.codes, depth := o.depth + 1, cache }
  else { o with codes := .body code :: o.codes, depth := o.depth + 1 }

/-- The property survives calls and returns. A call happens only below the
    limit. -/
structure Invariant (env : Env σ) (P : Outline → Prop) : Prop where
  leave : ∀ ⦃o⦄, P o → P o.leave
  enter : ∀ ⦃o⦄, P o → o.depth < env.config.maxCallDepth → ∀ code, P (o.enter env code)

end Outline

-- ---------------------------------------------------------------------------
-- What actions do to the outline
-- ---------------------------------------------------------------------------

namespace Run

variable {env : Env σ} {m m' : Machine σ}

theorem outline_inFrame {action : Exec α} {x : α} (h : inFrame action m = .ok x m') :
    m'.outline = m.outline := by
  unfold inFrame at h
  cases hframes : m.frames with
  | nil =>
    rw [hframes] at h
    cases h
  | cons frame rest =>
    rw [hframes] at h
    dsimp only at h
    cases haction : action (m.context frame) with
    | error e c =>
      rw [haction] at h
      cases h
    | ok y c =>
      rw [haction] at h
      cases h
      rw [Machine.outline, Machine.outline, hframes]
      rfl

theorem outline_goto (pc : Nat) (m : Machine σ) : (m.goto pc).outline = m.outline := by
  cases hframes : m.frames with
  | nil => rw [m.goto_nil hframes]
  | cons frame rest =>
    rw [m.goto_cons hframes, Machine.outline, Machine.outline, hframes]
    rfl

theorem outline_leave {u : Unit} (h : leave m = .ok u m') : m'.outline = m.outline.leave := by
  unfold leave at h
  simp only [bind_apply, get_apply] at h
  cases hframes : m.frames with
  | nil =>
    rw [hframes] at h
    cases h
  | cons frame rest =>
    rw [hframes] at h
    simp only [bind_apply, set_apply, ofExcept_apply] at h
    cases hunwound : Exec.unwound m.stack frame.height frame.arity with
    | error t =>
      rw [hunwound] at h
      cases h
    | ok stack =>
      rw [hunwound] at h
      cases h
      rw [Machine.outline, Machine.outline, hframes]
      rfl

theorem outline_callHost {func : UInt32} {type : FuncType} {module name : String} {slot : Nat}
    {u : Unit} (h : callHost env func type module name slot m = .ok u m') :
    m'.outline = m.outline := by
  unfold callHost at h
  cases hslot : env.hosts[slot]? with
  | none =>
    rw [hslot] at h
    cases h
  | some f =>
    rw [hslot] at h
    rcases takeArgs_cases type.params m with ⟨args, hargs, _⟩ | ⟨t, stack, hargs⟩
    · simp only [blaming, bind_ok hargs, bind_apply, get_apply, set_apply, ofExcept_apply] at h
      cases hreply : checkReply type module name (f.call args m.store m.host).result with
      | error t =>
        rw [hreply] at h
        cases h
      | ok results =>
        rw [hreply] at h
        cases h
        rfl
    · simp only [blaming, bind_error hargs] at h
      cases h

theorem outline_enter {func : UInt32} {type : FuncType} {code : Nat} {u : Unit}
    (h : enter env func type code m = .ok u m') :
    m.depth < env.config.maxCallDepth ∧ m'.outline = m.outline.enter env code := by
  unfold enter at h
  rcases takeLocals_cases env type code m with ⟨locals, hlocals, _⟩ | ⟨t, stack, hlocals⟩
  · rw [bind_ok (blaming_ok hlocals func)] at h
    refine ⟨takeLocals_lt hlocals, ?_⟩
    unfold Outline.enter
    cases hcompile : env.config.compile with
    | true =>
      simp only [frameCode, hcompile, if_true, bind_apply, get_apply, set_apply, pure_apply,
        modify_apply] at h
      cases h
      rfl
    | false =>
      simp only [frameCode, hcompile, Bool.false_eq_true, if_false, bind_apply, pure_apply,
        modify_apply] at h
      cases h
      rfl
  · rw [bind_error (blaming_error hlocals func)] at h
    cases h

end Run

-- ---------------------------------------------------------------------------
-- Steps
-- ---------------------------------------------------------------------------

namespace Outline.Invariant

open Run

variable {env : Env σ} {P : Outline → Prop}

/-- The actions that keep the property of an outline. -/
abbrev Kept (P : Outline → Prop) (a : Run σ α) : Prop := Preserves (fun m => P m.outline) a

theorem kept_inFrame (action : Exec α) : Kept P (inFrame action : Run σ α) := by
  intro m x m' hm h
  rwa [outline_inFrame h]

theorem kept_goto (pc : Nat) : Kept P (goto pc : Run σ Unit) := by
  intro m x m' hm h
  rw [goto_apply] at h
  cases h
  rwa [outline_goto]

variable (hP : Invariant env P)

include hP

theorem kept_leave : Kept P (Run.leave : Run σ Unit) := by
  intro m x m' hm h
  rw [outline_leave h]
  exact hP.leave hm

theorem kept_call (func : UInt32) : Kept P (call env func) := by
  intro m u m' hm h
  simp only [call, bind_apply, get_apply] at h
  cases hfunc : m.store.funcs[func.toNat]? with
  | none =>
    rw [hfunc] at h
    cases h
  | some f =>
    rw [hfunc] at h
    cases f with
    | host type module name slot =>
      rwa [outline_callHost h]
    | defined type code =>
      obtain ⟨hdepth, houtline⟩ := outline_enter h
      rw [houtline]
      exact hP.enter hm hdepth code

theorem kept_branch (depth : UInt32) : Kept P (branch depth : Run σ Unit) := by
  refine (kept_inFrame _).bind fun target => ?_
  cases target with
  | jump pc => exact kept_goto pc
  | again pc => exact (kept_goto pc).bind fun _ => kept_inFrame _
  | leave => exact hP.kept_leave

theorem kept_interpret (pc : Nat) (i : Instr) : Kept P (interpret env pc i) := by
  cases i with
  | plain i =>
    refine (kept_inFrame _).bind fun effect => ?_
    cases effect with
    | next => exact Preserves.pure ()
    | branch depth => exact hP.kept_branch depth
    | call func => exact hP.kept_call func
    | return_ => exact hP.kept_leave
  | block type stop => exact kept_inFrame _
  | loop type => exact kept_inFrame _
  | if_ type otherwise stop =>
    refine (kept_inFrame _).bind fun cond => (kept_inFrame _).bind fun _ => ?_
    split
    · exact kept_goto _
    · exact Preserves.pure ()
  | else_ stop => exact kept_goto stop
  | end_ =>
    refine (kept_inFrame _).bind fun closed => ?_
    split
    · exact hP.kept_leave
    · exact Preserves.pure ()

theorem kept_stepBody (func pc : Nat) : Kept P (stepBody env func pc) := by
  unfold stepBody
  split
  · exact hP.kept_leave
  · exact (kept_goto _).bind fun _ => hP.kept_interpret pc _

theorem kept_stepPrepared (ops : Prepared) (pc : Nat) : Kept P (stepPrepared env ops pc) := by
  unfold stepPrepared
  split
  · exact hP.kept_leave
  · refine (kept_inFrame _).bind fun flow => ?_
    cases flow with
    | next => exact kept_goto _
    | jump target => exact kept_goto target
    | call func => exact (kept_goto _).bind fun _ => hP.kept_call func
    | return_ => exact hP.kept_leave

/-- An invariant of outlines is kept by every step. -/
theorem kept_step : Kept P (step env) := by
  intro m u m' hm h
  cases hframes : m.frames with
  | nil =>
    rw [step_nil hframes] at h
    cases h
    exact hm
  | cons frame rest =>
    cases hcode : frame.code with
    | body func =>
      rw [step_body hframes hcode] at h
      exact hP.kept_stepBody func frame.pc hm h
    | prepared ops =>
      rw [step_prepared hframes hcode] at h
      exact hP.kept_stepPrepared ops frame.pc hm h

theorem callTrail {m : Machine σ} (hm : P m.outline) (budget : Nat) (func : UInt32) :
    ∀ n ∈ callTrail env budget func m, P n.outline :=
  Preserves.callTrail hP.kept_call hP.kept_step hm budget func

theorem callToEnd {m m' : Machine σ} (hm : P m.outline) {budget : Nat} {func : UInt32}
    (h : callToEnd env budget func m = .ok () m') : P m'.outline ∧ m'.frames = [] :=
  Preserves.callToEnd hP.kept_call hP.kept_step hm h

end Outline.Invariant

end Wasm
