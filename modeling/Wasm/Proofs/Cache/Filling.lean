import Wasm.Proofs.Cache.Transparency

/-!
# What fills a cache

Where functions run as prepared, a step draws a function from the cache exactly
if it pushes a frame for it. A cache that was empty in the beginning therefore
holds the functions that frames were pushed for, each as it is prepared, and no
others.
-/

namespace Wasm

variable {σ α : Type}

-- ---------------------------------------------------------------------------
-- Drawing from an empty cache
-- ---------------------------------------------------------------------------

namespace CodeCache

variable {mod : Module}

theorem size_fetch (cache : CodeCache) (func : Nat) :
    (cache.fetch mod func).2.slots.size = cache.slots.size := by
  unfold fetch
  split
  · rfl
  · exact Array.size_setIfInBounds

theorem isSome_fetch {cache : CodeCache} {func other : Nat} (h : other < cache.slots.size) :
    ((cache.fetch mod func).2.get? other).isSome =
      ((cache.get? other).isSome || other == func) := by
  by_cases hother : other = func
  · subst hother
    unfold fetch
    split
    · rename_i hfilled
      rw [hfilled]
      rfl
    · simp [get?, h]
  · have hne : func ≠ other := Ne.symm hother
    unfold fetch
    split
    · simp [hother]
    · simp [get?, Array.getElem?_setIfInBounds_ne hne, hother]

theorem size_draw (cache : CodeCache) (funcs : List Nat) :
    (cache.draw mod funcs).slots.size = cache.slots.size := by
  induction funcs generalizing cache with
  | nil => rfl
  | cons func funcs ih => exact (ih _).trans (cache.size_fetch func)

theorem isSome_draw {cache : CodeCache} {func : Nat} (h : func < cache.slots.size)
    (funcs : List Nat) :
    ((cache.draw mod funcs).get? func).isSome =
      ((cache.get? func).isSome || funcs.contains func) := by
  induction funcs generalizing cache with
  | nil => exact (Bool.or_false _).symm
  | cons other funcs ih =>
    have hsize : func < (cache.fetch mod other).2.slots.size := by
      rw [size_fetch]
      exact h
    calc ((cache.draw mod (other :: funcs)).get? func).isSome
      _ = (((cache.fetch mod other).2.get? func).isSome || funcs.contains func) := ih hsize
      _ = ((cache.get? func).isSome || (other :: funcs).contains func) := by
        rw [isSome_fetch h, List.contains_cons, Bool.or_assoc]

theorem count_eq_countP (cache : CodeCache) :
    cache.count = (List.range cache.slots.size).countP fun func => (cache.get? func).isSome := by
  have hslots : cache.slots.toList =
      (List.range cache.slots.size).map fun func => cache.get? func := by
    apply List.ext_getElem
    · simp
    · intro func h _
      simp [get?, show func < cache.slots.size from h]
  rw [count, ← Array.countP_toList, hslots, List.countP_map]
  rfl

/-- A cache counts each function of the module once, however often it was
    drawn, and nothing that is no function of the module. -/
theorem count_draw_empty (mod : Module) (funcs : List Nat) :
    ((empty mod).draw mod funcs).count =
      (List.range mod.functions.size).countP fun func => funcs.contains func := by
  have hsize : (empty mod).slots.size = mod.functions.size := Array.size_replicate
  rw [count_eq_countP, size_draw, hsize]
  apply List.countP_congr
  intro func hfunc
  rw [isSome_draw (hsize ▸ List.mem_range.mp hfunc)]
  have hempty : ((empty mod).get? func).isSome = false := by
    simp [get?, empty, List.mem_range.mp hfunc]
  rw [hempty, Bool.false_or]

end CodeCache

-- ---------------------------------------------------------------------------
-- Pushing frames
-- ---------------------------------------------------------------------------

/-- The defined function that a frame was pushed for, if one was, between the
    two states. -/
def Machine.entered? (m m' : Machine σ) : Option Nat :=
  match m'.frames with
  | [] => none
  | frame :: rest =>
    if rest.length = m.frames.length then
      match m'.store.funcs[frame.func.toNat]? with
      | some (.defined _ code) => some code
      | _ => none
    else none

theorem Machine.entered?_of_le {m m' : Machine σ} (h : m'.frames.length ≤ m.frames.length) :
    m.entered? m' = none := by
  unfold entered?
  split
  · rfl
  · rename_i frame rest hframes
    rw [hframes] at h
    exact if_neg (Nat.ne_of_lt h)

theorem Machine.entered?_congr {m n m' : Machine σ} (h : n.frames.length = m.frames.length) :
    n.entered? m' = m.entered? m' := by
  unfold entered?
  rw [h]

theorem Machine.entered?_blameFrame (m m' : Machine σ) :
    m.entered? m'.blameFrame = m.entered? m' := by
  obtain ⟨shared, store, stack, frames, depth, origin⟩ := m'
  cases frames <;> rfl

namespace Run

/-- What the action draws from the cache is the function it pushes a frame for. -/
def Fills (env : Env σ) (a : Run σ α) (m : Machine σ) : Prop :=
  (finalState (a m)).cache = m.cache.draw env.module (m.entered? (finalState (a m))).toList

variable {env : Env σ} {m : Machine σ}

/-- An action that neither pushes a frame nor draws a function. -/
theorem Fills.of_quiet {a : Run σ α} {r : EStateM.Result Fault (Machine σ) α} (h : a m = r)
    (hcache : (finalState r).cache = m.cache)
    (hframes : (finalState r).frames.length ≤ m.frames.length) : Fills env a m := by
  rw [Fills, h, hcache, m.entered?_of_le hframes]
  rfl

theorem Fills.of_frameless {a : Run σ α} (ha : Frameless a) : Fills env a m := by
  apply Fills.of_quiet (ha.graft_eq m) <;> rw [finalState_mapState]
  · rfl
  · exact Nat.le_refl _

theorem Fills.congr {a b : Run σ α} {n : Machine σ} (h : Fills env b n) (heq : a m = b n)
    (hcache : n.cache = m.cache) (hframes : n.frames.length = m.frames.length) :
    Fills env a m := by
  rw [Fills, heq, ← hcache, ← Machine.entered?_congr hframes]
  exact h

theorem Fills.blamingFrame {a : Run σ Unit} (h : Fills env a m) :
    Fills env (blamingFrame a) m := by
  unfold Fills at h ⊢
  rw [blamingFrame_apply]
  cases hresult : a m with
  | ok x m' =>
    rw [hresult] at h
    exact h
  | error e m' =>
    rw [hresult] at h
    have hcache : m'.blameFrame.cache = m'.cache := by
      unfold Machine.blameFrame
      split <;> rfl
    simp only [finalState, m.entered?_blameFrame, hcache]
    exact h

theorem fills_leave (env : Env σ) (m : Machine σ) : Fills env leave m := by
  cases hframes : m.frames with
  | nil =>
    have hleave : leave m = .error (.trap .stackUnderflow) m := by
      simp only [leave, bind_apply, get_apply, hframes]
      rfl
    exact .of_quiet hleave rfl (Nat.le_refl _)
  | cons frame rest =>
    apply Fills.of_quiet (leave_cons hframes)
    · cases Exec.unwound m.stack frame.height frame.arity <;> rfl
    · rw [hframes]
      cases Exec.unwound m.stack frame.height frame.arity <;> exact Nat.le_succ _

section

variable (hcompile : env.config.compile = true)

include hcompile

theorem fills_enter {func : UInt32} {type : FuncType} {code : Nat}
    (hfunc : m.store.funcs[func.toNat]? = some (.defined type code)) :
    Fills env (enter env func type code) m := by
  rcases takeLocals_cases env type code m with ⟨locals, hlocals, _⟩ | ⟨t, stack, hlocals⟩
  · -- The frame is on top of those of before, and its function is the one fetched.
    unfold Fills
    rw [enter, bind_ok (blaming_ok hlocals func)]
    simp only [frameCode, hcompile, if_true, bind_apply, get_apply, set_apply, pure_apply,
      modify_apply, finalState, Machine.entered?, hfunc]
    rfl
  · have henter : enter env func type code m =
        .error (.trap t) (({ m with stack } : Machine σ).blame func) := by
      rw [enter, bind_error (blaming_error hlocals func)]
    exact .of_quiet henter rfl (Nat.le_refl _)

theorem fills_call (func : UInt32) (m : Machine σ) : Fills env (call env func) m := by
  cases hfunc : m.store.funcs[func.toNat]? with
  | none => exact .of_quiet (call_missing hfunc) rfl (Nat.le_refl _)
  | some f =>
    cases f with
    | host type module name slot =>
      have hhost : Fills env (callHost env func type module name slot) m :=
        .of_frameless (Frameless.callHost env func type module name slot)
      exact hhost.congr (call_host hfunc) rfl rfl
    | defined type code => exact (fills_enter hcompile hfunc).congr (call_defined hfunc) rfl rfl

theorem fills_follow (pc : Nat) (flow : Flow) (m : Machine σ) :
    Fills env (follow env pc flow) m := by
  have hgoto (target : Nat) : (m.goto target).frames.length = m.frames.length :=
    List.length_modifyHead
  cases flow with
  | next | jump => exact .of_quiet (goto_apply m _) rfl (Nat.le_of_eq (hgoto _))
  | call func => exact (fills_call hcompile func _).congr (bind_ok (goto_apply m _)) rfl (hgoto _)
  | return_ => exact fills_leave env m

theorem fills_stepPrepared {frame : Frame} {rest : List Frame} (hframes : m.frames = frame :: rest)
    (ops : Prepared) (pc : Nat) : Fills env (stepPrepared env ops pc) m := by
  cases hop : ops[pc]? with
  | none =>
    have hstep : stepPrepared env ops pc = leave := by
      simp only [stepPrepared, hop]
    rw [hstep]
    exact fills_leave env m
  | some op =>
    rw [stepPrepared_some env hop]
    have hresume (c : Context) : (m.resume frame rest c).frames.length = m.frames.length := by
      rw [hframes]
      rfl
    have hinFrame : inFrame op m = _ := inFrame_cons hframes
    cases hresult : op (m.context frame) with
    | ok flow c =>
      rw [hresult] at hinFrame
      exact (fills_follow hcompile pc flow _).congr (bind_ok hinFrame) rfl (hresume c)
    | error e c =>
      rw [hresult] at hinFrame
      exact .of_quiet (bind_error hinFrame) rfl (Nat.le_of_eq (hresume c))

theorem fills_step (hm : m.outline.Tallied env.config) : Fills env (step env) m := by
  cases hframes : m.frames with
  | nil => exact .of_quiet (step_nil hframes) rfl (Nat.le_refl _)
  | cons frame rest =>
    have hmem : frame ∈ m.frames := hframes ▸ List.mem_cons_self
    have hprepared := hm.strategy frame.code (List.mem_map_of_mem hmem)
    cases hcode : frame.code with
    | body func =>
      rw [hcode, hcompile] at hprepared
      cases hprepared
    | prepared ops =>
      exact (fills_stepPrepared hcompile hframes ops frame.pc).congr
        (step_prepared hframes hcode) rfl rfl

end

end Run

end Wasm
