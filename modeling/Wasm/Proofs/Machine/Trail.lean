import Wasm.Proofs.Machine.Actions
import Wasm.Proofs.Session

/-!
# Trails

The machines a run goes through: one at the start of each step, and the one it
ends with if it does not fault. What every step preserves holds along the whole
trail. A request that is not rejected at the outset calls one function, and the
trail of that call is all that is ever run for it.
-/

namespace Wasm

variable {σ α β : Type}

namespace Run

-- ---------------------------------------------------------------------------
-- Runs
-- ---------------------------------------------------------------------------

/-- The machine at the start of each of at most so many steps, and behind the
    last of them. -/
def trail (env : Env σ) : (budget : Nat) → Machine σ → List (Machine σ)
  | 0, m => [m]
  | budget + 1, m =>
    if m.frames.isEmpty then [m]
    else
      match step env m with
      | .ok _ m' => m :: trail env budget m'
      | .error _ _ => [m]

/-- The trail of a call, from the function's first instruction on. -/
def callTrail (env : Env σ) (budget : Nat) (func : UInt32) (m : Machine σ) : List (Machine σ) :=
  match call env func m with
  | .ok _ m' => trail env budget m'
  | .error _ _ => []

/-- An action that ends well leaves the property as it was. -/
def Preserves (P : Machine σ → Prop) (a : Run σ α) : Prop :=
  ∀ ⦃m x m'⦄, P m → a m = .ok x m' → P m'

variable {P : Machine σ → Prop} {env : Env σ} {m m' : Machine σ}

theorem trail_nil (h : m.frames = []) (budget : Nat) : trail env budget m = [m] := by
  cases budget with
  | zero => rfl
  | succ budget => rw [trail, if_pos (List.isEmpty_iff.mpr h)]

theorem trail_ok {u : Unit} (h : m.frames ≠ []) (hstep : step env m = .ok u m')
    (budget : Nat) : trail env (budget + 1) m = m :: trail env budget m' := by
  rw [trail, if_neg (mt List.isEmpty_iff.mp h), hstep]

theorem trail_error {e : Fault} (h : m.frames ≠ [])
    (hstep : step env m = .error e m') (budget : Nat) : trail env (budget + 1) m = [m] := by
  rw [trail, if_neg (mt List.isEmpty_iff.mp h), hstep]

theorem Preserves.bind {a : Run σ α} {f : α → Run σ β} (ha : Preserves P a)
    (hf : ∀ x, Preserves P (f x)) : Preserves P (a >>= f) := by
  intro m y m' hm h
  rw [bind_apply] at h
  cases hresult : a m with
  | ok x m₁ =>
    rw [hresult] at h
    exact hf x (ha hm hresult) h
  | error e m₁ =>
    rw [hresult] at h
    cases h

theorem Preserves.pure (x : α) : Preserves P (pure x : Run σ α) := by
  intro m y m' hm h
  cases h
  exact hm

/-- A property that each step preserves holds all along a trail. -/
theorem Preserves.trail (h : Preserves P (step env)) (hm : P m) (budget : Nat) :
    ∀ n ∈ trail env budget m, P n := by
  induction budget generalizing m with
  | zero => simpa [Run.trail] using hm
  | succ budget ih =>
    unfold Run.trail
    split
    · simpa using hm
    · cases hstep : step env m with
      | error e m' => simpa using hm
      | ok u m' => exact List.forall_mem_cons.mpr ⟨hm, ih (h hm hstep)⟩

/-- A run that ends well ends without frames, and with what each step
    preserves. -/
theorem Preserves.steps (h : Preserves P (step env)) (hm : P m) {budget : Nat}
    (hsteps : steps env budget m = .ok () m') : P m' ∧ m'.frames = [] := by
  induction budget generalizing m with
  | zero =>
    simp only [Run.steps, bind_apply, get_apply] at hsteps
    split at hsteps
    · rename_i hframes
      cases hsteps
      exact ⟨hm, List.isEmpty_iff.mp hframes⟩
    · cases hsteps
  | succ budget ih =>
    simp only [Run.steps, bind_apply, get_apply] at hsteps
    split at hsteps
    · rename_i hframes
      cases hsteps
      exact ⟨hm, List.isEmpty_iff.mp hframes⟩
    · rw [bind_apply] at hsteps
      cases hstep : step env m with
      | error e m₁ =>
        rw [hstep] at hsteps
        cases hsteps
      | ok u m₁ =>
        rw [hstep] at hsteps
        exact ih (h hm hstep) hsteps

theorem Preserves.callTrail (hcall : ∀ func, Preserves P (call env func))
    (hstep : Preserves P (step env)) (hm : P m) (budget : Nat) (func : UInt32) :
    ∀ n ∈ callTrail env budget func m, P n := by
  unfold Run.callTrail
  cases hresult : call env func m with
  | error e m' => nofun
  | ok u m' => exact hstep.trail (hcall func hm hresult) budget

theorem Preserves.callToEnd (hcall : ∀ func, Preserves P (call env func))
    (hstep : Preserves P (step env)) (hm : P m) {budget : Nat} {func : UInt32}
    (h : callToEnd env budget func m = .ok () m') : P m' ∧ m'.frames = [] := by
  unfold Run.callToEnd at h
  cases hresult : call env func m with
  | error e m₁ =>
    rw [bind_error hresult] at h
    cases h
  | ok u m₁ =>
    rw [bind_ok hresult, blamingFrame_apply] at h
    cases hsteps : Run.steps env budget m₁ with
    | error e m₂ =>
      rw [hsteps] at h
      cases h
    | ok u m₂ =>
      rw [hsteps] at h
      cases h
      exact hstep.steps (hcall func hm hresult) hsteps

end Run

-- ---------------------------------------------------------------------------
-- Requests
-- ---------------------------------------------------------------------------

/-- The machine as a call from outside finds it. -/
def Machine.prepareCall (m : Machine σ) (args : List Value) : Machine σ :=
  { m with origin := none, stack := args.reverse }

theorem Run.runFunction_apply (env : Env σ) (budget : Nat) (func : UInt32) (args : List Value)
    (results : Nat) (m : Machine σ) :
    runFunction env budget func args results m =
      match callToEnd env budget func (m.prepareCall args) with
      | .ok _ n => .ok (n.stack.take results).reverse { n with stack := [] }
      | .error e n => .error e n := by
  have hprepare : (modify fun m => { m with origin := none, stack := args.reverse } : Run σ _) m =
    .ok () (m.prepareCall args) := rfl
  rw [runFunction, bind_ok hprepare, bind_apply]
  cases callToEnd env budget func (m.prepareCall args) <;> rfl

namespace Request

/-- The function a request is for, if it is for one and finds it. -/
def func? (s : Store) : Request → Option UInt32
  | invoke name _ =>
    match s.export? name with
    | some (.func index) => some index
    | _ => none
  | invokeIndirect slot _ => s.element? 0 slot.toNat
  | _ => none

def args : Request → List Value
  | invoke _ args | invokeIndirect _ args => args
  | _ => []

/-- The request is to call a function. -/
def IsCall : Request → Prop
  | invoke _ _ | invokeIndirect _ _ => True
  | _ => False

/-- The function a request calls, unless it is rejected at the outset. -/
def callee? (s : Store) (r : Request) : Option (UInt32 × FuncInst) := do
  let func ← r.func? s
  let f ← s.funcs[func.toNat]?
  if Value.haveTypes r.args f.type.params then some (func, f) else none

/-- What the function goes by in messages. -/
def label : Request → String
  | invoke name _ => name
  | invokeIndirect slot _ => "table[" ++ toString slot.toNat ++ "]"
  | _ => ""

/-- Why a call is rejected. -/
def rejection (s : Store) (r : Request) : Trap :=
  match r.func? s with
  | some func =>
    match s.funcs[func.toNat]? with
    | some _ => .argumentMismatch r.label
    | none => .undefinedElement
  | none =>
    match r with
    | invoke name _ => .exportNotFound name
    | _ => .undefinedElement

/-- The trail of the call a request makes. -/
def trail (env : Env σ) (budget : Nat) (r : Request) (m : Machine σ) : List (Machine σ) :=
  match r.callee? m.store with
  | some (func, _) => Run.callTrail env budget func (m.prepareCall r.args)
  | none => []

variable {r : Request} {m : Machine σ}

theorem callee?_eq_some {s : Store} {func : UInt32} {f : FuncInst}
    (h : r.callee? s = some (func, f)) :
    r.func? s = some func ∧ s.funcs[func.toNat]? = some f ∧
      Value.haveTypes r.args f.type.params = true := by
  obtain ⟨func', hfunc, h⟩ := Option.bind_eq_some_iff.mp h
  obtain ⟨f', hf, h⟩ := Option.bind_eq_some_iff.mp h
  split at h
  · rename_i htypes
    cases h
    exact ⟨hfunc, hf, htypes⟩
  · cases h

theorem run_of_func {func : UInt32} (h : r.func? m.store = some func) (env : Env σ)
    (budget : Nat) :
    r.run env budget m =
      (do return .values (← Run.invokeFunction env budget func r.label r.args) : Run σ _) m := by
  cases r with
  | invoke name args =>
    simp only [func?] at h
    split at h
    · rename_i index hexport
      cases h
      simp only [run, Run.invoke, Run.bind_apply, Run.get_apply, hexport]
      rfl
    · cases h
  | invokeIndirect slot args =>
    simp only [func?] at h
    simp only [run, Run.invokeIndirect, Run.bind_apply, Run.get_apply, h]
    rfl
  | readMemory | writeMemory | setFuel => cases h

theorem run_of_no_func (hcall : r.IsCall) (h : r.func? m.store = none) (env : Env σ)
    (budget : Nat) : r.run env budget m = .error (.trap (r.rejection m.store)) m := by
  unfold rejection
  rw [h]
  cases r with
  | invoke name args =>
    simp only [func?] at h
    split at h
    · cases h
    · simp only [run, Run.invoke, Run.bind_apply, Run.get_apply]
      rfl
  | invokeIndirect slot args =>
    simp only [func?] at h
    simp only [run, Run.invokeIndirect, Run.bind_apply, Run.get_apply, h]
    rfl
  | readMemory | writeMemory | setFuel => exact hcall.elim

/-- What a request that is not rejected comes to: the call, and the results off
    the stack, or nothing left of a fault. -/
theorem run_of_callee {func : UInt32} {f : FuncInst} (h : r.callee? m.store = some (func, f))
    (env : Env σ) (budget : Nat) :
    r.run env budget m =
      match Run.callToEnd env budget func (m.prepareCall r.args) with
      | .ok _ n =>
        .ok (.values (n.stack.take f.type.results.length).reverse) { n with stack := [] }
      | .error e n => .error e n.reset := by
  obtain ⟨hfunc, hf, htypes⟩ := callee?_eq_some h
  rw [run_of_func hfunc]
  simp only [Run.invokeFunction, Run.bind_apply, Run.get_apply, hf, htypes, if_true,
    Run.cleaning, Run.runFunction_apply]
  cases Run.callToEnd env budget func (m.prepareCall r.args) <;> rfl

/-- A call that is rejected changes nothing, whatever the settings. -/
theorem run_of_rejected (hcall : r.IsCall) (h : r.callee? m.store = none) (env : Env σ)
    (budget : Nat) : r.run env budget m = .error (.trap (r.rejection m.store)) m := by
  cases hfunc : r.func? m.store with
  | none => exact run_of_no_func hcall hfunc env budget
  | some func =>
    simp only [callee?, hfunc, Option.bind_eq_bind, Option.bind_some] at h
    rw [run_of_func hfunc]
    simp only [Run.invokeFunction, Run.bind_apply, Run.get_apply, rejection, hfunc]
    cases hf : m.store.funcs[func.toNat]? with
    | none => rfl
    | some f =>
      rw [hf, Option.bind_some] at h
      split at h
      · cases h
      · rename_i htypes
        simp only [htypes]
        rfl

end Request

end Wasm
