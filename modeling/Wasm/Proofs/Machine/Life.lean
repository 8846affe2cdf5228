import Wasm.Proofs.Cache.Transparency
import Wasm.Proofs.Machine.Changes

/-!
# Lives of machines

A machine moves on by single steps, by calls from outside while no function is
active, and by what the host does to it in between. Whatever it comes to in any
number of moves comes about by changes of its store and of its variables.
-/

namespace Wasm

variable {σ : Type}

namespace Machine

/-- One move. After a fault, or when the host gives a call up, nothing is left
    of the call. Instances of the same module may prepare functions of it in
    between, and change the state of the host. -/
inductive Move (env : Env σ) : Machine σ → Machine σ → Prop where
  | call {m n : Machine σ} {func : UInt32} (hidle : m.frames = [])
      (h : Run.call env func m = .ok () n) : Move env m n
  | step {m n : Machine σ} (h : Run.step env m = .ok () n) : Move env m n
  | callFault {m n : Machine σ} {func : UInt32} {e : Fault} (hidle : m.frames = [])
      (h : Run.call env func m = .error e n) : Move env m n.reset
  | stepFault {m n : Machine σ} {e : Fault} (h : Run.step env m = .error e n) :
      Move env m n.reset
  | giveUp {m : Machine σ} : Move env m m.reset
  | arguments {m : Machine σ} (hidle : m.frames = []) (args : List Value)
      (origin : Option UInt32) : Move env m { m with stack := args.reverse, origin }
  | write {m : Machine σ} {address : Nat} {bytes : List UInt8} {s : Store} (hidle : m.frames = [])
      (h : m.store.write address bytes = .ok s) : Move env m { m with store := s }
  | refuel {m : Machine σ} (hidle : m.frames = []) (fuel : Option Nat) :
      Move env m { m with store.fuel := fuel }
  | elsewhere {m : Machine σ} (called : List Nat) (host : σ) :
      Move env m { m with toShared := ⟨.filled env.module called, host⟩ }

/-- Any number of moves. -/
abbrev Leads (env : Env σ) : Machine σ → Machine σ → Prop := Relation.ReflTransGen (Move env)

variable {env : Env σ} {m n : Machine σ}

theorem sourced_reset {mod : Module} (h : m.cache.Coherent mod) : m.reset.outline.Sourced mod :=
  ⟨List.forall_mem_nil _, h⟩

theorem sourced_filled (mod : Module) (called : List Nat) :
    Outline.Sourced mod ⟨[], 0, .filled mod called⟩ :=
  ⟨List.forall_mem_nil _, CodeCache.filled_coherent mod called⟩

theorem Move.sourced (h : Move env m n) (hm : m.outline.Sourced env.module) :
    n.outline.Sourced env.module := by
  cases h with
  | call _ h => exact (Outline.invariant_sourced env).kept_call _ hm h
  | step h => exact (Outline.invariant_sourced env).kept_step hm h
  | @callFault n func e _ h =>
    have hcall : Run.Transparent env (Run.call env func) := .call func
    have hcache := hcall.coherent hm.cache
    rw [h] at hcache
    exact sourced_reset hcache
  | stepFault h =>
    have hstep : Run.Transparent env (Run.step env) := .step
    have hcache := hstep.coherent hm.cache
    rw [h] at hcache
    exact sourced_reset hcache
  | giveUp => exact sourced_reset hm.cache
  | arguments | write | refuel => exact ⟨hm.codes, hm.cache⟩
  | elsewhere called host => exact ⟨hm.codes, CodeCache.filled_coherent _ _⟩

theorem Leads.sourced (h : Leads env m n) (hm : m.outline.Sourced env.module) :
    n.outline.Sourced env.module := by
  induction h with
  | refl => exact hm
  | tail _ hmove ih => exact hmove.sourced ih

-- ---------------------------------------------------------------------------
-- Changes
-- ---------------------------------------------------------------------------

open Holdings

/-- Giving a call up is leaving all its functions. -/
theorem changes_reset (env : Env σ) (among : UInt32 → Prop) (m : Machine σ) :
    Changes env among m.holdings m.reset.holdings := by
  have hleave : ∀ active, Changes env among ⟨m.store, active⟩ ⟨m.store, []⟩ := by
    intro active
    induction active with
    | nil => exact .refl
    | cons a active ih => exact .head .leave ih
  exact hleave _

variable {among : UInt32 → Prop}

theorem Move.changes (h : Move env m n) (hmod : env.module.Assigns among)
    (hm : m.outline.Sourced env.module) : Changes env among m.holdings n.holdings := by
  cases h with
  | @call _ func _ h =>
    have hcall : Changes env among m.holdings (finalState (Run.call env func m)).holdings :=
      Run.Changing.call func m
    rw [h] at hcall
    exact hcall
  | step h =>
    have hstep := Run.Changing.step hmod hm
    rw [h] at hstep
    exact hstep
  | @callFault n func e _ h =>
    have hcall : Changes env among m.holdings (finalState (Run.call env func m)).holdings :=
      Run.Changing.call func m
    rw [h] at hcall
    exact hcall.trans (changes_reset env among n)
  | @stepFault n e h =>
    have hstep := Run.Changing.step hmod hm
    rw [h] at hstep
    exact hstep.trans (changes_reset env among n)
  | giveUp => exact changes_reset env among m
  | arguments | elsewhere => exact .refl
  | write _ h => exact .single (.write h)
  | refuel _ fuel => exact .single (.fuel fuel)

theorem Leads.changes (h : Leads env m n) (hmod : env.module.Assigns among)
    (hm : m.outline.Sourced env.module) : Changes env among m.holdings n.holdings := by
  induction h with
  | refl => exact .refl
  | tail hleads hmove ih => exact ih.trans (hmove.changes hmod (Leads.sourced hleads hm))

-- ---------------------------------------------------------------------------
-- Runs
-- ---------------------------------------------------------------------------

/-- A machine leads to all that stand on its trail. -/
theorem leads_trail (budget : Nat) (m : Machine σ) :
    ∀ n ∈ Run.trail env budget m, Leads env m n := by
  induction budget generalizing m with
  | zero =>
    intro n hn
    rw [Run.trail, List.mem_singleton] at hn
    rw [hn]
  | succ budget ih =>
    intro n hn
    rw [Run.trail] at hn
    split at hn
    · rw [List.mem_singleton] at hn
      rw [hn]
    · split at hn
      · rename_i hstep
        rcases List.mem_cons.mp hn with rfl | hn
        · exact .refl
        · exact .head (.step hstep) (ih _ n hn)
      · rw [List.mem_singleton] at hn
        rw [hn]

theorem leads_callTrail (hidle : m.frames = []) (budget : Nat) (func : UInt32) :
    ∀ n ∈ Run.callTrail env budget func m, Leads env m n := by
  intro n hn
  unfold Run.callTrail at hn
  split at hn
  · rename_i hcall
    exact .head (.call hidle hcall) (leads_trail budget _ n hn)
  · cases hn

theorem leads_requestTrail (hidle : m.frames = []) (budget : Nat) (r : Request) :
    ∀ n ∈ r.trail env budget m, Leads env m n := by
  intro n hn
  unfold Request.trail at hn
  split at hn
  · have htrail := leads_callTrail (m := m.prepareCall r.args) hidle budget _ n hn
    exact .head (.arguments hidle r.args none) htrail
  · cases hn

/-- Where a run leaves a machine, once the rest of a fault is dropped. -/
def settled : EStateM.Result Fault (Machine σ) Unit → Machine σ
  | .ok _ n => n
  | .error _ n => n.reset

theorem leads_steps (budget : Nat) (m : Machine σ) :
    Leads env m (settled (Run.steps env budget m)) := by
  induction budget generalizing m with
  | zero =>
    by_cases hframes : m.frames = []
    · rw [Run.steps_nil hframes]
      exact .refl
    · rw [Run.steps_zero hframes]
      exact .single .giveUp
  | succ budget ih =>
    by_cases hframes : m.frames = []
    · rw [Run.steps_nil hframes]
      exact .refl
    · rw [Run.steps_succ hframes]
      cases hstep : Run.step env m with
      | error e n =>
        rw [Run.bind_error hstep]
        exact .single (.stepFault hstep)
      | ok u n =>
        rw [Run.bind_ok hstep]
        exact .head (.step hstep) (ih n)

theorem leads_callToEnd (hidle : m.frames = []) (budget : Nat) (func : UInt32) :
    Leads env m (settled (Run.callToEnd env budget func m)) := by
  unfold Run.callToEnd
  cases hcall : Run.call env func m with
  | error e n =>
    rw [Run.bind_error hcall]
    exact .single (.callFault hidle hcall)
  | ok u n =>
    rw [Run.bind_ok hcall, Run.blamingFrame_apply]
    have hsteps : Leads env n (settled (Run.steps env budget n)) := leads_steps budget n
    refine .head (.call hidle hcall) ?_
    cases hend : Run.steps env budget n with
    | ok u k =>
      rw [hend] at hsteps
      exact hsteps
    | error e k =>
      rw [hend] at hsteps
      -- the blame is all that is left of the fault
      have hblamed : k.blameFrame.reset = { k.reset with origin := k.blameFrame.origin } := by
        unfold blameFrame
        split <;> rfl
      show Leads env n k.blameFrame.reset
      rw [hblamed]
      exact hsteps.tail (.arguments rfl [] _)

/-- Whatever is requested of a machine between calls leads to another such. -/
theorem leads_request (hidle : m.frames = []) (budget : Nat) (r : Request) :
    Leads env m (finalState (r.run env budget m)) := by
  by_cases hr : r.IsCall
  · cases hcallee : r.callee? m.store with
    | none =>
      rw [Request.run_of_rejected hr hcallee]
      exact .refl
    | some callee =>
      have hprepare : Move env m (m.prepareCall r.args) := .arguments hidle r.args none
      have hend : Leads env (m.prepareCall r.args)
          (settled (Run.callToEnd env budget callee.1 (m.prepareCall r.args))) :=
        leads_callToEnd (m := m.prepareCall r.args) hidle budget callee.1
      rw [Request.run_of_callee hcallee]
      cases hresult : Run.callToEnd env budget callee.1 (m.prepareCall r.args) with
      | error e n =>
        rw [hresult] at hend
        exact .head hprepare hend
      | ok u n =>
        rw [hresult] at hend
        have hframes : n.frames = [] :=
          (Run.Preserves.callToEnd (P := fun _ => True) (fun _ _ _ _ _ _ => trivial)
            (fun _ _ _ _ _ => trivial) trivial hresult).2
        exact .head hprepare (hend.tail (.arguments hframes [] n.origin))
  · cases r with
    | invoke | invokeIndirect => exact absurd trivial hr
    | readMemory address n =>
      simp only [Request.run, Run.readMemory, Run.bind_apply, Run.get_apply, Run.ofExcept_apply]
      cases m.store.read address n <;> exact .refl
    | writeMemory address bytes =>
      simp only [Request.run, Run.writeMemory, Run.bind_apply, Run.get_apply, Run.ofExcept_apply]
      cases hwrite : m.store.write address bytes with
      | error t => exact .refl
      | ok s => exact .single (.write hidle hwrite)
    | setFuel fuel => exact .single (.refuel hidle fuel)

end Machine

-- ---------------------------------------------------------------------------
-- Functions
-- ---------------------------------------------------------------------------

/-- A host function that writes no functions. -/
def HostFunc.SparesFuncs (f : HostFunc σ) : Prop :=
  ∀ args (s : Store) state, (f.call args s state).store.funcs = s.funcs

theorem Holdings.Change.funcs {env : Env σ} {among : UInt32 → Prop} {h h' : Holdings}
    (hhosts : ∀ f ∈ env.hosts, f.SparesFuncs) (hchange : Change env among h h') :
    h'.store.funcs = h.store.funcs := by
  cases hchange with
  | assignLocal | assignGlobal | fuel | enter | leave => rfl
  | write hwrite =>
    obtain ⟨_, _, rfl⟩ := Store.write_eq_ok hwrite
    rfl
  | grow delta =>
    unfold Store.grow
    split <;> rfl
  | host hf args state => exact hhosts _ hf args _ state

theorem Machine.Leads.funcs {env : Env σ} {m n : Machine σ}
    (hhosts : ∀ f ∈ env.hosts, f.SparesFuncs) (hm : m.outline.Sourced env.module)
    (h : Leads env m n) : n.store.funcs = m.store.funcs := by
  refine (h.changes env.module.assigns_any hm).preserve
    (P := fun h => h.store.funcs = m.store.funcs) ?_ rfl
  exact fun h h' hchange hh => (hchange.funcs hhosts).trans hh

end Wasm
