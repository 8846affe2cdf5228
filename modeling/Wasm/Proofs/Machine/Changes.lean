import Mathlib.Logic.Relation
import Wasm.Proofs.Limits.Cutoff
import Wasm.Proofs.Machine.Closure
import Wasm.Proofs.Structured.Refinement

/-!
# What running code can change

Of all that a machine has, code can read and change the store and the variables
of active functions, and it can do so in few ways: assign a variable a value of
its type, write or grow the memory, pay fuel, enter and leave functions, and
call the host. Every step, also one that faults, is a sequence of such changes,
so that an invariant of stores and variables has to be checked for each of them
and then holds throughout.
-/

namespace Wasm

variable {σ α β : Type}

/-- Of a store, only the fuel is paid with. -/
theorem Store.burn_eq_ok {s s' : Store} (h : s.burn = .ok s') :
    s' = { s with fuel := s'.fuel } := by
  unfold burn at h
  split at h
  · cases h
    rfl
  · cases h
  · cases h
    rfl

/-- The variables of an active function. -/
structure Activation where
  func : UInt32
  locals : Array Value

def Frame.activation (frame : Frame) : Activation where
  func := frame.func
  locals := frame.locals

/-- A store and the active functions that work on it, innermost first. -/
structure Holdings where
  store : Store
  active : List Activation

def Machine.holdings (m : Machine σ) : Holdings where
  store := m.store
  active := m.frames.map (·.activation)

theorem Machine.holdings_blameFrame (m : Machine σ) : m.blameFrame.holdings = m.holdings := by
  unfold Machine.blameFrame
  split <;> rfl

/-- Locals of a function that has just been entered. -/
def Activation.Fresh (env : Env σ) (type : FuncType) (code : Nat) (a : Activation) : Prop :=
  a.locals.toList.map Value.type =
    type.params ++ ((env.module.functions[code]?.map (·.locals)).getD #[]).toList

namespace Holdings

/-- One change. Of the globals, only those are assigned that are named here. -/
inductive Change (env : Env σ) (among : UInt32 → Prop) : Holdings → Holdings → Prop where
  | assignLocal {s : Store} {func : UInt32} {locals : Array Value} {rest : List Activation}
      {index : Nat} {old v : Value} (hold : locals[index]? = some old) (htype : v.type = old.type) :
      Change env among ⟨s, ⟨func, locals⟩ :: rest⟩
        ⟨s, ⟨func, locals.setIfInBounds index v⟩ :: rest⟩
  | assignGlobal {s : Store} {active : List Activation} {index : UInt32} {g : GlobalInst}
      {v : Value} (hamong : among index) (hg : s.globals[index.toNat]? = some g)
      (htype : v.type = g.value.type) :
      Change env among ⟨s, active⟩
        ⟨{ s with globals := s.globals.modify index.toNat ({ · with value := v }) }, active⟩
  | write {s s' : Store} {active : List Activation} {address : Nat} {bytes : List UInt8}
      (h : s.write address bytes = .ok s') : Change env among ⟨s, active⟩ ⟨s', active⟩
  | grow {s : Store} {active : List Activation} (delta : BitVec 32) :
      Change env among ⟨s, active⟩ ⟨(s.grow delta).2, active⟩
  | fuel {s : Store} {active : List Activation} (fuel : Option Nat) :
      Change env among ⟨s, active⟩ ⟨{ s with fuel }, active⟩
  | host {s : Store} {active : List Activation} {f : HostFunc σ} (hf : f ∈ env.hosts)
      (args : List Value) (state : σ) :
      Change env among ⟨s, active⟩ ⟨(f.call args s state).store, active⟩
  | enter {s : Store} {active : List Activation} {a : Activation} {type : FuncType} {code : Nat}
      (hfunc : s.funcs[a.func.toNat]? = some (.defined type code)) (ha : a.Fresh env type code) :
      Change env among ⟨s, active⟩ ⟨s, a :: active⟩
  | leave {s : Store} {active : List Activation} {a : Activation} :
      Change env among ⟨s, a :: active⟩ ⟨s, active⟩

/-- Any number of changes. -/
abbrev Changes (env : Env σ) (among : UInt32 → Prop) : Holdings → Holdings → Prop :=
  Relation.ReflTransGen (Change env among)

/-- What each single change preserves is preserved by all of them. -/
theorem Changes.preserve {env : Env σ} {among : UInt32 → Prop} {P : Holdings → Prop}
    (hP : ∀ h h', Change env among h h' → P h → P h') {h h' : Holdings}
    (hchanges : Changes env among h h') (hh : P h) : P h' := by
  induction hchanges with
  | refl => exact hh
  | tail _ hchange ih => exact hP _ _ hchange ih

end Holdings

-- ---------------------------------------------------------------------------
-- Contexts
-- ---------------------------------------------------------------------------

namespace Exec

open Holdings

/-- However the action ends, it leaves the store and the locals alone. -/
def Quiet (a : Exec α) : Prop :=
  ∀ c, (finalState (a c)).store = c.store ∧ (finalState (a c)).locals = c.locals

/-- However the action ends, what it does in a frame is a sequence of changes. -/
def Changing (env : Env σ) (among : UInt32 → Prop) (a : Exec α) : Prop :=
  ∀ c func rest, Changes env among ⟨c.store, ⟨func, c.locals⟩ :: rest⟩
    ⟨(finalState (a c)).store, ⟨func, (finalState (a c)).locals⟩ :: rest⟩

theorem quiet_unwind (height arity : Nat) : Quiet (unwind height arity) := by
  intro c
  rw [unwind_apply]
  split <;> exact ⟨rfl, rfl⟩

variable {env : Env σ} {among : UInt32 → Prop}

theorem Quiet.changing {a : Exec α} (ha : Quiet a) : Changing env among a := by
  intro c func rest
  rw [(ha c).1, (ha c).2]

namespace Changing

theorem bind {a : Exec α} {f : α → Exec β} (ha : Changing env among a)
    (hf : ∀ x, Changing env among (f x)) : Changing env among (a >>= f) := by
  intro c func rest
  have hc := ha c func rest
  rw [bind_apply]
  cases hresult : a c with
  | ok x c' =>
    rw [hresult] at hc
    exact hc.trans (hf x c' func rest)
  | error e c' =>
    rw [hresult] at hc
    exact hc

theorem pure (x : α) : Changing env among (pure x : Exec α) := fun _ _ _ => .refl

theorem throw (e : Fault) : Changing env among (throw e : Exec α) := fun _ _ _ => .refl

/-- An action that looks at the context first. -/
theorem get_bind {f : Context → Exec α} (h : ∀ c, Changing env among (f c)) :
    Changing env among (get >>= f) := fun c => h c c

theorem ofExcept (r : Except Trap α) : Changing env among (ofExcept r) := by
  cases r with
  | ok x => exact .pure x
  | error t => exact .throw (.trap t)

end Changing

theorem changing_basis (env : Env σ) (among : UInt32 → Prop) :
    Basis among fun {α} (a : Exec α) => Changing env among a where
  pure := .pure
  bind := .bind
  throw := .throw
  push v := Quiet.changing fun _ => ⟨rfl, rfl⟩
  pop := by
    apply Quiet.changing
    rintro ⟨_ | ⟨v, stack⟩, locals, labels, store⟩ <;> exact ⟨rfl, rfl⟩
  top := by
    apply Quiet.changing
    rintro ⟨_ | ⟨v, stack⟩, locals, labels, store⟩ <;> exact ⟨rfl, rfl⟩
  enter kind target arity := by
    apply Quiet.changing
    intro c
    simp only [enter, bind_apply, get_apply]
    split <;> exact ⟨rfl, rfl⟩
  branch depth := by
    apply Changing.get_bind
    intro c
    split
    · exact .pure _
    · apply (quiet_unwind _ _).changing.bind
      intro _
      apply Changing.bind
      · exact Quiet.changing fun _ => ⟨rfl, rfl⟩
      · exact fun _ => .pure _
  close := by
    rintro ⟨stack, locals, _ | ⟨label, labels⟩, store⟩
    · exact fun _ _ => .refl
    · exact ((quiet_unwind label.height label.results).changing.bind fun _ => .pure true)
        ⟨stack, locals, labels, store⟩
  localGet index := by
    apply Changing.get_bind
    intro c
    split
    · exact .pure _
    · exact .throw _
  localSet index v := by
    intro c func rest
    simp only [localSet, localGet, bind_apply, get_apply]
    cases hold : c.locals[index.toNat]? with
    | none => exact .refl
    | some old =>
      by_cases htype : old.type = v.type
      · simp only [pure_apply, ofExcept_apply, Value.assign, if_pos htype]
        exact .single (.assignLocal hold htype.symm)
      · simp only [pure_apply, ofExcept_apply, Value.assign, if_neg htype]
        exact .refl
  globalGet index := by
    apply Changing.get_bind
    intro c
    split
    · exact .pure _
    · exact .throw _
  globalSet index v hamong := by
    intro c func rest
    simp only [globalSet, globalGet, bind_apply, get_apply]
    cases hg : c.store.globals[index.toNat]? with
    | none => exact .refl
    | some g =>
      by_cases htype : g.value.type = v.type
      · simp only [pure_apply, ofExcept_apply, Value.assign, if_pos htype]
        exact .single (.assignGlobal hamong hg htype.symm)
      · simp only [pure_apply, ofExcept_apply, Value.assign, if_neg htype]
        exact .refl
  load kind address := by
    apply Changing.get_bind
    intro c
    split
    · exact .ofExcept _
    · exact .throw _
  store kind address v := by
    intro c func rest
    simp only [store, bind_apply, get_apply, ofExcept_apply]
    cases hstore : c.store.withMemory (·.store kind address v) with
    | error t => exact .refl
    | ok s =>
      obtain ⟨bytes, hwrite⟩ := Store.write_of_store hstore
      exact .single (.write hwrite)
  memorySize := fun _ _ _ => .refl
  memoryGrow delta := fun _ _ _ => .single (.grow delta)
  resolve table slot expected := Changing.get_bind fun _ => .ofExcept _
  burn := by
    intro c func rest
    simp only [burn, bind_apply, get_apply, ofExcept_apply]
    cases hburn : c.store.burn with
    | error t => exact .refl
    | ok s =>
      rw [Store.burn_eq_ok hburn]
      exact .single (.fuel s.fuel)

end Exec

-- ---------------------------------------------------------------------------
-- Machines
-- ---------------------------------------------------------------------------

/-- Prepared code that is from the module is made of its instructions. -/
theorem Exec.Basis.sourced {among : UInt32 → Prop} {E : ∀ {α : Type}, Exec α → Prop}
    (h : Basis among E) {mod : Module} (hmod : mod.Assigns among) {m : Machine σ}
    (hm : m.outline.Sourced mod) :
    ∀ frame ∈ m.frames, ∀ ops, frame.code = .prepared ops → ∀ op ∈ ops, E op := by
  intro frame hframe ops hcode
  obtain ⟨func, hof | hof⟩ := Machine.code_of_sourced hm frame hframe
  · cases hof.symm.trans hcode
  · cases hof.symm.trans hcode
    exact h.prepare hmod func

namespace Run

open Holdings

/-- However the action ends, what it does is a sequence of changes. -/
def Changing (env : Env σ) (among : UInt32 → Prop) (a : Run σ α) : Prop :=
  ∀ m, Changes env among m.holdings (finalState (a m)).holdings

namespace Changing

variable {env : Env σ} {among : UInt32 → Prop} {m : Machine σ}

theorem bind {a : Run σ α} {f : α → Run σ β} (ha : Changing env among a)
    (hf : ∀ x, Changing env among (f x)) : Changing env among (a >>= f) := by
  intro m
  have hm := ha m
  rw [bind_apply]
  cases hresult : a m with
  | ok x m' =>
    rw [hresult] at hm
    exact hm.trans (hf x m')
  | error e m' =>
    rw [hresult] at hm
    exact hm

theorem blaming {a : Run σ α} (ha : Changing env among a) (func : UInt32) :
    Changing env among (blaming func a) := by
  intro m
  have hm := ha m
  unfold Run.blaming
  cases hresult : a m with
  | ok x m' | error e m' =>
    rw [hresult] at hm
    exact hm

theorem inFrame {a : Exec α} (ha : a.Changing env among) :
    Changing env among (inFrame a : Run σ α) := by
  intro m
  cases hframes : m.frames with
  | nil =>
    simp only [Run.inFrame, hframes, finalState]
    exact .refl
  | cons frame rest =>
    have hc := ha (m.context frame) frame.func (rest.map (·.activation))
    have hm : m.holdings = ⟨m.store, ⟨frame.func, frame.locals⟩ :: rest.map (·.activation)⟩ := by
      rw [Machine.holdings, hframes]
      rfl
    rw [hm]
    simp only [Run.inFrame, hframes]
    cases hresult : a (m.context frame) with
    | ok x c | error e c =>
      rw [hresult] at hc
      exact hc

theorem leave : Changing env among (leave : Run σ Unit) := by
  intro m
  cases hframes : m.frames with
  | nil =>
    simp only [Run.leave, bind_apply, get_apply, hframes, trap_apply, finalState]
    exact .refl
  | cons frame rest =>
    have hm : m.holdings = ⟨m.store, frame.activation :: rest.map (·.activation)⟩ := by
      rw [Machine.holdings, hframes]
      rfl
    rw [hm]
    simp only [Run.leave, bind_apply, get_apply, hframes, set_apply]
    cases Exec.unwound m.stack frame.height frame.arity <;> exact .single .leave

theorem goto (pc : Nat) : Changing env among (goto pc : Run σ Unit) := by
  intro m
  rw [goto_apply]
  cases hframes : m.frames with
  | nil =>
    rw [m.goto_nil hframes]
    exact .refl
  | cons frame rest =>
    have hm : (m.goto pc).holdings = m.holdings := by
      rw [m.goto_cons hframes, Machine.holdings, Machine.holdings, hframes]
      rfl
    show Changes env among m.holdings (m.goto pc).holdings
    rw [hm]

theorem takeArgs (params : List ValueType) : Changing env among (takeArgs params) := by
  intro m
  rcases takeArgs_cases params m with ⟨args, hargs, _⟩ | ⟨t, stack, hargs⟩
  · rw [hargs]
    exact .refl
  · rw [hargs]
    exact .refl

theorem callHost (func : UInt32) (type : FuncType) (module name : String) (slot : Nat) :
    Changing env among (callHost env func type module name slot) := by
  apply Changing.blaming
  split
  · exact fun _ => .refl
  · rename_i f hf
    apply (takeArgs type.params).bind
    intro args m
    have hcall : Change env among m.holdings
        ⟨(f.call args m.store m.host).store, m.holdings.active⟩ :=
      .host (Array.mem_of_getElem? hf) args m.host
    simp only [bind_apply, get_apply, set_apply, ofExcept_apply]
    cases checkReply type module name (f.call args m.store m.host).result <;> exact .single hcall

theorem enter {func : UInt32} {type : FuncType} {code : Nat}
    (hfunc : m.store.funcs[func.toNat]? = some (.defined type code)) :
    Changes env among m.holdings (finalState (enter env func type code m)).holdings := by
  unfold Run.enter
  rcases takeLocals_cases env type code m with ⟨locals, hlocals, htypes⟩ | ⟨t, stack, hlocals⟩
  · have henter : Change env among m.holdings ⟨m.store, ⟨func, locals⟩ :: m.holdings.active⟩ :=
      .enter hfunc htypes
    rw [bind_ok (blaming_ok hlocals func)]
    unfold frameCode
    split <;> exact .single henter
  · rw [bind_error (blaming_error hlocals func)]
    exact .refl

theorem call (func : UInt32) : Changing env among (call env func) := by
  intro m
  cases hfunc : m.store.funcs[func.toNat]? with
  | none =>
    rw [call_missing hfunc]
    exact .refl
  | some f =>
    cases f with
    | host type module name slot =>
      rw [call_host hfunc]
      exact callHost func type module name slot m
    | defined type code =>
      rw [call_defined hfunc]
      exact enter hfunc

theorem closed : Closed (fun a => a.Changing env among)
    fun {α} (a : Run σ α) => Changing env among a where
  pure _ := fun _ => .refl
  bind := .bind
  inFrame := .inFrame
  goto := .goto
  leave := .leave

theorem step (hmod : env.module.Assigns among) (hm : m.outline.Sourced env.module) :
    Changes env among m.holdings (finalState (step env m)).holdings := by
  have hbasis := Exec.changing_basis env among
  obtain ⟨a, ha, hstep⟩ := closed.step (hbasis.covers _) hmod call (hbasis.sourced hmod hm)
  have hself : Run.step env m = a m := hstep m.cache
  rw [hself]
  exact ha m

theorem steps (hmod : env.module.Assigns among) (hm : m.outline.Sourced env.module)
    (budget : Nat) : Changes env among m.holdings (finalState (steps env budget m)).holdings := by
  induction budget generalizing m with
  | zero =>
    by_cases hframes : m.frames = []
    · rw [steps_nil hframes]
      exact .refl
    · rw [steps_zero hframes]
      exact .refl
  | succ budget ih =>
    by_cases hframes : m.frames = []
    · rw [steps_nil hframes]
      exact .refl
    · rw [steps_succ hframes]
      have hstep := step hmod hm
      cases hresult : Run.step env m with
      | error e m' =>
        rw [hresult] at hstep
        rw [bind_error hresult]
        exact hstep
      | ok u m' =>
        rw [hresult] at hstep
        rw [bind_ok hresult]
        exact hstep.trans (ih ((Outline.invariant_sourced env).kept_step hm hresult))

/-- However a call ends, what it does is a sequence of changes. -/
theorem callToEnd (hmod : env.module.Assigns among) (hm : m.outline.Sourced env.module)
    (budget : Nat) (func : UInt32) :
    Changes env among m.holdings (finalState (callToEnd env budget func m)).holdings := by
  have hcall : Changes env among m.holdings (finalState (Run.call env func m)).holdings :=
    call func m
  cases hresult : Run.call env func m with
  | error e m' =>
    rw [hresult] at hcall
    rw [Run.callToEnd, bind_error hresult]
    exact hcall
  | ok u m' =>
    rw [hresult] at hcall
    have hsteps := steps hmod ((Outline.invariant_sourced env).kept_call func hm hresult) budget
    rw [Run.callToEnd, bind_ok hresult, blamingFrame_apply]
    cases hend : Run.steps env budget m' with
    | ok u n =>
      rw [hend] at hsteps
      exact hcall.trans hsteps
    | error e n =>
      rw [hend] at hsteps
      have hblamed : n.blameFrame.holdings = n.holdings := n.holdings_blameFrame
      exact hcall.trans (hblamed ▸ hsteps)

end Changing

end Run

end Wasm
