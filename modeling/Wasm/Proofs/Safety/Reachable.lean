import Wasm.Proofs.Format.Decoded
import Wasm.Proofs.Safety.Linking
import Wasm.Proofs.Strategy.Agreement

/-!
# Reachable machines

A valid module that was read from bytes runs safely: in every state that calls
and steps can reach, under either strategy, what the next step relies on is
given, and a step that fails does so with a trap. `Module.execution_safe`
states this for the module as it was read and after its bodies were cut short
or its functions retyped.
-/

namespace Wasm

variable {σ α : Type}

-- ---------------------------------------------------------------------------
-- Edited modules
-- ---------------------------------------------------------------------------

/-- A change to a module that was read. -/
inductive Edit where
  | truncate (func n : Nat)
  | retype (func : Nat) (type : UInt32)

def Module.edit (m : Module) : Edit → Module
  | .truncate func n => m.truncateBody func n
  | .retype func type => m.retype func type

/-- Positions point into the code they are part of. -/
theorem Code.positions_lt (c : Code) (p : Nat) :
    ∀ i ∈ c.layout p, ∀ q ∈ i.positions, q < p + c.size := by
  induction c generalizing p with
  | nil => simp [layout]
  | plain i rest ih =>
    intro j hj q hq
    rcases List.mem_cons.mp hj with rfl | hj
    · cases hq
    · have := ih (p + 1) j hj q hq
      simp only [size]
      omega
  | block type body rest ihb ihr =>
    intro j hj q hq
    simp only [layout, List.cons_append, List.mem_cons, List.mem_append] at hj
    simp only [size]
    rcases hj with rfl | hj | rfl | hj
    · simp only [Instr.positions, List.mem_singleton] at hq
      omega
    · have := ihb _ j hj q hq
      omega
    · cases hq
    · have := ihr _ j hj q hq
      omega
  | loop type body rest ihb ihr =>
    intro j hj q hq
    simp only [layout, List.cons_append, List.mem_cons, List.mem_append] at hj
    simp only [size]
    rcases hj with rfl | hj | rfl | hj
    · cases hq
    · have := ihb _ j hj q hq
      omega
    · cases hq
    · have := ihr _ j hj q hq
      omega
  | ifThen type body rest ihb ihr =>
    intro j hj q hq
    simp only [layout, List.cons_append, List.mem_cons, List.mem_append] at hj
    simp only [size]
    rcases hj with rfl | hj | rfl | hj
    · simp only [Instr.positions, Option.toList_none, List.nil_append,
        List.mem_singleton] at hq
      omega
    · have := ihb _ j hj q hq
      omega
    · cases hq
    · have := ihr _ j hj q hq
      omega
  | ifElse type body otherwise rest ihb iho ihr =>
    intro j hj q hq
    simp only [layout, List.cons_append, List.append_assoc, List.mem_cons, List.mem_append] at hj
    simp only [size]
    rcases hj with rfl | hj | rfl | hj | rfl | hj
    · simp only [Instr.positions, Option.toList_some, List.cons_append, List.nil_append,
        List.mem_cons, List.not_mem_nil, or_false] at hq
      omega
    · have := ihb _ j hj q hq
      omega
    · simp only [Instr.positions, List.mem_singleton] at hq
      omega
    · have := iho _ j hj q hq
      omega
    · cases hq
    · have := ihr _ j hj q hq
      omega

theorem Code.body_positions_lt (c : Code) : ∀ i ∈ c.body, ∀ q ∈ i.positions, q < c.size := by
  intro i hi q hq
  simp only [Code.body, List.mem_toArray, List.mem_append, List.mem_singleton] at hi
  rcases hi with hi | rfl
  · have := c.positions_lt 0 i hi q hq
    omega
  · cases hq

theorem Format.Readable.sized {m : Module} (h : Format.Readable m) : m.Sized where
  types := h.types
  positions f hf := by
    obtain ⟨c, hbody, hsize, _⟩ := h.bodies f hf
    rw [hbody, c.size_body]
    refine ⟨by omega, fun i hi q hq => ?_⟩
    have := c.body_positions_lt i hi q hq
    omega
  elements := h.elements
  data := h.data

/-- Changing one function keeps positions small if it keeps a part of the
    body. -/
theorem Module.Sized.modify {m : Module} (h : m.Sized) (func : Nat) {change : Function → Function}
    (hsize : ∀ f, (change f).body.size ≤ f.body.size)
    (hbody : ∀ f, ∀ i ∈ (change f).body, i ∈ f.body) :
    Module.Sized { m with functions := m.functions.modify func change } where
  types := h.types
  positions f hf := by
    obtain ⟨j, hj, rfl⟩ := Array.mem_iff_getElem.mp hf
    rw [Array.getElem_modify]
    have hold := h.positions _ (Array.getElem_mem (by simpa using hj : j < m.functions.size))
    split
    · exact ⟨Nat.le_trans (hsize _) hold.1, fun i hi => hold.2 i (hbody _ i hi)⟩
    · exact hold
  elements := h.elements
  data := h.data

theorem Module.Sized.edit {m : Module} (h : m.Sized) (e : Edit) : (m.edit e).Sized := by
  cases e with
  | truncate func n =>
    refine h.modify func (fun f => ?_) fun f i hi => ?_
    · rw [Array.take_eq_extract, Array.size_extract]
      omega
    · obtain ⟨k, hk, rfl⟩ := Array.mem_iff_getElem.mp hi
      simp only [Array.take_eq_extract, Array.getElem_extract]
      exact Array.getElem_mem _
  | retype func type => exact h.modify func (fun _ => Nat.le_refl _) fun _ _ hi => hi

theorem Module.Sized.edits {m : Module} (h : m.Sized) (es : List Edit) :
    (es.foldl Module.edit m).Sized := by
  induction es generalizing m with
  | nil => exact h
  | cons e es ih => exact ih (h.edit e)

-- ---------------------------------------------------------------------------
-- Both strategies
-- ---------------------------------------------------------------------------

namespace Machine

variable {env : Env σ} {compile : Bool} {H : Nat} {m n : Machine σ}

/-- A machine that is sound, or that runs what is prepared from the bodies of a
    sound machine. -/
def Standing (env : Env σ) (H : Nat) : (compile : Bool) → Machine σ → Prop
  | false, n => n.Sound (env.strategy false) H
  | true, n => ∃ m : Machine σ, m.Twin env.module n ∧ m.Sound (env.strategy false) H

/-- The result of an action that left a standing machine, or trapped and left
    one once its frames are dropped. -/
def Stays (env : Env σ) (H : Nat) (compile : Bool) :
    EStateM.Result Fault (Machine σ) α → Prop
  | .ok _ n => n.Standing env H compile
  | .error e n => (∃ t, e = .trap t) ∧ n.reset.Standing env H compile

theorem reset_sound (h : m.store.Sound env) : m.reset.Sound env H :=
  ⟨h, rfl, fun _ hframe => by cases hframe⟩

theorem Lands.stays {r : EStateM.Result Fault (Machine σ) α}
    (h : Lands (env.strategy false) H r) : Stays env H false r := by
  cases r with
  | ok x n => exact h
  | error e n => exact ⟨h.1, reset_sound h.2⟩

/-- What holds of interpreted code holds of prepared code. -/
theorem Lands.stays_twin {r s : EStateM.Result Fault (Machine σ) α}
    (h : Lands (env.strategy false) H r)
    (hagree : Run.Agree (Twin env.module) (Alike env.module) r s) : Stays env H true s := by
  rcases hagree.cases with ⟨x, m, n, rfl, rfl, htwin⟩ | ⟨e, m, n, rfl, rfl, halike⟩
  · exact ⟨m, htwin, h⟩
  · exact ⟨h.1, m.reset, halike.reset, reset_sound h.2⟩

theorem Twin.demands_eq (h : m.Twin env.module n) : n.demands env = m.demands env := by
  obtain ⟨_, cache, _, rfl⟩ := h
  obtain ⟨shared, store, stack, frames, depth, origin⟩ := m
  cases frames <;> rfl

theorem Twin.callDemands_eq (h : m.Twin env.module n) (func : UInt32) :
    n.callDemands env func = m.callDemands env func := by
  obtain ⟨_, cache, _, rfl⟩ := h
  rfl

/-- What a standing machine relies on is given. -/
theorem Standing.demands_met (henv : (env.strategy false).Sound)
    (h : n.Standing env operandLimit compile) : ∀ d ∈ n.demands env, d.Met := by
  cases compile with
  | false =>
    have hmet := Machine.demands_met henv h
    exact hmet
  | true =>
    obtain ⟨m, htwin, hm⟩ := h
    have hmet := Machine.demands_met henv hm
    rw [htwin.demands_eq]
    exact hmet

theorem Standing.callDemands_met (henv : (env.strategy false).Sound)
    (h : n.Standing env operandLimit compile) (func : UInt32) :
    ∀ d ∈ n.callDemands env func, d.Met := by
  cases compile with
  | false => exact Machine.callDemands_met henv h func
  | true =>
    obtain ⟨m, htwin, hm⟩ := h
    rw [htwin.callDemands_eq]
    exact Machine.callDemands_met henv hm func

theorem Twin.stack_eq (h : m.Twin env.module n) : n.stack = m.stack := by
  obtain ⟨_, cache, _, rfl⟩ := h
  rfl

theorem Standing.step (henv : (env.strategy false).Sound) (h : n.Standing env H compile)
    (hstack : n.stack.length < H) :
    Stays env H compile (Run.step (env.strategy compile) n) := by
  cases compile with
  | false => exact (Run.step_lands henv rfl h hstack).stays
  | true =>
    obtain ⟨m, htwin, hm⟩ := h
    have hlands := Run.step_lands henv rfl hm (htwin.stack_eq ▸ hstack)
    exact hlands.stays_twin (Run.Mirrors.step env (Validity.callTypesExist henv.valid) m n htwin)

theorem Standing.call (henv : (env.strategy false).Sound) (h : n.Standing env H compile)
    (hstack : n.stack.length ≤ H) (func : UInt32) :
    Stays env H compile (Run.call (env.strategy compile) func n) := by
  cases compile with
  | false => exact (Run.call_lands henv rfl h hstack func).stays
  | true =>
    obtain ⟨m, htwin, hm⟩ := h
    have hlands := Run.call_lands henv rfl hm (htwin.stack_eq ▸ hstack) func
    exact hlands.stays_twin (Run.Mirrors.call env func m n htwin)

/-- A machine without frames stands under either strategy. -/
theorem standing_of_idle (hstore : n.store.Sound (env.strategy false)) (hframes : n.frames = [])
    (hdepth : n.depth = 0) (hcache : n.cache.Coherent env.module) :
    n.Standing env H compile := by
  have hsound : n.Sound (env.strategy false) H :=
    ⟨hstore, by rw [hdepth, hframes]; rfl, by simp [hframes]⟩
  cases compile with
  | false => exact hsound
  | true =>
    refine ⟨n, ⟨by simp [hframes], n.cache, hcache, ?_⟩, hsound⟩
    rw [hframes]
    obtain ⟨shared, store, stack, frames, depth, origin⟩ := n
    subst hframes
    rfl

theorem Standing.mono {K : Nat} (h : n.Standing env H compile) (hle : H ≤ K) :
    n.Standing env K compile := by
  have hmono : ∀ {m : Machine σ}, m.Sound (env.strategy false) H →
      m.Sound (env.strategy false) K := by
    intro m hm
    refine ⟨hm.store, hm.depth, fun frame hframe => ?_⟩
    have hf := hm.frames frame hframe
    refine ⟨hf.runs, Nat.le_trans hf.height hle, hf.arity, fun label hlabel => ?_⟩
    have hl := hf.labels label hlabel
    exact ⟨Nat.le_trans hl.height hle, hl.arity, hl.results⟩
  cases compile with
  | false => exact hmono h
  | true =>
    obtain ⟨m, htwin, hm⟩ := h
    exact ⟨m, htwin, hmono hm⟩

/-- Nothing about the operands matters to a standing machine. -/
theorem Standing.withStack (h : n.Standing env H compile) (stack : List Value)
    (origin : Option UInt32) : { n with stack, origin }.Standing env H compile := by
  cases compile with
  | false => exact ⟨h.store, h.depth, h.frames⟩
  | true =>
    obtain ⟨m, ⟨hbody, cache, hcache, rfl⟩, hm⟩ := h
    exact ⟨{ m with stack, origin }, ⟨hbody, cache, hcache, rfl⟩, hm.store, hm.depth, hm.frames⟩

end Machine

-- ---------------------------------------------------------------------------
-- Reachable machines
-- ---------------------------------------------------------------------------

/-- The numbers fit the words that hold them. -/
structure Config.Representable (config : Config) : Prop where
  maxCallDepth : config.maxCallDepth < UInt64.size
  maxMemoryPages : config.maxMemoryPages < UInt32.size

/-- The machines that instances of the module run through: linking, then calls
    from outside with any arguments, step by step and each to its end or to a
    trap. There is room for every operand on the way. -/
inductive Module.Reached (m : Module) (imports : Imports σ) (config : Config) :
    Env σ → Machine σ → Prop where
  | linked {l : Link.Linked σ} (h : m.link imports config = .ok l) (called : List Nat) (host : σ) :
      Reached m imports config { module := m, hosts := l.hosts, config }
        { cache := .filled m called, host, store := l.store }
  | arguments {env : Env σ} {n : Machine σ} (h : Reached m imports config env n)
      (hidle : n.frames = []) (args : List Value) (origin : Option UInt32) :
      Reached m imports config env { n with stack := args.reverse, origin }
  | call {env : Env σ} {n n' : Machine σ} (func : UInt32) (h : Reached m imports config env n)
      (hidle : n.frames = []) (hroom : n.stack.length < operandLimit)
      (hcall : Run.call env func n = .ok () n') : Reached m imports config env n'
  | step {env : Env σ} {n n' : Machine σ} (h : Reached m imports config env n)
      (hroom : n.stack.length < operandLimit) (hstep : Run.step env n = .ok () n') :
      Reached m imports config env n'
  | callTrap {env : Env σ} {n n' : Machine σ} {e : Fault} (func : UInt32)
      (h : Reached m imports config env n) (hidle : n.frames = [])
      (hroom : n.stack.length < operandLimit) (hcall : Run.call env func n = .error e n') :
      Reached m imports config env n'.reset
  | stepTrap {env : Env σ} {n n' : Machine σ} {e : Fault} (h : Reached m imports config env n)
      (hroom : n.stack.length < operandLimit) (hstep : Run.step env n = .error e n') :
      Reached m imports config env n'.reset

theorem Env.strategy_self (env : Env σ) : env.strategy env.config.compile = env := rfl

/-- Reachable machines stand, in an environment that is sound. -/
theorem Module.Reached.standing {m : Module} (hm : Validity.check m = .ok ()) (hsized : m.Sized)
    {imports : Imports σ} (himports : imports.Tame) {config : Config}
    (hconfig : config.Representable) {env : Env σ} {n : Machine σ}
    (h : m.Reached imports config env n) :
    (env.strategy false).Sound ∧ n.Standing env operandLimit env.config.compile := by
  induction h with
  | linked hlink called host =>
    obtain ⟨hstore, htame⟩ := Module.link_sound hm himports hconfig.maxMemoryPages hlink
    refine ⟨⟨hm, hsized, htame, hconfig.maxCallDepth⟩, ?_⟩
    exact Machine.standing_of_idle ⟨hstore.hosts, hstore.defined, hstore.globals, hstore.pageLimit⟩
      rfl rfl (CodeCache.filled_coherent m called)
  | arguments h hidle args origin ih => exact ⟨ih.1, ih.2.withStack args.reverse origin⟩
  | call func h hidle hroom hcall ih =>
    have hstays := ih.2.call ih.1 (Nat.le_of_lt hroom) func
    rw [Env.strategy_self, hcall] at hstays
    exact ⟨ih.1, hstays⟩
  | step h hroom hstep ih =>
    have hstays := ih.2.step ih.1 hroom
    rw [Env.strategy_self, hstep] at hstays
    exact ⟨ih.1, hstays⟩
  | callTrap func h hidle hroom hcall ih =>
    have hstays := ih.2.call ih.1 (Nat.le_of_lt hroom) func
    rw [Env.strategy_self, hcall] at hstays
    exact ⟨ih.1, hstays.2⟩
  | stepTrap h hroom hstep ih =>
    have hstays := ih.2.step ih.1 hroom
    rw [Env.strategy_self, hstep] at hstays
    exact ⟨ih.1, hstays.2⟩

-- ---------------------------------------------------------------------------
-- Sessions
-- ---------------------------------------------------------------------------

/-- The guest trapped, or the steps granted to a run were used up. -/
def Fault.Proper (e : Fault) : Prop := e = .unfinished ∨ ∃ t, e = .trap t

/-- The faults seen in a session. -/
def Session.faults : Session σ → List Fault
  | .rejected (.start e) _ => [e]
  | .rejected _ _ => []
  | .opened _ observations => observations.filterMap fun o =>
    match o.result with
    | .ok _ => none
    | .error e => some e

theorem Session.mem_faults_opened {sight : Sight σ} {observations : List (Observation σ)}
    {e : Fault} (h : e ∈ (Session.opened sight observations).faults) :
    ∃ o ∈ observations, o.result = .error e := by
  obtain ⟨o, ho, he⟩ := List.mem_filterMap.mp h
  refine ⟨o, ho, ?_⟩
  cases hresult : o.result with
  | ok a =>
    rw [hresult] at he
    cases he
  | error f =>
    rw [hresult] at he
    cases he
    rfl

namespace Machine

variable {env : Env σ} {compile : Bool} {H : Nat} {n : Machine σ}

/-- A machine that stands, however many operands its frames have below. -/
def Upright (env : Env σ) (compile : Bool) (n : Machine σ) : Prop :=
  ∃ H, n.Standing env H compile

/-- The result of a run that left an upright machine, or stopped and left one
    once its frames are dropped. -/
def Ends (env : Env σ) (compile : Bool) : EStateM.Result Fault (Machine σ) α → Prop
  | .ok _ n => n.Upright env compile
  | .error e n => e.Proper ∧ n.reset.Upright env compile

theorem Stays.ends {r : EStateM.Result Fault (Machine σ) α} (h : Stays env H compile r) :
    Ends env compile r := by
  cases r with
  | ok x n => exact ⟨H, h⟩
  | error e n => exact ⟨.inr h.1, H, h.2⟩

theorem Upright.reset (h : n.Upright env compile) : n.reset.Upright env compile := by
  obtain ⟨H, h⟩ := h
  refine ⟨H, ?_⟩
  cases compile with
  | false => exact reset_sound h.store
  | true =>
    obtain ⟨m, htwin, hm⟩ := h
    exact ⟨m.reset, htwin.alike.reset, reset_sound hm.store⟩

theorem Upright.withStack (h : n.Upright env compile) (stack : List Value)
    (origin : Option UInt32) : { n with stack, origin }.Upright env compile := by
  obtain ⟨H, h⟩ := h
  exact ⟨H, h.withStack stack origin⟩

theorem Upright.step (henv : (env.strategy false).Sound) (h : n.Upright env compile) :
    Ends env compile (Run.step (env.strategy compile) n) := by
  obtain ⟨H, h⟩ := h
  have hmono := h.mono (Nat.le_max_left H (n.stack.length + 1))
  refine Stays.ends (hmono.step henv ?_)
  have := Nat.le_max_right H (n.stack.length + 1)
  omega

theorem Upright.call (henv : (env.strategy false).Sound) (h : n.Upright env compile)
    (func : UInt32) : Ends env compile (Run.call (env.strategy compile) func n) := by
  obtain ⟨H, h⟩ := h
  have hmono := h.mono (Nat.le_max_left H n.stack.length)
  exact Stays.ends (hmono.call henv (Nat.le_max_right _ _) func)

theorem Ends.bind {β : Type} {a : Run σ α} {f : α → Run σ β} (ha : Ends env compile (a n))
    (hf : ∀ x (n' : Machine σ), n'.Upright env compile → Ends env compile (f x n')) :
    Ends env compile ((a >>= f) n) := by
  rw [Run.bind_apply]
  cases hresult : a n with
  | ok x n' =>
    rw [hresult] at ha
    exact hf x n' ha
  | error e n' =>
    rw [hresult] at ha
    exact ha

theorem Upright.steps (henv : (env.strategy false).Sound) (budget : Nat)
    (h : n.Upright env compile) :
    Ends env compile (Run.steps (env.strategy compile) budget n) := by
  induction budget generalizing n with
  | zero =>
    simp only [Run.steps, Run.bind_apply, Run.get_apply]
    split
    · exact h
    · exact ⟨.inl rfl, h.reset⟩
  | succ budget ih =>
    simp only [Run.steps, Run.bind_apply, Run.get_apply]
    split
    · exact h
    · exact (h.step henv).bind fun _ n' hn' => ih hn'

theorem Ends.blamingFrame {a : Run σ Unit} (h : Ends env compile (a n)) :
    Ends env compile (Run.blamingFrame a n) := by
  rw [Run.blamingFrame_apply]
  cases hresult : a n with
  | ok x n' =>
    rw [hresult] at h
    exact h
  | error e n' =>
    rw [hresult] at h
    refine ⟨h.1, ?_⟩
    unfold Machine.blameFrame
    split
    · exact h.2
    · exact h.2.withStack [] _

theorem Upright.callToEnd (henv : (env.strategy false).Sound) (budget : Nat) (func : UInt32)
    (h : n.Upright env compile) :
    Ends env compile (Run.callToEnd (env.strategy compile) budget func n) :=
  (h.call henv func).bind fun _ _ hn' => (hn'.steps henv budget).blamingFrame

theorem Upright.withStore {s : Store} (h : n.Upright env compile)
    (hfuncs : s.funcs = n.store.funcs) (hglobals : s.globals.size = n.store.globals.size)
    (hpages : s.pageLimit = n.store.pageLimit) :
    { n with store := s }.Upright env compile := by
  obtain ⟨H, h⟩ := h
  have hsound : ∀ m : Machine σ, m.store = n.store → m.Sound (env.strategy false) H →
      { m with store := s }.Sound (env.strategy false) H := by
    intro m hstore hm
    rw [← hstore] at hfuncs hglobals hpages
    have hkept := hm.store.of_kept hfuncs (Nat.le_of_eq hglobals.symm)
      (hpages ▸ hm.store.pageLimit)
    exact ⟨hkept, hm.depth, fun frame hframe => hfuncs ▸ hm.frames frame hframe⟩
  refine ⟨H, ?_⟩
  cases compile with
  | false => exact hsound n rfl h
  | true =>
    obtain ⟨m, ⟨hbody, cache, hcache, rfl⟩, hm⟩ := h
    exact ⟨{ m with store := s }, ⟨hbody, cache, hcache, rfl⟩, hsound m rfl hm⟩

/-- The result of a request, which leaves an upright machine in any case. -/
def Answers (env : Env σ) (compile : Bool) : EStateM.Result Fault (Machine σ) α → Prop
  | .ok _ n => n.Upright env compile
  | .error e n => e.Proper ∧ n.Upright env compile

theorem Ends.cleaning {a : Run σ α} (h : Ends env compile (a n)) :
    Answers env compile (Run.cleaning a n) := by
  unfold Run.cleaning
  cases hresult : a n with
  | ok x n' =>
    rw [hresult] at h
    exact h
  | error e n' =>
    rw [hresult] at h
    exact h

theorem Answers.map {β : Type} {a : Run σ α} (h : Answers env compile (a n)) (f : α → β) :
    Answers env compile ((do return f (← a) : Run σ β) n) := by
  rw [Run.bind_apply]
  cases hresult : a n with
  | ok x n' =>
    rw [hresult] at h
    exact h
  | error e n' =>
    rw [hresult] at h
    exact h

theorem Upright.invokeFunction (henv : (env.strategy false).Sound) (budget : Nat) (func : UInt32)
    (name : String) (args : List Value) (h : n.Upright env compile) :
    Answers env compile (Run.invokeFunction (env.strategy compile) budget func name args n) := by
  unfold Run.invokeFunction
  simp only [Run.bind_apply, Run.get_apply]
  cases n.store.funcs[func.toNat]? with
  | none => exact ⟨.inr ⟨_, rfl⟩, h⟩
  | some f =>
    dsimp only
    split
    · refine Ends.cleaning (Ends.bind (h.withStack args.reverse none) fun _ n' hn' => ?_)
      refine Ends.bind (hn'.callToEnd henv budget func) fun _ n'' hn'' => ?_
      exact hn''.withStack [] n''.origin
    · exact ⟨.inr ⟨_, rfl⟩, h⟩

theorem Upright.request (henv : (env.strategy false).Sound) (budget : Nat) (request : Request)
    (h : n.Upright env compile) :
    Answers env compile (request.run (env.strategy compile) budget n) := by
  cases request with
  | invoke name args =>
    refine Answers.map ?_ _
    unfold Run.invoke
    simp only [Run.bind_apply, Run.get_apply]
    rcases n.store.export? name with _ | index | index | index | index
    · exact ⟨.inr ⟨_, rfl⟩, h⟩
    · exact h.invokeFunction henv budget index name args
    all_goals exact ⟨.inr ⟨_, rfl⟩, h⟩
  | invokeIndirect slot args =>
    refine Answers.map ?_ _
    unfold Run.invokeIndirect
    simp only [Run.bind_apply, Run.get_apply]
    cases n.store.element? 0 slot.toNat with
    | none => exact ⟨.inr ⟨_, rfl⟩, h⟩
    | some func => exact h.invokeFunction henv budget func _ args
  | readMemory address count =>
    refine Answers.map ?_ _
    unfold Run.readMemory
    simp only [Run.bind_apply, Run.get_apply]
    cases n.store.read address count with
    | ok bytes => exact h
    | error t => exact ⟨.inr ⟨t, rfl⟩, h⟩
  | writeMemory address bytes =>
    refine Answers.map ?_ fun _ => Answer.done
    unfold Run.writeMemory
    simp only [Run.bind_apply, Run.get_apply]
    cases hwrite : n.store.write address bytes with
    | ok s =>
      obtain ⟨_, _, rfl⟩ := Store.write_eq_ok hwrite
      exact h.withStore rfl rfl rfl
    | error t => exact ⟨.inr ⟨t, rfl⟩, h⟩
  | setFuel fuel =>
    have hstore : { n.store with fuel }.pageLimit = n.store.pageLimit := rfl
    exact h.withStore rfl rfl hstore

end Machine

/-- Every request of an upright instance is answered, traps or does not end. -/
theorem Instance.serve_proper {env : Env σ} {compile : Bool} (henv : (env.strategy false).Sound)
    (budget : Nat) (requests : List Request) {n : Machine σ} (h : n.Upright env compile) :
    ∀ o ∈ Instance.serve budget ⟨env.strategy compile, n⟩ requests,
      ∀ e, o.result = .error e → e.Proper := by
  induction requests generalizing n with
  | nil => simp [Instance.serve]
  | cons request rest ih =>
    have hanswer := h.request henv budget request
    intro o ho e he
    simp only [Instance.serve, Instance.run] at ho
    cases hresult : request.run (env.strategy compile) budget n with
    | ok x n' =>
      rw [hresult] at hanswer ho
      rcases List.mem_cons.mp ho with rfl | ho
      · cases he
      · exact ih hanswer o ho e he
    | error f n' =>
      rw [hresult] at hanswer ho
      rcases List.mem_cons.mp ho with rfl | ho
      · cases he
        exact hanswer.1
      · cases f with
        | unfinished => cases ho
        | trap t => exact ih hanswer.2 o ho e he
        | missing space index => exact ih hanswer.2 o ho e he

theorem Module.session_proper {m : Module} (hm : Validity.check m = .ok ()) (hsized : m.Sized)
    {imports : Imports σ} (himports : imports.Tame) {config : Config}
    (hconfig : config.Representable) (called : List Nat) (host : σ) (requests : List Request)
    (budget : Nat) :
    ∀ e ∈ (m.session imports config ⟨.filled m called, host⟩ requests budget).faults,
      e.Proper := by
  intro e he
  unfold Module.session Module.instantiate at he
  cases hlink : m.link imports config with
  | error reason =>
    rw [hlink] at he
    cases reason with
    | start f => exact absurd hlink (Module.link_ne_start f)
    | _ => cases he
  | ok l =>
    let env : Env σ := { module := m, hosts := l.hosts, config }
    let n : Machine σ := { cache := .filled m called, host, store := l.store }
    have hreached : m.Reached imports config env n := .linked hlink called host
    obtain ⟨henv, hstanding⟩ := hreached.standing hm hsized himports hconfig
    have hupright : n.Upright env config.compile := ⟨_, hstanding⟩
    have hserve : ∀ {n' : Machine σ}, n'.Upright env config.compile → ∀ o ∈
        Instance.serve budget ⟨env, n'⟩ requests, ∀ e, o.result = .error e → e.Proper :=
      fun hn' => Instance.serve_proper henv budget requests hn'
    rw [hlink] at he
    dsimp only at he
    cases hstart : m.start with
    | none =>
      rw [hstart] at he
      obtain ⟨o, ho, hresult⟩ := Session.mem_faults_opened he
      exact hserve hupright o ho e hresult
    | some func =>
      rw [hstart] at he
      have hends := hupright.callToEnd henv budget func
      rw [Env.strategy_self] at hends
      dsimp only at he
      cases hcall : Run.callToEnd env budget func n with
      | ok x n' =>
        rw [hcall] at he hends
        obtain ⟨o, ho, hresult⟩ := Session.mem_faults_opened he
        exact hserve (hends.withStack [] n'.origin) o ho e hresult
      | error f n' =>
        rw [hcall] at he hends
        cases List.mem_singleton.mp he
        exact hends.1

-- ---------------------------------------------------------------------------
-- Safety
-- ---------------------------------------------------------------------------

/-- The frame runs its function, from the body or as prepared from it. -/
def Frame.Runs (env : Env σ) (s : Store) (frame : Frame) : Prop :=
  ∃ type code, s.funcs[frame.func.toNat]? = some (.defined type code) ∧
    frame.code = if env.config.compile then .prepared (env.module.prepare code) else .body code

theorem Machine.Standing.runs {env : Env σ} {H : Nat} {n : Machine σ}
    (h : n.Standing env H env.config.compile) : ∀ frame ∈ n.frames, frame.Runs env n.store := by
  have hruns : ∀ {m : Machine σ}, m.Sound (env.strategy false) H → ∀ frame ∈ m.frames,
      ∃ type code, m.store.funcs[frame.func.toNat]? = some (.defined type code) ∧
        frame.code = .body code := by
    intro m hm frame hframe
    obtain ⟨type, code, _, hfunc, _, hcode, _⟩ := (hm.frames frame hframe).runs
    exact ⟨type, code, hfunc, hcode⟩
  intro frame hframe
  unfold Frame.Runs
  cases hcompile : env.config.compile with
  | false =>
    rw [hcompile] at h
    exact hruns h frame hframe
  | true =>
    rw [hcompile] at h
    obtain ⟨m, ⟨_, cache, _, rfl⟩, hm⟩ := h
    obtain ⟨g, hg, rfl⟩ := List.mem_map.mp hframe
    obtain ⟨type, code, hfunc, hcode⟩ := hruns hm g hg
    refine ⟨type, code, hfunc, ?_⟩
    simp only [Frame.prepare, hcode, FrameCode.prepare, if_true]

/-- A module that was read, and perhaps edited, and is valid runs safely with
    hosts that are tame. Whatever linking, a call or a step relies on is given;
    each frame runs its own function; and whatever fails does so with a trap or
    a link error. -/
theorem Module.execution_safe {bytes : List UInt8} {read : Module}
    (hread : Format.decode bytes = .ok read) (edits : List Edit)
    (hvalid : Validity.check (edits.foldl Module.edit read) = .ok ()) {imports : Imports σ}
    (himports : imports.Tame) {config : Config} (hconfig : config.Representable) :
    let m := edits.foldl Module.edit read
    (∀ d ∈ m.linkDemands imports config, d.Met) ∧
    (∀ env n, m.Reached imports config env n →
      (∀ d ∈ n.demands env, d.Met) ∧ (∀ func, ∀ d ∈ n.callDemands env func, d.Met) ∧
      (∀ frame ∈ n.frames, frame.Runs env n.store) ∧
      (∀ e n', Run.step env n = .error e n' → ∃ t, e = .trap t) ∧
      ∀ func e n', Run.call env func n = .error e n' → ∃ t, e = .trap t) ∧
    ∀ called host requests budget,
      ∀ e ∈ (m.session imports config ⟨.filled m called, host⟩ requests budget).faults,
        e.Proper := by
  intro m
  have hsized : m.Sized :=
    (Format.parse_readable (Format.decode_eq_ok_iff.mp hread).1).sized.edits edits
  refine ⟨Module.linkDemands_met hsized imports config, fun env n hn => ?_,
    Module.session_proper hvalid hsized himports hconfig⟩
  obtain ⟨henv, hstanding⟩ := hn.standing hvalid hsized himports hconfig
  refine ⟨hstanding.demands_met henv, hstanding.callDemands_met henv, hstanding.runs,
    fun e n' hstep => ?_, fun func e n' hcall => ?_⟩
  · have hmono := hstanding.mono (Nat.le_max_left operandLimit (n.stack.length + 1))
    have hstays := hmono.step henv (Nat.lt_of_succ_le (Nat.le_max_right _ _))
    rw [Env.strategy_self, hstep] at hstays
    exact hstays.1
  · have hmono := hstanding.mono (Nat.le_max_left operandLimit n.stack.length)
    have hstays := hmono.call henv (Nat.le_max_right _ _) func
    rw [Env.strategy_self, hcall] at hstays
    exact hstays.1

theorem ticks_tame : ticks.Tame := by
  intro module name f h
  simp only [Imports.get?, ticks, Imports.define, List.lookup_cons, List.lookup_nil] at h
  split at h
  · cases h
    exact fun _ _ _ => ⟨rfl, Nat.le_refl _, id⟩
  · cases h

/-- Cut after the call, the loop of `countdown` has no end any more. -/
theorem countdown_execution_safe :
    let m := [Edit.truncate 0 3].foldl Module.edit countdown
    Format.decode countdownBytes = .ok countdown ∧ Validity.check m = .ok () ∧ ticks.Tame ∧
    (∀ d ∈ m.linkDemands ticks {}, d.Met) ∧
    (∀ env n, m.Reached ticks {} env n → ∀ d ∈ n.demands env, d.Met) ∧
    ∀ requests budget, ∀ e ∈ (m.session ticks {} ⟨.filled m [], 0⟩ requests budget).faults,
      e.Proper := by
  have hvalid : Validity.check ([Edit.truncate 0 3].foldl Module.edit countdown) = .ok () := rfl
  have hconfig : ({} : Config).Representable := ⟨by decide, by decide⟩
  obtain ⟨hlink, hreached, hfaults⟩ :=
    Module.execution_safe decode_countdown [.truncate 0 3] hvalid ticks_tame hconfig
  exact ⟨decode_countdown, hvalid, ticks_tame, hlink, fun env n hn => (hreached env n hn).1,
    hfaults [] 0⟩

end Wasm
