import Wasm.Instance.Allocation
import Wasm.Proofs.Machine.Outline
import Wasm.Proofs.Strategy.Agreement

/-!
# Frames are accounted for

The depth of a machine is a counter of its own. Along every trail it is the
number of frames, all of the selected strategy, and within its limit; and
between services, whatever became of them, an instance is at rest: it has no
operands, no frames and depth zero.
-/

namespace Wasm

variable {σ α β : Type}

-- ---------------------------------------------------------------------------
-- Accounts
-- ---------------------------------------------------------------------------

namespace Machine

/-- The depth is the number of frames and within its limit, and there are only
    frames of the strategy the settings select. -/
structure Accounted (config : Config) (m : Machine σ) : Prop where
  depth : m.depth = m.bodyFrames.length + m.preparedFrames.length
  limit : m.depth ≤ config.maxCallDepth
  strategy : (if config.compile then m.bodyFrames else m.preparedFrames) = []

/-- Nothing is left of any call. -/
structure AtRest (m : Machine σ) : Prop where
  stack : m.stack = []
  bodyFrames : m.bodyFrames = []
  preparedFrames : m.preparedFrames = []
  depth : m.depth = 0

variable {config : Config} {m : Machine σ}

theorem length_frames (m : Machine σ) :
    m.frames.length = m.bodyFrames.length + m.preparedFrames.length := by
  rw [bodyFrames, preparedFrames, ← List.countP_eq_length_filter, ← List.countP_eq_length_filter,
    Nat.add_comm]
  simpa using m.frames.length_eq_countP_add_countP (·.code.isPrepared)

theorem AtRest.frames (h : m.AtRest) : m.frames = [] := by
  have hlength := m.length_frames
  rw [h.bodyFrames, h.preparedFrames] at hlength
  exact List.length_eq_zero_iff.mp hlength

theorem AtRest.of_frames (hstack : m.stack = []) (hframes : m.frames = []) (hdepth : m.depth = 0) :
    m.AtRest := by
  refine ⟨hstack, ?_, ?_, hdepth⟩
  · rw [Machine.bodyFrames, hframes, List.filter_nil]
  · rw [Machine.preparedFrames, hframes, List.filter_nil]

theorem reset_atRest (m : Machine σ) : m.reset.AtRest := AtRest.of_frames rfl rfl rfl

end Machine

/-- The account as calls and returns keep it, over all frames at once. -/
structure Outline.Tallied (config : Config) (o : Outline) : Prop where
  depth : o.depth = o.codes.length
  limit : o.depth ≤ config.maxCallDepth
  strategy : ∀ code ∈ o.codes, code.isPrepared = config.compile

namespace Machine

variable {config : Config} {m : Machine σ}

theorem accounted_of_tallied (h : m.outline.Tallied config) : m.Accounted config where
  depth := by
    rw [← m.length_frames]
    exact h.depth.trans (List.length_map _)
  limit := h.limit
  strategy := by
    have hstrategy : ∀ frame ∈ m.frames, frame.code.isPrepared = config.compile :=
      fun frame hframe => h.strategy frame.code (List.mem_map_of_mem hframe)
    cases hcompile : config.compile with
    | true =>
      refine List.filter_eq_nil_iff.mpr fun frame hframe => ?_
      simp [hstrategy frame hframe, hcompile]
    | false =>
      refine List.filter_eq_nil_iff.mpr fun frame hframe => ?_
      simp [hstrategy frame hframe, hcompile]

theorem AtRest.tallied (h : m.AtRest) (config : Config) : m.outline.Tallied config := by
  refine ⟨?_, ?_, ?_⟩
  · rw [Machine.outline, h.frames, h.depth, List.map_nil, List.length_nil]
  · rw [Machine.outline, h.depth]
    exact Nat.zero_le _
  · rw [Machine.outline, h.frames]
    exact List.forall_mem_nil _

/-- When the last frame is left, so is the last of the account. -/
theorem depth_of_tallied (h : m.outline.Tallied config) (hframes : m.frames = []) :
    m.depth = 0 := by
  have hdepth : m.depth = (m.frames.map (·.code)).length := h.depth
  rw [hdepth, hframes, List.map_nil, List.length_nil]

end Machine

theorem Outline.invariant_tallied (env : Env σ) : Invariant env (Tallied env.config) where
  leave o h := by
    refine ⟨?_, Nat.le_trans (Nat.sub_le _ _) h.limit, ?_⟩
    · rw [Outline.leave, h.depth, List.length_tail]
    · exact fun code hcode => h.strategy code (List.mem_of_mem_tail hcode)
  enter o h hlt code := by
    unfold Outline.enter
    cases hcompile : env.config.compile with
    | true =>
      refine ⟨congrArg (· + 1) h.depth, hlt, ?_⟩
      exact List.forall_mem_cons.mpr ⟨hcompile.symm, h.strategy⟩
    | false =>
      refine ⟨congrArg (· + 1) h.depth, hlt, ?_⟩
      exact List.forall_mem_cons.mpr ⟨hcompile.symm, h.strategy⟩

-- ---------------------------------------------------------------------------
-- Services
-- ---------------------------------------------------------------------------

/-- What a host can have an instance do: a request, or one of the services that
    the guest's allocator gives. -/
inductive Service where
  | request (r : Request)
  | alloc (size : UInt32)
  | free (pointer : UInt32)
  | stackSave
  | stackRestore (pointer : UInt32)
  | stackAlloc (size : UInt32)
  | allocWrite (bytes : List UInt8)
  | stackAllocWrite (bytes : List UInt8)

namespace Service

def run (env : Env σ) (budget : Nat) : Service → Run σ Answer
  | request r => r.run env budget
  | alloc size => return .values [Run.word (← Run.alloc env budget size)]
  | free pointer => do
    Run.free env budget pointer
    return .done
  | stackSave => return .values [Run.word (← Run.stackSave env budget)]
  | stackRestore pointer => do
    Run.stackRestore env budget pointer
    return .done
  | stackAlloc size => return .values [Run.word (← Run.stackAlloc env budget size)]
  | allocWrite bytes => return .values [Run.word (← Run.allocWrite env budget bytes)]
  | stackAllocWrite bytes => return .values [Run.word (← Run.stackAllocWrite env budget bytes)]

/-- The request a service begins with. -/
def toRequest : Service → Request
  | request r => r
  | alloc size => .invoke "malloc" [Run.word size]
  | free pointer => .invoke "free" [Run.word pointer]
  | stackSave => .invoke "stackSave" []
  | stackRestore pointer => .invoke "stackRestore" [Run.word pointer]
  | stackAlloc size => .invoke "stackAlloc" [Run.word size]
  | allocWrite bytes => .invoke "malloc" [Run.word bytes.length.toUInt32]
  | stackAllocWrite bytes => .invoke "stackAlloc" [Run.word bytes.length.toUInt32]

/-- The trail of a service. -/
def trail (env : Env σ) (budget : Nat) (s : Service) (m : Machine σ) : List (Machine σ) :=
  s.toRequest.trail env budget m

end Service

namespace Run

/-- Whatever becomes of it, the action leaves a machine at rest if it was. -/
def Rests (a : Run σ α) : Prop := ∀ m, m.AtRest → (finalState (a m)).AtRest

theorem Rests.bind {a : Run σ α} {f : α → Run σ β} (ha : Rests a) (hf : ∀ x, Rests (f x)) :
    Rests (a >>= f) := by
  intro m hm
  have h := ha m hm
  rw [bind_apply]
  cases hresult : a m with
  | ok x m' =>
    rw [hresult] at h
    exact hf x m' h
  | error e m' =>
    rw [hresult] at h
    exact h

theorem Rests.pure (x : α) : Rests (pure x : Run σ α) := fun _ hm => hm

theorem Rests.trap (t : Trap) : Rests (trap t : Run σ α) := fun _ hm => hm

theorem rests_writeMemory (address : Nat) (bytes : List UInt8) :
    Rests (writeMemory address bytes : Run σ Unit) := by
  intro m hm
  simp only [writeMemory, bind_apply, get_apply, ofExcept_apply]
  cases m.store.write address bytes with
  | error t => exact hm
  | ok store => exact .of_frames hm.stack hm.frames hm.depth

variable (env : Env σ) (budget : Nat)

/-- A call that ends well has left all its frames; what a fault leaves is
    dropped. -/
theorem rests_call {r : Request} (hr : r.IsCall) : Rests (r.run env budget) := by
  intro m hm
  cases hcallee : r.callee? m.store with
  | none =>
    rw [Request.run_of_rejected hr hcallee]
    exact hm
  | some callee =>
    rw [Request.run_of_callee hcallee]
    cases hend : callToEnd env budget callee.1 (m.prepareCall r.args) with
    | error e n => exact n.reset_atRest
    | ok u n =>
      have hprepared : (m.prepareCall r.args).outline.Tallied env.config := hm.tallied env.config
      obtain ⟨htallied, hframes⟩ := (Outline.invariant_tallied env).callToEnd hprepared hend
      exact .of_frames rfl hframes (n.depth_of_tallied htallied hframes)

theorem rests_request (r : Request) : Rests (r.run env budget) := by
  cases r with
  | invoke name args => exact rests_call env budget trivial
  | invokeIndirect slot args => exact rests_call env budget trivial
  | readMemory address n =>
    intro m hm
    simp only [Request.run, readMemory, bind_apply, get_apply, ofExcept_apply]
    cases m.store.read address n with
    | error t => exact hm
    | ok bytes => exact hm
  | writeMemory address bytes => exact (rests_writeMemory address bytes).bind fun _ => .pure _
  | setFuel fuel => exact fun m hm => .of_frames hm.stack hm.frames hm.depth

end Run

namespace Service

theorem invoke_bind (name : String) (args : List Value) {f : List Value → Run σ Answer}
    (hf : ∀ vs, (f vs).Rests) :
    ∃ conclude : Answer → Run σ Answer, (∀ answer, (conclude answer).Rests) ∧
      ∀ env budget, Run.invoke env budget name args >>= f =
        (Request.invoke name args).run env budget >>= conclude := by
  refine ⟨fun | .values vs => f vs | answer => pure answer, fun answer => ?_, fun env budget => ?_⟩
  · cases answer with
    | values vs => exact hf vs
    | bytes | done => exact .pure _
  · simp only [Request.run, bind_assoc, pure_bind]

/-- A service runs code only through its request: what follows depends on
    neither the module nor the settings nor the number of steps. -/
theorem run_eq_bind (s : Service) :
    ∃ conclude : Answer → Run σ Answer, (∀ answer, (conclude answer).Rests) ∧
      ∀ env budget, s.run env budget = s.toRequest.run env budget >>= conclude := by
  cases s with
  | request r => exact ⟨pure, Run.Rests.pure, fun env budget => (bind_pure _).symm⟩
  | alloc | stackSave | stackAlloc =>
    simp only [run, Run.alloc, Run.stackSave, Run.stackAlloc, Run.invokeWord, bind_assoc]
    refine invoke_bind _ _ fun results => .bind ?_ fun pointer => .pure _
    split
    · exact .pure _
    · exact .trap _
    · exact .trap _
  | free | stackRestore =>
    simp only [run, Run.free, Run.stackRestore, Run.invokeUnit, bind_assoc]
    exact invoke_bind _ _ fun results => .pure _
  | allocWrite bytes | stackAllocWrite bytes =>
    simp only [run, Run.allocWrite, Run.stackAllocWrite, Run.place, Run.alloc, Run.stackAlloc,
      Run.invokeWord, bind_assoc]
    refine invoke_bind _ _ fun results => .bind ?_ fun pointer =>
      (Run.rests_writeMemory _ bytes).bind fun _ => .pure _
    split
    · exact .pure _
    · exact .trap _
    · exact .trap _

theorem rests (env : Env σ) (budget : Nat) (s : Service) : (s.run env budget).Rests := by
  obtain ⟨conclude, hconclude, hrun⟩ := s.run_eq_bind
  rw [hrun]
  exact (Run.rests_request env budget s.toRequest).bind hconclude

end Service

-- ---------------------------------------------------------------------------
-- Instances
-- ---------------------------------------------------------------------------

/-- The trail of the start function of a module. -/
def Module.startTrail (m : Module) (imports : Imports σ) (config : Config) (budget : Nat)
    (shared : Shared σ) : List (Machine σ) :=
  match m.link imports config, m.start with
  | .ok linked, some func =>
    Run.callTrail { module := m, hosts := linked.hosts, config } budget func
      { shared with store := linked.store }
  | _, _ => []

/-- The instances of a module as they are met between services, after any
    number of them. Other instances may have changed what is shared. -/
inductive Module.Living (m : Module) : Instance σ → Prop where
  | created {imports : Imports σ} {config : Config} {budget : Nat} {shared shared' : Shared σ}
      {i : Instance σ} (h : m.instantiate imports config budget shared = (.ok i, shared')) :
      Living m i
  | served {i : Instance σ} (h : Living m i) (service : Service) (budget : Nat) :
      Living m (i.run (service.run · budget)).2
  | shared {i : Instance σ} (h : Living m i) (shared : Shared σ) :
      Living m { i with machine.toShared := shared }

/-- A new instance is at rest. -/
theorem Module.instantiate_atRest {m : Module} {imports : Imports σ} {config : Config}
    {budget : Nat} {shared shared' : Shared σ} {i : Instance σ}
    (h : m.instantiate imports config budget shared = (.ok i, shared')) : i.machine.AtRest := by
  unfold Module.instantiate at h
  cases hlink : m.link imports config with
  | error e =>
    rw [hlink] at h
    cases h
  | ok linked =>
    rw [hlink] at h
    have hlinked : ({ shared with store := linked.store } : Machine σ).AtRest :=
      .of_frames rfl rfl rfl
    cases hstart : m.start with
    | none =>
      rw [hstart] at h
      cases h
      exact hlinked
    | some func =>
      rw [hstart] at h
      dsimp only at h
      split at h
      · rename_i u n hend
        cases h
        obtain ⟨htallied, hframes⟩ :=
          (Outline.invariant_tallied _).callToEnd (hlinked.tallied _) hend
        exact .of_frames rfl hframes (n.depth_of_tallied htallied hframes)
      · cases h

theorem Instance.run_machine (i : Instance σ) (op : Env σ → Run σ α) :
    (i.run op).2.machine = finalState (op i.env i.machine) := by
  unfold Instance.run
  cases op i.env i.machine <;> rfl

theorem Module.Living.atRest {m : Module} {i : Instance σ} (h : m.Living i) :
    i.machine.AtRest := by
  induction h with
  | created h => exact Module.instantiate_atRest h
  | @served i h service budget ih =>
    rw [Instance.run_machine]
    exact service.rests i.env budget i.machine ih
  | shared h shared ih => exact .of_frames ih.stack ih.frames ih.depth

theorem Module.instantiate_module {m : Module} {imports : Imports σ} {config : Config}
    {budget : Nat} {shared shared' : Shared σ} {i : Instance σ}
    (h : m.instantiate imports config budget shared = (.ok i, shared')) : i.env.module = m := by
  unfold Module.instantiate at h
  split at h
  · cases h
  · split at h
    · cases h
      rfl
    · dsimp only at h
      split at h
      · cases h
        rfl
      · cases h

theorem Module.Living.env_module {m : Module} {i : Instance σ} (h : m.Living i) :
    i.env.module = m := by
  induction h with
  | created h => exact Module.instantiate_module h
  | served h service budget ih =>
    unfold Instance.run
    split <;> exact ih
  | shared h shared ih => exact ih

theorem Outline.Tallied.callTrail {env : Env σ} {m : Machine σ}
    (h : m.outline.Tallied env.config) (budget : Nat) (func : UInt32) :
    ∀ n ∈ Run.callTrail env budget func m, n.Accounted env.config := by
  intro n hn
  exact n.accounted_of_tallied ((Outline.invariant_tallied env).callTrail h budget func n hn)

/-- Frames are accounted for at every step of a start function and of any
    service, and nothing is left of them in between. -/
theorem Module.frames_accounted (m : Module) :
    (∀ (imports : Imports σ) config budget shared,
      ∀ n ∈ m.startTrail imports config budget shared, n.Accounted config) ∧
    ∀ i : Instance σ, m.Living i → i.machine.AtRest ∧
      ∀ (service : Service) budget,
        ∀ n ∈ service.trail i.env budget i.machine, n.Accounted i.env.config := by
  constructor
  · intro imports config budget shared
    unfold Module.startTrail
    split
    · rename_i linked func _ _
      have hlinked : ({ shared with store := linked.store } : Machine σ).AtRest :=
        .of_frames rfl rfl rfl
      exact Outline.Tallied.callTrail (hlinked.tallied config) budget func
    · nofun
  · intro i hi
    refine ⟨hi.atRest, fun service budget => ?_⟩
    unfold Service.trail Request.trail
    split
    · have htallied : (i.machine.prepareCall service.toRequest.args).outline.Tallied i.env.config :=
        hi.atRest.tallied i.env.config
      exact htallied.callTrail budget _
    · nofun

/-- Counting down from two takes an instance through a trail of 19 machines. -/
theorem countdown_frames_accounted :
    ∃ i : Instance Nat, countdown.Living i ∧ i.machine.AtRest ∧
      let trail := (Service.request (.invoke "run" [.i32 2])).trail i.env 100 i.machine
      trail.length = 19 ∧ ∀ n ∈ trail, n.Accounted i.env.config := by
  have hlength :
      (match (countdown.instantiate ticks {} 0 ⟨.empty countdown, 0⟩).1 with
      | .ok i => ((Service.request (.invoke "run" [.i32 2])).trail i.env 100 i.machine).length
      | .error _ => 0) = 19 := by decide +kernel
  cases hresult : countdown.instantiate ticks {} 0 ⟨.empty countdown, 0⟩ with
  | mk result shared =>
    rw [hresult] at hlength
    cases result with
    | error e => cases hlength
    | ok i =>
      have hliving := Module.Living.created hresult
      obtain ⟨hrest, htrail⟩ := countdown.frames_accounted.2 i hliving
      exact ⟨i, hliving, hrest, hlength, htrail _ _⟩

end Wasm
