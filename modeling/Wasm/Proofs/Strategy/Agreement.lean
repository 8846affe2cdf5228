import Wasm.Proofs.Format.Decoded
import Wasm.Proofs.Session
import Wasm.Proofs.Strategy.Simulation
import Wasm.Proofs.Validity

/-!
# The strategies agree

Whether an instance interprets bodies or runs prepared code cannot be seen from
outside. The simulation of steps carries over to calls, requests and whole
sessions: `session_strategy` states that a session under the one strategy is
the session under the other.
-/

namespace Wasm

variable {σ α : Type}

namespace Machine

variable {mod : Module} {m n : Machine σ}

theorem Alike.blame (h : m.Alike mod n) (func : UInt32) :
    (m.blame func).Alike mod (n.blame func) := by
  obtain ⟨pc, hbody, cache, hcache, rfl⟩ := h
  exact ⟨pc, hbody, cache, hcache, rfl⟩

/-- The innermost frames are those of the same function. -/
theorem Alike.blameFrame (h : m.Alike mod n) : m.blameFrame.Alike mod n.blameFrame := by
  have hblame := h.blame
  obtain ⟨pc, hbody, cache, hcache, rfl⟩ := h
  obtain ⟨shared, store, stack, frames, depth, origin⟩ := m
  cases frames with
  | nil => exact ⟨pc, hbody, cache, hcache, rfl⟩
  | cons frame rest => exact hblame frame.func

theorem Alike.reset (h : m.Alike mod n) : m.reset.Twin mod n.reset := by
  obtain ⟨pc, _, cache, hcache, rfl⟩ := h
  refine ⟨?_, cache, hcache, rfl⟩
  intro frame hframe
  cases hframe

theorem Twin.sight_eq (h : m.Twin mod n) : n.sight = m.sight := by
  obtain ⟨_, cache, _, rfl⟩ := h
  rfl

theorem Twin.store_eq (h : m.Twin mod n) : n.store = m.store := by
  obtain ⟨_, cache, _, rfl⟩ := h
  rfl

end Machine

namespace Run

open Machine (Twin Alike)

variable {mod : Module} {P Q : Machine σ → Machine σ → Prop}

-- ---------------------------------------------------------------------------
-- Calls from outside
-- ---------------------------------------------------------------------------

theorem Mirrors.blamingFrame {a b : Run σ Unit} (h : Mirrors mod P Q a b) :
    Mirrors mod P Q (blamingFrame a) (blamingFrame b) := by
  intro m n hmn
  rw [blamingFrame_apply, blamingFrame_apply]
  rcases (h m n hmn).cases with ⟨x, m', n', ha, hb, hQ⟩ | ⟨e, m', n', ha, hb, hE⟩
  · rw [ha, hb]
    exact ⟨rfl, hQ⟩
  · rw [ha, hb]
    exact ⟨rfl, hE.blameFrame⟩

theorem Mirrors.callToEnd (env : Env σ) (henv : env.module.CallTypesExist) (budget : Nat)
    (func : UInt32) :
    Mirrors env.module (Twin env.module) (Twin env.module)
      (callToEnd (env.strategy false) budget func) (callToEnd (env.strategy true) budget func) :=
  (Mirrors.call env func).bind fun _ => (Mirrors.steps env henv budget).blamingFrame

theorem Frameless.modify {f : Machine σ → Machine σ}
    (hf : ∀ m frames cache, f (m.graft frames cache) = (f m).graft frames cache) :
    Frameless (modify f : Run σ Unit) := by
  intro m frames cache
  simp only [modify_apply, hf]
  rfl

theorem Mirrors.runFunction (env : Env σ) (henv : env.module.CallTypesExist) (budget : Nat)
    (func : UInt32) (args : List Value) (results : Nat) :
    Mirrors env.module (Twin env.module) (Twin env.module)
      (runFunction (env.strategy false) budget func args results)
      (runFunction (env.strategy true) budget func args results) := by
  refine Mirrors.bind (Frameless.modify fun _ _ _ => rfl).mirrors fun _ => ?_
  refine Mirrors.bind (Mirrors.callToEnd env henv budget func) fun _ => ?_
  refine Frameless.mirrors ?_
  exact fun _ _ _ => rfl

/-- A call from outside leaves twins also when it faults, since no frames are
    left then. -/
theorem Mirrors.cleaning {a b : Run σ α} (h : Mirrors mod P Q a b) {m n : Machine σ}
    (hmn : P m n) : Agree Q (Twin mod) (cleaning a m) (cleaning b n) := by
  simp only [Run.cleaning]
  rcases (h m n hmn).cases with ⟨x, m', n', ha, hb, hQ⟩ | ⟨e, m', n', ha, hb, hE⟩
  · rw [ha, hb]
    exact ⟨rfl, hQ⟩
  · rw [ha, hb]
    exact ⟨rfl, hE.reset⟩

/-- The actions agree on twins and leave twins, whether they fault or not. -/
def Interchanges (mod : Module) (a b : Run σ α) : Prop :=
  ∀ m n, m.Twin mod n → Agree (Twin mod) (Twin mod) (a m) (b n)

theorem Interchanges.invokeFunction (env : Env σ) (henv : env.module.CallTypesExist)
    (budget : Nat) (func : UInt32) (name : String) (args : List Value) :
    Interchanges env.module (invokeFunction (env.strategy false) budget func name args)
      (invokeFunction (env.strategy true) budget func name args) := by
  intro m n h
  simp only [Run.invokeFunction, bind_apply, get_apply, h.store_eq]
  cases m.store.funcs[func.toNat]? with
  | none => exact ⟨rfl, h⟩
  | some f =>
    simp only
    split
    · exact (Mirrors.runFunction env henv budget func args _).cleaning h
    · exact ⟨rfl, h⟩

theorem Interchanges.invoke (env : Env σ) (henv : env.module.CallTypesExist) (budget : Nat)
    (name : String) (args : List Value) :
    Interchanges env.module (invoke (env.strategy false) budget name args)
      (invoke (env.strategy true) budget name args) := by
  intro m n h
  simp only [Run.invoke, bind_apply, get_apply, h.store_eq]
  rcases m.store.export? name with _ | index | index | index | index
  · exact ⟨rfl, h⟩
  · exact Interchanges.invokeFunction env henv budget index name args m n h
  all_goals exact ⟨rfl, h⟩

theorem Interchanges.invokeIndirect (env : Env σ) (henv : env.module.CallTypesExist)
    (budget : Nat) (slot : UInt32) (args : List Value) :
    Interchanges env.module (invokeIndirect (env.strategy false) budget slot args)
      (invokeIndirect (env.strategy true) budget slot args) := by
  intro m n h
  simp only [Run.invokeIndirect, bind_apply, get_apply, h.store_eq]
  cases m.store.element? 0 slot.toNat with
  | none => exact ⟨rfl, h⟩
  | some func => exact Interchanges.invokeFunction env henv budget func _ args m n h

theorem Interchanges.map {β : Type} {a b : Run σ α} (h : Interchanges mod a b) (f : α → β) :
    Interchanges mod (do return f (← a)) (do return f (← b)) := by
  intro m n hmn
  simp only [bind_apply]
  rcases (h m n hmn).cases with ⟨x, m', n', ha, hb, hQ⟩ | ⟨e, m', n', ha, hb, hE⟩
  · rw [ha, hb]
    exact ⟨rfl, hQ⟩
  · rw [ha, hb]
    exact ⟨rfl, hE⟩

theorem Frameless.readMemory (address n : Nat) : Frameless (σ := σ) (readMemory address n) := by
  intro m frames cache
  simp only [Run.readMemory, bind_apply, get_apply]
  change ofExcept (m.store.read address n) _ = _
  cases m.store.read address n <;> rfl

theorem Frameless.writeMemory (address : Nat) (bytes : List UInt8) :
    Frameless (σ := σ) (writeMemory address bytes) := by
  intro m frames cache
  simp only [Run.writeMemory, bind_apply, get_apply, Machine.graft]
  cases m.store.write address bytes <;> rfl

theorem Interchanges.request (env : Env σ) (henv : env.module.CallTypesExist) (budget : Nat)
    (request : Request) :
    Interchanges env.module (request.run (env.strategy false) budget)
      (request.run (env.strategy true) budget) := by
  cases request with
  | invoke name args => exact (Interchanges.invoke env henv budget name args).map _
  | invokeIndirect slot args => exact (Interchanges.invokeIndirect env henv budget slot args).map _
  | readMemory address n =>
    have hread : Frameless (Request.run (σ := σ) env budget (.readMemory address n)) :=
      (Frameless.readMemory address n).bind fun _ => Frameless.pure _
    exact fun _ _ h => hread.agree h
  | writeMemory address bytes =>
    have hwrite : Frameless (Request.run (σ := σ) env budget (.writeMemory address bytes)) :=
      (Frameless.writeMemory address bytes).bind fun _ => Frameless.pure _
    exact fun _ _ h => hwrite.agree h
  | setFuel fuel =>
    have hset : Frameless (Request.run (σ := σ) env budget (.setFuel fuel)) :=
      (Frameless.modify fun _ _ _ => rfl).bind fun _ => Frameless.pure _
    exact fun _ _ h => hset.agree h

end Run

-- ---------------------------------------------------------------------------
-- Sessions
-- ---------------------------------------------------------------------------

/-- Twin instances give the same observations, request by request. -/
theorem Instance.serve_strategy (env : Env σ) (henv : env.module.CallTypesExist) (budget : Nat)
    (requests : List Request) {m n : Machine σ} (h : m.Twin env.module n) :
    Instance.serve budget ⟨env.strategy false, m⟩ requests =
      Instance.serve budget ⟨env.strategy true, n⟩ requests := by
  induction requests generalizing m n with
  | nil => rfl
  | cons request rest ih =>
    have hrequest := Run.Interchanges.request env henv budget request m n h
    simp only [Instance.serve, Instance.run]
    rcases hrequest.cases with ⟨x, m', n', hm, hn, hQ⟩ | ⟨e, m', n', hm, hn, hE⟩
    · rw [hm, hn]
      simp only [hQ.sight_eq, ih hQ]
    · rw [hm, hn]
      cases e with
      | unfinished => simp only [hE.sight_eq]
      | trap t => simp only [hE.sight_eq, ih hE]
      | missing space index => simp only [hE.sight_eq, ih hE]

/-- The cache after functions have been called, in this order. -/
def CodeCache.filled (m : Module) (funcs : List Nat) : CodeCache :=
  funcs.foldl (fun cache func => (cache.fetch m func).2) (.empty m)

theorem CodeCache.filled_coherent (m : Module) (funcs : List Nat) :
    (CodeCache.filled m funcs).Coherent m := by
  have hfold : ∀ cache : CodeCache, cache.Coherent m →
      (funcs.foldl (fun cache func => (cache.fetch m func).2) cache).Coherent m := by
    induction funcs with
    | nil => exact fun _ h => h
    | cons func rest ih => exact fun cache h => ih _ (h.fetch_snd func)
  exact hfold _ (CodeCache.empty_coherent m)

theorem Validity.callTypesExist {m : Module} (h : Validity.check m = .ok ()) :
    m.CallTypesExist := by
  intro func pc type table hi
  obtain ⟨f, t, _, _, hcheck⟩ := Validity.instr_ok h hi
  have htype := (Validity.seq_ok_iff.mp hcheck).1
  exact Validity.inRange_ok_iff.mp htype

/-- Whatever was prepared before the session starts. -/
theorem Module.session_interchange {m : Module} (hm : m.CallTypesExist) (imports : Imports σ)
    (config : Config) {cache cache' : CodeCache} (hcache : cache.Coherent m) (host : σ)
    (requests : List Request) (budget : Nat) :
    m.session imports { config with compile := true } ⟨cache, host⟩ requests budget =
      m.session imports { config with compile := false } ⟨cache', host⟩ requests budget := by
  have hlink : ∀ compile, m.link imports { config with compile } = m.link imports config :=
    fun _ => rfl
  simp only [Module.session, Module.instantiate, hlink]
  cases m.link imports config with
  | error e => rfl
  | ok linked =>
    let env : Env σ := { module := m, hosts := linked.hosts, config }
    let machine (cache : CodeCache) : Machine σ := { cache, host, store := linked.store }
    have htwin : (machine cache').Twin m (machine cache) :=
      ⟨List.forall_mem_nil _, cache, hcache, rfl⟩
    cases m.start with
    | none =>
      have hserve := Instance.serve_strategy env hm budget requests htwin
      exact congrArg (Session.opened (machine cache).sight) hserve.symm
    | some func =>
      have hstart := Run.Mirrors.callToEnd env hm budget func _ _ htwin
      simp only [Env.strategy, machine, env] at hstart
      rcases hstart.cases with ⟨x, m', n', hm', hn', hQ⟩ | ⟨e, m', n', hm', hn', hE⟩
      · have hclear : { m' with stack := [] }.Twin m { n' with stack := [] } := by
          obtain ⟨hbody, cache, hcache, rfl⟩ := hQ
          exact ⟨hbody, cache, hcache, rfl⟩
        simp only [hm', hn', hclear.sight_eq]
        have hserve := Instance.serve_strategy env hm budget requests hclear
        exact congrArg (Session.opened _) hserve.symm
      · have hhost : n'.host = m'.host := by
          obtain ⟨pc, _, cache, _, rfl⟩ := hE
          rfl
        simp only [hm', hn', hhost]

/-- A session under one strategy is the session under the other: request by
    request the same answer or fault, the same store with the fuel left in it,
    the same origin of the last trap and the same state of the host. With hosts
    that keep a log, the calls made to them are the same too. One session ends
    exactly if the other does. -/
theorem Module.session_strategy {m : Module} (hm : Validity.check m = .ok ()) (imports : Imports σ)
    (config : Config) (host : σ) (called called' : List Nat) (requests : List Request) :
    let session (compile : Bool) (called : List Nat) : Nat → Session σ :=
      m.session imports { config with compile } ⟨.filled m called, host⟩ requests
    let logged (compile : Bool) (called : List Nat) : Nat → Session (σ × HostLog) :=
      m.session imports.logged { config with compile } ⟨.filled m called, host, []⟩ requests
    session true called = session false called' ∧ logged true called = logged false called' ∧
      ((∃ budget, (session true called budget).Finished) ↔
        ∃ budget, (session false called' budget).Finished) := by
  have hcache := CodeCache.filled_coherent m called
  have htypes := Validity.callTypesExist hm
  intro session logged
  have hsession : session true called = session false called' := by
    funext budget
    exact Module.session_interchange htypes imports config hcache host requests budget
  refine ⟨hsession, ?_, by rw [hsession]⟩
  funext budget
  exact Module.session_interchange htypes imports.logged config hcache (host, []) requests budget

/-- A host function that counts its calls. -/
def tick : HostFunc Nat where
  type := { params := [.i32] }
  call _ store n := ⟨.ok [], store, n + 1⟩

/-- A host that counts its calls. -/
def ticks : Imports Nat := ({} : Imports Nat).define "env" "tick" (.func tick)

/-- The second request runs out of fuel, the third has a wrong argument. -/
theorem countdown_session_strategy :
    Validity.check countdown = .ok () ∧
      let requests : List Request :=
        [.invoke "run" [.i32 2], .invoke "run" [.i32 9], .invoke "run" [.i64 0]]
      let session (compile : Bool) : Nat → Session Nat :=
        countdown.session ticks { compile, fuel := some 3 } ⟨.filled countdown [], 0⟩ requests
      session true = session false :=
  ⟨rfl, (Module.session_strategy rfl ticks { fuel := some 3 } 0 [] [] _).1⟩

end Wasm
