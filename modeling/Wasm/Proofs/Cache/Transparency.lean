import Wasm.Proofs.Frames
import Wasm.Proofs.Machine.Closure
import Wasm.Proofs.Structured.Refinement

/-!
# The cache cannot be seen

Whatever a cache holds was prepared from the module, so that an action does the
same with one cache as with another. All it does to a cache is to draw
functions from it, which fills slots and changes none that is filled; and it
draws none where bodies are interpreted. So it is for every request, and for
the creation of an instance.
-/

namespace Wasm

variable {σ α β : Type}

-- ---------------------------------------------------------------------------
-- Drawing functions
-- ---------------------------------------------------------------------------

namespace CodeCache

/-- The cache after functions were fetched from it, one after the other. -/
def draw (mod : Module) (cache : CodeCache) (funcs : List Nat) : CodeCache :=
  funcs.foldl (fun cache func => (cache.fetch mod func).2) cache

variable {mod : Module} {cache : CodeCache}

theorem draw_append (funcs funcs' : List Nat) :
    cache.draw mod (funcs ++ funcs') = (cache.draw mod funcs).draw mod funcs' :=
  List.foldl_append

theorem Coherent.draw (h : cache.Coherent mod) (funcs : List Nat) :
    (cache.draw mod funcs).Coherent mod := by
  induction funcs generalizing cache with
  | nil => exact h
  | cons func funcs ih => exact ih (h.fetch_snd func)

theorem get?_fetch {func : Nat} {ops : Prepared} (h : cache.get? func = some ops) (other : Nat) :
    (cache.fetch mod other).2.get? func = some ops := by
  unfold fetch
  split
  · exact h
  · rename_i hother
    have hne : other ≠ func := by
      rintro rfl
      cases hother.symm.trans h
    simp only [get?, Array.getElem?_setIfInBounds_ne hne]
    exact h

/-- A slot that is filled stays as it is. -/
theorem get?_draw {func : Nat} {ops : Prepared} (h : cache.get? func = some ops)
    (funcs : List Nat) : (cache.draw mod funcs).get? func = some ops := by
  induction funcs generalizing cache with
  | nil => exact h
  | cons other funcs ih => exact ih (get?_fetch h other)

end CodeCache

-- ---------------------------------------------------------------------------
-- Transparent actions
-- ---------------------------------------------------------------------------

/-- The machine with another cache. -/
def Machine.recache (m : Machine σ) (cache : CodeCache) : Machine σ := { m with cache }

theorem finalState_mapState {ε τ υ : Type} (f : τ → υ) (r : EStateM.Result ε τ α) :
    finalState (mapState f r) = f (finalState r) := by
  cases r <;> rfl

namespace Run

/-- With any cache the action does on the machine what it does with the one at
    hand, and draws the functions from it. -/
def Draws (env : Env σ) (a : Run σ α) (m : Machine σ) (funcs : List Nat) : Prop :=
  ∀ cache, cache.Coherent env.module →
    a (m.recache cache) = mapState (·.recache (cache.draw env.module funcs)) (a m)

/-- The action does not see what is in the cache. -/
def Transparent (env : Env σ) (a : Run σ α) : Prop :=
  ∀ m, m.cache.Coherent env.module →
    ∃ funcs, (env.config.compile = false → funcs = []) ∧ Draws env a m funcs

variable {env : Env σ} {m : Machine σ}

theorem Draws.cache_eq {a : Run σ α} {funcs : List Nat} (h : Draws env a m funcs)
    (hm : m.cache.Coherent env.module) :
    (finalState (a m)).cache = m.cache.draw env.module funcs := by
  have hself : a m = mapState (·.recache (m.cache.draw env.module funcs)) (a m) := h m.cache hm
  rw [hself, finalState_mapState]
  rfl

theorem Draws.coherent {a : Run σ α} {funcs : List Nat} (h : Draws env a m funcs)
    (hm : m.cache.Coherent env.module) : (finalState (a m)).cache.Coherent env.module := by
  rw [h.cache_eq hm]
  exact hm.draw funcs

theorem Draws.bind {a : Run σ α} {f : α → Run σ β} {m' : Machine σ} {x : α}
    {funcs funcs' : List Nat} (ha : Draws env a m funcs) (hok : a m = .ok x m')
    (hf : Draws env (f x) m' funcs') : Draws env (a >>= f) m (funcs ++ funcs') := by
  intro cache hcache
  have hfirst := ha cache hcache
  rw [hok] at hfirst
  rw [bind_ok hfirst, bind_ok hok, CodeCache.draw_append]
  exact hf _ (hcache.draw funcs)

theorem Draws.bind_error {a : Run σ α} {f : α → Run σ β} {m' : Machine σ} {e : Fault}
    {funcs : List Nat} (ha : Draws env a m funcs) (herror : a m = .error e m') :
    Draws env (a >>= f) m funcs := by
  intro cache hcache
  have hfirst := ha cache hcache
  rw [herror] at hfirst
  rw [Run.bind_error hfirst, Run.bind_error herror]
  rfl

/-- It is enough that the action is one that draws them on this machine. -/
theorem Draws.congr {a b : Run σ α} {funcs : List Nat} (hb : Draws env b m funcs)
    (h : ∀ cache, a (m.recache cache) = b (m.recache cache)) : Draws env a m funcs := by
  intro cache hcache
  have hself : a m = b m := h m.cache
  rw [h, hself]
  exact hb cache hcache

theorem Transparent.congr {a b : Run σ α} (hb : Transparent env b)
    (hm : m.cache.Coherent env.module) (h : ∀ cache, a (m.recache cache) = b (m.recache cache)) :
    ∃ funcs, (env.config.compile = false → funcs = []) ∧ Draws env a m funcs := by
  obtain ⟨funcs, hnone, hdraws⟩ := hb m hm
  exact ⟨funcs, hnone, hdraws.congr h⟩

theorem Transparent.bind {a : Run σ α} {f : α → Run σ β} (ha : Transparent env a)
    (hf : ∀ x, Transparent env (f x)) : Transparent env (a >>= f) := by
  intro m hm
  obtain ⟨funcs, hnone, hdraws⟩ := ha m hm
  have hcoherent := hdraws.coherent hm
  cases hresult : a m with
  | ok x m' =>
    rw [hresult] at hcoherent
    obtain ⟨funcs', hnone', hdraws'⟩ := hf x m' hcoherent
    refine ⟨funcs ++ funcs', fun hcompile => ?_, hdraws.bind hresult hdraws'⟩
    rw [hnone hcompile, hnone' hcompile, List.append_nil]
  | error e m' => exact ⟨funcs, hnone, hdraws.bind_error hresult⟩

theorem Transparent.coherent {a : Run σ α} (ha : Transparent env a)
    (hm : m.cache.Coherent env.module) : (finalState (a m)).cache.Coherent env.module := by
  obtain ⟨funcs, _, hdraws⟩ := ha m hm
  exact hdraws.coherent hm

/-- An action that does nothing to the cache. -/
theorem Transparent.of_recache {a : Run σ α}
    (h : ∀ m cache, a (Machine.recache m cache) = mapState (·.recache cache) (a m)) :
    Transparent env a :=
  fun m _ => ⟨[], fun _ => rfl, fun cache _ => h m cache⟩

theorem Frameless.transparent {a : Run σ α} (ha : Frameless a) : Transparent env a := by
  apply Transparent.of_recache
  intro m cache
  have hgraft := ha m m.frames cache
  have hself := ha.graft_eq m
  rw [show m.recache cache = m.graft m.frames cache from rfl, hgraft]
  cases hresult : a m with
  | ok x m' =>
    rw [hresult] at hself
    injection hself with _ hself
    rw [hself]
    rfl
  | error e m' =>
    rw [hresult] at hself
    injection hself with _ hself
    rw [hself]
    rfl

theorem Transparent.inFrame (action : Exec α) : Transparent env (inFrame action : Run σ α) := by
  apply Transparent.of_recache
  intro m cache
  obtain ⟨shared, store, stack, frames, depth, origin⟩ := m
  cases frames with
  | nil => rfl
  | cons frame rest =>
    simp only [Run.inFrame, Machine.recache, Machine.context]
    cases action { stack, locals := frame.locals, labels := frame.labels, store } <;> rfl

theorem Transparent.leave : Transparent env (leave : Run σ Unit) := by
  apply Transparent.of_recache
  intro m cache
  obtain ⟨shared, store, stack, frames, depth, origin⟩ := m
  cases frames with
  | nil => rfl
  | cons frame rest =>
    simp only [Run.leave, bind_apply, get_apply, set_apply, Machine.recache]
    cases Exec.unwound stack frame.height frame.arity <;> rfl

theorem transparent_closed (env : Env σ) :
    Closed (fun _ => True) fun {α} (a : Run σ α) => Transparent env a where
  pure x := (Frameless.pure x).transparent
  bind := Transparent.bind
  inFrame _ := Transparent.inFrame _
  goto pc := by
    apply Transparent.of_recache
    intro m cache
    simp only [goto_apply]
    rfl
  leave := Transparent.leave

/-- This is where a function is drawn: the code is the same in any cache. -/
theorem Transparent.frameCode (code : Nat) : Transparent env (frameCode env code) := by
  intro m hm
  cases hcompile : env.config.compile with
  | false =>
    refine ⟨[], fun _ => rfl, fun cache _ => ?_⟩
    simp only [Run.frameCode, hcompile, Bool.false_eq_true, if_false]
    rfl
  | true =>
    refine ⟨[code], fun h => Bool.noConfusion h, fun cache hcache => ?_⟩
    simp only [Run.frameCode, hcompile, if_true, bind_apply, get_apply, set_apply, pure_apply,
      Machine.recache, hcache.fetch_fst, hm.fetch_fst]
    rfl

theorem Transparent.enter (func : UInt32) (type : FuncType) (code : Nat) :
    Transparent env (enter env func type code) := by
  apply Transparent.bind ((Frameless.takeLocals env type code).blaming func).transparent
  intro locals
  apply Transparent.bind (Transparent.frameCode code)
  intro frameCode
  exact Transparent.of_recache fun _ _ => rfl

theorem Transparent.call (func : UInt32) : Transparent env (call env func) := by
  intro m hm
  cases hfunc : m.store.funcs[func.toNat]? with
  | none =>
    apply Transparent.congr (b := trap .undefinedElement) (.of_recache fun _ _ => rfl) hm
    intro cache
    exact call_missing (m := m.recache cache) hfunc
  | some f =>
    cases f with
    | host type module name slot =>
      apply (Frameless.callHost env func type module name slot).transparent.congr hm
      intro cache
      exact call_host (m := m.recache cache) hfunc
    | defined type code =>
      apply (Transparent.enter func type code).congr hm
      intro cache
      exact call_defined (m := m.recache cache) hfunc

-- ---------------------------------------------------------------------------
-- Steps and runs
-- ---------------------------------------------------------------------------

theorem Transparent.step : Transparent env (step env) := by
  intro m hm
  obtain ⟨a, ha, hstep⟩ := (transparent_closed env).step (Exec.covers_true _ _)
    env.module.assigns_any Transparent.call (m := m) fun _ _ _ _ _ _ => trivial
  exact ha.congr hm hstep

theorem Transparent.steps (budget : Nat) : Transparent env (steps env budget) := by
  induction budget with
  | zero =>
    apply Transparent.of_recache
    intro m cache
    by_cases hframes : m.frames = []
    · have hrecached : (m.recache cache).frames = [] := hframes
      rw [steps_nil hframes, steps_nil hrecached]
      rfl
    · have hrecached : (m.recache cache).frames ≠ [] := hframes
      rw [steps_zero hframes, steps_zero hrecached]
      rfl
  | succ budget ih =>
    intro m hm
    by_cases hframes : m.frames = []
    · apply ((Frameless.pure ()).transparent).congr hm
      intro cache
      exact steps_nil (m := m.recache cache) hframes _
    · apply (Transparent.step.bind fun _ => ih).congr hm
      intro cache
      exact steps_succ (m := m.recache cache) hframes budget

theorem Transparent.blamingFrame {a : Run σ Unit} (h : Transparent env a) :
    Transparent env (blamingFrame a) := by
  intro m hm
  obtain ⟨funcs, hnone, hdraws⟩ := h m hm
  refine ⟨funcs, hnone, fun cache hcache => ?_⟩
  rw [blamingFrame_apply, blamingFrame_apply, hdraws cache hcache]
  cases a m with
  | ok x m' => rfl
  | error e m' =>
    obtain ⟨shared, store, stack, frames, depth, origin⟩ := m'
    cases frames <;> rfl

theorem Transparent.callToEnd (budget : Nat) (func : UInt32) :
    Transparent env (callToEnd env budget func) :=
  (Transparent.call func).bind fun _ => (Transparent.steps budget).blamingFrame

-- ---------------------------------------------------------------------------
-- Requests and instances
-- ---------------------------------------------------------------------------

theorem Transparent.map {a : Run σ α} (h : Transparent env a) (f : α → β) :
    Transparent env (do return f (← a)) :=
  h.bind fun x => (Frameless.pure (f x)).transparent

theorem Transparent.trap (t : Trap) : Transparent env (trap t : Run σ α) :=
  .of_recache fun _ _ => rfl

theorem Transparent.cleaning {a : Run σ α} (h : Transparent env a) :
    Transparent env (cleaning a) := by
  intro m hm
  obtain ⟨funcs, hnone, hdraws⟩ := h m hm
  refine ⟨funcs, hnone, fun cache hcache => ?_⟩
  simp only [Run.cleaning]
  rw [hdraws cache hcache]
  cases a m <;> rfl

theorem Transparent.runFunction (budget : Nat) (func : UInt32) (args : List Value)
    (results : Nat) : Transparent env (runFunction env budget func args results) := by
  apply Transparent.bind (.of_recache fun _ _ => rfl)
  intro _
  apply Transparent.bind (Transparent.callToEnd budget func)
  intro _
  exact .of_recache fun _ _ => rfl

theorem Transparent.invokeFunction (budget : Nat) (func : UInt32) (name : String)
    (args : List Value) : Transparent env (invokeFunction env budget func name args) := by
  intro m hm
  cases hfunc : m.store.funcs[func.toNat]? with
  | none =>
    apply (Transparent.trap .undefinedElement).congr hm
    intro cache
    simp only [Run.invokeFunction, bind_apply, get_apply, Machine.recache, hfunc]
  | some f =>
    by_cases htypes : Value.haveTypes args f.type.params = true
    · apply (Transparent.runFunction budget func args f.type.results.length).cleaning.congr hm
      intro cache
      simp only [Run.invokeFunction, bind_apply, get_apply, Machine.recache, hfunc, htypes, if_true]
    · apply (Transparent.trap (.argumentMismatch name)).congr hm
      intro cache
      simp only [Run.invokeFunction, bind_apply, get_apply, Machine.recache, hfunc]
      rw [if_neg htypes]

theorem Transparent.invoke (budget : Nat) (name : String) (args : List Value) :
    Transparent env (invoke env budget name args) := by
  intro m hm
  rcases hexport : m.store.export? name with _ | index | index | index | index
  case some.func =>
    apply (Transparent.invokeFunction budget index name args).congr hm
    intro cache
    simp only [Run.invoke, bind_apply, get_apply, Machine.recache, hexport]
  all_goals
    apply (Transparent.trap (.exportNotFound name)).congr hm
    intro cache
    simp only [Run.invoke, bind_apply, get_apply, Machine.recache, hexport]

theorem Transparent.invokeIndirect (budget : Nat) (slot : UInt32) (args : List Value) :
    Transparent env (invokeIndirect env budget slot args) := by
  intro m hm
  cases helement : m.store.element? 0 slot.toNat with
  | none =>
    apply (Transparent.trap .undefinedElement).congr hm
    intro cache
    simp only [Run.invokeIndirect, bind_apply, get_apply, Machine.recache, helement]
  | some func =>
    let label := "table[" ++ toString slot.toNat ++ "]"
    have hfunc : Transparent env (Run.invokeFunction env budget func label args) :=
      Transparent.invokeFunction budget func label args
    apply hfunc.congr hm
    intro cache
    simp only [Run.invokeIndirect, bind_apply, get_apply, Machine.recache, helement]
    rfl

end Run

open Run in
theorem Request.transparent (env : Env σ) (budget : Nat) (r : Request) :
    Transparent env (r.run env budget) := by
  cases r with
  | invoke name args => exact (Transparent.invoke budget name args).map _
  | invokeIndirect slot args => exact (Transparent.invokeIndirect budget slot args).map _
  | readMemory address n => exact (Frameless.readMemory address n).transparent.map _
  | writeMemory address bytes => exact (Frameless.writeMemory address bytes).transparent.map _
  | setFuel fuel => exact .of_recache fun _ _ => rfl

theorem Module.instantiate_coherent {m : Module} {imports : Imports σ} {config : Config}
    {budget : Nat} {shared shared' : Shared σ} {i : Instance σ} (hshared : shared.cache.Coherent m)
    (h : m.instantiate imports config budget shared = (.ok i, shared')) :
    i.machine.cache.Coherent m := by
  unfold Module.instantiate at h
  cases hlink : m.link imports config with
  | error e =>
    rw [hlink] at h
    cases h
  | ok linked =>
    rw [hlink] at h
    cases hstart : m.start with
    | none =>
      rw [hstart] at h
      cases h
      exact hshared
    | some func =>
      rw [hstart] at h
      dsimp only at h
      let env : Env σ := { module := m, hosts := linked.hosts, config }
      have htransparent : Run.Transparent env (Run.callToEnd env budget func) :=
        Run.Transparent.callToEnd budget func
      have hcoherent := htransparent.coherent (m := { shared with store := linked.store }) hshared
      split at h
      · rename_i n hend
        cases h
        rw [hend] at hcoherent
        exact hcoherent
      · cases h

end Wasm
