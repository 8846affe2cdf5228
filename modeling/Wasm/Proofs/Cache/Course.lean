import Wasm.Proofs.Cache.Crew
import Wasm.Proofs.Limits.Termination

/-!
# Courses

An instance that is given steps enough to start and to answer its requests goes
through the stages of a session: what a function comes to by one advance after
the other is what it comes to in one run, and so are the store, the answer and
the cache that it leaves.
-/

namespace Wasm

variable {σ : Type}

-- ---------------------------------------------------------------------------
-- Given steps enough
-- ---------------------------------------------------------------------------

/-- The innermost frame is to blame for a fault in the first step or a later one. -/
theorem Run.blamingFrame_steps_succ {env : Env σ} {m : Machine σ} (hframes : m.frames ≠ [])
    (budget : Nat) :
    blamingFrame (steps env (budget + 1)) m =
      (blamingFrame (step env) >>= fun _ => blamingFrame (steps env budget)) m := by
  rw [blamingFrame_apply, steps_succ hframes, bind_apply, bind_apply, blamingFrame_apply]
  cases step env m with
  | error e n => rfl
  | ok u n => exact (blamingFrame_apply _ n).symm

/-- Where nothing is running there is nothing to advance. -/
theorem Stage.perform_still {mod : Module} {stage : Stage σ}
    (h : ∀ cache, stage.act mod cache .advance = { stage, cache }) (steps : Nat)
    (cache : CodeCache) :
    Stage.perform mod (List.replicate steps .advance) (stage, cache) = (stage, cache) := by
  induction steps with
  | zero => rfl
  | succ steps ih =>
    rw [List.replicate_succ, Stage.perform, List.foldl_cons]
    simp only [h]
    exact ih

namespace Purpose

open Run

variable {env : Env σ} {m : Machine σ} (purpose : Purpose σ)

/-- The stage and the cache that the end of a function leaves. -/
def ended (env : Env σ) (r : EStateM.Result Fault (Machine σ) Unit) : Stage σ × CodeCache :=
  (purpose.finish env (mapState (·.uncached) r), (finalState r).cache)

theorem perform_ended (mod : Module) (r : EStateM.Result Fault (Machine σ) Unit) (steps : Nat) :
    Stage.perform mod (List.replicate steps .advance) (purpose.ended env r) =
      purpose.ended env r := by
  apply Stage.perform_still
  cases purpose <;> cases r <;> exact fun _ => rfl

theorem perform_done (hframes : m.frames = []) (steps : Nat) :
    Stage.perform env.module (List.replicate steps .advance)
        (purpose.follow env (.ok () m.uncached), m.cache) =
      purpose.ended env (blamingFrame (Run.steps env steps) m) := by
  have huncached : m.uncached.frames = [] := hframes
  rw [purpose.follow_done huncached, blamingFrame_apply, steps_nil hframes]
  exact purpose.perform_ended env.module (.ok () m) steps

/-- A function comes to its end if there are steps enough. -/
theorem perform_follow {steps : Nat} (hm : m.cache.Coherent env.module)
    (h : Finished (blamingFrame (Run.steps env steps) m)) :
    Stage.perform env.module (List.replicate steps .advance)
        (purpose.follow env (.ok () m.uncached), m.cache) =
      purpose.ended env (blamingFrame (Run.steps env steps) m) := by
  induction steps generalizing m with
  | zero =>
    by_cases hframes : m.frames = []
    · exact purpose.perform_done hframes 0
    · exact absurd (steps_zero hframes) (h.of_blamingFrame m)
  | succ steps ih =>
    by_cases hframes : m.frames = []
    · exact purpose.perform_done hframes (steps + 1)
    · have huncached : m.uncached.frames ≠ [] := hframes
      have hcoherent := Transparent.step.blamingFrame.coherent hm
      -- An advance is the step that the run takes next.
      have hadvance : Stage.perform env.module (List.replicate (steps + 1) .advance)
            (.running purpose { env, machine := m.uncached }, m.cache) =
          Stage.perform env.module (List.replicate steps .advance)
            (purpose.follow env (mapState (·.uncached) (blamingFrame (step env) m)),
              (finalState (blamingFrame (step env) m)).cache) := rfl
      rw [blamingFrame_steps_succ hframes] at h ⊢
      rw [purpose.follow_running huncached, hadvance]
      cases hstep : blamingFrame (step env) m with
      | error e n =>
        rw [bind_error hstep]
        exact purpose.perform_ended env.module (.error e n) steps
      | ok u n =>
        rw [hstep] at hcoherent
        rw [bind_ok hstep] at h ⊢
        exact ih hcoherent h

theorem perform_call {budget steps : Nat} {func : UInt32} (hm : m.cache.Coherent env.module)
    (h : Finished (callToEnd env budget func m)) (hsteps : budget ≤ steps) :
    let move := purpose.pursue env (call env func) m.uncached m.cache
    Stage.perform env.module (List.replicate steps .advance) (move.stage, move.cache) =
      purpose.ended env (callToEnd env budget func m) := by
  intro move
  have hmove : (move.stage, move.cache) =
      (purpose.follow env (mapState (·.uncached) (call env func m)),
        (finalState (call env func m)).cache) := rfl
  rw [hmove]
  obtain ⟨more, rfl⟩ := Nat.exists_eq_add_of_le hsteps
  have hmore := callToEnd_add h more
  have hcoherent := (Transparent.call func).coherent hm
  rw [← hmore] at h ⊢
  unfold callToEnd at h ⊢
  cases hcall : call env func m with
  | error e n =>
    rw [bind_error hcall]
    exact purpose.perform_ended env.module (.error e n) _
  | ok u n =>
    rw [hcall] at hcoherent
    rw [bind_ok hcall] at h ⊢
    exact purpose.perform_follow hcoherent h

end Purpose

namespace Request

open Run

variable {env : Env σ} {m : Machine σ} {r : Request}

/-- A request that calls no function needs no steps. -/
theorem run_of_no_callee (h : r.callee? m.store = none) (budget budget' : Nat) :
    r.run env budget m = r.run env budget' m := by
  by_cases hcall : r.IsCall
  · rw [run_of_rejected hcall h, run_of_rejected hcall h]
  · cases r with
    | invoke | invokeIndirect => exact absurd trivial hcall
    | readMemory | writeMemory | setFuel => rfl

theorem cache_of_no_callee (h : r.callee? m.store = none) (budget : Nat) :
    (finalState (r.run env budget m)).cache = m.cache := by
  by_cases hcall : r.IsCall
  · rw [run_of_rejected hcall h]
    rfl
  · cases r with
    | invoke | invokeIndirect => exact absurd trivial hcall
    | readMemory address n =>
      simp only [run, Run.readMemory, bind_apply, get_apply, ofExcept_apply]
      cases m.store.read address n <;> rfl
    | writeMemory address bytes =>
      simp only [run, Run.writeMemory, bind_apply, get_apply, ofExcept_apply]
      cases m.store.write address bytes <;> rfl
    | setFuel fuel => rfl

theorem finished_of_reply {results : Nat} {result : EStateM.Result Fault (Machine σ) Unit}
    (h : Finished (reply results result)) : Finished result := by
  rintro n rfl
  exact h n.reset rfl

end Request

namespace Stage

open Run

variable {env : Env σ} {m : Machine σ} {budget steps : Nat}

/-- A request is answered if there are steps enough. -/
theorem perform_request (hm : m.cache.Coherent env.module) {r : Request}
    (h : Finished (r.run env budget m)) (hsteps : budget ≤ steps) (opening : Sight σ)
    (past : List (Observation σ)) :
    Stage.perform env.module (.request r :: List.replicate steps .advance)
        (.idle opening past { env, machine := m.uncached }, m.cache) =
      (.idle opening (past ++ [.ofResult (r.run env budget m)])
          { env, machine := (finalState (r.run env budget m)).uncached },
        (finalState (r.run env budget m)).cache) := by
  have hanswered : Stage.answered env opening past (mapState (·.uncached) (r.run env budget m)) =
      .idle opening (past ++ [.ofResult (r.run env budget m)])
        { env, machine := (finalState (r.run env budget m)).uncached } := by
    cases r.run env budget m <;> rfl
  rw [← hanswered]
  let stage : Stage σ := .idle opening past { env, machine := m.uncached }
  have hperform : Stage.perform env.module (.request r :: List.replicate steps .advance)
        (stage, m.cache) =
      Stage.perform env.module (List.replicate steps .advance)
        ((stage.act env.module m.cache (.request r)).stage,
          (stage.act env.module m.cache (.request r)).cache) := rfl
  rw [hperform]
  cases hcallee : r.callee? m.store with
  | none =>
    have hcallee' : r.callee? m.uncached.store = none := hcallee
    have huncached : r.run env 0 m.uncached = mapState (·.uncached) (r.run env budget m) := by
      rw [Request.run_of_no_callee hcallee' 0 budget]
      exact ((r.transparent env budget).uncached m hm).symm
    simp only [stage, act, hcallee', huncached, Request.cache_of_no_callee hcallee]
    exact perform_still (fun _ => rfl) steps m.cache
  | some callee =>
    have hcallee' : r.callee? m.uncached.store = some callee := hcallee
    let purpose : Purpose σ := .answer opening past callee.2.type.results.length
    have hprepared : (m.prepareCall r.args).cache.Coherent env.module := hm
    rw [Request.run_eq_reply hcallee] at h ⊢
    have hcall := purpose.perform_call hprepared (Request.finished_of_reply h) hsteps
    have hact : stage.act env.module m.cache (.request r) = purpose.pursue env (call env callee.1)
        (m.prepareCall r.args).uncached (m.prepareCall r.args).cache := by
      simp only [stage, act, hcallee']
      rfl
    rw [hact, hcall]
    cases callToEnd env budget callee.1 (m.prepareCall r.args) <;> rfl

/-- What becomes of an instance, and of the cache, when it is created. -/
def created : Except Link.Error (Instance σ) × Shared σ → Stage σ × CodeCache
  | (.error e, shared) => (.rejected e shared.host, shared.cache)
  | (.ok i, shared) =>
    (.idle i.machine.sight [] { i with machine := i.machine.uncached }, shared.cache)

/-- An instance is created if there are steps enough. -/
theorem perform_create {mod : Module} {cache : CodeCache} (hcache : cache.Coherent mod)
    (setup : Setup σ) (hsteps : budget ≤ steps) :
    let result := mod.instantiate setup.imports setup.config budget ⟨cache, setup.host⟩
    (∀ shared, result ≠ (.error (.start .unfinished), shared)) →
      Stage.perform mod (.create setup :: List.replicate steps .advance) (.absent, cache) =
        created result := by
  intro result h
  have hperform : Stage.perform mod (.create setup :: List.replicate steps .advance)
        (.absent, cache) =
      Stage.perform mod (List.replicate steps .advance)
        ((Stage.absent.act mod cache (.create setup)).stage,
          (Stage.absent.act mod cache (.create setup)).cache) := rfl
  rw [hperform]
  cases hlink : mod.link setup.imports setup.config with
  | error e =>
    simp only [result, act, Module.instantiate, hlink]
    exact perform_still (fun _ => rfl) steps cache
  | ok linked =>
    let env : Env σ := { module := mod, hosts := linked.hosts, config := setup.config }
    let m : Machine σ := { cache, host := setup.host, store := linked.store }
    cases hstart : mod.start with
    | none =>
      simp only [result, act, Module.instantiate, hlink, hstart]
      exact perform_still (fun _ => rfl) steps cache
    | some func =>
      have hm : m.cache.Coherent env.module := hcache
      have hact : Stage.absent.act mod cache (.create setup) =
          Purpose.start.pursue env (call env func) m.uncached m.cache := by
        simp only [act, hlink, hstart]
        rfl
      have hcall : Finished (callToEnd env budget func m) := by
        intro n hn
        refine h n.toShared ?_
        simp only [result, Module.instantiate, hlink, hstart]
        rw [hn]
      rw [hact, Purpose.start.perform_call hm hcall hsteps]
      simp only [result, Module.instantiate, hlink, hstart]
      cases callToEnd env budget func m <;> rfl

theorem perform_append (mod : Module) (acts acts' : List (Act σ)) (state : Stage σ × CodeCache) :
    Stage.perform mod (acts ++ acts') state =
      Stage.perform mod acts' (Stage.perform mod acts state) :=
  List.foldl_append

/-- Nothing becomes of an instance that could not be created. -/
theorem perform_rejected (mod : Module) (e : Link.Error) (host : σ) (acts : List (Act σ))
    (cache : CodeCache) :
    Stage.perform mod acts (.rejected e host, cache) = (.rejected e host, cache) := by
  induction acts with
  | nil => rfl
  | cons act acts ih => exact ih

end Stage

-- ---------------------------------------------------------------------------
-- Sessions
-- ---------------------------------------------------------------------------

/-- The acts by which an instance is created and makes its way through requests,
    with a number of steps for each of them. -/
def Act.course (setup : Setup σ) (steps : Nat) (requests : List (Request × Nat)) : List (Act σ) :=
  .create setup :: List.replicate steps .advance ++
    requests.flatMap fun (r, steps) => .request r :: List.replicate steps .advance

theorem Instance.serve_cons {env : Env σ} {m : Machine σ} {r : Request} {budget : Nat}
    (h : Run.Finished (r.run env budget m)) (requests : List Request) :
    serve budget { env, machine := m } (r :: requests) =
      .ofResult (r.run env budget m) ::
        serve budget { env, machine := finalState (r.run env budget m) } requests := by
  simp only [serve, run]
  cases hresult : r.run env budget m with
  | ok answer n => rfl
  | error e n =>
    cases e with
    | unfinished => exact absurd hresult (h n)
    | trap | missing => rfl

theorem Instance.finished_of_serve {env : Env σ} {m : Machine σ} {r : Request} {budget : Nat}
    {requests : List Request}
    (h : ∀ o ∈ serve budget { env, machine := m } (r :: requests), o.Finished) :
    Run.Finished (r.run env budget m) := by
  intro n hn
  have hfirst : (⟨.error .unfinished, n.sight⟩ : Observation σ) ∈
      serve budget { env, machine := m } (r :: requests) := by
    simp [serve, run, hn]
  exact h _ hfirst rfl

/-- What a new instance shares is what it was created with, and what its start
    function did to it. -/
theorem Module.instantiate_shared {m : Module} {imports : Imports σ} {config : Config}
    {budget : Nat} {shared shared' : Shared σ} {i : Instance σ}
    (h : m.instantiate imports config budget shared = (.ok i, shared')) :
    shared' = i.machine.toShared := by
  unfold Module.instantiate at h
  split at h
  · cases h
  · split at h
    · cases h
      rfl
    · dsimp only at h
      split at h
      · cases h
        rfl
      · cases h

namespace Stage

variable {budget steps : Nat} {requests : List (Request × Nat)}

/-- What is seen of an instance in the course of requests is what it gives when
    it serves them on its own. -/
theorem session?_requests {i : Instance σ} (hi : i.machine.cache.Coherent i.env.module)
    (opening : Sight σ) (past : List (Observation σ)) (hsteps : ∀ p ∈ requests, budget ≤ p.2)
    (h : ∀ o ∈ i.serve budget (requests.map (·.1)), o.Finished) :
    (Stage.perform i.env.module
        (requests.flatMap fun (r, steps) => .request r :: List.replicate steps .advance)
        (.idle opening past { i with machine := i.machine.uncached }, i.machine.cache)).1.session? =
      some (.opened opening (past ++ i.serve budget (requests.map (·.1)))) := by
  induction requests generalizing i past with
  | nil => exact congrArg (fun past => some (Session.opened opening past)) (List.append_nil _).symm
  | cons p requests ih =>
    obtain ⟨env, m⟩ := i
    obtain ⟨r, steps⟩ := p
    obtain ⟨hfirst, hsteps⟩ := List.forall_mem_cons.mp hsteps
    have hrun : Run.Finished (r.run env budget m) := Instance.finished_of_serve h
    rw [List.map_cons, Instance.serve_cons hrun] at h ⊢
    obtain ⟨_, hrest⟩ := List.forall_mem_cons.mp h
    have hcoherent := (r.transparent env budget).coherent hi
    have hthen := ih (i := { env, machine := finalState (r.run env budget m) }) hcoherent
      (past ++ [.ofResult (r.run env budget m)]) hsteps hrest
    rw [List.append_assoc] at hthen
    rw [List.flatMap_cons, perform_append, perform_request hi hrun hfirst opening past]
    exact hthen

/-- An instance that goes through a course is seen to do what it does in a
    session of its own. -/
theorem session?_course {mod : Module} {setup : Setup σ} (hsteps : budget ≤ steps)
    (hrequests : ∀ p ∈ requests, budget ≤ p.2)
    (h : (setup.session mod (requests.map (·.1)) budget).Finished) :
    (Stage.perform mod (Act.course setup steps requests) (.absent, .empty mod)).1.session? =
      some (setup.session mod (requests.map (·.1)) budget) := by
  have hempty := CodeCache.empty_coherent mod
  have hcreate := perform_create hempty setup hsteps
  rw [Act.course, perform_append]
  unfold Setup.session Module.session at h ⊢
  rcases hresult : mod.instantiate setup.imports setup.config budget ⟨.empty mod, setup.host⟩ with
    ⟨e | i, shared⟩
  · rw [hresult] at h hcreate
    have hended (shared' : Shared σ) : ((.error e : Except Link.Error (Instance σ)), shared) ≠
        (.error (.start .unfinished), shared') := by
      rintro ⟨⟩
      exact h rfl
    rw [hcreate hended, created, perform_rejected]
    rfl
  · rw [hresult] at h hcreate
    rw [hcreate nofun, created]
    obtain rfl := Module.instantiate_module hresult
    rw [Module.instantiate_shared hresult]
    exact session?_requests (Module.instantiate_coherent hempty hresult) _ [] hrequests h

end Stage

end Wasm
