import Wasm.Proofs.Limits.Metering
import Wasm.Proofs.Limits.Termination
import Wasm.Proofs.Machine.Trail
import Wasm.Proofs.Strategy.Agreement
import Wasm.Proofs.Structured.Flat

/-!
# Limits only cut runs short

A run that neither fuel nor the depth limit stops takes the same course under
wider limits: it comes to the same end and spends the same fuel, one unit each
time it goes back to the start of a loop. A run that fuel stops has none left.
-/

namespace Wasm

variable {σ α : Type}

-- ---------------------------------------------------------------------------
-- Counting
-- ---------------------------------------------------------------------------

open Classical in
/-- How often the steps of a trail go back to the start of a loop. -/
noncomputable def rounds (mod : Module) (trail : List (Machine σ)) : Nat :=
  trail.countP fun m => decide (m.Repeats mod)

/-- There is no limit, or one of at least `k`. -/
def AtLeast (k : Nat) : Option Nat → Prop
  | none => True
  | some k' => k ≤ k'

theorem AtLeast.pred {k : Nat} {fuel : Option Nat} (h : AtLeast (k + 1) fuel) :
    ∃ fuel', fuel = Option.map (· + 1) fuel' ∧ AtLeast k fuel' := by
  match fuel with
  | none => exact ⟨none, rfl, trivial⟩
  | some (k' + 1) => exact ⟨some k', rfl, Nat.le_of_succ_le_succ h⟩

/-- What is left of a limit after one unit and then some. -/
theorem map_add_sub (fuel : Option Nat) (k : Nat) :
    (fuel.map (· + 1)).map (· - (k + 1)) = fuel.map (· - k) := by
  cases fuel with
  | none => rfl
  | some k' => exact congrArg some (Nat.add_sub_add_right k' 1 k)

theorem rounds_cons_of_repeats {mod : Module} {m : Machine σ} (h : m.Repeats mod)
    (trail : List (Machine σ)) : rounds mod (m :: trail) = rounds mod trail + 1 := by
  simp [rounds, h]

theorem rounds_cons_of_not {mod : Module} {m : Machine σ} (h : ¬ m.Repeats mod)
    (trail : List (Machine σ)) : rounds mod (m :: trail) = rounds mod trail := by
  simp [rounds, h]

theorem Machine.not_repeats_nil {mod : Module} {m : Machine σ} (h : m.frames = []) :
    ¬ m.Repeats mod := by
  rintro ⟨frame, rest, _, _, hframes, _⟩
  rw [h] at hframes
  cases hframes

-- ---------------------------------------------------------------------------
-- Codes
-- ---------------------------------------------------------------------------

/-- All that runs, and all that is at hand to be run, is from the module. -/
structure Outline.Sourced (mod : Module) (o : Outline) : Prop where
  codes : ∀ code ∈ o.codes, ∃ func, code.Of mod func
  cache : o.cache.Coherent mod

theorem Outline.invariant_sourced (env : Env σ) : Invariant env (Sourced env.module) where
  leave o h := ⟨fun code hcode => h.codes code (List.mem_of_mem_tail hcode), h.cache⟩
  enter o h _ code := by
    unfold Outline.enter
    cases hcompile : env.config.compile with
    | true =>
      have hprepared : FrameCode.Of env.module code
          (.prepared (o.cache.fetch env.module code).1) := by
        rw [h.cache.fetch_fst code]
        exact .inr rfl
      exact ⟨List.forall_mem_cons.mpr ⟨⟨code, hprepared⟩, h.codes⟩, h.cache.fetch_snd code⟩
    | false => exact ⟨List.forall_mem_cons.mpr ⟨⟨code, .inl rfl⟩, h.codes⟩, h.cache⟩

theorem Machine.code_of_sourced {mod : Module} {m : Machine σ} (h : m.outline.Sourced mod) :
    ∀ frame ∈ m.frames, ∃ func, frame.code.Of mod func :=
  fun frame hframe => h.codes frame.code (List.mem_map_of_mem hframe)

-- ---------------------------------------------------------------------------
-- Runs
-- ---------------------------------------------------------------------------

namespace Run

/-- The run came to its end, and no limit brought it about. -/
def Uncut (r : EStateM.Result Fault (Machine σ) α) : Prop :=
  ∀ e n, r = .error e n → ¬ e.IsLimit

theorem Uncut.ok (x : α) (n : Machine σ) : Uncut (.ok x n) := by
  intro e n' h
  cases h

/-- A run with `k` units of fuel came to `r` and spent `spent` of them. With
    any fuel that allows for as much it comes to the same, and spends the same. -/
structure Outlasts (k spent : Nat) (r : EStateM.Result Fault (Machine σ) α)
    (r' : Option Nat → EStateM.Result Fault (Machine σ) α) (spent' : Option Nat → Nat) :
    Prop where
  within : spent ≤ k
  same : ∀ fuel, AtLeast spent fuel →
    r' fuel = mapState (·.withFuel (fuel.map (· - spent))) r ∧ spent' fuel = spent

section

variable {β : Type} {k spent : Nat} {r : EStateM.Result Fault (Machine σ) α}
  {r' : Option Nat → EStateM.Result Fault (Machine σ) α} {spent' : Option Nat → Nat}

/-- Nothing is spent where the result does not depend on the fuel. -/
theorem Outlasts.of_even (hr : ∀ fuel, r' fuel = mapState (·.withFuel fuel) r)
    (hspent : ∀ fuel, spent' fuel = 0) : Outlasts k 0 r r' spent' := by
  refine ⟨Nat.zero_le k, fun fuel _ => ⟨?_, hspent fuel⟩⟩
  rw [hr fuel]
  cases fuel <;> rfl

/-- What is done with a result afterwards does not depend on the fuel. -/
theorem Outlasts.post (h : Outlasts k spent r r' spent')
    {p : EStateM.Result Fault (Machine σ) α → EStateM.Result Fault (Machine σ) β}
    (hp : ∀ r fuel, p (mapState (·.withFuel fuel) r) = mapState (·.withFuel fuel) (p r)) :
    Outlasts k spent (p r) (fun fuel => p (r' fuel)) spent' := by
  refine ⟨h.within, fun fuel hfuel => ?_⟩
  obtain ⟨hresult, hspent⟩ := h.same fuel hfuel
  rw [hresult, hp]
  exact ⟨rfl, hspent⟩

/-- The fuel that is left. -/
theorem Outlasts.left (h : Outlasts k spent r r' spent') (hself : r' (some k) = r) :
    (finalState r).store.fuel = some (k - spent) := by
  have hresult := (h.same (some k) h.within).1
  rw [← hself, hresult]
  cases r <;> rfl

end

variable {env : Env σ} {m : Machine σ} {k d : Nat}

/-- A result with the innermost frame as the origin of its fault. -/
def blamed : EStateM.Result Fault (Machine σ) Unit → EStateM.Result Fault (Machine σ) Unit
  | .ok u m => .ok u m
  | .error e m => .error e m.blameFrame

theorem blamingFrame_eq (a : Run σ Unit) (m : Machine σ) : blamingFrame a m = blamed (a m) := by
  rw [blamingFrame_apply]
  cases a m <;> rfl

theorem Uncut.of_blamed {r : EStateM.Result Fault (Machine σ) Unit} (h : Uncut (blamed r)) :
    Uncut r := by
  rintro e n rfl
  exact h e n.blameFrame rfl

theorem blamed_withFuel (r : EStateM.Result Fault (Machine σ) Unit) (fuel : Option Nat) :
    blamed (mapState (·.withFuel fuel) r) = mapState (·.withFuel fuel) (blamed r) := by
  cases r with
  | ok u m => rfl
  | error e m =>
    obtain ⟨shared, store, stack, frames, depth, origin⟩ := m
    cases frames <;> rfl

/-- The run from `m` on outlasts its limits, up to depth `d`. -/
abbrev StepsOutlast (env : Env σ) (d k budget : Nat) (m : Machine σ) : Prop :=
  Outlasts k (rounds env.module (trail env budget m)) (steps env budget m)
    (fun fuel => steps (env.withDepth d) budget (m.withFuel fuel))
    (fun fuel => rounds env.module (trail (env.withDepth d) budget (m.withFuel fuel)))

theorem StepsOutlast.nil (hframes : m.frames = []) (budget : Nat) :
    StepsOutlast env d k budget m := by
  have hrounds (n : Machine σ) (hn : n.frames = []) (env' : Env σ) :
      rounds env.module (trail env' budget n) = 0 := by
    rw [trail_nil hn, rounds_cons_of_not (Machine.not_repeats_nil hn)]
    rfl
  unfold StepsOutlast
  rw [hrounds m hframes env]
  refine Outlasts.of_even (fun fuel => ?_) fun fuel => hrounds (m.withFuel fuel) hframes _
  rw [steps_nil hframes, steps_nil (m := m.withFuel fuel) hframes]
  rfl

/-- A step that goes back, and is paid for. -/
theorem StepsOutlast.paid {n e : Machine σ} (hframes : m.frames ≠ [])
    (hfuel : m.store.fuel = some (k + 1)) (hrepeats : m.Repeats env.module)
    (hpaid : ∀ env' : Env σ, env'.module = env.module → ∀ fuel,
      step env' (m.withFuel fuel) = paid n e fuel) {budget : Nat}
    (hrest : StepsOutlast env d k budget (n.withFuel (some k))) :
    StepsOutlast env d (k + 1) (budget + 1) m := by
  have hframes' (fuel : Option Nat) : (m.withFuel fuel).frames ≠ [] := hframes
  have hstep : step env m = .ok () (n.withFuel (some k)) := by
    rw [← m.withFuel_self, hfuel]
    exact hpaid env rfl (some (k + 1))
  unfold StepsOutlast
  rw [trail_ok hframes hstep, rounds_cons_of_repeats hrepeats, steps_succ hframes, bind_ok hstep]
  refine ⟨Nat.succ_le_succ hrest.within, fun fuel hspent => ?_⟩
  obtain ⟨fuel, rfl, hrest'⟩ := hspent.pred
  obtain ⟨hresult, hrounds⟩ := hrest.same fuel hrest'
  have hstep' : step (env.withDepth d) (m.withFuel (fuel.map (· + 1))) =
      .ok () (n.withFuel fuel) := by
    rw [hpaid (env.withDepth d) rfl]
    cases fuel <;> rfl
  constructor
  · rw [steps_succ (hframes' _), bind_ok hstep', map_add_sub]
    exact hresult
  · rw [trail_ok (hframes' _) hstep', rounds_cons_of_repeats (hrepeats.withFuel _)]
    exact congrArg (· + 1) hrounds

/-- A step that is even. -/
theorem StepsOutlast.even (hframes : m.frames ≠ []) (hrepeats : ¬ m.Repeats env.module)
    (heven : EvenAt m (step env) (step (env.withDepth d))) {budget : Nat}
    (h : Uncut (steps env (budget + 1) m))
    (hrest : ∀ n, step env m = .ok () n → StepsOutlast env d k budget n) :
    StepsOutlast env d k (budget + 1) m := by
  have hframes' (fuel : Option Nat) : (m.withFuel fuel).frames ≠ [] := hframes
  rw [steps_succ hframes] at h
  have hrepeats' (fuel : Option Nat) : ¬ (m.withFuel fuel).Repeats env.module :=
    mt Machine.repeats_withFuel.mp hrepeats
  unfold StepsOutlast
  rw [steps_succ hframes]
  cases hstep : step env m with
  | error e n =>
    have hdeep : e ≠ .trap .callStackExhausted := by
      rintro rfl
      exact h _ n (bind_error hstep) trivial
    have hstep' := (heven.error hstep hdeep).2
    rw [bind_error hstep, trail_error hframes hstep, rounds_cons_of_not hrepeats]
    refine Outlasts.of_even (fun fuel => ?_) fun fuel => ?_
    · rw [steps_succ (hframes' fuel), bind_error (hstep' fuel)]
      rfl
    · rw [trail_error (hframes' fuel) (hstep' fuel),
        rounds_cons_of_not (hrepeats' fuel)]
      rfl
  | ok u n =>
    have hn := hrest n hstep
    have hstep' := heven.ok hstep
    rw [bind_ok hstep, trail_ok hframes hstep, rounds_cons_of_not hrepeats]
    refine ⟨hn.within, fun fuel hfuel => ?_⟩
    rw [steps_succ (hframes' fuel), bind_ok (hstep' fuel),
      trail_ok (hframes' fuel) (hstep' fuel), rounds_cons_of_not (hrepeats' fuel)]
    exact hn.same fuel hfuel

section

variable (hhosts : ∀ f ∈ env.hosts, f.Unmetered) (htypes : env.module.CallTypesExist)

include hhosts htypes

/-- A run that runs out of fuel has none left. -/
theorem steps_dry {budget : Nat} {n : Machine σ} (hm : m.outline.Sourced env.module)
    (h : steps env budget m = .error (.trap .outOfFuel) n) : n.store.fuel = some 0 := by
  induction budget generalizing m with
  | zero =>
    by_cases hframes : m.frames = []
    · rw [steps_nil hframes] at h
      cases h
    · rw [steps_zero hframes] at h
      cases h
  | succ budget ih =>
    by_cases hframes : m.frames = []
    · rw [steps_nil hframes] at h
      cases h
    · rw [steps_succ hframes] at h
      cases hstep : step env m with
      | ok u m' =>
        rw [bind_ok hstep] at h
        exact ih ((Outline.invariant_sourced env).kept_step hm hstep) h
      | error e m' =>
        rw [bind_error hstep] at h
        cases h
        by_cases hrepeats : m.Repeats env.module
        · obtain ⟨n', e, hpaid⟩ := step_paid htypes hrepeats
          have hstep' : step env m = paid n' e m.store.fuel := hpaid env rfl m.store.fuel
          exact paid_dry (hstep'.symm.trans hstep)
        · have heven := step_even hhosts (Nat.le_refl _) htypes (m.code_of_sourced hm) hrepeats
          exact absurd hstep (heven.not_outOfFuel n)

/-- A run that no limit stops outlasts its limits. -/
theorem steps_outlast (hd : env.config.maxCallDepth ≤ d) {budget : Nat}
    (hm : m.outline.Sourced env.module) (hfuel : m.store.fuel = some k)
    (h : Uncut (steps env budget m)) : StepsOutlast env d k budget m := by
  induction budget generalizing m k with
  | zero =>
    by_cases hframes : m.frames = []
    · exact StepsOutlast.nil hframes 0
    · exact absurd trivial (h _ _ (steps_zero hframes))
  | succ budget ih =>
    by_cases hframes : m.frames = []
    · exact StepsOutlast.nil hframes (budget + 1)
    have hkept := (Outline.invariant_sourced env).kept_step
    -- What a step that goes back costs is what the bound on the rest is lower by.
    by_cases hrepeats : m.Repeats env.module
    · obtain ⟨n, e, hpaid⟩ := step_paid htypes hrepeats
      have hstep : step env m = paid n e (some k) := by
        rw [← hfuel]
        exact hpaid env rfl m.store.fuel
      cases k with
      | zero =>
        rw [steps_succ hframes, bind_error hstep] at h
        exact absurd trivial (h _ _ rfl)
      | succ k =>
        rw [steps_succ hframes, bind_ok hstep] at h
        exact StepsOutlast.paid hframes hfuel hrepeats hpaid (ih (hkept hm hstep) rfl h)
    · have hcodes := m.code_of_sourced hm
      have heven := step_even hhosts hd htypes hcodes hrepeats
      refine StepsOutlast.even hframes hrepeats heven h fun n hstep => ?_
      have hself : EvenAt m (step env) (step env) :=
        step_even hhosts (Nat.le_refl _) htypes hcodes hrepeats
      rw [steps_succ hframes, bind_ok hstep] at h
      exact ih (hkept hm hstep) ((hself.kept hstep).trans hfuel) h

theorem callToEnd_dry {budget : Nat} {func : UInt32} {n : Machine σ}
    (hm : m.outline.Sourced env.module)
    (h : callToEnd env budget func m = .error (.trap .outOfFuel) n) : n.store.fuel = some 0 := by
  cases hcall : call env func m with
  | error e m' =>
    rw [callToEnd, bind_error hcall] at h
    cases h
    exact absurd hcall ((Even.call hhosts (Nat.le_refl _) func m).not_outOfFuel n)
  | ok u m' =>
    rw [callToEnd, bind_ok hcall, blamingFrame_eq] at h
    cases hsteps : steps env budget m' with
    | ok u n' =>
      rw [hsteps] at h
      cases h
    | error e n' =>
      rw [hsteps] at h
      cases h
      rw [Machine.store_blameFrame]
      exact steps_dry hhosts htypes ((Outline.invariant_sourced env).kept_call func hm hcall) hsteps

/-- A call that no limit stops outlasts its limits. -/
theorem callToEnd_outlasts (hd : env.config.maxCallDepth ≤ d) {budget : Nat} {func : UInt32}
    (hm : m.outline.Sourced env.module) (hfuel : m.store.fuel = some k)
    (h : Uncut (callToEnd env budget func m)) :
    Outlasts k (rounds env.module (callTrail env budget func m)) (callToEnd env budget func m)
      (fun fuel => callToEnd (env.withDepth d) budget func (m.withFuel fuel))
      (fun fuel =>
        rounds env.module (callTrail (env.withDepth d) budget func (m.withFuel fuel))) := by
  have heven := Even.call hhosts hd func m
  simp only [callToEnd, callTrail] at h ⊢
  cases hcall : call env func m with
  | error e n =>
    have hdeep : e ≠ .trap .callStackExhausted := by
      rintro rfl
      exact h _ n (bind_error hcall) trivial
    have hcall' := (heven.error hcall hdeep).2
    rw [bind_error hcall]
    refine Outlasts.of_even (fun fuel => ?_) fun fuel => ?_
    · rw [bind_error (hcall' fuel)]
      rfl
    · rw [hcall' fuel]
      rfl
  | ok u n =>
    have hcall' := heven.ok hcall
    have hself : EvenAt m (call env func) (call env func) := Even.call hhosts (Nat.le_refl _) func m
    have hn : n.store.fuel = some k := (hself.kept hcall).trans hfuel
    have hsourced := (Outline.invariant_sourced env).kept_call func hm hcall
    rw [bind_ok hcall, blamingFrame_eq] at h ⊢
    have hsteps := steps_outlast hhosts htypes hd hsourced hn (Uncut.of_blamed h)
    simp only [bind_ok (hcall' _), hcall', blamingFrame_eq]
    exact hsteps.post blamed_withFuel

end

end Run

-- ---------------------------------------------------------------------------
-- Requests
-- ---------------------------------------------------------------------------

namespace Request

open Run

/-- What a request makes of the end of its call. -/
def reply (results : Nat) :
    EStateM.Result Fault (Machine σ) Unit → EStateM.Result Fault (Machine σ) Answer
  | .ok _ n => .ok (.values (n.stack.take results).reverse) { n with stack := [] }
  | .error e n => .error e n.reset

variable {env : Env σ} {m : Machine σ} {k d : Nat} {r : Request}

theorem run_eq_reply {func : UInt32} {f : FuncInst} (h : r.callee? m.store = some (func, f))
    (env : Env σ) (budget : Nat) :
    r.run env budget m =
      reply f.type.results.length (callToEnd env budget func (m.prepareCall r.args)) := by
  rw [run_of_callee h]
  cases callToEnd env budget func (m.prepareCall r.args) <;> rfl

theorem reply_withFuel (results : Nat) (r : EStateM.Result Fault (Machine σ) Unit)
    (fuel : Option Nat) :
    reply results (mapState (·.withFuel fuel) r) =
      mapState (·.withFuel fuel) (reply results r) := by
  cases r <;> rfl

theorem Uncut.of_reply {results : Nat} {r : EStateM.Result Fault (Machine σ) Unit}
    (h : Uncut (reply results r)) : Uncut r := by
  rintro e n rfl
  exact h e n.reset rfl

theorem rejection_not_limit (r : Request) (s : Store) : ¬ (Fault.trap (r.rejection s)).IsLimit := by
  unfold rejection
  split
  · split <;> exact id
  · split <;> exact id

section

variable (hhosts : ∀ f ∈ env.hosts, f.Unmetered) (htypes : env.module.CallTypesExist)

include hhosts htypes

/-- A request that runs out of fuel leaves none. -/
theorem run_dry (hr : r.IsCall) (hm : m.outline.Sourced env.module) {budget : Nat} {n : Machine σ}
    (h : r.run env budget m = .error (.trap .outOfFuel) n) : n.store.fuel = some 0 := by
  cases hcallee : r.callee? m.store with
  | none =>
    rw [run_of_rejected hr hcallee] at h
    obtain ⟨htrap, _⟩ := EStateM.Result.error.inj h
    have hlimit := r.rejection_not_limit m.store
    rw [htrap] at hlimit
    exact absurd trivial hlimit
  | some callee =>
    rw [run_eq_reply hcallee] at h
    cases hcall : callToEnd env budget callee.1 (m.prepareCall r.args) with
    | ok u n' =>
      rw [hcall] at h
      cases h
    | error e n' =>
      rw [hcall] at h
      cases h
      have hprepared : (m.prepareCall r.args).outline.Sourced env.module := hm
      have hdry : n'.store.fuel = some 0 := callToEnd_dry hhosts htypes hprepared hcall
      exact hdry

/-- A request that no limit stops outlasts its limits. -/
theorem run_outlasts (hr : r.IsCall) (hd : env.config.maxCallDepth ≤ d) {budget : Nat}
    (hm : m.outline.Sourced env.module) (hfuel : m.store.fuel = some k)
    (h : Uncut (r.run env budget m)) :
    Outlasts k (rounds env.module (r.trail env budget m)) (r.run env budget m)
      (fun fuel => r.run (env.withDepth d) budget (m.withFuel fuel))
      (fun fuel => rounds env.module (r.trail (env.withDepth d) budget (m.withFuel fuel))) := by
  have hcallee' (fuel : Option Nat) : r.callee? (m.withFuel fuel).store = r.callee? m.store := by
    cases r <;> rfl
  simp only [Request.trail, hcallee']
  cases hcallee : r.callee? m.store with
  | none =>
    refine Outlasts.of_even (fun fuel => ?_) fun _ => rfl
    rw [run_of_rejected hr hcallee, run_of_rejected hr ((hcallee' fuel).trans hcallee)]
    cases r <;> rfl
  | some callee =>
    have hrun' (fuel : Option Nat) : r.run (env.withDepth d) budget (m.withFuel fuel) = _ :=
      run_eq_reply ((hcallee' fuel).trans hcallee) (env.withDepth d) budget
    have hprepared : (m.prepareCall r.args).outline.Sourced env.module := hm
    rw [run_eq_reply hcallee] at h ⊢
    simp only [hrun']
    have hcall := callToEnd_outlasts hhosts htypes hd hprepared hfuel (Uncut.of_reply h)
    exact hcall.post (reply_withFuel callee.2.type.results.length)

end

end Request

/-- Where neither fuel nor the depth limit stops a request, going back to the
    start of a loop is what its fuel is spent on, and it comes to the same end
    under any higher depth limit and with any fuel that allows for as much, or
    with no limit on it: all that differs is the fuel that is left. Where fuel
    stops a request none is left. -/
theorem Module.limits_only_cut {bytes : List UInt8} {env : Env σ}
    (hread : Format.decode bytes = .ok env.module) (hhosts : ∀ f ∈ env.hosts, f.Unmetered)
    {t : Machine σ} {k : Nat} (hframes : t.frames = []) (hcache : t.cache.Coherent env.module)
    (hfuel : t.store.fuel = some k) {r : Request} (hr : r.IsCall) (budget : Nat) :
    let result := r.run env budget t
    let spent := rounds env.module (r.trail env budget t)
    (∀ n, result = .error (.trap .outOfFuel) n → n.store.fuel = some 0) ∧
    (Run.Uncut result →
      spent ≤ k ∧ (finalState result).store.fuel = some (k - spent) ∧
      ∀ fuel d, AtLeast spent fuel → env.config.maxCallDepth ≤ d →
        r.run (env.withDepth d) budget (t.withFuel fuel) =
          mapState (·.withFuel (fuel.map (· - spent))) result ∧
        rounds env.module (r.trail (env.withDepth d) budget (t.withFuel fuel)) = spent) := by
  intro result spent
  have htypes : env.module.CallTypesExist :=
    Validity.callTypesExist (Format.decode_eq_ok_iff.mp hread).2
  have hsourced : t.outline.Sourced env.module := by
    refine ⟨?_, hcache⟩
    rw [Machine.outline, hframes]
    exact List.forall_mem_nil _
  constructor
  · intro n h
    exact Request.run_dry hhosts htypes hr hsourced h
  · intro huncut
    have houtlasts (d : Nat) (hd : env.config.maxCallDepth ≤ d) :=
      Request.run_outlasts hhosts htypes hr hd hsourced hfuel huncut
    have hself := houtlasts env.config.maxCallDepth (Nat.le_refl _)
    have hsame : r.run env budget (t.withFuel (some k)) = result := by
      rw [← hfuel, t.withFuel_self]
    refine ⟨hself.within, hself.left hsame, ?_⟩
    intro fuel d hspent hd
    exact (houtlasts d hd).same fuel hspent

/-- Counting down from three goes back twice, so that three of five units of
    fuel are left; two would do. -/
theorem countdown_limits_only_cut :
    let env : Env Nat := { module := countdown, hosts := #[tick], config := { maxCallDepth := 1 } }
    let t := countdownIdle (some 5)
    let r : Request := .invoke "run" [.i32 3]
    (∀ f ∈ env.hosts, f.Unmetered) ∧ Run.Uncut (r.run env 100 t) ∧
      rounds countdown (r.trail env 100 t) = 2 ∧
      ∀ fuel d, AtLeast 2 fuel → 1 ≤ d →
        r.run (env.withDepth d) 100 (t.withFuel fuel) =
          mapState (·.withFuel (fuel.map (· - 2))) (r.run env 100 t) := by
  intro env t r
  have hhosts : ∀ f ∈ env.hosts, f.Unmetered := by
    intro f hf
    obtain rfl := List.mem_singleton.mp (List.mem_toArray.mp hf)
    exact fun _ _ _ _ => rfl
  have hleft : (match r.run env 100 t with
      | .ok _ n => n.store.fuel
      | .error _ _ => none) = some 3 := by decide +kernel
  have hcache : t.cache.Coherent countdown := CodeCache.empty_coherent countdown
  have hframes : t.frames = [] := rfl
  have hfuel : t.store.fuel = some 5 := rfl
  have hcall : r.IsCall := trivial
  have hcut := (Module.limits_only_cut (show Format.decode countdownBytes = .ok env.module from
    decode_countdown) hhosts hframes hcache hfuel hcall 100).2
  cases hresult : r.run env 100 t with
  | error e n =>
    rw [hresult] at hleft
    cases hleft
  | ok answer n =>
    rw [hresult] at hleft
    have huncut : Run.Uncut (r.run env 100 t) := hresult ▸ Run.Uncut.ok answer n
    obtain ⟨hle, hspare, hsame⟩ := hcut huncut
    rw [hresult] at hspare
    have hspent : rounds env.module (r.trail env 100 t) = 2 := by
      have hthree := Option.some.inj (hspare.symm.trans hleft)
      omega
    rw [hspent] at hsame
    rw [← hresult]
    exact ⟨hhosts, huncut, hspent, fun fuel d hfuel hd => (hsame fuel d hfuel hd).1⟩

end Wasm
