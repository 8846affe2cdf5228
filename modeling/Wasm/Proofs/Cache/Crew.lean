import Mathlib.Logic.Function.Basic
import Wasm.Proofs.Cache.Filling
import Wasm.Proofs.Limits.Cutoff

/-!
# Instances side by side

Any number of instances of one module share a cache, and nothing else: each has
its own imports, settings, store and host. They take turns, one step at a time
and in any order, so that one may find the cache changed by others in the midst
of its calls.

Each of them goes through the stages it goes through alone, and what is in the
cache are the functions that frames were pushed for to run them as prepared.
-/

namespace Wasm

variable {σ : Type}

-- ---------------------------------------------------------------------------
-- Stages
-- ---------------------------------------------------------------------------

/-- A cache in which nothing can be kept. -/
def CodeCache.slotless : CodeCache := { slots := #[] }

/-- The machine without prepared code at hand. -/
def Machine.uncached (m : Machine σ) : Machine σ := m.recache .slotless

def Observation.ofResult : EStateM.Result Fault (Machine σ) Answer → Observation σ
  | .ok answer m => { result := .ok answer, sight := m.sight }
  | .error e m => { result := .error e, sight := m.sight }

/-- What an instance is created with. -/
structure Setup (σ : Type) where
  imports : Imports σ
  config : Config
  /-- The state its host is in. -/
  host : σ

/-- The life of such an instance on its own, with an empty cache. -/
def Setup.session (mod : Module) (setup : Setup σ) (requests : List Request) (budget : Nat) :
    Session σ :=
  mod.session setup.imports setup.config ⟨.empty mod, setup.host⟩ requests budget

/-- What a function is run for: to start an instance, or to answer a request
    with that many results of it. -/
inductive Purpose (σ : Type) where
  | start
  | answer (opening : Sight σ) (past : List (Observation σ)) (results : Nat)

/-- Where an instance is in its life. It keeps what was seen when it was created
    and what was seen of it since. -/
inductive Stage (σ : Type) where
  | absent
  | rejected (e : Link.Error) (host : σ)
  | idle (opening : Sight σ) (past : List (Observation σ)) (i : Instance σ)
  | running (purpose : Purpose σ) (i : Instance σ)

namespace Stage

/-- The life of the instance as its host has seen it so far. -/
def session? : Stage σ → Option (Session σ)
  | absent => none
  | rejected e host => some (.rejected e host)
  | idle opening past _ => some (.opened opening past)
  | running .start _ => none
  | running (.answer opening past _) _ => some (.opened opening past)

/-- A request was answered. -/
def answered (env : Env σ) (opening : Sight σ) (past : List (Observation σ))
    (r : EStateM.Result Fault (Machine σ) Answer) : Stage σ :=
  .idle opening (past ++ [.ofResult r]) { env, machine := finalState r }

end Stage

namespace Purpose

/-- The function came to its end. -/
def finish (env : Env σ) : Purpose σ → EStateM.Result Fault (Machine σ) Unit → Stage σ
  | start, .ok _ m => .idle m.sight [] { env, machine := { m with stack := [] } }
  | start, .error e m => .rejected (.start e) m.host
  | answer opening past results, r => .answered env opening past (Request.reply results r)

/-- The function got this far: without frames it has come to its end. -/
def follow (env : Env σ) (purpose : Purpose σ) :
    EStateM.Result Fault (Machine σ) Unit → Stage σ
  | .ok u m =>
    if m.frames = [] then purpose.finish env (.ok u m) else .running purpose { env, machine := m }
  | .error e m => purpose.finish env (.error e m)

end Purpose

-- ---------------------------------------------------------------------------
-- Turns
-- ---------------------------------------------------------------------------

/-- What can be done with an instance. -/
inductive Act (σ : Type) where
  | create (setup : Setup σ)
  | request (r : Request)
  | advance

/-- What comes of an act: a stage, a cache, and the function that a frame was
    pushed for, if one was, with whether it runs as prepared. -/
structure Move (σ : Type) where
  stage : Stage σ
  cache : CodeCache
  pushed : List (Bool × Nat) := []

/-- Runs an action with the cache that the others have left. -/
def Purpose.pursue (env : Env σ) (purpose : Purpose σ) (a : Run σ Unit) (m : Machine σ)
    (cache : CodeCache) : Move σ :=
  let result := a (m.recache cache)
  { stage := purpose.follow env (mapState (·.uncached) result)
    cache := (finalState result).cache
    pushed := (m.entered? (finalState result)).toList.map (env.config.compile, ·) }

/-- Calls and steps are the acts that run code. One that makes no sense at this
    stage changes nothing. -/
def Stage.act (mod : Module) (cache : CodeCache) : Stage σ → Act σ → Move σ
  | absent, .create setup =>
    match mod.link setup.imports setup.config with
    | .error e => { stage := .rejected e setup.host, cache }
    | .ok linked =>
      let env : Env σ := { module := mod, hosts := linked.hosts, config := setup.config }
      let m : Machine σ := { cache := .slotless, host := setup.host, store := linked.store }
      match mod.start with
      | none => { stage := .idle m.sight [] { env, machine := m }, cache }
      | some func => Purpose.start.pursue env (Run.call env func) m cache
  | idle opening past i, .request r =>
    match r.callee? i.machine.store with
    | some (func, f) =>
      (Purpose.answer opening past f.type.results.length).pursue i.env (Run.call i.env func)
        (i.machine.prepareCall r.args) cache
    -- Without a function to run the answer needs neither steps nor the cache.
    | none => { stage := .answered i.env opening past (r.run i.env 0 i.machine), cache }
  | running purpose i, .advance =>
    purpose.pursue i.env (Run.blamingFrame (Run.step i.env)) i.machine cache
  | stage, _ => { stage, cache }

/-- The instance acts and nobody else does in between. -/
def Stage.perform (mod : Module) (acts : List (Act σ)) (state : Stage σ × CodeCache) :
    Stage σ × CodeCache :=
  acts.foldl (fun (stage, cache) act =>
    let move := stage.act mod cache act
    (move.stage, move.cache)) state

/-- Instances of one module, and the cache they share. -/
structure Crew (σ : Type) where
  cache : CodeCache
  /-- The functions that frames were pushed for, with whether they ran as
      prepared. -/
  pushed : List (Bool × Nat) := []
  stage : Nat → Stage σ := fun _ => .absent

namespace Crew

/-- One of the instances acts. -/
def turn (mod : Module) (crew : Crew σ) (t : Nat × Act σ) : Crew σ :=
  let move := (crew.stage t.1).act mod crew.cache t.2
  { cache := move.cache
    pushed := crew.pushed ++ move.pushed
    stage := Function.update crew.stage t.1 move.stage }

/-- The crew after these turns. In the beginning there are no instances, and
    the cache is empty. -/
def play (mod : Module) (turns : List (Nat × Act σ)) : Crew σ :=
  turns.foldl (turn mod) { cache := .empty mod }

end Crew

-- ---------------------------------------------------------------------------
-- Running without a cache
-- ---------------------------------------------------------------------------

namespace CodeCache

theorem slotless_coherent (mod : Module) : slotless.Coherent mod := by
  intro func ops h
  simp [get?, slotless] at h

theorem draw_slotless (mod : Module) (funcs : List Nat) : slotless.draw mod funcs = slotless := by
  induction funcs with
  | nil => rfl
  | cons func funcs ih =>
    have hfetch : (slotless.fetch mod func).2 = slotless := by
      simp [fetch, get?, slotless]
    rw [draw, List.foldl_cons, hfetch]
    exact ih

end CodeCache

namespace Run

variable {env : Env σ} {m : Machine σ} {α : Type}

/-- Without a cache an action comes to the same as with any. -/
theorem Transparent.uncached {a : Run σ α} (ha : Transparent env a) (m : Machine σ)
    {cache : CodeCache} (hcache : cache.Coherent env.module) :
    mapState (·.uncached) (a (m.recache cache)) = a m.uncached := by
  have hslotless := CodeCache.slotless_coherent env.module
  obtain ⟨funcs, _, hdraws⟩ := ha m.uncached hslotless
  have hcached : a (m.recache cache) = _ := hdraws cache hcache
  have hself : a m.uncached = _ := hdraws .slotless hslotless
  rw [CodeCache.draw_slotless] at hself
  rw [hcached, hself]
  cases a m.uncached <;> rfl

/-- What is asked of the actions of a crew: they do not see the cache, draw from
    it the functions they push frames for, and keep the account of frames. -/
structure Orderly (env : Env σ) (a : Run σ Unit) (m : Machine σ) : Prop where
  transparent : Transparent env a
  fills : env.config.compile = true → ∀ cache, Fills env a (m.recache cache)
  tallied : ∀ m', a m.uncached = .ok () m' → m'.outline.Tallied env.config

theorem tallied_recache (h : m.outline.Tallied env.config) (cache : CodeCache) :
    (m.recache cache).outline.Tallied env.config := ⟨h.depth, h.limit, h.strategy⟩

theorem orderly_call (hm : m.outline.Tallied env.config) (func : UInt32) :
    Orderly env (call env func) m where
  transparent := Transparent.call func
  fills hcompile _ := fills_call hcompile func _
  tallied _ := (Outline.invariant_tallied env).kept_call func (tallied_recache hm _)

theorem orderly_step (hm : m.outline.Tallied env.config) :
    Orderly env (blamingFrame (step env)) m where
  transparent := Transparent.step.blamingFrame
  fills hcompile cache := (fills_step hcompile (tallied_recache hm cache)).blamingFrame
  tallied m' h := by
    rw [blamingFrame_apply] at h
    cases hstep : step env m.uncached with
    | ok u n =>
      rw [hstep] at h
      cases h
      exact (Outline.invariant_tallied env).kept_step (tallied_recache hm _) hstep
    | error e n =>
      rw [hstep] at h
      cases h

end Run

-- ---------------------------------------------------------------------------
-- What an act can do
-- ---------------------------------------------------------------------------

/-- The functions of a list of pushes that ran as prepared. -/
def drawn (pushed : List (Bool × Nat)) : List Nat :=
  pushed.filterMap fun (compiled, func) => if compiled then some func else none

theorem contains_drawn (pushed : List (Bool × Nat)) (func : Nat) :
    (drawn pushed).contains func = pushed.contains (true, func) := by
  rw [Bool.eq_iff_iff]
  simp [drawn]

/-- The instance is one of the module, with no more to it than its frames
    account for. -/
inductive Stage.Tame (mod : Module) : Stage σ → Prop where
  | absent : Tame mod .absent
  | rejected (e : Link.Error) (host : σ) : Tame mod (.rejected e host)
  | idle {opening : Sight σ} {past : List (Observation σ)} {i : Instance σ}
      (hmodule : i.env.module = mod) (hrest : i.machine.AtRest) : Tame mod (.idle opening past i)
  | running {purpose : Purpose σ} {i : Instance σ} (hmodule : i.env.module = mod)
      (htallied : i.machine.outline.Tallied i.env.config) : Tame mod (.running purpose i)

namespace Purpose

variable {env : Env σ} {a : Run σ Unit} {m : Machine σ} {cache : CodeCache} (purpose : Purpose σ)

theorem follow_done (h : m.frames = []) :
    purpose.follow env (.ok () m) = purpose.finish env (.ok () m) := if_pos h

theorem follow_running (h : m.frames ≠ []) :
    purpose.follow env (.ok () m) = .running purpose { env, machine := m } := if_neg h

theorem follow_tame {r : EStateM.Result Fault (Machine σ) Unit}
    (h : ∀ m', r = .ok () m' → m'.outline.Tallied env.config) :
    (purpose.follow env r).Tame env.module := by
  cases r with
  | error e m =>
    cases purpose with
    | start => exact .rejected _ _
    | answer opening past results => exact .idle rfl m.reset_atRest
  | ok u m =>
    have hm := h m rfl
    by_cases hframes : m.frames = []
    · have hrest : ({ m with stack := [] } : Machine σ).AtRest :=
        .of_frames rfl hframes (m.depth_of_tallied hm hframes)
      rw [purpose.follow_done hframes]
      cases purpose <;> exact .idle rfl hrest
    · rw [purpose.follow_running hframes]
      exact .running rfl hm

/-- The stage does not depend on the cache. -/
theorem pursue_stage (ha : Run.Transparent env a) (hcache : cache.Coherent env.module) :
    (purpose.pursue env a m cache).stage = purpose.follow env (a m.uncached) :=
  congrArg (purpose.follow env) (ha.uncached m hcache)

theorem pursue_cache (h : Run.Orderly env a m) (hcache : cache.Coherent env.module) :
    (purpose.pursue env a m cache).cache =
      cache.draw env.module (drawn (purpose.pursue env a m cache).pushed) := by
  simp only [pursue]
  cases hcompile : env.config.compile with
  | true =>
    have hfills := h.fills hcompile cache
    have hdrawn (code : Option Nat) : drawn (code.toList.map (true, ·)) = code.toList := by
      cases code <;> rfl
    rw [hdrawn]
    exact hfills
  | false =>
    -- A frame may be pushed here too, but one that runs a body.
    obtain ⟨funcs, hnone, hdraws⟩ := h.transparent (m.recache cache) hcache
    have hdrawn (code : Option Nat) : drawn (code.toList.map (false, ·)) = [] := by
      cases code <;> rfl
    rw [hdrawn, ← hnone hcompile]
    exact hdraws.cache_eq hcache

end Purpose

/-- An act either leaves cache and frames alone, or is an orderly action. -/
theorem Stage.act_cases {mod : Module} {stage : Stage σ} (h : stage.Tame mod) (act : Act σ) :
    (∃ stage' : Stage σ, stage'.Tame mod ∧
      ∀ cache, stage.act mod cache act = { stage := stage', cache }) ∨
    ∃ (purpose : Purpose σ) (env : Env σ) (a : Run σ Unit) (m : Machine σ),
      env.module = mod ∧ Run.Orderly env a m ∧
        ∀ cache, stage.act mod cache act = purpose.pursue env a m cache := by
  cases h with
  | absent =>
    cases act with
    | create setup =>
      simp only [Stage.act]
      cases mod.link setup.imports setup.config with
      | error e => exact .inl ⟨_, .rejected e setup.host, fun _ => rfl⟩
      | ok linked =>
        dsimp only
        have hrest : ({ cache := .slotless, host := setup.host, store := linked.store } :
            Machine σ).AtRest := .of_frames rfl rfl rfl
        cases mod.start with
        | none => exact .inl ⟨_, .idle rfl hrest, fun _ => rfl⟩
        | some func =>
          exact .inr ⟨_, _, _, _, rfl, Run.orderly_call (hrest.tallied _) func, fun _ => rfl⟩
    | request | advance => exact .inl ⟨_, .absent, fun _ => rfl⟩
  | rejected e host => exact .inl ⟨_, .rejected e host, fun _ => rfl⟩
  | @idle opening past i hmodule hrest =>
    cases act with
    | request r =>
      simp only [Stage.act]
      cases r.callee? i.machine.store with
      | none =>
        have htame : Tame mod (.answered i.env opening past (r.run i.env 0 i.machine)) :=
          .idle hmodule (Run.rests_request i.env 0 r i.machine hrest)
        exact .inl ⟨_, htame, fun _ => rfl⟩
      | some callee =>
        have hprepared : (i.machine.prepareCall r.args).outline.Tallied i.env.config :=
          hrest.tallied i.env.config
        exact .inr ⟨_, _, _, _, hmodule, Run.orderly_call hprepared callee.1, fun _ => rfl⟩
    | create | advance => exact .inl ⟨_, .idle hmodule hrest, fun _ => rfl⟩
  | @running purpose i hmodule htallied =>
    cases act with
    | advance => exact .inr ⟨_, _, _, _, hmodule, Run.orderly_step htallied, fun _ => rfl⟩
    | create | request => exact .inl ⟨_, .running hmodule htallied, fun _ => rfl⟩

namespace Stage

variable {mod : Module} {stage : Stage σ} {cache : CodeCache}

/-- The stage that an act leads to does not depend on the cache. -/
theorem act_stage {cache' : CodeCache} (h : stage.Tame mod) (hcache : cache.Coherent mod)
    (hcache' : cache'.Coherent mod) (act : Act σ) :
    (stage.act mod cache act).stage = (stage.act mod cache' act).stage := by
  rcases act_cases h act with ⟨stage', _, hact⟩ | ⟨purpose, env, a, m, rfl, ha, hact⟩
  · rw [hact, hact]
  · rw [hact, hact, purpose.pursue_stage ha.transparent hcache,
      purpose.pursue_stage ha.transparent hcache']

theorem act_cache (h : stage.Tame mod) (hcache : cache.Coherent mod) (act : Act σ) :
    (stage.act mod cache act).cache =
      cache.draw mod (drawn (stage.act mod cache act).pushed) := by
  rcases act_cases h act with ⟨stage', _, hact⟩ | ⟨purpose, env, a, m, rfl, ha, hact⟩
  · rw [hact]
    rfl
  · rw [hact]
    exact purpose.pursue_cache ha hcache

theorem act_coherent (h : stage.Tame mod) (hcache : cache.Coherent mod) (act : Act σ) :
    (stage.act mod cache act).cache.Coherent mod := by
  rw [act_cache h hcache]
  exact hcache.draw _

theorem act_tame (h : stage.Tame mod) (hcache : cache.Coherent mod) (act : Act σ) :
    (stage.act mod cache act).stage.Tame mod := by
  rcases act_cases h act with ⟨stage', h', hact⟩ | ⟨purpose, env, a, m, rfl, ha, hact⟩
  · rw [hact]
    exact h'
  · rw [hact, purpose.pursue_stage ha.transparent hcache]
    exact purpose.follow_tame ha.tallied

end Stage

-- ---------------------------------------------------------------------------
-- Turn after turn
-- ---------------------------------------------------------------------------

/-- What the instance does in these turns. -/
def acts (k : Nat) (turns : List (Nat × Act σ)) : List (Act σ) :=
  (turns.filter (·.1 = k)).map (·.2)

namespace Crew

/-- The cache holds what the module prepares, and the instances are tame. -/
structure Sound (mod : Module) (crew : Crew σ) : Prop where
  cache : crew.cache.Coherent mod
  stages : ∀ k, (crew.stage k).Tame mod

variable {mod : Module} {crew : Crew σ}

theorem Sound.turn (h : crew.Sound mod) (t : Nat × Act σ) : (crew.turn mod t).Sound mod := by
  constructor
  · exact Stage.act_coherent (h.stages t.1) h.cache t.2
  · intro k
    by_cases hk : k = t.1
    · subst hk
      simp only [Crew.turn, Function.update_self]
      exact Stage.act_tame (h.stages t.1) h.cache t.2
    · simp only [Crew.turn, Function.update_of_ne hk]
      exact h.stages k

/-- Whatever the others do, an instance gets to where its own acts take it, and
    it does not matter what is in the cache then. -/
theorem Sound.stage_foldl (h : crew.Sound mod) (turns : List (Nat × Act σ)) (k : Nat)
    {cache : CodeCache} (hcache : cache.Coherent mod) :
    (turns.foldl (Crew.turn mod) crew).stage k =
      (Stage.perform mod (acts k turns) (crew.stage k, cache)).1 := by
  induction turns generalizing crew cache with
  | nil => rfl
  | cons t turns ih =>
    rw [List.foldl_cons]
    by_cases hk : t.1 = k
    · subst hk
      have hacts : acts t.1 (t :: turns) = t.2 :: acts t.1 turns := by
        simp [acts]
      have hstage : (crew.turn mod t).stage t.1 = ((crew.stage t.1).act mod cache t.2).stage := by
        simp only [Crew.turn, Function.update_self]
        exact Stage.act_stage (h.stages t.1) h.cache hcache t.2
      rw [ih (h.turn t) (Stage.act_coherent (h.stages t.1) hcache t.2), hstage, hacts]
      rfl
    · have hacts : acts k (t :: turns) = acts k turns := by
        simp [acts, hk]
      have hstage : (crew.turn mod t).stage k = crew.stage k := by
        simp only [Crew.turn, Function.update_of_ne (Ne.symm hk)]
      rw [ih (h.turn t) hcache, hstage, hacts]

/-- The functions drawn from the cache are those that were pushed to run as
    prepared. -/
theorem Sound.cache_foldl (h : crew.Sound mod) (turns : List (Nat × Act σ)) :
    ∃ pushed, (turns.foldl (Crew.turn mod) crew).pushed = crew.pushed ++ pushed ∧
      (turns.foldl (Crew.turn mod) crew).cache = crew.cache.draw mod (drawn pushed) := by
  induction turns generalizing crew with
  | nil => exact ⟨[], (List.append_nil _).symm, rfl⟩
  | cons t turns ih =>
    obtain ⟨pushed, hpushed, hcache⟩ := ih (h.turn t)
    let move := (crew.stage t.1).act mod crew.cache t.2
    refine ⟨move.pushed ++ pushed, ?_, ?_⟩
    · rw [List.foldl_cons, hpushed, ← List.append_assoc]
      rfl
    · have hmove : (crew.turn mod t).cache = crew.cache.draw mod (drawn move.pushed) :=
        Stage.act_cache (h.stages t.1) h.cache t.2
      rw [List.foldl_cons, hcache, hmove, drawn, drawn, drawn, List.filterMap_append,
        CodeCache.draw_append]

theorem sound_new (mod : Module) : ({ cache := .empty mod } : Crew σ).Sound mod :=
  ⟨CodeCache.empty_coherent mod, fun _ => .absent⟩

theorem sound_play (mod : Module) (turns : List (Nat × Act σ)) : (play mod turns).Sound mod := by
  have hfold (crew : Crew σ) (h : crew.Sound mod) : (turns.foldl (turn mod) crew).Sound mod := by
    induction turns generalizing crew with
    | nil => exact h
    | cons t turns ih => exact ih _ (h.turn t)
  exact hfold _ (sound_new mod)

/-- Turns that are all of one instance take it as far as it gets by itself, and
    leave the others where they are. -/
theorem foldl_own (mod : Module) (crew : Crew σ) (k : Nat) (acts : List (Act σ)) :
    let crew' := (acts.map (k, ·)).foldl (turn mod) crew
    (crew'.stage k, crew'.cache) = Stage.perform mod acts (crew.stage k, crew.cache) ∧
      ∀ j, j ≠ k → crew'.stage j = crew.stage j := by
  induction acts generalizing crew with
  | nil => exact ⟨rfl, fun _ _ => rfl⟩
  | cons act acts ih =>
    obtain ⟨hown, hothers⟩ := ih (crew.turn mod (k, act))
    constructor
    · refine Eq.trans hown ?_
      simp only [Crew.turn, Function.update_self]
      rfl
    · intro j hj
      refine Eq.trans (hothers j hj) ?_
      simp only [Crew.turn, Function.update_of_ne hj]

theorem play_append (mod : Module) (turns more : List (Nat × Act σ)) :
    play mod (turns ++ more) = more.foldl (turn mod) (play mod turns) :=
  List.foldl_append

theorem stage_play (mod : Module) (turns : List (Nat × Act σ)) (k : Nat) :
    (play mod turns).stage k =
      (Stage.perform mod (acts k turns) (.absent, .empty mod)).1 :=
  (sound_new mod).stage_foldl turns k (CodeCache.empty_coherent mod)

/-- A slot that is filled stays as it is in all further turns. -/
theorem get?_play_append (mod : Module) (turns more : List (Nat × Act σ)) {func : Nat}
    {ops : Prepared} (h : (play mod turns).cache.get? func = some ops) :
    (play mod (turns ++ more)).cache.get? func = some ops := by
  obtain ⟨pushed, _, hcache⟩ := (sound_play mod turns).cache_foldl more
  rw [play_append, hcache]
  exact CodeCache.get?_draw h _

theorem count_play (mod : Module) (turns : List (Nat × Act σ)) :
    (play mod turns).cache.count = (List.range mod.functions.size).countP fun func =>
      (play mod turns).pushed.contains (true, func) := by
  obtain ⟨pushed, hpushed, hcache⟩ := (sound_new (σ := σ) mod).cache_foldl turns
  simp only [List.nil_append] at hpushed
  simp only [play, hcache, hpushed, CodeCache.count_draw_empty, contains_drawn]

end Crew

end Wasm
