import Wasm.Proofs.Cache.Transparency
import Wasm.Proofs.Limits.Termination
import Wasm.Store.Text

/-!
# What an instance does is in its store

Between tasks nothing is left of earlier ones but the store: no operands, no
frames, and of the cache only what can be prepared again. Two instances that
were used differently and came to have the same store are therefore answered
alike by whatever is asked of them next.
-/

namespace Wasm

variable {σ α β : Type}

-- ---------------------------------------------------------------------------
-- Tasks
-- ---------------------------------------------------------------------------

/-- What a host can look up in an instance without running it. -/
inductive Inquiry where
  | global (name : String)
  | stringLength (address : UInt32)
  | stringLength16 (address : UInt32)
  | string (address : UInt32)
  | string16 (address : UInt32)

inductive Reply where
  | answer (a : Answer)
  | value (v : Option Value)
  | length (n : Nat)
  | text (s : Option String)
deriving DecidableEq

def Inquiry.answer (i : Instance σ) : Inquiry → Except Trap Reply
  | global name => .ok (.value (i.global? name))
  | stringLength address => (i.machine.store.stringLength address).map .length
  | stringLength16 address => (i.machine.store.stringLength16 address).map .length
  | string address => (i.machine.store.readString address).map .text
  | string16 address => (i.machine.store.readString16 address).map .text

/-- What a host can do with an instance: have it perform a service, or look
    something up. -/
inductive Task where
  | service (s : Service)
  | inquiry (q : Inquiry)

namespace Task

def run (env : Env σ) (budget : Nat) : Task → Run σ Reply
  | service s => return .answer (← s.run env budget)
  | inquiry q => do Run.ofExcept (q.answer { env, machine := ← get })

/-- The task is, or begins with, calling a function. -/
def IsCall : Task → Prop
  | service s => s.toRequest.IsCall
  | inquiry _ => False

/-- The function a task calls, unless it is rejected at the outset. -/
def callee? (store : Store) : Task → Option (UInt32 × FuncInst)
  | service s => s.toRequest.callee? store
  | inquiry _ => none

end Task

/-- The instances of a module as they are met between tasks, after any number
    of them. Others may have prepared functions of the module in the meantime,
    and changed the state of the host. -/
inductive Module.InUse (m : Module) : Instance σ → Prop where
  | created {imports : Imports σ} {config : Config} {budget : Nat} {called : List Nat} {host : σ}
      {i : Instance σ} {shared : Shared σ}
      (h : m.instantiate imports config budget ⟨.filled m called, host⟩ = (.ok i, shared)) :
      InUse m i
  | used {i : Instance σ} (h : InUse m i) (task : Task) (budget : Nat) :
      InUse m (i.run (task.run · budget)).2
  | elsewhere {i : Instance σ} (h : InUse m i) (called : List Nat) (host : σ) :
      InUse m { i with machine.toShared := ⟨.filled m called, host⟩ }

-- ---------------------------------------------------------------------------
-- Tasks do not see the cache
-- ---------------------------------------------------------------------------

namespace Run

variable {env : Env σ} {m : Machine σ}

theorem Transparent.invokeWord (budget : Nat) (name : String) (args : List Value) :
    Transparent env (invokeWord env budget name args) := by
  apply (Transparent.invoke budget name args).bind
  intro results
  split
  · exact (Frameless.pure _).transparent
  · exact Transparent.trap _
  · exact Transparent.trap _

theorem Transparent.place {allocate : UInt32 → Run σ UInt32}
    (h : ∀ size, Transparent env (allocate size)) (bytes : List UInt8) :
    Transparent env (place allocate bytes) := by
  apply (h _).bind
  intro pointer
  apply (Frameless.writeMemory pointer.toNat bytes).transparent.bind
  intro _
  exact (Frameless.pure pointer).transparent

end Run

open Run in
theorem Service.transparent (env : Env σ) (budget : Nat) (s : Service) :
    Transparent env (s.run env budget) := by
  cases s with
  | request r => exact r.transparent env budget
  | alloc | stackSave | stackAlloc => exact (Transparent.invokeWord budget _ _).map _
  | free | stackRestore => exact ((Transparent.invoke budget _ _).map _).map _
  | allocWrite bytes | stackAllocWrite bytes =>
    exact (Transparent.place (fun _ => Transparent.invokeWord budget _ _) bytes).map _

theorem Inquiry.answer_congr (q : Inquiry) {i j : Instance σ}
    (h : i.machine.store = j.machine.store) : q.answer i = q.answer j := by
  cases q <;> simp only [answer, Instance.global?, h]

theorem Task.transparent (env : Env σ) (budget : Nat) (task : Task) :
    Run.Transparent env (task.run env budget) := by
  cases task with
  | service s => exact (s.transparent env budget).map _
  | inquiry q =>
    apply Run.Transparent.of_recache
    intro m cache
    have hanswer : q.answer { env, machine := m.recache cache } =
        q.answer { env, machine := m } := q.answer_congr rfl
    simp only [run, Run.bind_apply, Run.get_apply, hanswer, Run.ofExcept_apply]
    cases q.answer { env, machine := m } <;> rfl

-- ---------------------------------------------------------------------------
-- Instances in use
-- ---------------------------------------------------------------------------

theorem Instance.run_service (i : Instance σ) (s : Service) (budget : Nat) :
    (i.run ((Task.service s).run · budget)).2 = (i.run (s.run · budget)).2 := by
  simp only [Instance.run, Task.run, Run.bind_apply]
  cases s.run i.env budget i.machine <;> rfl

theorem Instance.run_inquiry (i : Instance σ) (q : Inquiry) (budget : Nat) :
    (i.run ((Task.inquiry q).run · budget)).2 = i := by
  simp only [Instance.run, Task.run, Run.bind_apply, Run.get_apply, Run.ofExcept_apply]
  cases q.answer { env := i.env, machine := i.machine } <;> rfl

theorem Module.InUse.living {m : Module} {i : Instance σ} (h : m.InUse i) : m.Living i := by
  induction h with
  | created h => exact .created h
  | used h task budget ih =>
    cases task with
    | service s =>
      rw [Instance.run_service]
      exact ih.served s budget
    | inquiry q => rwa [Instance.run_inquiry]
  | elsewhere h called host ih => exact ih.shared _

theorem Module.InUse.coherent {m : Module} {i : Instance σ} (h : m.InUse i) :
    i.machine.cache.Coherent m := by
  induction h with
  | created h => exact Module.instantiate_coherent (CodeCache.filled_coherent m _) h
  | @used i h task budget ih =>
    rw [Instance.run_machine]
    have hmodule := h.living.env_module
    subst hmodule
    exact (task.transparent i.env budget).coherent ih
  | elsewhere h called host ih => exact CodeCache.filled_coherent m called

/-- Two machines at rest with the same store and host differ in their caches
    and in the origin of the last trap. -/
theorem Machine.AtRest.eq_recache {m n : Machine σ} (hm : m.AtRest) (hn : n.AtRest)
    (hstore : n.store = m.store) (hhost : n.host = m.host) :
    n = ({ m with origin := n.origin } : Machine σ).recache n.cache := by
  have hmframes := hm.frames
  have hnframes := hn.frames
  obtain ⟨hmstack, _, _, hmdepth⟩ := hm
  obtain ⟨hnstack, _, _, hndepth⟩ := hn
  obtain ⟨⟨cache, host⟩, store, stack, frames, depth, origin⟩ := m
  obtain ⟨⟨cache', host'⟩, store', stack', frames', depth', origin'⟩ := n
  simp_all [Machine.recache]

-- ---------------------------------------------------------------------------
-- Origins of earlier traps
-- ---------------------------------------------------------------------------

/-- A task that calls a function forgets where the last trap came from, and
    any other leaves that alone. -/
def Task.settle (task : Task) (store : Store) (origin : Option UInt32) (m : Machine σ) :
    Machine σ :=
  if (task.callee? store).isSome then m else { m with origin }

theorem Service.run_origin (env : Env σ) (budget : Nat) (s : Service) (m : Machine σ)
    (origin : Option UInt32) :
    s.run env budget { m with origin } =
      mapState ((Task.service s).settle m.store origin) (s.run env budget m) := by
  obtain ⟨conclude, _, hrun⟩ := s.run_eq_bind (σ := σ)
  unfold Task.settle
  cases hcallee : s.toRequest.callee? m.store with
  | some callee =>
    have hother : s.toRequest.callee? ({ m with origin } : Machine σ).store = some callee := hcallee
    have hsame : s.run env budget { m with origin } = s.run env budget m := by
      simp only [hrun, Run.bind_apply, Request.run_of_callee hcallee,
        Request.run_of_callee hother]
      rfl
    rw [hsame]
    simp only [Task.callee?, hcallee, Option.isSome_some, if_true]
    cases s.run env budget m <;> rfl
  | none =>
    simp only [Task.callee?, hcallee, Option.isSome_none, Bool.false_eq_true, if_false]
    by_cases hcall : s.toRequest.IsCall
    · have hother : s.toRequest.callee? ({ m with origin } : Machine σ).store = none := hcallee
      rw [hrun, Run.bind_error (Request.run_of_rejected hcall hcallee env budget),
        Run.bind_error (Request.run_of_rejected hcall hother env budget)]
      rfl
    · cases s with
      | request r =>
        -- The requests that are left touch the store alone.
        cases r with
        | invoke | invokeIndirect => exact absurd trivial hcall
        | readMemory address n =>
          simp only [Service.run, Request.run, Run.readMemory, Run.bind_apply, Run.get_apply,
            Run.ofExcept_apply]
          cases m.store.read address n <;> rfl
        | writeMemory address bytes =>
          simp only [Service.run, Request.run, Run.writeMemory, Run.bind_apply, Run.get_apply,
            Run.ofExcept_apply]
          cases m.store.write address bytes <;> rfl
        | setFuel fuel => rfl
      | _ => exact absurd trivial hcall

theorem Task.run_of_rejected {task : Task} {m : Machine σ} (hcall : task.IsCall)
    (h : task.callee? m.store = none) (env : Env σ) (budget : Nat) :
    ∃ t, task.run env budget m = .error (.trap t) m := by
  cases task with
  | service s =>
    obtain ⟨conclude, _, hrun⟩ := s.run_eq_bind (σ := σ)
    refine ⟨s.toRequest.rejection m.store, ?_⟩
    rw [run, hrun]
    exact Run.bind_error (Run.bind_error (Request.run_of_rejected hcall h env budget))
  | inquiry q => exact hcall.elim

theorem Task.run_origin (env : Env σ) (budget : Nat) (task : Task) (m : Machine σ)
    (origin : Option UInt32) :
    task.run env budget { m with origin } =
      mapState (task.settle m.store origin) (task.run env budget m) := by
  cases task with
  | service s =>
    simp only [run, Run.bind_apply, s.run_origin env budget m origin]
    cases s.run env budget m <;> rfl
  | inquiry q =>
    have hanswer : q.answer { env, machine := { m with origin } } =
        q.answer { env, machine := m } := q.answer_congr rfl
    simp only [run, Run.bind_apply, Run.get_apply, hanswer, Run.ofExcept_apply]
    cases q.answer { env, machine := m } <;> rfl

@[simp] theorem Task.settle_store (task : Task) (store : Store) (origin : Option UInt32)
    (m : Machine σ) : (task.settle store origin m).store = m.store := by
  unfold settle
  split <;> rfl

@[simp] theorem Task.settle_host (task : Task) (store : Store) (origin : Option UInt32)
    (m : Machine σ) : (task.settle store origin m).host = m.host := by
  unfold settle
  split <;> rfl

theorem Task.settle_origin {task : Task} {store : Store} (h : (task.callee? store).isSome)
    (origin : Option UInt32) (m : Machine σ) :
    (task.settle store origin m).origin = m.origin := by
  rw [settle, if_pos h]

-- ---------------------------------------------------------------------------
-- Two histories
-- ---------------------------------------------------------------------------

/-- From two states at rest with one store and one host, a task comes to
    results that differ in the cache and, unless it calls a function, in the
    origin of the last trap. -/
theorem Task.run_eq_mapState {env : Env σ} {m n : Machine σ} (hm : m.AtRest) (hn : n.AtRest)
    (hcoherent : m.cache.Coherent env.module) (hother : n.cache.Coherent env.module)
    (hstore : n.store = m.store) (hhost : n.host = m.host) (task : Task) (budget : Nat) :
    ∃ cache, task.run env budget n =
      mapState (fun k => (task.settle m.store n.origin k).recache cache)
        (task.run env budget m) := by
  obtain ⟨funcs, _, hdraws⟩ :=
    task.transparent env budget { m with origin := n.origin } hcoherent
  refine ⟨n.cache.draw env.module funcs, ?_⟩
  calc task.run env budget n
    _ = task.run env budget (({ m with origin := n.origin } : Machine σ).recache n.cache) := by
      rw [← hm.eq_recache hn hstore hhost]
    _ = mapState (·.recache (n.cache.draw env.module funcs))
          (task.run env budget { m with origin := n.origin }) := hdraws n.cache hother
    _ = _ := by
      rw [task.run_origin]
      cases task.run env budget m <;> rfl

/-- Two instances that came to have one store, each by its own history, cannot
    be told apart by any task, and they have one store after it, and one origin
    of the last trap if the task called a function. A call that is rejected for
    its name, slot or arguments changes nothing. With `Unit` for the state of
    the host, its functions depend on the store and their arguments alone. -/
theorem Module.history_independent {m : Module} {i j : Instance σ} (hi : m.InUse i)
    (hj : m.InUse j) (henv : i.env = j.env) (hstore : i.machine.store = j.machine.store)
    (hhost : i.machine.host = j.machine.host) (task : Task) (budget : Nat) :
    let (reply, i') := i.run (task.run · budget)
    let (reply', j') := j.run (task.run · budget)
    reply = reply' ∧ i'.machine.store = j'.machine.store ∧ i'.machine.host = j'.machine.host ∧
      ((task.callee? i.machine.store).isSome → i'.machine.origin = j'.machine.origin) ∧
      (task.IsCall → task.callee? i.machine.store = none → i' = i ∧ j' = j) := by
  obtain ⟨env, M⟩ := i
  obtain ⟨env', N⟩ := j
  obtain rfl : env = env' := henv
  obtain rfl : env.module = m := hi.living.env_module
  obtain ⟨cache, hrun⟩ := Task.run_eq_mapState hi.living.atRest hj.living.atRest hi.coherent
    hj.coherent hstore.symm hhost.symm task budget
  have hkept : task.IsCall → task.callee? M.store = none →
      finalState (task.run env budget M) = M ∧ finalState (task.run env budget N) = N := by
    intro hcall hnone
    obtain ⟨t, hM⟩ := Task.run_of_rejected hcall hnone env budget
    obtain ⟨u, hN⟩ := Task.run_of_rejected hcall (hstore ▸ hnone) env budget
    rw [hM, hN]
    exact ⟨rfl, rfl⟩
  rw [hrun] at hkept
  simp only [Instance.run, hrun]
  cases hresult : task.run env budget M with
  | ok reply k | error e k =>
    rw [hresult] at hkept
    refine ⟨rfl, ?_, ?_, ?_, ?_⟩
    · exact (task.settle_store M.store N.origin k).symm
    · exact (task.settle_host M.store N.origin k).symm
    · intro hcallee
      exact (Task.settle_origin hcallee N.origin k).symm
    · intro hcall hnone
      obtain ⟨hM, hN⟩ := hkept hcall hnone
      exact ⟨congrArg (Instance.mk env) hM, congrArg (Instance.mk env) hN⟩

/-- Only memories cannot be compared by deciding. -/
theorem Store.eq_of_memories {s s' : Store} (hmemories : s.memories = s'.memories)
    (hrest : s.funcs = s'.funcs ∧ s.tables = s'.tables ∧ s.globals = s'.globals ∧
      s.exports = s'.exports ∧ s.fuel = s'.fuel ∧ s.pageLimit = s'.pageLimit) : s = s' := by
  cases s
  cases s'
  simp only [mk.injEq]
  exact ⟨hrest.1, hmemories, hrest.2⟩

theorem Instance.env_run {α : Type} (i : Instance σ) (op : Env σ → Run σ α) :
    (i.run op).2.env = i.env := by
  unfold run
  split <;> rfl

/-- An instance of `countdown` that was not used yet. -/
def countdownFresh : Instance Nat where
  env := { module := countdown, hosts := #[tick], config := { fuel := some 1 } }
  machine := { countdownIdle (some 1) with store.pageLimit := 65536 }

/-- The same after it ran out of fuel in the midst of a call, with fuel and
    host put back. -/
def countdownReused : Instance Nat :=
  let count : Task := .service (.request (.invoke "run" [.i32 9]))
  let refuel : Task := .service (.request (.setFuel (some 1)))
  let i := ((countdownFresh.run (count.run · 100)).2.run (refuel.run · 0)).2
  { i with machine.toShared := ⟨.filled countdown [0], 0⟩ }

theorem countdownFresh_inUse : countdown.InUse countdownFresh := by
  have hcreated : countdown.instantiate ticks { fuel := some 1 } 0 ⟨.filled countdown [], 0⟩ =
      (.ok countdownFresh, ⟨.filled countdown [], 0⟩) := by with_unfolding_all rfl
  exact .created hcreated

theorem countdownReused_inUse : countdown.InUse countdownReused :=
  ((countdownFresh_inUse.used _ 100).used _ 0).elsewhere [0] 0

/-- Only one of the two remembers a trap, until both have run out of fuel. -/
theorem countdown_history_independent :
    let count : Task := .service (.request (.invoke "run" [.i32 9]))
    let (reply, i) := countdownFresh.run (count.run · 100)
    let (reply', j) := countdownReused.run (count.run · 100)
    countdownFresh.machine.origin = none ∧ countdownReused.machine.origin = some 1 ∧
      reply = reply' ∧ i.machine.store = j.machine.store ∧ i.machine.origin = j.machine.origin := by
  have henv : countdownFresh.env = countdownReused.env := by
    rw [countdownReused, Instance.env_run, Instance.env_run]
  have hstore : countdownFresh.machine.store = countdownReused.machine.store := by
    have hmemories : countdownReused.machine.store.memories = #[] :=
      Array.eq_empty_of_size_eq_zero (by decide +kernel)
    exact Store.eq_of_memories hmemories.symm (by decide +kernel)
  obtain ⟨hreply, hstore', _, horigin, _⟩ := Module.history_independent countdownFresh_inUse
    countdownReused_inUse henv hstore rfl (.service (.request (.invoke "run" [.i32 9]))) 100
  exact ⟨rfl, by decide +kernel, hreply, hstore', horigin (by decide +kernel)⟩

end Wasm
