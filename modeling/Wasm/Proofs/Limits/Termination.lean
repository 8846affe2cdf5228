import Wasm.Proofs.Machine.Trail
import Wasm.Proofs.Safety.Linking
import Wasm.Proofs.Strategy.Agreement
import Wasm.Proofs.Structured.Refinement

/-!
# Termination

Fuel and the depth limit together bound every run. Fuel is paid for going back
to the start of a loop and for nothing else, so in the evaluation of structured
code whatever nests is paid for: a repetition by one unit of fuel, a call by
one frame. The flat run ends because the evaluation does. Without loops the
depth limit is enough.
-/

namespace Wasm

open Run

variable {σ α β : Type}

-- ---------------------------------------------------------------------------
-- Hosts and loops
-- ---------------------------------------------------------------------------

/-- The function neither adds to the fuel nor lifts the limit. -/
def HostFunc.Thrifty (f : HostFunc σ) : Prop :=
  ∀ args s state n, s.fuel = some n →
    ∃ k, k ≤ n ∧ (f.call args s state).store.fuel = some k

def Imports.Thrifty (imports : Imports σ) : Prop :=
  ∀ module name f, imports.get? module name = some (.func f) → f.Thrifty

/-- No body has a loop. -/
def Module.LoopFree (m : Module) : Prop :=
  ∀ f ∈ m.functions, ∀ type, Instr.loop type ∉ f.body

def Code.LoopFree : Code → Prop
  | nil => True
  | plain _ rest => rest.LoopFree
  | block _ body rest | ifThen _ body rest => body.LoopFree ∧ rest.LoopFree
  | loop _ _ _ => False
  | ifElse _ body otherwise rest => body.LoopFree ∧ otherwise.LoopFree ∧ rest.LoopFree

theorem Code.loopFree_of_layout {c : Code} {p : Nat} (h : ∀ type, Instr.loop type ∉ c.layout p) :
    c.LoopFree := by
  induction c generalizing p with
  | nil => trivial
  | plain i rest ih =>
    refine ih (p := p + 1) fun type hmem => h type ?_
    exact List.mem_cons_of_mem _ hmem
  | block type body rest ihb ihr | ifThen type body rest ihb ihr =>
    simp only [layout, List.mem_append, List.mem_cons, not_or] at h
    exact ⟨ihb fun type => (h type).1.2, ihr fun type => (h type).2.2⟩
  | loop type body rest ihb ihr => exact absurd List.mem_cons_self (h type)
  | ifElse type body otherwise rest ihb iho ihr =>
    simp only [layout, List.mem_append, List.mem_cons, not_or] at h
    exact ⟨ihb fun type => (h type).1.1.2, iho fun type => (h type).1.2.2,
      ihr fun type => (h type).2.2⟩

theorem Module.LoopFree.trees {m : Module} (h : m.LoopFree) {trees : Array Code}
    (hspells : m.Spells trees) : ∀ c ∈ trees, c.LoopFree := by
  intro c hc
  have hbody : c.body ∈ m.functions.map (·.body) := by
    rw [show m.functions.map (·.body) = trees.map Code.body from hspells]
    exact Array.mem_map_of_mem hc
  obtain ⟨f, hf, hfc⟩ := Array.mem_map.mp hbody
  refine Code.loopFree_of_layout (p := 0) fun type hmem => h f hf type ?_
  rw [hfc, Code.body, List.mem_toArray]
  exact List.mem_append_left _ hmem

-- ---------------------------------------------------------------------------
-- Rations
-- ---------------------------------------------------------------------------

/-- At most so many repetitions can be paid for. Without a ration there is
    nothing to pay for. -/
def Store.Rationed (ration : Option Nat) (s : Store) : Prop :=
  ∀ k, ration = some k → ∃ j, j ≤ k ∧ s.fuel = some j

/-- Where loops are not paid for there are none. -/
def Code.Rationed (ration : Option Nat) (c : Code) : Prop := ration = none → c.LoopFree

namespace Structured

/-- The result of an action that ended, at that depth and within the ration
    unless it faulted. -/
def Halted (ration : Option Nat) (depth : Nat) : EStateM.Result Fault (Machine σ) α → Prop
  | .ok _ t => t.depth = depth ∧ t.store.Rationed ration
  | .error e _ => e ≠ .unfinished

/-- From that depth and within the ration the action ends there. -/
def Halts (ration : Option Nat) (depth : Nat) (a : Run σ α) : Prop :=
  ∀ t, t.depth = depth → t.store.Rationed ration → Halted ration depth (a t)

variable {ration : Option Nat} {depth : Nat}

theorem Halted.finished {r : EStateM.Result Fault (Machine σ) α} (h : Halted ration depth r) :
    Finished r := by
  rintro t rfl
  exact h rfl

theorem Halted.of_trap (t : Trap) (m : Machine σ) :
    Halted ration depth (.error (.trap t) m : EStateM.Result Fault (Machine σ) α) := by
  intro h
  cases h

theorem Halts.pure (x : α) : Halts ration depth (pure x : Run σ α) := fun _ hd ht => ⟨hd, ht⟩

theorem Halts.trap (t : Trap) : Halts ration depth (trap t : Run σ α) :=
  fun m _ _ => Halted.of_trap t m

theorem Halts.bind {a : Run σ α} {f : α → Run σ β} (ha : Halts ration depth a)
    (hf : ∀ x, Halts ration depth (f x)) : Halts ration depth (a >>= f) := by
  intro t hd ht
  have h := ha t hd ht
  rw [bind_apply]
  cases hresult : a t with
  | ok x t' =>
    rw [hresult] at h
    exact hf x t' h.1 h.2
  | error e t' =>
    rw [hresult] at h
    exact h

theorem Halts.blaming {a : Run σ α} (ha : Halts ration depth a) (func : UInt32) :
    Halts ration depth (blaming func a) := by
  intro t hd ht
  have h := ha t hd ht
  simp only [Run.blaming]
  cases hresult : a t with
  | ok x t' =>
    rw [hresult] at h
    exact h
  | error e t' =>
    rw [hresult] at h
    exact h

theorem Halts.onLocals {action : Exec α} (ha : action.Confined) (locals : Array Value) :
    Halts (σ := σ) ration depth (onLocals locals action) := by
  intro t hd ht
  have hkept := (ha.kept { stack := t.stack, locals, store := t.store }).2
  simp only [Structured.onLocals]
  cases hresult : action { stack := t.stack, locals, store := t.store } with
  | ok x c =>
    rw [hresult] at hkept
    refine ⟨hd, fun k hk => ?_⟩
    obtain ⟨j, hj, hfuel⟩ := ht k hk
    exact ⟨j, hj, hkept.trans hfuel⟩
  | error e c =>
    rintro rfl
    exact ha.limitless hresult trivial

theorem Halts.below (params : Nat) : Halts (σ := σ) ration depth (below params) := by
  intro t hd ht
  rcases Site.below_cases params t with hbelow | ⟨height, hbelow⟩
  · rw [hbelow]
    exact Halted.of_trap _ _
  · rw [hbelow]
    exact ⟨hd, ht⟩

theorem Halts.keep (height arity : Nat) : Halts (σ := σ) ration depth (keep height arity) := by
  intro t hd ht
  rw [Site.keep_apply]
  split
  · exact ⟨hd, ht⟩
  · exact Halted.of_trap _ _

/-- What is repeated is paid for. -/
theorem Halts.burn_bind {k : Nat} {f : Unit → Run σ α}
    (hf : ∀ j, j < k → Halts (some j) depth (f ())) :
    Halts (some k) depth (burn >>= f) := by
  intro t hd ht
  obtain ⟨j, hj, hfuel⟩ := ht k rfl
  rw [bind_apply]
  simp only [Structured.burn, bind_apply, get_apply, Store.burn, hfuel]
  cases j with
  | zero => exact Halted.of_trap _ _
  | succ j =>
    have h := hf j hj { t with store.fuel := some j } hd
      fun k' hk' => ⟨j, Nat.le_of_eq (Option.some.inj hk'), rfl⟩
    show Halted (some k) depth (f () { t with store.fuel := some j })
    cases hresult : f () { t with store.fuel := some j } with
    | ok x t' =>
      rw [hresult] at h
      refine ⟨h.1, fun k' hk' => ?_⟩
      obtain ⟨i, hi, hfuel'⟩ := h.2 j rfl
      cases hk'
      exact ⟨i, by omega, hfuel'⟩
    | error e t' =>
      rw [hresult] at h
      exact h

theorem Halts.andThen {first : Run σ Exit} {next : Array Value → Run σ Exit}
    (hfirst : Halts ration depth first) (hnext : ∀ locals, Halts ration depth (next locals)) :
    Halts ration depth (andThen first next) := by
  refine hfirst.bind fun exit => ?_
  cases exit with
  | fall locals => exact hnext locals
  | branch depth locals => exact .pure _
  | return_ => exact .pure _

theorem Halts.enclose {arity : Nat × Nat} {body : Run σ Exit}
    {arrive : Nat → Array Value → Run σ Exit} (hbody : Halts ration depth body)
    (harrive : ∀ height locals, Halts ration depth (arrive height locals)) :
    Halts ration depth (enclose arity body arrive) := by
  refine (Halts.below arity.1).bind fun height => hbody.bind fun exit => ?_
  cases exit with
  | fall locals => exact (Halts.keep _ _).bind fun _ => .pure _
  | branch depth locals =>
    cases depth with
    | zero => exact harrive height locals
    | succ depth => exact .pure _
  | return_ => exact .pure _

theorem Halts.block {arity : Nat × Nat} {body : Run σ Exit} (hbody : Halts ration depth body) :
    Halts ration depth (block arity body) :=
  hbody.enclose fun _ _ => (Halts.keep _ _).bind fun _ => .pure _

theorem Halts.choose {arity : Nat × Nat} {locals : Array Value} {yes no : Array Value → Run σ Exit}
    (hyes : ∀ locals, Halts ration depth (yes locals))
    (hno : ∀ locals, Halts ration depth (no locals)) :
    Halts ration depth (choose arity locals yes no) := by
  refine (Halts.onLocals (.popInt .w32) locals).bind fun pair => Halts.block ?_
  split
  · exact hno _
  · exact hyes _

-- ---------------------------------------------------------------------------
-- Calls
-- ---------------------------------------------------------------------------

variable {env : Env σ} {trees : Array Code}

theorem Halts.takeArgs (params : List ValueType) :
    Halts (σ := σ) ration depth (takeArgs params) := by
  intro t hd ht
  rcases takeArgs_cases params t with ⟨args, hargs, _⟩ | ⟨e, stack, hargs⟩
  · rw [hargs]
    exact ⟨hd, ht⟩
  · rw [hargs]
    exact Halted.of_trap _ _

theorem Halts.callHost (hhosts : ration ≠ none → ∀ f ∈ env.hosts, f.Thrifty) (func : UInt32)
    (type : FuncType) (module name : String) (slot : Nat) :
    Halts ration depth (callHost env func type module name slot) := by
  refine Halts.blaming ?_ func
  split
  · intro t hd ht h
    cases h
  · rename_i f hf
    refine (Halts.takeArgs type.params).bind fun args => ?_
    intro t hd ht
    have hreply : (f.call args t.store t.host).store.Rationed ration := by
      intro k hk
      obtain ⟨j, hj, hfuel⟩ := ht k hk
      have hthrifty := hhosts (by simp [hk]) f (Array.mem_of_getElem? hf)
      obtain ⟨i, hi, hfuel'⟩ := hthrifty args t.store t.host j hfuel
      exact ⟨i, Nat.le_trans hi hj, hfuel'⟩
    simp only [bind_apply, get_apply, set_apply, ofExcept_apply]
    cases checkReply type module name (f.call args t.store t.host).result with
    | error e => exact Halted.of_trap _ _
    | ok results => exact ⟨hd, hreply⟩

/-- An activation ends one frame further out than its body. -/
theorem Halts.activate {body : Run σ Exit} (hbody : Halts ration (depth + 1) body) (func : UInt32)
    (height arity : Nat) {t : Machine σ} (hd : t.depth = depth + 1)
    (ht : t.store.Rationed ration) : Halted ration depth (activate func body height arity t) := by
  have h := hbody.blaming func t hd ht
  rw [Structured.activate, bind_apply]
  cases hresult : Run.blaming func body t with
  | error e t' =>
    rw [hresult] at h
    exact h
  | ok exit t' =>
    rw [hresult] at h
    have hout : ({ t' with depth := t'.depth - 1 } : Machine σ).depth = depth := by
      show t'.depth - 1 = depth
      rw [h.1, Nat.add_sub_cancel]
    exact Halts.keep height arity { t' with depth := t'.depth - 1 } hout h.2

/-- A call is paid for by a frame. -/
theorem Halts.call (hhosts : ration ≠ none → ∀ f ∈ env.hosts, f.Thrifty)
    (htrees : ∀ c ∈ trees, c.Rationed ration) {eval : Code → Array Value → Run σ Exit}
    (heval : depth < env.config.maxCallDepth →
      ∀ c, c.Rationed ration → ∀ locals, Halts ration (depth + 1) (eval c locals))
    (func : UInt32) : Halts ration depth (call env trees eval func) := by
  intro t hd ht
  simp only [Structured.call, bind_apply, get_apply]
  cases t.store.funcs[func.toNat]? with
  | none => exact Halted.of_trap _ _
  | some f =>
    cases f with
    | host type module name slot =>
      exact Halts.callHost hhosts func type module name slot t hd ht
    | defined type code =>
      have htree : (trees[code]?.getD .nil).Rationed ration := by
        cases hcode : trees[code]? with
        | none => exact fun _ => trivial
        | some c => exact htrees c (Array.mem_of_getElem? hcode)
      rcases takeLocals_cases env type code t with ⟨locals, hlocals, _⟩ | ⟨e, stack, hlocals⟩
      · have hlt : depth < env.config.maxCallDepth := hd ▸ takeLocals_lt hlocals
        simp only [bind_ok (blaming_ok hlocals func), bind_apply, get_apply, set_apply]
        exact (heval hlt _ htree locals).activate func _ _ (congrArg (· + 1) hd) ht
      · simp only [bind_error (blaming_error hlocals func)]
        exact Halted.of_trap _ _

-- ---------------------------------------------------------------------------
-- Evaluation
-- ---------------------------------------------------------------------------

/-- Induction is on the tree. What the tree does not hold itself is evaluated
    one frame deeper, or with less of the ration. -/
theorem evalWith_halts (hhosts : ration ≠ none → ∀ f ∈ env.hosts, f.Thrifty)
    (htrees : ∀ c ∈ trees, c.Rationed ration) {eval : Code → Array Value → Run σ Exit}
    (hcall : depth < env.config.maxCallDepth →
      ∀ c, c.Rationed ration → ∀ locals, Halts ration (depth + 1) (eval c locals))
    (hagain : ∀ k, ration = some k → ∀ j, j < k → ∀ c locals,
      Halts (some j) depth (eval c locals))
    (c : Code) (hc : c.Rationed ration) (locals : Array Value) :
    Halts ration depth (evalWith env trees eval c locals) := by
  induction c generalizing locals with
  | nil => exact .pure _
  | plain i rest ih =>
    refine (Halts.onLocals (.plain env.module.types i) locals).bind fun pair => ?_
    obtain ⟨effect, locals⟩ := pair
    cases effect with
    | next => exact ih hc locals
    | branch depth => exact .pure _
    | call func => exact (Halts.call hhosts htrees hcall func).bind fun _ => ih hc locals
    | return_ => exact .pure _
  | block type body rest ihb ihr =>
    refine Halts.andThen (Halts.block ?_) fun locals => ihr (fun h => (hc h).2) locals
    exact ihb (fun h => (hc h).1) locals
  | loop type body rest ihb ihr =>
    cases ration with
    | none => exact (hc rfl).elim
    | some k =>
      refine Halts.andThen (Halts.enclose (ihb nofun locals) fun height locals => ?_)
        fun locals => ihr nofun locals
      refine (Halts.keep _ _).bind fun _ => Halts.burn_bind fun j hj => ?_
      exact hagain k rfl j hj _ locals
  | ifThen type body rest ihb ihr =>
    refine Halts.andThen (Halts.choose ?_ fun _ => .pure _)
      fun locals => ihr (fun h => (hc h).2) locals
    exact fun locals => ihb (fun h => (hc h).1) locals
  | ifElse type body otherwise rest ihb iho ihr =>
    refine Halts.andThen (Halts.choose ?_ ?_) fun locals => ihr (fun h => (hc h).2.2) locals
    · exact fun locals => ihb (fun h => (hc h).1) locals
    · exact fun locals => iho (fun h => (hc h).2.1) locals

/-- A bound above the ration and the frames still to be had is not reached. -/
theorem eval_halts (hhosts : ration ≠ none → ∀ f ∈ env.hosts, f.Thrifty)
    (htrees : ∀ c ∈ trees, c.Rationed ration) (n : Nat)
    (hn : ration.getD 0 + (env.config.maxCallDepth - depth) < n) (c : Code)
    (hc : c.Rationed ration) (locals : Array Value) :
    Halts ration depth (eval env trees n c locals) := by
  induction n generalizing ration depth c locals with
  | zero => exact absurd hn (Nat.not_lt_zero _)
  | succ n ih =>
    refine evalWith_halts hhosts htrees ?_ ?_ c hc locals
    · intro hlt c hc locals
      exact ih hhosts htrees (by omega) c hc locals
    · rintro k rfl j hj c locals
      rw [Option.getD_some] at hn
      refine ih ?_ ?_ ?_ c ?_ locals
      · exact fun _ => hhosts nofun
      · exact fun _ _ => nofun
      · rw [Option.getD_some]
        omega
      · nofun

end Structured

-- ---------------------------------------------------------------------------
-- Flat runs
-- ---------------------------------------------------------------------------

/-- What bounds a run: the fuel, if hosts do not add to it, or that there is
    nothing to repeat. -/
def Module.Bounded (m : Module) (hosts : Array (HostFunc σ)) (fuel : Option Nat) : Prop :=
  m.LoopFree ∨ fuel.isSome ∧ ∀ f ∈ hosts, f.Thrifty

/-- A bound is a ration of the trees and the store. -/
theorem Module.Bounded.ration {m : Module} {hosts : Array (HostFunc σ)} {s : Store}
    (h : m.Bounded hosts s.fuel) {trees : Array Code} (hspells : m.Spells trees) :
    ∃ ration, s.Rationed ration ∧ (∀ c ∈ trees, c.Rationed ration) ∧
      (ration ≠ none → ∀ f ∈ hosts, f.Thrifty) := by
  rcases h with hfree | ⟨hfuel, hthrifty⟩
  · exact ⟨none, nofun, fun c hc _ => hfree.trees hspells c hc, fun h => absurd rfl h⟩
  · obtain ⟨k, hk⟩ := Option.isSome_iff_exists.mp hfuel
    refine ⟨some k, fun j hj => ⟨k, ?_, hk⟩, fun _ _ => nofun, fun _ => hthrifty⟩
    exact Nat.le_of_eq (Option.some.inj hj)

namespace Run

variable {env : Env σ} {m : Machine σ}

theorem Finished.ok (x : α) (m : Machine σ) : Finished (.ok x m) := by
  intro n h
  cases h

theorem Finished.of_trap (t : Trap) (m : Machine σ) :
    Finished (.error (.trap t) m : EStateM.Result Fault (Machine σ) α) := by
  intro n h
  cases h

theorem Finished.blamingFrame {a : Run σ Unit} (h : Finished (a m)) :
    Finished (blamingFrame a m) := by
  intro m' hm'
  rw [blamingFrame_apply] at hm'
  cases hresult : a m with
  | ok x n =>
    rw [hresult] at hm'
    cases hm'
  | error e n =>
    rw [hresult] at hm'
    cases hm'
    exact h n hresult

theorem callToEnd_add {budget : Nat} {func : UInt32} (h : Finished (callToEnd env budget func m))
    (more : Nat) : callToEnd env (budget + more) func m = callToEnd env budget func m := by
  rw [callToEnd, bind_apply] at h
  rw [callToEnd, callToEnd, bind_apply, bind_apply]
  cases hcall : call env func m with
  | error e n => rfl
  | ok x n =>
    rw [hcall] at h
    have hsteps : Finished (steps env budget n) := Finished.of_blamingFrame h
    dsimp only
    rw [blamingFrame_apply, blamingFrame_apply, steps_add hsteps]

theorem Finished.mapState {f : Machine σ → Machine σ} {r : EStateM.Result Fault (Machine σ) Unit}
    (h : Finished r) : Finished (mapState f r) := by
  intro m hm
  cases r with
  | ok x n => cases hm
  | error e n =>
    cases hm
    exact h n rfl

/-- The flat run of a function ends, since the evaluation of its tree does. -/
theorem steps_end (hcompile : env.config.compile = false) {trees : Array Code}
    (hspells : env.module.Spells trees) (hbounded : env.module.Bounded env.hosts m.store.fuel)
    {depth : Nat} (hdepth : m.depth = depth + 1) (func : UInt32) (code height arity : Nat)
    (locals : Array Value) :
    let frame : Frame := { func, code := .body code, height, arity, locals }
    ∃ budget, Finished (blamingFrame (steps env budget) { m with frames := [frame] }) := by
  intro frame
  obtain ⟨ration, hration, htrees, hhosts⟩ := hbounded.ration hspells
  have htree : (trees[code]?.getD .nil).Rationed ration := by
    cases hcode : trees[code]? with
    | none => exact fun _ => trivial
    | some c => exact htrees c (Array.mem_of_getElem? hcode)
  let n := ration.getD 0 + (env.config.maxCallDepth - (depth + 1)) + 1
  have heval := Structured.eval_halts hhosts htrees n (Nat.lt_succ_self _) _ htree locals
  have hrun : Finished (Structured.run env trees n frame (trees[code]?.getD .nil) m) :=
    (heval.activate func height arity hdepth hration).finished
  obtain ⟨hfinished, budget, hbudget⟩ :=
    (Structured.run_endsWith hspells hcompile func code height arity locals m _).mpr
      ⟨hrun.mapState, n, rfl⟩
  rw [← hbudget] at hfinished
  exact ⟨budget, hfinished.of_mapState⟩

theorem callToEnd_ends (hcompile : env.config.compile = false) {trees : Array Code}
    (hspells : env.module.Spells trees) (hbounded : env.module.Bounded env.hosts m.store.fuel)
    (hframes : m.frames = []) (func : UInt32) :
    ∃ budget, Finished (callToEnd env budget func m) := by
  simp only [callToEnd, bind_apply]
  cases hfunc : m.store.funcs[func.toNat]? with
  | none =>
    rw [call_missing hfunc]
    exact ⟨0, Finished.of_trap _ _⟩
  | some f =>
    cases f with
    | host type module name slot =>
      obtain ⟨ration, hration, _, hhosts⟩ := hbounded.ration hspells
      have hhalted := Structured.Halts.callHost hhosts func type module name slot m rfl hration
      have hsame := (Frameless.callHost env func type module name slot).graft_eq m
      rw [call_host hfunc]
      refine ⟨0, ?_⟩
      cases hcall : callHost env func type module name slot m with
      | error e n =>
        rw [hcall] at hhalted
        exact hhalted.finished
      | ok u n =>
        rw [hcall] at hsame
        have hn : n.frames = [] :=
          (congrArg Machine.frames (EStateM.Result.ok.inj hsame).2).trans hframes
        refine Finished.blamingFrame ?_
        rw [steps_nil hn]
        exact Finished.ok _ _
    | defined type code =>
      rw [call_defined hfunc, enter]
      rcases takeLocals_cases env type code m with ⟨locals, hlocals, _⟩ | ⟨e, stack, hlocals⟩
      · rw [bind_ok (blaming_ok hlocals func)]
        simp only [frameCode, hcompile, Bool.false_eq_true, if_false, bind_apply, pure_apply,
          modify_apply, hframes]
        let t : Machine σ :=
          { m with stack := m.stack.drop type.params.length, depth := m.depth + 1 }
        exact steps_end (m := t) hcompile hspells hbounded rfl func code _ _ locals
      · rw [bind_error (blaming_error hlocals func)]
        exact ⟨0, Finished.of_trap _ _⟩

end Run

/-- A machine without frames is its own twin. -/
theorem Machine.twin_self {mod : Module} {m : Machine σ} (hframes : m.frames = [])
    (hcache : m.cache.Coherent mod) : m.Twin mod m := by
  obtain ⟨shared, store, stack, frames, depth, origin⟩ := m
  subst hframes
  exact ⟨nofun, _, hcache, rfl⟩

/-- Under either strategy a call ends, and with it all that is granted more
    steps. -/
theorem Run.callToEnd_bounded {env : Env σ} {m : Machine σ}
    (hread : Format.Readable env.module) (hvalid : Validity.check env.module = .ok ())
    (hbounded : env.module.Bounded env.hosts m.store.fuel) (hframes : m.frames = [])
    (hcache : m.cache.Coherent env.module) (func : UInt32) :
    ∃ budget, ∀ more, Finished (callToEnd env (budget + more) func m) := by
  obtain ⟨trees, hspells⟩ := hread.spells
  have hbody : ∃ budget, Finished (callToEnd (env.strategy false) budget func m) :=
    @callToEnd_ends σ (env.strategy false) m rfl trees hspells hbounded hframes func
  have hends : ∃ budget, Finished (callToEnd env budget func m) := by
    have hself : env.strategy env.config.compile = env := rfl
    cases hcompile : env.config.compile with
    | false =>
      rw [hcompile] at hself
      exact hself ▸ hbody
    | true =>
      rw [hcompile] at hself
      obtain ⟨budget, hbudget⟩ := hbody
      have htwin := Machine.twin_self hframes hcache
      have hagree :=
        Mirrors.callToEnd env (Validity.callTypesExist hvalid) budget func m m htwin
      rw [hself] at hagree
      refine ⟨budget, fun n hn => ?_⟩
      rcases hagree.cases with ⟨x, m', n', _, htrue, _⟩ | ⟨e, m', n', hfalse, htrue, _⟩
      · rw [hn] at htrue
        cases htrue
      · rw [hn] at htrue
        cases htrue
        exact hbudget m' hfalse
  obtain ⟨budget, hbudget⟩ := hends
  refine ⟨budget, fun more => ?_⟩
  rwa [callToEnd_add hbudget]

-- ---------------------------------------------------------------------------
-- Instances
-- ---------------------------------------------------------------------------

/-- The host functions of a linked module are among those imported, and its
    fuel is that of the settings. -/
theorem Module.link_hosts {m : Module} {imports : Imports σ} {config : Config}
    {linked : Link.Linked σ} (h : m.link imports config = .ok linked) :
    (∀ f ∈ linked.hosts, ∃ module name, imports.get? module name = some (.func f)) ∧
      linked.store.fuel = config.fuel := by
  obtain ⟨l, hl, _, hfill, hhosts⟩ := Module.link_eq_ok h
  obtain ⟨tables, memories, hstore⟩ := Link.fillSegments_eq_ok hfill
  constructor
  · intro f hf
    exact hl.get?_of_mem_hosts (hhosts ▸ hf)
  · rw [hstore]
    exact hl.fuel

theorem Request.run_bounded {env : Env σ} {m : Machine σ} (hread : Format.Readable env.module)
    (hvalid : Validity.check env.module = .ok ())
    (hbounded : env.module.Bounded env.hosts m.store.fuel) (hframes : m.frames = [])
    (hcache : m.cache.Coherent env.module) {r : Request} (hr : r.IsCall) :
    ∃ budget, ∀ more, Finished (r.run env (budget + more) m) := by
  cases hcallee : r.callee? m.store with
  | none =>
    refine ⟨0, fun more => ?_⟩
    rw [Request.run_of_rejected hr hcallee]
    exact Finished.of_trap _ _
  | some callee =>
    obtain ⟨budget, hbudget⟩ := @Run.callToEnd_bounded σ env (m.prepareCall r.args) hread hvalid
      hbounded hframes hcache callee.1
    refine ⟨budget, fun more n hn => ?_⟩
    rw [Request.run_of_callee hcallee] at hn
    cases hend : callToEnd env (budget + more) callee.1 (m.prepareCall r.args) with
    | ok u n =>
      rw [hend] at hn
      cases hn
    | error e n =>
      rw [hend] at hn
      cases hn
      exact hbudget more n hend

theorem Module.instantiate_bounded {m : Module} (hread : Format.Readable m)
    (hvalid : Validity.check m = .ok ()) {imports : Imports σ} {config : Config}
    (hbounded : m.LoopFree ∨ config.fuel.isSome ∧ imports.Thrifty) {shared : Shared σ}
    (hcache : shared.cache.Coherent m) :
    ∃ budget, ∀ more,
      (m.instantiate imports config (budget + more) shared).1 ≠ .error (.start .unfinished) := by
  unfold Module.instantiate
  cases hlink : m.link imports config with
  | error e =>
    refine ⟨0, fun more he => ?_⟩
    cases he
    exact Module.link_ne_start _ hlink
  | ok linked =>
    cases m.start with
    | none => exact ⟨0, nofun⟩
    | some func =>
      obtain ⟨hhosts, hfuel⟩ := Module.link_hosts hlink
      have hlinked : m.Bounded linked.hosts linked.store.fuel := by
        rw [hfuel]
        refine hbounded.imp_right fun ⟨hsome, hthrifty⟩ => ⟨hsome, fun f hf => ?_⟩
        obtain ⟨module, name, hf⟩ := hhosts f hf
        exact hthrifty module name f hf
      obtain ⟨budget, hbudget⟩ := @Run.callToEnd_bounded σ
        { module := m, hosts := linked.hosts, config } { shared with store := linked.store }
        hread hvalid hlinked rfl hcache func
      refine ⟨budget, fun more he => ?_⟩
      dsimp only at he
      split at he
      · cases he
      · rename_i e n hend
        cases he
        exact hbudget more n hend

/-- Every run of a module that was read ends: those of its start function and
    of every call from outside, under either strategy and whatever the depth
    limit, if loops are paid for or there are none. -/
theorem Module.execution_terminates {bytes : List UInt8} {m : Module}
    (hread : Format.decode bytes = .ok m) (config : Config) :
    (∀ (imports : Imports σ) (shared : Shared σ), shared.cache.Coherent m →
      m.LoopFree ∨ config.fuel.isSome ∧ imports.Thrifty →
      ∃ budget, ∀ more,
        (m.instantiate imports config (budget + more) shared).1 ≠ .error (.start .unfinished)) ∧
    ∀ (hosts : Array (HostFunc σ)) (t : Machine σ), t.frames = [] → t.cache.Coherent m →
      m.LoopFree ∨ t.store.fuel.isSome ∧ (∀ f ∈ hosts, f.Thrifty) →
      ∀ r : Request, r.IsCall →
        ∃ budget, ∀ more, Finished (r.run { module := m, hosts, config } (budget + more) t) := by
  obtain ⟨hparse, hvalid⟩ := Format.decode_eq_ok_iff.mp hread
  have hreadable := Format.parse_readable hparse
  constructor
  · intro imports shared hcache hbounded
    exact Module.instantiate_bounded hreadable hvalid hbounded hcache
  · intro hosts t hframes hcache hbounded r hr
    exact @Request.run_bounded σ { module := m, hosts, config } t hreadable hvalid hbounded hframes
      hcache r hr

theorem ticks_thrifty : ticks.Thrifty := by
  intro module name f h
  simp only [Imports.get?, ticks, Imports.define, List.lookup_cons, List.lookup_nil] at h
  split at h
  · cases h
    exact fun _ s _ n hn => ⟨n, Nat.le_refl n, hn⟩
  · cases h

/-- An instance of `countdown` between calls, with that much fuel. -/
def countdownIdle (fuel : Option Nat) : Machine Nat where
  cache := .empty countdown
  host := 0
  store :=
    { funcs := #[.host tick.type "env" "tick" 0, .defined tick.type 0]
      exports := [("run", .func 1)], fuel }

/-- Counting down from nine with fuel for three rounds. -/
theorem countdown_execution_terminates :
    let env : Env Nat := { module := countdown, hosts := #[tick], config := {} }
    let t := countdownIdle (some 3)
    Format.decode countdownBytes = .ok countdown ∧ ticks.Thrifty ∧
    (∃ budget, ∀ more,
      (countdown.instantiate ticks { fuel := some 3 } (budget + more) t.toShared).1 ≠
        .error (.start .unfinished)) ∧
    ∃ budget, ∀ more, Finished ((Request.invoke "run" [.i32 9]).run env (budget + more) t) := by
  intro env t
  have hcache : t.cache.Coherent countdown := CodeCache.empty_coherent countdown
  refine ⟨decode_countdown, ticks_thrifty, ?_, ?_⟩
  · exact (Module.execution_terminates decode_countdown { fuel := some 3 }).1 ticks t.toShared
      hcache (.inr ⟨rfl, ticks_thrifty⟩)
  · have hthrifty : ∀ f ∈ env.hosts, f.Thrifty := by
      intro f hf
      obtain rfl := List.mem_singleton.mp (List.mem_toArray.mp hf)
      exact fun _ s _ n hn => ⟨n, Nat.le_refl n, hn⟩
    exact (Module.execution_terminates decode_countdown {}).2 env.hosts t rfl hcache
      (.inr ⟨rfl, hthrifty⟩) (.invoke "run" [.i32 9]) trivial

end Wasm
