import Wasm.Proofs.Frames
import Wasm.Proofs.Machine.Closure
import Wasm.Proofs.Structured.Refinement

/-!
# Origins of traps

Which function a trap is blamed on. It is the one whose instruction failed, or
the one that could not be entered or failed as a function of the host. The
exception is a function that hands back its results: it is gone by the time
they are found missing, and its caller is blamed instead, or nobody if the call
came from outside.
-/

namespace Wasm

variable {σ α β : Type}

-- ---------------------------------------------------------------------------
-- Where a fault is raised
-- ---------------------------------------------------------------------------

/-- The operation that the frame has come to. -/
def Frame.operation? (mod : Module) (frame : Frame) : Option Operation :=
  match frame.code with
  | .body func => (mod.instr? func frame.pc).map (Operation.ofInstr mod frame.pc)
  | .prepared ops => ops[frame.pc]?

namespace Machine

variable (mod : Module) (m : Machine σ)

/-- Where control goes after the next operation and what that leaves, unless it
    faults. Behind its last operation a function returns. -/
def ahead? : Option (Flow × Context) :=
  match m.frames with
  | [] => none
  | frame :: _ =>
    match frame.operation? mod with
    | none => some (.return_, m.context frame)
    | some op =>
      match op (m.context frame) with
      | .ok flow c => some (flow, c)
      | .error _ _ => none

/-- The next step is to leave the innermost function with its results. -/
def HandsBack : Prop := ∃ c, m.ahead? mod = some (.return_, c)

/-- The function in which a fault of the next step is raised: the innermost
    one, or the one that it calls, if there is such a function. -/
def raiser? : Option UInt32 :=
  m.frames.head?.map fun frame =>
    match m.ahead? mod with
    | some (.call func, c) => if func.toNat < c.store.funcs.size then func else frame.func
    | _ => frame.func

/-- The function below the innermost one. -/
def caller? : Option UInt32 := m.frames.tail.head?.map (·.func)

/-- The function that a fault of the next step is blamed on. -/
def blamed? : Option UInt32 :=
  match m.ahead? mod with
  | some (.return_, _) => m.caller?
  | _ => m.raiser? mod

end Machine

-- ---------------------------------------------------------------------------
-- Calls
-- ---------------------------------------------------------------------------

namespace Run

variable {env : Env σ} {m m' : Machine σ} {e : Fault}

/-- A result that is fine, or a fault that is blamed on the function. -/
def Accuses (func : UInt32) : EStateM.Result Fault (Machine σ) α → Prop
  | .ok _ m => m.origin = none
  | .error _ m => m.origin = some func

theorem Accuses.blaming {a : Run σ α} (h : (finalState (a m)).origin = none) (func : UInt32) :
    Accuses func (blaming func a m) := by
  unfold Run.blaming
  cases hresult : a m with
  | ok x n =>
    rw [hresult] at h
    exact h
  | error e n =>
    rw [hresult] at h
    have hn : n.origin = none := h
    simp only [Accuses, Machine.blame, hn, Option.none_or]

theorem callHost_accuses (hm : m.origin = none) (func : UInt32) (type : FuncType)
    (module name : String) (slot : Nat) :
    Accuses func (callHost env func type module name slot m) := by
  apply Accuses.blaming
  cases env.hosts[slot]? with
  | none => exact hm
  | some f =>
    dsimp only
    rcases takeArgs_cases type.params m with ⟨args, hargs, _⟩ | ⟨t, stack, hargs⟩
    · simp only [bind_ok hargs, bind_apply, get_apply, set_apply, ofExcept_apply]
      cases checkReply type module name (f.call args m.store m.host).result <;> exact hm
    · rw [bind_error hargs]
      exact hm

theorem enter_accuses (hm : m.origin = none) (func : UInt32) (type : FuncType) (code : Nat) :
    Accuses func (enter env func type code m) := by
  unfold enter
  rcases takeLocals_cases env type code m with ⟨locals, hlocals, _⟩ | ⟨t, stack, hlocals⟩
  · rw [bind_ok (blaming_ok hlocals func)]
    unfold frameCode
    split <;> exact hm
  · have hblamed := Accuses.blaming (a := takeLocals env type code) (m := m)
      (by rw [hlocals]; exact hm) func
    rw [blaming_error hlocals] at hblamed
    rw [bind_error (blaming_error hlocals func)]
    exact hblamed

/-- A function that cannot be entered, or that fails as a function of the host,
    is blamed for it. -/
theorem call_accuses (env : Env σ) (hm : m.origin = none) {func : UInt32}
    (hfunc : func.toNat < m.store.funcs.size) : Accuses func (call env func m) := by
  have hget := Array.getElem?_eq_getElem hfunc
  cases hf : m.store.funcs[func.toNat] with
  | host type module name slot =>
    rw [call_host (hget.trans (congrArg some hf))]
    exact callHost_accuses hm func type module name slot
  | defined type code =>
    rw [call_defined (hget.trans (congrArg some hf))]
    exact enter_accuses hm func type code

theorem call_of_size_le {func : UInt32} (hfunc : m.store.funcs.size ≤ func.toNat) :
    call env func m = .error (.trap .undefinedElement) m :=
  call_missing (Array.getElem?_eq_none hfunc)

/-- No trap is blamed on anyone until it is raised. -/
abbrev Unblamed (a : Run σ α) : Prop := Preserves (fun m => m.origin = none) a

theorem call_unblamed (func : UInt32) : Unblamed (call env func) := by
  intro m u m' hm h
  by_cases hfunc : func.toNat < m.store.funcs.size
  · have haccuses := call_accuses env hm hfunc
    rw [h] at haccuses
    exact haccuses
  · rw [call_of_size_le (Nat.not_lt.mp hfunc)] at h
    cases h

theorem unblamed_closed : Closed (fun _ => True) fun {α} (a : Run σ α) => Unblamed a where
  pure := Preserves.pure
  bind := Preserves.bind
  inFrame := by
    intro α action _ m x m' hm h
    unfold inFrame at h
    split at h
    · cases h
    · split at h
      · cases h
        exact hm
      · cases h
  goto pc := by
    intro m u m' hm h
    rw [goto_apply] at h
    cases h
    exact hm
  leave := by
    intro m u m' hm h
    cases hframes : m.frames with
    | nil =>
      simp only [leave, bind_apply, get_apply, hframes] at h
      cases h
    | cons frame rest =>
      rw [leave_cons hframes] at h
      split at h
      · cases h
        exact hm
      · cases h

theorem step_unblamed : Unblamed (step env) := by
  intro m u m' hm h
  obtain ⟨a, ha, hstep⟩ := unblamed_closed.step (Exec.covers_true env.module.types _)
    env.module.assigns_any call_unblamed (m := m) fun _ _ _ _ _ _ => trivial
  exact ha hm ((hstep m.cache).symm.trans h)

-- ---------------------------------------------------------------------------
-- Steps
-- ---------------------------------------------------------------------------

theorem blameFrame_of_cons {frame : Frame} {rest : List Frame} (hm : m.origin = none)
    (hframes : m.frames = frame :: rest) : m.blameFrame.origin = some frame.func := by
  simp only [Machine.blameFrame, hframes, Machine.blame, hm, Option.none_or]

theorem blameFrame_of_some {func : UInt32} (hm : m.origin = some func) :
    m.blameFrame.origin = some func := by
  unfold Machine.blameFrame
  split
  · exact hm
  · simp only [Machine.blame, hm, Option.some_or]

/-- The frame is gone when its results turn out to be too few. -/
theorem leave_error {e : Fault} {frame : Frame} {rest : List Frame} (hm : m.origin = none)
    (hframes : m.frames = frame :: rest) (h : leave m = .error e m') :
    m'.blameFrame.origin = rest.head?.map (·.func) := by
  rw [leave_cons hframes] at h
  split at h
  · cases h
  · cases h
    cases rest with
    | nil => exact hm
    | cons below rest => exact blameFrame_of_cons hm rfl

theorem call_error {func : UInt32} {e : Fault} {frame : Frame} {rest : List Frame}
    (hm : m.origin = none) (hframes : m.frames = frame :: rest)
    (h : call env func m = .error e m') :
    m'.blameFrame.origin =
      some (if func.toNat < m.store.funcs.size then func else frame.func) := by
  split
  · rename_i hfunc
    have haccuses := call_accuses env hm hfunc
    rw [h] at haccuses
    exact blameFrame_of_some haccuses
  · rename_i hfunc
    rw [call_of_size_le (Nat.not_lt.mp hfunc)] at h
    cases h
    exact blameFrame_of_cons hm hframes

/-- A fault of a step of prepared code: the operation fails, or the call that
    it comes to, or what is left to do when the function returns. -/
theorem stepPrepared_error {e : Fault} {frame : Frame} {rest : List Frame} {ops : Prepared}
    (mod : Module) (hm : m.origin = none) (hframes : m.frames = frame :: rest)
    (hcode : frame.code = .prepared ops) (h : stepPrepared env ops frame.pc m = .error e m') :
    m'.blameFrame.origin = m.blamed? mod := by
  have hoperation : frame.operation? mod = ops[frame.pc]? := by rw [Frame.operation?, hcode]
  unfold Machine.blamed? Machine.raiser? Machine.caller? Machine.ahead?
  rw [hframes]
  cases hop : ops[frame.pc]? with
  | none =>
    simp only [stepPrepared, hop] at h
    simp only [hoperation, hop]
    exact leave_error hm hframes h
  | some op =>
    simp only [hoperation, hop]
    rw [stepPrepared_some env hop] at h
    have hinFrame : inFrame op m = _ := inFrame_cons hframes
    cases hresult : op (m.context frame) with
    | error e' c =>
      rw [hresult] at hinFrame
      rw [bind_error hinFrame] at h
      cases h
      have hunblamed : (m.resume frame rest c).origin = none := hm
      have hresumed : (m.resume frame rest c).frames =
        { frame with locals := c.locals, labels := c.labels } :: rest := rfl
      exact (blameFrame_of_cons hunblamed hresumed :)
    | ok flow c =>
      rw [hresult] at hinFrame
      rw [bind_ok hinFrame] at h
      have hresumed : (m.resume frame rest c).origin = none := hm
      cases flow with
      | next | jump =>
        simp only [follow, goto_apply] at h
        cases h
      | call func =>
        simp only [follow, bind_apply, goto_apply] at h
        have hmoved : ((m.resume frame rest c).goto (frame.pc + 1)).frames =
          { frame with locals := c.locals, labels := c.labels, pc := frame.pc + 1 } :: rest := rfl
        have hunblamed : ((m.resume frame rest c).goto (frame.pc + 1)).origin = none := hm
        exact (call_error hunblamed hmoved h :)
      | return_ => exact leave_error hresumed rfl h

end Run

-- ---------------------------------------------------------------------------
-- Both strategies
-- ---------------------------------------------------------------------------

theorem Frame.operation?_prepare (mod : Module) (frame : Frame) :
    (frame.prepare mod).operation? mod = frame.operation? mod := by
  cases hcode : frame.code with
  | prepared ops =>
    simp only [operation?, prepare, FrameCode.prepare, hcode]
  | body func =>
    simp only [operation?, prepare, FrameCode.prepare, hcode]
    exact mod.getElem?_prepare func frame.pc

namespace Machine

variable {mod : Module} {m n : Machine σ}

theorem Twin.ahead?_eq (h : m.Twin mod n) : n.ahead? mod = m.ahead? mod := by
  obtain ⟨_, cache, _, rfl⟩ := h
  cases hframes : m.frames with
  | nil => simp only [ahead?, graft, hframes, List.map_nil]
  | cons frame rest =>
    simp only [ahead?, graft, hframes, List.map_cons, Frame.operation?_prepare]
    rfl

/-- What is said of the next step does not depend on the strategy. -/
theorem Twin.blamed?_eq (h : m.Twin mod n) : n.blamed? mod = m.blamed? mod := by
  have hahead := h.ahead?_eq
  obtain ⟨_, cache, _, rfl⟩ := h
  unfold blamed? raiser? caller?
  rw [hahead]
  cases hframes : m.frames with
  | nil => simp only [graft, List.map_nil]
  | cons frame rest => cases rest <;> rfl

theorem Alike.blameFrame_origin (h : m.Alike mod n) :
    n.blameFrame.origin = m.blameFrame.origin := by
  obtain ⟨pc, _, cache, _, rfl⟩ := h
  obtain ⟨shared, store, stack, frames, depth, origin⟩ := m
  cases frames <;> rfl

end Machine

namespace Run

variable {env : Env σ} {m m' : Machine σ} {e : Fault}

theorem step_error_prepared (mod : Module) (hm : m.origin = none)
    (hframes : ∀ frame ∈ m.frames, frame.code.isPrepared = true)
    (h : step env m = .error e m') : m'.blameFrame.origin = m.blamed? mod := by
  cases hcons : m.frames with
  | nil =>
    rw [step_nil hcons] at h
    cases h
  | cons frame rest =>
    have hprepared := hframes frame (hcons ▸ List.mem_cons_self)
    cases hcode : frame.code with
    | body func =>
      rw [hcode] at hprepared
      cases hprepared
    | prepared ops =>
      rw [step_prepared hcons hcode] at h
      exact stepPrepared_error mod hm hcons hcode h

/-- A fault of a step is blamed on a function that can be told beforehand. -/
theorem step_error (henv : env.module.CallTypesExist) (hm : m.origin = none)
    (hframes : ∀ frame ∈ m.frames, frame.code.isPrepared = env.config.compile)
    (h : step env m = .error e m') : m'.blameFrame.origin = m.blamed? env.module := by
  cases hcompile : env.config.compile with
  | true =>
    rw [hcompile] at hframes
    exact step_error_prepared env.module hm hframes h
  | false =>
    rw [hcompile] at hframes
    -- the machine with prepared code in place of the bodies faults alike
    let n := m.graft (m.frames.map (Frame.prepare env.module)) (.empty env.module)
    have hbody : ∀ frame ∈ m.frames, ∃ func, frame.code = .body func := by
      intro frame hframe
      have hframe := hframes frame hframe
      cases hcode : frame.code with
      | body func => exact ⟨func, rfl⟩
      | prepared ops =>
        rw [hcode] at hframe
        cases hframe
    have htwin : m.Twin env.module n := ⟨hbody, _, CodeCache.empty_coherent _, rfl⟩
    have hself : env.strategy false = env := by
      rw [← hcompile]
      rfl
    have hagree := Mirrors.step env henv m n htwin
    rw [hself, h] at hagree
    rcases hagree.cases with ⟨u, _, _, hok, _⟩ | ⟨e', k, n', hk, hn', halike⟩
    · cases hok
    · cases hk
      rw [← halike.blameFrame_origin, ← htwin.blamed?_eq]
      refine step_error_prepared env.module hm ?_ hn'
      intro frame hframe
      obtain ⟨frame', hframe', rfl⟩ := List.mem_map.mp hframe
      obtain ⟨func, hcode⟩ := hbody frame' hframe'
      rw [Frame.prepare, hcode]
      rfl

/-- A run that traps does so in a step from the last machine of its trail. -/
theorem steps_trap {budget : Nat} {t : Trap} (h : steps env budget m = .error (.trap t) m') :
    ∃ last, (trail env budget m).getLast? = some last ∧ step env last = .error (.trap t) m' := by
  induction budget generalizing m with
  | zero =>
    simp only [steps, bind_apply, get_apply] at h
    split at h <;> cases h
  | succ budget ih =>
    by_cases hframes : m.frames = []
    · rw [steps_nil hframes] at h
      cases h
    · rw [steps_succ hframes] at h
      cases hstep : step env m with
      | error e m₁ =>
        rw [bind_error hstep] at h
        cases h
        refine ⟨m, ?_, hstep⟩
        rw [trail_error hframes hstep, List.getLast?_singleton]
      | ok u m₁ =>
        rw [bind_ok hstep] at h
        obtain ⟨last, hlast, hfault⟩ := ih h
        refine ⟨last, ?_, hfault⟩
        rw [trail_ok hframes hstep, List.getLast?_cons, hlast]
        rfl

end Run

-- ---------------------------------------------------------------------------
-- Requests
-- ---------------------------------------------------------------------------

namespace Request

/-- The function in which a trap of a call is raised: that of the last step, or
    the one that is called, if it cannot be entered. -/
def raiser? (env : Env σ) (budget : Nat) (r : Request) (m : Machine σ) : Option UInt32 :=
  match (r.trail env budget m).getLast? with
  | some last => last.raiser? env.module
  | none => r.func? m.store

/-- The function that a trap of a call is blamed on. -/
def blamed? (env : Env σ) (budget : Nat) (r : Request) (m : Machine σ) : Option UInt32 :=
  match (r.trail env budget m).getLast? with
  | some last => last.blamed? env.module
  | none => r.func? m.store

/-- Either the function could not be entered, or the last machine of the trail
    tells whom the trap is blamed on. -/
theorem run_trap {env : Env σ} {r : Request} {m n : Machine σ} {func : UInt32} {f : FuncInst}
    {budget : Nat} {t : Trap} (henv : env.module.CallTypesExist) (hm : m.AtRest)
    (hcallee : r.callee? m.store = some (func, f))
    (h : r.run env budget m = .error (.trap t) n) :
    ((r.trail env budget m).getLast? = none ∧ n.origin = some func) ∨
      ∃ last, (r.trail env budget m).getLast? = some last ∧ last.frames ≠ [] ∧
        n.origin = last.blamed? env.module := by
  obtain ⟨_, hf, _⟩ := callee?_eq_some hcallee
  obtain ⟨hlt, _⟩ := Array.getElem?_eq_some_iff.mp hf
  have htrail : r.trail env budget m = Run.callTrail env budget func (m.prepareCall r.args) := by
    rw [trail, hcallee]
  rw [run_of_callee hcallee] at h
  cases hcall : Run.call env func (m.prepareCall r.args) with
  | error e k =>
    rw [Run.callToEnd, Run.bind_error hcall] at h
    cases h
    have haccuses := Run.call_accuses env (m := m.prepareCall r.args) rfl hlt
    rw [hcall] at haccuses
    refine .inl ⟨?_, haccuses⟩
    rw [htrail, Run.callTrail, hcall, List.getLast?_nil]
  | ok u k =>
    rw [Run.callToEnd, Run.bind_ok hcall, Run.blamingFrame_apply] at h
    cases hsteps : Run.steps env budget k with
    | ok u k' =>
      rw [hsteps] at h
      cases h
    | error e k' =>
      rw [hsteps] at h
      cases h
      obtain ⟨last, hlast, hstep⟩ := Run.steps_trap hsteps
      have hmem : last ∈ Run.callTrail env budget func (m.prepareCall r.args) := by
        rw [Run.callTrail, hcall]
        exact List.mem_of_getLast? hlast
      have hunblamed : last.origin = none :=
        Run.Preserves.callTrail Run.call_unblamed Run.step_unblamed rfl budget func last hmem
      have hprepared : (m.prepareCall r.args).outline.Tallied env.config := hm.tallied env.config
      have htallied := (Outline.invariant_tallied env).callTrail hprepared budget func last hmem
      refine .inr ⟨last, ?_, ?_, ?_⟩
      · rw [htrail, Run.callTrail, hcall]
        exact hlast
      · intro hframes
        rw [Run.step_nil hframes] at hstep
        cases hstep
      · apply Run.step_error henv hunblamed ?_ hstep
        intro frame hframe
        exact htallied.strategy frame.code (List.mem_map_of_mem hframe)

end Request

-- ---------------------------------------------------------------------------
-- Handing back too little
-- ---------------------------------------------------------------------------

/-- A function that promises a result and has none to hand back, and one that
    calls it. -/
def emptyHanded : Module where
  types := #[{ results := [.i32] }, {}]
  functions :=
    #[{ type := 0, locals := #[], body := Code.nil.body },
      { type := 1, locals := #[], body := (Code.plain (.call 0) (.plain .drop .nil)).body }]
  exports := #[{ name := "short", desc := .func 0 }, { name := "outer", desc := .func 1 }]

/-- The bytes of `emptyHanded`. -/
def emptyHandedBytes : List UInt8 :=
  [0x00, 0x61, 0x73, 0x6D, 0x01, 0x00, 0x00, 0x00,
    0x01, 0x08, 0x02, 0x60, 0x00, 0x01, 0x7F, 0x60, 0x00, 0x00,
    0x03, 0x03, 0x02, 0x00, 0x01,
    0x07, 0x11, 0x02, 0x05, 0x73, 0x68, 0x6F, 0x72, 0x74, 0x00, 0x00,
    0x05, 0x6F, 0x75, 0x74, 0x65, 0x72, 0x00, 0x01,
    0x0A, 0x0A, 0x02, 0x02, 0x00, 0x0B, 0x05, 0x00, 0x10, 0x00, 0x1A, 0x0B]

def emptyHandedInstance (compile : Bool) : Instance Unit where
  env := { module := emptyHanded, hosts := #[], config := { compile } }
  machine :=
    { cache := .empty emptyHanded
      host := ()
      store :=
        { funcs := #[.defined { results := [.i32] } 0, .defined {} 1]
          exports := [("outer", .func 1), ("short", .func 0)]
          pageLimit := 65536 } }

theorem emptyHandedInstance_living (compile : Bool) :
    emptyHanded.Living (emptyHandedInstance compile) := by
  have hcreated : emptyHanded.instantiate {} { compile } 0 ⟨.empty emptyHanded, ()⟩ =
      (.ok (emptyHandedInstance compile), ⟨.empty emptyHanded, ()⟩) := by
    cases compile <;> with_unfolding_all rfl
  exact .created hcreated

/-- Unless a function hands back its results, the one that is blamed is the one
    in which the fault is raised. -/
theorem Machine.blamed?_cases (mod : Module) (m : Machine σ) :
    (m.HandsBack mod ∧ m.blamed? mod = m.caller?) ∨
      (¬ m.HandsBack mod ∧ m.blamed? mod = m.raiser? mod) := by
  unfold HandsBack blamed?
  split
  · rename_i c hahead
    exact .inl ⟨⟨c, hahead⟩, rfl⟩
  · rename_i hahead
    exact .inr ⟨fun ⟨c, hc⟩ => hahead c hc, rfl⟩

/-- A trap of a call is raised in some function. The function that is blamed
    for it is another if the trap came of handing back results: it is the caller
    of the one that did so, or none if there is no caller. -/
theorem Module.trap_origin {m : Module} (hvalid : Validity.check m = .ok ()) {i : Instance σ}
    (hi : m.Living i) {r : Request} {func : UInt32} {f : FuncInst} {budget : Nat} {t : Trap}
    {n : Machine σ} (hcallee : r.callee? i.machine.store = some (func, f))
    (h : r.run i.env budget i.machine = .error (.trap t) n) :
    n.origin = r.blamed? i.env budget i.machine ∧
      ∃ raiser, r.raiser? i.env budget i.machine = some raiser ∧
        (n.origin = some raiser ↔
          ∀ last ∈ (r.trail i.env budget i.machine).getLast?,
            last.HandsBack m → last.caller? = some raiser) := by
  obtain ⟨hfunc, _, _⟩ := Request.callee?_eq_some hcallee
  have hmodule := hi.env_module
  have htypes : i.env.module.CallTypesExist := hmodule ▸ Validity.callTypesExist hvalid
  unfold Request.blamed? Request.raiser?
  rcases Request.run_trap htypes hi.atRest hcallee h with
    ⟨hlast, horigin⟩ | ⟨last, hlast, hframes, horigin⟩
  · rw [hlast, hfunc, horigin]
    refine ⟨rfl, func, rfl, fun _ last hmem => ?_, fun _ => rfl⟩
    cases hmem
  · rw [hlast]
    rw [hmodule] at horigin ⊢
    obtain ⟨frame, rest, hcons⟩ := List.exists_cons_of_ne_nil hframes
    obtain ⟨raiser, hraiser⟩ : ∃ raiser, last.raiser? m = some raiser := by
      rw [Machine.raiser?, hcons]
      exact ⟨_, rfl⟩
    refine ⟨horigin, raiser, hraiser, ?_⟩
    simp only [Option.mem_some_iff, forall_eq', horigin]
    rcases last.blamed?_cases m with ⟨hback, hblamed⟩ | ⟨hback, hblamed⟩
    · rw [hblamed]
      exact ⟨fun hcaller _ => hcaller, fun hcaller => hcaller hback⟩
    · rw [hblamed, hraiser]
      exact ⟨fun _ hback' => absurd hback' hback, fun _ => rfl⟩

/-- The function that calls the other is blamed for what that one lacks. -/
theorem emptyHanded_trap_origin :
    let i := emptyHandedInstance false
    let r : Request := .invoke "outer" []
    ∃ n, r.run i.env 10 i.machine = .error (.trap .stackUnderflow) n ∧
      n.origin = some 1 ∧ r.raiser? i.env 10 i.machine = some 0 := by
  intro i r
  let n := finalState (r.run i.env 10 i.machine)
  have hrun : r.run i.env 10 i.machine = .error (.trap .stackUnderflow) n := by
    with_unfolding_all rfl
  have hcallee : r.callee? i.machine.store = some (1, .defined {} 1) := by with_unfolding_all rfl
  obtain ⟨horigin, _⟩ :=
    Module.trap_origin rfl (emptyHandedInstance_living false) hcallee hrun
  refine ⟨n, hrun, horigin.trans (by with_unfolding_all rfl), by with_unfolding_all rfl⟩

/-- Called from outside, the function is missing a result and nobody is blamed.
    Called by the other, that one is blamed. -/
theorem emptyHanded_blames_caller :
    let outcome (compile : Bool) (name : String) :=
      let i := emptyHandedInstance compile
      let r : Request := .invoke name []
      let (result, i') := i.run (r.run · 10)
      (r.raiser? i.env 10 i.machine, result, i'.machine.origin)
    (Format.decode emptyHandedBytes).toOption = some emptyHanded ∧
      ∀ compile, emptyHanded.Living (emptyHandedInstance compile) ∧
        outcome compile "short" = (some 0, .error (.trap .stackUnderflow), none) ∧
        outcome compile "outer" = (some 0, .error (.trap .stackUnderflow), some 1) := by
  refine ⟨by decide +kernel, fun compile => ⟨emptyHandedInstance_living compile, ?_⟩⟩
  cases compile <;> exact ⟨by with_unfolding_all rfl, by with_unfolding_all rfl⟩

end Wasm
