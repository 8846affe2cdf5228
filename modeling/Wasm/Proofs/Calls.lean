import Wasm.Proofs.Linking.IndexSpaces
import Wasm.Proofs.Machine.Advance

/-!
# Calls keep to their types

Operands are not checked before code runs, and a function may take operands
from below its frame, leave more than its results, or return from inside many
blocks. A call that returns has the effect that its type promises all the same:
arguments are checked when they are taken, and a frame that is left hands back
its results on top of as many operands as it was entered with.
-/

namespace Wasm

variable {σ : Type}

/-- The function is called on these operands: from outside, or by the
    instruction that the innermost frame has come to. -/
inductive Machine.Calls (env : Env σ) (m : Machine σ) (func : UInt32) (operands : List Value) :
    Machine σ → Prop where
  | outside {n : Machine σ} (hidle : m.frames = []) (hstack : m.stack = operands)
      (h : Run.call env func m = .ok () n) : Calls env m func operands n
  | direct {n : Machine σ} {frame : Frame} {rest : List Frame} {code : Nat}
      (hframes : m.frames = frame :: rest) (hcode : frame.code.Of env.module code)
      (hi : env.module.instr? code frame.pc = some (.plain (.call func)))
      (hstack : m.stack = operands) (h : Run.step env m = .ok () n) :
      Calls env m func operands n
  | indirect {n : Machine σ} {frame : Frame} {rest : List Frame} {code : Nat}
      {type table : UInt32} {expected : FuncType} {slot : BitVec 32}
      (hframes : m.frames = frame :: rest) (hcode : frame.code.Of env.module code)
      (hi : env.module.instr? code frame.pc = some (.plain (.callIndirect type table)))
      (htype : env.module.types[type.toNat]? = some expected)
      (hstack : m.stack = .i32 slot :: operands)
      (hresolve : m.store.resolve table.toNat slot.toNat expected = .ok func)
      (h : Run.step env m = .ok () n) : Calls env m func operands n

/-- The run comes back to so many frames, for the first time. -/
inductive Run.ComesBack (env : Env σ) (below : Nat) : Machine σ → Machine σ → Prop where
  | back {n : Machine σ} (h : n.frames.length = below) : ComesBack env below n n
  | step {m m' n : Machine σ} (hactive : below < m.frames.length)
      (h : Run.step env m = .ok () m') (hback : ComesBack env below m' n) :
      ComesBack env below m n

namespace Run

variable {env : Env σ} {m m' n : Machine σ} {frame : Frame} {rest : List Frame} {func : UInt32}

-- ---------------------------------------------------------------------------
-- Frames
-- ---------------------------------------------------------------------------

theorem Called.frames (h : Called env func m n) :
    n.frames = m.frames ∨ ∃ frame, n.frames = frame :: m.frames := by
  cases h with
  | host => exact .inl rfl
  | defined => exact .inr ⟨_, rfl⟩

/-- A step goes on in the innermost frame, maybe with a new one above it, or
    leaves it with its results. -/
theorem step_frames (htypes : env.module.CallTypesExist) (hm : m.outline.Sourced env.module)
    (hframes : m.frames = frame :: rest) (h : step env m = .ok () n) :
    (∃ frame' inner, n.frames = inner ++ frame' :: rest ∧ frame'.height = frame.height ∧
      frame'.arity = frame.arity) ∨
    (n.frames = rest ∧ n.stack.length = frame.height + frame.arity) := by
  obtain ⟨code, hcode⟩ := Machine.code_of_sourced hm frame (hframes ▸ List.mem_cons_self)
  obtain ⟨flow, c, _, hfollow⟩ := step_follows htypes hframes hcode h
  cases flow with
  | next | jump =>
    rw [follow, goto_apply] at hfollow
    cases hfollow
    exact .inl ⟨_, [], rfl, rfl, rfl⟩
  | call func =>
    rcases (called_of_follow hm.cache hfollow).frames with hsame | ⟨callee, hpushed⟩
    · exact .inl ⟨_, [], hsame, rfl, rfl⟩
    · exact .inl ⟨_, [callee], hpushed, rfl, rfl⟩
  | return_ =>
    obtain ⟨hpopped, hlength⟩ := leave_eq_ok rfl hfollow
    exact .inr ⟨hpopped, hlength⟩

/-- Whatever happens above a frame, it is left with its results on top of as
    many operands as were below it. -/
theorem ComesBack.height (htypes : env.module.CallTypesExist) {height arity : Nat}
    {below : List Frame} (h : ComesBack env below.length m n)
    (hm : m.outline.Sourced env.module)
    (hframes : ∃ inner frame, m.frames = inner ++ frame :: below ∧ frame.height = height ∧
      frame.arity = arity) :
    n.stack.length = height + arity := by
  induction h with
  | back hback =>
    obtain ⟨inner, frame, hframes, _⟩ := hframes
    rw [hframes, List.length_append, List.length_cons] at hback
    omega
  | @step m m' n hactive hstep hback ih =>
    obtain ⟨inner, frame, hframes, rfl, rfl⟩ := hframes
    have hm' := (Outline.invariant_sourced env).kept_step hm hstep
    cases inner with
    | nil =>
      rcases step_frames htypes hm hframes hstep with
        ⟨frame', inner, hframes', hheight, harity⟩ | ⟨hframes', hlength⟩
      · exact ih hm' ⟨inner, frame', hframes', hheight, harity⟩
      · cases hback with
        | back => exact hlength
        | step hactive =>
          rw [hframes'] at hactive
          exact absurd hactive (Nat.lt_irrefl _)
    | cons top inner =>
      rcases step_frames htypes hm hframes hstep with
        ⟨top', inner', hframes', _⟩ | ⟨hframes', _⟩
      · refine ih hm' ⟨inner' ++ top' :: inner, frame, ?_, rfl, rfl⟩
        rw [hframes', List.append_assoc]
        rfl
      · exact ih hm' ⟨inner, frame, hframes', rfl, rfl⟩

/-- A run that ends comes back to no frames. -/
theorem comesBack_of_steps {budget : Nat} (h : steps env budget m = .ok () n) :
    ComesBack env 0 m n := by
  induction budget generalizing m with
  | zero =>
    by_cases hframes : m.frames = []
    · rw [steps_nil hframes] at h
      cases h
      exact .back (by rw [hframes]; rfl)
    · rw [steps_zero hframes] at h
      cases h
  | succ budget ih =>
    by_cases hframes : m.frames = []
    · rw [steps_nil hframes] at h
      cases h
      exact .back (by rw [hframes]; rfl)
    · rw [steps_succ hframes] at h
      obtain ⟨_, m', hstep, h⟩ := bind_eq_ok h
      exact .step (List.length_pos_iff.mpr hframes) hstep (ih h)

end Run

-- ---------------------------------------------------------------------------
-- Calls
-- ---------------------------------------------------------------------------

/-- The call that an instruction makes, once it has taken the slot of an indirect
    one off the stack. -/
theorem Machine.Calls.called {env : Env σ} {m n : Machine σ} {func : UInt32}
    {operands : List Value} (h : m.Calls env func operands n)
    (htypes : env.module.CallTypesExist) (hm : m.outline.Sourced env.module) :
    ∃ k, Run.Called env func k n ∧ k.stack = operands ∧ k.store = m.store ∧
      k.frames.length = m.frames.length := by
  cases h with
  | outside hidle hstack h => exact ⟨m, Run.call_eq_ok hm.cache h, hstack, rfl, rfl⟩
  | @direct frame rest code hframes hcode hi hstack h =>
    obtain ⟨flow, c, hahead, hfollow⟩ := Run.step_follows htypes hframes hcode h
    cases Run.ahead?_eq_some hframes hcode hi hahead
    exact ⟨_, Run.called_of_follow hm.cache hfollow, hstack, rfl,
      (congrArg List.length hframes).symm⟩
  | @indirect frame rest code type table expected slot hframes hcode hi htype hstack hresolve h =>
    obtain ⟨flow, c, hahead, hfollow⟩ := Run.step_follows htypes hframes hcode h
    have hop := Run.ahead?_eq_some hframes hcode hi hahead
    simp only [Operation.ofInstr, Operation.ofPlain, htype, Option.getD_some] at hop
    obtain ⟨slot', c₁, hpop, hop⟩ := Exec.bind_eq_ok hop
    obtain ⟨htop, hc₁⟩ := Exec.popInt_eq_ok hpop
    have htop : m.stack = .i32 slot' :: c₁.stack := htop
    rw [hstack] at htop
    cases htop
    obtain ⟨func', c₂, hfound, hop⟩ := Exec.bind_eq_ok hop
    rw [hc₁] at hfound
    have hresolve' : Exec.ofExcept (m.store.resolve table.toNat slot.toNat expected)
        { m.context frame with stack := c₁.stack } = .ok func' c₂ := hfound
    rw [hresolve] at hresolve'
    cases hresolve'
    cases hop
    exact ⟨_, Run.called_of_follow hm.cache hfollow, rfl, rfl,
      (congrArg List.length hframes).symm⟩

theorem Machine.Calls.move {env : Env σ} {m n : Machine σ} {func : UInt32}
    {operands : List Value} (h : m.Calls env func operands n) : Move env m n := by
  cases h with
  | outside hidle _ h => exact .call hidle h
  | direct _ _ _ _ h | indirect _ _ _ _ _ _ h => exact .step h

/-- The stack that a call on these operands leaves is as the type of the function
    says. -/
structure FuncInst.KeepsTo (f : FuncInst) (operands stack : List Value) : Prop where
  enough : f.type.params.length ≤ operands.length
  args : (operands.take f.type.params.length).reverse.map Value.type = f.type.params
  height : stack.length = operands.length - f.type.params.length + f.type.results.length
  hostResults : ∀ type module name slot, f = .host type module name slot →
    (stack.take f.type.results.length).reverse.map Value.type = f.type.results

theorem Run.Called.keepsTo {env : Env σ} {m m' n : Machine σ} {func : UInt32}
    (h : Called env func m m') (htypes : env.module.CallTypesExist)
    (hm' : m'.outline.Sourced env.module) (hback : ComesBack env m.frames.length m' n) :
    ∃ f, m.store.funcs[func.toNat]? = some f ∧ f.KeepsTo m.stack n.stack := by
  cases h with
  | @host type module name slot f results hfunc hoffers _ hresults =>
    have hlength : results.length = type.results.length := by rw [← hresults, List.length_map]
    cases hback with
    | step hactive => exact absurd hactive (Nat.lt_irrefl _)
    | back =>
      refine ⟨_, hfunc, hoffers.enough, hoffers.types, ?_, fun _ _ _ _ _ => ?_⟩
      · show (results.reverse ++ m.stack.drop type.params.length).length = _
        rw [List.length_append, List.length_reverse, List.length_drop, hlength, Nat.add_comm]
        rfl
      · show ((results.reverse ++ m.stack.drop type.params.length).take
          type.results.length).reverse.map Value.type = type.results
        rw [← hlength, ← List.length_reverse, List.take_left, List.reverse_reverse, hresults]
  | defined hfunc hoffers _ =>
    refine ⟨_, hfunc, hoffers.enough, hoffers.types, ?_, nofun⟩
    have hheight := hback.height htypes hm' ⟨[], _, rfl, rfl, rfl⟩
    rwa [List.length_drop] at hheight

theorem Machine.Calls.keepsTo {env : Env σ} {m m' n : Machine σ} {func : UInt32}
    {operands : List Value} (h : m.Calls env func operands m')
    (htypes : env.module.CallTypesExist) (hm : m.outline.Sourced env.module)
    (hback : Run.ComesBack env m.frames.length m' n) :
    ∃ f, m.store.funcs[func.toNat]? = some f ∧ f.KeepsTo operands n.stack := by
  obtain ⟨k, hcalled, rfl, hstore, hlength⟩ := h.called htypes hm
  rw [← hstore]
  exact hcalled.keepsTo htypes (h.move.sourced hm) (hlength ▸ hback)

/-- A request that answers with values has called a function to its end. -/
theorem Request.run_eq_values {env : Env σ} {m n : Machine σ} {r : Request} {budget : Nat}
    {vs : List Value} (h : r.run env budget m = .ok (.values vs) n) :
    ∃ func f m' n', r.callee? m.store = some (func, f) ∧
      Run.call env func (m.prepareCall r.args) = .ok () m' ∧
      Run.steps env budget m' = .ok () n' ∧
      vs = (n'.stack.take f.type.results.length).reverse := by
  by_cases hr : r.IsCall
  · cases hcallee : r.callee? m.store with
    | none =>
      rw [run_of_rejected hr hcallee] at h
      cases h
    | some callee =>
      obtain ⟨func, f⟩ := callee
      rw [run_of_callee hcallee] at h
      cases hend : Run.callToEnd env budget func (m.prepareCall r.args) with
      | error e n' =>
        rw [hend] at h
        cases h
      | ok u n' =>
        rw [hend] at h
        cases h
        obtain ⟨_, m', hcall, hsteps⟩ := Run.bind_eq_ok hend
        rw [Run.blamingFrame_apply] at hsteps
        split at hsteps
        · rename_i hrun
          cases hsteps
          exact ⟨func, f, m', n', rfl, hcall, hrun, rfl⟩
        · cases hsteps
  · cases r with
    | invoke | invokeIndirect => exact absurd trivial hr
    | readMemory | writeMemory =>
      obtain ⟨_, _, _, h⟩ := Run.bind_eq_ok h
      cases h
    | setFuel => cases h

/-- Whatever the imports, the settings and the state that an instance has come
    to: a call that returns, from outside or by an instruction, has found
    arguments of its types on the stack and has put as many results in their
    place as its type says, for a function of the host of the types that it says.
    That is the type that the module gives the function, if the host does not
    write functions. So a request that succeeds answers with as many values. -/
theorem Module.calls_typed {bytes : List UInt8} {m : Module}
    (hread : Format.decode bytes = .ok m) {imports : Imports σ} {config : Config}
    {linked : Link.Linked σ} (hlink : m.link imports config = .ok linked) {called : List Nat}
    {host : σ} {k : Machine σ} :
    let env : Env σ := { module := m, hosts := linked.hosts, config }
    Machine.Leads env { cache := .filled m called, host, store := linked.store } k →
      (∀ func operands k' n, k.Calls env func operands k' →
        Run.ComesBack env k.frames.length k' n →
        ∃ f, k.store.funcs[func.toNat]? = some f ∧ f.KeepsTo operands n.stack ∧
          ((∀ h ∈ linked.hosts, h.SparesFuncs) → m.funcType? func = some f.type)) ∧
      ∀ (r : Request) budget vs n, k.frames = [] → r.run env budget k = .ok (.values vs) n →
        ∃ func f, r.func? k.store = some func ∧ k.store.funcs[func.toNat]? = some f ∧
          vs.length = f.type.results.length := by
  intro env hleads
  have htypes : m.CallTypesExist :=
    Validity.callTypesExist (Format.decode_eq_ok_iff.mp hread).2
  have hstart := Machine.sourced_filled m called
  have hk := hleads.sourced hstart
  constructor
  · intro func operands k' n hcalls hback
    obtain ⟨f, hf, hkeeps⟩ := hcalls.keepsTo htypes hk hback
    refine ⟨f, hf, hkeeps, fun hhosts => ?_⟩
    rw [hleads.funcs hhosts hstart] at hf
    rw [← Module.funcType_link (Format.indexed_of_decode hread) hlink func, hf]
    rfl
  · intro r budget vs n hidle hrun
    obtain ⟨func, f, m', n', hcallee, hentered, hsteps, rfl⟩ := Request.run_eq_values hrun
    obtain ⟨hfunc, hf, hargs⟩ := Request.callee?_eq_some hcallee
    have hcalls : (k.prepareCall r.args).Calls env func r.args.reverse m' :=
      .outside hidle rfl hentered
    have hback : Run.ComesBack env (k.prepareCall r.args).frames.length m' n' := by
      rw [show (k.prepareCall r.args).frames = [] from hidle]
      exact Run.comesBack_of_steps hsteps
    obtain ⟨f', hf', hkeeps⟩ := hcalls.keepsTo htypes hk hback
    cases hf.symm.trans hf'
    have hcount : r.args.length = f.type.params.length := by
      rw [← eq_of_beq hargs, List.length_map]
    have hheight := hkeeps.height
    rw [List.length_reverse, hcount, Nat.sub_self, Nat.zero_add] at hheight
    refine ⟨func, f, hfunc, hf, ?_⟩
    rw [List.length_reverse, List.length_take, hheight, Nat.min_self]

/-- A function that drops an operand from below its frame and has one too many
    when it returns, and one that calls it. -/
def dip : Module where
  types := #[{ params := [.i32], results := [.i32] }, { results := [.i32] }]
  functions :=
    #[{ type := 0, locals := #[], body := #[.plain .drop, .plain (.const (.i32 7)),
        .plain (.const (.i32 8)), .end_] },
      { type := 1, locals := #[], body := #[.plain (.const (.i32 1)), .plain (.const (.i32 2)),
        .plain (.call 0), .end_] }]
  exports := #[{ name := "run", desc := .func 1 }]

/-- The bytes of `dip`. -/
def dipBytes : List UInt8 :=
  [0x00, 0x61, 0x73, 0x6D, 0x01, 0x00, 0x00, 0x00,
    0x01, 0x0A, 0x02, 0x60, 0x01, 0x7F, 0x01, 0x7F, 0x60, 0x00, 0x01, 0x7F,
    0x03, 0x03, 0x02, 0x00, 0x01,
    0x07, 0x07, 0x01, 0x03, 0x72, 0x75, 0x6E, 0x00, 0x01,
    0x0A, 0x12, 0x02, 0x07, 0x00, 0x1A, 0x41, 0x07, 0x41, 0x08, 0x0B,
    0x08, 0x00, 0x41, 0x01, 0x41, 0x02, 0x10, 0x00, 0x0B]

theorem decode_dip : Format.decode dipBytes = .ok dip :=
  Format.eq_ok_of_toOption (by decide +kernel)

def dipLinked : Link.Linked Unit where
  store :=
    { funcs := #[.defined { params := [.i32], results := [.i32] } 0,
        .defined { results := [.i32] } 1]
      exports := [("run", .func 1)]
      pageLimit := 65536 }
  hosts := #[]

theorem link_dip : dip.link {} { compile := false } = .ok dipLinked := by with_unfolding_all rfl

def dipEnv : Env Unit := { module := dip, hosts := #[], config := { compile := false } }

def dipIdle : Machine Unit where
  cache := .filled dip []
  host := ()
  store := dipLinked.store

/-- The caller at a position, with these operands. -/
def dipCaller (pc : Nat) (stack : List Value) : Machine Unit :=
  { dipIdle with
    stack
    frames := [{ func := 1, code := .body 1, pc, height := 0, arity := 1, locals := #[] }]
    depth := 1 }

/-- The other function at a position, with these operands. -/
def dipCallee (pc : Nat) (stack : List Value) : Machine Unit :=
  { dipCaller 3 stack with
    frames := { func := 0, code := .body 0, pc, height := 1, arity := 1, locals := #[.i32 2] } ::
      (dipCaller 3 stack).frames
    depth := 2 }

/-- The operand below the frame is gone, and another one in its place. -/
theorem dip_calls_typed :
    Format.decode dipBytes = .ok dip ∧ dip.link {} { compile := false } = .ok dipLinked ∧
      let k := dipCaller 2 [.i32 2, .i32 1]
      let k' := dipCallee 0 [.i32 1]
      let n := dipCaller 3 [.i32 8, .i32 7]
      Machine.Leads dipEnv dipIdle k ∧ k.Calls dipEnv 0 [.i32 2, .i32 1] k' ∧
        Run.ComesBack dipEnv 1 k' n ∧ n.stack.length = 2 ∧
        ∃ vs n', (Request.invoke "run" []).run dipEnv 10 dipIdle = .ok (.values vs) n' ∧
          vs.length = 1 := by
  refine ⟨decode_dip, link_dip, ?_⟩
  intro k k' n
  have hleads : Machine.Leads dipEnv dipIdle k := by
    have hcall : Run.call dipEnv 1 dipIdle = .ok () (dipCaller 0 []) := by with_unfolding_all rfl
    have hfirst : Run.step dipEnv (dipCaller 0 []) = .ok () (dipCaller 1 [.i32 1]) := by
      with_unfolding_all rfl
    have hsecond : Run.step dipEnv (dipCaller 1 [.i32 1]) = .ok () k := by with_unfolding_all rfl
    exact .head (.call rfl hcall) (.head (.step hfirst) (.single (.step hsecond)))
  have hcalls : k.Calls dipEnv 0 [.i32 2, .i32 1] k' :=
    .direct rfl (.inl rfl) rfl rfl (by with_unfolding_all rfl)
  have hback : Run.ComesBack dipEnv 1 k' n := by
    have hdrop : Run.step dipEnv k' = .ok () (dipCallee 1 []) := by with_unfolding_all rfl
    have hseven : Run.step dipEnv (dipCallee 1 []) = .ok () (dipCallee 2 [.i32 7]) := by
      with_unfolding_all rfl
    have hmore : Run.step dipEnv (dipCallee 2 [.i32 7]) =
        .ok () (dipCallee 3 [.i32 8, .i32 7]) := by with_unfolding_all rfl
    have hend : Run.step dipEnv (dipCallee 3 [.i32 8, .i32 7]) = .ok () n := by
      with_unfolding_all rfl
    exact .step (by decide) hdrop (.step (by decide) hseven (.step (by decide) hmore
      (.step (by decide) hend (.back rfl))))
  have hanswer : (match (Request.invoke "run" []).run dipEnv 10 dipIdle with
      | .ok answer _ => some answer
      | .error _ _ => none) = some (.values [.i32 8]) := by decide +kernel
  obtain ⟨n', hrun⟩ :
      ∃ n', (Request.invoke "run" []).run dipEnv 10 dipIdle = .ok (.values [.i32 8]) n' := by
    cases hresult : (Request.invoke "run" []).run dipEnv 10 dipIdle with
    | ok answer n' =>
      rw [hresult] at hanswer
      cases hanswer
      exact ⟨n', rfl⟩
    | error e n' =>
      rw [hresult] at hanswer
      cases hanswer
  refine ⟨hleads, hcalls, hback, ?_, [.i32 8], n', hrun, ?_⟩
  · have htyped := Module.calls_typed decode_dip link_dip hleads
    obtain ⟨f, hf, hkeeps, _⟩ := htyped.1 _ _ _ _ hcalls hback
    cases hf
    exact hkeeps.height
  · have hstart : Machine.Leads dipEnv dipIdle dipIdle := .refl
    have htyped := Module.calls_typed decode_dip link_dip hstart
    obtain ⟨func, f, hfunc, hf, hlength⟩ := htyped.2 _ _ _ _ rfl hrun
    cases hfunc
    cases hf
    exact hlength

end Wasm
