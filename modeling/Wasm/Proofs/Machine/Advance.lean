import Wasm.Proofs.Machine.Life
import Wasm.Proofs.Origin

/-!
# Steps that succeed

What a step that succeeds can do. In either strategy it runs the operation that
the innermost frame has come to and goes on where that says: in the same frame,
in a function that is called, or in the frame below. A call takes its arguments
off the stack and leaves the results of the host there, or a new frame.
-/

namespace Wasm

variable {σ α β : Type}

namespace Exec

variable {c c' : Context}

theorem bind_eq_ok {a : Exec α} {f : α → Exec β} {y : β} (h : (a >>= f) c = .ok y c') :
    ∃ x c₁, a c = .ok x c₁ ∧ f x c₁ = .ok y c' := by
  rw [bind_apply] at h
  cases ha : a c with
  | error e c₁ =>
    rw [ha] at h
    cases h
  | ok x c₁ =>
    rw [ha] at h
    exact ⟨x, c₁, rfl, h⟩

theorem popInt_eq_ok {x : BitVec 32} (h : popInt .w32 c = .ok x c') :
    c.stack = .i32 x :: c'.stack ∧ c' = { c with stack := c'.stack } := by
  obtain ⟨v, c₁, hpop, h⟩ := bind_eq_ok h
  obtain ⟨_, _, hget, hpop⟩ := bind_eq_ok hpop
  cases hget
  cases hstack : c.stack with
  | nil =>
    rw [hstack] at hpop
    cases hpop
  | cons top rest =>
    rw [hstack] at hpop
    cases hpop
    cases v with
    | i32 y =>
      cases h
      exact ⟨rfl, rfl⟩
    | i64 | f32 | f64 => cases h

end Exec

namespace Machine

variable {m : Machine σ}

theorem resume_context {frame : Frame} {rest : List Frame} (hframes : m.frames = frame :: rest) :
    m.resume frame rest (m.context frame) = m := by
  obtain ⟨shared, store, stack, frames, depth, origin⟩ := m
  subst hframes
  rfl

/-- The topmost operands have these types, the last one on top. -/
structure Offers (m : Machine σ) (params : List ValueType) : Prop where
  enough : params.length ≤ m.stack.length
  types : (m.stack.take params.length).reverse.map Value.type = params

end Machine

namespace Run

-- ---------------------------------------------------------------------------
-- Positions
-- ---------------------------------------------------------------------------

/-- What an action does in a frame does not depend on its position. -/
theorem inFrame_goto (a : Exec α) (q : Nat) (m : Machine σ) :
    inFrame a (m.goto q) = mapState (·.goto q) (inFrame a m) := by
  obtain ⟨shared, store, stack, frames, depth, origin⟩ := m
  cases frames with
  | nil => rfl
  | cons frame rest =>
    simp only [inFrame, Machine.goto, List.modifyHead_cons, Machine.context]
    cases a { stack, locals := frame.locals, labels := frame.labels, store } <;> rfl

theorem leave_goto (q : Nat) (m : Machine σ) : leave (m.goto q) = leave m := by
  obtain ⟨shared, store, stack, frames, depth, origin⟩ := m
  cases frames with
  | nil => rfl
  | cons frame rest =>
    simp only [leave, bind_apply, get_apply, Machine.goto, List.modifyHead_cons, set_apply]

theorem frames_inFrame {a : Exec α} {m n : Machine σ} {x : α} (h : inFrame a m = .ok x n) :
    n.frames ≠ [] := by
  cases hframes : m.frames with
  | nil =>
    rw [inFrame, hframes] at h
    cases h
  | cons frame rest =>
    rw [inFrame_cons hframes] at h
    split at h
    · cases h
      exact List.cons_ne_nil _ _
    · cases h

/-- Unless it faults, what the one action does from position `q` the other does
    from any. -/
def Onward (q : Nat) (a b : Run σ Unit) : Prop :=
  ∀ m m' : Machine σ, m.frames ≠ [] → a (m.goto q) = .ok () m' → b m = .ok () m'

namespace Onward

variable {env : Env σ} {a b : Run σ Unit} {f g : α → Run σ Unit} {p q : Nat}

theorem goto (p q : Nat) : Onward (σ := σ) q (Run.goto p) (Run.goto p) := by
  intro m m' _ h
  rw [goto_apply, Machine.goto_goto] at h
  rw [goto_apply, h]

theorem stay (q : Nat) : Onward (σ := σ) q (pure ()) (Run.goto q) := by
  intro m m' _ h
  rw [goto_apply]
  exact h

theorem leave (q : Nat) : Onward (σ := σ) q leave leave := by
  intro m m' _ h
  rwa [leave_goto] at h

theorem call (env : Env σ) (func : UInt32) (q : Nat) :
    Onward q (call env func) (Run.goto q >>= fun _ => call env func) := by
  intro m m' _ h
  rwa [bind_ok (goto_apply m q)]

theorem after_goto (h : Onward p a b) : Onward q (Run.goto p >>= fun _ => a) b := by
  intro m m' hm hgoto
  rw [bind_ok (goto_apply _ p), Machine.goto_goto] at hgoto
  exact h m m' hm hgoto

theorem inFrame_bind (action : Exec α) (h : ∀ x, Onward q (f x) (g x)) :
    Onward q (inFrame action >>= f) (inFrame action >>= g) := by
  intro m m' _ hrun
  rw [bind_apply, inFrame_goto] at hrun
  rw [bind_apply]
  cases haction : inFrame action m with
  | error e n =>
    rw [haction] at hrun
    cases hrun
  | ok x n =>
    rw [haction] at hrun
    exact h x n m' (frames_inFrame haction) hrun

theorem inFrame (action : Exec Unit) (h : Onward q (pure ()) b) :
    Onward q (inFrame action) (Run.inFrame action >>= fun _ => b) := by
  have hbind := inFrame_bind action (f := fun _ => pure ()) fun _ => h
  rwa [bind_pure_unit] at hbind

theorem inFrame_pure {x : α} (h : Onward q a (f x)) :
    Onward q a (Run.inFrame (pure x) >>= f) := by
  intro m m' hm ha
  rw [inFrame_pure_bind hm]
  exact h m m' hm ha

theorem branch (depth : UInt32) (pc q : Nat) :
    Onward q (branch depth) (Run.inFrame (Operation.goto depth) >>= follow env pc) := by
  rw [branch_eq, Operation.goto, Run.inFrame_bind, bind_assoc]
  refine inFrame_bind _ fun target => ?_
  cases target with
  | jump target => exact inFrame_pure (goto target q)
  | leave => exact inFrame_pure (leave q)
  | again target =>
    -- a body moves before it pays
    rw [Run.inFrame_bind, bind_assoc]
    exact after_goto (inFrame Exec.burn (inFrame_pure (stay target)))

theorem perform (effect : Effect) (pc : Nat) :
    Onward (pc + 1) (perform env effect) (Run.inFrame effect.flow >>= follow env pc) := by
  cases effect with
  | next => exact inFrame_pure (stay (pc + 1))
  | branch depth => exact branch depth pc (pc + 1)
  | call func => exact inFrame_pure (call env func (pc + 1))
  | return_ => exact inFrame_pure (leave (pc + 1))

/-- One case for each form of instruction. -/
theorem interpret {i : Instr} (pc : Nat)
    (hi : ∀ type table, i = .plain (.callIndirect type table) →
      type.toNat < env.module.types.size) :
    Onward (pc + 1) (interpret env pc i)
      (Run.inFrame (Operation.ofInstr env.module pc i) >>= follow env pc) := by
  cases i with
  | plain i =>
    have hplain : Operation.ofPlain env.module i = i.exec env.module.types >>= Effect.flow :=
      Operation.ofPlain_eq fun type table h => hi type table (congrArg Instr.plain h)
    rw [Run.interpret, Operation.ofInstr, hplain, Run.inFrame_bind, bind_assoc]
    exact inFrame_bind _ fun effect => perform effect pc
  | block type stop =>
    simp only [Run.interpret, Operation.ofInstr, Run.inFrame_bind, bind_assoc]
    exact inFrame _ (inFrame_pure (stay (pc + 1)))
  | loop type =>
    simp only [Run.interpret, Operation.ofInstr, Run.inFrame_bind, bind_assoc]
    exact inFrame _ (inFrame_pure (stay (pc + 1)))
  | if_ type otherwise stop =>
    simp only [Run.interpret, Operation.ofInstr, Run.inFrame_bind, bind_assoc]
    refine inFrame_bind _ fun cond => inFrame_bind _ fun _ => inFrame_pure ?_
    by_cases hcond : cond = 0
    · rw [if_pos hcond, if_neg (not_not_intro hcond)]
      exact goto _ _
    · rw [if_neg hcond, if_pos hcond]
      exact stay (pc + 1)
  | else_ stop => exact inFrame_pure (goto stop (pc + 1))
  | end_ =>
    simp only [Run.interpret, Operation.ofInstr, Run.inFrame_bind, bind_assoc]
    refine inFrame_bind _ fun closed => ?_
    cases closed with
    | true => exact inFrame_pure (stay (pc + 1))
    | false => exact inFrame_pure (leave (pc + 1))

end Onward

-- ---------------------------------------------------------------------------
-- Steps
-- ---------------------------------------------------------------------------

section

variable {env : Env σ} {m m' : Machine σ} {frame : Frame} {rest : List Frame}

theorem follow_of_inFrame {op : Operation} (hframes : m.frames = frame :: rest)
    (h : (inFrame op >>= follow env frame.pc) m = .ok () m') :
    ∃ flow c, op (m.context frame) = .ok flow c ∧
      follow env frame.pc flow (m.resume frame rest c) = .ok () m' := by
  rw [bind_apply, inFrame_cons hframes] at h
  cases hop : op (m.context frame) with
  | error e c =>
    rw [hop] at h
    cases h
  | ok flow c =>
    rw [hop] at h
    exact ⟨flow, c, rfl, h⟩

/-- The operation that a frame has come to is that of its instruction. -/
theorem operation?_of {mod : Module} {func : Nat} (hcode : frame.code.Of mod func) :
    frame.operation? mod = (mod.instr? func frame.pc).map (Operation.ofInstr mod frame.pc) := by
  rcases hcode with hcode | hcode
  · simp only [Frame.operation?, hcode]
  · simp only [Frame.operation?, hcode, mod.getElem?_prepare]

theorem ahead?_eq_some {mod : Module} {func : Nat} {i : Instr} {flow : Flow} {c : Context}
    (hframes : m.frames = frame :: rest) (hcode : frame.code.Of mod func)
    (hi : mod.instr? func frame.pc = some i) (h : m.ahead? mod = some (flow, c)) :
    Operation.ofInstr mod frame.pc i (m.context frame) = .ok flow c := by
  simp only [Machine.ahead?, hframes, operation?_of hcode, hi, Option.map_some] at h
  split at h
  · rename_i hop
    cases h
    exact hop
  · cases h

/-- In either strategy a step runs the operation ahead and follows it. -/
theorem step_follows (htypes : env.module.CallTypesExist) {func : Nat}
    (hframes : m.frames = frame :: rest) (hcode : frame.code.Of env.module func)
    (h : step env m = .ok () m') :
    ∃ flow c, m.ahead? env.module = some (flow, c) ∧
      follow env frame.pc flow (m.resume frame rest c) = .ok () m' := by
  have hget := env.module.getElem?_prepare func frame.pc
  simp only [Machine.ahead?, hframes, operation?_of hcode]
  cases hi : env.module.instr? func frame.pc with
  | none =>
    refine ⟨.return_, m.context frame, rfl, ?_⟩
    rw [Machine.resume_context hframes, follow]
    rcases hcode with hcode | hcode
    · rw [step_body hframes hcode] at h
      simpa only [stepBody, hi] using h
    · rw [hi] at hget
      rw [step_prepared hframes hcode] at h
      simpa only [stepPrepared, hget, Option.map_none] using h
  | some i =>
    have hrun : (inFrame (Operation.ofInstr env.module frame.pc i) >>= follow env frame.pc) m =
        .ok () m' := by
      rcases hcode with hcode | hcode
      · rw [step_body hframes hcode, stepBody_some hi, bind_ok (goto_apply _ _)] at h
        have hne : m.frames ≠ [] := hframes ▸ List.cons_ne_nil _ _
        refine Onward.interpret frame.pc (fun type table heq => ?_) m m' hne h
        exact htypes func frame.pc type table (heq ▸ hi)
      · rw [hi] at hget
        rwa [step_prepared hframes hcode, stepPrepared_some env hget] at h
    obtain ⟨flow, c, hop, hfollow⟩ := follow_of_inFrame hframes hrun
    exact ⟨flow, c, by simp only [Option.map_some, hop], hfollow⟩

end

-- ---------------------------------------------------------------------------
-- Calls
-- ---------------------------------------------------------------------------

/-- What a call of the function makes of a machine: the results of the host are
    on the stack in place of the arguments, or there is a new frame above those
    operands that are left. -/
inductive Called (env : Env σ) (func : UInt32) (m : Machine σ) : Machine σ → Prop where
  | host {type : FuncType} {module name : String} {slot : Nat} {f : HostFunc σ}
      {results : List Value}
      (hfunc : m.store.funcs[func.toNat]? = some (.host type module name slot))
      (hoffers : m.Offers type.params) (hhost : env.hosts[slot]? = some f)
      (hresults : results.map Value.type = type.results) :
      Called env func m
        (let reply := f.call (m.stack.take type.params.length).reverse m.store m.host
        { m with
          store := reply.store, host := reply.state
          stack := results.reverse ++ m.stack.drop type.params.length })
  | defined {type : FuncType} {code : Nat} {fcode : FrameCode} {cache : CodeCache}
      {locals : Array Value}
      (hfunc : m.store.funcs[func.toNat]? = some (.defined type code))
      (hoffers : m.Offers type.params) (hcode : fcode.Of env.module code) :
      Called env func m
        (let stack := m.stack.drop type.params.length
        let frame : Frame :=
          { func, code := fcode, height := stack.length, arity := type.results.length, locals }
        { m with cache, stack, frames := frame :: m.frames, depth := m.depth + 1 })

variable {env : Env σ} {m m' : Machine σ}

theorem takeArgs_eq_ok {params : List ValueType} {args : List Value}
    (h : takeArgs params m = .ok args m') :
    m.Offers params ∧ args = (m.stack.take params.length).reverse ∧
      m' = { m with stack := m.stack.drop params.length } := by
  simp only [takeArgs, bind_apply, get_apply] at h
  split at h
  · cases h
  · rename_i henough
    have henough := Nat.le_of_not_lt henough
    simp only [set_apply, bind_apply] at h
    cases hcheck : Value.checkTypes (m.stack.take params.length).reverse params with
    | error t =>
      rw [hcheck] at h
      cases h
    | ok u =>
      rw [hcheck] at h
      cases h
      refine ⟨⟨henough, Value.map_type_of_checkTypes ?_ hcheck⟩, rfl, rfl⟩
      rw [List.length_reverse, List.length_take, Nat.min_eq_left henough]

theorem checkReply_eq_ok {type : FuncType} {module name : String} {results : List Value}
    {reply : Except String (List Value)} (h : checkReply type module name reply = .ok results) :
    results.map Value.type = type.results := by
  unfold checkReply at h
  split at h
  · cases h
  · split at h
    · rename_i results' hlength
      cases hcheck : Value.checkTypes results' type.results with
      | error t =>
        rw [hcheck] at h
        cases h
      | ok u =>
        rw [hcheck] at h
        cases h
        exact Value.map_type_of_checkTypes hlength hcheck
    · cases h

theorem blaming_eq_ok {a : Run σ α} {func : UInt32} {x : α} (h : blaming func a m = .ok x m') :
    a m = .ok x m' := by
  unfold blaming at h
  split at h
  · rename_i heq
    cases h
    exact heq
  · cases h

theorem bind_eq_ok {a : Run σ α} {f : α → Run σ β} {y : β} (h : (a >>= f) m = .ok y m') :
    ∃ x n, a m = .ok x n ∧ f x n = .ok y m' := by
  rw [bind_apply] at h
  cases ha : a m with
  | error e n =>
    rw [ha] at h
    cases h
  | ok x n =>
    rw [ha] at h
    exact ⟨x, n, rfl, h⟩

theorem callHost_eq_ok {func : UInt32} {type : FuncType} {module name : String} {slot : Nat}
    (hfunc : m.store.funcs[func.toNat]? = some (.host type module name slot))
    (h : callHost env func type module name slot m = .ok () m') : Called env func m m' := by
  have h := blaming_eq_ok h
  cases hf : env.hosts[slot]? with
  | none =>
    rw [hf] at h
    cases h
  | some f =>
    rw [hf] at h
    obtain ⟨args, n, hargs, h⟩ := bind_eq_ok h
    obtain ⟨hoffers, rfl, rfl⟩ := takeArgs_eq_ok hargs
    simp only [bind_apply, get_apply, set_apply, ofExcept_apply] at h
    cases hreply : checkReply type module name
        (f.call (m.stack.take type.params.length).reverse m.store m.host).result with
    | error t =>
      rw [hreply] at h
      cases h
    | ok results =>
      rw [hreply] at h
      cases h
      exact .host hfunc hoffers hf (checkReply_eq_ok hreply)

theorem enter_eq_ok (hcache : m.cache.Coherent env.module) {func : UInt32} {type : FuncType}
    {code : Nat} (hfunc : m.store.funcs[func.toNat]? = some (.defined type code))
    (h : enter env func type code m = .ok () m') : Called env func m m' := by
  obtain ⟨locals, n, hlocals, h⟩ := bind_eq_ok h
  have hlocals := blaming_eq_ok hlocals
  simp only [takeLocals, bind_apply, get_apply] at hlocals
  split at hlocals
  · cases hlocals
  · obtain ⟨args, k, hargs, hpure⟩ := bind_eq_ok hlocals
    obtain ⟨hoffers, rfl, rfl⟩ := takeArgs_eq_ok hargs
    cases hpure
    unfold frameCode at h
    split at h
    · cases h
      exact .defined hfunc hoffers (.inr (congrArg _ (hcache.fetch_fst code)))
    · cases h
      exact .defined hfunc hoffers (.inl rfl)

theorem call_eq_ok (hcache : m.cache.Coherent env.module) {func : UInt32}
    (h : call env func m = .ok () m') : Called env func m m' := by
  cases hfunc : m.store.funcs[func.toNat]? with
  | none =>
    rw [call_missing hfunc] at h
    cases h
  | some f =>
    cases f with
    | host type module name slot => exact callHost_eq_ok hfunc (call_host hfunc ▸ h)
    | defined type code => exact enter_eq_ok hcache hfunc (call_defined hfunc ▸ h)

/-- A call out of a frame, which stays behind its instruction. -/
theorem called_of_follow {frame : Frame} {rest : List Frame} {c : Context} {func : UInt32}
    (hcache : m.cache.Coherent env.module)
    (h : follow env frame.pc (.call func) (m.resume frame rest c) = .ok () m') :
    Called env func ((m.resume frame rest c).goto (frame.pc + 1)) m' := by
  rw [follow, bind_ok (goto_apply _ _)] at h
  exact call_eq_ok (m := (m.resume frame rest c).goto (frame.pc + 1)) hcache h

theorem leave_eq_ok {frame : Frame} {rest : List Frame} (hframes : m.frames = frame :: rest)
    (h : leave m = .ok () m') :
    m'.frames = rest ∧ m'.stack.length = frame.height + frame.arity := by
  rw [leave_cons hframes] at h
  cases hunwound : Exec.unwound m.stack frame.height frame.arity with
  | error t =>
    rw [hunwound] at h
    cases h
  | ok stack =>
    rw [hunwound] at h
    cases h
    refine ⟨rfl, ?_⟩
    unfold Exec.unwound at hunwound
    split at hunwound
    · cases hunwound
    · cases hunwound
      rw [List.length_append, List.length_take, List.length_drop]
      omega

end Run

end Wasm
