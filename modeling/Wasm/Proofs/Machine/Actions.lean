import Wasm.Exec.Step

/-!
# Actions of a machine

How the basic actions of a machine compute, and which of them leave frames and
prepared code alone. The latter behave the same whatever frames there are, so
what is known of them carries over from one machine to another that differs
only there.
-/

namespace Wasm

variable {σ α β : Type}

/-- The machine with other frames and another cache. -/
def Machine.graft (m : Machine σ) (frames : List Frame) (cache : CodeCache) : Machine σ :=
  { m with frames, cache }

/-- The machine with its innermost frame at another position. -/
def Machine.goto (m : Machine σ) (pc : Nat) : Machine σ :=
  { m with frames := m.frames.modifyHead ({ · with pc }) }

/-- Names the innermost frame as the origin of a trap. -/
def Machine.blameFrame (m : Machine σ) : Machine σ :=
  match m.frames with
  | [] => m
  | frame :: _ => m.blame frame.func

namespace Machine

variable {m : Machine σ}

theorem goto_nil (h : m.frames = []) (pc : Nat) : m.goto pc = m := by
  obtain ⟨shared, store, stack, frames, depth, origin⟩ := m
  subst h
  rfl

theorem goto_cons {frame : Frame} {rest : List Frame} (h : m.frames = frame :: rest) (pc : Nat) :
    m.goto pc = { m with frames := { frame with pc } :: rest } := by
  simp only [goto, h, List.modifyHead_cons]

theorem goto_self {frame : Frame} {rest : List Frame} (h : m.frames = frame :: rest) :
    m.goto frame.pc = m := by
  obtain ⟨shared, store, stack, frames, depth, origin⟩ := m
  subst h
  rfl

theorem store_blameFrame (m : Machine σ) : m.blameFrame.store = m.store := by
  unfold blameFrame
  split <;> rfl

@[simp] theorem goto_goto (m : Machine σ) (p q : Nat) : (m.goto p).goto q = m.goto q := by
  obtain ⟨shared, store, stack, frames, depth, origin⟩ := m
  cases frames <;> rfl

end Machine

/-- A result with another final state. -/
def mapState {ε τ υ : Type} (f : τ → υ) : EStateM.Result ε τ α → EStateM.Result ε υ α
  | .ok a s => .ok a (f s)
  | .error e s => .error e (f s)

/-- The state a result leaves. -/
def finalState {ε τ : Type} : EStateM.Result ε τ α → τ
  | .ok _ s => s
  | .error _ s => s

-- ---------------------------------------------------------------------------
-- Computing with actions
-- ---------------------------------------------------------------------------

namespace Exec

theorem bind_apply (a : Exec α) (f : α → Exec β) (c : Context) :
    (a >>= f) c = match a c with
      | .ok x c => f x c
      | .error e c => .error e c := by
  simp only [bind, EStateM.bind]
  cases a c <;> rfl

@[simp] theorem get_apply (c : Context) : (get : Exec _) c = .ok c c := rfl
@[simp] theorem set_apply (c d : Context) : (set d : Exec _) c = .ok () d := rfl
@[simp] theorem pure_apply (c : Context) (x : α) : (pure x : Exec _) c = .ok x c := rfl
@[simp] theorem trap_apply (c : Context) (t : Trap) :
    (trap t : Exec α) c = .error (.trap t) c := rfl

@[simp] theorem modify_apply (c : Context) (f : Context → Context) :
    (modify f : Exec _) c = .ok () (f c) := rfl

theorem ofExcept_apply (r : Except Trap α) (c : Context) :
    ofExcept r c = match r with
      | .ok x => .ok x c
      | .error t => .error (.trap t) c := by
  cases r <;> rfl

theorem unwind_apply (height arity : Nat) (c : Context) :
    unwind height arity c = match unwound c.stack height arity with
      | .ok stack => .ok () { c with stack }
      | .error t => .error (.trap t) c := by
  simp only [unwind, bind_apply, get_apply, ofExcept_apply]
  cases unwound c.stack height arity <;> rfl

end Exec

namespace Run

theorem bind_apply (a : Run σ α) (f : α → Run σ β) (m : Machine σ) :
    (a >>= f) m = match a m with
      | .ok x m => f x m
      | .error e m => .error e m := by
  simp only [bind, EStateM.bind]
  cases a m <;> rfl

theorem bind_ok {a : Run σ α} {f : α → Run σ β} {m m' : Machine σ} {x : α}
    (h : a m = .ok x m') : (a >>= f) m = f x m' := by
  rw [bind_apply, h]

theorem bind_error {a : Run σ α} {f : α → Run σ β} {m m' : Machine σ} {e : Fault}
    (h : a m = .error e m') : (a >>= f) m = .error e m' := by
  rw [bind_apply, h]

@[simp] theorem get_apply (m : Machine σ) : (get : Run σ _) m = .ok m m := rfl
@[simp] theorem set_apply (m n : Machine σ) : (set n : Run σ _) m = .ok () n := rfl
@[simp] theorem pure_apply (m : Machine σ) (x : α) : (pure x : Run σ _) m = .ok x m := rfl

@[simp] theorem modify_apply (m : Machine σ) (f : Machine σ → Machine σ) :
    (modify f : Run σ _) m = .ok () (f m) := rfl

@[simp] theorem throw_apply (m : Machine σ) (e : Fault) :
    (throw e : Run σ α) m = .error e m := rfl

@[simp] theorem trap_apply (m : Machine σ) (t : Trap) :
    (trap t : Run σ α) m = .error (.trap t) m := rfl

@[simp] theorem goto_apply (m : Machine σ) (pc : Nat) : Run.goto pc m = .ok () (m.goto pc) := by
  obtain ⟨shared, store, stack, frames, depth, origin⟩ := m
  cases frames <;> rfl

theorem ofExcept_apply (r : Except Trap α) (m : Machine σ) :
    ofExcept r m = match r with
      | .ok x => .ok x m
      | .error t => .error (.trap t) m := by
  cases r <;> rfl

theorem blaming_ok {a : Run σ α} {m m' : Machine σ} {x : α} (h : a m = .ok x m') (func : UInt32) :
    blaming func a m = .ok x m' := by
  simp only [blaming, h]

theorem blaming_error {a : Run σ α} {m m' : Machine σ} {e : Fault} (h : a m = .error e m')
    (func : UInt32) : blaming func a m = .error e (m'.blame func) := by
  simp only [blaming, h]

theorem blamingFrame_apply (a : Run σ Unit) (m : Machine σ) :
    blamingFrame a m = match a m with
      | .ok x m => .ok x m
      | .error e m => .error e m.blameFrame := by
  simp only [blamingFrame, Machine.blameFrame]
  cases a m with
  | ok x m => rfl
  | error e m =>
    dsimp only
    cases m.frames <;> rfl

theorem step_body {env : Env σ} {m : Machine σ} {frame : Frame} {rest : List Frame} {func : Nat}
    (hframes : m.frames = frame :: rest) (hcode : frame.code = .body func) :
    step env m = stepBody env func frame.pc m := by
  simp only [step, bind_apply, get_apply, hframes, hcode]

theorem step_prepared {env : Env σ} {m : Machine σ} {frame : Frame} {rest : List Frame}
    {ops : Prepared} (hframes : m.frames = frame :: rest) (hcode : frame.code = .prepared ops) :
    step env m = stepPrepared env ops frame.pc m := by
  simp only [step, bind_apply, get_apply, hframes, hcode]

theorem step_nil {env : Env σ} {m : Machine σ} (hframes : m.frames = []) :
    step env m = .ok () m := by
  simp only [step, bind_apply, get_apply, hframes, pure_apply]

theorem inFrame_cons {m : Machine σ} {action : Exec α} {frame : Frame} {rest : List Frame}
    (hframes : m.frames = frame :: rest) :
    inFrame action m = match action (m.context frame) with
      | .ok x c => .ok x (m.resume frame rest c)
      | .error e c => .error e (m.resume frame rest c) := by
  obtain ⟨shared, store, stack, frames, depth, origin⟩ := m
  subst hframes
  rfl

theorem leave_cons {m : Machine σ} {frame : Frame} {rest : List Frame}
    (hframes : m.frames = frame :: rest) :
    leave m = match Exec.unwound m.stack frame.height frame.arity with
      | .ok stack => .ok () { m with frames := rest, depth := m.depth - 1, stack }
      | .error t => .error (.trap t) { m with frames := rest, depth := m.depth - 1 } := by
  simp only [leave, bind_apply, get_apply, hframes, set_apply, ofExcept_apply]
  cases Exec.unwound m.stack frame.height frame.arity <;> rfl

/-- The arguments of a defined function are taken only below the limit. -/
theorem takeLocals_lt {env : Env σ} {m m' : Machine σ} {type : FuncType} {code : Nat}
    {locals : Array Value}
    (h : takeLocals env type code m = .ok locals m') : m.depth < env.config.maxCallDepth := by
  simp only [takeLocals, bind_apply, get_apply] at h
  split at h
  · cases h
  · rename_i hdepth
    exact Nat.lt_of_not_le hdepth

-- ---------------------------------------------------------------------------
-- Actions that do not see frames
-- ---------------------------------------------------------------------------

/-- The action neither sees nor changes frames and prepared code. -/
def Frameless (a : Run σ α) : Prop :=
  ∀ m frames cache, a (m.graft frames cache) = mapState (·.graft frames cache) (a m)

theorem Frameless.pure (x : α) : Frameless (pure x : Run σ α) := fun _ _ _ => rfl

theorem Frameless.bind {a : Run σ α} {f : α → Run σ β} (ha : Frameless a)
    (hf : ∀ x, Frameless (f x)) : Frameless (a >>= f) := by
  intro m frames cache
  simp only [bind_apply, ha m frames cache]
  cases a m with
  | ok x m => exact hf x m frames cache
  | error e m => rfl

theorem Frameless.blaming {a : Run σ α} (ha : Frameless a) (func : UInt32) :
    Frameless (blaming func a) := by
  intro m frames cache
  simp only [Run.blaming, ha m frames cache]
  cases a m <;> rfl

theorem Frameless.takeArgs (params : List ValueType) : Frameless (σ := σ) (takeArgs params) := by
  intro m frames cache
  simp only [Run.takeArgs, bind_apply, get_apply, Machine.graft]
  split
  · rfl
  · simp only [set_apply, bind_apply]
    cases Value.checkTypes (m.stack.take params.length).reverse params <;> rfl

theorem Frameless.takeLocals (env : Env σ) (type : FuncType) (code : Nat) :
    Frameless (takeLocals env type code) := by
  intro m frames cache
  simp only [Run.takeLocals, bind_apply, get_apply]
  rw [show (m.graft frames cache).depth = m.depth from rfl]
  split
  · rfl
  · exact (Frameless.takeArgs type.params).bind (fun _ => Frameless.pure _) m frames cache

theorem Frameless.callHost (env : Env σ) (func : UInt32) (type : FuncType) (module name : String)
    (slot : Nat) : Frameless (callHost env func type module name slot) := by
  refine Frameless.blaming ?_ func
  split
  · exact fun _ _ _ => rfl
  · rename_i f _
    refine (Frameless.takeArgs type.params).bind fun args => ?_
    intro m frames cache
    simp only [bind_apply, get_apply, set_apply, Machine.graft]
    cases checkReply type module name (f.call args m.store m.host).result <;> rfl

/-- An action that does not see frames leaves them as they are. -/
theorem Frameless.graft_eq {a : Run σ α} (ha : Frameless a) (m : Machine σ) :
    a m = mapState (·.graft m.frames m.cache) (a m) := ha m m.frames m.cache

end Run

end Wasm
