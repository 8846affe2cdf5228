import Wasm.Proofs.Machine.Actions

/-!
# Interpreted and prepared code

A machine that interprets bodies and one that runs what was prepared from them
go in lockstep: `Machine.Twin` relates their states, one step of either is
mirrored by one step of the other, and a step that traps does so in both. The
position of the innermost frame is what the two keep differently, the one
moving it before an instruction and the other after; `Machine.Alike` leaves it
open.
-/

namespace Wasm

variable {σ α β : Type}

-- ---------------------------------------------------------------------------
-- Prepared code
-- ---------------------------------------------------------------------------

/-- Every filled slot holds what is prepared from its function. -/
def CodeCache.Coherent (m : Module) (cache : CodeCache) : Prop :=
  ∀ func ops, cache.get? func = some ops → ops = m.prepare func

theorem CodeCache.empty_coherent (m : Module) : (CodeCache.empty m).Coherent m := by
  intro func ops h
  simp only [CodeCache.get?, CodeCache.empty, Array.getElem?_replicate] at h
  split at h <;> simp at h

theorem CodeCache.Coherent.fetch_fst {m : Module} {cache : CodeCache} (h : cache.Coherent m)
    (func : Nat) : (cache.fetch m func).1 = m.prepare func := by
  unfold CodeCache.fetch
  split
  · rename_i ops hops
    exact h func ops hops
  · rfl

theorem CodeCache.Coherent.fetch_snd {m : Module} {cache : CodeCache} (h : cache.Coherent m)
    (func : Nat) : (cache.fetch m func).2.Coherent m := by
  unfold CodeCache.fetch
  split
  · exact h
  · intro i ops hi
    simp only [CodeCache.get?, Array.getElem?_setIfInBounds] at hi
    split at hi
    · rename_i heq
      subst heq
      split at hi
      · simpa using hi.symm
      · simp at hi
    · exact h i ops hi

theorem Module.getElem?_prepare (m : Module) (func pc : Nat) :
    (m.prepare func)[pc]? = (m.instr? func pc).map (Operation.ofInstr m pc) := by
  unfold Module.prepare Module.instr?
  cases m.functions[func]? with
  | none => simp
  | some f => simp [Array.getElem?_mapIdx]

/-- What prepared code does where a plain instruction announces an effect. -/
def Effect.flow : Effect → Operation
  | .next => return .next
  | .branch depth => Operation.goto depth
  | .call func => return .call func
  | .return_ => return .return_

/-- An operation runs its instruction and turns the effect into a flow. An
    indirect call is the one instruction whose operation would differ, if its
    type did not exist. -/
theorem Operation.ofPlain_eq {m : Module} {i : Plain}
    (h : ∀ type table, i = .callIndirect type table → type.toNat < m.types.size) :
    Operation.ofPlain m i = i.exec m.types >>= Effect.flow := by
  cases i with
  | unreachable | nop | return_ => rfl
  | br _ | call _ | const _ => rfl
  | brIf depth =>
    simp only [ofPlain, Plain.exec, bind_assoc]
    congr 1
    funext cond
    split <;> simp_all [Effect.flow]
  | brTable targets default => simp [ofPlain, Plain.exec, Effect.flow, Plain.tableDepth]
  | callIndirect type table =>
    have ht : type.toNat < m.types.size := h type table rfl
    simp [ofPlain, Plain.exec, ht, Effect.flow]
  | drop | localSet _ | localTee _ | globalSet _ | store _ _ =>
    simp [ofPlain, Plain.exec, Effect.flow]
  | select | localGet _ | globalGet _ | load _ _ | memorySize | memoryGrow | convert _ =>
    simp [ofPlain, Plain.exec, Plain.produce, Effect.flow]
  | intEqz _ | intUnary _ _ | floatUnary _ _ =>
    simp [ofPlain, Operation.unary, Plain.exec, Plain.produce, Effect.flow]
  | intCompare _ _ | floatCompare _ _ | floatBinary _ _ =>
    simp [ofPlain, Operation.binary, Plain.exec, Plain.produce, Effect.flow]
  | intBinary w op =>
    simp only [ofPlain, Operation.checked, Plain.exec, Plain.produce, Effect.flow, bind_assoc,
      pure_bind]
    congr 1
    funext b
    congr 1
    funext a
    cases op.eval a b <;> rfl

/-- Every type that an indirect call of the module names exists. -/
def Module.CallTypesExist (m : Module) : Prop :=
  ∀ func pc type table, m.instr? func pc = some (.plain (.callIndirect type table)) →
    type.toNat < m.types.size

/-- The same environment under one strategy or the other. -/
def Env.strategy (env : Env σ) (compile : Bool) : Env σ :=
  { env with config := { env.config with compile } }

-- ---------------------------------------------------------------------------
-- Twins
-- ---------------------------------------------------------------------------

def FrameCode.prepare (m : Module) : FrameCode → FrameCode
  | .body func => .prepared (m.prepare func)
  | .prepared ops => .prepared ops

/-- The frame with prepared code in place of its body. -/
def Frame.prepare (m : Module) (frame : Frame) : Frame :=
  { frame with code := frame.code.prepare m }

namespace Machine

variable {mod : Module} {m n : Machine σ}

/-- Every frame of `m` interprets a body and `n` runs what is prepared from it,
    at the same place. All else but the cache is equal. -/
def Twin (mod : Module) (m n : Machine σ) : Prop :=
  (∀ frame ∈ m.frames, ∃ func, frame.code = .body func) ∧
    ∃ cache, cache.Coherent mod ∧ n = m.graft (m.frames.map (Frame.prepare mod)) cache

/-- Twins but for the position of the innermost frame. -/
def Alike (mod : Module) (m n : Machine σ) : Prop := ∃ pc, (m.goto pc).Twin mod n

/-- Twins but for the position of the innermost frame, which is `pc` in `m`. -/
def AlikeAt (mod : Module) (pc : Nat) (m n : Machine σ) : Prop :=
  (∃ frame rest, m.frames = frame :: rest ∧ frame.pc = pc) ∧ m.Alike mod n

theorem Twin.alike (h : m.Twin mod n) : m.Alike mod n := by
  cases hm : m.frames with
  | nil => exact ⟨0, by rwa [goto_nil hm]⟩
  | cons frame rest => exact ⟨frame.pc, by rwa [goto_self hm]⟩

theorem Twin.goto (h : m.Twin mod n) (pc : Nat) : (m.goto pc).Twin mod (n.goto pc) := by
  obtain ⟨hbody, cache, hcache, rfl⟩ := h
  obtain ⟨shared, store, stack, frames, depth, origin⟩ := m
  refine ⟨?_, cache, hcache, ?_⟩
  · cases frames with
    | nil => exact hbody
    | cons frame rest => simpa [Machine.goto] using hbody
  · cases frames <;> rfl

theorem Alike.goto (h : m.Alike mod n) (pc : Nat) : (m.goto pc).Twin mod (n.goto pc) := by
  obtain ⟨q, h⟩ := h
  simpa using h.goto pc

theorem AlikeAt.goto {pc : Nat} (h : m.AlikeAt mod pc n) : m.Twin mod (n.goto pc) := by
  obtain ⟨⟨frame, rest, hframes, rfl⟩, h⟩ := h
  have hm := h.goto frame.pc
  rwa [goto_self hframes] at hm

theorem AlikeAt.ne_nil {pc : Nat} (h : m.AlikeAt mod pc n) : n.frames ≠ [] := by
  obtain ⟨⟨frame, rest, hframes, _⟩, q, _, cache, _, rfl⟩ := h
  simp [graft, Machine.goto, hframes]

end Machine

-- ---------------------------------------------------------------------------
-- Mirrored actions
-- ---------------------------------------------------------------------------

namespace Run

open Machine (Twin Alike AlikeAt)

/-- Both results are the same value or the same fault. The states are related
    by `Q` after a value and by `E` after a fault. -/
def Agree (Q E : Machine σ → Machine σ → Prop) :
    EStateM.Result Fault (Machine σ) α → EStateM.Result Fault (Machine σ) α → Prop
  | .ok x m, .ok y n => x = y ∧ Q m n
  | .error e m, .error e' n => e = e' ∧ E m n
  | _, _ => False

theorem Agree.cases {Q E : Machine σ → Machine σ → Prop}
    {r s : EStateM.Result Fault (Machine σ) α} (h : Agree Q E r s) :
    (∃ x m n, r = .ok x m ∧ s = .ok x n ∧ Q m n) ∨
      (∃ e m n, r = .error e m ∧ s = .error e n ∧ E m n) := by
  cases r with
  | ok x m =>
    cases s with
    | ok y n =>
      obtain ⟨rfl, hQ⟩ := h
      exact .inl ⟨x, m, n, rfl, rfl, hQ⟩
    | error e n => exact h.elim
  | error e m =>
    cases s with
    | ok y n => exact h.elim
    | error e' n =>
      obtain ⟨rfl, hE⟩ := h
      exact .inr ⟨e, m, n, rfl, rfl, hE⟩

/-- From states related by `P` the actions agree. They leave states related by
    `Q`, or alike if they fault. -/
def Mirrors (mod : Module) (P Q : Machine σ → Machine σ → Prop) (a b : Run σ α) : Prop :=
  ∀ m n, P m n → Agree Q (Alike mod) (a m) (b n)

variable {mod : Module} {P Q R : Machine σ → Machine σ → Prop}

theorem Mirrors.bind {a b : Run σ α} {f g : α → Run σ β} (h : Mirrors mod P Q a b)
    (hfg : ∀ x, Mirrors mod Q R (f x) (g x)) : Mirrors mod P R (a >>= f) (b >>= g) := by
  intro m n hmn
  simp only [bind_apply]
  rcases (h m n hmn).cases with ⟨x, m', n', ha, hb, hQ⟩ | ⟨e, m', n', ha, hb, hE⟩
  · rw [ha, hb]
    exact hfg x m' n' hQ
  · rw [ha, hb]
    exact ⟨rfl, hE⟩

/-- The left action stops while the right one goes on. -/
theorem Mirrors.bind_right {a b : Run σ α} {g : α → Run σ α} (h : Mirrors mod P Q a b)
    (hg : ∀ x, Mirrors mod Q R (pure x) (g x)) : Mirrors mod P R a (b >>= g) := by
  have := h.bind hg
  rwa [bind_pure] at this

/-- The right action waits for the left one. -/
theorem Mirrors.after_left {a : Run σ Unit} {b c : Run σ α} (h : Mirrors mod P Q a (pure ()))
    (hbc : Mirrors mod Q R b c) : Mirrors mod P R (a >>= fun _ => b) c := by
  have := h.bind fun _ => hbc
  rwa [pure_bind] at this

/-- The left action waits for the right one. -/
theorem Mirrors.after_right {a : Run σ Unit} {b c : Run σ α} (h : Mirrors mod P Q (pure ()) a)
    (hbc : Mirrors mod Q R b c) : Mirrors mod P R b (a >>= fun _ => c) := by
  have := h.bind fun _ => hbc
  rwa [pure_bind] at this

theorem Mirrors.weaken {P' : Machine σ → Machine σ → Prop} {a b : Run σ α}
    (h : Mirrors mod P Q a b) (hP : ∀ m n, P' m n → P m n) : Mirrors mod P' Q a b :=
  fun m n hmn => h m n (hP m n hmn)

/-- An action that does not see frames runs the same in twins, and leaves
    twins even when it faults. -/
theorem Frameless.agree {a : Run σ α} (ha : Frameless a) {m n : Machine σ} (h : m.Twin mod n) :
    Agree (Twin mod) (Twin mod) (a m) (a n) := by
  obtain ⟨hbody, cache, hcache, rfl⟩ := h
  have hm := ha.graft_eq m
  rw [ha m]
  cases ham : a m with
  | ok x m' =>
    rw [ham] at hm
    injection hm with _ hm
    refine ⟨rfl, ?_, cache, hcache, ?_⟩
    · rw [hm]; exact hbody
    · rw [hm]; rfl
  | error e m' =>
    rw [ham] at hm
    injection hm with _ hm
    refine ⟨rfl, ?_, cache, hcache, ?_⟩
    · rw [hm]; exact hbody
    · rw [hm]; rfl

theorem Frameless.mirrors {a : Run σ α} (ha : Frameless a) :
    Mirrors mod (Twin mod) (Twin mod) a a := by
  intro m n h
  rcases (ha.agree h).cases with ⟨x, m', n', hm, hn, hQ⟩ | ⟨e, m', n', hm, hn, hE⟩
  · rw [hm, hn]
    exact ⟨rfl, hQ⟩
  · rw [hm, hn]
    exact ⟨rfl, hE.alike⟩

-- ---------------------------------------------------------------------------
-- Frames
-- ---------------------------------------------------------------------------

theorem Mirrors.goto (pc : Nat) :
    Mirrors mod (Alike mod) (Twin mod) (goto pc : Run σ Unit) (goto pc) := by
  intro m n h
  simp only [goto_apply]
  exact ⟨rfl, h.goto pc⟩

theorem Mirrors.goto_left (pc q : Nat) :
    Mirrors mod (AlikeAt mod q) (AlikeAt mod pc) (Run.goto pc : Run σ Unit) (pure ()) := by
  rintro m n ⟨⟨frame, rest, hframes, _⟩, p, h⟩
  simp only [goto_apply]
  refine ⟨rfl, ⟨{ frame with pc }, rest, ?_, rfl⟩, p, ?_⟩
  · rw [Machine.goto_cons hframes]
  · rwa [Machine.goto_goto]

theorem Mirrors.goto_right (pc : Nat) :
    Mirrors mod (AlikeAt mod pc) (Twin mod) (pure ()) (Run.goto pc : Run σ Unit) := by
  intro m n h
  simp only [goto_apply]
  exact ⟨rfl, h.goto⟩

theorem Mirrors.leave : Mirrors mod (Alike mod) (Twin mod) (leave : Run σ Unit) leave := by
  rintro m n ⟨q, hbody, cache, hcache, rfl⟩
  obtain ⟨shared, store, stack, frames, depth, origin⟩ := m
  cases frames with
  | nil => exact ⟨rfl, q, hbody, cache, hcache, rfl⟩
  | cons frame rest =>
    have hrest : ∀ f ∈ rest, ∃ func, f.code = .body func := fun f hf =>
      hbody f (by simp [Machine.goto, hf])
    simp only [Run.leave, bind_apply, get_apply, Machine.graft, Machine.goto,
      List.modifyHead_cons, List.map_cons, Frame.prepare, set_apply]
    cases Exec.unwound stack frame.height frame.arity with
    | ok stack => exact ⟨rfl, hrest, cache, hcache, rfl⟩
    | error t => exact ⟨rfl, Twin.alike ⟨hrest, cache, hcache, rfl⟩⟩

theorem Mirrors.inFrame (a : Exec α) (pc : Nat) :
    Mirrors mod (AlikeAt mod pc) (AlikeAt mod pc) (inFrame a : Run σ α) (inFrame a) := by
  rintro m n ⟨⟨frame, rest, hframes, hpc⟩, q, hbody, cache, hcache, rfl⟩
  obtain ⟨shared, store, stack, frames, depth, origin⟩ := m
  subst hframes
  simp only [Run.inFrame, Machine.graft, Machine.goto, List.modifyHead_cons, List.map_cons,
    Machine.context, Frame.prepare]
  cases a { stack, locals := frame.locals, labels := frame.labels, store } with
  | ok x c =>
    refine ⟨rfl, ⟨_, rest, rfl, hpc⟩, q, ?_, cache, hcache, rfl⟩
    simpa [Machine.goto, Machine.resume] using hbody
  | error e c =>
    refine ⟨rfl, q, ?_, cache, hcache, rfl⟩
    simpa [Machine.goto, Machine.resume] using hbody

/-- Actions in one frame can be run one after the other. -/
theorem inFrame_bind (a : Exec α) (f : α → Exec β) :
    (inFrame (a >>= f) : Run σ β) = inFrame a >>= fun x => inFrame (f x) := by
  funext m
  simp only [bind_apply, inFrame]
  cases m.frames with
  | nil => rfl
  | cons frame rest =>
    simp only [bind, EStateM.bind]
    cases a (m.context frame) <;> rfl

theorem inFrame_pure_bind {m : Machine σ} (h : m.frames ≠ []) (x : α) (f : α → Run σ β) :
    (inFrame (pure x) >>= f) m = f x m := by
  obtain ⟨shared, store, stack, frames, depth, origin⟩ := m
  cases frames with
  | nil => exact absurd rfl h
  | cons frame rest => rfl

theorem Mirrors.inFrame_pure {pc : Nat} {x : α} {a : Run σ β} {f : α → Run σ β}
    (h : Mirrors mod (AlikeAt mod pc) Q a (f x)) :
    Mirrors mod (AlikeAt mod pc) Q a (Run.inFrame (pure x) >>= f) := by
  intro m n hmn
  rw [inFrame_pure_bind hmn.ne_nil]
  exact h m n hmn

-- ---------------------------------------------------------------------------
-- Calls
-- ---------------------------------------------------------------------------

theorem Mirrors.enter (env : Env σ) (func : UInt32) (type : FuncType) (code : Nat) :
    Mirrors env.module (Twin env.module) (Twin env.module)
      (enter (env.strategy false) func type code) (enter (env.strategy true) func type code) := by
  refine Mirrors.bind ((Frameless.takeLocals env type code).blaming func).mirrors fun locals => ?_
  rintro m n ⟨hbody, cache, hcache, rfl⟩
  have hfetch := hcache.fetch_fst code
  refine ⟨rfl, ?_, (cache.fetch env.module code).2, hcache.fetch_snd code, ?_⟩
  · intro frame hframe
    rcases List.mem_cons.mp hframe with rfl | hframe
    · exact ⟨code, rfl⟩
    · exact hbody frame hframe
  · simp only [Machine.graft, List.map_cons, Frame.prepare, FrameCode.prepare, ← hfetch]
    rfl

theorem Mirrors.call (env : Env σ) (func : UInt32) :
    Mirrors env.module (Twin env.module) (Twin env.module)
      (call (env.strategy false) func) (call (env.strategy true) func) := by
  intro m n h
  have hstore : n.store = m.store := by
    obtain ⟨_, cache, _, rfl⟩ := h
    rfl
  simp only [Run.call, bind_apply, get_apply, hstore]
  cases m.store.funcs[func.toNat]? with
  | none => exact ⟨rfl, h.alike⟩
  | some f =>
    cases f with
    | host type module name slot =>
      exact (Frameless.callHost env func type module name slot).mirrors m n h
    | defined type code => exact Mirrors.enter env func type code m n h

-- ---------------------------------------------------------------------------
-- Instructions
-- ---------------------------------------------------------------------------

/-- Goes on after an operation at position `pc`. -/
def follow (env : Env σ) (pc : Nat) : Flow → Run σ Unit
  | .next => goto (pc + 1)
  | .jump target => goto target
  | .call func => do
    goto (pc + 1)
    call env func
  | .return_ => leave

theorem stepPrepared_some (env : Env σ) {ops : Prepared} {pc : Nat} {op : Operation}
    (h : ops[pc]? = some op) : stepPrepared env ops pc = inFrame op >>= follow env pc := by
  simp only [stepPrepared, h]
  rfl

/-- Going back to a loop moves first and pays after it in the one, and pays
    first in the other; a frame that cannot pay is blamed in both. -/
theorem Mirrors.branch (env : Env σ) (depth : UInt32) (pc q : Nat) :
    Mirrors mod (AlikeAt mod q) (Twin mod) (branch depth)
      (Run.inFrame (Operation.goto depth) >>= follow env pc) := by
  simp only [Run.branch, Operation.goto, inFrame_bind, bind_assoc]
  refine Mirrors.bind (Mirrors.inFrame _ q) fun target => ?_
  cases target with
  | jump target =>
    refine Mirrors.inFrame_pure ?_
    exact (Mirrors.goto target).weaken fun _ _ h => h.2
  | again target =>
    simp only [inFrame_bind, bind_assoc]
    refine (Mirrors.goto_left target q).after_left ?_
    refine (Mirrors.inFrame Exec.burn target).bind_right fun _ => ?_
    exact Mirrors.inFrame_pure (Mirrors.goto_right target)
  | leave =>
    refine Mirrors.inFrame_pure ?_
    exact Mirrors.leave.weaken fun _ _ h => h.2

theorem Mirrors.perform (env : Env σ) (effect : Effect) (pc : Nat) :
    Mirrors env.module (AlikeAt env.module (pc + 1)) (Twin env.module)
      (perform (env.strategy false) effect)
      (Run.inFrame effect.flow >>= follow (env.strategy true) pc) := by
  cases effect with
  | next => exact Mirrors.inFrame_pure (Mirrors.goto_right (pc + 1))
  | branch depth => exact Mirrors.branch (env.strategy true) depth pc (pc + 1)
  | call func =>
    refine Mirrors.inFrame_pure ?_
    exact (Mirrors.goto_right (pc + 1)).after_right (Mirrors.call env func)
  | return_ =>
    refine Mirrors.inFrame_pure ?_
    exact Mirrors.leave.weaken fun _ _ h => h.2

/-- One case for each form of instruction. The interpreter stands behind the
    instruction, the other machine anywhere. -/
theorem Mirrors.interpret (env : Env σ) {i : Instr} (pc : Nat)
    (hi : ∀ type table, i = .plain (.callIndirect type table) →
      type.toNat < env.module.types.size) :
    Mirrors env.module (AlikeAt env.module (pc + 1)) (Twin env.module)
      (interpret (env.strategy false) pc i)
      (Run.inFrame (Operation.ofInstr env.module pc i) >>= follow (env.strategy true) pc) := by
  cases i with
  | plain i =>
    have hplain : Operation.ofPlain env.module i = i.exec env.module.types >>= Effect.flow :=
      Operation.ofPlain_eq fun type table h => hi type table (congrArg Instr.plain h)
    rw [Run.interpret, Operation.ofInstr, hplain, inFrame_bind, bind_assoc]
    exact Mirrors.bind (Mirrors.inFrame _ (pc + 1)) fun effect => Mirrors.perform env effect pc
  | block type stop =>
    simp only [Run.interpret, Operation.ofInstr, inFrame_bind, bind_assoc]
    refine (Mirrors.inFrame _ (pc + 1)).bind_right fun _ => ?_
    exact Mirrors.inFrame_pure (Mirrors.goto_right (pc + 1))
  | loop type =>
    simp only [Run.interpret, Operation.ofInstr, inFrame_bind, bind_assoc]
    refine (Mirrors.inFrame _ (pc + 1)).bind_right fun _ => ?_
    exact Mirrors.inFrame_pure (Mirrors.goto_right (pc + 1))
  | if_ type otherwise stop =>
    simp only [Run.interpret, Operation.ofInstr, inFrame_bind, bind_assoc]
    refine Mirrors.bind (Mirrors.inFrame _ (pc + 1)) fun cond => ?_
    refine Mirrors.bind (Mirrors.inFrame _ (pc + 1)) fun _ => Mirrors.inFrame_pure ?_
    by_cases hcond : cond = 0
    · rw [if_pos hcond, if_neg (not_not_intro hcond)]
      exact (Mirrors.goto _).weaken fun _ _ h => h.2
    · rw [if_neg hcond, if_pos hcond]
      exact Mirrors.goto_right (pc + 1)
  | else_ stop =>
    refine Mirrors.inFrame_pure ?_
    exact (Mirrors.goto stop).weaken fun _ _ h => h.2
  | end_ =>
    simp only [Run.interpret, Operation.ofInstr, inFrame_bind, bind_assoc]
    refine Mirrors.bind (Mirrors.inFrame _ (pc + 1)) fun closed => ?_
    cases closed with
    | true => exact Mirrors.inFrame_pure (Mirrors.goto_right (pc + 1))
    | false =>
      refine Mirrors.inFrame_pure ?_
      exact Mirrors.leave.weaken fun _ _ h => h.2

-- ---------------------------------------------------------------------------
-- Steps and runs
-- ---------------------------------------------------------------------------

theorem Mirrors.stepBody (env : Env σ) (henv : env.module.CallTypesExist) (func pc : Nat) :
    Mirrors env.module (AlikeAt env.module pc) (Twin env.module)
      (stepBody (env.strategy false) func pc)
      (stepPrepared (env.strategy true) (env.module.prepare func) pc) := by
  have hget := env.module.getElem?_prepare func pc
  cases hi : env.module.instr? func pc with
  | none =>
    rw [hi] at hget
    simp only [Run.stepBody, Env.strategy, hi, stepPrepared, hget, Option.map_none]
    exact Mirrors.leave.weaken fun _ _ h => h.2
  | some i =>
    rw [hi] at hget
    rw [stepPrepared_some (env.strategy true) hget]
    simp only [Run.stepBody, Env.strategy, hi]
    refine (Mirrors.goto_left (pc + 1) pc).after_left ?_
    exact Mirrors.interpret env pc fun type table h => henv func pc type table (by rw [hi, h])

theorem Mirrors.step (env : Env σ) (henv : env.module.CallTypesExist) :
    Mirrors env.module (Twin env.module) (Twin env.module)
      (step (env.strategy false)) (step (env.strategy true)) := by
  intro m n h
  have hmn := h
  obtain ⟨hbody, cache, _, rfl⟩ := hmn
  cases hframes : m.frames with
  | nil =>
    rw [step_nil hframes, step_nil (by simp [Machine.graft])]
    exact ⟨rfl, hframes ▸ h⟩
  | cons frame rest =>
    obtain ⟨func, hcode⟩ := hbody frame (by simp [hframes])
    rw [hframes] at h
    have hprepared : (frame.prepare env.module).code = .prepared (env.module.prepare func) := by
      simp only [Frame.prepare, hcode, FrameCode.prepare]
    rw [step_body hframes hcode, step_prepared rfl hprepared]
    exact Mirrors.stepBody env henv func frame.pc _ _ ⟨⟨frame, rest, hframes, rfl⟩, h.alike⟩

/-- The runs end together: after the same number of steps either both are
    unfinished, or both return or fault. -/
theorem Mirrors.steps (env : Env σ) (henv : env.module.CallTypesExist) (budget : Nat) :
    Mirrors env.module (Twin env.module) (Twin env.module)
      (steps (env.strategy false) budget) (steps (env.strategy true) budget) := by
  induction budget with
  | zero =>
    intro m n h
    have hempty : n.frames.isEmpty = m.frames.isEmpty := by
      obtain ⟨_, cache, _, rfl⟩ := h
      simp [Machine.graft]
    simp only [Run.steps, bind_apply, get_apply, hempty]
    split
    · exact ⟨rfl, h⟩
    · exact ⟨rfl, h.alike⟩
  | succ budget ih =>
    intro m n h
    have hempty : n.frames.isEmpty = m.frames.isEmpty := by
      obtain ⟨_, cache, _, rfl⟩ := h
      simp [Machine.graft]
    simp only [Run.steps, bind_apply, get_apply, hempty]
    split
    · exact ⟨rfl, h⟩
    · exact (Mirrors.step env henv).bind (fun _ => ih) m n h

end Run

end Wasm
