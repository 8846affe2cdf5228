import Wasm.Proofs.Strategy.Simulation

/-!
# What steps are made of

A step is put together from few actions: one in the innermost frame, moving
its position, leaving it, and calling a function. A property of actions that
holds of these, and of one action after another, holds of every step. What
happens in a frame is put together in the same way, from the accesses to
operands, variables, blocks and the store. Of assignments to globals only those
count that the module has.
-/

namespace Wasm

variable {σ : Type}

/-- The globals that code of the module assigns are among these. -/
def Module.Assigns (m : Module) (among : UInt32 → Prop) : Prop :=
  ∀ func pc index, m.instr? func pc = some (.plain (.globalSet index)) → among index

theorem Module.assigns_any (m : Module) : m.Assigns fun _ => True := fun _ _ _ _ => trivial

/-- The property holds of whatever an instruction of a body does in its frame,
    if it assigns one of these globals or none. -/
structure Exec.Covers (types : Array FuncType) (among : UInt32 → Prop)
    (E : ∀ {α : Type}, Exec α → Prop) : Prop where
  plain : ∀ i : Plain, (∀ index, i = .globalSet index → among index) → E (i.exec types)
  enter : ∀ kind target arity, E (Exec.enter kind target arity)
  popInt : E (Exec.popInt .w32)
  branch : ∀ depth, E (Exec.branch depth)
  close : E Exec.close
  burn : E Exec.burn

theorem Exec.covers_true (types : Array FuncType) (among : UInt32 → Prop) :
    Covers types among fun _ => True :=
  ⟨fun _ _ => trivial, fun _ _ _ => trivial, trivial, fun _ => trivial, trivial, trivial⟩

namespace Exec

/-- The property holds of each single access to a context, and carries over to
    what is put together from them. Assigned are these globals only. -/
structure Basis (among : UInt32 → Prop) (E : ∀ {α : Type}, Exec α → Prop) : Prop where
  pure : ∀ {α : Type} (x : α), E (pure x : Exec α)
  bind : ∀ {α β : Type} {a : Exec α} {f : α → Exec β}, E a → (∀ x, E (f x)) → E (a >>= f)
  throw : ∀ {α : Type} (e : Fault), E (throw e : Exec α)
  push : ∀ v, E (push v)
  pop : E pop
  top : E top
  enter : ∀ kind target arity, E (enter kind target arity)
  branch : ∀ depth, E (branch depth)
  close : E close
  localGet : ∀ index, E (localGet index)
  localSet : ∀ index v, E (localSet index v)
  globalGet : ∀ index, E (globalGet index)
  globalSet : ∀ index v, among index → E (globalSet index v)
  load : ∀ kind address, E (load kind address)
  store : ∀ kind address v, E (store kind address v)
  memorySize : E memorySize
  memoryGrow : ∀ delta, E (memoryGrow delta)
  resolve : ∀ table slot expected, E (resolve table slot expected)
  burn : E burn

namespace Basis

variable {α : Type} {among : UInt32 → Prop} {E : ∀ {α : Type}, Exec α → Prop}

theorem ofExcept (h : Basis among E) (r : Except Trap α) : E (ofExcept r) := by
  cases r with
  | ok x => exact h.pure x
  | error t => exact h.throw _

theorem popInt (h : Basis among E) (w : Width) : E (popInt w) :=
  h.bind h.pop fun v => h.ofExcept (v.toInt w)

theorem popFloat (h : Basis among E) (w : Width) : E (popFloat w) :=
  h.bind h.pop fun v => h.ofExcept (v.toFloat w)

theorem produce (h : Basis among E) {value : Exec Value} (hvalue : E value) :
    E (Plain.produce value) :=
  h.bind hvalue fun v => h.bind (h.push v) fun _ => h.pure _

theorem plain (h : Basis among E) (types : Array FuncType) (i : Plain)
    (hi : ∀ index, i = .globalSet index → among index) : E (i.exec types) := by
  cases i with
  | unreachable => exact h.throw _
  | nop | br _ | return_ | call _ => exact h.pure _
  | brIf depth =>
    apply h.bind (h.popInt .w32)
    intro cond
    split <;> exact h.pure _
  | brTable targets default => exact h.bind (h.popInt .w32) fun _ => h.pure _
  | callIndirect type table =>
    apply h.bind (h.popInt .w32)
    intro slot
    split
    · exact h.bind (h.resolve _ _ _) fun _ => h.pure _
    · exact h.throw _
  | drop => exact h.bind h.pop fun _ => h.pure _
  | select =>
    apply h.produce
    apply h.bind (h.popInt .w32)
    intro cond
    exact h.bind h.pop fun b => h.bind h.pop fun a => h.ofExcept _
  | localGet index => exact h.produce (h.localGet index)
  | localSet index => exact h.bind h.pop fun v => h.bind (h.localSet index v) fun _ => h.pure _
  | localTee index => exact h.bind h.top fun v => h.bind (h.localSet index v) fun _ => h.pure _
  | globalGet index => exact h.produce (h.globalGet index)
  | globalSet index =>
    apply h.bind h.pop
    intro v
    exact h.bind (h.globalSet index v (hi index rfl)) fun _ => h.pure _
  | load kind arg => exact h.produce (h.bind (h.popInt .w32) fun _ => h.load _ _)
  | store kind arg =>
    apply h.bind h.pop
    intro v
    exact h.bind (h.popInt .w32) fun _ => h.bind (h.store _ _ _) fun _ => h.pure _
  | memorySize => exact h.produce (h.bind h.memorySize fun _ => h.pure _)
  | memoryGrow =>
    apply h.produce
    exact h.bind (h.popInt .w32) fun delta => h.bind (h.memoryGrow delta) fun _ => h.pure _
  | const v => exact h.produce (h.pure v)
  | intEqz w | intUnary w _ => exact h.produce (h.bind (h.popInt w) fun _ => h.pure _)
  | floatUnary w _ => exact h.produce (h.bind (h.popFloat w) fun _ => h.pure _)
  | intCompare w _ =>
    exact h.produce (h.bind (h.popInt w) fun _ => h.bind (h.popInt w) fun _ => h.pure _)
  | intBinary w op =>
    apply h.produce
    apply h.bind (h.popInt w)
    intro b
    exact h.bind (h.popInt w) fun a => h.bind (h.ofExcept _) fun _ => h.pure _
  | floatCompare w _ | floatBinary w _ =>
    exact h.produce (h.bind (h.popFloat w) fun _ => h.bind (h.popFloat w) fun _ => h.pure _)
  | convert op => exact h.produce (h.bind h.pop fun v => h.ofExcept _)

theorem covers (h : Basis among E) (types : Array FuncType) : Covers types among E where
  plain := h.plain types
  enter := h.enter
  popInt := h.popInt .w32
  branch := h.branch
  close := h.close
  burn := h.burn

theorem goto (h : Basis among E) (depth : UInt32) : E (Operation.goto depth) := by
  apply h.bind (h.branch depth.toNat)
  intro target
  cases target with
  | jump pc => exact h.pure _
  | again pc => exact h.bind h.burn fun _ => h.pure _
  | leave => exact h.pure _

/-- An indirect call is the one operation that is not its instruction followed
    by a flow. -/
theorem ofPlain (h : Basis among E) (m : Module) (i : Plain)
    (hi : ∀ index, i = .globalSet index → among index) : E (Operation.ofPlain m i) := by
  by_cases hindirect : ∃ type table, i = .callIndirect type table
  · obtain ⟨type, table, rfl⟩ := hindirect
    apply h.bind (h.popInt .w32)
    intro slot
    exact h.bind (h.resolve _ _ _) fun _ => h.pure _
  · rw [Operation.ofPlain_eq fun type table hi => absurd ⟨type, table, hi⟩ hindirect]
    apply h.bind (h.plain m.types i hi)
    intro effect
    cases effect with
    | branch depth => exact h.goto depth
    | next | call func | return_ => exact h.pure _

theorem ofInstr (h : Basis among E) (m : Module) (pc : Nat) (i : Instr)
    (hi : ∀ index, i = .plain (.globalSet index) → among index) :
    E (Operation.ofInstr m pc i) := by
  cases i with
  | plain i => exact h.ofPlain m i fun index heq => hi index (congrArg Instr.plain heq)
  | block type stop => exact h.bind (h.enter _ _ _) fun _ => h.pure _
  | loop type => exact h.bind (h.enter _ _ _) fun _ => h.pure _
  | if_ type otherwise stop =>
    exact h.bind (h.popInt .w32) fun _ => h.bind (h.enter _ _ _) fun _ => h.pure _
  | else_ stop => exact h.pure _
  | end_ =>
    apply h.bind h.close
    intro closed
    split <;> exact h.pure _

theorem prepare (h : Basis among E) {m : Module} (hm : m.Assigns among) (func : Nat) :
    ∀ op ∈ m.prepare func, E op := by
  intro op hop
  obtain ⟨pc, hpc, rfl⟩ := Array.mem_iff_getElem.mp hop
  have hget := m.getElem?_prepare func pc
  rw [Array.getElem?_eq_getElem hpc] at hget
  obtain ⟨i, hi, hop⟩ := Option.map_eq_some_iff.mp hget.symm
  rw [← hop]
  exact h.ofInstr m pc i fun index heq => hm func pc index (heq ▸ hi)

end Basis

end Exec

namespace Run

/-- The property carries over from what is done in a frame to whatever is put
    together from that. -/
structure Closed (E : ∀ {α : Type}, Exec α → Prop) (P : ∀ {α : Type}, Run σ α → Prop) : Prop where
  pure : ∀ {α : Type} (x : α), P (pure x : Run σ α)
  bind : ∀ {α β : Type} {a : Run σ α} {f : α → Run σ β}, P a → (∀ x, P (f x)) → P (a >>= f)
  inFrame : ∀ {α : Type} {a : Exec α}, E a → P (inFrame a : Run σ α)
  goto : ∀ pc, P (goto pc : Run σ Unit)
  leave : P (leave : Run σ Unit)

namespace Closed

variable {among : UInt32 → Prop} {E : ∀ {α : Type}, Exec α → Prop}
  {P : ∀ {α : Type}, Run σ α → Prop} {env : Env σ}

theorem branch (h : Closed E P) (hE : Exec.Covers env.module.types among E) (depth : UInt32) :
    P (branch depth : Run σ Unit) := by
  apply h.bind (h.inFrame (hE.branch depth.toNat))
  intro target
  cases target with
  | jump pc => exact h.goto pc
  | again pc => exact h.bind (h.goto pc) fun _ => h.inFrame hE.burn
  | leave => exact h.leave

theorem perform (h : Closed E P) (hE : Exec.Covers env.module.types among E)
    (hcall : ∀ func, P (call env func)) (effect : Effect) : P (perform env effect) := by
  cases effect with
  | next => exact h.pure ()
  | branch depth => exact h.branch hE depth
  | call func => exact hcall func
  | return_ => exact h.leave

theorem interpret (h : Closed E P) (hE : Exec.Covers env.module.types among E)
    (hcall : ∀ func, P (call env func)) (pc : Nat) (i : Instr)
    (hi : ∀ index, i = .plain (.globalSet index) → among index) : P (interpret env pc i) := by
  cases i with
  | plain i =>
    have hplain := hE.plain i fun index heq => hi index (congrArg Instr.plain heq)
    exact h.bind (h.inFrame hplain) fun effect => h.perform hE hcall effect
  | block type stop => exact h.inFrame (hE.enter _ _ _)
  | loop type => exact h.inFrame (hE.enter _ _ _)
  | if_ type otherwise stop =>
    apply h.bind (h.inFrame hE.popInt)
    intro cond
    apply h.bind (h.inFrame (hE.enter _ _ _))
    intro _
    split
    · exact h.goto _
    · exact h.pure ()
  | else_ stop => exact h.goto stop
  | end_ =>
    apply h.bind (h.inFrame hE.close)
    intro closed
    split
    · exact h.leave
    · exact h.pure ()

theorem stepBody (h : Closed E P) (hE : Exec.Covers env.module.types among E)
    (hm : env.module.Assigns among) (hcall : ∀ func, P (call env func)) (func pc : Nat) :
    P (stepBody env func pc) := by
  unfold Run.stepBody
  split
  · exact h.leave
  · rename_i i hi
    apply h.bind (h.goto _)
    intro _
    exact h.interpret hE hcall pc i fun index heq => hm func pc index (heq ▸ hi)

theorem follow (h : Closed E P) (hcall : ∀ func, P (call env func)) (pc : Nat) (flow : Flow) :
    P (follow env pc flow) := by
  cases flow with
  | next => exact h.goto _
  | jump target => exact h.goto target
  | call func => exact h.bind (h.goto _) fun _ => hcall func
  | return_ => exact h.leave

theorem stepPrepared (h : Closed E P) (hcall : ∀ func, P (call env func)) {ops : Prepared}
    (hops : ∀ op ∈ ops, E op) (pc : Nat) : P (stepPrepared env ops pc) := by
  cases hop : ops[pc]? with
  | none =>
    unfold Run.stepPrepared
    rw [hop]
    exact h.leave
  | some op =>
    rw [stepPrepared_some env hop]
    exact h.bind (h.inFrame (hops op (Array.mem_of_getElem? hop))) fun flow =>
      h.follow hcall pc flow

/-- A step is an action with the property, if the prepared code at hand is made
    of such. -/
theorem step (h : Closed E P) (hE : Exec.Covers env.module.types among E)
    (hm : env.module.Assigns among) (hcall : ∀ func, P (call env func)) {m : Machine σ}
    (hops : ∀ frame ∈ m.frames, ∀ ops, frame.code = .prepared ops → ∀ op ∈ ops, E op) :
    ∃ a : Run σ Unit, P a ∧ ∀ cache, step env { m with cache } = a { m with cache } := by
  cases hframes : m.frames with
  | nil =>
    refine ⟨Pure.pure (), h.pure (), fun cache => ?_⟩
    exact step_nil rfl
  | cons frame rest =>
    cases hcode : frame.code with
    | body func =>
      refine ⟨_, h.stepBody hE hm hcall func frame.pc, fun cache => ?_⟩
      exact step_body rfl hcode
    | prepared ops =>
      have hframe := hops frame (hframes ▸ List.mem_cons_self) ops hcode
      refine ⟨_, h.stepPrepared hcall hframe frame.pc, fun cache => ?_⟩
      exact step_prepared rfl hcode

end Closed

end Run

end Wasm
