import Wasm.Proofs.Machine.Confined
import Wasm.Proofs.Machine.Outline
import Wasm.Proofs.Strategy.Simulation

/-!
# What limits do to a step

Two limits bear on a step. A call needs room below the depth limit, and a step
that goes back to the start of a loop pays one unit of fuel. All other steps
run the same whatever the fuel is, and a higher depth limit changes a step only
where the lower one stops it.
-/

namespace Wasm

variable {σ α β : Type}

-- ---------------------------------------------------------------------------
-- Other limits
-- ---------------------------------------------------------------------------

def Context.withFuel (c : Context) (fuel : Option Nat) : Context := { c with store.fuel := fuel }

def Machine.withFuel (m : Machine σ) (fuel : Option Nat) : Machine σ :=
  { m with store.fuel := fuel }

/-- The same environment under another depth limit. -/
def Env.withDepth (env : Env σ) (maxCallDepth : Nat) : Env σ :=
  { env with config := { env.config with maxCallDepth } }

/-- The function neither reads nor changes the fuel. -/
def HostFunc.Unmetered (f : HostFunc σ) : Prop :=
  ∀ args s state fuel,
    f.call args { s with fuel } state =
      { f.call args s state with store := { (f.call args s state).store with fuel } }

theorem Machine.withFuel_self (m : Machine σ) : m.withFuel m.store.fuel = m := rfl

theorem Machine.withFuel_goto (m : Machine σ) (fuel : Option Nat) (pc : Nat) :
    (m.withFuel fuel).goto pc = (m.goto pc).withFuel fuel := rfl

theorem Machine.frames_goto (m : Machine σ) {frame : Frame} {rest : List Frame}
    (h : m.frames = frame :: rest) (pc : Nat) : (m.goto pc).frames = { frame with pc } :: rest := by
  rw [m.goto_cons h]

-- ---------------------------------------------------------------------------
-- Actions in a frame
-- ---------------------------------------------------------------------------

namespace Exec

/-- The action neither sees nor changes the fuel, and is not stopped by a
    limit. -/
structure Unmetered (a : Exec α) : Prop where
  withFuel : ∀ c fuel, a (c.withFuel fuel) = mapState (·.withFuel fuel) (a c)
  limitless : Unstopped a

namespace Unmetered

theorem of_confined {a : Exec α} (ha : a.Confined) : Unmetered a := by
  refine ⟨fun c fuel => ?_, ha.limitless⟩
  -- What is left of the blocks does not change either.
  have hrefit : a (c.withFuel fuel) = mapState (·.refit c.labels fuel) (a c) :=
    ha.refit c c.labels fuel
  have hlabels := (ha.kept c).1
  rw [hrefit]
  cases hresult : a c with
  | ok x c' =>
    rw [hresult] at hlabels
    simp only [mapState, Context.refit, Context.withFuel, ← hlabels, finalState]
  | error e c' =>
    rw [hresult] at hlabels
    simp only [mapState, Context.refit, Context.withFuel, ← hlabels, finalState]

theorem pure (x : α) : Unmetered (pure x : Exec α) := of_confined (.pure x)

theorem bind {a : Exec α} {f : α → Exec β} (ha : Unmetered a) (hf : ∀ x, Unmetered (f x)) :
    Unmetered (a >>= f) := by
  refine ⟨?_, ha.limitless.bind fun x => (hf x).limitless⟩
  intro c fuel
  rw [bind_apply, bind_apply, ha.withFuel c fuel]
  cases a c with
  | ok x c => exact (hf x).withFuel c fuel
  | error e c => rfl

theorem enter (kind : LabelKind) (target : Nat) (arity : Nat × Nat) :
    Unmetered (enter kind target arity) := by
  constructor
  · intro c fuel
    simp only [Exec.enter, bind_apply, get_apply, Context.withFuel]
    split <;> rfl
  · intro c e c' h
    simp only [Exec.enter, bind_apply, get_apply] at h
    split at h
    · cases h
      exact id
    · cases h

theorem unwind (height arity : Nat) : Unmetered (unwind height arity) := by
  constructor
  · intro c fuel
    simp only [unwind_apply, Context.withFuel]
    cases unwound c.stack height arity <;> rfl
  · intro c e c' h
    rw [unwind_apply] at h
    cases hunwound : unwound c.stack height arity with
    | ok stack =>
      rw [hunwound] at h
      cases h
    | error t =>
      rw [hunwound] at h
      cases h
      exact limitless_unwound _ _ _ t hunwound

theorem branch (depth : Nat) : Unmetered (branch depth) := by
  have hpast (height arity : Nat) (target : Target) : Unmetered do
      Exec.unwind height arity
      modify fun c => { c with labels := c.labels.drop (depth + 1) }
      return target := by
    refine (unwind _ _).bind fun _ => Unmetered.bind ⟨fun _ _ => rfl, ?_⟩ fun _ => .pure _
    intro c e c' h
    cases h
  constructor
  · intro c fuel
    simp only [Exec.branch, bind_apply, get_apply, Context.withFuel]
    cases c.labels[depth]? with
    | none => rfl
    | some label => exact (hpast label.height label.arity _).withFuel c fuel
  · intro c e c' h
    simp only [Exec.branch, bind_apply, get_apply] at h
    cases hlabel : c.labels[depth]? with
    | none =>
      rw [hlabel] at h
      cases h
    | some label =>
      rw [hlabel] at h
      exact (hpast label.height label.arity _).limitless h

theorem close : Unmetered close := by
  have hclose (label : Label) :
      Unmetered (Exec.unwind label.height label.results >>= fun _ => Pure.pure true) :=
    (unwind _ _).bind fun _ => .pure true
  constructor
  · rintro ⟨stack, locals, labels, store⟩ fuel
    cases labels with
    | nil => rfl
    | cons label rest => exact (hclose label).withFuel ⟨stack, locals, rest, store⟩ fuel
  · rintro ⟨stack, locals, labels, store⟩ e c' h
    cases labels with
    | nil => cases h
    | cons label rest =>
      have h' : (Exec.unwind label.height label.results >>= fun _ => Pure.pure true)
        ⟨stack, locals, rest, store⟩ = .error e c' := h
      exact (hclose label).limitless h'

/-- The operations of structured instructions. -/
theorem ofInstr {i : Instr} (hi : ∀ plain, i ≠ .plain plain) (m : Module) (pc : Nat) :
    Unmetered (Operation.ofInstr m pc i) := by
  cases i with
  | plain i => exact absurd rfl (hi i)
  | block type stop | loop type => exact (enter _ _ _).bind fun _ => .pure _
  | if_ type otherwise stop =>
    refine (of_confined (.popInt .w32)).bind fun cond => (enter _ _ _).bind fun _ => ?_
    split <;> exact .pure _
  | else_ stop => exact .pure _
  | end_ =>
    refine close.bind fun closed => ?_
    split <;> exact .pure _

end Unmetered

end Exec

-- ---------------------------------------------------------------------------
-- Even actions
-- ---------------------------------------------------------------------------

namespace Run

/-- From `m` on, `b` does with any fuel what `a` does, unless the depth limit
    stops `a`. Fuel does not stop it. -/
structure EvenAt (m : Machine σ) (a b : Run σ α) : Prop where
  ok : ∀ ⦃x n⦄, a m = .ok x n → ∀ fuel, b (m.withFuel fuel) = .ok x (n.withFuel fuel)
  error : ∀ ⦃e n⦄, a m = .error e n → e ≠ .trap .callStackExhausted →
    e ≠ .trap .outOfFuel ∧ ∀ fuel, b (m.withFuel fuel) = .error e (n.withFuel fuel)

abbrev Even (a b : Run σ α) : Prop := ∀ m, EvenAt m a b

variable {m : Machine σ} {a b : Run σ α} {f g : α → Run σ β}

theorem EvenAt.bind (ha : EvenAt m a b)
    (hf : ∀ x n, a m = .ok x n → EvenAt n (f x) (g x)) : EvenAt m (a >>= f) (b >>= g) := by
  cases hresult : a m with
  | ok x n =>
    have hn := hf x n hresult
    have hb (fuel : Option Nat) : (b >>= g) (m.withFuel fuel) = g x (n.withFuel fuel) :=
      bind_ok (ha.ok hresult fuel)
    constructor
    · intro y n' h fuel
      rw [bind_ok hresult] at h
      exact (hb fuel).trans (hn.ok h fuel)
    · intro e n' h he
      rw [bind_ok hresult] at h
      obtain ⟨hfuel, hg⟩ := hn.error h he
      exact ⟨hfuel, fun fuel => (hb fuel).trans (hg fuel)⟩
  | error e n =>
    constructor
    · intro y n' h
      rw [bind_error hresult] at h
      cases h
    · intro e' n' h he
      rw [bind_error hresult] at h
      cases h
      obtain ⟨hfuel, hb⟩ := ha.error hresult he
      exact ⟨hfuel, fun fuel => bind_error (hb fuel)⟩

theorem EvenAt.not_outOfFuel (h : EvenAt m a b) (n : Machine σ) :
    a m ≠ .error (.trap .outOfFuel) n :=
  fun hn => (h.error hn nofun).1 rfl

/-- The fuel stays as it is. -/
theorem EvenAt.kept (h : EvenAt m a a) {x : α} {n : Machine σ} (ha : a m = .ok x n) :
    n.store.fuel = m.store.fuel := by
  have hself : a m = .ok x (n.withFuel m.store.fuel) := h.ok ha m.store.fuel
  rw [ha] at hself
  have hn := congrArg (·.store.fuel) (EStateM.Result.ok.inj hself).2
  exact hn

theorem EvenAt.congr {a' b' : Run σ α} (h : EvenAt m a' b') (ha : a m = a' m)
    (hb : ∀ fuel, b (m.withFuel fuel) = b' (m.withFuel fuel)) : EvenAt m a b := by
  constructor
  · intro x n hn fuel
    exact (hb fuel).trans (h.ok (ha.symm.trans hn) fuel)
  · intro e n hn he
    obtain ⟨hfuel, hb'⟩ := h.error (ha.symm.trans hn) he
    exact ⟨hfuel, fun fuel => (hb fuel).trans (hb' fuel)⟩

theorem EvenAt.of_ok {x : α} {n : Machine σ} (ha : a m = .ok x n)
    (hb : ∀ fuel, b (m.withFuel fuel) = .ok x (n.withFuel fuel)) : EvenAt m a b := by
  constructor
  · intro y n' h fuel
    rw [ha] at h
    cases h
    exact hb fuel
  · intro e n' h
    rw [ha] at h
    cases h

theorem EvenAt.of_error {e : Fault} {n : Machine σ} (he : ¬ e.IsLimit) (ha : a m = .error e n)
    (hb : ∀ fuel, b (m.withFuel fuel) = .error e (n.withFuel fuel)) : EvenAt m a b := by
  constructor
  · intro x n' h
    rw [ha] at h
    cases h
  · intro e' n' h _
    rw [ha] at h
    cases h
    refine ⟨?_, hb⟩
    rintro rfl
    exact he trivial

theorem Even.pure (x : α) : Even (σ := σ) (pure x) (pure x) := fun _ => .of_ok rfl fun _ => rfl

theorem Even.throw {e : Fault} (h : ¬ e.IsLimit) : Even (throw e : Run σ α) (throw e) :=
  fun _ => .of_error h rfl fun _ => rfl

theorem Even.goto (pc : Nat) : Even (σ := σ) (goto pc) (goto pc) := by
  exact fun m => .of_ok (goto_apply m pc) fun fuel => goto_apply (m.withFuel fuel) pc

/-- An action in a frame, followed by what depends on its result. -/
theorem EvenAt.inFrame_bind {action : Exec α} (ha : action.Unmetered) {frame : Frame}
    {rest : List Frame} (hframes : m.frames = frame :: rest)
    (hf : ∀ x c, action (m.context frame) = .ok x c → EvenAt (m.resume frame rest c) (f x) (g x)) :
    EvenAt m (inFrame action >>= f) (inFrame action >>= g) := by
  have hframes' (fuel : Option Nat) : (m.withFuel fuel).frames = frame :: rest := hframes
  have hcontext (fuel : Option Nat) : action ((m.withFuel fuel).context frame) =
      mapState (·.withFuel fuel) (action (m.context frame)) := ha.withFuel (m.context frame) fuel
  cases hresult : action (m.context frame) with
  | ok x c =>
    have hm : inFrame action m = .ok x (m.resume frame rest c) := by
      simp only [inFrame, hframes, hresult]
    refine EvenAt.bind (.of_ok hm fun fuel => ?_) ?_
    · simp only [inFrame, hframes' fuel, hcontext fuel, hresult]
      rfl
    · intro y n hn
      rw [hm] at hn
      cases hn
      exact hf x c hresult
  | error e c =>
    have hm : inFrame action m = .error e (m.resume frame rest c) := by
      simp only [inFrame, hframes, hresult]
    refine EvenAt.bind (.of_error (ha.limitless hresult) hm fun fuel => ?_) ?_
    · simp only [inFrame, hframes' fuel, hcontext fuel, hresult]
      rfl
    · intro y n hn
      rw [hm] at hn
      cases hn

theorem Even.inFrame {action : Exec α} (ha : action.Unmetered) :
    Even (σ := σ) (inFrame action) (inFrame action) := by
  intro m
  cases hframes : m.frames with
  | nil =>
    have hresult (fuel : Option Nat) :
        Run.inFrame action (m.withFuel fuel) =
          .error (.trap .stackUnderflow) (m.withFuel fuel) := by
      have hframes' : (m.withFuel fuel).frames = [] := hframes
      simp only [Run.inFrame, hframes']
    exact .of_error id (hresult m.store.fuel) hresult
  | cons frame rest =>
    have hbind := EvenAt.inFrame_bind (f := Pure.pure) (g := Pure.pure) ha hframes
      fun x c _ => Even.pure x _
    rwa [bind_pure] at hbind

theorem Even.leave : Even (σ := σ) leave leave := by
  rintro ⟨shared, store, stack, frames, depth, origin⟩
  cases frames with
  | nil => exact .of_error id rfl fun _ => rfl
  | cons frame rest =>
    have hlimitless := Exec.limitless_unwound stack frame.height frame.arity
    cases hunwound : Exec.unwound stack frame.height frame.arity with
    | ok stack' =>
      have hleave (s : Store) : Run.leave ⟨shared, s, stack, frame :: rest, depth, origin⟩ =
          .ok () ⟨shared, s, stack', rest, depth - 1, origin⟩ := by
        simp only [Run.leave, bind_apply, get_apply, set_apply, ofExcept_apply, hunwound]
      exact .of_ok (hleave store) fun fuel => hleave { store with fuel }
    | error t =>
      have hleave (s : Store) : Run.leave ⟨shared, s, stack, frame :: rest, depth, origin⟩ =
          .error (.trap t) ⟨shared, s, stack, rest, depth - 1, origin⟩ := by
        simp only [Run.leave, bind_apply, get_apply, set_apply, ofExcept_apply, hunwound]
      exact .of_error (hlimitless t hunwound) (hleave store) fun fuel => hleave { store with fuel }

theorem Even.blaming {a b : Run σ α} (h : Even a b) (func : UInt32) :
    Even (blaming func a) (blaming func b) := by
  intro m
  cases hresult : a m with
  | ok x n =>
    exact .of_ok (blaming_ok hresult func) fun fuel => blaming_ok ((h m).ok hresult fuel) func
  | error e n =>
    have hblaming := blaming_error hresult func
    constructor
    · intro x n' hn'
      rw [hblaming] at hn'
      cases hn'
    · intro e' n' hn' he
      rw [hblaming] at hn'
      cases hn'
      obtain ⟨hfuel, hb⟩ := (h m).error hresult he
      exact ⟨hfuel, fun fuel => blaming_error (hb fuel) func⟩

-- ---------------------------------------------------------------------------
-- Calls
-- ---------------------------------------------------------------------------

variable {env : Env σ}

theorem Even.takeArgs (params : List ValueType) :
    Even (σ := σ) (takeArgs params) (takeArgs params) := by
  intro m
  have hlimitless := Value.limitless_checkTypes (m.stack.take params.length).reverse params
  by_cases hlength : m.stack.length < params.length
  · have htake (n : Machine σ) (hn : n.stack = m.stack) :
        Run.takeArgs params n = .error (.trap .stackUnderflow) n := by
      simp only [Run.takeArgs, bind_apply, get_apply, hn, hlength, if_true, trap_apply]
    exact .of_error id (htake m rfl) fun fuel => htake (m.withFuel fuel) rfl
  · cases htypes : Value.checkTypes (m.stack.take params.length).reverse params with
    | ok u =>
      have htake (n : Machine σ) (hn : n.stack = m.stack) :
          Run.takeArgs params n = .ok (m.stack.take params.length).reverse
            { n with stack := m.stack.drop params.length } := by
        simp only [Run.takeArgs, bind_apply, get_apply, hn, hlength, if_false, set_apply,
          ofExcept_apply, htypes, pure_apply]
      exact .of_ok (htake m rfl) fun fuel => htake (m.withFuel fuel) rfl
    | error t =>
      have htake (n : Machine σ) (hn : n.stack = m.stack) :
          Run.takeArgs params n =
            .error (.trap t) { n with stack := m.stack.drop params.length } := by
        simp only [Run.takeArgs, bind_apply, get_apply, hn, hlength, if_false, set_apply,
          ofExcept_apply, htypes]
      exact .of_error (hlimitless t htypes) (htake m rfl) fun fuel => htake (m.withFuel fuel) rfl

theorem limitless_checkReply (type : FuncType) (module name : String)
    (reply : Except String (List Value)) : Limitless (checkReply type module name reply) := by
  cases reply with
  | error message => exact .error id
  | ok results =>
    simp only [checkReply]
    split
    · exact (Value.limitless_checkTypes results type.results).bind fun _ => .ok _
    · exact .error id

theorem Even.callHost (hhosts : ∀ f ∈ env.hosts, f.Unmetered) (func : UInt32) (type : FuncType)
    (module name : String) (slot d : Nat) :
    Even (callHost env func type module name slot)
      (callHost (env.withDepth d) func type module name slot) := by
  refine Even.blaming ?_ func
  simp only [Env.withDepth]
  cases hslot : env.hosts[slot]? with
  | none => exact Even.throw id
  | some f =>
    have hf := hhosts f (Array.mem_of_getElem? hslot)
    refine fun m => (Even.takeArgs type.params m).bind fun args n _ => ?_
    let reply := f.call args n.store n.host
    let answered (stack : List Value) : Machine σ :=
      { n with host := reply.state, store := reply.store, stack }
    have hcall (fuel : Option Nat) : f.call args (n.withFuel fuel).store (n.withFuel fuel).host =
        { reply with store := { reply.store with fuel } } := hf args n.store n.host fuel
    cases hreply : checkReply type module name reply.result with
    | ok results =>
      refine .of_ok (x := ()) (n := answered (results.reverse ++ n.stack)) ?_ fun fuel => ?_
      · simp only [bind_apply, get_apply, set_apply, ofExcept_apply]
        rw [hreply]
      · simp only [bind_apply, get_apply, set_apply, ofExcept_apply, hcall, hreply]
        rfl
    | error t =>
      have ht := limitless_checkReply type module name reply.result t hreply
      refine .of_error (n := answered n.stack) ht ?_ fun fuel => ?_
      · simp only [bind_apply, get_apply, set_apply, ofExcept_apply]
        rw [hreply]
      · simp only [bind_apply, get_apply, set_apply, ofExcept_apply, hcall, hreply]
        rfl

/-- A higher limit leaves room wherever the lower one does. -/
theorem Even.takeLocals {d : Nat} (hd : env.config.maxCallDepth ≤ d) (type : FuncType)
    (code : Nat) : Even (takeLocals env type code) (takeLocals (env.withDepth d) type code) := by
  intro m
  let locals (args : List Value) : Array Value :=
    args.toArray ++ ((env.module.functions[code]?.map (·.locals)).getD #[]).map Value.zero
  by_cases hdepth : env.config.maxCallDepth ≤ m.depth
  · have hresult : Run.takeLocals env type code m = .error (.trap .callStackExhausted) m := by
      simp only [Run.takeLocals, bind_apply, get_apply, hdepth, if_true, trap_apply]
    constructor
    · intro x n hn
      rw [hresult] at hn
      cases hn
    · intro e n hn he
      rw [hresult] at hn
      cases hn
      exact absurd rfl he
  · have hdepth' : ¬ d ≤ m.depth := fun h => hdepth (Nat.le_trans hd h)
    refine ((Even.takeArgs type.params m).bind fun args n _ => Even.pure (locals args) n).congr
      ?_ fun fuel => ?_
    · simp only [Run.takeLocals, bind_apply, get_apply, hdepth, if_false]
      rfl
    · have hroom : ¬ (env.withDepth d).config.maxCallDepth ≤ (m.withFuel fuel).depth := hdepth'
      simp only [Run.takeLocals, bind_apply, get_apply, if_neg hroom]
      rfl

theorem Even.frameCode (d code : Nat) :
    Even (frameCode env code) (frameCode (env.withDepth d) code) := by
  intro m
  cases hcompile : env.config.compile with
  | true =>
    simp only [Run.frameCode, Env.withDepth, hcompile, if_true]
    exact .of_ok rfl fun fuel => rfl
  | false =>
    simp only [Run.frameCode, Env.withDepth, hcompile]
    exact Even.pure _ m

theorem Even.enter {d : Nat} (hd : env.config.maxCallDepth ≤ d) (func : UInt32) (type : FuncType)
    (code : Nat) : Even (enter env func type code) (enter (env.withDepth d) func type code) := by
  intro m
  refine ((Even.takeLocals hd type code).blaming func m).bind fun locals n _ => ?_
  refine (Even.frameCode d code n).bind fun code n _ => ?_
  exact .of_ok rfl fun fuel => rfl

theorem Even.call (hhosts : ∀ f ∈ env.hosts, f.Unmetered) {d : Nat}
    (hd : env.config.maxCallDepth ≤ d) (func : UInt32) :
    Even (call env func) (call (env.withDepth d) func) := by
  intro m
  have hfuncs (fuel : Option Nat) : (m.withFuel fuel).store.funcs = m.store.funcs := rfl
  cases hfunc : m.store.funcs[func.toNat]? with
  | none =>
    refine (Even.throw (e := .trap .undefinedElement) id m).congr ?_ fun fuel => ?_
    · simp only [Run.call, bind_apply, get_apply, hfunc]
      rfl
    · simp only [Run.call, bind_apply, get_apply, hfuncs, hfunc]
      rfl
  | some f =>
    cases f with
    | host type module name slot =>
      refine (Even.callHost hhosts func type module name slot d m).congr ?_ fun fuel => ?_
      · simp only [Run.call, bind_apply, get_apply, hfunc]
      · simp only [Run.call, bind_apply, get_apply, hfuncs, hfunc]
    | defined type code =>
      refine (Even.enter hd func type code m).congr ?_ fun fuel => ?_
      · simp only [Run.call, bind_apply, get_apply, hfunc]
      · simp only [Run.call, bind_apply, get_apply, hfuncs, hfunc]

end Run

-- ---------------------------------------------------------------------------
-- Going back
-- ---------------------------------------------------------------------------

/-- The instruction goes back to the start of a loop. -/
def Plain.Repeats (types : Array FuncType) (i : Plain) (c : Context) : Prop :=
  ∃ depth c₁ pc c₂, i.exec types c = .ok (.branch depth) c₁ ∧
    Exec.branch depth.toNat c₁ = .ok (.again pc) c₂

/-- A frame's code is that of a defined function, as it stands or prepared. -/
def FrameCode.Of (mod : Module) (func : Nat) (code : FrameCode) : Prop :=
  code = .body func ∨ code = .prepared (mod.prepare func)

theorem Module.CallTypesExist.plain {mod : Module} (h : mod.CallTypesExist) {func pc : Nat}
    {i : Plain} (hi : mod.instr? func pc = some (.plain i)) (type table : UInt32)
    (hcall : i = .callIndirect type table) : type.toNat < mod.types.size :=
  h func pc type table (by rw [hi, hcall])

/-- The next step goes back to the start of a loop. -/
def Machine.Repeats (mod : Module) (m : Machine σ) : Prop :=
  ∃ frame rest func i, m.frames = frame :: rest ∧ frame.code.Of mod func ∧
    mod.instr? func frame.pc = some (.plain i) ∧ i.Repeats mod.types (m.context frame)

theorem Plain.Repeats.withFuel {types : Array FuncType} {i : Plain} {c : Context}
    (h : i.Repeats types c) (fuel : Option Nat) : i.Repeats types (c.withFuel fuel) := by
  obtain ⟨depth, c₁, pc, c₂, hexec, hbranch⟩ := h
  refine ⟨depth, c₁.withFuel fuel, pc, c₂.withFuel fuel, ?_, ?_⟩
  · rw [(Exec.Unmetered.of_confined (.plain types i)).withFuel c fuel, hexec]
    rfl
  · rw [(Exec.Unmetered.branch depth.toNat).withFuel c₁ fuel, hbranch]
    rfl

theorem Machine.Repeats.withFuel {mod : Module} {m : Machine σ} (h : m.Repeats mod)
    (fuel : Option Nat) : (m.withFuel fuel).Repeats mod := by
  obtain ⟨frame, rest, func, i, hframes, hcode, hi, hrepeats⟩ := h
  exact ⟨frame, rest, func, i, hframes, hcode, hi, hrepeats.withFuel fuel⟩

theorem Machine.repeats_withFuel {mod : Module} {m : Machine σ} {fuel : Option Nat} :
    (m.withFuel fuel).Repeats mod ↔ m.Repeats mod :=
  ⟨fun h => h.withFuel m.store.fuel, fun h => h.withFuel fuel⟩

namespace Run

variable {env : Env σ} {m : Machine σ} {frame : Frame} {rest : List Frame}

/-- What a step that goes back comes to: `n` with one unit of fuel less, and a
    fault in `e` if none is left. -/
def paid (n e : Machine σ) : Option Nat → EStateM.Result Fault (Machine σ) Unit
  | none => .ok () (n.withFuel none)
  | some 0 => .error (.trap .outOfFuel) (e.withFuel (some 0))
  | some (k + 1) => .ok () (n.withFuel (some k))

theorem paid_dry {n e m : Machine σ} {fuel : Option Nat} {t : Fault}
    (h : paid n e fuel = .error t m) : m.store.fuel = some 0 := by
  cases fuel with
  | none => cases h
  | some k =>
    cases k with
    | zero =>
      cases h
      rfl
    | succ k => cases h

theorem inFrame_burn_paid (hframes : m.frames = frame :: rest) (fuel : Option Nat) :
    inFrame Exec.burn (m.withFuel fuel) = paid m m fuel := by
  obtain ⟨shared, store, stack, frames, depth, origin⟩ := m
  subst hframes
  cases fuel with
  | none => rfl
  | some k => cases k <;> rfl

theorem inFrame_withFuel {action : Exec α} (ha : action.Unmetered)
    (hframes : m.frames = frame :: rest) {x : α} {c : Context}
    (h : action (m.context frame) = .ok x c) (fuel : Option Nat) :
    inFrame action (m.withFuel fuel) = .ok x ((m.resume frame rest c).withFuel fuel) := by
  have hframes' : (m.withFuel fuel).frames = frame :: rest := hframes
  have hcontext : action ((m.withFuel fuel).context frame) = _ :=
    ha.withFuel (m.context frame) fuel
  simp only [inFrame, hframes', hcontext, h]
  rfl

/-- Where an instruction goes back, what it does up to the payment. -/
theorem inFrame_repeats {types : Array FuncType} {i : Plain} (hframes : m.frames = frame :: rest)
    (h : i.Repeats types (m.context frame)) :
    ∃ (depth : UInt32) (pc : Nat) (n₁ n₂ : Machine σ),
      (∃ frame' rest', n₂.frames = frame' :: rest') ∧
      (∀ fuel, inFrame (i.exec types) (m.withFuel fuel) = .ok (.branch depth) (n₁.withFuel fuel)) ∧
      ∀ fuel, inFrame (Exec.branch depth.toNat) (n₁.withFuel fuel) =
        .ok (.again pc) (n₂.withFuel fuel) := by
  obtain ⟨depth, c₁, pc, c₂, hexec, hbranch⟩ := h
  have hconfined := Exec.Confined.plain types i
  refine ⟨depth, pc, m.resume frame rest c₁, m.resume frame rest c₂, ⟨_, rest, rfl⟩, ?_, ?_⟩
  · exact inFrame_withFuel (.of_confined hconfined) hframes hexec
  · exact inFrame_withFuel (m := m.resume frame rest c₁) (.branch _) rfl hbranch

/-- Goes on in a body at the target of a branch. -/
def arrive : Exec.Target → Run σ Unit
  | .jump pc => goto pc
  | .again pc => do
    goto pc
    inFrame Exec.burn
  | .leave => leave

theorem branch_eq (depth : UInt32) :
    (branch depth : Run σ Unit) = inFrame (Exec.branch depth.toNat) >>= arrive := rfl

theorem stepBody_some {func pc : Nat} {i : Instr} (h : env.module.instr? func pc = some i) :
    stepBody env func pc = goto (pc + 1) >>= fun _ => interpret env pc i := by
  simp only [stepBody, h]

/-- Goes on in prepared code after the instruction at `pc` announced an
    effect. -/
def pursue (env : Env σ) (pc : Nat) (effect : Effect) : Run σ Unit :=
  inFrame effect.flow >>= follow env pc

/-- Goes on in prepared code at the target of a branch. -/
def land (env : Env σ) (pc : Nat) : Exec.Target → Run σ Unit
  | .jump target => inFrame (pure (.jump target)) >>= follow env pc
  | .again target => do
    inFrame Exec.burn
    inFrame (pure (.jump target)) >>= follow env pc
  | .leave => inFrame (pure .return_) >>= follow env pc

theorem pursue_branch (pc : Nat) (depth : UInt32) :
    pursue env pc (.branch depth) = inFrame (Exec.branch depth.toNat) >>= land env pc := by
  simp only [pursue, Effect.flow, Operation.goto, inFrame_bind, bind_assoc]
  congr 1
  funext target
  cases target with
  | jump target | leave => rfl
  | again target => simp only [inFrame_bind, bind_assoc, land]

theorem stepPrepared_plain {func pc : Nat} {i : Plain}
    (h : env.module.instr? func pc = some (.plain i))
    (hi : ∀ type table, i = .callIndirect type table → type.toNat < env.module.types.size) :
    stepPrepared env (env.module.prepare func) pc =
      inFrame (i.exec env.module.types) >>= pursue env pc := by
  have hop : (env.module.prepare func)[pc]? = some (i.exec env.module.types >>= Effect.flow) := by
    rw [Module.getElem?_prepare, h, ← Operation.ofPlain_eq hi]
    rfl
  rw [stepPrepared_some env hop, inFrame_bind, bind_assoc]
  rfl

theorem context_goto (m : Machine σ) (frame : Frame) (frames : List Frame) (pc : Nat) :
    ({ m with frames }).context { frame with pc } = m.context frame := rfl

section

variable {func : Nat} {i : Plain} {c : Context} (hframes : m.frames = frame :: rest)
  (hcode : frame.code.Of env.module func)
  (hinstr : env.module.instr? func frame.pc = some (.plain i))
  (hi : ∀ type table, i = .callIndirect type table → type.toNat < env.module.types.size)

include hframes hcode hinstr hi

/-- An instruction that goes on leaves the machine behind it, in either
    strategy. -/
theorem step_next (hexec : i.exec env.module.types (m.context frame) = .ok .next c) :
    step env m = .ok () { m with
      stack := c.stack
      store := c.store
      frames :=
        { frame with pc := frame.pc + 1, locals := c.locals, labels := c.labels } :: rest } := by
  rcases hcode with hcode | hcode
  · rw [step_body hframes hcode, stepBody_some hinstr, bind_ok (goto_apply _ _),
      Machine.goto_cons hframes, interpret, bind_apply, inFrame_cons rfl, context_goto, hexec]
    rfl
  · rw [step_prepared hframes hcode, stepPrepared_plain hinstr hi, bind_apply,
      inFrame_cons hframes, hexec]
    rfl

/-- An instruction that faults leaves the store that it has got to. -/
theorem step_fault {e : Fault}
    (hexec : i.exec env.module.types (m.context frame) = .error e c) :
    ∃ n, step env m = .error e n ∧ n.store = c.store := by
  rcases hcode with hcode | hcode
  · rw [step_body hframes hcode, stepBody_some hinstr, bind_ok (goto_apply _ _),
      Machine.goto_cons hframes, interpret, bind_apply, inFrame_cons rfl, context_goto, hexec]
    exact ⟨_, rfl, rfl⟩
  · rw [step_prepared hframes hcode, stepPrepared_plain hinstr hi, bind_apply,
      inFrame_cons hframes, hexec]
    exact ⟨_, rfl, rfl⟩

end

/-- A step that goes back pays, in every environment alike. -/
theorem step_paid {mod : Module} (htypes : mod.CallTypesExist) (h : m.Repeats mod) :
    ∃ n e, ∀ env : Env σ, env.module = mod →
      ∀ fuel, step env (m.withFuel fuel) = paid n e fuel := by
  obtain ⟨frame, rest, func, i, hframes, hcode, hi, hrepeats⟩ := h
  rcases hcode with hcode | hcode
  · -- The position is moved before the instruction is run.
    have hrepeats' : i.Repeats mod.types
        ((m.goto (frame.pc + 1)).context { frame with pc := frame.pc + 1 }) := hrepeats
    obtain ⟨depth, pc, n₁, n₂, ⟨frame₂, rest₂, hframes₂⟩, hexec, hbranch⟩ :=
      inFrame_repeats (m.frames_goto hframes _) hrepeats'
    refine ⟨n₂.goto pc, n₂.goto pc, ?_⟩
    rintro env rfl fuel
    rw [step_body (m := m.withFuel fuel) hframes hcode, stepBody_some hi,
      bind_ok (goto_apply _ _), Machine.withFuel_goto, interpret, bind_ok (hexec fuel), perform,
      branch_eq, bind_ok (hbranch fuel), arrive, bind_ok (goto_apply _ _), Machine.withFuel_goto]
    exact inFrame_burn_paid (n₂.frames_goto hframes₂ pc) fuel
  · obtain ⟨depth, pc, n₁, n₂, ⟨frame₂, rest₂, hframes₂⟩, hexec, hbranch⟩ :=
      inFrame_repeats hframes hrepeats
    refine ⟨n₂.goto pc, n₂, ?_⟩
    rintro env rfl fuel
    have hjump (k : Option Nat) :
        (inFrame (pure (.jump pc)) >>= follow env frame.pc) (n₂.withFuel k) =
          .ok () ((n₂.goto pc).withFuel k) := by
      have hne : (n₂.withFuel k).frames ≠ [] :=
        List.ne_nil_of_mem (hframes₂ ▸ List.mem_cons_self)
      rw [inFrame_pure_bind hne, follow, goto_apply, Machine.withFuel_goto]
    rw [step_prepared (m := m.withFuel fuel) hframes hcode, stepPrepared_plain hi (htypes.plain hi),
      bind_ok (hexec fuel), pursue_branch, bind_ok (hbranch fuel), land, bind_apply,
      inFrame_burn_paid hframes₂ fuel]
    cases fuel with
    | none => exact hjump none
    | some k =>
      cases k with
      | zero => rfl
      | succ k => exact hjump (some k)

-- ---------------------------------------------------------------------------
-- Going on
-- ---------------------------------------------------------------------------

/-- An instruction that does not go back, with what is done about its effect
    and about the target of a branch. -/
theorem EvenAt.plain {types : Array FuncType} {i : Plain} (hframes : m.frames = frame :: rest)
    (hi : ¬ i.Repeats types (m.context frame)) {f g : Effect → Run σ Unit}
    {f' g' : Exec.Target → Run σ Unit}
    (hf : ∀ depth, f (.branch depth) = inFrame (Exec.branch depth.toNat) >>= f')
    (hg : ∀ depth, g (.branch depth) = inFrame (Exec.branch depth.toNat) >>= g')
    (hnext : Even (f .next) (g .next)) (hcall : ∀ func, Even (f (.call func)) (g (.call func)))
    (hreturn : Even (f .return_) (g .return_)) (hjump : ∀ pc, Even (f' (.jump pc)) (g' (.jump pc)))
    (hleave : Even (f' .leave) (g' .leave)) :
    EvenAt m (inFrame (i.exec types) >>= f) (inFrame (i.exec types) >>= g) := by
  refine EvenAt.inFrame_bind (.of_confined (.plain types i)) hframes fun effect c₁ hexec => ?_
  cases effect with
  | next => exact hnext _
  | call func => exact hcall func _
  | return_ => exact hreturn _
  | branch depth =>
    rw [hf, hg]
    refine EvenAt.inFrame_bind (.branch _) rfl fun target c₂ hbranch => ?_
    cases target with
    | jump pc => exact hjump pc _
    | leave => exact hleave _
    | again pc => exact absurd ⟨depth, c₁, pc, c₂, hexec, hbranch⟩ hi

section

variable (hhosts : ∀ f ∈ env.hosts, f.Unmetered) {d : Nat} (hd : env.config.maxCallDepth ≤ d)

include hhosts hd

theorem Even.follow (pc : Nat) (flow : Flow) :
    Even (follow env pc flow) (follow (env.withDepth d) pc flow) := by
  cases flow with
  | next => exact Even.goto _
  | jump target => exact Even.goto target
  | call func => exact fun m => (Even.goto _ m).bind fun _ n _ => Even.call hhosts hd func n
  | return_ => exact Even.leave

/-- A step of a body that does not go back. -/
theorem EvenAt.stepBody (hframes : m.frames = frame :: rest) {func : Nat}
    (hrepeats : ∀ i, env.module.instr? func frame.pc = some (.plain i) →
      ¬ i.Repeats env.module.types (m.context frame)) :
    EvenAt m (stepBody env func frame.pc) (stepBody (env.withDepth d) func frame.pc) := by
  cases hi : env.module.instr? func frame.pc with
  | none =>
    simp only [Run.stepBody, Env.withDepth, hi]
    exact Even.leave m
  | some i =>
    have hi' : (env.withDepth d).module.instr? func frame.pc = some i := hi
    rw [stepBody_some hi, stepBody_some hi']
    refine (Even.goto _ m).bind fun _ n hn => ?_
    cases i with
    | plain i =>
      rw [goto_apply] at hn
      cases hn
      have hi' : ¬ i.Repeats env.module.types
          ((m.goto (frame.pc + 1)).context { frame with pc := frame.pc + 1 }) := hrepeats i hi
      refine EvenAt.plain (f := perform env) (g := perform (env.withDepth d))
        (m.frames_goto hframes _) hi' branch_eq branch_eq ?_ ?_ ?_ ?_ ?_
      · exact Even.pure ()
      · exact Even.call hhosts hd
      · exact Even.leave
      · exact Even.goto
      · exact Even.leave
    | block type stop | loop type => exact Even.inFrame (.enter _ _ _) n
    | if_ type otherwise stop =>
      refine (Even.inFrame (.of_confined (.popInt .w32)) n).bind fun cond n _ => ?_
      refine (Even.inFrame (.enter _ _ _) n).bind fun _ n _ => ?_
      split
      · exact Even.goto _ n
      · exact Even.pure () n
    | else_ stop => exact Even.goto stop n
    | end_ =>
      refine (Even.inFrame .close n).bind fun closed n _ => ?_
      split
      · exact Even.leave n
      · exact Even.pure () n

/-- A step of prepared code that does not go back. -/
theorem EvenAt.stepPrepared (htypes : env.module.CallTypesExist)
    (hframes : m.frames = frame :: rest) {func : Nat}
    (hrepeats : ∀ i, env.module.instr? func frame.pc = some (.plain i) →
      ¬ i.Repeats env.module.types (m.context frame)) :
    EvenAt m (stepPrepared env (env.module.prepare func) frame.pc)
      (stepPrepared (env.withDepth d) (env.module.prepare func) frame.pc) := by
  have hfollow (action : Operation) (ha : action.Unmetered) :
      Even (Run.inFrame action >>= Run.follow env frame.pc)
        (Run.inFrame action >>= Run.follow (env.withDepth d) frame.pc) :=
    fun m => (Even.inFrame ha m).bind fun flow n _ => Even.follow hhosts hd frame.pc flow n
  cases hi : env.module.instr? func frame.pc with
  | none =>
    have hop := env.module.getElem?_prepare func frame.pc
    rw [hi] at hop
    simp only [Run.stepPrepared, hop, Option.map_none]
    exact Even.leave m
  | some i =>
    by_cases hplain : ∃ plain, i = .plain plain
    · obtain ⟨i, rfl⟩ := hplain
      have hstep' : Run.stepPrepared (env.withDepth d) (env.module.prepare func) frame.pc = _ :=
        @stepPrepared_plain σ (env.withDepth d) func frame.pc i hi (htypes.plain hi)
      rw [stepPrepared_plain hi (htypes.plain hi), hstep']
      refine EvenAt.plain hframes (hrepeats i hi) (pursue_branch frame.pc)
        (pursue_branch frame.pc) ?_ ?_ ?_ ?_ ?_
      · exact hfollow _ (.pure _)
      · exact fun func => hfollow _ (.pure _)
      · exact hfollow _ (.pure _)
      · exact fun pc => hfollow _ (.pure _)
      · exact hfollow _ (.pure _)
    · have hop := env.module.getElem?_prepare func frame.pc
      rw [hi] at hop
      rw [stepPrepared_some env hop, stepPrepared_some (env.withDepth d) hop]
      exact hfollow _ (.ofInstr (not_exists.mp hplain) env.module frame.pc) m

/-- A step that does not go back does the same with any fuel and under any
    higher limit. -/
theorem step_even (htypes : env.module.CallTypesExist)
    (hcode : ∀ frame ∈ m.frames, ∃ func, frame.code.Of env.module func)
    (hrepeats : ¬ m.Repeats env.module) : EvenAt m (step env) (step (env.withDepth d)) := by
  cases hframes : m.frames with
  | nil => exact .of_ok (step_nil hframes) fun fuel => step_nil (m := m.withFuel fuel) hframes
  | cons frame rest =>
    obtain ⟨func, hof⟩ := hcode frame (by rw [hframes]; exact List.mem_cons_self)
    have hrepeats' (i : Plain) (hi : env.module.instr? func frame.pc = some (.plain i)) :
        ¬ i.Repeats env.module.types (m.context frame) :=
      fun h => hrepeats ⟨frame, rest, func, i, hframes, hof, hi, h⟩
    rcases hof with hbody | hprepared
    · refine (EvenAt.stepBody hhosts hd hframes hrepeats').congr (step_body hframes hbody) ?_
      exact fun fuel => step_body (m := m.withFuel fuel) hframes hbody
    · refine (EvenAt.stepPrepared hhosts hd htypes hframes hrepeats').congr
        (step_prepared hframes hprepared) ?_
      exact fun fuel => step_prepared (m := m.withFuel fuel) hframes hprepared

end

end Run

end Wasm
