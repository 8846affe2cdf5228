import Wasm.Exec.Plain
import Wasm.Proofs.Machine.Actions

/-!
# Confined actions

Plain instructions work on operands, locals and the store. They do not see the
entered blocks or the fuel, and a limit is never what stops them: whatever the
limits of a run are, they do the same.
-/

namespace Wasm

variable {α β : Type}

-- ---------------------------------------------------------------------------
-- Limits
-- ---------------------------------------------------------------------------

/-- The fault is due to a limit on the run, and not to the code. -/
def Fault.IsLimit : Fault → Prop
  | trap .outOfFuel | trap .callStackExhausted | unfinished => True
  | _ => False

/-- A limit is not what makes the computation fail. -/
def Limitless (r : Except Trap α) : Prop := ∀ t, r = .error t → ¬ (Fault.trap t).IsLimit

theorem Limitless.ok (x : α) : Limitless (.ok x : Except Trap α) := by
  intro t h
  cases h

theorem Limitless.error {t : Trap} (h : ¬ (Fault.trap t).IsLimit) :
    Limitless (.error t : Except Trap α) := by
  intro t' ht'
  cases ht'
  exact h

theorem Limitless.map {r : Except Trap α} (h : Limitless r) (f : α → β) :
    Limitless (r.map f) := by
  cases r with
  | ok x => exact .ok (f x)
  | error t => exact .error (h t rfl)

theorem Limitless.bind {r : Except Trap α} {f : α → Except Trap β} (h : Limitless r)
    (hf : ∀ x, Limitless (f x)) : Limitless (r >>= f) := by
  cases r with
  | ok x => exact hf x
  | error t => exact .error (h t rfl)

namespace Value

theorem limitless_toInt (w : Width) (v : Value) : Limitless (v.toInt w) := by
  unfold toInt
  split
  · exact .ok _
  · exact .ok _
  · exact .error id

theorem limitless_toFloat (w : Width) (v : Value) : Limitless (v.toFloat w) := by
  unfold toFloat
  split
  · exact .ok _
  · exact .ok _
  · exact .error id

theorem limitless_assign (slot v : Value) : Limitless (slot.assign v) := by
  unfold assign
  split
  · exact .ok _
  · exact .error id

theorem limitless_select (cond : BitVec 32) (a b : Value) : Limitless (select cond a b) := by
  unfold select
  split
  · exact .ok _
  · exact .error id

theorem limitless_checkTypes (vs : List Value) (ts : List ValueType) :
    Limitless (checkTypes vs ts) := by
  induction vs generalizing ts with
  | nil => exact .ok ()
  | cons v vs ih =>
    cases ts with
    | nil => exact .ok ()
    | cons t ts =>
      unfold checkTypes
      split
      · exact ih ts
      · exact .error id

end Value

theorem IntBinary.limitless_eval {w : Nat} (op : IntBinary) (a b : BitVec w) :
    Limitless (op.eval a b) := by
  cases op with
  | divS =>
    simp only [eval]
    split
    · exact .error id
    · split
      · exact .error id
      · exact .ok _
  | divU | remS | remU =>
    simp only [eval]
    split
    · exact .error id
    · exact .ok _
  | _ => exact .ok _

theorem Conversion.limitless_eval (op : Conversion) (v : Value) : Limitless (op.eval v) := by
  cases op with
  | trunc int float sign =>
    refine (v.limitless_toFloat float).bind fun x => ?_
    refine Limitless.bind ?_ fun word => .ok _
    unfold truncate
    split
    · exact .ok _
    · exact .error id
  | wrap | extend sign | convert float int sign | ofBits w =>
    exact (v.limitless_toInt _).bind fun x => .ok _
  | demote | promote | toBits w => exact (v.limitless_toFloat _).bind fun x => .ok _

theorem Memory.limitless_load (m : Memory) (kind : LoadKind) (address : Nat) :
    Limitless (m.load kind address) := by
  refine Limitless.bind ?_ fun bytes => .ok _
  unfold read
  split
  · exact .ok _
  · exact .error id

theorem Memory.limitless_storeBytes (kind : StoreKind) (v : Value) :
    Limitless (storeBytes kind v) := by
  refine Limitless.bind ?_ fun raw => .ok _
  cases kind with
  | i32 | i32N8 | i32N16 | i64 | i64N8 | i64N16 | i64N32 => exact (v.limitless_toInt _).map _
  | f32 | f64 => exact (v.limitless_toFloat _).map _

theorem Memory.limitless_store (m : Memory) (kind : StoreKind) (address : Nat) (v : Value) :
    Limitless (m.store kind address v) := by
  refine Limitless.bind (limitless_storeBytes kind v) fun bytes => ?_
  unfold write
  split
  · exact .ok _
  · exact .error id

theorem Store.limitless_withMemory (s : Store) {change : Memory → Except Trap Memory}
    (h : ∀ m, Limitless (change m)) : Limitless (s.withMemory change) := by
  unfold withMemory
  split
  · exact (h _).bind fun m => .ok _
  · exact .error id

theorem Store.limitless_resolve (s : Store) (table slot : Nat) (expected : FuncType) :
    Limitless (s.resolve table slot expected) := by
  unfold resolve
  split
  · exact .error id
  · split
    · exact .error id
    · split
      · exact .ok _
      · exact .error id

theorem Exec.limitless_unwound (stack : List Value) (height arity : Nat) :
    Limitless (unwound stack height arity) := by
  unfold unwound
  split
  · exact .error id
  · exact .ok _

-- ---------------------------------------------------------------------------
-- Confined actions
-- ---------------------------------------------------------------------------

/-- The context inside other blocks and with other fuel. -/
def Context.refit (c : Context) (labels : List Label) (fuel : Option Nat) : Context :=
  { c with labels, store.fuel := fuel }

namespace Exec

/-- A limit is not what stops the action. -/
def Unstopped (a : Exec α) : Prop := ∀ ⦃c e c'⦄, a c = .error e c' → ¬ e.IsLimit

theorem Unstopped.bind {a : Exec α} {f : α → Exec β} (ha : Unstopped a)
    (hf : ∀ x, Unstopped (f x)) : Unstopped (a >>= f) := by
  intro c e c' h
  rw [bind_apply] at h
  cases hresult : a c with
  | ok x c₁ =>
    rw [hresult] at h
    exact hf x h
  | error e₁ c₁ =>
    rw [hresult] at h
    cases h
    exact ha hresult

/-- The action neither sees nor changes the entered blocks and the fuel, and is
    not stopped by a limit. -/
structure Confined (a : Exec α) : Prop where
  refit : ∀ c labels fuel, a (c.refit labels fuel) = mapState (·.refit labels fuel) (a c)
  limitless : Unstopped a

namespace Confined

theorem pure (x : α) : Confined (pure x : Exec α) := by
  refine ⟨fun _ _ _ => rfl, ?_⟩
  intro c e c' h
  cases h

theorem throw {e : Fault} (h : ¬ e.IsLimit) : Confined (throw e : Exec α) := by
  refine ⟨fun _ _ _ => rfl, ?_⟩
  intro c e' c' he'
  cases he'
  exact h

theorem bind {a : Exec α} {f : α → Exec β} (ha : Confined a) (hf : ∀ x, Confined (f x)) :
    Confined (a >>= f) := by
  refine ⟨?_, ha.limitless.bind fun x => (hf x).limitless⟩
  intro c labels fuel
  rw [bind_apply, bind_apply, ha.refit c labels fuel]
  cases a c with
  | ok x c => exact (hf x).refit c labels fuel
  | error e c => rfl

theorem ofExcept {r : Except Trap α} (h : Limitless r) : Confined (ofExcept r) := by
  cases r with
  | ok x => exact Confined.pure x
  | error t => exact Confined.throw (h t rfl)

/-- An action that goes by what it finds, apart from blocks and fuel. -/
theorem get_bind {f : Context → Exec α} (hf : ∀ c, Confined (f c))
    (hrefit : ∀ c labels fuel, f (c.refit labels fuel) = f c) : Confined (get >>= f) := by
  constructor
  · intro c labels fuel
    rw [bind_apply, bind_apply]
    simp only [get_apply, hrefit]
    exact (hf c).refit c labels fuel
  · intro c e c' h
    rw [bind_apply] at h
    exact (hf c).limitless h

theorem modify {f : Context → Context}
    (h : ∀ c labels fuel, f (c.refit labels fuel) = (f c).refit labels fuel) :
    Confined (modify f : Exec Unit) := by
  constructor
  · intro c labels fuel
    rw [modify_apply, modify_apply, h]
    rfl
  · intro c e c' he
    cases he

theorem push (v : Value) : Confined (push v) := .modify fun _ _ _ => rfl

theorem pop : Confined pop := by
  constructor
  · rintro ⟨_ | ⟨v, stack⟩, locals, labels, store⟩ labels' fuel <;> rfl
  · rintro ⟨_ | ⟨v, stack⟩, locals, labels, store⟩ e c' h
    · cases h
      exact id
    · cases h

theorem popInt (w : Width) : Confined (popInt w) :=
  pop.bind fun v => ofExcept (v.limitless_toInt w)

theorem popFloat (w : Width) : Confined (popFloat w) :=
  pop.bind fun v => ofExcept (v.limitless_toFloat w)

theorem top : Confined top := by
  refine get_bind (fun c => ?_) fun _ _ _ => rfl
  split
  · exact Confined.throw id
  · exact Confined.pure _

theorem localGet (index : UInt32) : Confined (localGet index) := by
  refine get_bind (fun c => ?_) fun _ _ _ => rfl
  split
  · exact Confined.pure _
  · exact Confined.throw id

theorem localSet (index : UInt32) (v : Value) : Confined (localSet index v) := by
  refine (localGet index).bind fun slot => ?_
  exact (ofExcept (slot.limitless_assign v)).bind fun _ => .modify fun _ _ _ => rfl

theorem globalGet (index : UInt32) : Confined (globalGet index) := by
  refine get_bind (fun c => ?_) fun _ _ _ => rfl
  split
  · exact Confined.pure _
  · exact Confined.throw id

theorem globalSet (index : UInt32) (v : Value) : Confined (globalSet index v) := by
  refine (globalGet index).bind fun slot => ?_
  exact (ofExcept (slot.limitless_assign v)).bind fun _ => .modify fun _ _ _ => rfl

theorem load (kind : LoadKind) (address : Nat) : Confined (load kind address) := by
  refine get_bind (fun c => ?_) fun _ _ _ => rfl
  split
  · exact ofExcept (Memory.limitless_load _ kind address)
  · exact Confined.throw id

/-- What is written depends on the store, which is taken as a whole. -/
theorem store (kind : StoreKind) (address : Nat) (v : Value) :
    Confined (store kind address v) := by
  have hfuel (s : Store) (change : Memory → Except Trap Memory) (fuel : Option Nat) :
      ({ s with fuel } : Store).withMemory change =
        (s.withMemory change).map ({ · with fuel }) := by
    unfold Store.withMemory
    rw [show ({ s with fuel } : Store).memory? = s.memory? from rfl]
    cases s.memory? with
    | none => rfl
    | some m => cases hchange : change m <;> simp only [hchange] <;> rfl
  constructor
  · intro c labels fuel
    simp only [Exec.store, bind_apply, get_apply, ofExcept_apply]
    rw [show (c.refit labels fuel).store.withMemory (·.store kind address v) = _ from
      hfuel c.store _ fuel]
    cases c.store.withMemory (·.store kind address v) <;> rfl
  · intro c e c' h
    have hlimitless := c.store.limitless_withMemory (Memory.limitless_store · kind address v)
    simp only [Exec.store, bind_apply, get_apply, ofExcept_apply] at h
    cases hstore : c.store.withMemory (·.store kind address v) with
    | error t =>
      rw [hstore] at h
      cases h
      exact hlimitless t hstore
    | ok s =>
      rw [hstore] at h
      cases h

theorem memorySize : Confined memorySize :=
  get_bind (fun _ => Confined.pure _) fun _ _ _ => rfl

theorem memoryGrow (delta : BitVec 32) : Confined (memoryGrow delta) := by
  constructor
  · intro c labels fuel
    simp only [Exec.memoryGrow, bind_apply, get_apply]
    have hgrow : (c.refit labels fuel).store.grow delta =
        ((c.store.grow delta).1, { (c.store.grow delta).2 with fuel }) := by
      unfold Store.grow
      rw [show (c.refit labels fuel).store.memory? = c.store.memory? from rfl]
      split <;> rfl
    rw [hgrow]
    rfl
  · intro c e c' h
    cases h

theorem resolve (table slot : Nat) (expected : FuncType) :
    Confined (resolve table slot expected) :=
  get_bind (fun c => ofExcept (c.store.limitless_resolve table slot expected)) fun _ _ _ => rfl

theorem produce {value : Exec Value} (h : Confined value) : Confined (Plain.produce value) :=
  h.bind fun v => (push v).bind fun _ => Confined.pure _

/-- Plain instructions are confined. -/
theorem plain (types : Array FuncType) (i : Plain) : Confined (i.exec types) := by
  cases i with
  | unreachable => exact Confined.throw id
  | nop | br _ | return_ | call _ => exact Confined.pure _
  | brIf depth =>
    refine (popInt .w32).bind fun cond => ?_
    split <;> exact Confined.pure _
  | brTable targets default => exact (popInt .w32).bind fun _ => Confined.pure _
  | callIndirect type table =>
    refine (popInt .w32).bind fun slot => ?_
    split
    · exact (resolve _ _ _).bind fun _ => Confined.pure _
    · exact Confined.throw id
  | drop => exact pop.bind fun _ => Confined.pure _
  | select =>
    refine produce ((popInt .w32).bind fun cond => ?_)
    exact pop.bind fun b => pop.bind fun a => ofExcept (Value.limitless_select cond a b)
  | localGet index => exact (localGet index).produce
  | localSet index => exact pop.bind fun v => (localSet index v).bind fun _ => Confined.pure _
  | localTee index => exact top.bind fun v => (localSet index v).bind fun _ => Confined.pure _
  | globalGet index => exact (globalGet index).produce
  | globalSet index => exact pop.bind fun v => (globalSet index v).bind fun _ => Confined.pure _
  | load kind arg => exact produce ((popInt .w32).bind fun _ => load _ _)
  | store kind arg =>
    refine pop.bind fun v => (popInt .w32).bind fun base => ?_
    exact (store _ _ _).bind fun _ => Confined.pure _
  | memorySize => exact produce (memorySize.bind fun _ => Confined.pure _)
  | memoryGrow =>
    refine produce ((popInt .w32).bind fun delta => ?_)
    exact (memoryGrow delta).bind fun _ => Confined.pure _
  | const v => exact (Confined.pure v).produce
  | intEqz w | intUnary w _ => exact produce ((popInt w).bind fun _ => Confined.pure _)
  | floatUnary w op => exact produce ((popFloat w).bind fun _ => Confined.pure _)
  | intCompare w op =>
    refine produce ((popInt w).bind fun b => ?_)
    exact (popInt w).bind fun a => Confined.pure _
  | intBinary w op =>
    refine produce ((popInt w).bind fun b => (popInt w).bind fun a => ?_)
    exact (ofExcept (op.limitless_eval a b)).bind fun _ => Confined.pure _
  | floatCompare w op | floatBinary w op =>
    refine produce ((popFloat w).bind fun b => ?_)
    exact (popFloat w).bind fun a => Confined.pure _
  | convert op => exact produce (pop.bind fun v => ofExcept (op.limitless_eval v))

variable {a : Exec α}

/-- Blocks and fuel stay as they are. -/
theorem kept (ha : Confined a) (c : Context) :
    (finalState (a c)).labels = c.labels ∧ (finalState (a c)).store.fuel = c.store.fuel := by
  have h : a c = mapState (·.refit c.labels c.store.fuel) (a c) :=
    ha.refit c c.labels c.store.fuel
  cases hresult : a c with
  | ok x c' =>
    rw [hresult] at h
    obtain ⟨_, hc'⟩ := EStateM.Result.ok.inj h
    have hlabels := congrArg Context.labels hc'
    have hfuel := congrArg (·.store.fuel) hc'
    exact ⟨hlabels, hfuel⟩
  | error e c' =>
    rw [hresult] at h
    obtain ⟨_, hc'⟩ := EStateM.Result.error.inj h
    have hlabels := congrArg Context.labels hc'
    have hfuel := congrArg (·.store.fuel) hc'
    exact ⟨hlabels, hfuel⟩

end Confined

end Exec

end Wasm
