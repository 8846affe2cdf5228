import Wasm.Proofs.Machine.Actions
import Wasm.Proofs.Validity

/-!
# Actions on contexts

What actions in a frame leave alone: the number of locals and globals, the
functions of the store and its page limit. Where the indices they name exist,
they either return or trap.
-/

namespace Wasm

variable {α β : Type}

/-- Instructions change values, never what there is; they may leave blocks. -/
structure Context.Kept (c c' : Context) : Prop where
  labels : c'.labels ⊆ c.labels
  locals : c'.locals.size = c.locals.size
  funcs : c'.store.funcs = c.store.funcs
  globals : c'.store.globals.size = c.store.globals.size
  pageLimit : c'.store.pageLimit = c.store.pageLimit

theorem Context.Kept.refl (c : Context) : c.Kept c := ⟨List.Subset.refl _, rfl, rfl, rfl, rfl⟩

theorem Context.Kept.trans {c₁ c₂ c₃ : Context} (h₁ : c₁.Kept c₂) (h₂ : c₂.Kept c₃) :
    c₁.Kept c₃ where
  labels := List.Subset.trans h₂.labels h₁.labels
  locals := h₂.locals.trans h₁.locals
  funcs := h₂.funcs.trans h₁.funcs
  globals := h₂.globals.trans h₁.globals
  pageLimit := h₂.pageLimit.trans h₁.pageLimit

theorem Store.withMemory_eq_ok {s s' : Store} {change : Memory → Except Trap Memory}
    (h : s.withMemory change = .ok s') :
    ∃ m m', s.memory? = some m ∧ change m = .ok m' ∧
      s' = { s with memories := s.memories.setIfInBounds 0 m' } := by
  unfold withMemory at h
  split at h
  · rename_i m hm
    cases hchange : change m with
    | error t =>
      rw [hchange] at h
      cases h
    | ok m' =>
      rw [hchange] at h
      cases h
      exact ⟨m, m', hm, hchange, rfl⟩
  · cases h

theorem Store.write_eq_ok {s s' : Store} {address : Nat} {bytes : List UInt8}
    (h : s.write address bytes = .ok s') :
    ∃ m, s.memory? = some m ∧
      s' = { s with memories := s.memories.setIfInBounds 0 (m.put address bytes) } := by
  obtain ⟨m, m', hm, hwrite, rfl⟩ := withMemory_eq_ok h
  unfold Memory.write at hwrite
  split at hwrite
  · cases hwrite
    exact ⟨m, hm, rfl⟩
  · cases hwrite

/-- A value that was stored was written as its bytes. -/
theorem Store.write_of_store {s s' : Store} {kind : StoreKind} {address : Nat} {v : Value}
    (h : s.withMemory (·.store kind address v) = .ok s') :
    ∃ bytes, s.write address bytes = .ok s' := by
  cases hbytes : Memory.storeBytes kind v with
  | error t =>
    obtain ⟨m, m', _, hstore, _⟩ := withMemory_eq_ok h
    rw [Memory.store, hbytes] at hstore
    cases hstore
  | ok bytes =>
    refine ⟨bytes, Eq.trans ?_ h⟩
    simp only [write, Memory.store, hbytes]
    rfl

/-- The result of an action in `c` that returned or trapped, kept what there
    is and pushed at most `n` operands. -/
def Context.Yields (c : Context) (n : Nat) : EStateM.Result Fault Context α → Prop
  | .ok _ c' => c.Kept c' ∧ c'.stack.length ≤ c.stack.length + n
  | .error e c' => (∃ t, e = .trap t) ∧ c.Kept c'

theorem Context.Yields.after {c c' : Context} {n : Nat} {r : EStateM.Result Fault Context α}
    (hkept : c.Kept c') (hlen : c'.stack.length ≤ c.stack.length) (h : c'.Yields n r) :
    c.Yields n r := by
  cases r with
  | ok x c'' =>
    obtain ⟨hkept', hlen'⟩ := h
    exact ⟨hkept.trans hkept', by omega⟩
  | error e c'' => exact ⟨h.1, hkept.trans h.2⟩

namespace Exec

/-- The action yields such a result wherever there are that many locals and
    globals. -/
def Steady (locals globals n : Nat) (a : Exec α) : Prop :=
  ∀ c : Context, locals ≤ c.locals.size → globals ≤ c.store.globals.size → c.Yields n (a c)

variable {locals globals : Nat}

theorem Steady.bind {n : Nat} {a : Exec α} {f : α → Exec β} (ha : Steady locals globals 0 a)
    (hf : ∀ x, Steady locals globals n (f x)) : Steady locals globals n (a >>= f) := by
  intro c hlocals hglobals
  have hc := ha c hlocals hglobals
  simp only [Bind.bind, EStateM.bind]
  cases hac : a c with
  | error e c' =>
    rw [hac] at hc
    exact hc
  | ok x c' =>
    rw [hac] at hc
    obtain ⟨hkept, hlen⟩ := hc
    have hc' := hf x c' (hkept.locals ▸ hlocals) (hkept.globals ▸ hglobals)
    exact hc'.after hkept hlen

theorem Steady.pure (x : α) : Steady locals globals 0 (pure x : Exec α) :=
  fun c _ _ => ⟨.refl c, Nat.le_refl _⟩

theorem Steady.trap (n : Nat) (t : Trap) : Steady locals globals n (trap t : Exec α) :=
  fun c _ _ => ⟨⟨t, rfl⟩, .refl c⟩

theorem Steady.ofExcept (r : Except Trap α) : Steady locals globals 0 (ofExcept r) := by
  cases r with
  | ok x => exact Steady.pure x
  | error t => exact Steady.trap 0 t

theorem Steady.weaken {a : Exec α} (h : Steady locals globals 0 a) (n : Nat) :
    Steady locals globals n a := by
  intro c hlocals hglobals
  have hc := h c hlocals hglobals
  cases hac : a c with
  | error e c' =>
    rw [hac] at hc
    exact hc
  | ok x c' =>
    rw [hac] at hc
    exact ⟨hc.1, Nat.le_trans hc.2 (Nat.le_add_right _ _)⟩

/-- An action that looks at the context first. -/
theorem Steady.get {f : Context → Exec α} {n : Nat}
    (h : ∀ c : Context, locals ≤ c.locals.size → globals ≤ c.store.globals.size →
      c.Yields n (f c c)) :
    Steady locals globals n (get >>= f) := h

theorem steady_pop : Steady locals globals 0 pop := by
  refine Steady.get fun c _ _ => ?_
  cases hstack : c.stack with
  | nil => exact ⟨⟨_, rfl⟩, .refl c⟩
  | cons v rest => exact ⟨⟨List.Subset.refl _, rfl, rfl, rfl, rfl⟩, by simp [hstack]⟩

theorem steady_popInt (w : Width) : Steady locals globals 0 (popInt w) :=
  steady_pop.bind fun _ => Steady.ofExcept _

theorem steady_popFloat (w : Width) : Steady locals globals 0 (popFloat w) :=
  steady_pop.bind fun _ => Steady.ofExcept _

theorem steady_top : Steady locals globals 0 top := by
  refine Steady.get fun c _ _ => ?_
  obtain ⟨stack, locals, labels, store⟩ := c
  cases stack with
  | nil => exact ⟨⟨_, rfl⟩, .refl _⟩
  | cons v rest => exact ⟨.refl _, Nat.le_refl _⟩

theorem steady_localGet {index : UInt32} (h : index.toNat < locals) :
    Steady locals globals 0 (localGet index) := by
  refine Steady.get fun c hlocals _ => ?_
  rw [Array.getElem?_eq_getElem (by omega)]
  exact ⟨.refl c, Nat.le_refl _⟩

theorem steady_localSet {index : UInt32} (h : index.toNat < locals) (v : Value) :
    Steady locals globals 0 (localSet index v) := by
  refine (steady_localGet h).bind fun old => (Steady.ofExcept _).bind fun v => ?_
  exact fun c _ _ => ⟨⟨List.Subset.refl _, Array.size_setIfInBounds, rfl, rfl, rfl⟩, Nat.le_refl _⟩

theorem steady_globalGet {index : UInt32} (h : index.toNat < globals) :
    Steady locals globals 0 (globalGet index) := by
  refine Steady.get fun c _ hglobals => ?_
  rw [Array.getElem?_eq_getElem (by omega)]
  exact ⟨.refl c, Nat.le_refl _⟩

theorem steady_globalSet {index : UInt32} (h : index.toNat < globals) (v : Value) :
    Steady locals globals 0 (globalSet index v) := by
  refine (steady_globalGet h).bind fun old => (Steady.ofExcept _).bind fun v => ?_
  exact fun c _ _ => ⟨⟨List.Subset.refl _, rfl, rfl, Array.size_modify, rfl⟩, Nat.le_refl _⟩

theorem steady_load (kind : LoadKind) (address : Nat) :
    Steady locals globals 0 (load kind address) := by
  refine Steady.get fun c hlocals hglobals => ?_
  cases c.store.memory? with
  | none => exact ⟨⟨_, rfl⟩, .refl c⟩
  | some m => exact Steady.ofExcept (m.load kind address) c hlocals hglobals

theorem steady_store (kind : StoreKind) (address : Nat) (v : Value) :
    Steady locals globals 0 (store kind address v) := by
  refine Steady.get fun c hlocals hglobals => ?_
  cases hstore : c.store.withMemory (·.store kind address v) with
  | error t => exact ⟨⟨_, rfl⟩, .refl c⟩
  | ok s =>
    obtain ⟨m, m', _, _, rfl⟩ := Store.withMemory_eq_ok hstore
    exact ⟨⟨List.Subset.refl _, rfl, rfl, rfl, rfl⟩, Nat.le_refl _⟩

theorem steady_memorySize : Steady locals globals 0 memorySize :=
  fun c _ _ => ⟨.refl c, Nat.le_refl _⟩

theorem steady_memoryGrow (delta : BitVec 32) : Steady locals globals 0 (memoryGrow delta) := by
  refine Steady.get fun c hlocals hglobals => ?_
  cases hmemory : c.store.memory? <;>
    simp only [Store.grow, hmemory] <;>
    exact ⟨⟨List.Subset.refl _, rfl, rfl, rfl, rfl⟩, Nat.le_refl _⟩

theorem steady_resolve (table slot : Nat) (expected : FuncType) :
    Steady locals globals 0 (resolve table slot expected) := by
  refine Steady.get fun c hlocals hglobals => ?_
  exact Steady.ofExcept (c.store.resolve table slot expected) c hlocals hglobals

theorem steady_burn : Steady locals globals 0 burn := by
  refine Steady.get fun c _ _ => ?_
  unfold Store.burn
  split
  · exact ⟨.refl c, Nat.le_refl _⟩
  · exact ⟨⟨_, rfl⟩, .refl c⟩
  · exact ⟨⟨List.Subset.refl _, rfl, rfl, rfl, rfl⟩, Nat.le_refl _⟩

theorem length_unwound {stack stack' : List Value} {height arity : Nat}
    (h : unwound stack height arity = .ok stack') :
    stack'.length = height + arity ∧ height + arity ≤ stack.length := by
  unfold unwound at h
  split at h
  · cases h
  · cases h
    simp only [List.length_append, List.length_take, List.length_drop]
    omega

theorem steady_unwind (height arity : Nat) : Steady locals globals 0 (unwind height arity) := by
  refine Steady.get fun c _ _ => ?_
  cases hstack : unwound c.stack height arity with
  | error t => exact ⟨⟨_, rfl⟩, .refl c⟩
  | ok stack =>
    have hlen := length_unwound hstack
    exact ⟨⟨List.Subset.refl _, rfl, rfl, rfl, rfl⟩, by simp only [Nat.add_zero]; omega⟩

theorem steady_branch (depth : Nat) : Steady locals globals 0 (branch depth) := by
  refine Steady.get fun c hlocals hglobals => ?_
  cases c.labels[depth]? with
  | none => exact ⟨.refl c, Nat.le_refl _⟩
  | some label =>
    refine (steady_unwind _ _).bind (fun _ => ?_) c hlocals hglobals
    refine Steady.bind (fun c _ _ => ?_) fun _ => Steady.pure _
    exact ⟨⟨List.drop_subset _ _, rfl, rfl, rfl, rfl⟩, Nat.le_refl _⟩

theorem steady_close : Steady locals globals 0 close := by
  refine Steady.get fun c hlocals hglobals => ?_
  cases hlabels : c.labels with
  | nil => exact ⟨.refl c, Nat.le_refl _⟩
  | cons label rest =>
    have hkept : c.Kept { c with labels := rest } := by
      refine ⟨?_, rfl, rfl, rfl, rfl⟩
      rw [hlabels]
      exact List.subset_cons_self label rest
    have hunwind : Steady locals globals 0 (do unwind label.height label.results; return true) :=
      (steady_unwind _ _).bind fun _ => Steady.pure true
    exact (hunwind { c with labels := rest } hlocals hglobals).after hkept (Nat.le_refl _)

theorem enter_cases (kind : LabelKind) (target : Nat) (arity : Nat × Nat) (c : Context) :
    enter kind target arity c = .error (.trap .stackUnderflow) c ∨
    enter kind target arity c = .ok ()
      { c with labels :=
          { kind, target, height := c.stack.length - arity.1
            arity := if kind = .loop then arity.1 else arity.2
            results := arity.2 } :: c.labels } := by
  by_cases hlen : c.stack.length < arity.1
  · exact .inl (by simp [enter, bind_apply, hlen])
  · exact .inr (by simp [enter, bind_apply, hlen])

theorem Steady.produce {value : Exec Value} (h : Steady locals globals 0 value) :
    Steady locals globals 1 (Plain.produce value) := by
  refine h.bind fun v => ?_
  exact fun _ _ _ => ⟨⟨List.Subset.refl _, rfl, rfl, rfl, rfl⟩, Nat.le_refl _⟩

end Exec

open Exec

/-- A plain instruction that passes its check returns or traps. -/
theorem Plain.exec_steady {m : Module} {locals : Nat} {i : Plain}
    (h : Validity.plain m locals i = .ok ()) :
    Steady locals m.globalTypes.size 1 (i.exec m.types) := by
  cases i with
  | unreachable => exact Steady.trap 1 _
  | nop | br _ | return_ | call _ => exact (Steady.pure _).weaken 1
  | brIf depth =>
    refine ((steady_popInt .w32).bind fun cond => ?_).weaken 1
    split <;> exact Steady.pure _
  | brTable targets default => exact ((steady_popInt .w32).bind fun _ => Steady.pure _).weaken 1
  | callIndirect type table =>
    refine ((steady_popInt .w32).bind fun slot => ?_).weaken 1
    split
    · exact (steady_resolve _ _ _).bind fun _ => Steady.pure _
    · exact Steady.trap 0 _
  | drop => exact (steady_pop.bind fun _ => Steady.pure _).weaken 1
  | select =>
    refine Steady.produce ((steady_popInt .w32).bind fun cond => ?_)
    exact steady_pop.bind fun b => steady_pop.bind fun a => Steady.ofExcept _
  | localGet index => exact Steady.produce (steady_localGet (Validity.inRange_ok_iff.mp h))
  | localSet index =>
    have hindex := Validity.inRange_ok_iff.mp h
    exact (steady_pop.bind fun v => (steady_localSet hindex v).bind fun _ => Steady.pure _).weaken 1
  | localTee index =>
    have hindex := Validity.inRange_ok_iff.mp h
    exact (steady_top.bind fun v => (steady_localSet hindex v).bind fun _ => Steady.pure _).weaken 1
  | globalGet index => exact Steady.produce (steady_globalGet (Validity.inRange_ok_iff.mp h))
  | globalSet index =>
    have hindex := Validity.inRange_ok_iff.mp (Validity.seq_ok_iff.mp h).1
    refine (steady_pop.bind fun v => ?_).weaken 1
    exact (steady_globalSet hindex v).bind fun _ => Steady.pure _
  | load kind arg => exact Steady.produce ((steady_popInt .w32).bind fun _ => steady_load _ _)
  | store kind arg =>
    refine (steady_pop.bind fun v => (steady_popInt .w32).bind fun base => ?_).weaken 1
    exact (steady_store _ _ _).bind fun _ => Steady.pure _
  | memorySize => exact Steady.produce (steady_memorySize.bind fun _ => Steady.pure _)
  | memoryGrow =>
    refine Steady.produce ((steady_popInt .w32).bind fun delta => ?_)
    exact (steady_memoryGrow delta).bind fun _ => Steady.pure _
  | const v => exact Steady.produce (Steady.pure v)
  | intEqz w => exact Steady.produce ((steady_popInt w).bind fun _ => Steady.pure _)
  | intUnary w op => exact Steady.produce ((steady_popInt w).bind fun _ => Steady.pure _)
  | floatUnary w op => exact Steady.produce ((steady_popFloat w).bind fun _ => Steady.pure _)
  | intCompare w op =>
    refine Steady.produce ((steady_popInt w).bind fun b => ?_)
    exact (steady_popInt w).bind fun a => Steady.pure _
  | intBinary w op =>
    refine Steady.produce ((steady_popInt w).bind fun b => (steady_popInt w).bind fun a => ?_)
    exact (Steady.ofExcept _).bind fun _ => Steady.pure _
  | floatCompare w op | floatBinary w op =>
    refine Steady.produce ((steady_popFloat w).bind fun b => ?_)
    exact (steady_popFloat w).bind fun a => Steady.pure _
  | convert op => exact Steady.produce (steady_pop.bind fun v => Steady.ofExcept _)

end Wasm
