import Wasm.Proofs.Machine.Confined
import Wasm.Proofs.Structured.Eval

/-!
# Flat runs

How a machine runs a frame at a position of its body: where its run gets to,
and how each action in the frame corresponds to one on operands, locals and
store alone.
-/

namespace Wasm

variable {σ α : Type}

-- ---------------------------------------------------------------------------
-- Actions that do not see labels
-- ---------------------------------------------------------------------------

namespace Exec

/-- The action neither sees nor changes the entered blocks. -/
def Unlabelled (a : Exec α) : Prop :=
  ∀ c labels, a { c with labels } = mapState ({ · with labels }) (a c)

theorem Confined.unlabelled {a : Exec α} (ha : Confined a) : Unlabelled a := by
  intro c labels
  have hrefit : a { c with labels } = mapState (·.refit labels c.store.fuel) (a c) :=
    ha.refit c labels c.store.fuel
  have hfuel := (ha.kept c).2
  rw [hrefit]
  cases hresult : a c with
  | ok x c' =>
    rw [hresult] at hfuel
    rw [← hfuel]
    rfl
  | error e c' =>
    rw [hresult] at hfuel
    rw [← hfuel]
    rfl

end Exec

-- ---------------------------------------------------------------------------
-- Where a run gets to
-- ---------------------------------------------------------------------------

/-- The machine without frames and prepared code. -/
def Machine.bare (m : Machine σ) : Machine σ := m.graft [] ⟨#[]⟩

namespace Run

/-- The result of a run that came to its end. -/
def Finished (r : EStateM.Result Fault (Machine σ) α) : Prop := ∀ m, r ≠ .error .unfinished m

variable {env : Env σ} {s s' m m' : Machine σ}

theorem steps_nil (h : m.frames = []) (budget : Nat) : steps env budget m = .ok () m := by
  cases budget <;> simp [steps, bind_apply, h]

theorem steps_zero (h : m.frames ≠ []) : steps env 0 m = .error .unfinished m := by
  simp [steps, bind_apply, h]

theorem steps_succ (h : m.frames ≠ []) (budget : Nat) :
    steps env (budget + 1) m = (step env >>= fun _ => steps env budget) m := by
  simp [steps, bind_apply, h]

/-- Steps granted beyond the end change nothing. -/
theorem steps_add {budget : Nat} (h : Finished (steps env budget m)) (more : Nat) :
    steps env (budget + more) m = steps env budget m := by
  induction budget generalizing m with
  | zero =>
    by_cases hframes : m.frames = []
    · rw [steps_nil hframes, steps_nil hframes]
    · exact absurd (steps_zero hframes) (h m)
  | succ budget ih =>
    by_cases hframes : m.frames = []
    · rw [steps_nil hframes, steps_nil hframes]
    · rw [Nat.add_right_comm, steps_succ hframes, steps_succ hframes, bind_apply, bind_apply]
      rw [steps_succ hframes, bind_apply] at h
      cases hstep : step env m with
      | ok x m' =>
        rw [hstep] at h
        exact ih h
      | error e m' => rfl

/-- The run gets from one machine to the other in so many steps. -/
def Reaches (env : Env σ) (k : Nat) (s m : Machine σ) : Prop :=
  ∀ budget, steps env (k + budget) s = steps env budget m

theorem Reaches.refl (s : Machine σ) : Reaches env 0 s s := by
  intro budget
  rw [Nat.zero_add]

theorem Reaches.trans {j k : Nat} (h₁ : Reaches env j s s') (h₂ : Reaches env k s' m) :
    Reaches env (j + k) s m := by
  intro budget
  rw [Nat.add_assoc, h₁, h₂]

theorem Reaches.of_step (hframes : s.frames ≠ []) (h : step env s = .ok () m) :
    Reaches env 1 s m := by
  intro budget
  rw [Nat.add_comm, steps_succ hframes, bind_ok h]

/-- The run comes to a step that does the action on the machine. -/
def Comes (env : Env σ) (s : Machine σ) (a : Run σ Unit) (m : Machine σ) : Prop :=
  ∃ k s', Reaches env k s s' ∧ s'.frames ≠ [] ∧ step env s' = a m

theorem Comes.of_step {a : Run σ Unit} (hframes : s.frames ≠ []) (h : step env s = a m) :
    Comes env s a m := ⟨0, s, Reaches.refl s, hframes, h⟩

theorem Reaches.comes {k : Nat} {a : Run σ Unit} (hk : Reaches env k s s')
    (h : Comes env s' a m) : Comes env s a m := by
  obtain ⟨j, s'', hj, hframes, hstep⟩ := h
  exact ⟨k + j, s'', hk.trans hj, hframes, hstep⟩

theorem Comes.reaches {a : Run σ Unit} (h : Comes env s a m) (ha : a m = .ok () m') :
    ∃ k, Reaches env (k + 1) s m' := by
  obtain ⟨k, s', hk, hframes, hstep⟩ := h
  exact ⟨k, hk.trans (Reaches.of_step hframes (hstep.trans ha))⟩

/-- The run ends with the fault, due to the same function and with the same
    machine up to its frames as there; the fault of an evaluation that reached
    its bound `n` means that the run takes more than `n` steps. -/
def Fails (env : Env σ) (n : Nat) (s : Machine σ) (e : Fault) (m : Machine σ) : Prop :=
  (e = .unfinished → ¬ Finished (steps env n s)) ∧
  (e ≠ .unfinished → ∃ k m', (∀ budget, steps env (k + budget) s = .error e m') ∧
    m'.blameFrame.bare = m.blameFrame.bare)

theorem Comes.fails {a : Run σ Unit} {e : Fault} (h : Comes env s a m) (ha : a m = .error e m')
    (n : Nat) : Fails env n s e m' := by
  obtain ⟨k, s', hk, hframes, hstep⟩ := h
  have hsteps : ∀ budget, steps env (k + 1 + budget) s = .error e m' := by
    intro budget
    rw [Nat.add_assoc, hk, Nat.add_comm, steps_succ hframes, bind_error (hstep.trans ha)]
  refine ⟨fun he hfinished => ?_, fun _ => ⟨k + 1, m', hsteps, rfl⟩⟩
  have hmore := steps_add hfinished (k + 1)
  rw [Nat.add_comm, hsteps n] at hmore
  exact hfinished m' (he ▸ hmore.symm)

theorem Reaches.fails {k n n' : Nat} {e : Fault} (hk : Reaches env k s s')
    (h : Fails env n s' e m) (hn : n' ≤ k + n) : Fails env n' s e m := by
  refine ⟨fun he hfinished => ?_, fun he => ?_⟩
  · refine h.1 he ?_
    obtain ⟨more, hmore⟩ := Nat.exists_eq_add_of_le hn
    rw [← hk n, hmore, steps_add hfinished more]
    exact hfinished
  · obtain ⟨j, m', hsteps, hm'⟩ := h.2 he
    refine ⟨k + j, m', fun budget => ?_, hm'⟩
    rw [Nat.add_assoc, hk, hsteps]

end Run

-- ---------------------------------------------------------------------------
-- A frame at a position
-- ---------------------------------------------------------------------------

/-- An active function of a flat run and the frames below it. -/
structure Site where
  frame : Frame
  below : List Frame
  cache : CodeCache

/-- The label of a construct above that many operands. -/
def Label.of (kind : LabelKind) (target : Nat) (arity : Nat × Nat) (height : Nat) : Label :=
  { kind, target, height, arity := if kind = .loop then arity.1 else arity.2, results := arity.2 }

namespace Site

open Run Structured

variable {env : Env σ} {x : Site} {t t' : Machine σ} {pc code : Nat} {label : Label}
  {labels : List Label} {locals locals' : Array Value}

/-- The flat machine at a position of the function, with the operands and the
    store of the other. -/
def machine (x : Site) (t : Machine σ) (pc : Nat) (labels : List Label) (locals : Array Value) :
    Machine σ :=
  t.graft ({ x.frame with pc, labels, locals } :: x.below) x.cache

/-- The flat machine somewhere in the function. -/
def inside (x : Site) (t : Machine σ) : Machine σ := t.graft (x.frame :: x.below) x.cache

theorem blame_machine : (x.machine t pc labels locals).blameFrame.bare =
    (x.inside t).blameFrame.bare := rfl

theorem frames_machine : (x.machine t pc labels locals).frames ≠ [] := List.cons_ne_nil _ _

theorem step_machine {i : Instr} (hcode : x.frame.code = .body code)
    (h : env.module.instr? code pc = some i) :
    step env (x.machine t pc labels locals) =
      interpret env pc i (x.machine t (pc + 1) labels locals) := by
  have hcode' : ({ x.frame with pc, labels, locals } : Frame).code = .body code := hcode
  rw [step_body rfl hcode']
  simp only [stepBody, h, bind_apply, goto_apply]
  rfl

theorem step_machine_none (hcode : x.frame.code = .body code)
    (h : env.module.instr? code pc = none) :
    step env (x.machine t pc labels locals) = leave (x.machine t pc labels locals) := by
  have hcode' : ({ x.frame with pc, labels, locals } : Frame).code = .body code := hcode
  rw [step_body rfl hcode']
  simp only [stepBody, h]

theorem goto_machine (q : Nat) :
    (x.machine t pc labels locals).goto q = x.machine t q labels locals := rfl

theorem inFrame_machine (a : Exec α) :
    inFrame a (x.machine t pc labels locals) =
      match a { stack := t.stack, locals, labels, store := t.store } with
      | .ok v c =>
        .ok v (x.machine { t with stack := c.stack, store := c.store } pc c.labels c.locals)
      | .error e c =>
        .error e (x.machine { t with stack := c.stack, store := c.store } pc c.labels c.locals) :=
  rfl

theorem inFrame_ok {a : Exec α} {v : α} (ha : Exec.Unlabelled a)
    (h : onLocals locals a t = .ok (v, locals') t') :
    inFrame a (x.machine t pc labels locals) = .ok v (x.machine t' pc labels locals') := by
  rw [inFrame_machine, ha { stack := t.stack, locals, store := t.store } labels]
  unfold onLocals at h
  cases hac : a { stack := t.stack, locals, store := t.store } with
  | ok w c =>
    rw [hac] at h
    cases h
    rfl
  | error e c =>
    rw [hac] at h
    cases h

theorem inFrame_error {a : Exec α} {e : Fault} (ha : Exec.Unlabelled a)
    (h : onLocals locals a t = .error e t') :
    ∃ locals', inFrame a (x.machine t pc labels locals) =
      .error e (x.machine t' pc labels locals') := by
  rw [inFrame_machine, ha { stack := t.stack, locals, store := t.store } labels]
  unfold onLocals at h
  cases hac : a { stack := t.stack, locals, store := t.store } with
  | ok w c =>
    rw [hac] at h
    cases h
  | error e c =>
    rw [hac] at h
    cases h
    exact ⟨c.locals, rfl⟩

theorem keep_apply (height arity : Nat) (t : Machine σ) :
    keep height arity t = match Exec.unwound t.stack height arity with
      | .ok stack => .ok () { t with stack }
      | .error e => .error (.trap e) t := by
  simp only [keep, bind_apply, get_apply, ofExcept_apply]
  cases Exec.unwound t.stack height arity <;> rfl

theorem below_cases (params : Nat) (t : Machine σ) :
    Structured.below params t = .error (.trap .stackUnderflow) t ∨
    ∃ height, Structured.below params t = .ok height t := by
  by_cases hlen : t.stack.length < params
  · exact .inl (by simp [Structured.below, bind_apply, hlen])
  · exact .inr ⟨t.stack.length - params, by simp [Structured.below, bind_apply, hlen]⟩

theorem inFrame_enter (kind : LabelKind) (target : Nat) (arity : Nat × Nat) :
    inFrame (Exec.enter kind target arity) (x.machine t pc labels locals) =
      match Structured.below arity.1 t with
      | .ok height t' => .ok () (x.machine t' pc (.of kind target arity height :: labels) locals)
      | .error e t' => .error e (x.machine t' pc labels locals) := by
  simp only [inFrame_machine, Exec.enter, Structured.below, bind_apply, Exec.bind_apply, get_apply,
    Exec.get_apply]
  by_cases hlen : t.stack.length < arity.1
  · simp only [hlen, if_true]
    rfl
  · simp only [hlen, if_false]
    rfl

theorem inFrame_close :
    inFrame Exec.close (x.machine t pc (label :: labels) locals) =
      match keep label.height label.results t with
      | .ok _ t' => .ok true (x.machine t' pc labels locals)
      | .error e t' => .error e (x.machine t' pc labels locals) := by
  simp only [inFrame_machine, Exec.close, Exec.bind_apply, Exec.get_apply, Exec.set_apply,
    Exec.unwind_apply, keep_apply]
  cases Exec.unwound t.stack label.height label.results <;> rfl

theorem inFrame_close_nil :
    inFrame Exec.close (x.machine t pc [] locals) = .ok false (x.machine t pc [] locals) := rfl

theorem inFrame_burn :
    inFrame Exec.burn (x.machine t pc labels locals) =
      match burn t with
      | .ok _ t' => .ok () (x.machine t' pc labels locals)
      | .error e t' => .error e (x.machine t' pc labels locals) := by
  simp only [inFrame_machine, Exec.burn, burn, Exec.bind_apply, bind_apply, Exec.get_apply,
    get_apply, Exec.ofExcept_apply, ofExcept_apply]
  cases t.store.burn <;> rfl

/-- A branch that has arrived at the label after leaving those inside it. -/
theorem inFrame_branch (inner : List Label) :
    inFrame (Exec.branch inner.length) (x.machine t pc (inner ++ label :: labels) locals) =
      match keep label.height label.arity t with
      | .ok _ t' =>
        .ok (if label.kind = .loop then .again label.target else .jump label.target)
          (x.machine t' pc labels locals)
      | .error e t' => .error e (x.machine t' pc (inner ++ label :: labels) locals) := by
  have hlabel : (inner ++ label :: labels)[inner.length]? = some label := by simp
  have hdrop : (inner ++ label :: labels).drop (inner.length + 1) = labels := by simp
  simp only [inFrame_machine, Exec.branch, Exec.bind_apply, Exec.get_apply, hlabel,
    Exec.unwind_apply, keep_apply]
  cases Exec.unwound t.stack label.height label.arity with
  | error e => rfl
  | ok stack =>
    simp only [Exec.modify_apply, Exec.pure_apply, hdrop]
    cases label.kind <;> rfl

theorem branch_jump {d : UInt32} {inner : List Label} (hd : d.toNat = inner.length)
    (hkind : label.kind ≠ .loop) :
    Run.branch d (x.machine t pc (inner ++ label :: labels) locals) =
      match keep label.height label.arity t with
      | .ok _ t' => .ok () (x.machine t' label.target labels locals)
      | .error e t' => .error e (x.machine t' pc (inner ++ label :: labels) locals) := by
  simp only [Run.branch, bind_apply, hd, inFrame_branch]
  cases keep label.height label.arity t with
  | error e t' => rfl
  | ok _ t' => simp only [hkind, if_false, goto_apply, goto_machine]

/-- Going back to a loop, which is paid for at its start. -/
theorem branch_again {d : UInt32} {inner : List Label} (hd : d.toNat = inner.length)
    (hkind : label.kind = .loop) :
    Run.branch d (x.machine t pc (inner ++ label :: labels) locals) =
      match keep label.height label.arity t with
      | .ok _ t' =>
        match burn t' with
        | .ok _ t'' => .ok () (x.machine t'' label.target labels locals)
        | .error e t'' => .error e (x.machine t'' label.target labels locals)
      | .error e t' => .error e (x.machine t' pc (inner ++ label :: labels) locals) := by
  simp only [Run.branch, bind_apply, hd, inFrame_branch]
  cases keep label.height label.arity t with
  | error e t' => rfl
  | ok _ t' => simp only [hkind, if_true, bind_apply, goto_apply, goto_machine, inFrame_burn]

/-- A branch past the outermost label. -/
theorem branch_leave {d : UInt32} (hd : labels.length ≤ d.toNat) :
    Run.branch d (x.machine t pc labels locals) = leave (x.machine t pc labels locals) := by
  have hlabel : labels[d.toNat]? = none := List.getElem?_eq_none hd
  simp only [Run.branch, bind_apply, inFrame_machine, Exec.branch, Exec.bind_apply,
    Exec.get_apply, hlabel]
  rfl

theorem leave_machine :
    leave (x.machine t pc labels locals) =
      match keep x.frame.height x.frame.arity { t with depth := t.depth - 1 } with
      | .ok _ t' => .ok () (t'.graft x.below x.cache)
      | .error e t' => .error e (t'.graft x.below x.cache) := by
  simp only [leave, bind_apply, get_apply, set_apply, ofExcept_apply, keep_apply, machine,
    Machine.graft]
  cases Exec.unwound t.stack x.frame.height x.frame.arity <;> rfl

end Site

end Wasm
