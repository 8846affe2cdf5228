import Wasm.Proofs.Format.Decoded
import Wasm.Proofs.Structured.Flat

/-!
# Flat runs refine structured evaluation

A flat run of a body ends exactly if the evaluation of the tree that the body
spells does, and with the same outcome. The proof follows the tree: wherever
its layout stands in a body, the run that enters it at its first position is
matched with the evaluation, exit by exit.
-/

namespace Wasm

open Run Structured

variable {σ : Type}

-- ---------------------------------------------------------------------------
-- Layouts in bodies
-- ---------------------------------------------------------------------------

namespace Module

/-- The body of the function holds the instructions from that position on. -/
def Holds (m : Module) (code pc : Nat) (is : List Instr) : Prop :=
  ∀ k i, is[k]? = some i → m.instr? code (pc + k) = some i

variable {m : Module} {code pc : Nat}

theorem Holds.cons_iff {i : Instr} {is : List Instr} :
    m.Holds code pc (i :: is) ↔ m.instr? code pc = some i ∧ m.Holds code (pc + 1) is := by
  constructor
  · intro h
    refine ⟨h 0 i rfl, fun k j hj => ?_⟩
    rw [Nat.add_assoc, Nat.add_comm 1]
    exact h (k + 1) j hj
  · rintro ⟨hi, h⟩ k j hj
    cases k with
    | zero =>
      cases hj
      exact hi
    | succ k =>
      rw [Nat.add_comm k, ← Nat.add_assoc]
      exact h k j hj

theorem Holds.append_iff {is js : List Instr} :
    m.Holds code pc (is ++ js) ↔ m.Holds code pc is ∧ m.Holds code (pc + is.length) js := by
  induction is generalizing pc with
  | nil => simp [Holds]
  | cons i is ih =>
    rw [List.cons_append, Holds.cons_iff, Holds.cons_iff, ih, and_assoc, List.length_cons,
      Nat.add_assoc, Nat.add_comm 1]

/-- The bodies of the module are the layouts of the trees. -/
def Spells (m : Module) (trees : Array Code) : Prop :=
  m.functions.map (·.body) = trees.map Code.body

/-- An instruction of a body is the one at its place in the layout of the tree. -/
theorem Spells.instr? {trees : Array Code} (h : m.Spells trees) (code pc : Nat) :
    m.instr? code pc = trees[code]?.bind fun c => c.body[pc]? := by
  have hbody := congrArg (·[code]?) h
  simp only [Array.getElem?_map] at hbody
  unfold Module.instr?
  cases hf : m.functions[code]? with
  | none =>
    rw [hf] at hbody
    cases hc : trees[code]? with
    | none => rfl
    | some c => rw [hc] at hbody; cases hbody
  | some f =>
    rw [hf] at hbody
    cases hc : trees[code]? with
    | none => rw [hc] at hbody; cases hbody
    | some c =>
      rw [hc] at hbody
      have hbody : f.body = c.body := Option.some.inj hbody
      change f.body[pc]? = c.body[pc]?
      rw [hbody]

end Module

theorem Run.Fails.congr {env : Env σ} {n : Nat} {s m m' : Machine σ} {e : Fault}
    (h : Fails env n s e m) (hm : m.blameFrame.bare = m'.blameFrame.bare) :
    Fails env n s e m' := by
  refine ⟨h.1, fun he => ?_⟩
  obtain ⟨k, m'', hsteps, hm''⟩ := h.2 he
  exact ⟨k, m'', hsteps, hm''.trans hm⟩

-- ---------------------------------------------------------------------------
-- Matching exits
-- ---------------------------------------------------------------------------

/-- The flat run from `s` does what the evaluation of a piece of code did, of
    which this is the result. `q` is the position behind the code, `labels` are
    the blocks around it, and `n` bounds the evaluation. A branch is matched at
    the instruction it is taken by, which may stand in blocks of the code. -/
def Site.Matches (x : Site) (env : Env σ) (n : Nat) (s : Machine σ) (q : Nat)
    (labels : List Label) : EStateM.Result Fault (Machine σ) Exit → Prop
  | .ok (.fall locals) t => ∃ k, Reaches env k s (x.machine t q labels locals)
  | .ok (.branch depth locals) t =>
    ∃ (d : UInt32) (inner : List Label) (pc : Nat), d.toNat = depth + inner.length ∧
      Comes env s (Run.branch d) (x.machine t pc (inner ++ labels) locals)
  | .ok .return_ t => ∃ pc labels locals, Comes env s leave (x.machine t pc labels locals)
  | .error e t => Fails env n s e (x.inside t)

/-- The flat run from `s` does what the evaluation of a call did, of which this
    is the result: it gets back to the frames below. -/
def Run.Returns (env : Env σ) (n : Nat) (s : Machine σ) (frames : List Frame)
    (cache : CodeCache) : EStateM.Result Fault (Machine σ) Unit → Prop
  | .ok _ t => ∃ k, Reaches env k s (t.graft frames cache)
  | .error e t => Fails env n s e (t.graft frames cache)

theorem Run.Returns.after {env : Env σ} {n n' k : Nat} {s s' : Machine σ} {frames : List Frame}
    {cache : CodeCache} {r : EStateM.Result Fault (Machine σ) Unit}
    (h : Returns env n s' frames cache r) (hk : Reaches env k s s') (hn : n' ≤ k + n) :
    Returns env n' s frames cache r := by
  cases r with
  | ok _ t =>
    obtain ⟨j, hj⟩ := h
    exact ⟨k + j, hk.trans hj⟩
  | error e t => exact hk.fails h hn

namespace Site

variable {env : Env σ} {x : Site} {n k q q' code : Nat} {s s' t : Machine σ}
  {label : Label} {labels : List Label} {locals : Array Value}
  {r : EStateM.Result Fault (Machine σ) Exit}

/-- A run that first gets to the code. -/
theorem Matches.after {n' : Nat} (h : x.Matches env n s' q labels r) (hk : Reaches env k s s')
    (hn : n' ≤ k + n) : x.Matches env n' s q labels r := by
  unfold Matches at h ⊢
  split at h
  · obtain ⟨j, hj⟩ := h
    exact ⟨k + j, hk.trans hj⟩
  · obtain ⟨d, inner, pc, hd, hcomes⟩ := h
    exact ⟨d, inner, pc, hd, hk.comes hcomes⟩
  · obtain ⟨pc, labels, locals, hcomes⟩ := h
    exact ⟨pc, labels, locals, hk.comes hcomes⟩
  · exact hk.fails h hn

/-- A step that faults, at whatever position. -/
theorem Matches.of_error {a : Run σ Unit} {m m' : Machine σ} {e : Fault}
    (h : Comes env s a m) (ha : a m = .error e m')
    (hm' : m'.blameFrame.bare = (x.inside t).blameFrame.bare) :
    x.Matches env n s q labels (.error e t) := (h.fails ha n).congr hm'

theorem Matches.andThen {first : Run σ Exit} {next : Array Value → Run σ Exit}
    (hfirst : x.Matches env n s q labels (first t))
    (hnext : ∀ locals t',
      x.Matches env n (x.machine t' q labels locals) q' labels (next locals t')) :
    x.Matches env n s q' labels (andThen first next t) := by
  rw [Structured.andThen, bind_apply]
  cases hr : first t with
  | error e t' =>
    rw [hr] at hfirst
    exact hfirst
  | ok exit t' =>
    rw [hr] at hfirst
    cases exit with
    | fall locals =>
      obtain ⟨k, hk⟩ := hfirst
      exact (hnext locals t').after hk (Nat.le_add_left n k)
    | branch depth locals => exact hfirst
    | return_ => exact hfirst

/-- Leaving a construct, whose end stands at `q`. -/
theorem Matches.outward {body : Run σ Exit} {arrive : Array Value → Run σ Exit}
    (hcode : x.frame.code = .body code) (hend : env.module.instr? code q = some .end_)
    (hbody : x.Matches env n s q (label :: labels) (body t))
    (harrive : ∀ (d : UInt32) (inner : List Label) pc locals t', d.toNat = inner.length →
      Comes env s (Run.branch d) (x.machine t' pc (inner ++ label :: labels) locals) →
      x.Matches env n s (q + 1) labels (arrive locals t')) :
    x.Matches env n s (q + 1) labels
      ((body >>= outward label.height label.results arrive) t) := by
  rw [bind_apply]
  cases hr : body t with
  | error e t' =>
    rw [hr] at hbody
    exact hbody
  | ok exit t' =>
    rw [hr] at hbody
    cases exit with
    | fall locals =>
      obtain ⟨k, hk⟩ := hbody
      have hstep : step env (x.machine t' q (label :: labels) locals) =
          interpret env q .end_ (x.machine t' (q + 1) (label :: labels) locals) :=
        step_machine hcode hend
      have hcomes := hk.comes (Comes.of_step frames_machine hstep)
      dsimp only [Structured.outward]
      rw [bind_apply]
      cases hkeep : keep label.height label.results t' with
      | error e t'' =>
        have hclose : interpret env q .end_ (x.machine t' (q + 1) (label :: labels) locals) =
            .error e (x.machine t'' (q + 1) labels locals) := by
          simp only [interpret, bind_apply, inFrame_close, hkeep]
        exact Matches.of_error hcomes hclose rfl
      | ok _ t'' =>
        have hclose : interpret env q .end_ (x.machine t' (q + 1) (label :: labels) locals) =
            .ok () (x.machine t'' (q + 1) labels locals) := by
          simp only [interpret, bind_apply, inFrame_close, hkeep]
          rfl
        obtain ⟨j, hj⟩ := hcomes.reaches hclose
        exact ⟨j + 1, hj⟩
    | branch depth locals =>
      obtain ⟨d, inner, pc, hd, hcomes⟩ := hbody
      cases depth with
      | zero => exact harrive d inner pc locals t' (by omega) hcomes
      | succ depth =>
        refine ⟨d, inner ++ [label], pc, ?_, ?_⟩
        · rw [hd, List.length_append, List.length_singleton]
          omega
        · rw [List.append_assoc, List.singleton_append]
          exact hcomes
    | return_ => exact hbody

/-- The next step enters a construct, unless its parameters are not there, and
    gets to position `p` in its body. -/
def Enters (x : Site) (env : Env σ) (s t : Machine σ) (kind : LabelKind) (target : Nat)
    (arity : Nat × Nat) (p : Nat) (labels : List Label) (locals : Array Value) : Prop :=
  s.frames ≠ [] ∧ ∃ pc, step env s = match Structured.below arity.1 t with
    | .ok height t' => .ok () (x.machine t' p (.of kind target arity height :: labels) locals)
    | .error e t' => .error e (x.machine t' pc labels locals)

theorem Enters.of_step {kind : LabelKind} {target p : Nat} {arity : Nat × Nat}
    (hframes : s.frames ≠ [])
    (h : step env s = inFrame (Exec.enter kind target arity) (x.machine t p labels locals)) :
    x.Enters env s t kind target arity p labels locals := by
  refine ⟨hframes, p, h.trans ((inFrame_enter kind target arity).trans ?_)⟩
  cases Structured.below arity.1 t <;> rfl

theorem Matches.enclose {kind : LabelKind} {target p : Nat} {arity : Nat × Nat}
    {body : Run σ Exit} {arrive : Nat → Array Value → Run σ Exit}
    (hcode : x.frame.code = .body code) (hend : env.module.instr? code q = some .end_)
    (henters : x.Enters env s t kind target arity p labels locals)
    (hbody : ∀ height, x.Matches env n
      (x.machine t p (.of kind target arity height :: labels) locals) q
      (.of kind target arity height :: labels) (body t))
    (harrive : ∀ height (d : UInt32) (inner : List Label) pc locals t', d.toNat = inner.length →
      Comes env s (Run.branch d)
        (x.machine t' pc (inner ++ .of kind target arity height :: labels) locals) →
      x.Matches env n s (q + 1) labels (arrive height locals t')) :
    x.Matches env n s (q + 1) labels (enclose arity body arrive t) := by
  obtain ⟨hframes, pc, henter⟩ := henters
  rw [Structured.enclose, bind_apply]
  rcases below_cases arity.1 t with hbelow | ⟨height, hbelow⟩
  · rw [hbelow] at henter ⊢
    exact Matches.of_error (Comes.of_step (a := step env) hframes rfl) henter blame_machine
  · rw [hbelow] at henter ⊢
    have hentered := (hbody height).after (Reaches.of_step hframes henter) (Nat.le_add_left n 1)
    have houtward := Matches.outward hcode hend hentered (harrive height)
    exact houtward

/-- A block or the branches of an `if_`, which a branch leaves as its end does. -/
theorem Matches.block {kind : LabelKind} {p : Nat} {arity : Nat × Nat} {body : Run σ Exit}
    (hcode : x.frame.code = .body code) (hend : env.module.instr? code q = some .end_)
    (hkind : kind ≠ .loop) (henters : x.Enters env s t kind (q + 1) arity p labels locals)
    (hbody : ∀ height, x.Matches env n
      (x.machine t p (.of kind (q + 1) arity height :: labels) locals) q
      (.of kind (q + 1) arity height :: labels) (body t)) :
    x.Matches env n s (q + 1) labels (block arity body t) := by
  refine Matches.enclose hcode hend henters hbody ?_
  intro height d inner pc locals t₁ hd hcomes
  have harity : (Label.of kind (q + 1) arity height).arity = arity.2 := if_neg hkind
  have hbranch : Run.branch d (x.machine t₁ pc (inner ++ .of kind (q + 1) arity height :: labels)
      locals) = _ := branch_jump hd hkind
  rw [harity, show (Label.of kind (q + 1) arity height).height = height from rfl] at hbranch
  rw [bind_apply]
  cases hkeep : keep height arity.2 t₁ with
  | error e t₂ =>
    rw [hkeep] at hbranch
    exact Matches.of_error hcomes hbranch blame_machine
  | ok _ t₂ =>
    rw [hkeep] at hbranch
    obtain ⟨k, hk⟩ := hcomes.reaches hbranch
    exact ⟨k + 1, hk⟩

/-- A loop, at whose start the run is again after a branch to it. -/
theorem Matches.loop {p pc : Nat} {arity : Nat × Nat} {body : Run σ Exit}
    {again : Array Value → Run σ Exit}
    (hcode : x.frame.code = .body code) (hend : env.module.instr? code q = some .end_)
    (henters : x.Enters env s t .loop pc arity p labels locals)
    (hbody : ∀ height, x.Matches env (n + 1)
      (x.machine t p (.of .loop pc arity height :: labels) locals) q
      (.of .loop pc arity height :: labels) (body t))
    (hagain : ∀ locals t', x.Matches env n (x.machine t' pc labels locals) (q + 1) labels
      (again locals t')) :
    x.Matches env (n + 1) s (q + 1) labels (loop arity body again t) := by
  refine Matches.enclose hcode hend henters hbody ?_
  intro height d inner pc' locals t₁ hd hcomes
  have hbranch : Run.branch d (x.machine t₁ pc' (inner ++ .of .loop pc arity height :: labels)
      locals) = _ := branch_again hd rfl
  rw [show (Label.of .loop pc arity height).arity = arity.1 from rfl,
    show (Label.of .loop pc arity height).height = height from rfl] at hbranch
  rw [bind_apply]
  cases hkeep : keep height arity.1 t₁ with
  | error e t₂ =>
    rw [hkeep] at hbranch
    exact Matches.of_error hcomes hbranch blame_machine
  | ok _ t₂ =>
    rw [hkeep] at hbranch
    dsimp only at hbranch ⊢
    rw [bind_apply]
    cases hburn : burn t₂ with
    | error e t₃ =>
      rw [hburn] at hbranch
      exact Matches.of_error hcomes hbranch blame_machine
    | ok _ t₃ =>
      rw [hburn] at hbranch
      obtain ⟨k, hk⟩ := hcomes.reaches hbranch
      exact (hagain locals t₃).after hk (by omega)

/-- An `if_`, which goes on behind its `else_`, if it has one, or at its end. -/
theorem Matches.choose {type : BlockType} {otherwise : Option Nat} {p : Nat}
    {yes no : Array Value → Run σ Exit}
    (hcode : x.frame.code = .body code)
    (hif : env.module.instr? code p = some (.if_ type otherwise q))
    (hend : env.module.instr? code q = some .end_)
    (hyes : ∀ label locals t', x.Matches env n (x.machine t' (p + 1) (label :: labels) locals) q
      (label :: labels) (yes locals t'))
    (hno : ∀ label locals t', x.Matches env n
      (x.machine t' (otherwise.elim q (· + 1)) (label :: labels) locals) q
      (label :: labels) (no locals t')) :
    x.Matches env n (x.machine t p labels locals) (q + 1) labels
      (choose (env.module.blockArity type) locals yes no t) := by
  have hstep : step env (x.machine t p labels locals) = _ := step_machine hcode hif
  rw [Structured.choose, bind_apply]
  cases hpop : onLocals locals (Exec.popInt .w32) t with
  | error e t₁ =>
    obtain ⟨locals₁, hflat⟩ : ∃ locals₁, inFrame (Exec.popInt .w32)
        (x.machine t (p + 1) labels locals) = .error e (x.machine t₁ (p + 1) labels locals₁) :=
      inFrame_error (Exec.Confined.popInt .w32).unlabelled hpop
    rw [interpret, bind_error hflat] at hstep
    exact Matches.of_error (Comes.of_step (a := step env) frames_machine rfl) hstep blame_machine
  | ok pair t₁ =>
    obtain ⟨cond, locals₁⟩ := pair
    rw [interpret, bind_ok (inFrame_ok (Exec.Confined.popInt .w32).unlabelled hpop), bind_apply,
      inFrame_enter] at hstep
    by_cases hcond : cond = 0
    · have henters : x.Enters env (x.machine t p labels locals) t₁ .if_ (q + 1)
          (env.module.blockArity type) (otherwise.elim q (· + 1)) labels locals₁ := by
        refine ⟨frames_machine, p + 1, hstep.trans ?_⟩
        cases Structured.below (env.module.blockArity type).1 t₁ with
        | error e t₂ => rfl
        | ok height t₂ => simp only [hcond, if_true, goto_apply, goto_machine]
      simp only [hcond, if_true]
      exact Matches.block hcode hend (by decide) henters fun height => hno _ locals₁ t₁
    · have henters : x.Enters env (x.machine t p labels locals) t₁ .if_ (q + 1)
          (env.module.blockArity type) (p + 1) labels locals₁ := by
        refine ⟨frames_machine, p + 1, hstep.trans ?_⟩
        cases Structured.below (env.module.blockArity type).1 t₁ with
        | error e t₂ => rfl
        | ok height t₂ => simp only [hcond, if_false, pure_apply]
      simp only [hcond, if_false]
      exact Matches.block hcode hend (by decide) henters fun height => hyes _ locals₁ t₁

/-- Code in front of an `else_`, which goes on at the end of the `if_`. -/
theorem Matches.before_else {p : Nat} (hcode : x.frame.code = .body code)
    (helse : env.module.instr? code p = some (.else_ q)) (h : x.Matches env n s p labels r) :
    x.Matches env n s q labels r := by
  unfold Matches at h ⊢
  split at h
  · obtain ⟨k, hk⟩ := h
    exact ⟨k + 1, hk.trans (Reaches.of_step frames_machine (step_machine hcode helse))⟩
  · exact h
  · exact h
  · exact h

-- ---------------------------------------------------------------------------
-- Functions
-- ---------------------------------------------------------------------------

/-- However its body is left, a function hands its results back. -/
theorem Matches.leaves {exit : Exit} (hcode : x.frame.code = .body code)
    (hend : ∀ i, env.module.instr? code q = some i → i = .end_)
    (h : x.Matches env n s q [] (.ok exit t)) :
    ∃ pc labels locals, Comes env s leave (x.machine t pc labels locals) := by
  cases exit with
  | fall locals =>
    obtain ⟨k, hk⟩ := h
    cases hi : env.module.instr? code q with
    | none =>
      refine ⟨q, [], locals, hk.comes (Comes.of_step frames_machine ?_)⟩
      exact step_machine_none hcode hi
    | some i =>
      obtain rfl := hend i hi
      refine ⟨q + 1, [], locals, hk.comes (Comes.of_step frames_machine ?_)⟩
      rw [step_machine hcode hi]
      simp only [interpret, bind_apply, inFrame_close_nil]
      rfl
  | branch depth locals =>
    obtain ⟨d, inner, pc, hd, j, s', hj, hframes, hstep⟩ := h
    refine ⟨pc, inner, locals, j, s', hj, hframes, ?_⟩
    rw [List.append_nil] at hstep
    rw [hstep, branch_leave (by omega)]
  | return_ => exact h

theorem blame_below (x : Site) (t : Machine σ) :
    (x.inside t).blameFrame.bare =
      ((t.blame x.frame.func).graft x.below x.cache).blameFrame.bare := by
  obtain ⟨shared, store, stack, frames, depth, origin⟩ := t
  obtain ⟨frame, below, cache⟩ := x
  cases below with
  | nil => rfl
  | cons f fs => cases origin <;> rfl

theorem activate_returns {body : Run σ Exit} (hcode : x.frame.code = .body code)
    (hend : ∀ i, env.module.instr? code q = some i → i = .end_)
    (hbody : x.Matches env n s q [] (body t)) :
    Returns env n s x.below x.cache
      (activate x.frame.func body x.frame.height x.frame.arity t) := by
  rw [activate, bind_apply]
  cases hr : body t with
  | error e t₁ =>
    rw [hr] at hbody
    rw [blaming_error hr]
    exact Fails.congr hbody (blame_below x t₁)
  | ok exit t₁ =>
    rw [hr] at hbody
    rw [blaming_ok hr]
    obtain ⟨pc, labels, locals, hcomes⟩ := hbody.leaves hcode hend
    have hleave : leave (x.machine t₁ pc labels locals) = _ := leave_machine
    dsimp only
    rw [bind_apply, modify_apply]
    dsimp only
    cases hkeep : keep x.frame.height x.frame.arity { t₁ with depth := t₁.depth - 1 } with
    | error e t₂ =>
      rw [hkeep] at hleave
      exact hcomes.fails hleave n
    | ok _ t₂ =>
      rw [hkeep] at hleave
      obtain ⟨k, hk⟩ := hcomes.reaches hleave
      exact ⟨k + 1, hk⟩

end Site

-- ---------------------------------------------------------------------------
-- Evaluation
-- ---------------------------------------------------------------------------

section

variable {env : Env σ} {trees : Array Code} {n : Nat} {s t : Machine σ}

/-- Evaluation bounded by `n` is matched by the flat run, wherever the code
    stands. -/
def Structured.Simulated (env : Env σ) (trees : Array Code) (n : Nat) : Prop :=
  ∀ (c : Code) (x : Site) (code p : Nat) (t : Machine σ) (labels : List Label)
    (locals : Array Value), x.frame.code = .body code → env.module.Holds code p (c.layout p) →
    x.Matches env n (x.machine t p labels locals) (p + c.size) labels (eval env trees n c locals t)

/-- The tree of a function stands at the start of its body, in front of its
    last `end_`; a function that is not there has the empty tree. -/
theorem Module.Spells.holds {m : Module} (h : m.Spells trees) (code : Nat) :
    m.Holds code 0 ((trees[code]?.getD .nil).layout 0) ∧
      ∀ i, m.instr? code (trees[code]?.getD .nil).size = some i → i = .end_ := by
  cases hc : trees[code]? with
  | none =>
    refine ⟨fun k i hi => ?_, fun i hi => ?_⟩
    · simp [Code.layout] at hi
    · rw [h.instr?, hc] at hi
      cases hi
  | some c =>
    have hinstr : ∀ pc, m.instr? code pc = (c.layout 0 ++ [Instr.end_])[pc]? := by
      intro pc
      rw [h.instr?, hc]
      exact List.getElem?_toArray
    rw [Option.getD_some]
    refine ⟨fun k i hi => ?_, fun i hi => ?_⟩
    · rw [hinstr, Nat.zero_add, List.getElem?_append_left (List.getElem?_eq_some_iff.mp hi).1]
      exact hi
    · rw [hinstr, List.getElem?_append_right (by simp)] at hi
      simp only [Code.length_layout, Nat.sub_self, List.getElem?_cons_zero] at hi
      exact (Option.some.inj hi).symm

theorem call_missing {func : UInt32} {m : Machine σ} (h : m.store.funcs[func.toNat]? = none) :
    Run.call env func m = .error (.trap .undefinedElement) m := by
  rw [Run.call, bind_apply, get_apply]
  dsimp only
  rw [h]
  rfl

theorem call_host {func : UInt32} {type : FuncType} {module name : String} {slot : Nat}
    {m : Machine σ} (h : m.store.funcs[func.toNat]? = some (.host type module name slot)) :
    Run.call env func m = callHost env func type module name slot m := by
  rw [Run.call, bind_apply, get_apply]
  dsimp only
  rw [h]

theorem call_defined {func : UInt32} {type : FuncType} {code : Nat} {m : Machine σ}
    (h : m.store.funcs[func.toNat]? = some (.defined type code)) :
    Run.call env func m = Run.enter env func type code m := by
  rw [Run.call, bind_apply, get_apply]
  dsimp only
  rw [h]

theorem Structured.call_returns (hsim : Simulated env trees n) (hspells : env.module.Spells trees)
    (hcompile : env.config.compile = false) {func : UInt32} {frames : List Frame}
    {cache : CodeCache} (hcomes : Comes env s (Run.call env func) (t.graft frames cache)) :
    Returns env (n + 1) s frames cache
      (Structured.call env trees (eval env trees n) func t) := by
  rw [Structured.call, bind_apply, get_apply]
  dsimp only
  cases hfunc : t.store.funcs[func.toNat]? with
  | none =>
    have hcall := @call_missing σ env func (t.graft frames cache) hfunc
    exact hcomes.fails hcall (n + 1)
  | some f =>
    cases f with
    | host type module name slot =>
      have hcall := @call_host σ env func _ _ _ _ (t.graft frames cache) hfunc
      dsimp only
      rw [Frameless.callHost env func type module name slot t frames cache] at hcall
      cases hr : callHost env func type module name slot t with
      | error e t₁ =>
        rw [hr] at hcall
        exact hcomes.fails hcall (n + 1)
      | ok _ t₁ =>
        rw [hr] at hcall
        obtain ⟨k, hk⟩ := hcomes.reaches hcall
        exact ⟨k + 1, hk⟩
    | defined type code =>
      have hcall := @call_defined σ env func _ _ (t.graft frames cache) hfunc
      dsimp only
      have hlocals := (Frameless.takeLocals env type code).blaming func t frames cache
      rw [Run.enter, bind_apply, hlocals] at hcall
      rw [bind_apply]
      cases hr : blaming func (takeLocals env type code) t with
      | error e t₁ =>
        rw [hr] at hcall
        exact hcomes.fails hcall (n + 1)
      | ok locals t₁ =>
        rw [hr] at hcall
        simp only [mapState, frameCode, hcompile, bind_apply, modify_apply, pure_apply, if_false,
          Bool.false_eq_true] at hcall
        let x : Site :=
          { frame := { func, code := .body code, height := t₁.stack.length
                       arity := type.results.length, locals }
            below := frames, cache }
        let t₂ : Machine σ := { t₁ with depth := t₁.depth + 1 }
        have hentered : Run.call env func (t.graft frames cache) =
            .ok () (x.machine t₂ 0 [] locals) := hcall
        obtain ⟨k, hk⟩ := hcomes.reaches hentered
        obtain ⟨hholds, hend⟩ := hspells.holds code
        have hbody := hsim (trees[code]?.getD .nil) x code 0 t₂ [] locals rfl hholds
        rw [Nat.zero_add] at hbody
        have hreturns := Site.activate_returns rfl hend hbody
        exact hreturns.after hk (by omega)

/-- A construct in a body is its first instruction, what is inside, a mark that
    ends this, and what follows. -/
theorem Module.Holds.enclosed_iff {m : Module} {code p : Nat} {i mark : Instr}
    {is js : List Instr} :
    m.Holds code p ((i :: is) ++ mark :: js) ↔
      m.instr? code p = some i ∧ m.Holds code (p + 1) is ∧
        m.instr? code (p + 1 + is.length) = some mark ∧
        m.Holds code (p + 1 + is.length + 1) js := by
  rw [Holds.append_iff, Holds.cons_iff, Holds.cons_iff, and_assoc, List.length_cons,
    show p + (is.length + 1) = p + 1 + is.length by omega]

/-- An instruction without nested code, whose effect decides how it goes on. -/
theorem Structured.plain_matches (hsim : Simulated env trees n)
    (hspells : env.module.Spells trees) (hcompile : env.config.compile = false) {i : Plain}
    {rest : Code} {x : Site} {code p q : Nat} {labels : List Label} {locals : Array Value}
    (hcode : x.frame.code = .body code) (hi : env.module.instr? code p = some (.plain i))
    (hrest : ∀ locals t, x.Matches env (n + 1) (x.machine t (p + 1) labels locals) q labels
      (evalWith env trees (eval env trees n) rest locals t)) :
    x.Matches env (n + 1) (x.machine t p labels locals) q labels
      (evalWith env trees (eval env trees n) (.plain i rest) locals t) := by
  have hstep : step env (x.machine t p labels locals) = _ := Site.step_machine hcode hi
  rw [interpret] at hstep
  rw [evalWith, bind_apply]
  cases hexec : onLocals locals (i.exec env.module.types) t with
  | error e t₁ =>
    obtain ⟨locals₁, hflat⟩ : ∃ locals₁, inFrame (i.exec env.module.types)
        (x.machine t (p + 1) labels locals) = .error e (x.machine t₁ (p + 1) labels locals₁) :=
      Site.inFrame_error (Exec.Confined.plain _ i).unlabelled hexec
    rw [bind_error hflat] at hstep
    exact Site.Matches.of_error (Comes.of_step (a := step env) Site.frames_machine rfl) hstep
      Site.blame_machine
  | ok pair t₁ =>
    obtain ⟨effect, locals₁⟩ := pair
    rw [bind_ok (Site.inFrame_ok (Exec.Confined.plain _ i).unlabelled hexec)] at hstep
    cases effect with
    | next =>
      exact (hrest locals₁ t₁).after (Reaches.of_step Site.frames_machine hstep) (by omega)
    | branch depth =>
      exact ⟨depth, [], p + 1, rfl, Comes.of_step Site.frames_machine hstep⟩
    | return_ => exact ⟨p + 1, labels, locals₁, Comes.of_step Site.frames_machine hstep⟩
    | call func =>
      have hcomes : Comes env (x.machine t p labels locals) (Run.call env func)
        (x.machine t₁ (p + 1) labels locals₁) := Comes.of_step Site.frames_machine hstep
      have hreturns := call_returns hsim hspells hcompile hcomes
      dsimp only
      rw [bind_apply]
      cases hcall : Structured.call env trees (eval env trees n) func t₁ with
      | error e t₂ =>
        rw [hcall] at hreturns
        exact Fails.congr hreturns Site.blame_machine
      | ok _ t₂ =>
        rw [hcall] at hreturns
        obtain ⟨k, hk⟩ := hreturns
        exact (hrest locals₁ t₂).after hk (by omega)

/-- By induction on the code: a construct stands in its layout as its body, the
    mark that ends this and the rest. -/
theorem Structured.evalWith_matches (hsim : Simulated env trees n)
    (hspells : env.module.Spells trees) (hcompile : env.config.compile = false)
    (c : Code) (x : Site) (code p : Nat) (t : Machine σ) (labels : List Label)
    (locals : Array Value) (hcode : x.frame.code = .body code)
    (hholds : env.module.Holds code p (c.layout p)) :
    x.Matches env (n + 1) (x.machine t p labels locals) (p + c.size) labels
      (evalWith env trees (eval env trees n) c locals t) := by
  induction c generalizing p t labels locals with
  | nil => exact ⟨0, Reaches.refl _⟩
  | plain i rest ih =>
    obtain ⟨hi, hrest⟩ := Module.Holds.cons_iff.mp hholds
    have hsize : p + (Code.plain i rest).size = p + 1 + rest.size := by
      simp only [Code.size]
      omega
    rw [hsize]
    exact plain_matches hsim hspells hcompile hcode hi fun locals t =>
      ih (p + 1) t labels locals hrest
  | block type body rest ihb ihr =>
    obtain ⟨hi, hbody, hend, hrest⟩ := Module.Holds.enclosed_iff.mp hholds
    rw [Code.length_layout] at hend hrest
    have hsize : p + (Code.block type body rest).size = p + 1 + body.size + 1 + rest.size := by
      simp only [Code.size]
      omega
    have henters : x.Enters env (x.machine t p labels locals) t .block (p + 1 + body.size + 1)
        (env.module.blockArity type) (p + 1) labels locals :=
      Site.Enters.of_step Site.frames_machine (Site.step_machine hcode hi)
    rw [evalWith, hsize]
    refine Site.Matches.andThen ?_ fun locals t' => ihr _ t' labels locals hrest
    exact Site.Matches.block hcode hend (by decide) henters fun height =>
      ihb (p + 1) t _ locals hbody
  | loop type body rest ihb ihr =>
    obtain ⟨hi, hbody, hend, hrest⟩ := Module.Holds.enclosed_iff.mp hholds
    rw [Code.length_layout] at hend hrest
    have hsize : p + (Code.loop type body rest).size = p + 1 + body.size + 1 + rest.size := by
      simp only [Code.size]
      omega
    have henters : x.Enters env (x.machine t p labels locals) t .loop p
        (env.module.blockArity type) (p + 1) labels locals :=
      Site.Enters.of_step Site.frames_machine (Site.step_machine hcode hi)
    rw [evalWith, hsize]
    refine Site.Matches.andThen ?_ fun locals t' => ihr _ t' labels locals hrest
    refine Site.Matches.loop hcode hend henters (fun height => ihb (p + 1) t _ locals hbody) ?_
    -- Repeated is the loop alone, which stands where the loop and the rest do.
    have halone : env.module.Holds code p ((Code.loop type body .nil).layout p) := by
      refine Module.Holds.enclosed_iff.mpr ⟨hi, hbody, ?_, fun k i hk => ?_⟩
      · rw [Code.length_layout]
        exact hend
      · cases hk
    intro locals t'
    have hagain := hsim (.loop type body .nil) x code p t' labels locals hcode halone
    have hsize' : p + (Code.loop type body .nil).size = p + 1 + body.size + 1 := by
      simp only [Code.size]
      omega
    rw [hsize'] at hagain
    exact hagain
  | ifThen type body rest ihb ihr =>
    obtain ⟨hi, hbody, hend, hrest⟩ := Module.Holds.enclosed_iff.mp hholds
    rw [Code.length_layout] at hend hrest
    have hsize : p + (Code.ifThen type body rest).size = p + 1 + body.size + 1 + rest.size := by
      simp only [Code.size]
      omega
    rw [evalWith, hsize]
    refine Site.Matches.andThen ?_ fun locals t' => ihr _ t' labels locals hrest
    refine Site.Matches.choose hcode hi hend ?_ ?_
    · intro label locals t'
      exact ihb (p + 1) t' _ locals hbody
    · intro label locals t'
      exact ⟨0, Reaches.refl _⟩
  | ifElse type body otherwise rest ihb iho ihr =>
    rw [Code.layout, List.append_assoc] at hholds
    obtain ⟨hi, hbody, helse, hafter⟩ := Module.Holds.enclosed_iff.mp hholds
    obtain ⟨hother, hstop⟩ := Module.Holds.append_iff.mp hafter
    obtain ⟨hend, hrest⟩ := Module.Holds.cons_iff.mp hstop
    rw [Code.length_layout] at helse hother hend hrest
    rw [Code.length_layout] at hend hrest
    have hsize : p + (Code.ifElse type body otherwise rest).size =
        p + 1 + body.size + 1 + otherwise.size + 1 + rest.size := by
      simp only [Code.size]
      omega
    rw [evalWith, hsize]
    refine Site.Matches.andThen ?_ fun locals t' => ihr _ t' labels locals hrest
    refine Site.Matches.choose hcode hi hend ?_ ?_
    · intro label locals t'
      exact (ihb (p + 1) t' _ locals hbody).before_else hcode helse
    · intro label locals t'
      exact iho (p + 1 + body.size + 1) t' _ locals hother

/-- Induction is on the bound: what is repeated or called was evaluated with a
    smaller one. -/
theorem Structured.eval_simulated (hspells : env.module.Spells trees)
    (hcompile : env.config.compile = false) (n : Nat) : Simulated env trees n := by
  induction n with
  | zero =>
    intro c x code p t labels locals _ _
    refine ⟨fun _ hfinished => ?_, fun he => absurd rfl he⟩
    exact hfinished _ (steps_zero Site.frames_machine)
  | succ n ih =>
    intro c x code p t labels locals hcode hholds
    exact evalWith_matches ih hspells hcompile c x code p t labels locals hcode hholds

end

-- ---------------------------------------------------------------------------
-- Outcomes
-- ---------------------------------------------------------------------------

/-- Given enough steps, or a high enough bound, the action comes to this end.
    Frames that a fault left and prepared code are not looked at. -/
def Run.EndsWith (a : Nat → Run σ Unit) (m : Machine σ)
    (o : EStateM.Result Fault (Machine σ) Unit) : Prop :=
  Finished o ∧ ∃ n, mapState Machine.bare (a n m) = o

theorem Run.Finished.of_mapState {f : Machine σ → Machine σ}
    {r : EStateM.Result Fault (Machine σ) Unit} (h : Finished (mapState f r)) : Finished r := by
  intro m hr
  exact h (f m) (by rw [hr]; rfl)

theorem Run.Finished.of_blamingFrame {a : Run σ Unit} {m : Machine σ}
    (h : Finished (blamingFrame a m)) : Finished (a m) := by
  intro m' hm'
  exact h m'.blameFrame (by rw [blamingFrame_apply, hm'])

/-- What an evaluation gave, the flat run gives whatever steps it has left. -/
theorem Run.Returns.steps_eq {env : Env σ} {n : Nat} {s : Machine σ} {cache : CodeCache}
    {r : EStateM.Result Fault (Machine σ) Unit} (h : Returns env n s [] cache r)
    (hr : Finished r) :
    ∃ k, ∀ budget, mapState Machine.bare (blamingFrame (steps env (k + budget)) s) =
      mapState Machine.bare r := by
  cases r with
  | ok _ t =>
    obtain ⟨k, hk⟩ := h
    refine ⟨k, fun budget => ?_⟩
    rw [blamingFrame_apply, hk, steps_nil rfl]
    rfl
  | error e t =>
    have he : e ≠ .unfinished := fun he => hr t (he ▸ rfl)
    obtain ⟨k, m, hsteps, hm⟩ := h.2 he
    refine ⟨k, fun budget => ?_⟩
    rw [blamingFrame_apply, hsteps]
    exact congrArg (EStateM.Result.error e) hm

/-- The end of a run and that of an evaluation tell of each other. -/
theorem Structured.run_endsWith {env : Env σ} {trees : Array Code}
    (hspells : env.module.Spells trees) (hcompile : env.config.compile = false)
    (func : UInt32) (code height arity : Nat) (locals : Array Value) (t : Machine σ)
    (o : EStateM.Result Fault (Machine σ) Unit) :
    let frame : Frame := { func, code := .body code, height, arity, locals }
    EndsWith (fun budget => blamingFrame (steps env budget)) { t with frames := [frame] } o ↔
      EndsWith (fun n => run env trees n frame (trees[code]?.getD .nil)) t o := by
  intro frame
  let x : Site := { frame, below := [], cache := t.cache }
  obtain ⟨hholds, hend⟩ := hspells.holds code
  have hreturns : ∀ n, Returns env n { t with frames := [frame] } [] t.cache
      (run env trees n frame (trees[code]?.getD .nil) t) := by
    intro n
    have hbody := eval_simulated hspells hcompile n (trees[code]?.getD .nil) x code 0 t []
      locals rfl hholds
    rw [Nat.zero_add] at hbody
    exact Site.activate_returns rfl hend hbody
  constructor
  · rintro ⟨ho, budget, rfl⟩
    refine ⟨ho, budget, ?_⟩
    have hsteps := ho.of_mapState.of_blamingFrame
    have hrun : Finished (run env trees budget frame (trees[code]?.getD .nil) t) := by
      intro t' ht'
      have hfails := hreturns budget
      rw [ht'] at hfails
      exact hfails.1 rfl hsteps
    obtain ⟨k, hk⟩ := (hreturns budget).steps_eq hrun
    dsimp only
    rw [← hk budget, Nat.add_comm, blamingFrame_apply, blamingFrame_apply, steps_add hsteps]
  · rintro ⟨ho, n, rfl⟩
    obtain ⟨k, hk⟩ := (hreturns n).steps_eq ho.of_mapState
    exact ⟨ho, k + 0, hk 0⟩

/-- Every body that is read spells a tree. -/
theorem Format.Readable.spells {m : Module} (h : Format.Readable m) :
    ∃ trees, m.Spells trees := by
  have htree : ∀ f : Function, ∃ c : Code, f ∈ m.functions → f.body = c.body := by
    intro f
    by_cases hf : f ∈ m.functions
    · obtain ⟨c, hc, _⟩ := h.bodies f hf
      exact ⟨c, fun _ => hc⟩
    · exact ⟨.nil, fun hf' => absurd hf' hf⟩
  obtain ⟨tree, htree⟩ := Classical.skolem.mp htree
  refine ⟨m.functions.map tree, ?_⟩
  rw [Module.Spells, Array.map_map]
  exact Array.map_congr_left htree

/-- Of a module that was read, each body spells a tree, and running the body in
    a frame ends as evaluating the tree does: exactly if it does, and with the
    same operands or fault, store, state of the host and origin of the fault.
    This holds for every store and stack, and for every frame at the start of
    a body. -/
theorem Module.execute_structured {bytes : List UInt8} {m : Module}
    (hread : Format.decode bytes = .ok m) (hosts : Array (HostFunc σ)) (config : Config)
    (hcompile : config.compile = false) :
    let env : Env σ := { module := m, hosts, config }
    (∃ trees, m.Spells trees) ∧
    ∀ trees, m.Spells trees → ∀ (func : UInt32) (code height arity : Nat) (locals : Array Value)
      (t : Machine σ) (o : EStateM.Result Fault (Machine σ) Unit),
      let frame : Frame := { func, code := .body code, height, arity, locals }
      EndsWith (fun budget => blamingFrame (steps env budget)) { t with frames := [frame] } o ↔
        EndsWith (fun n => run env trees n frame (trees[code]?.getD .nil)) t o := by
  intro env
  refine ⟨(Format.parse_readable (Format.decode_eq_ok_iff.mp hread).1).spells, ?_⟩
  intro trees hspells func code height arity locals t o
  exact run_endsWith hspells hcompile func code height arity locals t o

/-- The loop of `countdown` with two rounds to go. -/
theorem countdown_execute_structured :
    Format.decode countdownBytes = .ok countdown ∧ countdown.Spells #[countdownLoop] ∧
    ∀ (hosts : Array (HostFunc Nat)) (t : Machine Nat)
      (o : EStateM.Result Fault (Machine Nat) Unit),
      let env : Env Nat := { module := countdown, hosts, config := { compile := false } }
      let frame : Frame :=
        { func := 1, code := .body 0, height := 0, arity := 0, locals := #[.i32 2] }
      EndsWith (fun budget => blamingFrame (steps env budget)) { t with frames := [frame] } o ↔
        EndsWith (fun n => run env #[countdownLoop] n frame countdownLoop) t o := by
  have hspells : countdown.Spells #[countdownLoop] := by simp [Module.Spells, countdown]
  refine ⟨decode_countdown, hspells, fun hosts t o => ?_⟩
  exact (Module.execute_structured decode_countdown hosts { compile := false } rfl).2
    #[countdownLoop] hspells 1 0 0 0 #[.i32 2] t o

end Wasm
