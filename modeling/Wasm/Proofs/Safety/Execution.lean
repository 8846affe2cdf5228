import Wasm.Proofs.Safety.Machine

/-!
# Demands of sound machines

Whatever a step of a sound machine relies on is given. Heights on record stay
below half of what a word of 64 bits can count, which is more operands than
there is room for.
-/

namespace Wasm

variable {σ : Type}

/-- More operands than a stack can hold. -/
def operandLimit : Nat := UInt64.size / 2

theorem LoadKind.bytes_le (kind : LoadKind) : kind.bytes ≤ 8 := by
  cases kind <;> decide

theorem StoreKind.bytes_le (kind : StoreKind) : kind.bytes ≤ 8 := by
  cases kind <;> decide

namespace Demand

theorem met_ofUnwind {height arity : Nat} (stack : List Value)
    (h : height + arity < UInt64.size) : ∀ d ∈ ofUnwind stack height arity, d.Met := by
  intro d hd
  rcases List.mem_cons.mp hd with rfl | hd
  · exact h
  · split at hd
    · cases hd
    · simp only [List.mem_cons, List.not_mem_nil, or_false] at hd
      rcases hd with rfl | rfl
      · simp only [Met]
        omega
      · simp only [Met]
        omega

theorem met_ofAccess (s : Store) (base : BitVec 32) (offset : UInt32) {n : Nat} (hn : n ≤ 8) :
    ∀ d ∈ ofAccess s base offset n, d.Met := by
  have hbase : base.toNat < UInt32.size := base.isLt
  have hoffset : offset.toNat < UInt32.size := offset.toNat_lt_size
  have hsize : UInt32.size + UInt32.size + 8 ≤ UInt64.size := by decide
  intro d hd
  unfold ofAccess at hd
  cases hmemory : s.memory? with
  | none => simp [hmemory] at hd
  | some m =>
    simp only [hmemory, List.mem_append, List.mem_cons, List.not_mem_nil, or_false] at hd
    rcases hd with (rfl | rfl) | hd
    · simp only [Met]
      omega
    · simp only [Met, Memory.effectiveAddress]
      omega
    · split at hd
      · rename_i hfits
        simp only [List.mem_cons, List.not_mem_nil, or_false] at hd
        subst hd
        exact ⟨Nat.le_add_right _ _, by simpa [Memory.fits] using hfits⟩
      · cases hd

theorem met_ofGrow {s : Store} (hs : s.pageLimit < UInt32.size) (delta : BitVec 32) :
    ∀ d ∈ ofGrow s delta, d.Met := by
  intro d hd
  unfold ofGrow at hd
  cases hmemory : s.memory? with
  | none => simp [hmemory] at hd
  | some m =>
    simp only [hmemory] at hd
    split at hd
    · rename_i hle
      simp only [List.mem_cons, List.not_mem_nil, or_false] at hd
      subst hd
      have hbound : m.bound s.pageLimit ≤ s.pageLimit := by
        unfold Memory.bound
        cases m.max with
        | none => exact Nat.le_refl _
        | some max => exact Nat.min_le_right _ _
      have hpages : m.pages + delta.toNat ≤ UInt32.size := by omega
      calc (m.pages + delta.toNat) * pageSize ≤ UInt32.size * pageSize :=
            Nat.mul_le_mul_right _ hpages
        _ < UInt64.size := by decide
    · cases hd

theorem met_ofBinary {w : Nat} (op : IntBinary) (a b : BitVec w) :
    ∀ d ∈ ofBinary op a b, d.Met := by
  intro d hd
  cases op with
  | divS =>
    by_cases hb : b = 0#w
    · simp [ofBinary, IntBinary.eval, hb] at hd
    · by_cases hoverflow : a = BitVec.intMin w ∧ b = -1#w
      · simp only [ofBinary, IntBinary.eval, if_neg hb, if_pos hoverflow] at hd
        cases hd
      · simp only [ofBinary, IntBinary.eval, if_neg hb, if_neg hoverflow, List.mem_cons,
          List.not_mem_nil, or_false] at hd
        subst hd
        exact ⟨hb, fun h => hoverflow h.2⟩
  | divU | remS | remU =>
    by_cases hb : b = 0#w
    · simp [ofBinary, IntBinary.eval, hb] at hd
    · simp only [ofBinary, IntBinary.eval, if_neg hb, List.mem_cons, List.not_mem_nil,
        or_false] at hd
      subst hd
      exact ⟨hb, fun h => by cases h.1⟩
  | _ => simp [ofBinary] at hd

theorem met_onAddress {stack : List Value} {demands : BitVec 32 → List Demand}
    (h : ∀ a, ∀ d ∈ demands a, d.Met) : ∀ d ∈ onAddress stack demands, d.Met := by
  unfold onAddress
  split
  · exact h _
  · simp

theorem met_onInts {w : Width} {stack : List Value}
    {demands : BitVec w.bits → BitVec w.bits → List Demand}
    (h : ∀ a b, ∀ d ∈ demands a b, d.Met) : ∀ d ∈ onInts w stack demands, d.Met := by
  unfold onInts
  split
  · split
    · exact h _ _
    · simp
  · simp

end Demand

open Demand

/-- What there is in a context that an instruction was checked for. -/
theorem Plain.demands_met {m : Module} {c : Context} {i : Plain}
    (hi : Validity.plain m c.locals.size i = .ok ())
    (hglobals : m.globalTypes.size ≤ c.store.globals.size)
    (hpages : c.store.pageLimit < UInt32.size) : ∀ d ∈ i.demands c, d.Met := by
  cases i with
  | localGet index | localSet index | localTee index =>
    have hindex := Validity.inRange_ok_iff.mp hi
    intro d hd
    obtain rfl := List.mem_singleton.mp hd
    exact hindex
  | globalGet index =>
    have hindex := Validity.inRange_ok_iff.mp hi
    intro d hd
    obtain rfl := List.mem_singleton.mp hd
    exact Nat.lt_of_lt_of_le hindex hglobals
  | globalSet index =>
    have hindex := Validity.inRange_ok_iff.mp (Validity.seq_ok_iff.mp hi).1
    intro d hd
    obtain rfl := List.mem_singleton.mp hd
    exact Nat.lt_of_lt_of_le hindex hglobals
  | load kind arg => exact met_onAddress fun base => met_ofAccess _ base _ kind.bytes_le
  | store kind arg => exact met_onAddress fun base => met_ofAccess _ base _ kind.bytes_le
  | memoryGrow => exact met_onAddress (met_ofGrow hpages)
  | intBinary w op => exact met_onInts (met_ofBinary op)
  | _ => exact fun d hd => absurd hd List.not_mem_nil

-- ---------------------------------------------------------------------------
-- Labels and frames
-- ---------------------------------------------------------------------------

theorem sum_lt {height arity : Nat} (hheight : height ≤ operandLimit)
    (harity : arity < UInt32.size) : height + arity < UInt64.size := by
  have hsize : operandLimit + UInt32.size < UInt64.size := by decide
  omega

theorem met_positions {ps : List Nat} (h : ∀ p ∈ ps, p < UInt32.size) :
    ∀ d ∈ ps.map (Demand.sum · 1), d.Met := by
  intro d hd
  obtain ⟨p, hp, rfl⟩ := List.mem_map.mp hd
  have hsize : UInt32.size < UInt64.size := by decide
  have := h p hp
  simp only [Met]
  omega

theorem met_ofBranch {c : Context} (h : ∀ label ∈ c.labels, label.Within operandLimit)
    (depth : Nat) : ∀ d ∈ ofBranch c depth, d.Met := by
  intro d hd
  unfold ofBranch at hd
  cases hlabel : c.labels[depth]? with
  | none => simp [hlabel] at hd
  | some label =>
    have hwithin := h label (List.mem_of_getElem? hlabel)
    have hdepth : depth < c.labels.length := (List.getElem?_eq_some_iff.mp hlabel).1
    simp only [hlabel, List.mem_append, List.mem_cons, List.not_mem_nil, or_false] at hd
    rcases hd with (rfl | rfl | rfl) | hd
    · simp only [Met]
      omega
    · simp only [Met]
      omega
    · simp only [Met]
      omega
    · exact met_ofUnwind c.stack (sum_lt hwithin.height hwithin.arity) d hd

theorem met_ofClose {c : Context} (h : ∀ label ∈ c.labels, label.Within operandLimit) :
    ∀ d ∈ ofClose c, d.Met := by
  unfold ofClose
  cases hlabels : c.labels with
  | nil => simp
  | cons label rest =>
    have hwithin := h label (by simp [hlabels])
    exact met_ofUnwind c.stack (sum_lt hwithin.height hwithin.results)

namespace Machine

variable {env : Env σ} {m : Machine σ} {frame : Frame} {rest : List Frame}

theorem leaveDemands_met (hm : m.Sound env operandLimit) (hframes : m.frames = frame :: rest) :
    ∀ d ∈ m.leaveDemands frame, d.Met := by
  have hframe := hm.frames frame (by simp [hframes])
  intro d hd
  rcases List.mem_cons.mp hd with rfl | hd
  · simp [Met, hm.depth, hframes]
  · exact met_ofUnwind m.stack (sum_lt hframe.height hframe.arity) d hd

theorem callDemands_met (henv : env.Sound) (hm : m.Sound env operandLimit) (func : UInt32) :
    ∀ d ∈ m.callDemands env func, d.Met := by
  intro d hd
  unfold callDemands at hd
  cases hfunc : m.store.funcs[func.toNat]? with
  | none => simp [hfunc] at hd
  | some f =>
    cases f with
    | host type module name slot =>
      simp only [hfunc, List.mem_cons, List.not_mem_nil, or_false] at hd
      subst hd
      exact hm.store.hosts (Array.mem_of_getElem? hfunc)
    | defined type code =>
      obtain ⟨f, hf, _⟩ := hm.store.defined (Array.mem_of_getElem? hfunc)
      simp only [hfunc, hf, Option.map_some, Option.getD_some] at hd
      split at hd
      · simp only [List.mem_append, List.mem_cons, List.not_mem_nil, or_false] at hd
        rcases hd with (rfl | rfl) | hd
        · have := henv.maxCallDepth
          simp only [Met]
          omega
        · exact (Array.getElem?_eq_some_iff.mp hfunc).1
        · refine met_positions (fun p hp => ?_) d hd
          obtain ⟨i, hi, hp⟩ := List.mem_flatMap.mp hp
          exact (henv.sized.positions f (Array.mem_of_getElem? hf)).2 i
            (Array.mem_toList_iff.mp hi) p hp
      · cases hd

theorem effectDemands_met (henv : env.Sound) (hm : m.Sound env operandLimit)
    (hframes : m.frames = frame :: rest) (effect : Effect) :
    ∀ d ∈ m.effectDemands env frame effect, d.Met := by
  have hframe := hm.frames frame (by simp [hframes])
  cases effect with
  | next => simp [effectDemands]
  | branch depth =>
    intro d hd
    rcases List.mem_append.mp hd with hd | hd
    · exact met_ofBranch hframe.labels depth.toNat d hd
    · split at hd
      · exact leaveDemands_met hm hframes d hd
      · cases hd
  | call func => exact callDemands_met henv hm func
  | return_ => exact leaveDemands_met hm hframes

theorem instrDemands_met (henv : env.Sound) (hm : m.Sound env operandLimit)
    (hframes : m.frames = frame :: rest) {i : Instr}
    (hi : Validity.instr env.module frame.locals.size i = .ok ())
    (hpositions : ∀ p ∈ i.positions, p < UInt32.size) :
    ∀ d ∈ m.instrDemands env frame rest i, d.Met := by
  have hframe := hm.frames frame (by simp [hframes])
  cases i with
  | plain i =>
    have hmet := Plain.demands_met (c := m.context frame) hi hm.store.globals hm.store.pageLimit
    have hsteady := Plain.exec_steady hi (m.context frame) (Nat.le_refl _) hm.store.globals
    intro d hd
    rcases List.mem_append.mp hd with hd | hd
    · exact hmet d hd
    · cases hexec : i.exec env.module.types (m.context frame) with
      | error e c =>
        rw [hexec] at hd
        cases hd
      | ok effect c =>
        rw [hexec] at hsteady hd
        exact effectDemands_met henv (hm.resume hframes hsteady.1) rfl effect d hd
  | loop type => simp [instrDemands, Met]
  | end_ =>
    intro d hd
    rcases List.mem_append.mp hd with hd | hd
    · exact met_ofClose hframe.labels d hd
    · split at hd
      · exact leaveDemands_met hm hframes d hd
      · cases hd
  | block type stop | else_ stop | if_ type otherwise stop => exact met_positions hpositions

/-- Every demand of a sound machine is met. -/
theorem demands_met (henv : env.Sound) (hm : m.Sound env operandLimit) :
    ∀ d ∈ m.demands env, d.Met := by
  unfold demands
  cases hframes : m.frames with
  | nil => simp
  | cons frame rest =>
    have hframe := hm.frames frame (by simp [hframes])
    obtain ⟨type, code, hfunc, _, hchecked⟩ := hframe.checked henv hm.store
    have hinstr : m.instr? env frame = env.module.instr? code frame.pc := by
      simp only [Machine.instr?, hfunc]
    dsimp only
    rw [hinstr]
    cases hi : env.module.instr? code frame.pc with
    | none => exact leaveDemands_met hm hframes
    | some i =>
      obtain ⟨f, hf, hpc⟩ := Option.bind_eq_some_iff.mp hi
      have hsized := henv.sized.positions f (Array.mem_of_getElem? hf)
      have hlt : frame.pc < f.body.size := (Array.getElem?_eq_some_iff.mp hpc).1
      have hsize : UInt32.size < UInt64.size := by decide
      intro d hd
      rcases List.mem_cons.mp hd with rfl | hd
      · simp only [Met]
        omega
      · refine instrDemands_met henv hm hframes (hchecked _ i hi) ?_ d hd
        exact hsized.2 i (Array.mem_of_getElem? hpc)

end Machine

end Wasm
