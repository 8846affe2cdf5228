import Wasm.Validity

/-!
# What a valid module keeps

The checks of a module taken apart: what it means that all of them, or those of
one function, pass.
-/

namespace Wasm.Validity

theorem seq_ok_iff {first second : Check} :
    (do first; second) = .ok () ↔ first = .ok () ∧ second = .ok () := by
  cases first with
  | ok u => simp [bind, Except.bind]
  | error e => simp [bind, Except.bind]

theorem inRange_ok_iff {space : IndexSpace} {index : UInt32} {count : Nat} :
    inRange space index count = .ok () ↔ index.toNat < count := by
  unfold inRange
  split <;> simp_all

/-- A valid module, part by part. -/
theorem check_ok_iff {m : Module} :
    check m = .ok () ↔
      (∀ i ∈ m.imports.toList, importDesc m i.desc = .ok ()) ∧ limits m = .ok () ∧
      (∀ g ∈ m.globals.toList, global m g = .ok ()) ∧
      (∀ e ∈ m.exports.toList, exportDesc m e.desc = .ok ()) ∧
      (∀ func ∈ m.start.toList, start m func = .ok ()) ∧
      (∀ e ∈ m.elements.toList, element m e = .ok ()) ∧
      (∀ d ∈ m.data.toList, data m d = .ok ()) ∧
      (∀ f ∈ m.functions.toList, function m f = .ok ()) := by
  simp only [check, seq_ok_iff, each_eq_ok_iff]

theorem function_ok_iff {m : Module} {f : Function} :
    function m f = .ok () ↔
      ∃ t, m.types[f.type.toNat]? = some t ∧
        ∀ i ∈ f.body.toList, instr m (t.params.length + f.locals.size) i = .ok () := by
  unfold function
  cases m.types[f.type.toNat]? with
  | none => simp
  | some t => simp [each_eq_ok_iff]

/-- The instructions of a valid module pass their check. -/
theorem instr_ok {m : Module} (h : check m = .ok ()) {func pc : Nat} {i : Instr}
    (hi : m.instr? func pc = some i) :
    ∃ f t, m.functions[func]? = some f ∧ m.types[f.type.toNat]? = some t ∧
      instr m (t.params.length + f.locals.size) i = .ok () := by
  obtain ⟨f, hf, hpc⟩ := Option.bind_eq_some_iff.mp hi
  have hfunction : function m f = .ok () :=
    (check_ok_iff.mp h).2.2.2.2.2.2.2 f (Array.mem_toList_iff.mpr (Array.mem_of_getElem? hf))
  obtain ⟨t, ht, hbody⟩ := function_ok_iff.mp hfunction
  exact ⟨f, t, hf, ht, hbody i (Array.mem_toList_iff.mpr (Array.mem_of_getElem? hpc))⟩

end Wasm.Validity
