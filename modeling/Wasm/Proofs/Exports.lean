import Mathlib.Data.List.Nodup
import Wasm.CommandLine.Session
import Wasm.Proofs.Limits.Termination
import Wasm.Proofs.Linking.IndexSpaces
import Wasm.Proofs.Machine.Fixed

/-!
# Two lookups of exports

Nothing keeps a module from exporting under one name twice. A module looks for
the first export of a name and an instance for the last, so that they agree on
exactly those names whose first and last export are the same. For such a name
the arguments on a command line are read as the parameters of the function that
is called with them.
-/

namespace Wasm

variable {σ : Type}

-- ---------------------------------------------------------------------------
-- Names
-- ---------------------------------------------------------------------------

namespace Module

/-- What is exported under a name, in the order of the module. -/
def exportsNamed (m : Module) (name : String) : List ExportDesc :=
  (m.exports.toList.filter (·.name == name)).map (·.desc)

/-- The first and the last export of that name are the same. -/
def Unambiguous (m : Module) (name : String) : Prop :=
  (m.exportsNamed name).head? = (m.exportsNamed name).getLast?

theorem export?_eq_head? (m : Module) (name : String) :
    m.export? name = (m.exportsNamed name).head? := by
  rw [export?, exportsNamed, List.head?_map, List.head?_filter, Array.find?_toList]

theorem unambiguous_of_nodup {m : Module} (h : (m.exports.toList.map (·.name)).Nodup)
    (name : String) : m.Unambiguous name := by
  have hlength : (m.exportsNamed name).length ≤ 1 := by
    rw [exportsNamed, List.length_map, ← List.countP_eq_length_filter]
    have hcount := List.nodup_iff_count_le_one.mp h name
    rwa [List.count, List.countP_map] at hcount
  unfold Unambiguous
  match m.exportsNamed name, hlength with
  | [], _ | [_], _ => rfl

/-- What a valid module exports exists. -/
theorem toNat_lt_of_export? {m : Module} (hvalid : Validity.check m = .ok ()) {name : String}
    {func : UInt32} (h : m.export? name = some (.func func)) : func.toNat < m.funcCount := by
  obtain ⟨_, _, _, hexports, _⟩ := Validity.check_ok_iff.mp hvalid
  obtain ⟨e, he, hdesc⟩ := Option.map_eq_some_iff.mp h
  have hcheck := hexports e (Array.mem_toList_iff.mpr (Array.mem_of_find?_eq_some he))
  rw [hdesc] at hcheck
  exact Validity.inRange_ok_iff.mp hcheck

end Module

/-- The entry that a lookup finds is the first one under its key. -/
theorem lookup_eq_head? {β : Type} (entries : List (String × β)) (name : String) :
    entries.lookup name = ((entries.filter (·.1 == name)).map (·.2)).head? := by
  induction entries with
  | nil => rfl
  | cons entry entries ih =>
    obtain ⟨key, b⟩ := entry
    by_cases hkey : key = name
    · subst hkey
      simp
    · have hne : (name == key) = false := beq_eq_false_iff_ne.mpr (Ne.symm hkey)
      have hne' : (key == name) = false := beq_eq_false_iff_ne.mpr hkey
      rw [List.lookup_cons, hne, List.filter_cons_of_neg (by simp [hkey])]
      exact ih

theorem Store.export?_eq_getLast? {m : Module} {s : Store}
    (h : s.exports = (m.exports.toList.map fun e => (e.name, e.desc)).reverse) (name : String) :
    s.export? name = (m.exportsNamed name).getLast? := by
  rw [export?, h, lookup_eq_head?, List.filter_reverse, List.map_reverse, List.head?_reverse,
    List.filter_map, List.map_map]
  rfl

-- ---------------------------------------------------------------------------
-- Signatures
-- ---------------------------------------------------------------------------

/-- Every function that the module has is there after linking, under the
    signature that the module gives it. -/
theorem Module.link_func {m : Module} {imports : Imports σ} {config : Config}
    {linked : Link.Linked σ} (h : m.link imports config = .ok linked) {func : UInt32}
    (hfunc : func.toNat < m.funcCount) :
    ∃ f, linked.store.funcs[func.toNat]? = some f ∧ f.type = (m.funcType? func).getD {} := by
  have hindex : func.toNat < m.funcTypeIndices.size := by
    rwa [funcTypeIndices, Array.size_append, Array.size_map]
  have hget := congrArg (·[func.toNat]?) (Module.link_types h)
  simp only [List.getElem?_map, Array.getElem?_toList,
    Array.getElem?_eq_getElem hindex, Option.map_some] at hget
  obtain ⟨f, hf, htype⟩ := Option.map_eq_some_iff.mp hget
  refine ⟨f, hf, ?_⟩
  rw [htype, funcType?, Array.getElem?_eq_getElem hindex]
  rfl

-- ---------------------------------------------------------------------------
-- Instances
-- ---------------------------------------------------------------------------

/-- A new instance has the functions and the exports that were linked, also if
    a start function ran. -/
theorem Module.instantiate_fixed {m : Module} {imports : Imports σ} {config : Config}
    {budget : Nat} {shared shared' : Shared σ} {i : Instance σ}
    (himports : ∀ module name f, imports.get? module name = some (.func f) → f.Fixes)
    (hcache : shared.cache.Coherent m)
    (h : m.instantiate imports config budget shared = (.ok i, shared')) :
    ∃ linked, m.link imports config = .ok linked ∧
      i.machine.store.fixed = linked.store.fixed := by
  unfold Module.instantiate at h
  cases hlink : m.link imports config with
  | error e =>
    rw [hlink] at h
    cases h
  | ok linked =>
    rw [hlink] at h
    refine ⟨linked, rfl, ?_⟩
    cases hstart : m.start with
    | none =>
      rw [hstart] at h
      cases h
      rfl
    | some func =>
      rw [hstart] at h
      dsimp only at h
      let env : Env σ := { module := m, hosts := linked.hosts, config }
      let linkedMachine : Machine σ := { shared with store := linked.store }
      have hhosts : ∀ f ∈ env.hosts, f.Fixes := by
        intro f hf
        obtain ⟨module, name, hget⟩ := (Module.link_hosts hlink).1 f hf
        exact himports module name f hget
      have hsourced : linkedMachine.outline.Sourced m := ⟨List.forall_mem_nil _, hcache⟩
      have hfixed : (finalState (Run.callToEnd env budget func linkedMachine)).store.fixed =
        linked.store.fixed := Run.callToEnd_fixed hhosts hsourced budget func
      split at h
      · rename_i n hend
        cases h
        rw [hend] at hfixed
        exact hfixed
      · cases h

-- ---------------------------------------------------------------------------
-- Command lines
-- ---------------------------------------------------------------------------

theorem Literal.type_of_value {t : ValueType} {s : String} {v : Value}
    (h : Literal.value t s = .ok v) : v.type = t := by
  have hmap {α : Type} {r : Except Error α} {f : α → Value} (hf : ∀ x, (f x).type = t)
      (hr : r.map f = .ok v) : v.type = t := by
    cases r with
    | error e => cases hr
    | ok x =>
      cases hr
      exact hf x
  cases t with
  | i32 | i64 | f32 | f64 => exact hmap (fun _ => rfl) h

namespace CommandLine

theorem types_of_values {types : List ValueType} {texts : List String} {args : List Value}
    (hlength : texts.length = types.length)
    (h : ((types.zip texts).mapM fun (t, s) => Literal.value t s) = .ok args) :
    args.map Value.type = types := by
  induction types generalizing texts args with
  | nil =>
    cases h
    rfl
  | cons t types ih =>
    cases texts with
    | nil => cases hlength
    | cons s texts =>
      rw [List.zip_cons_cons, List.mapM_cons] at h
      dsimp only at h
      cases hv : Literal.value t s with
      | error e =>
        rw [hv] at h
        cases h
      | ok v =>
        rw [hv] at h
        cases hvs : (types.zip texts).mapM fun (t, s) => Literal.value t s with
        | error e =>
          rw [hvs] at h
          cases h
        | ok vs =>
          rw [hvs] at h
          cases h
          rw [List.map_cons, Literal.type_of_value hv, ih (Nat.succ.inj hlength) hvs]

/-- Arguments have the types that they are read as. -/
theorem haveTypes_of_arguments {name : String} {types : List ValueType} {texts : List String}
    {args : List Value} (h : arguments name types texts = .ok args) :
    Value.haveTypes args types = true := by
  unfold arguments at h
  split at h
  · rename_i hlength
    cases hargs : (types.zip texts).mapM fun (t, s) => Literal.value t s with
    | error e =>
      rw [hargs] at h
      cases h
    | ok vs =>
      rw [hargs] at h
      cases h
      rw [Value.haveTypes, types_of_values hlength hargs, beq_self_eq_true]
  · cases h

/-- What a command line comes to once its arguments are read. -/
theorem callFunction_of_arguments {m : Module} {o : Options} {name : String} {budget : Nat}
    {i : Instance Unit} {shared : Shared Unit} {types : List ValueType} {args : List Value}
    (hi : m.instantiate {} o.config budget ⟨.empty m, ()⟩ = (.ok i, shared))
    (htypes : parameters? m name = some types) (hargs : arguments name types o.args = .ok args) :
    callFunction m o name budget = (i.run (Run.invoke · budget name args)).1.mapError .fault := by
  simp only [callFunction, hi, htypes, hargs]
  rfl

/-- The arguments are read as the parameters of the function that is called. -/
theorem callee_of_arguments {m : Module} (hvalid : Validity.check m = .ok ()) {name : String}
    (hname : m.Unambiguous name) {o : Options} {budget : Nat} {i : Instance Unit}
    {shared : Shared Unit} {types : List ValueType} {args : List Value}
    (hi : m.instantiate {} o.config budget ⟨.empty m, ()⟩ = (.ok i, shared))
    (htypes : parameters? m name = some types) (hargs : arguments name types o.args = .ok args) :
    ∃ func f, m.export? name = some (.func func) ∧ f.type.params = types ∧
      (Request.invoke name args).callee? i.machine.store = some (func, f) := by
  obtain ⟨linked, hlink, hfixed⟩ := Module.instantiate_fixed
    (by intro module name f hget; cases hget) (CodeCache.empty_coherent m) hi
  have hexports : i.machine.store.exports = linked.store.exports :=
    (congrArg Store.exports hfixed :)
  have hfuncs : i.machine.store.funcs = linked.store.funcs := (congrArg Store.funcs hfixed :)
  unfold parameters? at htypes
  split at htypes
  · rename_i func hexport
    cases htypes
    obtain ⟨f, hf, htype⟩ := Module.link_func hlink (Module.toNat_lt_of_export? hvalid hexport)
    have hparams : f.type.params = ((m.funcType? func).map (·.params)).getD [] := by
      rw [htype]
      cases m.funcType? func <;> rfl
    have hlookup : i.machine.store.export? name = some (.func func) := by
      rw [Store.export?_eq_getLast? (hexports.trans (Module.link_exports hlink)), ← hname,
        ← m.export?_eq_head?, hexport]
    have haccepted := haveTypes_of_arguments hargs
    rw [← hparams] at haccepted
    refine ⟨func, f, hexport, hparams, ?_⟩
    simp only [Request.callee?, Request.func?, hlookup, hfuncs, hf, Option.bind_eq_bind,
      Option.bind_some, Request.args, haccepted, if_true]
  · cases htypes

end CommandLine

-- ---------------------------------------------------------------------------
-- Names that are exported twice
-- ---------------------------------------------------------------------------

/-- Two functions that return one, of a narrow and of a wide argument, under the
    same name. -/
def twofold : Module where
  types := #[{ params := [.i32], results := [.i32] }, { params := [.i64], results := [.i32] }]
  functions :=
    #[{ type := 0, locals := #[], body := (Code.plain (.const (.i32 1)) .nil).body },
      { type := 1, locals := #[], body := (Code.plain (.const (.i32 1)) .nil).body }]
  exports := #[{ name := "f", desc := .func 0 }, { name := "f", desc := .func 1 }]

/-- The bytes of `twofold`. -/
def twofoldBytes : List UInt8 :=
  [0x00, 0x61, 0x73, 0x6D, 0x01, 0x00, 0x00, 0x00,
    0x01, 0x0B, 0x02, 0x60, 0x01, 0x7F, 0x01, 0x7F, 0x60, 0x01, 0x7E, 0x01, 0x7F,
    0x03, 0x03, 0x02, 0x00, 0x01,
    0x07, 0x09, 0x02, 0x01, 0x66, 0x00, 0x00, 0x01, 0x66, 0x00, 0x01,
    0x0A, 0x0B, 0x02, 0x04, 0x00, 0x41, 0x01, 0x0B, 0x04, 0x00, 0x41, 0x01, 0x0B]

/-- The same functions under a name each. -/
def distinct : Module where
  types := twofold.types
  functions := twofold.functions
  exports := #[{ name := "f", desc := .func 0 }, { name := "g", desc := .func 1 }]

/-- A module and its instances agree on what a name stands for exactly where its
    first and last export are the same, as they are if no name is exported
    twice. Then the arguments on a command line are read as the parameters of
    the function that is called. -/
theorem Module.export_lookups {m : Module} (hvalid : Validity.check m = .ok ()) (name : String) :
    (∀ (imports : Imports σ) config linked, m.link imports config = .ok linked →
      (linked.store.export? name = m.export? name ↔ m.Unambiguous name)) ∧
    ((m.exports.toList.map (·.name)).Nodup → m.Unambiguous name) ∧
    (m.Unambiguous name → ∀ (o : CommandLine.Options) budget i shared types args,
      m.instantiate {} o.config budget ⟨.empty m, ()⟩ = (.ok i, shared) →
      CommandLine.parameters? m name = some types →
      CommandLine.arguments name types o.args = .ok args →
      CommandLine.callFunction m o name budget =
          (i.run (Run.invoke · budget name args)).1.mapError .fault ∧
        ∃ func f, m.export? name = some (.func func) ∧ f.type.params = types ∧
          (Request.invoke name args).callee? i.machine.store = some (func, f)) := by
  refine ⟨?_, fun hnames => unambiguous_of_nodup hnames name, ?_⟩
  · intro imports config linked hlink
    rw [Store.export?_eq_getLast? (Module.link_exports hlink), m.export?_eq_head?, Unambiguous]
    exact eq_comm
  · intro hname o budget i shared types args hi htypes hargs
    exact ⟨CommandLine.callFunction_of_arguments hi htypes hargs,
      CommandLine.callee_of_arguments hvalid hname hi htypes hargs⟩

/-- The wide argument is read as one. -/
theorem distinct_export_lookups :
    let o : CommandLine.Options := { path := "m.wasm", args := ["5"] }
    let request : Request := .invoke "g" [.i64 5]
    Validity.check distinct = .ok () ∧ ∃ i shared func f,
      distinct.instantiate {} o.config 10 ⟨.empty distinct, ()⟩ = (.ok i, shared) ∧
      distinct.export? "g" = some (.func func) ∧ f.type.params = [.i64] ∧
      request.callee? i.machine.store = some (func, f) := by
  intro o request
  let i : Instance Unit :=
    { env := { module := distinct, hosts := #[], config := {} }
      machine :=
        { cache := .empty distinct
          host := ()
          store :=
            { funcs :=
                #[.defined { params := [.i32], results := [.i32] } 0,
                  .defined { params := [.i64], results := [.i32] } 1]
              exports := [("g", .func 1), ("f", .func 0)]
              pageLimit := 65536 } } }
  have hi : distinct.instantiate {} o.config 10 ⟨.empty distinct, ()⟩ =
      (.ok i, ⟨.empty distinct, ()⟩) := by with_unfolding_all rfl
  have htypes : CommandLine.parameters? distinct "g" = some [.i64] := by with_unfolding_all rfl
  have hargs : CommandLine.arguments "g" [.i64] ["5"] = .ok [.i64 5] := by with_unfolding_all rfl
  obtain ⟨_, hnodup, hcall⟩ := Module.export_lookups (σ := Unit) (m := distinct) rfl "g"
  obtain ⟨_, func, f, hexport, hparams, hcallee⟩ :=
    hcall (hnodup (by decide)) o 10 i _ _ _ hi htypes hargs
  exact ⟨rfl, i, _, func, f, hi, hexport, hparams, hcallee⟩

/-- The argument is read as the parameter of the one function and the other is
    called with it. -/
theorem twofold_lookups_differ :
    (Format.decode twofoldBytes).toOption = some twofold ∧
      twofold.export? "f" = some (.func 0) ∧
      (twofold.link ({} : Imports Unit) {}).toOption.bind (·.store.export? "f") =
        some (.func 1) ∧
      CommandLine.callFunction twofold { path := "m.wasm", args := ["5"] } "f" 10 =
        .error (.fault (.trap (.argumentMismatch "f"))) :=
  ⟨by decide +kernel, rfl, by decide +kernel, by with_unfolding_all rfl⟩

end Wasm
