import Wasm.Proofs.Machine.Changes

/-!
# What running code leaves alone

Code changes memories, globals and fuel. The functions and tables of a store,
the names it exports and its page limit stay as they were linked, unless the
host changes them.
-/

namespace Wasm

variable {σ : Type}

/-- The store without what code can change. -/
def Store.fixed (s : Store) : Store :=
  { s with memories := #[], globals := #[], fuel := none }

theorem Store.fixed_grow (s : Store) (delta : BitVec 32) : (s.grow delta).2.fixed = s.fixed := by
  unfold grow
  split <;> rfl

/-- A host function that changes no more of a store than code can. -/
def HostFunc.Fixes (f : HostFunc σ) : Prop :=
  ∀ args s state, (f.call args s state).store.fixed = s.fixed

theorem Holdings.Change.fixed {env : Env σ} {among : UInt32 → Prop} {h h' : Holdings}
    (hhosts : ∀ f ∈ env.hosts, f.Fixes) (hchange : Change env among h h') :
    h'.store.fixed = h.store.fixed := by
  cases hchange with
  | assignLocal | assignGlobal | fuel | enter | leave => rfl
  | write hwrite =>
    obtain ⟨_, _, rfl⟩ := Store.write_eq_ok hwrite
    rfl
  | grow delta => exact Store.fixed_grow _ delta
  | host hf args state => exact hhosts _ hf args _ state

/-- However a call ends, it leaves the rest of the store as it was. -/
theorem Run.callToEnd_fixed {env : Env σ} {m : Machine σ} (hhosts : ∀ f ∈ env.hosts, f.Fixes)
    (hm : m.outline.Sourced env.module) (budget : Nat) (func : UInt32) :
    (finalState (callToEnd env budget func m)).store.fixed = m.store.fixed := by
  have hchanges := Changing.callToEnd env.module.assigns_any hm budget func
  refine hchanges.preserve (P := fun h => h.store.fixed = m.store.fixed) ?_ rfl
  intro h h' hchange hh
  exact (hchange.fixed hhosts).trans hh

end Wasm
