import Wasm.Store

/-!
# Growing memories

A memory that consists of whole pages grows by zero bytes behind those that it
has, or not at all. Neither growing nor writing changes its maximum.
-/

namespace Wasm

theorem data_zeros (n : Nat) : (zeros n).data = Array.replicate n 0 := by
  induction n using Nat.strongRecOn with
  | ind n ih =>
    rw [zeros]
    split
    · subst n
      rfl
    · rename_i hpos
      have hhalf := ih (n / 2) (Nat.div_lt_self (Nat.pos_of_ne_zero hpos) Nat.one_lt_two)
      have hdouble : (zeros (n / 2) ++ zeros (n / 2)).data = Array.replicate (2 * (n / 2)) 0 := by
        rw [ByteArray.data_append, hhalf, Array.replicate_append_replicate, Nat.two_mul]
      dsimp only
      split
      · rename_i heven
        rw [hdouble, Nat.mul_div_cancel' (Nat.dvd_of_mod_eq_zero heven)]
      · rename_i hodd
        have hsucc := Nat.div_add_mod n 2
        rw [Nat.mod_two_ne_zero.mp hodd] at hsucc
        rw [ByteArray.data_push, hdouble, ← Array.replicate_succ, hsucc]

namespace Memory

theorem resize_add (data : ByteArray) (n : Nat) :
    resize data (data.size + n) = data ++ zeros n := by
  unfold resize
  split
  · rename_i hle
    have hzero : n = 0 := by omega
    subst hzero
    rw [zeros]
    simp
  · rw [Nat.add_sub_cancel_left]

/-- The memory consists of whole pages. -/
def Whole (m : Memory) : Prop := m.size = m.pages * pageSize

variable {m : Memory} {delta limit : Nat}

theorem grow_of_le (hm : m.Whole) (h : m.pages + delta ≤ m.bound limit) :
    m.grow delta limit =
      (BitVec.ofNat 32 m.pages, { m with data := m.data ++ zeros (delta * pageSize) }) := by
  have hsize : (m.pages + delta) * pageSize = m.data.size + delta * pageSize := by
    rw [Nat.add_mul, ← hm]
    rfl
  rw [grow, grow?, if_pos h, hsize, resize_add]

theorem grow_of_lt (h : m.bound limit < m.pages + delta) : m.grow delta limit = (-1, m) := by
  rw [grow, grow?, if_neg (Nat.not_le_of_lt h)]

theorem max_grow (m : Memory) (delta limit : Nat) : (m.grow delta limit).2.max = m.max := by
  rw [grow, grow?]
  by_cases h : m.pages + delta ≤ m.bound limit
  · rw [if_pos h]
  · rw [if_neg h]

end Memory

end Wasm
