import Mathlib.Data.Nat.ModEq
import Mathlib.Tactic.SplitIfs

/-!
# Circular positions

A stream of elements numbered from `0` is kept in `N` cells, element `i` in cell `i % N`.
Over a window of `N` consecutive numbers distinct elements have distinct cells
(`eq_of_mod_eq`), moving forward by at most `N` is one addition and at most one subtraction
(`add_mod_of_le`), and a cell read long ago names one element of the last `N`
(`exists_mod_eq`).
-/

namespace Circular

variable {N a d i j : ℕ}

/-- One conditional subtraction computes a move of at most `N` cells. -/
theorem add_mod_of_le (hN : 0 < N) (hd : d ≤ N) :
    (a + d) % N = if a % N + d < N then a % N + d else a % N + d - N := by
  have ha := Nat.mod_lt a hN
  rw [← Nat.mod_add_mod]
  split_ifs with h
  · exact Nat.mod_eq_of_lt h
  · rw [Nat.mod_eq_sub_mod (by omega), Nat.mod_eq_of_lt (by omega)]

/-- The same from a cell. -/
theorem add_mod_of_lt (ha : a < N) (hd : d ≤ N) :
    (a + d) % N = if a + d < N then a + d else a + d - N := by
  rw [add_mod_of_le (by omega) hd, Nat.mod_eq_of_lt ha]

/-- Two elements of one window of `N` share a cell only if they are the same. -/
theorem eq_of_mod_eq (hi : a ≤ i) (hi' : i < a + N) (hj : a ≤ j) (hj' : j < a + N)
    (h : i % N = j % N) : i = j := by
  rcases Nat.le_total i j with hij | hij
  · obtain ⟨k, hk⟩ := (Nat.modEq_iff_dvd' hij).mp h
    rcases Nat.eq_zero_or_pos k with rfl | hpos
    · omega
    · have : N ≤ N * k := Nat.le_mul_of_pos_right N hpos
      omega
  · obtain ⟨k, hk⟩ := (Nat.modEq_iff_dvd' hij).mp h.symm
    rcases Nat.eq_zero_or_pos k with rfl | hpos
    · omega
    · have : N ≤ N * k := Nat.le_mul_of_pos_right N hpos
      omega

/-- The last element up to `n` that shares a cell with an earlier one. -/
theorem exists_mod_eq {m n : ℕ} (hN : 0 < N) (hm : m ≤ n) :
    ∃ k ≤ n, n < k + N ∧ k % N = m % N := by
  refine ⟨n - (n - m) % N, Nat.sub_le .., ?_, ?_⟩
  · have := Nat.mod_lt (n - m) hN
    omega
  · have hdiv := Nat.mod_add_div (n - m) N
    have hk : n - (n - m) % N = m + N * ((n - m) / N) := by omega
    rw [hk, Nat.add_mul_mod_self_left]

end Circular
