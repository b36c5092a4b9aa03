import Mathlib.Algebra.Order.Ring.Nat
import Mathlib.Tactic.SplitIfs

/-!
# Records in byte memory

A memory is a function from byte offsets to bytes, and holds records of `size` bytes one
behind the other, record `k` from byte `k * size` on. `copy` is `memcpy`. A copy whose
offsets and length are whole records copies records (`record_copy`), and a byte is in the
range of `m` records from `d` on exactly if its record is (`mem_range_iff`).
-/

namespace Bytes

variable {β : Type*} {size : ℕ}

/-- The memory `dst` after `len` bytes of `src` from `s` on were copied to `d`. -/
def copy (dst : ℕ → β) (d : ℕ) (src : ℕ → β) (s len : ℕ) : ℕ → β := fun b =>
  if d ≤ b ∧ b < d + len then src (s + (b - d)) else dst b

/-- Record `k` of a memory. -/
def record (size : ℕ) (mem : ℕ → β) (k : ℕ) : Fin size → β := fun j => mem (k * size + j)

theorem mem_range_iff (hsize : 0 < size) {b d m : ℕ} :
    d * size ≤ b ∧ b < d * size + m * size ↔ d ≤ b / size ∧ b / size < d + m := by
  rw [← Nat.add_mul, Nat.le_div_iff_mul_le hsize, Nat.div_lt_iff_lt_mul hsize]

theorem div_record {k : ℕ} (j : Fin size) : (k * size + j) / size = k := by
  rw [Nat.add_comm, Nat.add_mul_div_right _ _ (Fin.pos j), Nat.div_eq_of_lt j.2, Nat.zero_add]

/-- A copy of `m` records from `s` on to the records from `d` on. -/
theorem record_copy (dst src : ℕ → β) (d s m k : ℕ) :
    record size (copy dst (d * size) src (s * size) (m * size)) k =
      if d ≤ k ∧ k < d + m then record size src (s + (k - d)) else record size dst k := by
  funext j
  have hrange : d * size ≤ k * size + j ∧ k * size + j < d * size + m * size ↔
      d ≤ k ∧ k < d + m := by
    rw [mem_range_iff (Fin.pos j), div_record]
  simp only [record, copy, hrange]
  split_ifs with h
  · obtain ⟨e, rfl⟩ := Nat.exists_eq_add_of_le h.1
    simp only [record, Nat.add_sub_cancel_left, Nat.add_mul, Nat.add_assoc]
  · rfl

end Bytes
