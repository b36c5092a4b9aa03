import ShmSpsc.Circular
import ShmSpsc.Layout

/-!
# The ring's index arithmetic

The two indices of the control block, the slots behind it, and the 64-bit computations of
the operations on them. Every lemma reads an index as the cell of a running total : if `w`
is the cell of `W` and `r` the cell of `R` with `R ≤ W < R + capacity`, then `usedSlots`
is `W - R`, `freeSlots` the rest less the slack slot, and the conditional subtractions give
the cells of `W + 1` and of `W + count` without a wrap of the word.
-/

namespace ShmSpsc

variable {T : Type*}

/-- The part of the segment the operations share : the two index lines and the slots. -/
structure Ring (T : Type*) where
  writeIdx : UInt64
  readIdx : UInt64
  slots : ℕ → T

/-- `freeSlots(w, r)` -/
def freeSlots (capacity w r : UInt64) : UInt64 :=
  (if r > w then r - w else r + capacity - w) - 1

/-- `usedSlots(w, r)` -/
def usedSlots (capacity w r : UInt64) : UInt64 :=
  if w ≥ r then w - r else w + capacity - r

/-- `capacity()`, the slots less the slack slot. -/
def capacityOf (capacity : UInt64) : UInt64 := capacity - 1

/-- `next` of `try_push` and `pop()` -/
def nextIdx (capacity i : UInt64) : UInt64 :=
  if i + 1 = capacity then 0 else i + 1

/-- `next` of `push_n` and `pop_n` -/
def nextIdxN (capacity i count : UInt64) : UInt64 :=
  if i + count ≥ capacity then i + count - capacity else i + count

/-- `first`, the length of a batch's piece before the wrap. -/
def firstPiece (capacity i count : UInt64) : UInt64 :=
  min count (capacity - i)

/-- The slot of element `j` of a batch of `count` at index `i` : the first piece starts at
slot `i`, the second at slot `0`. -/
def batchSlot (capacity i count : UInt64) (j : ℕ) : ℕ :=
  if j < (firstPiece capacity i count).toNat then i.toNat + j
  else j - (firstPiece capacity i count).toNat

/-- The slots of a batch of `count` at index `i`, both pieces. -/
def batchSlots (capacity i count : UInt64) : List ℕ :=
  (List.range count.toNat).map (batchSlot capacity i count)

/-- The slots `readIdx, …, writeIdx - 1`, modulo the capacity. -/
def Ring.occupied (ring : Ring T) (capacity : UInt64) : List ℕ :=
  (List.range (usedSlots capacity ring.writeIdx ring.readIdx).toNat).map
    fun i => (ring.readIdx.toNat + i) % capacity.toNat

/-- The contents of the occupied slots, in order. -/
def Ring.contents (ring : Ring T) (capacity : UInt64) : List T :=
  (ring.occupied capacity).map ring.slots

/-- `memcpy(&slots_[k], &v, sizeof(T))` -/
def Ring.setSlot (ring : Ring T) (k : ℕ) (v : T) : Ring T :=
  { ring with slots := Function.update ring.slots k v }

@[simp] theorem Ring.setSlot_self (ring : Ring T) (k : ℕ) (v : T) :
    (ring.setSlot k v).slots k = v := by
  simp [Ring.setSlot]

theorem Ring.setSlot_of_ne (ring : Ring T) {k i : ℕ} (v : T) (h : i ≠ k) :
    (ring.setSlot k v).slots i = ring.slots i :=
  Function.update_of_ne h _ _

/-! ## Exactness -/

theorem toNat_min (a b : UInt64) : (min a b).toNat = min a.toNat b.toNat := by
  have h : min a b = if a ≤ b then a else b := rfl
  rw [h]
  simp only [UInt64.le_iff_toNat_le]
  split_ifs <;> omega

theorem Capacity.pos (c : Capacity) : 0 < c.slots.toNat := by
  have := c.two_le
  omega

theorem toNat_capacityOf (c : Capacity) :
    (capacityOf c.slots).toNat = c.slots.toNat - 1 := by
  have := c.two_le
  rw [capacityOf, UInt64.toNat_sub_of_le _ _ (by rw [UInt64.le_iff_toNat_le]; simp; omega)]
  rfl

theorem toNat_nextIdx (c : Capacity) {w : UInt64} {W : ℕ} (hw : w.toNat = W % c.slots.toNat) :
    (nextIdx c.slots w).toNat = (W + 1) % c.slots.toNat := by
  have hlt := Nat.mod_lt W c.pos
  have hc := c.lt
  have hsucc : (w + 1).toNat = w.toNat + 1 := by
    rw [UInt64.toNat_add, UInt64.toNat_one]
    omega
  rw [Circular.add_mod_of_le c.pos c.pos, nextIdx]
  split_ifs with h h' h'
  · rw [← UInt64.toNat_inj] at h
    omega
  · rw [← UInt64.toNat_inj] at h
    simp only [UInt64.toNat_zero]
    omega
  · omega
  · rw [← UInt64.toNat_inj] at h
    omega

theorem toNat_nextIdxN (c : Capacity) {w count : UInt64} {W : ℕ}
    (hw : w.toNat = W % c.slots.toNat) (hcount : count.toNat < c.slots.toNat) :
    (nextIdxN c.slots w count).toNat = (W + count.toNat) % c.slots.toNat := by
  have hlt := Nat.mod_lt W c.pos
  have hc := c.lt
  have hadd : (w + count).toNat = w.toNat + count.toNat := by
    rw [UInt64.toNat_add]
    omega
  rw [Circular.add_mod_of_le c.pos hcount.le, nextIdxN]
  simp only [ge_iff_le, UInt64.le_iff_toNat_le]
  split_ifs with h h' h'
  · omega
  · rw [UInt64.toNat_sub]
    omega
  · omega
  · omega

/-- The cell of `W` seen from the cell of an earlier `R`. -/
theorem cell_eq (c : Capacity) {w r : UInt64} {W R : ℕ} (hw : w.toNat = W % c.slots.toNat)
    (hr : r.toNat = R % c.slots.toNat) (hle : R ≤ W) (hlt : W < R + c.slots.toNat) :
    r.toNat < c.slots.toNat ∧
      w.toNat = if r.toNat + (W - R) < c.slots.toNat then r.toNat + (W - R)
        else r.toNat + (W - R) - c.slots.toNat := by
  refine ⟨hr ▸ Nat.mod_lt _ c.pos, ?_⟩
  obtain ⟨d, rfl⟩ := Nat.exists_eq_add_of_le hle
  rw [hw, Circular.add_mod_of_le c.pos (by omega), ← hr, Nat.add_sub_cancel_left]

theorem toNat_usedSlots (c : Capacity) {w r : UInt64} {W R : ℕ}
    (hw : w.toNat = W % c.slots.toNat) (hr : r.toNat = R % c.slots.toNat) (hle : R ≤ W)
    (hlt : W < R + c.slots.toNat) : (usedSlots c.slots w r).toNat = W - R := by
  obtain ⟨hrlt, hcell⟩ := cell_eq c hw hr hle hlt
  have hc := c.lt
  unfold usedSlots
  simp only [ge_iff_le, UInt64.le_iff_toNat_le]
  split_ifs at hcell ⊢ with h h' h'
  all_goals simp only [UInt64.toNat_sub, UInt64.toNat_add]; omega

theorem toNat_freeSlots (c : Capacity) {w r : UInt64} {W R : ℕ}
    (hw : w.toNat = W % c.slots.toNat) (hr : r.toNat = R % c.slots.toNat) (hle : R ≤ W)
    (hlt : W < R + c.slots.toNat) :
    (freeSlots c.slots w r).toNat = c.slots.toNat - 1 - (W - R) := by
  obtain ⟨hrlt, hcell⟩ := cell_eq c hw hr hle hlt
  have hc := c.lt
  unfold freeSlots
  simp only [gt_iff_lt, UInt64.lt_iff_toNat_lt]
  split_ifs at hcell ⊢ with h h' h'
  all_goals simp only [UInt64.toNat_sub, UInt64.toNat_add, UInt64.toNat_one]; omega

/-- The next index is the peer's exactly when the slack slot alone is left. -/
theorem nextIdx_eq_iff (c : Capacity) {w r : UInt64} {W R : ℕ}
    (hw : w.toNat = W % c.slots.toNat) (hr : r.toNat = R % c.slots.toNat) (hle : R ≤ W)
    (hlt : W < R + c.slots.toNat) :
    nextIdx c.slots w = r ↔ W + 1 = R + c.slots.toNat := by
  rw [← UInt64.toNat_inj, toNat_nextIdx c hw, hr]
  constructor
  · intro h
    by_contra hne
    have := Circular.eq_of_mod_eq (a := R) (by omega) (by omega) le_rfl
      (Nat.lt_add_of_pos_right c.pos) h
    omega
  · intro h
    rw [h, Nat.add_mod_right]

/-- The indices are equal exactly when nothing is in between. -/
theorem cell_eq_iff (c : Capacity) {w r : UInt64} {W R : ℕ}
    (hw : w.toNat = W % c.slots.toNat) (hr : r.toNat = R % c.slots.toNat) (hle : R ≤ W)
    (hlt : W < R + c.slots.toNat) : r = w ↔ W = R := by
  rw [← UInt64.toNat_inj, hw, hr]
  constructor
  · intro h
    exact (Circular.eq_of_mod_eq le_rfl (Nat.lt_add_of_pos_right c.pos) hle hlt h).symm
  · rintro rfl
    rfl

theorem toNat_firstPiece (c : Capacity) {i count : UInt64} (hi : i.toNat < c.slots.toNat) :
    (firstPiece c.slots i count).toNat = min count.toNat (c.slots.toNat - i.toNat) := by
  have hc := c.lt
  have hsub : (c.slots - i).toNat = c.slots.toNat - i.toNat := by
    rw [UInt64.toNat_sub]
    omega
  rw [firstPiece, toNat_min, hsub]

theorem batchSlot_eq (c : Capacity) {w count : UInt64} {W j : ℕ}
    (hw : w.toNat = W % c.slots.toNat) (hcount : count.toNat < c.slots.toNat)
    (hj : j < count.toNat) : batchSlot c.slots w count j = (W + j) % c.slots.toNat := by
  have hlt := Nat.mod_lt W c.pos
  rw [Circular.add_mod_of_le c.pos (by omega), batchSlot, toNat_firstPiece c (by omega)]
  split_ifs <;> omega

end ShmSpsc
