import ShmSpsc.Bytes
import ShmSpsc.Sequential

/-!
# The slots as bytes

The operations with their calls of `memcpy` : the slots are the bytes from `slots_` on, a
batch is one or two copies between them and the caller's buffer (`batchCopies`), and every
offset and length is computed in 64 bits.

In a segment that `create` can make none of these computations wraps, and the conditional
subtractions compute the moduli (`IndexExact`, `Copies.Exact`). `Raw.view` reads the bytes as
slots that hold elements; over it the operations here are those of `Solo`
(`Raw.view_tryPush` to `Raw.view_popN`), so what is proved there is true of the bytes.
-/

namespace ShmSpsc

open Bytes (record)

/-! ## Calls of `memcpy` -/

/-- A call of `memcpy` between the slots and the caller's buffer : the byte offsets from
`slots_` and from the start of the buffer, and the length. -/
structure Copy where
  slot : UInt64
  buffer : UInt64
  len : UInt64
  deriving DecidableEq, Repr

/-- The slots after the copies out of `buffer`, in order. -/
def storeAll (copies : List Copy) (buffer mem : ℕ → UInt8) : ℕ → UInt8 :=
  copies.foldl (fun mem c => Bytes.copy mem c.slot.toNat buffer c.buffer.toNat c.len.toNat) mem

/-- The buffer after the copies out of the slots, in order. -/
def loadAll (copies : List Copy) (mem buffer : ℕ → UInt8) : ℕ → UInt8 :=
  copies.foldl (fun buffer c => Bytes.copy buffer c.buffer.toNat mem c.slot.toNat c.len.toNat)
    buffer

/-- The copy of `try_push` to, or of `try_pop` from, `slots_[i]`. -/
def singleCopy (L : Layout) (i : UInt64) : List Copy := [⟨i * L.elemSize, 0, L.elemSize⟩]

/-- The copies of `push_n` and `pop_n` : up to the last slot, and from slot `0` on. -/
def batchCopies (L : Layout) (capacity i count : UInt64) : List Copy :=
  let first := firstPiece capacity i count
  ⟨i * L.elemSize, 0, first * L.elemSize⟩ ::
    if count > first then [⟨0, first * L.elemSize, (count - first) * L.elemSize⟩] else []

/-! ## The operations -/

/-- The segment with its slots as bytes, and the handle. -/
structure Raw where
  writeIdx : UInt64
  readIdx : UInt64
  bytes : ℕ → UInt8
  handle : Handle

/-- What an operation did : what it returned, its calls of `memcpy`, and the segment and the
buffer it left. -/
structure Ran (α : Type) where
  ret : α
  copies : List Copy
  state : Raw
  buffer : ℕ → UInt8

namespace Raw

/-- `readIdxCache_ = ctrl_->readIdx.load()` -/
def loadRead (s : Raw) : Raw :=
  { s with handle := { s.handle with readIdxCache := s.readIdx } }

/-- `writeIdxCache_ = ctrl_->writeIdx.load()` -/
def loadWrite (s : Raw) : Raw :=
  { s with handle := { s.handle with writeIdxCache := s.writeIdx } }

/-- The copies into the slots, and the store to `writeIdx`. -/
def publish {α : Type} (s : Raw) (buffer : ℕ → UInt8) (copies : List Copy) (next : UInt64)
    (ret : α) : Ran α where
  ret := ret
  copies := copies
  state := { s with bytes := storeAll copies buffer s.bytes, writeIdx := next }
  buffer := buffer

/-- The copies out of the slots, and the store to `readIdx`. -/
def consume {α : Type} (s : Raw) (buffer : ℕ → UInt8) (copies : List Copy) (next : UInt64)
    (ret : α) : Ran α where
  ret := ret
  copies := copies
  state := { s with readIdx := next }
  buffer := loadAll copies s.bytes buffer

/-- `try_push(v)`, `v` at the start of `buffer`. -/
def tryPush (L : Layout) (s : Raw) (buffer : ℕ → UInt8) : Ran Bool :=
  let w := s.writeIdx
  let next := nextIdx s.handle.capacity w
  if next = s.handle.readIdxCache then
    if next = s.loadRead.handle.readIdxCache then ⟨false, [], s.loadRead, buffer⟩
    else s.loadRead.publish buffer (singleCopy L w) next true
  else s.publish buffer (singleCopy L w) next true

/-- The copies and the store to `writeIdx` of `push_n`. -/
def putN (L : Layout) (s : Raw) (buffer : ℕ → UInt8) (n : UInt64) : Ran UInt64 :=
  let capacity := s.handle.capacity
  let w := s.writeIdx
  let count := min n (freeSlots capacity w s.handle.readIdxCache)
  s.publish buffer (batchCopies L capacity w count) (nextIdxN capacity w count) count

/-- `push_n(buffer, n)` -/
def pushN (L : Layout) (s : Raw) (buffer : ℕ → UInt8) (n : UInt64) : Ran UInt64 :=
  let free (r : UInt64) := freeSlots s.handle.capacity s.writeIdx r
  if n = 0 then ⟨0, [], s, buffer⟩
  else if free s.handle.readIdxCache < n then
    if free s.readIdx = 0 then ⟨0, [], s.loadRead, buffer⟩ else s.loadRead.putN L buffer n
  else s.putN L buffer n

/-- `front()` : the slot of the pointer it returns. -/
def front (s : Raw) : Option UInt64 × Raw :=
  let r := s.readIdx
  if r = s.handle.writeIdxCache then
    if r = s.loadWrite.handle.writeIdxCache then (none, s.loadWrite) else (some r, s.loadWrite)
  else (some r, s)

/-- `pop()`, none if its assertion fails. -/
def pop (s : Raw) : Option Raw :=
  let r := s.readIdx
  if s.writeIdx = r then none else some { s with readIdx := nextIdx s.handle.capacity r }

/-- `try_pop(out)`, `out` at the start of `buffer`. -/
def tryPop (L : Layout) (s : Raw) (buffer : ℕ → UInt8) : Option (Ran Bool) :=
  match s.front with
  | (none, s') => some ⟨false, [], s', buffer⟩
  | (some r, s') =>
    s'.pop.map fun s'' => ⟨true, singleCopy L r, s'', loadAll (singleCopy L r) s'.bytes buffer⟩

/-- The copies and the store to `readIdx` of `pop_n`. -/
def takeN (L : Layout) (s : Raw) (buffer : ℕ → UInt8) (n : UInt64) : Ran UInt64 :=
  let capacity := s.handle.capacity
  let r := s.readIdx
  let count := min n (usedSlots capacity s.handle.writeIdxCache r)
  s.consume buffer (batchCopies L capacity r count) (nextIdxN capacity r count) count

/-- `pop_n(buffer, n)` -/
def popN (L : Layout) (s : Raw) (buffer : ℕ → UInt8) (n : UInt64) : Ran UInt64 :=
  let avail (w : UInt64) := usedSlots s.handle.capacity w s.readIdx
  if n = 0 then ⟨0, [], s, buffer⟩
  else if avail s.handle.writeIdxCache < n then
    if avail s.writeIdx = 0 then ⟨0, [], s.loadWrite, buffer⟩ else s.loadWrite.takeN L buffer n
  else s.takeN L buffer n

end Raw

/-! ## What is exact -/

/-- A batch at index `i`, its length computed as `count` : it is the exact length `k`, and so
are the length of its first piece and the index behind it. -/
structure BatchExact (capacity i count : UInt64) (k : ℕ) : Prop where
  length : count.toNat = k
  first : (firstPiece capacity i count).toNat = min k (capacity.toNat - i.toNat)
  next : (nextIdxN capacity i count).toNat = (i.toNat + k) % capacity.toNat
  next_lt : nextIdxN capacity i count < capacity

/-- The computations of the operations on the indices `w` and `r`, with `n` elements asked for. -/
structure IndexExact (capacity w r n : UInt64) : Prop where
  used : ((usedSlots capacity w r).toNat : ℤ) = ((w.toNat : ℤ) - r.toNat) % capacity.toNat
  free : (freeSlots capacity w r).toNat + (usedSlots capacity w r).toNat = capacity.toNat - 1
  tryPush : (nextIdx capacity w).toNat = (w.toNat + 1) % capacity.toNat
  pop : (nextIdx capacity r).toNat = (r.toNat + 1) % capacity.toNat
  next_lt : nextIdx capacity w < capacity ∧ nextIdx capacity r < capacity
  pushN : BatchExact capacity w (min n (freeSlots capacity w r))
    (min n.toNat (freeSlots capacity w r).toNat)
  popN : BatchExact capacity r (min n (usedSlots capacity w r))
    (min n.toNat (usedSlots capacity w r).toNat)

/-- `new` is `old` with the first `count` elements of `src` in the slots from `i` on, modulo
`N`. -/
structure Filled {α : Type*} (N i count : ℕ) (src old new : ℕ → α) : Prop where
  inside : ∀ j < count, new ((i + j) % N) = src j
  outside : ∀ k, (∀ j < count, k ≠ (i + j) % N) → new k = old k

/-- The calls of `memcpy` for `count` elements from index `i` on : they stay inside the slots
and inside the first `count` elements of the buffer, touch the slots of these elements and no
others, and copy element `j` to or from slot `i + j`, modulo the capacity. -/
structure Copies.Exact (L : Layout) (capacity i : UInt64) (count : ℕ) (copies : List Copy) :
    Prop where
  slots : ∀ c ∈ copies, c.slot.toNat + c.len.toNat ≤ capacity.toNat * L.elemSize.toNat
  buffer : ∀ c ∈ copies, c.buffer.toNat + c.len.toNat ≤ count * L.elemSize.toNat
  touched : ∀ b, (∃ c ∈ copies, c.slot.toNat ≤ b ∧ b < c.slot.toNat + c.len.toNat) ↔
    ∃ j < count, b / L.elemSize.toNat = (i.toNat + j) % capacity.toNat
  stored : ∀ buffer mem, Filled capacity.toNat i.toNat count (record L.elemSize.toNat buffer)
    (record L.elemSize.toNat mem) (record L.elemSize.toNat (storeAll copies buffer mem))
  loaded : ∀ buffer mem, (∀ j < count,
      record L.elemSize.toNat (loadAll copies mem buffer) j =
        record L.elemSize.toNat mem ((i.toNat + j) % capacity.toNat)) ∧
    ∀ k, count ≤ k →
      record L.elemSize.toNat (loadAll copies mem buffer) k = record L.elemSize.toNat buffer k

/-! ## The indices -/

section Indices

variable (c : Capacity) {w r i count : UInt64}

/-- An index below the capacity is the cell of itself. -/
theorem eq_cell (hi : i.toNat < c.slots.toNat) : i.toNat = i.toNat % c.slots.toNat :=
  (Nat.mod_eq_of_lt hi).symm

/-- Two indices as the cells of two totals less than a capacity apart. -/
theorem exists_total (hw : w.toNat < c.slots.toNat) (hr : r.toNat < c.slots.toNat) :
    ∃ W, w.toNat = W % c.slots.toNat ∧ r.toNat ≤ W ∧ W < r.toNat + c.slots.toNat ∧
      ((w.toNat : ℤ) - r.toNat) % c.slots.toNat = (W - r.toNat : ℕ) := by
  by_cases hle : r.toNat ≤ w.toNat
  · refine ⟨w.toNat, eq_cell c hw, hle, by omega, ?_⟩
    rw [Int.emod_eq_of_lt (by omega) (by omega)]
    omega
  · refine ⟨w.toNat + c.slots.toNat, ?_, by omega, by omega, ?_⟩
    · rw [Nat.add_mod_right]
      exact eq_cell c hw
    · rw [← Int.add_emod_right, Int.emod_eq_of_lt (by omega) (by omega)]
      omega

theorem batchExact (hi : i.toNat < c.slots.toNat) (hcount : count.toNat < c.slots.toNat) :
    BatchExact c.slots i count count.toNat := by
  have hnext := toNat_nextIdxN c (eq_cell c hi) hcount
  refine ⟨rfl, toNat_firstPiece c hi, hnext, ?_⟩
  rw [UInt64.lt_iff_toNat_lt, hnext]
  exact Nat.mod_lt _ c.pos

/-- The index computations are exact for every pair of indices below the capacity. -/
theorem indexExact (hw : w.toNat < c.slots.toNat) (hr : r.toNat < c.slots.toNat) (n : UInt64) :
    IndexExact c.slots w r n := by
  obtain ⟨W, hW, hle, hlt, hmod⟩ := exists_total c hw hr
  have hused := toNat_usedSlots c hW (eq_cell c hr) hle hlt
  have hfree := toNat_freeSlots c hW (eq_cell c hr) hle hlt
  have hnext {i : UInt64} (hi : i.toNat < c.slots.toNat) :
      nextIdx c.slots i < c.slots := by
    rw [UInt64.lt_iff_toNat_lt, toNat_nextIdx c (eq_cell c hi)]
    exact Nat.mod_lt _ c.pos
  refine ⟨by rw [hused, hmod], by omega, toNat_nextIdx c (eq_cell c hw),
    toNat_nextIdx c (eq_cell c hr), ⟨hnext hw, hnext hr⟩, ?_, ?_⟩
  · rw [← toNat_min]
    exact batchExact c hw (by rw [toNat_min]; omega)
  · rw [← toNat_min]
    exact batchExact c hr (by rw [toNat_min]; omega)

/-- A batch leaves the slack slot. -/
theorem push_lt (hw : w.toNat < c.slots.toNat) (hr : r.toNat < c.slots.toNat) (n : UInt64) :
    (min n (freeSlots c.slots w r)).toNat < c.slots.toNat := by
  have hfree := (indexExact c hw hr n).free
  have := c.two_le
  rw [toNat_min]
  omega

theorem pop_lt (hw : w.toNat < c.slots.toNat) (hr : r.toNat < c.slots.toNat) (n : UInt64) :
    (min n (usedSlots c.slots w r)).toNat < c.slots.toNat := by
  have hfree := (indexExact c hw hr n).free
  have := c.two_le
  rw [toNat_min]
  omega

end Indices

/-! ## The copies -/

/-- The call copies whole elements : `m` of them, between the slots from `s` on and the buffer
from element `b` on. -/
structure Copy.Whole (c : Copy) (size s b m : ℕ) : Prop where
  slot : c.slot.toNat = s * size
  buffer : c.buffer.toNat = b * size
  len : c.len.toNat = m * size

section Whole

variable {c : Copy} {size s b m : ℕ} {buffer mem : ℕ → UInt8} (h : c.Whole size s b m) (k : ℕ)

include h

theorem Copy.Whole.stored :
    record size (Bytes.copy mem c.slot.toNat buffer c.buffer.toNat c.len.toNat) k =
      if s ≤ k ∧ k < s + m then record size buffer (b + (k - s)) else record size mem k := by
  rw [h.slot, h.buffer, h.len, Bytes.record_copy]

theorem Copy.Whole.loaded :
    record size (Bytes.copy buffer c.buffer.toNat mem c.slot.toNat c.len.toNat) k =
      if b ≤ k ∧ k < b + m then record size mem (s + (k - b)) else record size buffer k := by
  rw [h.slot, h.buffer, h.len, Bytes.record_copy]

end Whole

namespace Copies

variable {L : Layout} {capacity i : UInt64} {count first : ℕ} {c c' : Copy}

theorem exact_nil : Exact L capacity i 0 [] where
  slots := by simp
  buffer := by simp
  touched := by simp
  stored _ _ := ⟨by simp, fun _ _ => rfl⟩
  loaded _ _ := ⟨by simp, fun _ _ => rfl⟩

/-- One call that ends at the last slot or before. -/
theorem exact_one (h : c.Whole L.elemSize.toNat i.toNat 0 count)
    (hfits : i.toNat + count ≤ capacity.toNat) : Exact L capacity i count [c] where
  slots := by
    simp only [List.forall_mem_singleton, h.slot, h.len, ← Nat.add_mul]
    exact Nat.mul_le_mul_right _ hfits
  buffer := by
    simp only [List.forall_mem_singleton, h.buffer, h.len, ← Nat.add_mul, Nat.zero_add]
    exact le_rfl
  touched b := by
    simp only [List.mem_singleton, exists_eq_left, h.slot, h.len,
      Bytes.mem_range_iff L.elemSize_pos]
    constructor
    · rintro ⟨hle, hlt⟩
      refine ⟨b / L.elemSize.toNat - i.toNat, by omega, ?_⟩
      rw [Nat.mod_eq_of_lt (by omega)]
      omega
    · rintro ⟨j, hj, hb⟩
      rw [Nat.mod_eq_of_lt (by omega)] at hb
      omega
  stored buffer mem := by
    refine ⟨fun j hj => ?_, fun k hk => ?_⟩
    · simp only [storeAll, List.foldl, h.stored]
      rw [Nat.mod_eq_of_lt (by omega), if_pos (by omega)]
      congr 1
      omega
    · simp only [storeAll, List.foldl, h.stored]
      refine if_neg fun hin => hk (k - i.toNat) (by omega) ?_
      rw [Nat.mod_eq_of_lt (by omega)]
      omega
  loaded buffer mem := by
    simp only [loadAll, List.foldl, h.loaded]
    refine ⟨fun j hj => ?_, fun k hk => if_neg (by omega)⟩
    rw [Nat.mod_eq_of_lt (by omega), if_pos (by omega), Nat.sub_zero]

/-- Two calls, up to the last slot and from slot `0` on. -/
theorem exact_two (h : c.Whole L.elemSize.toNat i.toNat 0 first)
    (h' : c'.Whole L.elemSize.toNat 0 first (count - first)) (hi : i.toNat < capacity.toNat)
    (hfirst : i.toNat + first = capacity.toNat) (hlt : first < count)
    (hcount : count ≤ capacity.toNat) : Exact L capacity i count [c, c'] where
  slots := by
    simp only [List.forall_mem_cons, h.slot, h.len, h'.slot, h'.len, ← Nat.add_mul,
      List.not_mem_nil, false_implies, implies_true, and_true]
    exact ⟨Nat.mul_le_mul_right _ hfirst.le, Nat.mul_le_mul_right _ (by omega)⟩
  buffer := by
    simp only [List.forall_mem_cons, h.buffer, h.len, h'.buffer, h'.len, ← Nat.add_mul,
      List.not_mem_nil, false_implies, implies_true, and_true]
    exact ⟨Nat.mul_le_mul_right _ (by omega), Nat.mul_le_mul_right _ (by omega)⟩
  touched b := by
    simp only [List.mem_cons, List.not_mem_nil, or_false, exists_eq_or_imp, exists_eq_left,
      h.slot, h.len, h'.slot, h'.len, Bytes.mem_range_iff L.elemSize_pos]
    generalize b / L.elemSize.toNat = k
    constructor
    · rintro (⟨hle, hlt'⟩ | ⟨-, hlt'⟩)
      · refine ⟨k - i.toNat, by omega, ?_⟩
        rw [Circular.add_mod_of_lt hi (by omega), if_pos (by omega)]
        omega
      · refine ⟨first + k, by omega, ?_⟩
        rw [Circular.add_mod_of_lt hi (by omega), if_neg (by omega)]
        omega
    · rintro ⟨j, hj, hb⟩
      rw [Circular.add_mod_of_lt hi (by omega)] at hb
      split_ifs at hb <;> omega
  stored buffer mem := by
    refine ⟨fun j hj => ?_, fun k hk => ?_⟩
    · simp only [storeAll, List.foldl, h.stored, h'.stored]
      rw [Circular.add_mod_of_lt hi (by omega)]
      by_cases hwrap : i.toNat + j < capacity.toNat
      · rw [if_pos hwrap, if_neg (by omega), if_pos (by omega)]
        congr 1
        omega
      · rw [if_neg hwrap, if_pos (by omega)]
        congr 1
        omega
    · simp only [storeAll, List.foldl, h.stored, h'.stored]
      rw [if_neg, if_neg]
      · intro hin
        refine hk (k - i.toNat) (by omega) ?_
        rw [Circular.add_mod_of_lt hi (by omega), if_pos (by omega)]
        omega
      · intro hin
        refine hk (first + k) (by omega) ?_
        rw [Circular.add_mod_of_lt hi (by omega), if_neg (by omega)]
        omega
  loaded buffer mem := by
    simp only [loadAll, List.foldl, h.loaded, h'.loaded]
    refine ⟨fun j hj => ?_, fun k hk => ?_⟩
    · rw [Circular.add_mod_of_lt hi (by omega)]
      by_cases hwrap : i.toNat + j < capacity.toNat
      · rw [if_pos hwrap, if_neg (by omega), if_pos (by omega), Nat.sub_zero]
      · rw [if_neg hwrap, if_pos (by omega)]
        congr 1
        omega
    · rw [if_neg (by omega), if_neg (by omega)]

end Copies

section Room

variable {c : Capacity} {L : Layout} (hroom : c.slots.toNat * L.elemSize.toNat < 2 ^ 64)
  {i count : UInt64}

include hroom

/-- No offset and no length of up to `capacity_` elements wraps. -/
theorem toNat_mul_elemSize {x : UInt64} (hx : x.toNat ≤ c.slots.toNat) :
    (x * L.elemSize).toNat = x.toNat * L.elemSize.toNat := by
  rw [UInt64.toNat_mul]
  exact Nat.mod_eq_of_lt ((Nat.mul_le_mul_right _ hx).trans_lt hroom)

theorem exact_singleCopy (hi : i.toNat < c.slots.toNat) :
    Copies.Exact L c.slots i 1 (singleCopy L i) :=
  Copies.exact_one ⟨toNat_mul_elemSize hroom hi.le, by simp, by simp⟩ hi

theorem exact_batchCopies (hi : i.toNat < c.slots.toNat) (hcount : count.toNat < c.slots.toNat) :
    Copies.Exact L c.slots i count.toNat (batchCopies L c.slots i count) := by
  have hfirst : (firstPiece c.slots i count).toNat = _ := toNat_firstPiece c hi
  have hslot := toNat_mul_elemSize hroom hi.le
  have hlen := toNat_mul_elemSize hroom (x := firstPiece c.slots i count) (by omega)
  unfold batchCopies
  dsimp only
  split_ifs with hmore
  · rw [gt_iff_lt, UInt64.lt_iff_toNat_lt] at hmore
    have hsub : (count - firstPiece c.slots i count).toNat =
        count.toNat - (firstPiece c.slots i count).toNat :=
      UInt64.toNat_sub_of_le _ _ (UInt64.le_iff_toNat_le.mpr hmore.le)
    have hrest := toNat_mul_elemSize hroom (x := count - firstPiece c.slots i count) (by omega)
    rw [hsub] at hrest
    exact Copies.exact_two ⟨hslot, by simp, hlen⟩ ⟨by simp, hlen, hrest⟩ hi (by omega) hmore
      hcount.le
  · rw [gt_iff_lt, UInt64.not_lt, UInt64.le_iff_toNat_le] at hmore
    have hall : (firstPiece c.slots i count).toNat = count.toNat := by omega
    rw [hall] at hlen
    exact Copies.exact_one ⟨hslot, by simp, hlen⟩ (by omega)

end Room

/-! ## The operations are exact -/

namespace Raw

/-- The handle is one of a ring of `capacity` slots, and every index it can see is below it. -/
structure Below (s : Raw) (capacity : UInt64) : Prop where
  slots : s.handle.capacity = capacity
  write : s.writeIdx < capacity
  read : s.readIdx < capacity
  readCache : s.handle.readIdxCache < capacity
  writeCache : s.handle.writeIdxCache < capacity

/-- The `readIdx` that `try_push` goes by. -/
def readTried (s : Raw) : UInt64 :=
  if nextIdx s.handle.capacity s.writeIdx = s.handle.readIdxCache then s.readIdx
  else s.handle.readIdxCache

/-- The `writeIdx` that `front` goes by. -/
def writeTried (s : Raw) : UInt64 :=
  if s.readIdx = s.handle.writeIdxCache then s.writeIdx else s.handle.writeIdxCache

/-- The `readIdx` that `push_n` goes by. -/
def readSeen (s : Raw) (n : UInt64) : UInt64 :=
  if freeSlots s.handle.capacity s.writeIdx s.handle.readIdxCache < n then s.readIdx
  else s.handle.readIdxCache

/-- The `writeIdx` that `pop_n` goes by. -/
def writeSeen (s : Raw) (n : UInt64) : UInt64 :=
  if usedSlots s.handle.capacity s.handle.writeIdxCache s.readIdx < n then s.writeIdx
  else s.handle.writeIdxCache

/-- The operation has pushed the first `k` elements of `buffer`, and nothing else. -/
structure Pushed {α : Type} (L : Layout) (capacity : UInt64) (s : Raw) (buffer : ℕ → UInt8) (k : ℕ)
    (out : Ran α) : Prop where
  copies : Copies.Exact L capacity s.writeIdx k out.copies
  bytes : out.state.bytes = storeAll out.copies buffer s.bytes
  next : out.state.writeIdx.toNat = (s.writeIdx.toNat + k) % capacity.toNat
  next_lt : out.state.writeIdx < capacity
  read : out.state.readIdx = s.readIdx

/-- The operation has popped `k` elements to the start of `buffer`, and nothing else. -/
structure Popped {α : Type} (L : Layout) (capacity : UInt64) (s : Raw) (buffer : ℕ → UInt8) (k : ℕ)
    (out : Ran α) : Prop where
  copies : Copies.Exact L capacity s.readIdx k out.copies
  buffer : out.buffer = loadAll out.copies s.bytes buffer
  next : out.state.readIdx.toNat = (s.readIdx.toNat + k) % capacity.toNat
  next_lt : out.state.readIdx < capacity
  bytes : out.state.bytes = s.bytes
  write : out.state.writeIdx = s.writeIdx

/-- The operations in a ring of `capacity` slots, with the caller's `buffer` and `n` elements
asked for : when each one goes through and how many elements it counts, and that it copies
exactly these. `try_pop` stops at the assertion of its `pop()` when the `writeIdx` it goes by
shows an element that is not there. -/
structure Exact (L : Layout) (capacity : UInt64) (s : Raw) (buffer : ℕ → UInt8) (n : UInt64) :
    Prop where
  tryPush_ret : (s.tryPush L buffer).ret ↔
    (s.writeIdx.toNat + 1) % capacity.toNat ≠ s.readTried.toNat
  tryPush : s.Pushed L capacity buffer (s.tryPush L buffer).ret.toNat (s.tryPush L buffer)
  pushN_ret : (s.pushN L buffer n).ret.toNat =
    min n.toNat (freeSlots capacity s.writeIdx (s.readSeen n)).toNat
  pushN : s.Pushed L capacity buffer (s.pushN L buffer n).ret.toNat (s.pushN L buffer n)
  pop_ret : s.pop = none ↔ s.writeIdx = s.readIdx
  pop : ∀ s', s.pop = some s' → s' = { s with readIdx := s'.readIdx } ∧
    s'.readIdx.toNat = (s.readIdx.toNat + 1) % capacity.toNat ∧ s'.readIdx < capacity
  tryPop_stops : s.tryPop L buffer = none ↔
    s.readIdx ≠ s.writeTried ∧ s.writeIdx = s.readIdx
  tryPop_ret : ∀ out, s.tryPop L buffer = some out → (out.ret ↔ s.readIdx ≠ s.writeTried)
  tryPop : ∀ out, s.tryPop L buffer = some out → s.Popped L capacity buffer out.ret.toNat out
  popN_ret : (s.popN L buffer n).ret.toNat =
    min n.toNat (usedSlots capacity (s.writeSeen n) s.readIdx).toNat
  popN : s.Popped L capacity buffer (s.popN L buffer n).ret.toNat (s.popN L buffer n)

variable {α : Type} {c : Capacity} {L : Layout} {s s' : Raw} {n : UInt64} {ret : α}

section Api

variable {capacity : UInt64} {buffer : ℕ → UInt8} {k : ℕ} {out : Ran α}

theorem Below.loadRead (h : s.Below capacity) : s.loadRead.Below capacity :=
  ⟨h.slots, h.write, h.read, h.read, h.writeCache⟩

theorem Below.loadWrite (h : s.Below capacity) : s.loadWrite.Below capacity :=
  ⟨h.slots, h.write, h.read, h.readCache, h.write⟩

/-- A load of `readIdx` before it changes nothing. -/
theorem Pushed.of_loadRead (h : s.loadRead.Pushed L capacity buffer k out) :
    s.Pushed L capacity buffer k out :=
  ⟨h.copies, h.bytes, h.next, h.next_lt, h.read⟩

/-- A load of `writeIdx` before it changes nothing. -/
theorem Popped.of_loadWrite (h : s.loadWrite.Popped L capacity buffer k out) :
    s.Popped L capacity buffer k out :=
  ⟨h.copies, h.buffer, h.next, h.next_lt, h.bytes, h.write⟩

/-- An operation that returns at once. -/
theorem pushed_none (h : s.Below capacity) :
    s.Pushed L capacity buffer 0 (⟨ret, [], s, buffer⟩ : Ran α) :=
  ⟨Copies.exact_nil, rfl, (Nat.mod_eq_of_lt (UInt64.lt_iff_toNat_lt.mp h.write)).symm, h.write, rfl⟩

theorem popped_none (h : s.Below capacity) :
    s.Popped L capacity buffer 0 (⟨ret, [], s, buffer⟩ : Ran α) :=
  ⟨Copies.exact_nil, rfl, (Nat.mod_eq_of_lt (UInt64.lt_iff_toNat_lt.mp h.read)).symm, h.read, rfl,
    rfl⟩

end Api

/-! ### Pushing -/

section Push

variable (hroom : c.slots.toNat * L.elemSize.toNat < 2 ^ 64) (h : s.Below c.slots)
  (buffer : ℕ → UInt8)

include hroom h

theorem pushed_single :
    s.Pushed L c.slots buffer 1
      (s.publish buffer (singleCopy L s.writeIdx) (nextIdx s.handle.capacity s.writeIdx) ret) := by
  have hw := UInt64.lt_iff_toNat_lt.mp h.write
  have hnext := toNat_nextIdx c (eq_cell c hw)
  refine ⟨exact_singleCopy hroom hw, rfl, ?_, ?_, rfl⟩
  · simpa only [publish, h.slots] using hnext
  · simp only [publish, h.slots]
    rw [UInt64.lt_iff_toNat_lt, hnext]
    exact Nat.mod_lt _ c.pos

omit hroom in
/-- `try_push` goes through if the slack slot is not all that is left. -/
theorem ret_tryPush : (s.tryPush L buffer).ret ↔
    (s.writeIdx.toNat + 1) % c.slots.toNat ≠ s.readTried.toNat := by
  have hnext := toNat_nextIdx c (eq_cell c (UInt64.lt_iff_toNat_lt.mp h.write))
  rw [← hnext, Ne, UInt64.toNat_inj]
  unfold tryPush readTried
  dsimp only
  rw [h.slots]
  split_ifs with hcache hfull
  · exact iff_of_false not_false (not_not_intro hfull)
  · exact iff_of_true rfl hfull
  · exact iff_of_true rfl hcache

/-- `try_push` -/
theorem pushed_tryPush :
    s.Pushed L c.slots buffer (s.tryPush L buffer).ret.toNat (s.tryPush L buffer) := by
  unfold tryPush
  dsimp only
  split_ifs
  · exact (pushed_none h.loadRead).of_loadRead
  · exact (pushed_single hroom h.loadRead buffer).of_loadRead
  · exact pushed_single hroom h buffer

theorem pushed_putN :
    (s.putN L buffer n).ret.toNat =
        min n.toNat (freeSlots c.slots s.writeIdx s.handle.readIdxCache).toNat ∧
      s.Pushed L c.slots buffer (s.putN L buffer n).ret.toNat (s.putN L buffer n) := by
  have hw := UInt64.lt_iff_toNat_lt.mp h.write
  have hr := UInt64.lt_iff_toNat_lt.mp h.readCache
  have hbatch := (indexExact c hw hr n).pushN
  simp only [putN, publish, h.slots]
  refine ⟨hbatch.length, exact_batchCopies hroom hw (push_lt c hw hr n), rfl, ?_,
    hbatch.next_lt, rfl⟩
  rw [hbatch.length]
  exact hbatch.next

/-- `push_n` -/
theorem pushed_pushN :
    (s.pushN L buffer n).ret.toNat =
        min n.toNat (freeSlots c.slots s.writeIdx (s.readSeen n)).toNat ∧
      s.Pushed L c.slots buffer (s.pushN L buffer n).ret.toNat (s.pushN L buffer n) := by
  unfold pushN readSeen
  simp only [h.slots]
  by_cases hn : n = 0
  · rw [if_pos hn, hn]
    exact ⟨by simp, pushed_none h⟩
  rw [if_neg hn]
  by_cases hfew : freeSlots c.slots s.writeIdx s.handle.readIdxCache < n
  · rw [if_pos hfew, if_pos hfew]
    split_ifs with hfull
    · rw [hfull]
      exact ⟨by simp, (pushed_none h.loadRead).of_loadRead⟩
    · obtain ⟨hret, hpushed⟩ := pushed_putN hroom h.loadRead buffer
      exact ⟨hret, hpushed.of_loadRead⟩
  · rw [if_neg hfew, if_neg hfew]
    exact pushed_putN hroom h buffer

end Push

/-! ### Popping -/

/-- `front()` returns a pointer if the `writeIdx` it goes by is not `readIdx`. -/
theorem front_isSome (s : Raw) : s.front.1.isSome ↔ s.readIdx ≠ s.writeTried := by
  unfold front writeTried
  dsimp only
  split_ifs with hcache hempty
  · exact iff_of_false Bool.false_ne_true (not_not_intro hempty)
  · exact iff_of_true rfl hempty
  · exact iff_of_true rfl hcache

/-- `pop()` stops at its assertion if the ring is empty. -/
theorem pop_eq_none (s : Raw) : s.pop = none ↔ s.writeIdx = s.readIdx := by
  unfold pop
  dsimp only
  split_ifs with hassert
  · exact iff_of_true rfl hassert
  · exact iff_of_false not_false hassert

/-- `front()` loads `writeIdx` at most, and returns a pointer to the slot of `readIdx`. -/
theorem front_cases (s : Raw) :
    (s.front.2 = s ∨ s.front.2 = s.loadWrite) ∧ ∀ r, s.front.1 = some r → r = s.readIdx := by
  unfold front
  dsimp only
  split_ifs
  · exact ⟨.inr rfl, by simp⟩
  · exact ⟨.inr rfl, by simp⟩
  · exact ⟨.inl rfl, by simp⟩

/-- `try_pop` stops if its `pop()` does. -/
theorem tryPop_eq_none (s : Raw) (L : Layout) (buffer : ℕ → UInt8) :
    s.tryPop L buffer = none ↔ s.readIdx ≠ s.writeTried ∧ s.writeIdx = s.readIdx := by
  have hfound := s.front_isSome
  have hstate : s.front.2.writeIdx = s.writeIdx ∧ s.front.2.readIdx = s.readIdx := by
    rcases s.front_cases.1 with hs | hs <;> rw [hs] <;> exact ⟨rfl, rfl⟩
  unfold tryPop
  generalize s.front = out at hfound hstate
  obtain ⟨_ | r, t⟩ := out
  · have heq : s.readIdx = s.writeTried := by simpa using hfound
    exact iff_of_false (Option.some_ne_none _) fun hstops => hstops.1 heq
  · have hne : s.readIdx ≠ s.writeTried := hfound.mp rfl
    rw [and_iff_right hne, ← hstate.1, ← hstate.2, ← t.pop_eq_none]
    exact Option.map_eq_none_iff

/-- `try_pop` returns an element if `front()` does. -/
theorem ret_tryPop {buffer : ℕ → UInt8} {out : Ran Bool} (hout : s.tryPop L buffer = some out) :
    out.ret ↔ s.readIdx ≠ s.writeTried := by
  rw [← s.front_isSome]
  unfold tryPop at hout
  split at hout
  next s' hfront =>
    obtain rfl := Option.some.inj hout
    simp [hfront]
  next r s' hfront =>
    obtain ⟨s'', -, rfl⟩ := Option.map_eq_some_iff.mp hout
    simp [hfront]

section Pop

variable (h : s.Below c.slots)

include h

/-- `pop()` moves `readIdx` on by one slot and does nothing else. -/
theorem pop_exact (hpop : s.pop = some s') :
    s' = { s with readIdx := s'.readIdx } ∧
      s'.readIdx.toNat = (s.readIdx.toNat + 1) % c.slots.toNat ∧ s'.readIdx < c.slots := by
  have hr := UInt64.lt_iff_toNat_lt.mp h.read
  have hnext := toNat_nextIdx c (eq_cell c hr)
  simp only [pop, h.slots] at hpop
  split_ifs at hpop
  obtain rfl := Option.some.inj hpop
  refine ⟨rfl, hnext, ?_⟩
  rw [UInt64.lt_iff_toNat_lt, hnext]
  exact Nat.mod_lt _ c.pos

variable (hroom : c.slots.toNat * L.elemSize.toNat < 2 ^ 64) (buffer : ℕ → UInt8)

include hroom

/-- `try_pop` -/
theorem popped_tryPop {out : Ran Bool} (hout : s.tryPop L buffer = some out) :
    s.Popped L c.slots buffer out.ret.toNat out := by
  obtain ⟨hstate, hslot⟩ := s.front_cases
  -- the rest of `try_pop`, on the state that `front` leaves
  have hrest {t : Raw} (ht : t.Below c.slots) {x : Option UInt64} (hx : s.front = (x, t))
      (hx' : ∀ r, x = some r → r = t.readIdx) : t.Popped L c.slots buffer out.ret.toNat out := by
    simp only [tryPop, hx] at hout
    cases x with
    | none =>
      obtain rfl := Option.some.inj hout
      exact popped_none ht
    | some r =>
      obtain rfl := hx' r rfl
      obtain ⟨t', hpop, rfl⟩ := Option.map_eq_some_iff.mp hout
      obtain ⟨hframe, hnext, hlt⟩ := pop_exact ht hpop
      refine ⟨exact_singleCopy hroom (UInt64.lt_iff_toNat_lt.mp ht.read), rfl, hnext, hlt, ?_, ?_⟩
      all_goals dsimp only; rw [hframe]
  rcases hstate with hs | hs
  · exact hrest h (Prod.ext rfl hs) hslot
  · exact (hrest h.loadWrite (Prod.ext rfl hs) hslot).of_loadWrite

theorem popped_takeN :
    (s.takeN L buffer n).ret.toNat =
        min n.toNat (usedSlots c.slots s.handle.writeIdxCache s.readIdx).toNat ∧
      s.Popped L c.slots buffer (s.takeN L buffer n).ret.toNat (s.takeN L buffer n) := by
  have hw := UInt64.lt_iff_toNat_lt.mp h.writeCache
  have hr := UInt64.lt_iff_toNat_lt.mp h.read
  have hbatch := (indexExact c hw hr n).popN
  simp only [takeN, consume, h.slots]
  refine ⟨hbatch.length, exact_batchCopies hroom hr (pop_lt c hw hr n), rfl, ?_,
    hbatch.next_lt, rfl, rfl⟩
  rw [hbatch.length]
  exact hbatch.next

/-- `pop_n` -/
theorem popped_popN :
    (s.popN L buffer n).ret.toNat =
        min n.toNat (usedSlots c.slots (s.writeSeen n) s.readIdx).toNat ∧
      s.Popped L c.slots buffer (s.popN L buffer n).ret.toNat (s.popN L buffer n) := by
  unfold popN writeSeen
  simp only [h.slots]
  by_cases hn : n = 0
  · rw [if_pos hn, hn]
    exact ⟨by simp, popped_none h⟩
  rw [if_neg hn]
  by_cases hfew : usedSlots c.slots s.handle.writeIdxCache s.readIdx < n
  · rw [if_pos hfew, if_pos hfew]
    split_ifs with hempty
    · rw [hempty]
      exact ⟨by simp, (popped_none h.loadWrite).of_loadWrite⟩
    · obtain ⟨hret, hpopped⟩ := popped_takeN h.loadWrite hroom buffer
      exact ⟨hret, hpopped.of_loadWrite⟩
  · rw [if_neg hfew, if_neg hfew]
    exact popped_takeN h hroom buffer

end Pop

end Raw

/-! ## The bytes as elements -/

/-- A slot is filled in one way only. -/
theorem Filled.unique {α : Type*} {N i count : ℕ} {src old f g : ℕ → α}
    (hf : Filled N i count src old f) (hg : Filled N i count src old g) : f = g := by
  funext k
  by_cases hk : ∃ j < count, k = (i + j) % N
  · obtain ⟨j, hj, rfl⟩ := hk
    rw [hf.inside j hj, hg.inside j hj]
  · have hout : ∀ j < count, k ≠ (i + j) % N := fun j hj heq => hk ⟨j, hj, heq⟩
    rw [hf.outside k hout, hg.outside k hout]

/-- The slots after the first `m` copies of a batch. -/
theorem Solo.filled_copyIn {T : Type*} (c : Capacity) {w count : UInt64}
    (hw : w.toNat < c.slots.toNat) (hcount : count.toNat < c.slots.toNat) (ring : Ring T)
    (src : ℕ → T) : ∀ m ≤ count.toNat, Filled c.slots.toNat w.toNat m src ring.slots
      (copyIn ring c.slots w count src m).slots
  | 0, _ => ⟨by simp, fun _ _ => rfl⟩
  | m + 1, hm => by
    obtain ⟨hin, hout⟩ := filled_copyIn c hw hcount ring src m (by omega)
    rw [copyIn_succ, batchSlot_eq c (eq_cell c hw) hcount (by omega)]
    refine ⟨fun j hj => ?_, fun k hk => ?_⟩
    · rcases Nat.lt_succ_iff_lt_or_eq.mp hj with hlt | rfl
      · rw [Ring.setSlot_of_ne _ _ ?_, hin j hlt]
        intro heq
        have := Circular.eq_of_mod_eq (a := w.toNat) (by omega) (by omega) (by omega) (by omega) heq
        omega
      · exact Ring.setSlot_self ..
    · rw [Ring.setSlot_of_ne _ _ (hk m (by omega))]
      exact hout k fun j hj => hk j (by omega)

namespace Raw

/-- The slots as elements of `size` bytes. -/
def view (size : ℕ) (s : Raw) : Solo (Fin size → UInt8) :=
  ⟨⟨s.writeIdx, s.readIdx, record size s.bytes⟩, s.handle⟩

/-- `front()` and `pop()` read and write no slot. -/
theorem view_front (s : Raw) (size : ℕ) :
    (s.view size).front = (s.front.1, s.front.2.view size) := by
  unfold front
  dsimp only
  split_ifs with hcache hempty
  · exact (if_pos hcache).trans (if_pos hempty)
  · exact (if_pos hcache).trans (if_neg hempty)
  · exact if_neg hcache

theorem view_pop (s : Raw) (size : ℕ) : (s.view size).pop = s.pop.map (view size) := by
  unfold pop
  dsimp only
  split_ifs with hassert
  · exact if_pos hassert
  · exact if_neg hassert

section View

variable {c : Capacity} {L : Layout} {s : Raw} {n : UInt64} (h : s.Below c.slots)
  (hroom : c.slots.toNat * L.elemSize.toNat < 2 ^ 64) (buffer : ℕ → UInt8)

include h hroom

theorem view_publish :
    view L.elemSize.toNat (s.publish buffer (singleCopy L s.writeIdx)
        (nextIdx s.handle.capacity s.writeIdx) true).state =
      (s.view L.elemSize.toNat).put (record L.elemSize.toNat buffer 0) := by
  have hw := UInt64.lt_iff_toNat_lt.mp h.write
  have hput : Filled c.slots.toNat s.writeIdx.toNat 1 (record L.elemSize.toNat buffer)
      (record L.elemSize.toNat s.bytes)
      ((s.view L.elemSize.toNat).put (record L.elemSize.toNat buffer 0)).ring.slots := by
    refine ⟨fun j hj => ?_, fun k hk => ?_⟩
    · obtain rfl : j = 0 := by omega
      rw [Nat.add_zero, ← eq_cell c hw]
      exact Ring.setSlot_self ..
    · have hne := hk 0 Nat.zero_lt_one
      rw [Nat.add_zero, ← eq_cell c hw] at hne
      exact Ring.setSlot_of_ne _ _ hne
  refine Solo.ext (Ring.ext rfl rfl ?_) rfl
  exact ((exact_singleCopy hroom hw).stored buffer s.bytes).unique hput

/-- `try_push` on the elements. -/
theorem view_tryPush :
    (s.view L.elemSize.toNat).tryPush (record L.elemSize.toNat buffer 0) =
      ((s.tryPush L buffer).ret, view L.elemSize.toNat (s.tryPush L buffer).state) := by
  have hput := view_publish h hroom buffer
  have hput' := view_publish h.loadRead hroom buffer
  unfold tryPush
  dsimp only
  split_ifs with hcache hfull
  · exact (if_pos hcache).trans (if_pos hfull)
  · refine ((if_pos hcache).trans (if_neg hfull)).trans (Prod.ext rfl ?_)
    exact hput'.symm
  · refine (if_neg hcache).trans (Prod.ext rfl ?_)
    exact hput.symm

theorem view_putN :
    (s.view L.elemSize.toNat).putN (record L.elemSize.toNat buffer) n =
      ((s.putN L buffer n).ret, view L.elemSize.toNat (s.putN L buffer n).state) := by
  have hw := UInt64.lt_iff_toNat_lt.mp h.write
  have hr := UInt64.lt_iff_toNat_lt.mp h.readCache
  have hcopy := Solo.filled_copyIn c hw (push_lt c hw hr n) (s.view L.elemSize.toNat).ring
    (record L.elemSize.toNat buffer) _ le_rfl
  have hstored := (exact_batchCopies hroom hw (push_lt c hw hr n)).stored buffer s.bytes
  rw [← h.slots] at hcopy hstored
  refine Prod.ext rfl (Solo.ext (Ring.ext rfl (Solo.copyIn_idx ..) ?_) rfl)
  exact hcopy.unique hstored

/-- `push_n` on the elements. -/
theorem view_pushN :
    (s.view L.elemSize.toNat).pushN (record L.elemSize.toNat buffer) n =
      ((s.pushN L buffer n).ret, view L.elemSize.toNat (s.pushN L buffer n).state) := by
  unfold pushN
  dsimp only
  split_ifs with hn hfew hfull
  · exact if_pos hn
  · exact (if_neg hn).trans ((if_pos hfew).trans (if_pos hfull))
  · exact (if_neg hn).trans ((if_pos hfew).trans ((if_neg hfull).trans
      (view_putN h.loadRead hroom buffer)))
  · exact (if_neg hn).trans ((if_neg hfew).trans (view_putN h hroom buffer))

/-- `try_pop` on the elements. -/
theorem view_tryPop :
    (s.view L.elemSize.toNat).tryPop = (s.tryPop L buffer).map fun out =>
      (if out.ret then some (record L.elemSize.toNat out.buffer 0) else none,
        view L.elemSize.toNat out.state) := by
  obtain ⟨hstate, hslot⟩ := s.front_cases
  have hread : s.front.2.Below c.slots ∧ s.front.2.readIdx = s.readIdx := by
    rcases hstate with hs | hs
    · rw [hs]
      exact ⟨h, rfl⟩
    · rw [hs]
      exact ⟨h.loadWrite, rfl⟩
  unfold Solo.tryPop tryPop
  rw [view_front]
  generalize s.front = out at hread hslot
  obtain ⟨_ | r, t⟩ := out
  · rfl
  · obtain rfl : r = t.readIdx := (hslot r rfl).trans hread.2.symm
    have hr := UInt64.lt_iff_toNat_lt.mp hread.1.read
    have hloaded := ((exact_singleCopy hroom hr).loaded buffer t.bytes).1 0 Nat.zero_lt_one
    rw [Nat.add_zero, ← eq_cell c hr] at hloaded
    simp only [view_pop, Option.map_map]
    congr 1
    funext t'
    simp only [Function.comp_apply, if_true, hloaded]
    rfl

theorem view_takeN :
    (s.view L.elemSize.toNat).takeN n =
      ((List.range (s.takeN L buffer n).ret.toNat).map
          (record L.elemSize.toNat (s.takeN L buffer n).buffer),
        view L.elemSize.toNat (s.takeN L buffer n).state) := by
  have hw := UInt64.lt_iff_toNat_lt.mp h.writeCache
  have hr := UInt64.lt_iff_toNat_lt.mp h.read
  have hcount := pop_lt c hw hr n
  have hloaded := ((exact_batchCopies hroom hr hcount).loaded buffer s.bytes).1
  have hcell := fun j hj => (hloaded j hj).trans
    (congrArg (record L.elemSize.toNat s.bytes) (batchSlot_eq c (eq_cell c hr) hcount hj).symm)
  rw [← h.slots] at hcell
  refine Prod.ext ?_ rfl
  simp only [Solo.takeN, batchSlots, List.map_map]
  exact List.map_congr_left fun j hj => (hcell j (List.mem_range.mp hj)).symm

/-- `pop_n` on the elements. -/
theorem view_popN :
    (s.view L.elemSize.toNat).popN n =
      ((List.range (s.popN L buffer n).ret.toNat).map
          (record L.elemSize.toNat (s.popN L buffer n).buffer),
        view L.elemSize.toNat (s.popN L buffer n).state) := by
  unfold popN
  dsimp only
  split_ifs with hn hfew hempty
  · exact if_pos hn
  · exact (if_neg hn).trans ((if_pos hfew).trans (if_pos hempty))
  · exact (if_neg hn).trans ((if_pos hfew).trans ((if_neg hempty).trans
      (view_takeN h.loadWrite hroom buffer)))
  · exact (if_neg hn).trans ((if_neg hfew).trans (view_takeN h hroom buffer))

end View

/-- Ring arithmetic is exact in 64 bits. In every segment that `create` can make, the indices
below the slot count are added, subtracted and wrapped without a wrap of the word, and every
operation counts what the indices it goes by leave to it, copies the elements it counts to or
from the slots behind its index, modulo the slot count, touches no other slot, and stays inside
the slots and inside those elements of the caller's buffer. -/
theorem ring_exact {L : Layout} {name : String} {requested : UInt64} {calls : CreateCalls}
    {g : Geometry} (hg : create L name requested calls = .ok g) :
    (∀ w r n, w < g.capacity → r < g.capacity → IndexExact g.capacity w r n) ∧
      ∀ s : Raw, s.Below g.capacity → ∀ (buffer : ℕ → UInt8) (n : UInt64),
        s.Exact L g.capacity buffer n := by
  obtain ⟨bytes, -, -, hbytes, hlt, hcapacity⟩ := create_eq_ok hg
  let c := Capacity.ofCreate hg
  have hroom : c.slots.toNat * L.elemSize.toNat < 2 ^ 64 := by
    rw [← hcapacity] at hbytes
    change g.capacity.toNat * L.elemSize.toNat < 2 ^ 64
    omega
  refine ⟨fun w r n hw hr => ?_, fun s hs buffer n => ?_⟩
  · exact indexExact c (UInt64.lt_iff_toNat_lt.mp hw) (UInt64.lt_iff_toNat_lt.mp hr) n
  have hs : s.Below c.slots := hs
  obtain ⟨hpushN, hpushed⟩ := pushed_pushN hroom hs buffer
  obtain ⟨hpopN, hpopped⟩ := popped_popN hs hroom buffer
  exact ⟨ret_tryPush hs buffer, pushed_tryPush hroom hs buffer, hpushN, hpushed, s.pop_eq_none,
    fun s' => pop_exact hs, s.tryPop_eq_none L buffer, fun out => ret_tryPop,
    fun out => popped_tryPop hs hroom buffer, hpopN, hpopped⟩

/-- Five slots of 48 bytes with one element in slot `2`. -/
def wrapRaw : Raw := ⟨3, 2, fun _ => 0, ⟨5, 2, 3⟩⟩

/-- Three messages to push. -/
def wrapBuffer : ℕ → UInt8 := fun b => b.toUInt8

/-- The ring with the three messages in slots `3`, `4` and `0`. -/
def wrappedRaw : Raw := (wrapRaw.pushN messageLayout wrapBuffer 3).state

/-- A batch of three goes to slots `3`, `4` and `0`, in two pieces, and the four elements there
are then come back in two pieces; a `try_push`, a `pop()` and a `try_pop` go through before the
batch, and a `try_push` does not after it. -/
theorem ring_exact_wrapRaw :
    create messageLayout "/q" 4 ⟨none, none, none⟩ = .ok (createdGeometry messageLayout 5 496) ∧
      wrapRaw.Below 5 ∧
      (wrapRaw.pushN messageLayout wrapBuffer 3).copies = [⟨144, 0, 96⟩, ⟨0, 96, 48⟩] ∧
      wrapRaw.Pushed messageLayout 5 wrapBuffer 3 (wrapRaw.pushN messageLayout wrapBuffer 3) ∧
      wrapRaw.Pushed messageLayout 5 wrapBuffer 1 (wrapRaw.tryPush messageLayout wrapBuffer) ∧
      (∃ s', wrapRaw.pop = some s' ∧ s'.readIdx.toNat = 3) ∧
      (∃ out, wrapRaw.tryPop messageLayout wrapBuffer = some out ∧ out.ret = true ∧
        wrapRaw.Popped messageLayout 5 wrapBuffer 1 out) ∧
      (wrappedRaw.tryPush messageLayout wrapBuffer).ret = false ∧
      (wrappedRaw.popN messageLayout wrapBuffer 4).copies = [⟨96, 0, 144⟩, ⟨0, 144, 48⟩] ∧
      wrappedRaw.Popped messageLayout 5 wrapBuffer 4
        (wrappedRaw.popN messageLayout wrapBuffer 4) := by
  have hcreate : create messageLayout "/q" 4 ⟨none, none, none⟩ =
      .ok (createdGeometry messageLayout 5 496) := by
    decide
  have hbelow : wrapRaw.Below 5 := ⟨by decide, by decide, by decide, by decide, by decide⟩
  have hbelow' : wrappedRaw.Below 5 := ⟨by decide, by decide, by decide, by decide, by decide⟩
  have h := (ring_exact hcreate).2 wrapRaw hbelow wrapBuffer 3
  have h' := (ring_exact hcreate).2 wrappedRaw hbelow' wrapBuffer 4
  have hpush : (wrapRaw.tryPush messageLayout wrapBuffer).ret = true :=
    h.tryPush_ret.mpr (by decide)
  have htryPush := h.tryPush
  rw [hpush] at htryPush
  obtain ⟨s', hs'⟩ := Option.ne_none_iff_exists'.mp (mt h.pop_ret.mp (by decide))
  obtain ⟨out, hout⟩ := Option.ne_none_iff_exists'.mp
    (mt h.tryPop_stops.mp (by decide))
  have hret : out.ret = true := (h.tryPop_ret out hout).mpr (by decide)
  have hpopped := h.tryPop out hout
  rw [hret] at hpopped
  have hfull : (wrappedRaw.tryPush messageLayout wrapBuffer).ret = false :=
    Bool.eq_false_iff.mpr (mt h'.tryPush_ret.mp (by decide))
  exact ⟨hcreate, hbelow, rfl, h.pushN, htryPush, ⟨s', hs', (h.pop s' hs').2.1⟩,
    ⟨out, hout, hret, hpopped⟩, hfull, rfl, h'.popN⟩

end Raw

end ShmSpsc
