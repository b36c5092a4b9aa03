import ShmSpsc.Consumer
import ShmSpsc.Transition

/-!
# What becomes of an accepted segment

`validate` looks neither at the number of slots nor at the two indices, and not at where the
slots start. Here a handle is bound to a segment with any content, and any sequence of its
operations runs on it, with the peer storing any indices below the capacity in between.
`Attached.access` is the slot that a step reads or writes.

`Attached.safe_iff` : every access of every such run is to a slot below the capacity,
aligned and outside the control block, exactly if the segment was a ring when it was
accepted (`RingLike`), or has one slot, which is then never accessed.
-/

namespace ShmSpsc

open Transition

variable {T : Type*}

/-! ## The accesses of a handle's operations -/

/-- The slot the next step of a `try_push` or `push_n` writes. -/
def Producer.access (p : Producer T) : PushAct T → Option ℕ
  | .step =>
    match p.pc with
    | .tryPushCopy _ w _ => some w.toNat
    | .pushNCopy _ w count i => some (batchSlot p.handle.capacity w count i)
    | _ => none
  | _ => none

/-- The slot the next step of a `try_pop` or `pop_n`, or a copy through the pointer of
`front`, reads. -/
def Consumer.access (q : Consumer T) : PopAct → Option ℕ
  | .copyFront => q.held.map UInt64.toNat
  | .step =>
    match q.pc with
    | .tryPopCopy r => some r.toNat
    | .popNCopy r count dst => some (batchSlot q.handle.capacity r count dst.length)
    | _ => none
  | _ => none

/-- The segment and one handle on it, which may call the operations of both roles. -/
structure Attached (T : Type*) where
  ring : Ring T
  handle : Handle
  push : PushPc T
  held : Option UInt64
  peeked : Option T
  pop : PopPc T

/-- A step of an operation of the handle, or what the peer does in between. -/
inductive AttachedAct (T : Type*) where
  | push (a : PushAct T)
  | pop (a : PopAct)
  | peer (ring : Ring T)

/-- The step is one of the handle's own. -/
def AttachedAct.own : AttachedAct T → Bool
  | .peer _ => false
  | _ => true

def PushPc.isReady : PushPc T → Bool
  | .ready _ => true
  | _ => false

def PopPc.isReady : PopPc T → Bool
  | .ready _ => true
  | _ => false

namespace Attached

/-- The handle, as it pushes. -/
def producer (s : Attached T) : Producer T := ⟨s.handle, s.push⟩

/-- The handle, as it pops. -/
def consumer (s : Attached T) : Consumer T := ⟨s.handle, s.held, s.peeked, s.pop⟩

/-- One step. One operation of the handle is under way at a time. -/
def step (s : Attached T) : AttachedAct T → Option (Attached T)
  | .push a =>
    if s.pop.isReady then
      (s.producer.act s.ring a).map fun (ring, p, _) =>
        { s with ring := ring, handle := p.handle, push := p.pc }
    else none
  | .pop a =>
    if s.push.isReady then
      (s.consumer.act s.ring a).map fun (ring, q, _) =>
        ⟨ring, q.handle, s.push, q.held, q.peeked, q.pc⟩
    else none
  | .peer ring =>
    if ring.writeIdx < s.handle.capacity ∧ ring.readIdx < s.handle.capacity then
      some { s with ring := ring }
    else none

/-- The slot a step accesses. -/
def access (s : Attached T) : AttachedAct T → Option ℕ
  | .push a => s.producer.access a
  | .pop a => s.consumer.access a
  | .peer _ => none

/-- The handle that `bind` leaves on a segment with geometry `g` and content `ring`. -/
def bound (g : Geometry) (ring : Ring T) : Attached T where
  ring := ring
  handle := ⟨g.capacity, ring.readIdx, ring.writeIdx⟩
  push := .ready none
  held := none
  peeked := none
  pop := .ready none

end Attached

/-- Slot `i` is one of the segment's, aligned, and outside the control block. -/
structure SlotOk (L : Layout) (g : Geometry) (i : ℕ) : Prop where
  lt : i < g.capacity.toNat
  outside : L.controlBlockSize.toNat ≤ slotOffset L g i
  aligned : L.elemAlign.toNat ∣ slotOffset L g i

/-- Every access of every sequence of operations on a bound handle is to such a slot,
with the peer taking steps in between if `peer`. -/
def Attached.Safe (peer : Bool) (L : Layout) (g : Geometry) (ring : Ring T) : Prop :=
  ∀ s, Reaches step (fun _ a => peer = true ∨ a.own = true) (bound g ring) s →
    ∀ a, (s.step a).isSome → ∀ i, s.access a = some i → SlotOk L g i

/-- The segment is a ring : it has a slot besides the slack slot, both indices point to
slots, and the slots are aligned and behind the control block. -/
structure RingLike (L : Layout) (g : Geometry) (ring : Ring T) : Prop where
  two_le : 2 ≤ g.capacity.toNat
  write : ring.writeIdx < g.capacity
  read : ring.readIdx < g.capacity
  outside : L.controlBlockSize.toNat ≤ g.slotsOffset.toNat
  aligned : L.elemAlign.toNat ∣ g.slotsOffset.toNat

/-! ## Indices below the capacity stay below it -/

section Arithmetic

variable {cap w r i count : UInt64}

theorem nextIdx_lt (h : i < cap) : nextIdx cap i < cap := by
  rw [UInt64.lt_iff_toNat_lt] at h ⊢
  have hcap := cap.toNat_lt
  unfold nextIdx
  split_ifs with heq
  · simp only [UInt64.toNat_zero]
    omega
  · rw [← UInt64.toNat_inj, UInt64.toNat_add, UInt64.toNat_one] at heq
    rw [UInt64.toNat_add, UInt64.toNat_one]
    omega

theorem nextIdxN_lt (h : i < cap) (hcount : count < cap) : nextIdxN cap i count < cap := by
  rw [UInt64.lt_iff_toNat_lt] at h hcount ⊢
  have hcap := cap.toNat_lt
  unfold nextIdxN
  simp only [ge_iff_le, UInt64.le_iff_toNat_le, UInt64.toNat_add]
  split_ifs with hge
  · rw [UInt64.toNat_sub, UInt64.toNat_add]
    omega
  · rw [UInt64.toNat_add]
    omega

theorem freeSlots_lt (hw : w < cap) (hr : r < cap) : freeSlots cap w r < cap := by
  rw [UInt64.lt_iff_toNat_lt] at hw hr ⊢
  have hcap := cap.toNat_lt
  unfold freeSlots
  simp only [gt_iff_lt, UInt64.lt_iff_toNat_lt]
  split_ifs with hlt
  all_goals simp only [UInt64.toNat_sub, UInt64.toNat_add, UInt64.toNat_one]; omega

theorem usedSlots_lt (hw : w < cap) (hr : r < cap) : usedSlots cap w r < cap := by
  rw [UInt64.lt_iff_toNat_lt] at hw hr ⊢
  have hcap := cap.toNat_lt
  unfold usedSlots
  simp only [ge_iff_le, UInt64.le_iff_toNat_le]
  split_ifs with hle
  all_goals simp only [UInt64.toNat_sub, UInt64.toNat_add]; omega

theorem batchSlot_lt (h : i < cap) (hcount : count < cap) {j : ℕ} (hj : j < count.toNat) :
    batchSlot cap i count j < cap.toNat := by
  rw [UInt64.lt_iff_toNat_lt] at h hcount
  have hsub : (cap - i).toNat = cap.toNat - i.toNat :=
    UInt64.toNat_sub_of_le _ _ (UInt64.le_iff_toNat_le.mpr h.le)
  have hfirst : (firstPiece cap i count).toNat = min count.toNat (cap.toNat - i.toNat) := by
    rw [firstPiece, toNat_min, hsub]
  rw [batchSlot, hfirst]
  split_ifs <;> omega

theorem two_le_of_ne (hi : i < cap) (hr : r < cap) (hne : i ≠ r) : 2 ≤ cap.toNat := by
  rw [UInt64.lt_iff_toNat_lt] at hi hr
  rw [Ne, ← UInt64.toNat_inj] at hne
  omega

theorem min_lt_of_right {n k : UInt64} (h : k < cap) : min n k < cap := by
  rw [UInt64.lt_iff_toNat_lt] at h ⊢
  rw [toNat_min]
  omega

end Arithmetic

/-- The indices a push holds are below the capacity, and a slot is accessed only where there
are two. -/
def PushPc.Below (cap : UInt64) : PushPc T → Prop
  | .ready _ => True
  | .tryPushLoad _ => True
  | .tryPushTest _ w next => w < cap ∧ next < cap
  | .tryPushRefresh _ w next => w < cap ∧ next < cap
  | .tryPushCopy _ w next => (w < cap ∧ next < cap) ∧ 2 ≤ cap.toNat
  | .tryPushStore _ w next => w < cap ∧ next < cap
  | .pushNLoad _ n => n ≠ 0
  | .pushNTest _ n w => n ≠ 0 ∧ w < cap
  | .pushNRefresh _ n w => n ≠ 0 ∧ w < cap
  | .pushNCopy _ w count i => w < cap ∧ count < cap ∧ i < count.toNat
  | .pushNStore _ w count => w < cap ∧ count < cap

/-- The indices a pop holds are below the capacity, and a slot is accessed only where there
are two. -/
def PopPc.Below (cap : UInt64) : PopPc T → Prop
  | .ready _ => True
  | .frontLoad _ => True
  | .frontTest _ r => r < cap
  | .frontRefresh _ r => r < cap
  | .tryPopCopy r => r < cap ∧ 2 ≤ cap.toNat
  | .popLoad _ => True
  | .popAssert _ r => r < cap
  | .popStore _ r => r < cap
  | .popNLoad n => n ≠ 0
  | .popNTest n r => n ≠ 0 ∧ r < cap
  | .popNRefresh n r => n ≠ 0 ∧ r < cap
  | .popNCopy r count dst => r < cap ∧ count < cap ∧ dst.length < count.toNat
  | .popNStore r count _ => r < cap ∧ count < cap
  | .aborted => True

/-- The shared indices are below the capacity. -/
structure Ring.Below (cap : UInt64) (ring : Ring T) : Prop where
  write : ring.writeIdx < cap
  read : ring.readIdx < cap

/-- So are the indices in the caches of a handle. -/
structure Handle.Below (cap : UInt64) (h : Handle) : Prop where
  capacity : h.capacity = cap
  read : h.readIdxCache < cap
  write : h.writeIdxCache < cap

theorem pos_of_not_lt {n k : UInt64} (hn : n ≠ 0) (h : ¬k < n) : 0 < (min n k).toNat := by
  have hn' : n.toNat ≠ 0 := fun h0 => hn (UInt64.toNat_inj.mp h0)
  rw [UInt64.lt_iff_toNat_lt] at h
  rw [toNat_min]
  omega

theorem pos_of_ne {n k : UInt64} (hn : n ≠ 0) (h : ¬k = 0) : 0 < (min n k).toNat := by
  have hn' : n.toNat ≠ 0 := fun h0 => hn (UInt64.toNat_inj.mp h0)
  have hk : k.toNat ≠ 0 := fun h0 => h (UInt64.toNat_inj.mp h0)
  rw [toNat_min]
  omega

section Producer

variable {cap : UInt64} {ring ring' : Ring T} {p p' : Producer T} {a : PushAct T} {xs : List T}

/-- A call of a push. -/
theorem Producer.below_call (hring : ring.Below cap) (hhandle : p.handle.Below cap)
    (h : p.act ring a = some (ring', p', xs)) (hcall : a ≠ .step) :
    ring'.Below cap ∧ p'.handle.Below cap ∧ p'.pc.Below cap := by
  obtain ⟨handle, pc⟩ := p
  cases a with
  | tryPush v =>
    cases pc <;> cases h
    exact ⟨hring, hhandle, trivial⟩
  | pushN src n =>
    cases pc <;> simp only [act, reduceCtorEq] at h
    split_ifs at h with hn
    · cases h
      exact ⟨hring, hhandle, trivial⟩
    · cases h
      exact ⟨hring, hhandle, hn⟩
  | step => exact absurd rfl hcall

/-- A step of `try_push`. -/
theorem Producer.below_tryPush (hring : ring.Below cap) (hhandle : p.handle.Below cap)
    (hpc : p.pc.Below cap) (h : p.act ring .step = some (ring', p', xs)) (hop : p.pc.inTryPush) :
    ring'.Below cap ∧ p'.handle.Below cap ∧ p'.pc.Below cap := by
  obtain ⟨⟨capacity, rcache, wcache⟩, pc⟩ := p
  obtain rfl : capacity = cap := hhandle.capacity
  have hrcache : rcache < capacity := hhandle.read
  have hload : Handle.Below capacity ⟨capacity, ring.readIdx, wcache⟩ :=
    ⟨rfl, hring.read, hhandle.write⟩
  cases pc with
  | tryPushLoad v =>
    cases h
    exact ⟨hring, hhandle, hring.write, nextIdx_lt hring.write⟩
  | tryPushTest v w next =>
    simp only [act] at h
    split_ifs at h with hne
    · cases h
      exact ⟨hring, hhandle, hpc⟩
    · cases h
      exact ⟨hring, hhandle, hpc, two_le_of_ne hpc.2 hrcache hne⟩
  | tryPushRefresh v w next =>
    simp only [act] at h
    split_ifs at h with hne
    · cases h
      exact ⟨hring, hload, trivial⟩
    · cases h
      exact ⟨hring, hload, hpc, two_le_of_ne hpc.2 hring.read hne⟩
  | tryPushCopy v w next =>
    cases h
    exact ⟨⟨hring.write, hring.read⟩, hhandle, hpc.1⟩
  | tryPushStore v w next =>
    cases h
    exact ⟨⟨hpc.2, hring.read⟩, hhandle, trivial⟩
  | _ => cases hop

/-- A step of `push_n`. -/
theorem Producer.below_pushN (hring : ring.Below cap) (hhandle : p.handle.Below cap)
    (hpc : p.pc.Below cap) (h : p.act ring .step = some (ring', p', xs)) (hop : p.pc.inPushN) :
    ring'.Below cap ∧ p'.handle.Below cap ∧ p'.pc.Below cap := by
  obtain ⟨⟨capacity, rcache, wcache⟩, pc⟩ := p
  obtain rfl : capacity = cap := hhandle.capacity
  have hrcache : rcache < capacity := hhandle.read
  have hload : Handle.Below capacity ⟨capacity, ring.readIdx, wcache⟩ :=
    ⟨rfl, hring.read, hhandle.write⟩
  cases pc with
  | pushNLoad src n =>
    cases h
    exact ⟨hring, hhandle, hpc, hring.write⟩
  | pushNTest src n w =>
    obtain ⟨hn, hw⟩ := hpc
    simp only [act] at h
    split_ifs at h with hfree
    · cases h
      exact ⟨hring, hhandle, hn, hw⟩
    · cases h
      exact ⟨hring, hhandle, hw, min_lt_of_right (freeSlots_lt hw hrcache),
        pos_of_not_lt hn hfree⟩
  | pushNRefresh src n w =>
    obtain ⟨hn, hw⟩ := hpc
    simp only [act] at h
    split_ifs at h with hfree
    · cases h
      exact ⟨hring, hload, trivial⟩
    · cases h
      exact ⟨hring, hload, hw, min_lt_of_right (freeSlots_lt hw hring.read), pos_of_ne hn hfree⟩
  | pushNCopy src w count i =>
    obtain ⟨hw, hcount, hi⟩ := hpc
    simp only [act] at h
    cases h
    refine ⟨⟨hring.write, hring.read⟩, hhandle, ?_⟩
    dsimp only
    split_ifs with hmore
    · exact ⟨hw, hcount, hmore⟩
    · exact ⟨hw, hcount⟩
  | pushNStore src w count =>
    cases h
    exact ⟨⟨nextIdxN_lt hpc.1 hpc.2, hring.read⟩, hhandle, trivial⟩
  | _ => cases hop

/-- A step of a push. -/
theorem Producer.below_act (hring : ring.Below cap) (hhandle : p.handle.Below cap)
    (hpc : p.pc.Below cap) (h : p.act ring a = some (ring', p', xs)) :
    ring'.Below cap ∧ p'.handle.Below cap ∧ p'.pc.Below cap := by
  rcases act_cases h with hcall | ⟨rfl, hop | hop⟩
  · exact below_call hring hhandle h hcall
  · exact below_tryPush hring hhandle hpc h hop
  · exact below_pushN hring hhandle hpc h hop

end Producer

section Consumer

variable {cap : UInt64} {ring ring' : Ring T} {q q' : Consumer T} {a : PopAct} {xs : List T}

/-- A call of a pop. -/
theorem Consumer.below_call (hring : ring.Below cap) (hhandle : q.handle.Below cap)
    (hheld : ∀ r, q.held = some r → r < cap ∧ 2 ≤ cap.toNat) (hpc : q.pc.Below cap)
    (h : q.act ring a = some (ring', q', xs)) (hcall : a ≠ .step) :
    ring'.Below cap ∧ q'.handle.Below cap ∧
      (∀ r, q'.held = some r → r < cap ∧ 2 ≤ cap.toNat) ∧ q'.pc.Below cap := by
  obtain ⟨handle, held, peeked, pc⟩ := q
  cases a with
  | front =>
    cases pc <;> cases h
    exact ⟨hring, hhandle, hheld, trivial⟩
  | copyFront =>
    cases pc <;> cases held <;> cases h
    exact ⟨hring, hhandle, hheld, trivial⟩
  | pop =>
    cases pc <;> cases held <;> cases h
    exact ⟨hring, hhandle, hheld, trivial⟩
  | tryPop =>
    cases pc <;> cases h
    exact ⟨hring, hhandle, hheld, trivial⟩
  | popN n =>
    cases pc <;> simp only [act, reduceCtorEq] at h
    split_ifs at h with hn
    · cases h
      exact ⟨hring, hhandle, hheld, trivial⟩
    · cases h
      exact ⟨hring, hhandle, hheld, hn⟩
  | step => exact absurd rfl hcall

/-- A step of `front`. -/
theorem Consumer.below_front (hring : ring.Below cap) (hhandle : q.handle.Below cap)
    (hheld : ∀ r, q.held = some r → r < cap ∧ 2 ≤ cap.toNat) (hpc : q.pc.Below cap)
    (h : q.act ring .step = some (ring', q', xs)) (hop : q.pc.inFront) :
    ring'.Below cap ∧ q'.handle.Below cap ∧
      (∀ r, q'.held = some r → r < cap ∧ 2 ≤ cap.toNat) ∧ q'.pc.Below cap := by
  obtain ⟨⟨capacity, rcache, wcache⟩, held, peeked, pc⟩ := q
  obtain rfl : capacity = cap := hhandle.capacity
  have hwcache : wcache < capacity := hhandle.write
  have hload : Handle.Below capacity ⟨capacity, rcache, ring.writeIdx⟩ :=
    ⟨rfl, hhandle.read, hring.write⟩
  cases pc with
  | frontLoad k =>
    cases h
    exact ⟨hring, hhandle, hheld, hring.read⟩
  | frontTest k r =>
    simp only [act] at h
    split_ifs at h with hne
    · cases h
      exact ⟨hring, hhandle, hheld, hpc⟩
    · cases h
      have htwo := two_le_of_ne hpc hwcache hne
      cases k with
      | user => exact ⟨hring, hhandle, by rintro i ⟨rfl⟩; exact ⟨hpc, htwo⟩, trivial⟩
      | tryPop => exact ⟨hring, hhandle, hheld, hpc, htwo⟩
  | frontRefresh k r =>
    simp only [act] at h
    split_ifs at h with hne
    · cases h
      cases k with
      | user => exact ⟨hring, hload, by simp [frontNull], trivial⟩
      | tryPop => exact ⟨hring, hload, hheld, trivial⟩
    · cases h
      have htwo := two_le_of_ne hpc hring.write hne
      cases k with
      | user => exact ⟨hring, hload, by rintro i ⟨rfl⟩; exact ⟨hpc, htwo⟩, trivial⟩
      | tryPop => exact ⟨hring, hload, hheld, hpc, htwo⟩
  | _ => cases hop

/-- A step of `pop()`. -/
theorem Consumer.below_pop (hring : ring.Below cap) (hhandle : q.handle.Below cap)
    (hheld : ∀ r, q.held = some r → r < cap ∧ 2 ≤ cap.toNat) (hpc : q.pc.Below cap)
    (h : q.act ring .step = some (ring', q', xs)) (hop : q.pc.inPop) :
    ring'.Below cap ∧ q'.handle.Below cap ∧
      (∀ r, q'.held = some r → r < cap ∧ 2 ≤ cap.toNat) ∧ q'.pc.Below cap := by
  obtain ⟨⟨capacity, rcache, wcache⟩, held, peeked, pc⟩ := q
  obtain rfl : capacity = cap := hhandle.capacity
  cases pc with
  | tryPopCopy r =>
    cases h
    exact ⟨hring, hhandle, hheld, trivial⟩
  | popLoad b =>
    cases h
    exact ⟨hring, hhandle, hheld, hring.read⟩
  | popAssert b r =>
    simp only [act] at h
    split_ifs at h
    · cases h
      exact ⟨hring, hhandle, hheld, trivial⟩
    · cases h
      exact ⟨hring, hhandle, hheld, hpc⟩
  | popStore b r =>
    cases h
    exact ⟨⟨hring.write, nextIdx_lt hpc⟩, hhandle, by simp [released], trivial⟩
  | _ => cases hop

/-- A step of `pop_n`. -/
theorem Consumer.below_popN (hring : ring.Below cap) (hhandle : q.handle.Below cap)
    (hheld : ∀ r, q.held = some r → r < cap ∧ 2 ≤ cap.toNat) (hpc : q.pc.Below cap)
    (h : q.act ring .step = some (ring', q', xs)) (hop : q.pc.inPopN) :
    ring'.Below cap ∧ q'.handle.Below cap ∧
      (∀ r, q'.held = some r → r < cap ∧ 2 ≤ cap.toNat) ∧ q'.pc.Below cap := by
  obtain ⟨⟨capacity, rcache, wcache⟩, held, peeked, pc⟩ := q
  obtain rfl : capacity = cap := hhandle.capacity
  have hwcache : wcache < capacity := hhandle.write
  have hload : Handle.Below capacity ⟨capacity, rcache, ring.writeIdx⟩ :=
    ⟨rfl, hhandle.read, hring.write⟩
  cases pc with
  | popNLoad n =>
    cases h
    exact ⟨hring, hhandle, hheld, hpc, hring.read⟩
  | popNTest n r =>
    obtain ⟨hn, hr⟩ := hpc
    simp only [act] at h
    split_ifs at h with havail
    · cases h
      exact ⟨hring, hhandle, hheld, hn, hr⟩
    · cases h
      exact ⟨hring, hhandle, hheld, hr, min_lt_of_right (usedSlots_lt hwcache hr),
        pos_of_not_lt hn havail⟩
  | popNRefresh n r =>
    obtain ⟨hn, hr⟩ := hpc
    simp only [act] at h
    split_ifs at h with havail
    · cases h
      exact ⟨hring, hload, hheld, trivial⟩
    · cases h
      exact ⟨hring, hload, hheld, hr, min_lt_of_right (usedSlots_lt hring.write hr),
        pos_of_ne hn havail⟩
  | popNCopy r count dst =>
    obtain ⟨hr, hcount, -⟩ := hpc
    simp only [act] at h
    cases h
    refine ⟨hring, hhandle, hheld, ?_⟩
    dsimp only
    split_ifs with hmore
    · exact ⟨hr, hcount, hmore⟩
    · exact ⟨hr, hcount⟩
  | popNStore r count dst =>
    cases h
    exact ⟨⟨hring.write, nextIdxN_lt hpc.1 hpc.2⟩, hhandle, by simp [released], trivial⟩
  | _ => cases hop

/-- A step of a pop. -/
theorem Consumer.below_act (hring : ring.Below cap) (hhandle : q.handle.Below cap)
    (hheld : ∀ r, q.held = some r → r < cap ∧ 2 ≤ cap.toNat) (hpc : q.pc.Below cap)
    (h : q.act ring a = some (ring', q', xs)) :
    ring'.Below cap ∧ q'.handle.Below cap ∧
      (∀ r, q'.held = some r → r < cap ∧ 2 ≤ cap.toNat) ∧ q'.pc.Below cap := by
  rcases act_cases h with hcall | ⟨rfl, hop | hop | hop⟩
  · exact below_call hring hhandle hheld hpc h hcall
  · exact below_front hring hhandle hheld hpc h hop
  · exact below_pop hring hhandle hheld hpc h hop
  · exact below_popN hring hhandle hheld hpc h hop

end Consumer

namespace Attached

/-- Every index in the segment and in the handle is below the capacity. -/
structure Below (cap : UInt64) (s : Attached T) : Prop where
  ring : s.ring.Below cap
  handle : s.handle.Below cap
  push : s.push.Below cap
  held : ∀ r, s.held = some r → r < cap ∧ 2 ≤ cap.toNat
  pop : s.pop.Below cap

theorem below_step {cap : UInt64} {s s' : Attached T} {a : AttachedAct T} (h : s.Below cap)
    (hstep : s.step a = some s') : s'.Below cap := by
  cases a with
  | push a =>
    simp only [step] at hstep
    split_ifs at hstep
    obtain ⟨⟨ring, p, xs⟩, hact, rfl⟩ := Option.map_eq_some_iff.mp hstep
    obtain ⟨hring, hhandle, hpc⟩ := Producer.below_act h.ring h.handle h.push hact
    exact ⟨hring, hhandle, hpc, h.held, h.pop⟩
  | pop a =>
    simp only [step] at hstep
    split_ifs at hstep
    obtain ⟨⟨ring, q, xs⟩, hact, rfl⟩ := Option.map_eq_some_iff.mp hstep
    obtain ⟨hring, hhandle, hheld, hpc⟩ := Consumer.below_act h.ring h.handle h.held h.pop hact
    exact ⟨hring, hhandle, h.push, hheld, hpc⟩
  | peer ring =>
    simp only [step] at hstep
    split_ifs at hstep with hidx
    obtain rfl := Option.some.inj hstep
    rw [h.handle.capacity] at hidx
    exact ⟨⟨hidx.1, hidx.2⟩, h.handle, h.push, h.held, h.pop⟩

/-- An access is to one of at least two slots. -/
theorem Below.access {cap : UInt64} {s : Attached T} (h : s.Below cap) {a : AttachedAct T}
    {i : ℕ} (hi : s.access a = some i) : i < cap.toNat ∧ 2 ≤ cap.toNat := by
  have hcap := h.handle.capacity
  cases a with
  | push a =>
    cases a <;> simp only [Attached.access, Producer.access, reduceCtorEq] at hi
    have hpc := h.push
    cases hpush : s.push <;>
      simp only [producer, hpush, reduceCtorEq, Option.some.injEq, hcap] at hi hpc
    · exact ⟨hi ▸ hpc.1.1, hpc.2⟩
    · obtain ⟨hw, hcount, hlt⟩ := hpc
      have := UInt64.lt_iff_toNat_lt.mp hcount
      exact ⟨hi ▸ batchSlot_lt hw hcount hlt, by omega⟩
  | pop a =>
    cases a <;> simp only [Attached.access, Consumer.access, reduceCtorEq] at hi
    · obtain ⟨r, hr, rfl⟩ := Option.map_eq_some_iff.mp hi
      exact h.held r hr
    · have hpc := h.pop
      cases hpop : s.pop <;>
        simp only [consumer, hpop, reduceCtorEq, Option.some.injEq, hcap] at hi hpc
      · exact ⟨hi ▸ hpc.1, hpc.2⟩
      · obtain ⟨hr, hcount, hlt⟩ := hpc
        have := UInt64.lt_iff_toNat_lt.mp hcount
        exact ⟨hi ▸ batchSlot_lt hr hcount hlt, by omega⟩
  | peer ring => simp [Attached.access] at hi

theorem below_of_reaches {ok : Attached T → AttachedAct T → Prop} {g : Geometry} {ring : Ring T}
    (hring : ring.Below g.capacity) {s : Attached T} (run : Reaches step ok (bound g ring) s) :
    s.Below g.capacity := by
  have hstart : (bound g ring).Below g.capacity :=
    ⟨hring, ⟨rfl, hring.read, hring.write⟩, trivial, by simp [bound], trivial⟩
  exact run.invariant hstart fun _ _ _ h _ hstep => below_step h hstep

/-! ## A malformed segment is accessed out of range -/

/-- Between two operations, on a segment with the indices `w` and `r`. -/
structure Quiet (cap w r : UInt64) (s : Attached T) : Prop where
  capacity : s.handle.capacity = cap
  write : s.ring.writeIdx = w
  read : s.ring.readIdx = r
  push : ∃ ret, s.push = .ready ret
  pop : ∃ ret, s.pop = .ready ret

/-- A step of the handle's own accesses slot `i`, after some operations of its own. -/
def Accesses (s : Attached T) (i : ℕ) : Prop :=
  ∃ s', Reaches step (fun _ a => a.own = true) s s' ∧
    ∃ a, (s'.step a).isSome ∧ s'.access a = some i

theorem Accesses.of_reaches {s s' : Attached T} {i : ℕ}
    (run : Reaches step (fun _ a => a.own = true) s s') (h : s'.Accesses i) : s.Accesses i := by
  obtain ⟨s'', rest, h⟩ := h
  exact ⟨s'', run.trans rest, h⟩

/-- `try_push` with a free slot by the loaded index. -/
theorem Quiet.tryPush {cap w r : UInt64} {s : Attached T} (h : s.Quiet cap w r)
    (hne : nextIdx cap w ≠ r) :
    s.Accesses w.toNat ∧ ∃ s', Reaches step (fun _ a => a.own = true) s s' ∧
      s'.Quiet cap (nextIdx cap w) r := by
  obtain ⟨ring, ⟨cap', rc, wc⟩, push, held, peeked, pop⟩ := s
  obtain ⟨rfl, rfl, rfl, ⟨ret, rfl⟩, ret', rfl⟩ := h
  -- up to the copy, with or without a refresh of the cache
  have hcopy : ∃ k rc', exec step (fun _ a => a.own = true)
      ⟨ring, ⟨cap', rc, wc⟩, .ready ret, held, peeked, .ready ret'⟩
      (.push (.tryPush (ring.slots 0)) :: List.replicate k (.push .step)) =
        some ⟨ring, ⟨cap', rc', wc⟩,
          .tryPushCopy (ring.slots 0) ring.writeIdx (nextIdx cap' ring.writeIdx), held, peeked,
          .ready ret'⟩ := by
    by_cases hcache : nextIdx cap' ring.writeIdx = rc
    · refine ⟨3, ring.readIdx, ?_⟩
      simp [exec, step, AttachedAct.own, PopPc.isReady, producer, Producer.act, hcache,
        Producer.refresh, hcache ▸ hne]
    · refine ⟨2, rc, ?_⟩
      simp [exec, step, AttachedAct.own, PopPc.isReady, producer, Producer.act, hcache]
  obtain ⟨k, rc', hexec⟩ := hcopy
  have run := Reaches.of_exec hexec
  refine ⟨⟨_, run, .push .step, rfl, rfl⟩, _, (run.tail (a := .push .step) rfl rfl).tail
    (a := .push .step) rfl rfl, ?_⟩
  exact ⟨rfl, rfl, rfl, ⟨_, rfl⟩, _, rfl⟩

/-- `try_pop` with an element by the loaded index. -/
theorem Quiet.tryPop {cap w r : UInt64} {s : Attached T} (h : s.Quiet cap w r) (hne : r ≠ w) :
    s.Accesses r.toNat ∧ ∃ s', Reaches step (fun _ a => a.own = true) s s' ∧
      s'.Quiet cap w (nextIdx cap r) := by
  obtain ⟨ring, ⟨cap', rc, wc⟩, push, held, peeked, pop⟩ := s
  obtain ⟨rfl, rfl, rfl, ⟨ret, rfl⟩, ret', rfl⟩ := h
  have hcopy : ∃ k wc', exec step (fun _ a => a.own = true)
      ⟨ring, ⟨cap', rc, wc⟩, .ready ret, held, peeked, .ready ret'⟩
      (.pop .tryPop :: List.replicate k (.pop .step)) =
        some ⟨ring, ⟨cap', rc, wc'⟩, .ready ret, held, peeked, .tryPopCopy ring.readIdx⟩ := by
    by_cases hcache : ring.readIdx = wc
    · refine ⟨3, ring.writeIdx, ?_⟩
      simp [exec, step, AttachedAct.own, PushPc.isReady, consumer, Consumer.act, hcache,
        Consumer.refresh, Consumer.frontSlot, hcache ▸ hne]
    · refine ⟨2, wc, ?_⟩
      simp [exec, step, AttachedAct.own, PushPc.isReady, consumer, Consumer.act, hcache,
        Consumer.frontSlot]
  obtain ⟨k, wc', hexec⟩ := hcopy
  have run := Reaches.of_exec hexec
  refine ⟨⟨_, run, .pop .step, rfl, rfl⟩, ?_⟩
  -- the copy, and the `pop()` whose assertion holds
  have hpop : exec step (fun _ a => a.own = true)
      ⟨ring, ⟨cap', rc, wc'⟩, .ready ret, held, peeked, .tryPopCopy ring.readIdx⟩
      (List.replicate 4 (.pop .step)) =
        some ⟨{ ring with readIdx := nextIdx cap' ring.readIdx }, ⟨cap', rc, wc'⟩, .ready ret,
          none, none, .ready (some (.tryPop (some (ring.slots ring.readIdx.toNat))))⟩ := by
    simp [exec, step, AttachedAct.own, PushPc.isReady, consumer, Consumer.act, hne.symm,
      Consumer.released, PopBy.result]
  exact ⟨_, run.trans (.of_exec hpop), rfl, rfl, rfl, ⟨_, rfl⟩, _, rfl⟩

theorem nextIdx_ne {cap i : UInt64} (htwo : 2 ≤ cap.toNat) : nextIdx cap i ≠ i := by
  rw [Ne, ← UInt64.toNat_inj]
  unfold nextIdx
  split_ifs with heq
  · rw [← UInt64.toNat_inj, UInt64.toNat_add, UInt64.toNat_one] at heq
    rw [UInt64.toNat_zero]
    omega
  · rw [UInt64.toNat_add, UInt64.toNat_one]
    omega

/-- On a ring of two slots or more the next slot can always be written, after a `try_pop`
if the ring is full. -/
theorem Quiet.advance {cap w r : UInt64} {s : Attached T} (h : s.Quiet cap w r)
    (htwo : 2 ≤ cap.toNat) (hr : r < cap) :
    s.Accesses w.toNat ∧ ∃ s' r', Reaches step (fun _ a => a.own = true) s s' ∧ r' < cap ∧
      s'.Quiet cap (nextIdx cap w) r' := by
  by_cases hfull : nextIdx cap w = r
  · have hne : r ≠ w := hfull ▸ nextIdx_ne htwo
    obtain ⟨-, s₁, run, h₁⟩ := h.tryPop hne
    obtain ⟨hacc, s₂, rest, h₂⟩ := h₁.tryPush (hfull ▸ (nextIdx_ne htwo).symm)
    exact ⟨hacc.of_reaches run, s₂, _, run.trans rest, nextIdx_lt hr, h₂⟩
  · obtain ⟨hacc, s₁, run, h₁⟩ := h.tryPush hfull
    exact ⟨hacc, s₁, r, run, hr, h₁⟩

/-- So slot `0` is written sooner or later. -/
theorem Quiet.accesses_zero {cap : UInt64} (htwo : 2 ≤ cap.toNat) :
    ∀ (n : ℕ) {w r : UInt64} {s : Attached T}, s.Quiet cap w r → w < cap → r < cap →
      cap.toNat - w.toNat ≤ n → s.Accesses 0
  | 0, w, r, s, _, hw, _, hn => by
    rw [UInt64.lt_iff_toNat_lt] at hw
    omega
  | n + 1, w, r, s, h, hw, hr, hn => by
    obtain ⟨hacc, s₁, r', run, hr', h₁⟩ := h.advance htwo hr
    by_cases hlast : w + 1 = cap
    · have hzero : nextIdx cap w = 0 := if_pos hlast
      rw [hzero] at h₁
      exact (h₁.advance htwo hr').1.of_reaches run
    · have hnext : nextIdx cap w = w + 1 := if_neg hlast
      have hsucc := nextIdx_lt hw
      rw [hnext] at h₁ hsucc
      rw [UInt64.lt_iff_toNat_lt] at hw
      have hcap := cap.toNat_lt
      have hnat : (w + 1).toNat = w.toNat + 1 := by
        rw [UInt64.toNat_add, UInt64.toNat_one]
        omega
      exact (Quiet.accesses_zero htwo n h₁ hsucc hr' (by omega)).of_reaches run

theorem bound_quiet (g : Geometry) (ring : Ring T) :
    (bound g ring).Quiet g.capacity ring.writeIdx ring.readIdx :=
  ⟨rfl, rfl, rfl, ⟨none, rfl⟩, none, rfl⟩

/-- `push_n` of one element at the last 64-bit index, with `readIdx` at `0` : the free slots
wrap, and slot `w` is written, or slot `0` if `w` is also the capacity. -/
theorem accesses_pushN {g : Geometry} {ring : Ring T} (hw : ring.writeIdx.toNat = 2 ^ 64 - 1)
    (hr : ring.readIdx = 0) (hcap : 0 < g.capacity.toNat) :
    (bound g ring).Accesses ring.writeIdx.toNat ∨
      g.capacity.toNat = 2 ^ 64 - 1 ∧ (bound g ring).Accesses 0 := by
  have hlt := g.capacity.toNat_lt
  have hfree : (freeSlots g.capacity ring.writeIdx 0).toNat = g.capacity.toNat := by
    have hnot : ¬(0 : UInt64) > ring.writeIdx := by
      rw [gt_iff_lt, UInt64.lt_iff_toNat_lt, UInt64.toNat_zero]
      omega
    rw [freeSlots, if_neg hnot, UInt64.toNat_sub, UInt64.toNat_sub, UInt64.toNat_add, hw,
      UInt64.toNat_zero, UInt64.toNat_one]
    omega
  have hroom : ¬freeSlots g.capacity ring.writeIdx 0 < 1 := by
    rw [UInt64.lt_iff_toNat_lt, hfree, UInt64.toNat_one]
    omega
  have hexec : exec step (fun _ a => a.own = true) (bound g ring)
      [.push (.pushN (fun _ => ring.slots 0) 1), .push .step, .push .step] =
        some { bound g ring with
          push := .pushNCopy (fun _ => ring.slots 0) ring.writeIdx
            (min 1 (freeSlots g.capacity ring.writeIdx 0)) 0 } := by
    simp [exec, step, AttachedAct.own, PopPc.isReady, producer, Producer.act, bound, hr, hroom]
  have hacc : (bound g ring).Accesses (batchSlot g.capacity ring.writeIdx
      (min 1 (freeSlots g.capacity ring.writeIdx 0)) 0) :=
    ⟨_, .of_exec hexec, .push .step, rfl, rfl⟩
  have hsub := UInt64.toNat_sub g.capacity ring.writeIdx
  rw [batchSlot, firstPiece, toNat_min, toNat_min, hfree, UInt64.toNat_one, hsub, hw] at hacc
  split_ifs at hacc with hfirst
  · rw [hw]
    exact .inl hacc
  · refine .inr ⟨by omega, ?_⟩
    simpa using hacc

/-- An index outside the slots is accessed, but for one geometry that is accessed at
slot `0`. -/
theorem accesses_of_not_below {g : Geometry} {ring : Ring T} (h : ¬ring.Below g.capacity) :
    ∃ i, (bound g ring).Accesses i ∧
      (g.capacity.toNat ≤ i ∨ i = 0 ∧ g.capacity.toNat = 2 ^ 64 - 1) := by
  have hquiet := bound_quiet g ring
  have hpop : ring.readIdx ≠ ring.writeIdx → ¬ring.readIdx < g.capacity →
      ∃ i, (bound g ring).Accesses i ∧
        (g.capacity.toNat ≤ i ∨ i = 0 ∧ g.capacity.toNat = 2 ^ 64 - 1) := by
    intro hne hr
    rw [UInt64.not_lt, UInt64.le_iff_toNat_le] at hr
    exact ⟨_, (hquiet.tryPop hne).1, .inl hr⟩
  by_cases hw : ring.writeIdx < g.capacity
  · have hr : ¬ring.readIdx < g.capacity := fun hr => h ⟨hw, hr⟩
    exact hpop (by rintro heq; exact hr (heq ▸ hw)) hr
  have hw' : g.capacity.toNat ≤ ring.writeIdx.toNat := by
    rwa [UInt64.not_lt, UInt64.le_iff_toNat_le] at hw
  by_cases hnext : nextIdx g.capacity ring.writeIdx = ring.readIdx
  · have hcap := ring.writeIdx.toNat_lt
    rw [← UInt64.toNat_inj, nextIdx] at hnext
    by_cases hr : ring.readIdx < g.capacity
    · -- `w + 1` wraps
      have hr' := UInt64.lt_iff_toNat_lt.mp hr
      have hwrap : ring.writeIdx.toNat = 2 ^ 64 - 1 ∧ ring.readIdx.toNat = 0 := by
        split_ifs at hnext with hlast
        · rw [← UInt64.toNat_inj, UInt64.toNat_add, UInt64.toNat_one] at hlast
          omega
        · rw [UInt64.toNat_add, UInt64.toNat_one] at hnext
          omega
      have hzero : ring.readIdx = 0 := UInt64.toNat_inj.mp hwrap.2
      have hpos : 0 < g.capacity.toNat := by omega
      rcases accesses_pushN hwrap.1 hzero hpos with hacc | ⟨hmax, hacc⟩
      · exact ⟨_, hacc, .inl hw'⟩
      · exact ⟨0, hacc, .inr ⟨rfl, hmax⟩⟩
    · refine hpop ?_ hr
      rw [Ne, ← UInt64.toNat_inj]
      split_ifs at hnext with hlast
      · rw [← UInt64.toNat_inj, UInt64.toNat_add, UInt64.toNat_one] at hlast
        rw [UInt64.toNat_zero] at hnext
        rw [UInt64.lt_iff_toNat_lt] at hr
        omega
      · rw [UInt64.toNat_add, UInt64.toNat_one] at hnext
        omega
  · exact ⟨_, (hquiet.tryPush hnext).1, .inl hw'⟩

/-! ## Which accepted segments are safe -/

theorem Safe.slotOk {peer : Bool} {L : Layout} {g : Geometry} {ring : Ring T}
    (h : Safe peer L g ring) {i : ℕ} (hi : (bound g ring).Accesses i) : SlotOk L g i := by
  obtain ⟨s, run, a, hstep, hacc⟩ := hi
  exact h s (run.mono fun _ _ hown => .inr hown) a hstep i hacc

theorem slotOk_of_ringLike {L : Layout} {g : Geometry} {ring : Ring T} (h : RingLike L g ring)
    (halign : L.elemAlign.toNat ∣ L.elemSize.toNat) {i : ℕ} (hi : i < g.capacity.toNat) :
    SlotOk L g i := by
  refine ⟨hi, h.outside.trans (Nat.le_add_right _ _), ?_⟩
  exact Nat.dvd_add h.aligned (halign.mul_left i)

/-- A segment is safe exactly if it is a ring, or is never accessed. For every content that
passes the checks of `attach` with slots that end below `2 ^ 64`, and with the peer taking
steps or not : all accesses of all operation sequences are to aligned slots below the
capacity and outside the control block, on two slots or more, if and only if both indices
are below the capacity and the slots start aligned behind the control block. With one slot
they are if and only if both indices are `0`, and then there are none. -/
theorem safe_iff {L : Layout} {g : Geometry} {mapped : UInt64} (ring : Ring T) (peer : Bool)
    (_ : validate L g mapped = .ok ()) (hfits : slotsEnd L g < 2 ^ 64)
    (halign : L.elemAlign.toNat ∣ L.elemSize.toNat) :
    (Safe peer L g ring ∧ 2 ≤ g.capacity.toNat ↔ RingLike L g ring) ∧
      (Safe peer L g ring ↔ RingLike L g ring ∨
        g.capacity = 1 ∧ ring.writeIdx = 0 ∧ ring.readIdx = 0) := by
  have hbelow : Safe peer L g ring → ring.Below g.capacity := by
    intro hsafe
    by_contra hnot
    obtain ⟨i, hacc, hbad⟩ := accesses_of_not_below hnot
    have hok := hsafe.slotOk hacc
    rcases hbad with hge | ⟨rfl, hmax⟩
    · exact absurd hok.lt (not_lt.mpr hge)
    · -- `2 ^ 64 - 1` slots leave no room for a control block before them
      have hout := hok.outside
      have hline := L.cacheLine_ge
      have hmul := Nat.le_mul_of_pos_right g.capacity.toNat L.elemSize_pos
      rw [L.toNat_controlBlockSize, slotOffset] at hout
      rw [slotsEnd] at hfits
      omega
  have hring : Safe peer L g ring → 2 ≤ g.capacity.toNat → RingLike L g ring := by
    intro hsafe htwo
    have hidx := hbelow hsafe
    have hzero := hsafe.slotOk ((bound_quiet g ring).accesses_zero htwo _ hidx.write hidx.read
      le_rfl)
    exact ⟨htwo, hidx.write, hidx.read, by simpa [slotOffset] using hzero.outside,
      by simpa [slotOffset] using hzero.aligned⟩
  have hsafe : ring.Below g.capacity → (2 ≤ g.capacity.toNat → RingLike L g ring) →
      Safe peer L g ring := by
    intro hidx hlike s run a _ i hacc
    obtain ⟨hi, htwo⟩ := (below_of_reaches hidx run).access hacc
    exact slotOk_of_ringLike (hlike htwo) halign hi
  refine ⟨⟨fun h => hring h.1 h.2, fun h => ⟨?_, h.two_le⟩⟩, fun h => ?_, ?_⟩
  · exact hsafe ⟨h.write, h.read⟩ fun _ => h
  · by_cases htwo : 2 ≤ g.capacity.toNat
    · exact .inl (hring h htwo)
    · have hidx := hbelow h
      have hw := UInt64.lt_iff_toNat_lt.mp hidx.write
      have hr := UInt64.lt_iff_toNat_lt.mp hidx.read
      refine .inr ⟨UInt64.toNat_inj.mp ?_, UInt64.toNat_inj.mp ?_, UInt64.toNat_inj.mp ?_⟩
      · rw [UInt64.toNat_one]
        omega
      · rw [UInt64.toNat_zero]
        omega
      · rw [UInt64.toNat_zero]
        omega
  · rintro (h | ⟨hcap, hw, hr⟩)
    · exact hsafe ⟨h.write, h.read⟩ fun _ => h
    · refine hsafe ⟨?_, ?_⟩ fun htwo => ?_
      · rw [hw, hcap]
        decide
      · rw [hr, hcap]
        decide
      · rw [hcap, UInt64.toNat_one] at htwo
        omega

/-- A queue of two messages as `create` leaves it is safe. -/
theorem safe_created :
    validate messageLayout (createdGeometry messageLayout 3 400) 4096 = .ok () ∧
      Safe true messageLayout (createdGeometry messageLayout 3 400) (⟨0, 0, id⟩ : Ring ℕ) := by
  have hval : validate messageLayout (createdGeometry messageLayout 3 400) 4096 = .ok () := by
    decide
  have h := safe_iff (⟨0, 0, id⟩ : Ring ℕ) true hval (by decide) (by decide)
  exact ⟨hval, (h.1.mpr ⟨by decide, by decide, by decide, by decide, by decide⟩).1⟩

/-- The same with `writeIdx` at `7` and the slots at offset `0` is accepted too, and
`try_push` writes slot `7` of three. -/
def malformed : Geometry := { createdGeometry messageLayout 3 400 with slotsOffset := 0 }

theorem malformed_accepted :
    validate messageLayout malformed 4096 = .ok () ∧ slotsEnd messageLayout malformed < 2 ^ 64 ∧
      (bound malformed (⟨7, 0, id⟩ : Ring ℕ)).Accesses 7 ∧ malformed.capacity.toNat = 3 ∧
      ¬Safe false messageLayout malformed (⟨7, 0, id⟩ : Ring ℕ) ∧
      ¬RingLike messageLayout malformed (⟨7, 0, id⟩ : Ring ℕ) := by
  have hacc := ((bound_quiet malformed (⟨7, 0, id⟩ : Ring ℕ)).tryPush (by decide)).1
  refine ⟨by decide, by decide, hacc, by decide, fun hsafe => ?_, fun h => ?_⟩
  · exact absurd (hsafe.slotOk hacc).lt (by decide)
  · exact absurd h.write (by decide)

end Attached

end ShmSpsc
