import ShmSpsc.Producer

/-!
# The consumer's operations

`front`, `pop()`, `try_pop` and `pop_n`, one step per access to the shared segment.
`try_pop` runs `front`, copies, and runs `pop()`. A pointer that `front` has returned is
kept in `held` until a store to `readIdx` releases its element; while it is held the caller
may copy from it (`copyFront`) and call `pop()`. `pop()` is called with a pointer held only,
as its precondition asks, and its assertion is a step that aborts the process.

`Consumer.Inv` is what a consumer knows between two of its steps. Its cached `writeIdx` is
the cell of some earlier total `D` between the released and the published elements
(`WriteCache`), so elements seen through the cache are there. `Consumer.act_inv` keeps it
over every step, `Consumer.Inv.publish` over what the producer does.
-/

namespace ShmSpsc

variable {T : Type*}

/-- Who runs `front` : the user, or `try_pop`. -/
inductive Caller where
  | user
  | tryPop
  deriving DecidableEq, Repr

/-- Who runs `pop()` : the user, with or without a copy of the element, or `try_pop`, which
has copied it. -/
inductive PopBy (T : Type*) where
  | user (peeked : Option T)
  | tryPop (out : T)

/-- The copy made before `pop()`. -/
def PopBy.copied : PopBy T → Option T
  | .user peeked => peeked
  | .tryPop out => some out

/-- What an operation of the consumer returned. -/
inductive PopResult (T : Type*) where
  | front (p : Option UInt64)
  | pop
  | tryPop (out : Option T)
  | popN (dst : List T)

/-- Where the consumer is : between two calls, or before an access of a call. -/
inductive PopPc (T : Type*) where
  | ready (ret : Option (PopResult T))
  | frontLoad (k : Caller)
  | frontTest (k : Caller) (r : UInt64)
  | frontRefresh (k : Caller) (r : UInt64)
  | tryPopCopy (r : UInt64)
  | popLoad (b : PopBy T)
  | popAssert (b : PopBy T) (r : UInt64)
  | popStore (b : PopBy T) (r : UInt64)
  | popNLoad (n : UInt64)
  | popNTest (n r : UInt64)
  | popNRefresh (n r : UInt64)
  | popNCopy (r count : UInt64) (dst : List T)
  | popNStore (r count : UInt64) (dst : List T)
  | aborted

/-- What the operation returns after its `pop()`. -/
def PopBy.result : PopBy T → PopResult T
  | .user _ => .pop
  | .tryPop out => .tryPop (some out)

/-- A handle in the consumer's role, the slot of an unreleased `front` pointer with the
caller's copy of its element, and where it is. -/
structure Consumer (T : Type*) where
  handle : Handle
  held : Option UInt64
  peeked : Option T
  pc : PopPc T

/-- A call of an operation, a copy out of the `front` pointer, or the next step of the
current operation. -/
inductive PopAct where
  | front
  | copyFront
  | pop
  | tryPop
  | popN (n : UInt64)
  | step

/-- The consumer after its refresh load of `writeIdx`. -/
def Consumer.refresh (q : Consumer T) (w : UInt64) : Consumer T :=
  { q with handle := { q.handle with writeIdxCache := w } }

/-- `front` returns `nullptr`. -/
def Consumer.frontNull (q : Consumer T) : Caller → Consumer T
  | .user => { q with held := none, peeked := none, pc := .ready (some (.front none)) }
  | .tryPop => { q with pc := .ready (some (.tryPop none)) }

/-- `front` returns `&slots_[r]`. -/
def Consumer.frontSlot (q : Consumer T) (r : UInt64) : Caller → Consumer T
  | .user => { q with held := some r, peeked := none, pc := .ready (some (.front (some r))) }
  | .tryPop => { q with pc := .tryPopCopy r }

/-- The operation returns after its store to `readIdx`, no pointer is held any more. -/
def Consumer.released (q : Consumer T) (ret : PopResult T) : Consumer T :=
  { q with held := none, peeked := none, pc := .ready (some ret) }

/-- One step of the consumer : the segment and the consumer after it, and the elements it
released, as they were copied out. An element popped without a copy counts as the content
of its slot. -/
def Consumer.act (q : Consumer T) (ring : Ring T) :
    PopAct → Option (Ring T × Consumer T × List T)
  | .front =>
    match q.pc with
    | .ready _ => some (ring, { q with pc := .frontLoad .user }, [])
    | _ => none
  | .copyFront =>
    match q.pc, q.held with
    | .ready _, some r => some (ring, { q with peeked := some (ring.slots r.toNat) }, [])
    | _, _ => none
  | .pop =>
    match q.pc, q.held with
    | .ready _, some _ => some (ring, { q with pc := .popLoad (.user q.peeked) }, [])
    | _, _ => none
  | .tryPop =>
    match q.pc with
    | .ready _ => some (ring, { q with pc := .frontLoad .tryPop }, [])
    | _ => none
  | .popN n =>
    match q.pc with
    | .ready _ =>
      if n = 0 then some (ring, { q with pc := .ready (some (.popN [])) }, [])
      else some (ring, { q with pc := .popNLoad n }, [])
    | _ => none
  | .step =>
    match q.pc with
    | .ready _ => none
    | .frontLoad k => some (ring, { q with pc := .frontTest k ring.readIdx }, [])
    | .frontTest k r =>
      if r = q.handle.writeIdxCache then some (ring, { q with pc := .frontRefresh k r }, [])
      else some (ring, q.frontSlot r k, [])
    | .frontRefresh k r =>
      let w := ring.writeIdx
      if r = w then some (ring, (q.refresh w).frontNull k, [])
      else some (ring, (q.refresh w).frontSlot r k, [])
    | .tryPopCopy r =>
      some (ring, { q with pc := .popLoad (.tryPop (ring.slots r.toNat)) }, [])
    | .popLoad b => some (ring, { q with pc := .popAssert b ring.readIdx }, [])
    | .popAssert b r =>
      if ring.writeIdx = r then some (ring, { q with pc := .aborted }, [])
      else some (ring, { q with pc := .popStore b r }, [])
    | .popStore b r =>
      let x := b.copied.getD (ring.slots r.toNat)
      some ({ ring with readIdx := nextIdx q.handle.capacity r }, q.released b.result, [x])
    | .popNLoad n => some (ring, { q with pc := .popNTest n ring.readIdx }, [])
    | .popNTest n r =>
      let avail := usedSlots q.handle.capacity q.handle.writeIdxCache r
      if avail < n then some (ring, { q with pc := .popNRefresh n r }, [])
      else some (ring, { q with pc := .popNCopy r (min n avail) [] }, [])
    | .popNRefresh n r =>
      let w := ring.writeIdx
      let avail := usedSlots q.handle.capacity w r
      if avail = 0 then some (ring, { q.refresh w with pc := .ready (some (.popN [])) }, [])
      else some (ring, { q.refresh w with pc := .popNCopy r (min n avail) [] }, [])
    | .popNCopy r count dst =>
      let dst' := dst ++ [ring.slots (batchSlot q.handle.capacity r count dst.length)]
      some (ring, { q with pc := if dst'.length < count.toNat then .popNCopy r count dst'
                                 else .popNStore r count dst' }, [])
    | .popNStore r count dst =>
      some ({ ring with readIdx := nextIdxN q.handle.capacity r count },
        q.released (.popN dst), dst)
    | .aborted => none

/-- The place is in `front`. -/
def PopPc.inFront : PopPc T → Bool
  | .frontLoad _ => true
  | .frontTest _ _ => true
  | .frontRefresh _ _ => true
  | _ => false

/-- The place is in `pop()`, or at the copy of `try_pop` before it. -/
def PopPc.inPop : PopPc T → Bool
  | .tryPopCopy _ => true
  | .popLoad _ => true
  | .popAssert _ _ => true
  | .popStore _ _ => true
  | _ => false

/-- The place is in `pop_n`. -/
def PopPc.inPopN : PopPc T → Bool
  | .popNLoad _ => true
  | .popNTest _ _ => true
  | .popNRefresh _ _ => true
  | .popNCopy _ _ _ => true
  | .popNStore _ _ _ => true
  | _ => false

/-- A step of the consumer is a call or a copy, or one of `front`, of `pop()` or of `pop_n`. -/
theorem Consumer.act_cases {q : Consumer T} {ring : Ring T} {a : PopAct}
    {r : Ring T × Consumer T × List T} (h : q.act ring a = some r) :
    a ≠ .step ∨ a = .step ∧ (q.pc.inFront ∨ q.pc.inPop ∨ q.pc.inPopN) := by
  obtain ⟨handle, held, peeked, pc⟩ := q
  by_cases ha : a = .step
  · refine .inr ⟨ha, ?_⟩
    rw [ha] at h
    cases pc with
    | ready ret => cases h
    | aborted => cases h
    | _ => simp [PopPc.inFront, PopPc.inPop, PopPc.inPopN]
  · exact .inl ha

/-! ## What the consumer knows -/

/-- The cached `writeIdx` shows `k` elements, and they are there : it is the cell of a
total `D` up to which everything has been published. -/
def WriteCache (c : Capacity) (log : Log T) (cache : UInt64) (k : ℕ) : Prop :=
  ∃ D, cache.toNat = D % c.slots.toNat ∧ log.released.length + k ≤ D ∧
    D ≤ log.published.length

/-- `xs` are the oldest unreleased elements. -/
def Log.Oldest (log : Log T) (xs : List T) : Prop :=
  log.released ++ xs <+: log.published

/-- What holds at each place of the consumer's operations. -/
def PopPc.Inv (c : Capacity) (ring : Ring T) (log : Log T) (cache : UInt64) : PopPc T → Prop
  | .ready _ => WriteCache c log cache 0
  | .frontLoad _ => WriteCache c log cache 0
  | .frontTest _ r => r = ring.readIdx ∧ WriteCache c log cache 0
  | .frontRefresh _ r => r = ring.readIdx ∧ WriteCache c log cache 0
  | .tryPopCopy r => r = ring.readIdx ∧ WriteCache c log cache 1
  | .popLoad b => WriteCache c log cache 1 ∧ ∀ x, b.copied = some x → log.Oldest [x]
  | .popAssert b r =>
    r = ring.readIdx ∧ WriteCache c log cache 1 ∧ ∀ x, b.copied = some x → log.Oldest [x]
  | .popStore b r =>
    r = ring.readIdx ∧ WriteCache c log cache 1 ∧ ∀ x, b.copied = some x → log.Oldest [x]
  | .popNLoad n => n ≠ 0 ∧ WriteCache c log cache 0
  | .popNTest n r => r = ring.readIdx ∧ n ≠ 0 ∧ WriteCache c log cache 0
  | .popNRefresh n r => r = ring.readIdx ∧ n ≠ 0 ∧ WriteCache c log cache 0
  | .popNCopy r count dst =>
    r = ring.readIdx ∧ dst.length < count.toNat ∧ WriteCache c log cache count.toNat ∧
      log.Oldest dst
  | .popNStore r count dst =>
    r = ring.readIdx ∧ dst.length = count.toNat ∧ WriteCache c log cache count.toNat ∧
      log.Oldest dst
  | .aborted => False

/-- What a consumer knows between two of its steps. -/
structure Consumer.Inv (c : Capacity) (ring : Ring T) (log : Log T) (q : Consumer T) :
    Prop where
  capacity : q.handle.capacity = c.slots
  pc : q.pc.Inv c ring log q.handle.writeIdxCache
  held : ∀ r, q.held = some r → r = ring.readIdx ∧ WriteCache c log q.handle.writeIdxCache 1
  peeked : ∀ x, q.held ≠ none → q.peeked = some x → log.Oldest [x]

section WriteCache

variable {c : Capacity} {ring : Ring T} {log : Log T} {cache : UInt64} {k : ℕ}

theorem WriteCache.le (h : WriteCache c log cache k) :
    log.released.length + k ≤ log.published.length := by
  obtain ⟨D, -, hk, hD⟩ := h
  omega

/-- Published elements only add to what is there. -/
theorem WriteCache.publish (h : WriteCache c log cache k) (xs : List T) :
    WriteCache c (log.publish xs) cache k := by
  obtain ⟨D, hcache, hk, hD⟩ := h
  exact ⟨D, hcache, hk, by simp; omega⟩

/-- Releasing the `k` elements uses them up. -/
theorem WriteCache.release {xs : List T} (h : WriteCache c log cache xs.length) :
    WriteCache c (log.release xs) cache 0 := by
  obtain ⟨D, hcache, hk, hD⟩ := h
  exact ⟨D, hcache, by simpa using hk, hD⟩

/-- A fresh load of `writeIdx` shows exactly the elements there are. -/
theorem WriteCache.of_load (h : ring.Holds c log)
    (hk : log.released.length + k ≤ log.published.length) :
    WriteCache c log ring.writeIdx k :=
  ⟨log.published.length, h.write, hk, le_rfl⟩

/-- `front` finds an element through the cache. -/
theorem WriteCache.one_of_ne (h : ring.Holds c log) (hc : WriteCache c log cache 0)
    (hne : ring.readIdx ≠ cache) : WriteCache c log cache 1 := by
  obtain ⟨D, hcache, hk, hD⟩ := hc
  have hroom := h.room
  rw [Ne, cell_eq_iff c hcache h.read (by omega) (by omega)] at hne
  exact ⟨D, hcache, by omega, hD⟩

/-- `pop_n` finds elements through the cache. -/
theorem WriteCache.of_le_usedSlots (h : ring.Holds c log) (hc : WriteCache c log cache 0)
    (hk : k ≤ (usedSlots c.slots cache ring.readIdx).toNat) : WriteCache c log cache k := by
  obtain ⟨D, hcache, hk', hD⟩ := hc
  have hroom := h.room
  rw [toNat_usedSlots c hcache h.read (by omega) (by omega)] at hk
  exact ⟨D, hcache, by omega, hD⟩

theorem Log.Oldest.publish {xs : List T} (h : log.Oldest xs) (ys : List T) :
    (log.publish ys).Oldest xs :=
  h.trans (List.prefix_append _ _)

end WriteCache

/-! ## Every step keeps it -/

namespace Consumer

variable {c : Capacity} {ring ring' : Ring T} {log : Log T} {q q' : Consumer T}
  {a : PopAct} {xs : List T}

/-- The element in the slot of `readIdx` is the oldest one. -/
theorem oldest_slot (hring : ring.Holds c log)
    (hlt : log.released.length + 1 ≤ log.published.length) :
    log.Oldest [ring.slots ring.readIdx.toNat] := by
  have h := hring.released_append [] (by simpa using hring.fifo) (by simp; omega)
  simpa [Log.Oldest, hring.read] using h

/-- The next element of a batch is the next oldest one. -/
theorem oldest_popNCopy (hring : ring.Holds c log) {count cache : UInt64} {dst : List T}
    (hcache : WriteCache c log cache count.toNat) (hlt : dst.length < count.toNat)
    (hdst : log.Oldest dst) :
    log.Oldest (dst ++ [ring.slots (batchSlot c.slots ring.readIdx count dst.length)]) := by
  have hle := hcache.le
  have hroom := hring.room
  rw [batchSlot_eq c hring.read (by omega) hlt]
  exact hring.released_append dst hdst (by omega)

/-- The copies of `pop_n` start with the whole batch there. -/
theorem popNCopy_start (hring : ring.Holds c log) {n cache : UInt64}
    (hcache : WriteCache c log cache 0) (hn : n ≠ 0)
    (havail : usedSlots c.slots cache ring.readIdx ≠ 0) :
    (PopPc.popNCopy ring.readIdx (min n (usedSlots c.slots cache ring.readIdx))
      ([] : List T)).Inv c ring log cache := by
  have hn' : n.toNat ≠ 0 := fun h => hn (UInt64.toNat_inj.mp h)
  have havail' : (usedSlots c.slots cache ring.readIdx).toNat ≠ 0 :=
    fun h => havail (UInt64.toNat_inj.mp h)
  refine ⟨rfl, ?_, hcache.of_le_usedSlots hring ?_, by simpa [Log.Oldest] using hring.fifo⟩
  · rw [toNat_min, List.length_nil]
    omega
  · rw [toNat_min]
    omega

/-- `front` returns a pointer to the oldest element. -/
theorem frontSlot_inv (hq : q.Inv c ring log)
    (hcache : WriteCache c log q.handle.writeIdxCache 1) (k : Caller) :
    (q.frontSlot ring.readIdx k).Inv c ring log := by
  cases k with
  | user =>
    obtain ⟨D, hD, hk, hD'⟩ := hcache
    refine ⟨hq.capacity, ⟨D, hD, by omega, hD'⟩, ?_, by simp [frontSlot]⟩
    rintro r ⟨rfl⟩
    exact ⟨rfl, D, hD, hk, hD'⟩
  | tryPop => exact ⟨hq.capacity, ⟨rfl, hcache⟩, hq.held, hq.peeked⟩

theorem frontNull_inv (hq : q.Inv c ring log)
    (hcache : WriteCache c log q.handle.writeIdxCache 0) (k : Caller) :
    (q.frontNull k).Inv c ring log := by
  cases k with
  | user => exact ⟨hq.capacity, hcache, by simp [frontNull], by simp [frontNull]⟩
  | tryPop => exact ⟨hq.capacity, hcache, hq.held, hq.peeked⟩

/-- The held pointer stays good under a fresh load of `writeIdx`. -/
theorem refresh_held (hring : ring.Holds c log) (hq : q.Inv c ring log) :
    ∀ r, q.held = some r → r = ring.readIdx ∧ WriteCache c log ring.writeIdx 1 := by
  intro r hr
  obtain ⟨hr, hcache⟩ := hq.held r hr
  exact ⟨hr, .of_load hring hcache.le⟩

/-- A call, or a copy out of the `front` pointer, keeps it. -/
theorem call_inv (hring : ring.Holds c log) (hq : q.Inv c ring log)
    (h : q.act ring a = some (ring', q', xs)) (hcall : a ≠ .step) :
    ring'.Holds c (log.release xs) ∧ q'.Inv c ring' (log.release xs) := by
  obtain ⟨handle, held, peeked, pc⟩ := q
  obtain ⟨hcap, hpc, hheld, hpeeked⟩ := hq
  cases a with
  | front =>
    cases pc <;> cases h
    rw [Log.release_nil]
    exact ⟨hring, hcap, hpc, hheld, hpeeked⟩
  | copyFront =>
    cases pc <;> cases held <;> cases h
    rw [Log.release_nil]
    obtain ⟨rfl, hcache⟩ := hheld _ rfl
    refine ⟨hring, hcap, hpc, hheld, ?_⟩
    rintro x - ⟨rfl⟩
    exact oldest_slot hring hcache.le
  | pop =>
    cases pc <;> cases held <;> cases h
    rw [Log.release_nil]
    exact ⟨hring, hcap, ⟨(hheld _ rfl).2, fun x => hpeeked x (by simp)⟩, hheld, hpeeked⟩
  | tryPop =>
    cases pc <;> cases h
    rw [Log.release_nil]
    exact ⟨hring, hcap, hpc, hheld, hpeeked⟩
  | popN n =>
    cases pc <;> simp only [act, reduceCtorEq] at h
    split_ifs at h with hn
    · cases h
      rw [Log.release_nil]
      exact ⟨hring, hcap, hpc, hheld, hpeeked⟩
    · cases h
      rw [Log.release_nil]
      exact ⟨hring, hcap, ⟨hn, hpc⟩, hheld, hpeeked⟩
  | step => exact absurd rfl hcall

/-- A step of `front` keeps it. -/
theorem front_inv (hring : ring.Holds c log) (hq : q.Inv c ring log)
    (h : q.act ring .step = some (ring', q', xs)) (hop : q.pc.inFront) :
    ring'.Holds c (log.release xs) ∧ q'.Inv c ring' (log.release xs) := by
  obtain ⟨⟨capacity, rcache, cache⟩, held, peeked, pc⟩ := q
  have hinv := hq
  obtain ⟨hcap, hpc, hheld, hpeeked⟩ := hq
  obtain rfl : capacity = c.slots := hcap
  cases pc with
  | frontLoad k =>
    cases h
    rw [Log.release_nil]
    exact ⟨hring, rfl, ⟨rfl, hpc⟩, hheld, hpeeked⟩
  | frontTest k r =>
    obtain ⟨rfl, hcache⟩ := hpc
    simp only [act] at h
    split_ifs at h with heq
    · cases h
      rw [Log.release_nil]
      exact ⟨hring, rfl, ⟨rfl, hcache⟩, hheld, hpeeked⟩
    · cases h
      rw [Log.release_nil]
      exact ⟨hring, frontSlot_inv hinv (hcache.one_of_ne hring heq) k⟩
  | frontRefresh k r =>
    obtain ⟨rfl, hcache⟩ := hpc
    have hload := WriteCache.of_load hring hcache.le
    have hheld' := refresh_held hring hinv
    have hfresh : Inv c ring log (refresh ⟨⟨c.slots, rcache, cache⟩, held, peeked,
        .frontRefresh k ring.readIdx⟩ ring.writeIdx) :=
      ⟨rfl, ⟨rfl, hload⟩, hheld', hpeeked⟩
    simp only [act] at h
    split_ifs at h with heq
    · cases h
      rw [Log.release_nil]
      exact ⟨hring, frontNull_inv hfresh hload k⟩
    · cases h
      rw [Log.release_nil]
      exact ⟨hring, frontSlot_inv hfresh (hload.one_of_ne hring heq) k⟩
  | _ => cases hop

/-- A step of `pop()`, or the copy before it, keeps it. -/
theorem pop_inv (hring : ring.Holds c log) (hq : q.Inv c ring log)
    (h : q.act ring .step = some (ring', q', xs)) (hop : q.pc.inPop) :
    ring'.Holds c (log.release xs) ∧ q'.Inv c ring' (log.release xs) := by
  obtain ⟨⟨capacity, rcache, cache⟩, held, peeked, pc⟩ := q
  obtain ⟨hcap, hpc, hheld, hpeeked⟩ := hq
  obtain rfl : capacity = c.slots := hcap
  cases pc with
  | tryPopCopy r =>
    obtain ⟨rfl, hcache⟩ := hpc
    cases h
    rw [Log.release_nil]
    refine ⟨hring, rfl, ⟨hcache, ?_⟩, hheld, hpeeked⟩
    rintro x ⟨rfl⟩
    exact oldest_slot hring hcache.le
  | popLoad b =>
    cases h
    rw [Log.release_nil]
    exact ⟨hring, rfl, ⟨rfl, hpc⟩, hheld, hpeeked⟩
  | popAssert b r =>
    obtain ⟨rfl, hcache, hout⟩ := hpc
    simp only [act] at h
    split_ifs at h with heq
    · have hle := hcache.le
      have := (cell_eq_iff c hring.write hring.read hring.le hring.room).mp heq.symm
      omega
    · cases h
      rw [Log.release_nil]
      exact ⟨hring, rfl, ⟨rfl, hcache, hout⟩, hheld, hpeeked⟩
  | popStore b r =>
    obtain ⟨rfl, hcache, hout⟩ := hpc
    cases h
    have hold : log.Oldest [b.copied.getD (ring.slots ring.readIdx.toNat)] := by
      cases hb : b.copied with
      | none => exact oldest_slot hring hcache.le
      | some x => exact hout x hb
    exact ⟨hring.release (toNat_nextIdx c hring.read) hold, rfl, WriteCache.release hcache,
      by simp [released], by simp [released]⟩
  | _ => cases hop

/-- A step of `pop_n` keeps it. -/
theorem popN_inv (hring : ring.Holds c log) (hq : q.Inv c ring log)
    (h : q.act ring .step = some (ring', q', xs)) (hop : q.pc.inPopN) :
    ring'.Holds c (log.release xs) ∧ q'.Inv c ring' (log.release xs) := by
  obtain ⟨⟨capacity, rcache, cache⟩, held, peeked, pc⟩ := q
  have hinv := hq
  obtain ⟨hcap, hpc, hheld, hpeeked⟩ := hq
  obtain rfl : capacity = c.slots := hcap
  cases pc with
  | popNLoad n =>
    cases h
    rw [Log.release_nil]
    exact ⟨hring, rfl, ⟨rfl, hpc⟩, hheld, hpeeked⟩
  | popNTest n r =>
    obtain ⟨rfl, hn, hcache⟩ := hpc
    simp only [act] at h
    split_ifs at h with hlt
    · cases h
      rw [Log.release_nil]
      exact ⟨hring, rfl, ⟨rfl, hn, hcache⟩, hheld, hpeeked⟩
    · cases h
      rw [Log.release_nil]
      refine ⟨hring, rfl, popNCopy_start hring hcache hn fun h0 => ?_, hheld, hpeeked⟩
      rw [h0, UInt64.lt_iff_toNat_lt] at hlt
      exact hn (UInt64.toNat_inj.mp (Nat.le_zero.mp (not_lt.mp hlt)))
  | popNRefresh n r =>
    obtain ⟨rfl, hn, hcache⟩ := hpc
    have hload := WriteCache.of_load hring hcache.le
    have hheld' := refresh_held hring hinv
    simp only [act] at h
    split_ifs at h with havail
    · cases h
      rw [Log.release_nil]
      exact ⟨hring, rfl, hload, hheld', hpeeked⟩
    · cases h
      rw [Log.release_nil]
      exact ⟨hring, rfl, popNCopy_start hring hload hn havail, hheld', hpeeked⟩
  | popNCopy r count dst =>
    obtain ⟨rfl, hlt, hcache, hdst⟩ := hpc
    have hold := oldest_popNCopy hring hcache hlt hdst
    simp only [act] at h
    cases h
    rw [Log.release_nil]
    refine ⟨hring, rfl, ?_, hheld, hpeeked⟩
    simp only [List.length_append, List.length_singleton]
    split_ifs with hmore
    · exact ⟨rfl, by simpa using hmore, hcache, hold⟩
    · exact ⟨rfl, by simp; omega, hcache, hold⟩
  | popNStore r count dst =>
    obtain ⟨rfl, hlen, hcache, hdst⟩ := hpc
    cases h
    rw [← hlen] at hcache
    have hlt : count.toNat < c.slots.toNat := by
      have := hcache.le
      have := hring.room
      omega
    have hnext := toNat_nextIdxN c hring.read hlt
    rw [← hlen] at hnext
    exact ⟨hring.release hnext hdst, rfl, WriteCache.release hcache, by simp [released],
      by simp [released]⟩
  | _ => cases hop

/-- Every step of the consumer keeps the segment holding the log, with what the step
released, and keeps what the consumer knows. -/
theorem act_inv (hring : ring.Holds c log) (hq : q.Inv c ring log)
    (h : q.act ring a = some (ring', q', xs)) :
    ring'.Holds c (log.release xs) ∧ q'.Inv c ring' (log.release xs) := by
  rcases act_cases h with hcall | ⟨rfl, hop | hop | hop⟩
  · exact call_inv hring hq h hcall
  · exact front_inv hring hq h hop
  · exact pop_inv hring hq h hop
  · exact popN_inv hring hq h hop

/-- The consumer stores neither to `writeIdx` nor to a slot. -/
theorem act_frame (h : q.act ring a = some (ring', q', xs)) :
    ring'.writeIdx = ring.writeIdx ∧ ring'.slots = ring.slots := by
  obtain ⟨handle, held, peeked, pc⟩ := q
  cases a <;> cases pc <;> try cases held
  all_goals simp only [act, reduceCtorEq] at h
  all_goals try split_ifs at h
  all_goals cases h
  all_goals exact ⟨rfl, rfl⟩

/-- What the consumer knows is not changed by a producer that publishes `ys`. -/
theorem Inv.publish (hq : q.Inv c ring log) (ys : List T)
    (hread : ring'.readIdx = ring.readIdx) : q.Inv c ring' (log.publish ys) := by
  obtain ⟨handle, held, peeked, pc⟩ := q
  obtain ⟨hcap, hpc, hheld, hpeeked⟩ := hq
  refine ⟨hcap, ?_, fun r hr => ?_, fun x hne hx => (hpeeked x hne hx).publish ys⟩
  · cases pc with
    | ready ret => exact WriteCache.publish hpc ys
    | frontLoad k => exact WriteCache.publish hpc ys
    | frontTest k r => exact ⟨hpc.1.trans hread.symm, hpc.2.publish ys⟩
    | frontRefresh k r => exact ⟨hpc.1.trans hread.symm, hpc.2.publish ys⟩
    | tryPopCopy r => exact ⟨hpc.1.trans hread.symm, hpc.2.publish ys⟩
    | popLoad b => exact ⟨hpc.1.publish ys, fun x hx => (hpc.2 x hx).publish ys⟩
    | popAssert b r =>
      exact ⟨hpc.1.trans hread.symm, hpc.2.1.publish ys, fun x hx => (hpc.2.2 x hx).publish ys⟩
    | popStore b r =>
      exact ⟨hpc.1.trans hread.symm, hpc.2.1.publish ys, fun x hx => (hpc.2.2 x hx).publish ys⟩
    | popNLoad n => exact ⟨hpc.1, hpc.2.publish ys⟩
    | popNTest n r => exact ⟨hpc.1.trans hread.symm, hpc.2.1, hpc.2.2.publish ys⟩
    | popNRefresh n r => exact ⟨hpc.1.trans hread.symm, hpc.2.1, hpc.2.2.publish ys⟩
    | popNCopy r count dst =>
      obtain ⟨hr, hlt, hcache, hdst⟩ := hpc
      exact ⟨hr.trans hread.symm, hlt, hcache.publish ys, hdst.publish ys⟩
    | popNStore r count dst =>
      obtain ⟨hr, hlen, hcache, hdst⟩ := hpc
      exact ⟨hr.trans hread.symm, hlen, hcache.publish ys, hdst.publish ys⟩
    | aborted => exact hpc
  · obtain ⟨hr, hcache⟩ := hheld r hr
    exact ⟨hr.trans hread.symm, hcache.publish ys⟩

end Consumer

end ShmSpsc
