import ShmSpsc.Fifo

/-!
# The producer's operations

`try_push` and `push_n`, one step per access to the shared segment : the load of the own
index, the test of the cached peer index, the refresh load, the copy of one element, the
store that publishes. `Producer.act` is one step, with the elements it publishes.

`Producer.Inv` is what a producer knows between two of its steps. Its cached `readIdx` is
the cell of some earlier total `C` that is not ahead of the released elements, with at most
`capacity()` elements published since (`ReadCache`), so room seen through the cache is
room. `Producer.act_inv` keeps it, and the segment holding the log, over every step;
`Producer.Inv.release` keeps it over what the consumer does.
-/

namespace ShmSpsc

variable {T : Type*}

/-- The members of a bound `ShmSpscQueue` that the operations read. -/
structure Handle where
  capacity : UInt64
  readIdxCache : UInt64
  writeIdxCache : UInt64
  deriving DecidableEq, Repr

/-- What an operation of the producer returned. -/
inductive PushResult where
  | tryPush (ok : Bool)
  | pushN (count : UInt64)
  deriving DecidableEq, Repr

/-- Where the producer is : between two calls, or before an access of a call. -/
inductive PushPc (T : Type*) where
  | ready (ret : Option PushResult)
  | tryPushLoad (v : T)
  | tryPushTest (v : T) (w next : UInt64)
  | tryPushRefresh (v : T) (w next : UInt64)
  | tryPushCopy (v : T) (w next : UInt64)
  | tryPushStore (v : T) (w next : UInt64)
  | pushNLoad (src : ℕ → T) (n : UInt64)
  | pushNTest (src : ℕ → T) (n w : UInt64)
  | pushNRefresh (src : ℕ → T) (n w : UInt64)
  | pushNCopy (src : ℕ → T) (w count : UInt64) (i : ℕ)
  | pushNStore (src : ℕ → T) (w count : UInt64)

/-- A handle in the producer's role, and where it is. -/
structure Producer (T : Type*) where
  handle : Handle
  pc : PushPc T

/-- A call of an operation, or the next step of the current one. -/
inductive PushAct (T : Type*) where
  | tryPush (v : T)
  | pushN (src : ℕ → T) (n : UInt64)
  | step

/-- The producer after its refresh load of `readIdx`. -/
def Producer.refresh (p : Producer T) (r : UInt64) (pc : PushPc T) : Producer T where
  handle := { p.handle with readIdxCache := r }
  pc := pc

/-- One step of the producer : the segment and the producer after it, and the elements
it published. -/
def Producer.act (p : Producer T) (ring : Ring T) :
    PushAct T → Option (Ring T × Producer T × List T)
  | .tryPush v =>
    match p.pc with
    | .ready _ => some (ring, { p with pc := .tryPushLoad v }, [])
    | _ => none
  | .pushN src n =>
    match p.pc with
    | .ready _ =>
      if n = 0 then some (ring, { p with pc := .ready (some (.pushN 0)) }, [])
      else some (ring, { p with pc := .pushNLoad src n }, [])
    | _ => none
  | .step =>
    match p.pc with
    | .ready _ => none
    | .tryPushLoad v =>
      let w := ring.writeIdx
      let next := nextIdx p.handle.capacity w
      some (ring, { p with pc := .tryPushTest v w next }, [])
    | .tryPushTest v w next =>
      if next = p.handle.readIdxCache then
        some (ring, { p with pc := .tryPushRefresh v w next }, [])
      else some (ring, { p with pc := .tryPushCopy v w next }, [])
    | .tryPushRefresh v w next =>
      let r := ring.readIdx
      if next = r then some (ring, p.refresh r (.ready (some (.tryPush false))), [])
      else some (ring, p.refresh r (.tryPushCopy v w next), [])
    | .tryPushCopy v w next =>
      some (ring.setSlot w.toNat v, { p with pc := .tryPushStore v w next }, [])
    | .tryPushStore v _ next =>
      some ({ ring with writeIdx := next }, { p with pc := .ready (some (.tryPush true)) }, [v])
    | .pushNLoad src n =>
      let w := ring.writeIdx
      some (ring, { p with pc := .pushNTest src n w }, [])
    | .pushNTest src n w =>
      let free := freeSlots p.handle.capacity w p.handle.readIdxCache
      if free < n then some (ring, { p with pc := .pushNRefresh src n w }, [])
      else some (ring, { p with pc := .pushNCopy src w (min n free) 0 }, [])
    | .pushNRefresh src n w =>
      let r := ring.readIdx
      let free := freeSlots p.handle.capacity w r
      if free = 0 then some (ring, p.refresh r (.ready (some (.pushN 0))), [])
      else some (ring, p.refresh r (.pushNCopy src w (min n free) 0), [])
    | .pushNCopy src w count i =>
      some (ring.setSlot (batchSlot p.handle.capacity w count i) (src i),
        { p with pc := if i + 1 < count.toNat then .pushNCopy src w count (i + 1)
                       else .pushNStore src w count }, [])
    | .pushNStore src w count =>
      some ({ ring with writeIdx := nextIdxN p.handle.capacity w count },
        { p with pc := .ready (some (.pushN count)) }, (List.range count.toNat).map src)

/-- The place is in `try_push`. -/
def PushPc.inTryPush : PushPc T → Bool
  | .tryPushLoad _ => true
  | .tryPushTest _ _ _ => true
  | .tryPushRefresh _ _ _ => true
  | .tryPushCopy _ _ _ => true
  | .tryPushStore _ _ _ => true
  | _ => false

/-- The place is in `push_n`. -/
def PushPc.inPushN : PushPc T → Bool
  | .pushNLoad _ _ => true
  | .pushNTest _ _ _ => true
  | .pushNRefresh _ _ _ => true
  | .pushNCopy _ _ _ _ => true
  | .pushNStore _ _ _ => true
  | _ => false

/-- A step of the producer is a call, or one of `try_push` or of `push_n`. -/
theorem Producer.act_cases {p : Producer T} {ring : Ring T} {a : PushAct T}
    {r : Ring T × Producer T × List T} (h : p.act ring a = some r) :
    a ≠ .step ∨ a = .step ∧ (p.pc.inTryPush ∨ p.pc.inPushN) := by
  obtain ⟨handle, pc⟩ := p
  by_cases ha : a = .step
  · refine .inr ⟨ha, ?_⟩
    rw [ha] at h
    cases pc with
    | ready ret => cases h
    | _ => simp [PushPc.inTryPush, PushPc.inPushN]
  · exact .inl ha

/-! ## What the producer knows -/

/-- The cached `readIdx` shows room for `k` more elements, and they have room : it is the
cell of a total `C` up to which everything has been released. -/
def ReadCache (c : Capacity) (log : Log T) (cache : UInt64) (k : ℕ) : Prop :=
  ∃ C, cache.toNat = C % c.slots.toNat ∧ C ≤ log.released.length ∧
    log.published.length + k < C + c.slots.toNat

/-- What holds at each place of the producer's operations. -/
def PushPc.Inv (c : Capacity) (ring : Ring T) (log : Log T) (cache : UInt64) : PushPc T → Prop
  | .ready _ => ReadCache c log cache 0
  | .tryPushLoad _ => ReadCache c log cache 0
  | .tryPushTest _ w next =>
    w = ring.writeIdx ∧ next = nextIdx c.slots w ∧ ReadCache c log cache 0
  | .tryPushRefresh _ w next =>
    w = ring.writeIdx ∧ next = nextIdx c.slots w ∧ ReadCache c log cache 0
  | .tryPushCopy _ w next =>
    w = ring.writeIdx ∧ next = nextIdx c.slots w ∧ ReadCache c log cache 1
  | .tryPushStore v w next =>
    w = ring.writeIdx ∧ next = nextIdx c.slots w ∧ ReadCache c log cache 1 ∧
      ring.slots w.toNat = v
  | .pushNLoad _ n => n ≠ 0 ∧ ReadCache c log cache 0
  | .pushNTest _ n w => w = ring.writeIdx ∧ n ≠ 0 ∧ ReadCache c log cache 0
  | .pushNRefresh _ n w => w = ring.writeIdx ∧ n ≠ 0 ∧ ReadCache c log cache 0
  | .pushNCopy src w count i =>
    w = ring.writeIdx ∧ i < count.toNat ∧ ReadCache c log cache count.toNat ∧
      ∀ j < i, ring.slots (batchSlot c.slots w count j) = src j
  | .pushNStore src w count =>
    w = ring.writeIdx ∧ ReadCache c log cache count.toNat ∧
      ∀ j < count.toNat, ring.slots (batchSlot c.slots w count j) = src j

/-- What a producer knows between two of its steps. -/
structure Producer.Inv (c : Capacity) (ring : Ring T) (log : Log T) (p : Producer T) : Prop where
  capacity : p.handle.capacity = c.slots
  pc : p.pc.Inv c ring log p.handle.readIdxCache

section ReadCache

variable {c : Capacity} {ring : Ring T} {log : Log T} {cache : UInt64} {k : ℕ}

theorem ReadCache.room (h : ReadCache c log cache k) :
    log.published.length + k < log.released.length + c.slots.toNat := by
  obtain ⟨C, -, hC, hroom⟩ := h
  omega

/-- Released elements only make room. -/
theorem ReadCache.release (h : ReadCache c log cache k) (xs : List T) :
    ReadCache c (log.release xs) cache k := by
  obtain ⟨C, hcache, hC, hroom⟩ := h
  exact ⟨C, hcache, by simp; omega, hroom⟩

/-- Publishing the `k` elements uses the room up. -/
theorem ReadCache.publish {xs : List T} (h : ReadCache c log cache xs.length) :
    ReadCache c (log.publish xs) cache 0 := by
  obtain ⟨C, hcache, hC, hroom⟩ := h
  exact ⟨C, hcache, hC, by simp; omega⟩

/-- A fresh load of `readIdx` shows exactly the room there is. -/
theorem ReadCache.of_load (h : ring.Holds c log)
    (hk : log.published.length + k < log.released.length + c.slots.toNat) :
    ReadCache c log ring.readIdx k :=
  ⟨log.released.length, h.read, le_rfl, hk⟩

/-- `try_push` finds room through the cache. -/
theorem ReadCache.one_of_next_ne (h : ring.Holds c log) (hc : ReadCache c log cache 0)
    (hne : nextIdx c.slots ring.writeIdx ≠ cache) : ReadCache c log cache 1 := by
  obtain ⟨C, hcache, hC, hroom⟩ := hc
  have hle := h.le
  rw [Ne, nextIdx_eq_iff c h.write hcache (by omega) (by omega)] at hne
  exact ⟨C, hcache, hC, by omega⟩

/-- `push_n` finds room through the cache. -/
theorem ReadCache.of_le_freeSlots (h : ring.Holds c log) (hc : ReadCache c log cache 0)
    (hk : k ≤ (freeSlots c.slots ring.writeIdx cache).toNat) : ReadCache c log cache k := by
  obtain ⟨C, hcache, hC, hroom⟩ := hc
  have hle := h.le
  rw [toNat_freeSlots c h.write hcache (by omega) (by omega)] at hk
  have := c.pos
  exact ⟨C, hcache, hC, by omega⟩

end ReadCache

/-! ## Every step keeps it -/

namespace Producer

variable {c : Capacity} {ring ring' : Ring T} {log : Log T} {p p' : Producer T}
  {a : PushAct T} {xs : List T}

/-- The `writeIdx` store of `push_n`. -/
theorem holds_pushNStore (hring : ring.Holds c log) {src : ℕ → T} {count : UInt64}
    {cache : UInt64} (hcache : ReadCache c log cache count.toNat)
    (hcopied : ∀ j < count.toNat,
      ring.slots (batchSlot c.slots ring.writeIdx count j) = src j) :
    Ring.Holds c { ring with writeIdx := nextIdxN c.slots ring.writeIdx count }
      (log.publish ((List.range count.toNat).map src)) := by
  have hle := hring.le
  have hroom := hcache.room
  have hcount : count.toNat < c.slots.toNat := by omega
  refine hring.publish ?_ (by simpa using hroom) fun j hj => ?_
  · simpa using toNat_nextIdxN c hring.write hcount
  · simp only [List.length_map, List.length_range] at hj
    rw [List.getElem?_map, List.getElem?_range hj, ← batchSlot_eq c hring.write hcount hj,
      hcopied j hj, Option.map_some]

/-- A copied element of a batch stays while the next ones are copied. -/
theorem pushNCopy_slots (hring : ring.Holds c log) {src : ℕ → T} {count : UInt64} {i : ℕ}
    (hcount : count.toNat < c.slots.toNat) (hi : i < count.toNat)
    (hcopied : ∀ j < i, ring.slots (batchSlot c.slots ring.writeIdx count j) = src j) :
    ∀ j < i + 1, (ring.setSlot (batchSlot c.slots ring.writeIdx count i) (src i)).slots
      (batchSlot c.slots ring.writeIdx count j) = src j := by
  intro j hj
  rcases Nat.lt_succ_iff_lt_or_eq.mp hj with hlt | rfl
  · rw [Ring.setSlot_of_ne _ _ ?_, hcopied j hlt]
    rw [batchSlot_eq c hring.write hcount (by omega), batchSlot_eq c hring.write hcount hi]
    intro heq
    have := Circular.eq_of_mod_eq (a := log.published.length) (by omega) (by omega) (by omega)
      (by omega) heq
    omega
  · exact ring.setSlot_self _ _

/-- The copies of `push_n` start with room for the whole batch. -/
theorem pushNCopy_start (hring : ring.Holds c log) {src : ℕ → T} {n cache : UInt64}
    (hcache : ReadCache c log cache 0) (hn : n ≠ 0)
    (hfree : freeSlots c.slots ring.writeIdx cache ≠ 0) :
    (PushPc.pushNCopy src ring.writeIdx
      (min n (freeSlots c.slots ring.writeIdx cache)) 0).Inv c ring log cache := by
  have hn' : n.toNat ≠ 0 := fun h => hn (UInt64.toNat_inj.mp h)
  have hfree' : (freeSlots c.slots ring.writeIdx cache).toNat ≠ 0 :=
    fun h => hfree (UInt64.toNat_inj.mp h)
  refine ⟨rfl, ?_, hcache.of_le_freeSlots hring ?_, fun j hj => absurd hj (Nat.not_lt_zero j)⟩
  all_goals rw [toNat_min]; omega

/-- A call keeps it. -/
theorem call_inv (hring : ring.Holds c log) (hp : p.Inv c ring log)
    (h : p.act ring a = some (ring', p', xs)) (hcall : a ≠ .step) :
    ring'.Holds c (log.publish xs) ∧ p'.Inv c ring' (log.publish xs) := by
  obtain ⟨handle, pc⟩ := p
  obtain ⟨hcap, hpc⟩ := hp
  cases a with
  | tryPush v =>
    cases pc <;> cases h
    rw [Log.publish_nil]
    exact ⟨hring, hcap, hpc⟩
  | pushN src n =>
    cases pc <;> simp only [act, reduceCtorEq] at h
    split_ifs at h with hn
    · cases h
      rw [Log.publish_nil]
      exact ⟨hring, hcap, hpc⟩
    · cases h
      rw [Log.publish_nil]
      exact ⟨hring, hcap, hn, hpc⟩
  | step => exact absurd rfl hcall

/-- A step of `try_push` keeps it. -/
theorem tryPush_inv (hring : ring.Holds c log) (hp : p.Inv c ring log)
    (h : p.act ring .step = some (ring', p', xs)) (hop : p.pc.inTryPush) :
    ring'.Holds c (log.publish xs) ∧ p'.Inv c ring' (log.publish xs) := by
  obtain ⟨⟨capacity, cache, wcache⟩, pc⟩ := p
  obtain ⟨hcap, hpc⟩ := hp
  obtain rfl : capacity = c.slots := hcap
  cases pc with
  | tryPushLoad v =>
    cases h
    rw [Log.publish_nil]
    exact ⟨hring, rfl, rfl, rfl, hpc⟩
  | tryPushTest v w next =>
    obtain ⟨rfl, rfl, hcache⟩ := hpc
    simp only [act] at h
    split_ifs at h with heq
    · cases h
      rw [Log.publish_nil]
      exact ⟨hring, rfl, rfl, rfl, hcache⟩
    · cases h
      rw [Log.publish_nil]
      exact ⟨hring, rfl, rfl, rfl, hcache.one_of_next_ne hring heq⟩
  | tryPushRefresh v w next =>
    obtain ⟨rfl, rfl, hcache⟩ := hpc
    have hload := ReadCache.of_load hring hcache.room
    simp only [act] at h
    split_ifs at h with heq
    · cases h
      rw [Log.publish_nil]
      exact ⟨hring, rfl, hload⟩
    · cases h
      rw [Log.publish_nil]
      exact ⟨hring, rfl, rfl, rfl, hload.one_of_next_ne hring heq⟩
  | tryPushCopy v w next =>
    obtain ⟨rfl, rfl, hcache⟩ := hpc
    cases h
    have hcopy := hring.copy (k := 0) v (by have := hcache.room; omega)
    rw [Nat.add_zero, ← hring.write] at hcopy
    rw [Log.publish_nil]
    exact ⟨hcopy, rfl, rfl, rfl, hcache, ring.setSlot_self _ _⟩
  | tryPushStore v w next =>
    obtain ⟨rfl, rfl, hcache, hslot⟩ := hpc
    cases h
    refine ⟨hring.publish (toNat_nextIdx c hring.write) hcache.room fun j hj => ?_, rfl,
      ReadCache.publish hcache⟩
    obtain rfl : j = 0 := by simpa using hj
    rw [Nat.add_zero, ← hring.write, hslot]
    rfl
  | _ => cases hop

/-- A step of `push_n` keeps it. -/
theorem pushN_inv (hring : ring.Holds c log) (hp : p.Inv c ring log)
    (h : p.act ring .step = some (ring', p', xs)) (hop : p.pc.inPushN) :
    ring'.Holds c (log.publish xs) ∧ p'.Inv c ring' (log.publish xs) := by
  obtain ⟨⟨capacity, cache, wcache⟩, pc⟩ := p
  obtain ⟨hcap, hpc⟩ := hp
  obtain rfl : capacity = c.slots := hcap
  cases pc with
  | pushNLoad src n =>
    cases h
    rw [Log.publish_nil]
    exact ⟨hring, rfl, rfl, hpc⟩
  | pushNTest src n w =>
    obtain ⟨rfl, hn, hcache⟩ := hpc
    simp only [act] at h
    split_ifs at h with hlt
    · cases h
      rw [Log.publish_nil]
      exact ⟨hring, rfl, rfl, hn, hcache⟩
    · cases h
      rw [Log.publish_nil]
      refine ⟨hring, rfl, pushNCopy_start hring hcache hn fun h0 => ?_⟩
      rw [h0, UInt64.lt_iff_toNat_lt] at hlt
      exact hn (UInt64.toNat_inj.mp (Nat.le_zero.mp (not_lt.mp hlt)))
  | pushNRefresh src n w =>
    obtain ⟨rfl, hn, hcache⟩ := hpc
    have hload := ReadCache.of_load hring hcache.room
    simp only [act] at h
    split_ifs at h with hfree
    · cases h
      rw [Log.publish_nil]
      exact ⟨hring, rfl, hload⟩
    · cases h
      rw [Log.publish_nil]
      exact ⟨hring, rfl, pushNCopy_start hring hload hn hfree⟩
  | pushNCopy src w count i =>
    obtain ⟨rfl, hi, hcache, hcopied⟩ := hpc
    have hle := hring.le
    have hroom := hcache.room
    have hcount : count.toNat < c.slots.toNat := by omega
    have hcopy := hring.copy (k := i) (src i) (by omega)
    rw [← batchSlot_eq c hring.write hcount hi] at hcopy
    have hslots := pushNCopy_slots hring hcount hi hcopied
    simp only [act] at h
    cases h
    rw [Log.publish_nil]
    refine ⟨hcopy, rfl, ?_⟩
    dsimp only
    split_ifs with hlast
    · exact ⟨rfl, hlast, hcache, hslots⟩
    · exact ⟨rfl, hcache, fun j hj => hslots j (by omega)⟩
  | pushNStore src w count =>
    obtain ⟨rfl, hcache, hcopied⟩ := hpc
    cases h
    refine ⟨holds_pushNStore hring hcache hcopied, rfl, ReadCache.publish ?_⟩
    simpa using hcache
  | _ => cases hop

/-- Every step of the producer keeps the segment holding the log, with what the step
published, and keeps what the producer knows. -/
theorem act_inv (hring : ring.Holds c log) (hp : p.Inv c ring log)
    (h : p.act ring a = some (ring', p', xs)) :
    ring'.Holds c (log.publish xs) ∧ p'.Inv c ring' (log.publish xs) := by
  rcases act_cases h with hcall | ⟨rfl, hop | hop⟩
  · exact call_inv hring hp h hcall
  · exact tryPush_inv hring hp h hop
  · exact pushN_inv hring hp h hop

/-- The producer never stores to `readIdx`. -/
theorem act_readIdx (h : p.act ring a = some (ring', p', xs)) :
    ring'.readIdx = ring.readIdx := by
  obtain ⟨handle, pc⟩ := p
  cases a <;> cases pc <;> simp only [act, reduceCtorEq] at h
  all_goals try split_ifs at h
  all_goals cases h
  all_goals rfl

/-- What the producer knows is not changed by a consumer that releases `ys`. -/
theorem Inv.release (hp : p.Inv c ring log) (ys : List T)
    (hwrite : ring'.writeIdx = ring.writeIdx) (hslots : ring'.slots = ring.slots) :
    p.Inv c ring' (log.release ys) := by
  obtain ⟨handle, pc⟩ := p
  obtain ⟨hcap, hpc⟩ := hp
  refine ⟨hcap, ?_⟩
  cases pc with
  | ready ret => exact ReadCache.release hpc ys
  | tryPushLoad v => exact ReadCache.release hpc ys
  | tryPushTest v w next => exact ⟨hpc.1.trans hwrite.symm, hpc.2.1, hpc.2.2.release ys⟩
  | tryPushRefresh v w next => exact ⟨hpc.1.trans hwrite.symm, hpc.2.1, hpc.2.2.release ys⟩
  | tryPushCopy v w next => exact ⟨hpc.1.trans hwrite.symm, hpc.2.1, hpc.2.2.release ys⟩
  | tryPushStore v w next =>
    obtain ⟨hw, hnext, hcache, hslot⟩ := hpc
    exact ⟨hw.trans hwrite.symm, hnext, hcache.release ys, by rw [hslots]; exact hslot⟩
  | pushNLoad src n => exact ⟨hpc.1, hpc.2.release ys⟩
  | pushNTest src n w => exact ⟨hpc.1.trans hwrite.symm, hpc.2.1, hpc.2.2.release ys⟩
  | pushNRefresh src n w => exact ⟨hpc.1.trans hwrite.symm, hpc.2.1, hpc.2.2.release ys⟩
  | pushNCopy src w count i =>
    obtain ⟨hw, hi, hcache, hcopied⟩ := hpc
    exact ⟨hw.trans hwrite.symm, hi, hcache.release ys, by rw [hslots]; exact hcopied⟩
  | pushNStore src w count =>
    obtain ⟨hw, hcache, hcopied⟩ := hpc
    exact ⟨hw.trans hwrite.symm, hcache.release ys, by rw [hslots]; exact hcopied⟩

end Producer

end ShmSpsc
