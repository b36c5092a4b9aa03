import ShmSpsc.Spsc

/-!
# Cached-index operations are exact

Each operation decides once what it does : what it returns, which slots it copies, and
which index it stores (`Decision`). `tryPushUncached`, `pushNUncached`, `frontUncached` and
`popNUncached` are the operations without a cache : they decide on a load of the peer's
index. `PushPc.uncached` and `PopPc.uncached` are their decisions at the places where the
code tests its cache or makes its refresh load.

`Producer.act_decides` and `Consumer.act_decides` : at its refresh load an operation decides
as the uncached one, and at the test of its cache it either decides as the uncached one or
goes on to the refresh load. `Producer.act_carries` and `Consumer.act_carries` follow the
decision to the operation's end, and `Spsc.decisions_exact` is both along every run.
-/

namespace ShmSpsc

open Transition

variable {T : Type*}

/-- What an operation decides : its return value (a count; `1` for `true` and for a
pointer), the slots it copies or points to, and the index it stores, if it stores one. -/
structure Decision where
  ret : UInt64
  slots : List ℕ
  next : Option UInt64
  deriving DecidableEq, Repr

/-- `false`, `nullptr` or `0`, with no slot touched and no index stored. -/
def Decision.refuse : Decision := ⟨0, [], none⟩

/-! ## The operations without a cache -/

/-- `try_push` deciding on `r` alone. -/
def tryPushUncached (capacity w r : UInt64) : Decision :=
  let next := nextIdx capacity w
  if next = r then .refuse else ⟨1, [w.toNat], some next⟩

/-- `push_n` deciding on `r` alone. -/
def pushNUncached (capacity n w r : UInt64) : Decision :=
  let free := freeSlots capacity w r
  if n = 0 ∨ free = 0 then .refuse
  else ⟨min n free, batchSlots capacity w (min n free), some (nextIdxN capacity w (min n free))⟩

/-- `front` returns the pointer to slot `r`; `try_pop` goes on to store the next index. -/
def frontFound (capacity r : UInt64) : Caller → Decision
  | .user => ⟨1, [r.toNat], none⟩
  | .tryPop => ⟨1, [r.toNat], some (nextIdx capacity r)⟩

/-- `front` deciding on `w` alone. -/
def frontUncached (capacity : UInt64) (k : Caller) (r w : UInt64) : Decision :=
  if r = w then .refuse else frontFound capacity r k

/-- `pop_n` deciding on `w` alone. -/
def popNUncached (capacity n r w : UInt64) : Decision :=
  let avail := usedSlots capacity w r
  if n = 0 ∨ avail = 0 then .refuse
  else ⟨min n avail, batchSlots capacity r (min n avail), some (nextIdxN capacity r (min n avail))⟩

/-- The uncached decision where the producer tests its cache or loads `readIdx`, on the
peer's index `r`. -/
def PushPc.uncached (capacity r : UInt64) : PushPc T → Option Decision
  | .tryPushTest _ w _ => some (tryPushUncached capacity w r)
  | .tryPushRefresh _ w _ => some (tryPushUncached capacity w r)
  | .pushNTest _ n w => some (pushNUncached capacity n w r)
  | .pushNRefresh _ n w => some (pushNUncached capacity n w r)
  | _ => none

/-- The uncached decision where the consumer tests its cache or loads `writeIdx`, on the
peer's index `w`. -/
def PopPc.uncached (capacity w : UInt64) : PopPc T → Option Decision
  | .frontTest k r => some (frontUncached capacity k r w)
  | .frontRefresh k r => some (frontUncached capacity k r w)
  | .popNTest n r => some (popNUncached capacity n r w)
  | .popNRefresh n r => some (popNUncached capacity n r w)
  | _ => none

/-! ## The decisions of the code -/

/-- The producer is before its refresh load. -/
def PushPc.refreshing : PushPc T → Prop
  | .tryPushRefresh _ _ _ => True
  | .pushNRefresh _ _ _ => True
  | _ => False

/-- The consumer is before its refresh load. -/
def PopPc.refreshing : PopPc T → Prop
  | .frontRefresh _ _ => True
  | .popNRefresh _ _ => True
  | _ => False

/-- The decision the producer's operation has taken : in progress, or returned at once. -/
def PushPc.decision (capacity : UInt64) : PushPc T → Option Decision
  | .ready (some (.tryPush false)) => some .refuse
  | .ready (some (.pushN count)) => if count = 0 then some .refuse else none
  | .tryPushCopy _ w next => some ⟨1, [w.toNat], some next⟩
  | .tryPushStore _ w next => some ⟨1, [w.toNat], some next⟩
  | .pushNCopy _ w count _ =>
    some ⟨count, batchSlots capacity w count, some (nextIdxN capacity w count)⟩
  | .pushNStore _ w count =>
    some ⟨count, batchSlots capacity w count, some (nextIdxN capacity w count)⟩
  | _ => none

/-- The decision the consumer's operation has taken; the `pop()` of `try_pop` loads the own
index `readIdx` again. -/
def PopPc.decision (capacity readIdx : UInt64) : PopPc T → Option Decision
  | .ready (some (.front none)) => some .refuse
  | .ready (some (.front (some r))) => some ⟨1, [r.toNat], none⟩
  | .ready (some (.tryPop none)) => some .refuse
  | .ready (some (.popN [])) => some .refuse
  | .tryPopCopy r => some ⟨1, [r.toNat], some (nextIdx capacity r)⟩
  | .popLoad (.tryPop _) => some ⟨1, [readIdx.toNat], some (nextIdx capacity readIdx)⟩
  | .popAssert (.tryPop _) r => some ⟨1, [r.toNat], some (nextIdx capacity r)⟩
  | .popStore (.tryPop _) r => some ⟨1, [r.toNat], some (nextIdx capacity r)⟩
  | .popNCopy r count _ =>
    some ⟨count, batchSlots capacity r count, some (nextIdxN capacity r count)⟩
  | .popNStore r count _ =>
    some ⟨count, batchSlots capacity r count, some (nextIdxN capacity r count)⟩
  | _ => none

/-- The value returned by the producer's last operation. -/
def PushPc.returned : PushPc T → Option UInt64
  | .ready (some (.tryPush ok)) => some (if ok then 1 else 0)
  | .ready (some (.pushN count)) => some count
  | _ => none

/-- The value returned by the consumer's last operation. -/
def PopPc.returned : PopPc T → Option UInt64
  | .ready (some (.front p)) => some (if p.isSome then 1 else 0)
  | .ready (some (.tryPop out)) => some (if out.isSome then 1 else 0)
  | .ready (some (.popN dst)) => some (UInt64.ofNat dst.length)
  | _ => none

/-- The `n` of a `push_n` that has not decided yet. -/
def PushPc.asked : PushPc T → Option UInt64
  | .pushNTest _ n _ => some n
  | .pushNRefresh _ n _ => some n
  | _ => none

/-- The `n` of a `pop_n` that has not decided yet. -/
def PopPc.asked : PopPc T → Option UInt64
  | .popNTest n _ => some n
  | .popNRefresh n _ => some n
  | _ => none

/-- The cache of the producer changes nothing in its step from `p` to `p'`. It decides on
its refresh load as the operation without a cache, at the test of its cache it decides so or
goes on to the refresh load, and it carries the decision out. Where it refuses or cuts a
batch short, `held` is the exact number of elements in the ring. -/
structure Producer.Exact (capacity : UInt64) (held : ℕ) (ring ring' : Ring T)
    (p p' : Producer T) : Prop where
  decides : ∀ d, p.pc.uncached capacity ring.readIdx = some d →
    p'.pc.decision capacity = some d ∨ ¬p.pc.refreshing ∧ p'.pc.refreshing
  carries : ∀ d, p.pc.decision capacity = some d →
    p'.pc.decision capacity = some d ∧ ring'.writeIdx = ring.writeIdx ∨
      p'.pc.returned = some d.ret ∧ d.next = some ring'.writeIdx
  full : p'.pc = .ready (some (.tryPush false)) →
    p.pc.refreshing ∧ held = (capacityOf capacity).toNat
  short : ∀ n d, p.pc.asked = some n → p'.pc.decision capacity = some d → d.ret < n →
    p.pc.refreshing ∧ held = (capacityOf capacity).toNat - d.ret.toNat

/-- The cache of the consumer changes nothing in its step from `q` to `q'`. -/
structure Consumer.Exact (capacity : UInt64) (held : ℕ) (ring ring' : Ring T)
    (q q' : Consumer T) : Prop where
  decides : ∀ d, q.pc.uncached capacity ring.writeIdx = some d →
    q'.pc.decision capacity ring'.readIdx = some d ∨ ¬q.pc.refreshing ∧ q'.pc.refreshing
  carries : ∀ d, q.pc.decision capacity ring.readIdx = some d →
    q'.pc.decision capacity ring'.readIdx = some d ∧ ring'.readIdx = ring.readIdx ∨
      q'.pc.returned = some d.ret ∧ d.next = some ring'.readIdx
  empty : q'.pc = .ready (some (.front none)) ∨ q'.pc = .ready (some (.tryPop none)) →
    q.pc.refreshing ∧ held = 0
  short : ∀ n d, q.pc.asked = some n → q'.pc.decision capacity ring'.readIdx = some d →
    d.ret < n → q.pc.refreshing ∧ held = d.ret.toNat

/-! ## Exactness of the producer -/

theorem min_eq_left_of_not_lt {n free : UInt64} (h : ¬free < n) : min n free = n := by
  rw [UInt64.lt_iff_toNat_lt] at h
  rw [← UInt64.toNat_inj, toNat_min]
  omega

section Producer

variable {c : Capacity} {ring ring' : Ring T} {log : Log T} {p p' : Producer T} {xs : List T}

/-- The uncached `try_push` refuses exactly in a full ring. -/
theorem nextIdx_eq_readIdx_iff (hring : ring.Holds c log) :
    nextIdx c.slots ring.writeIdx = ring.readIdx ↔
      log.held = (capacityOf c.slots).toNat := by
  have hle := hring.le
  have hroom := hring.room
  have hpos := c.pos
  rw [nextIdx_eq_iff c hring.write hring.read hle hroom, toNat_capacityOf, Log.held]
  omega

/-- The free slots on a fresh load are those the elements leave. -/
theorem toNat_freeSlots_eq (hring : ring.Holds c log) :
    (freeSlots c.slots ring.writeIdx ring.readIdx).toNat =
      (capacityOf c.slots).toNat - log.held := by
  rw [toNat_freeSlots c hring.write hring.read hring.le hring.room, toNat_capacityOf, Log.held]

/-- Room seen through the cache is room. -/
theorem ReadCache.freeSlots_le {cache : UInt64} (hring : ring.Holds c log)
    (hcache : ReadCache c log cache 0) :
    (freeSlots c.slots ring.writeIdx cache).toNat ≤
      (freeSlots c.slots ring.writeIdx ring.readIdx).toNat := by
  have hroom := (hcache.of_le_freeSlots hring le_rfl).room
  rw [toNat_freeSlots c hring.write hring.read hring.le hring.room]
  have := hring.le
  omega

theorem Producer.act_decides (hring : ring.Holds c log) (hp : p.Inv c ring log)
    (h : p.act ring .step = some (ring', p', xs)) {d : Decision}
    (hd : p.pc.uncached c.slots ring.readIdx = some d) :
    p'.pc.decision c.slots = some d ∨ ¬p.pc.refreshing ∧ p'.pc.refreshing := by
  obtain ⟨⟨capacity, cache, wcache⟩, pc⟩ := p
  obtain ⟨hcap, hpc⟩ := hp
  obtain rfl : capacity = c.slots := hcap
  cases pc <;> cases hd
  case tryPushTest v w next =>
    obtain ⟨rfl, rfl, hcache⟩ := hpc
    simp only [act] at h
    split_ifs at h with heq
    · cases h
      exact .inr ⟨id, trivial⟩
    · cases h
      have hroom := (hcache.one_of_next_ne hring heq).room
      have hne : nextIdx c.slots ring.writeIdx ≠ ring.readIdx := by
        rw [Ne, nextIdx_eq_iff c hring.write hring.read hring.le hring.room]
        omega
      exact .inl (by simp [PushPc.decision, tryPushUncached, hne])
  case tryPushRefresh v w next =>
    obtain ⟨rfl, rfl, -⟩ := hpc
    simp only [act] at h
    split_ifs at h with heq
    · cases h
      exact .inl (by simp [refresh, PushPc.decision, tryPushUncached, heq])
    · cases h
      exact .inl (by simp [refresh, PushPc.decision, tryPushUncached, heq])
  case pushNTest src n w =>
    obtain ⟨rfl, hn, hcache⟩ := hpc
    simp only [act] at h
    split_ifs at h with hlt
    · cases h
      exact .inr ⟨id, trivial⟩
    · cases h
      have hle : (freeSlots c.slots ring.writeIdx cache).toNat ≤ _ := hcache.freeSlots_le hring
      have hn' : n.toNat ≠ 0 := fun h => hn (UInt64.toNat_inj.mp h)
      have hlt' := hlt
      rw [UInt64.lt_iff_toNat_lt] at hlt'
      have hfree : freeSlots c.slots ring.writeIdx ring.readIdx ≠ 0 := by
        intro h0
        rw [h0, UInt64.toNat_zero] at hle
        omega
      have hge : ¬freeSlots c.slots ring.writeIdx ring.readIdx < n := by
        rw [UInt64.lt_iff_toNat_lt]
        omega
      refine .inl ?_
      simp [PushPc.decision, pushNUncached, hn, hfree, min_eq_left_of_not_lt hlt,
        min_eq_left_of_not_lt hge]
  case pushNRefresh src n w =>
    obtain ⟨rfl, hn, -⟩ := hpc
    simp only [act] at h
    split_ifs at h with hfree
    · cases h
      exact .inl (by simp [refresh, PushPc.decision, pushNUncached, hfree])
    · cases h
      exact .inl (by simp [refresh, PushPc.decision, pushNUncached, hn, hfree])

/-- A decision is carried to the store, which stores its index and returns its value. -/
theorem Producer.act_carries (hcap : p.handle.capacity = c.slots)
    (h : p.act ring .step = some (ring', p', xs)) {d : Decision}
    (hd : p.pc.decision c.slots = some d) :
    p'.pc.decision c.slots = some d ∧ ring'.writeIdx = ring.writeIdx ∨
      p'.pc.returned = some d.ret ∧ d.next = some ring'.writeIdx := by
  obtain ⟨⟨capacity, cache, wcache⟩, pc⟩ := p
  obtain rfl : capacity = c.slots := hcap
  cases pc with
  | ready ret => cases h
  | tryPushCopy v w next =>
    cases h
    exact .inl ⟨hd, rfl⟩
  | tryPushStore v w next =>
    cases h
    cases hd
    exact .inr ⟨rfl, rfl⟩
  | pushNCopy src w count i =>
    simp only [act] at h
    cases h
    refine .inl ⟨?_, rfl⟩
    dsimp only
    split_ifs <;> exact hd
  | pushNStore src w count =>
    cases h
    cases hd
    exact .inr ⟨rfl, rfl⟩
  | _ => cases hd

theorem Producer.act_exact (hring : ring.Holds c log) (hp : p.Inv c ring log)
    (h : p.act ring .step = some (ring', p', xs)) :
    Producer.Exact c.slots log.held ring ring' p p' where
  decides _ hd := act_decides hring hp h hd
  carries _ hd := act_carries hp.capacity h hd
  full hret := by
    obtain ⟨⟨capacity, cache, wcache⟩, pc⟩ := p
    obtain ⟨-, hpc⟩ := hp
    cases pc <;> simp only [act, reduceCtorEq] at h
    all_goals try split_ifs at h with heq
    all_goals cases h
    all_goals try cases hret
    obtain ⟨rfl, rfl, -⟩ := hpc
    exact ⟨trivial, (nextIdx_eq_readIdx_iff hring).mp heq⟩
  short n d hn hd hlt := by
    obtain ⟨⟨capacity, cache, wcache⟩, pc⟩ := p
    obtain ⟨hcap, hpc⟩ := hp
    obtain rfl : capacity = c.slots := hcap
    have hheld : log.held ≤ (capacityOf c.slots).toNat := by
      have := hring.room
      rw [toNat_capacityOf, Log.held]
      omega
    cases pc <;> cases hn
    case pushNTest src w =>
      simp only [act] at h
      split_ifs at h with hfree
      · cases h
        cases hd
      · cases h
        cases hd
        rw [min_eq_left_of_not_lt hfree] at hlt
        exact absurd hlt (UInt64.lt_irrefl n)
    case pushNRefresh src w =>
      obtain ⟨rfl, -, -⟩ := hpc
      have hfresh := toNat_freeSlots_eq hring
      simp only [act] at h
      split_ifs at h with hfree
      · cases h
        simp only [refresh, PushPc.decision, if_true, Option.some.injEq] at hd
        subst hd
        rw [hfree, UInt64.toNat_zero] at hfresh
        exact ⟨trivial, by simp only [Decision.refuse, UInt64.toNat_zero]; omega⟩
      · cases h
        cases hd
        rw [UInt64.lt_iff_toNat_lt, toNat_min] at hlt
        refine ⟨trivial, ?_⟩
        rw [toNat_min]
        omega

end Producer

/-! ## Exactness of the consumer -/

section Consumer

variable {c : Capacity} {ring ring' : Ring T} {log : Log T} {q q' : Consumer T} {xs : List T}

/-- The uncached `front` refuses exactly in an empty ring. -/
theorem readIdx_eq_writeIdx_iff (hring : ring.Holds c log) :
    ring.readIdx = ring.writeIdx ↔ log.held = 0 := by
  have hle := hring.le
  rw [cell_eq_iff c hring.write hring.read hle hring.room, Log.held]
  omega

/-- The used slots on a fresh load are those of the elements. -/
theorem toNat_usedSlots_eq (hring : ring.Holds c log) :
    (usedSlots c.slots ring.writeIdx ring.readIdx).toNat = log.held :=
  toNat_usedSlots c hring.write hring.read hring.le hring.room

/-- Elements seen through the cache are there. -/
theorem WriteCache.usedSlots_le {cache : UInt64} (hring : ring.Holds c log)
    (hcache : WriteCache c log cache 0) :
    (usedSlots c.slots cache ring.readIdx).toNat ≤
      (usedSlots c.slots ring.writeIdx ring.readIdx).toNat := by
  have hle := (hcache.of_le_usedSlots hring le_rfl).le
  rw [toNat_usedSlots_eq hring, Log.held]
  omega

theorem Consumer.frontSlot_decision (q : Consumer T) (r readIdx : UInt64) (k : Caller) :
    (q.frontSlot r k).pc.decision c.slots readIdx = some (frontFound c.slots r k) := by
  cases k <;> rfl

theorem Consumer.frontNull_decision (q : Consumer T) (readIdx : UInt64) (k : Caller) :
    (q.frontNull k).pc.decision c.slots readIdx = some .refuse := by
  cases k <;> rfl

theorem Consumer.act_decides (hring : ring.Holds c log) (hq : q.Inv c ring log)
    (h : q.act ring .step = some (ring', q', xs)) {d : Decision}
    (hd : q.pc.uncached c.slots ring.writeIdx = some d) :
    q'.pc.decision c.slots ring'.readIdx = some d ∨ ¬q.pc.refreshing ∧ q'.pc.refreshing := by
  obtain ⟨⟨capacity, rcache, cache⟩, held, peeked, pc⟩ := q
  obtain ⟨hcap, hpc, -, -⟩ := hq
  obtain rfl : capacity = c.slots := hcap
  cases pc <;> cases hd
  case frontTest k r =>
    obtain ⟨rfl, hcache⟩ := hpc
    simp only [act] at h
    split_ifs at h with heq
    · cases h
      exact .inr ⟨id, trivial⟩
    · cases h
      have hle := (hcache.one_of_ne hring heq).le
      have hne : ring.readIdx ≠ ring.writeIdx := by
        rw [Ne, cell_eq_iff c hring.write hring.read hring.le hring.room]
        omega
      exact .inl (by rw [frontSlot_decision, frontUncached, if_neg hne])
  case frontRefresh k r =>
    obtain ⟨rfl, -⟩ := hpc
    simp only [act] at h
    split_ifs at h with heq
    · cases h
      exact .inl (by rw [frontNull_decision, frontUncached, if_pos heq])
    · cases h
      exact .inl (by rw [frontSlot_decision, frontUncached, if_neg heq])
  case popNTest n r =>
    obtain ⟨rfl, hn, hcache⟩ := hpc
    simp only [act] at h
    split_ifs at h with hlt
    · cases h
      exact .inr ⟨id, trivial⟩
    · cases h
      have hle : (usedSlots c.slots cache ring.readIdx).toNat ≤ _ := hcache.usedSlots_le hring
      have hn' : n.toNat ≠ 0 := fun h => hn (UInt64.toNat_inj.mp h)
      have hlt' := hlt
      rw [UInt64.lt_iff_toNat_lt] at hlt'
      have havail : usedSlots c.slots ring.writeIdx ring.readIdx ≠ 0 := by
        intro h0
        rw [h0, UInt64.toNat_zero] at hle
        omega
      have hge : ¬usedSlots c.slots ring.writeIdx ring.readIdx < n := by
        rw [UInt64.lt_iff_toNat_lt]
        omega
      refine .inl ?_
      simp [PopPc.decision, popNUncached, hn, havail, min_eq_left_of_not_lt hlt,
        min_eq_left_of_not_lt hge]
  case popNRefresh n r =>
    obtain ⟨rfl, hn, -⟩ := hpc
    simp only [act] at h
    split_ifs at h with havail
    · cases h
      exact .inl (by simp [PopPc.decision, popNUncached, havail])
    · cases h
      exact .inl (by simp [PopPc.decision, popNUncached, hn, havail])

/-- A decision is carried to the store, which stores its index and returns its value. -/
theorem Consumer.act_carries (hring : ring.Holds c log) (hq : q.Inv c ring log)
    (h : q.act ring .step = some (ring', q', xs)) {d : Decision}
    (hd : q.pc.decision c.slots ring.readIdx = some d) :
    q'.pc.decision c.slots ring'.readIdx = some d ∧ ring'.readIdx = ring.readIdx ∨
      q'.pc.returned = some d.ret ∧ d.next = some ring'.readIdx := by
  obtain ⟨⟨capacity, rcache, cache⟩, held, peeked, pc⟩ := q
  obtain ⟨hcap, hpc, -, -⟩ := hq
  obtain rfl : capacity = c.slots := hcap
  cases pc with
  | ready ret => cases h
  | tryPopCopy r =>
    obtain ⟨rfl, -⟩ := hpc
    cases h
    exact .inl ⟨hd, rfl⟩
  | popLoad b =>
    cases h
    cases b with
    | user peeked => cases hd
    | tryPop out => exact .inl ⟨hd, rfl⟩
  | popAssert b r =>
    obtain ⟨rfl, hcache, -⟩ := hpc
    have hle := hcache.le
    have hne : ring.writeIdx ≠ ring.readIdx := by
      intro heq
      have := (cell_eq_iff c hring.write hring.read hring.le hring.room).mp heq.symm
      omega
    simp only [act, if_neg hne] at h
    cases h
    cases b with
    | user peeked => cases hd
    | tryPop out => exact .inl ⟨hd, rfl⟩
  | popStore b r =>
    cases h
    cases b with
    | user peeked => cases hd
    | tryPop out =>
      cases hd
      exact .inr ⟨rfl, rfl⟩
  | popNCopy r count dst =>
    simp only [act] at h
    cases h
    refine .inl ⟨?_, rfl⟩
    dsimp only
    split_ifs <;> exact hd
  | popNStore r count dst =>
    obtain ⟨-, hlen, -, -⟩ := hpc
    cases h
    cases hd
    refine .inr ⟨?_, rfl⟩
    simp [released, PopPc.returned, hlen]
  | _ => cases hd

theorem Consumer.act_exact (hring : ring.Holds c log) (hq : q.Inv c ring log)
    (h : q.act ring .step = some (ring', q', xs)) :
    Consumer.Exact c.slots log.held ring ring' q q' where
  decides _ hd := act_decides hring hq h hd
  carries _ hd := act_carries hring hq h hd
  empty hret := by
    obtain ⟨handle, held, peeked, pc⟩ := q
    obtain ⟨-, hpc, -, -⟩ := hq
    cases pc with
    | frontRefresh k r =>
      obtain ⟨rfl, -⟩ := hpc
      simp only [act] at h
      split_ifs at h with heq
      · cases h
        exact ⟨trivial, (readIdx_eq_writeIdx_iff hring).mp heq⟩
      · cases h
        cases k <;> rcases hret with hret | hret <;> cases hret
    | frontTest k r =>
      simp only [act] at h
      split_ifs at h
      · cases h
        rcases hret with hret | hret <;> cases hret
      · cases h
        cases k <;> rcases hret with hret | hret <;> cases hret
    | popStore b r =>
      cases h
      cases b <;> rcases hret with hret | hret <;> cases hret
    | _ =>
      simp only [act, reduceCtorEq] at h
      try split_ifs at h
      all_goals cases h
      all_goals rcases hret with hret | hret
      all_goals cases hret
  short n d hn hd hlt := by
    obtain ⟨⟨capacity, rcache, cache⟩, held, peeked, pc⟩ := q
    obtain ⟨hcap, hpc, -, -⟩ := hq
    obtain rfl : capacity = c.slots := hcap
    cases pc <;> cases hn
    case popNTest r =>
      simp only [act] at h
      split_ifs at h with havail
      · cases h
        cases hd
      · cases h
        cases hd
        rw [min_eq_left_of_not_lt havail] at hlt
        exact absurd hlt (UInt64.lt_irrefl n)
    case popNRefresh r =>
      obtain ⟨rfl, -, -⟩ := hpc
      have hfresh := toNat_usedSlots_eq hring
      simp only [act] at h
      split_ifs at h with havail
      · cases h
        cases hd
        rw [havail, UInt64.toNat_zero] at hfresh
        exact ⟨trivial, hfresh.symm⟩
      · cases h
        cases hd
        rw [UInt64.lt_iff_toNat_lt, toNat_min] at hlt
        refine ⟨trivial, ?_⟩
        rw [toNat_min]
        omega

end Consumer

/-- Cached-index operations are exact. In every reachable state each step of a side takes
the decision of the operation that ignores the cache, on the peer's index in that state, and
carries it out; a batch of none is refused at the call by both. `try_push` returns `false`
only if the ring holds `capacity()` elements at its `readIdx` load, `push_n` cuts a batch to
`k` only if it holds `capacity() - k` there, `front` and `try_pop` report empty only if it
holds none at their `writeIdx` load, and `pop_n` cuts a batch to `k` only if it holds `k`
there. -/
theorem Spsc.decisions_exact {L : Layout} {name : String} {requested : UInt64} {calls : CreateCalls}
    {g : Geometry} (hcreate : create L name requested calls = .ok g) (role : Role)
    (slots : ℕ → T) {s : Spsc T}
    (run : Reachable (step g.capacity) (created g.capacity role slots) s) :
    (∀ p, s.producer = .up p → ∀ ring' p' xs, p.act s.ring .step = some (ring', p', xs) →
      Producer.Exact g.capacity s.log.held s.ring ring' p p') ∧
    (∀ q, s.consumer = .up q → ∀ ring' q' xs, q.act s.ring .step = some (ring', q', xs) →
      Consumer.Exact g.capacity s.log.held s.ring ring' q q') ∧
    (∀ p, s.producer = .up p → ∀ src ring' p' xs,
      p.act s.ring (.pushN src 0) = some (ring', p', xs) →
      p'.pc.decision g.capacity =
        some (pushNUncached g.capacity 0 s.ring.writeIdx s.ring.readIdx)) ∧
    (∀ q, s.consumer = .up q → ∀ ring' q' xs,
      q.act s.ring (.popN 0) = some (ring', q', xs) →
      q'.pc.decision g.capacity ring'.readIdx =
        some (popNUncached g.capacity 0 s.ring.readIdx s.ring.writeIdx)) := by
  have hinv := inv_of_reachable (c := .ofCreate hcreate) run
  refine ⟨fun p hp _ _ _ h => Producer.act_exact hinv.ring (hinv.producer p hp) h,
    fun q hq _ _ _ h => Consumer.act_exact hinv.ring (hinv.consumer q hq) h, ?_, ?_⟩
  · rintro ⟨handle, pc⟩ - src ring' p' xs h
    cases pc <;> cases h
    rfl
  · rintro ⟨handle, held, peeked, pc⟩ - ring' q' xs h
    cases pc <;> cases h
    rfl

/-- A `try_pop` of an empty ring of two slots, and two pushes into it, each up to a refresh
load. -/
def Spsc.fullRun : List (SpscAct ℕ) :=
  List.replicate 2 SpscAct.attachConsumer ++
    SpscAct.consume .tryPop :: List.replicate 2 (SpscAct.consume .step) ++
    SpscAct.produce (.tryPush 7) :: List.replicate 4 (SpscAct.produce .step) ++
    SpscAct.produce (.tryPush 8) :: List.replicate 2 (SpscAct.produce .step)

theorem Spsc.decisions_exact_fullRun :
    ∃ (s : Spsc ℕ) (p p' : Producer ℕ) (q q' : Consumer ℕ),
      Reachable (step 2) (created 2 .producer fun _ => 0) s ∧
      (s.producer = .up p ∧ p.act s.ring .step = some (s.ring, p', []) ∧
        p'.pc = .ready (some (.tryPush false)) ∧ s.log.held = (capacityOf 2).toNat) ∧
      s.consumer = .up q ∧ q.act s.ring .step = some (s.ring, q', []) ∧
        q'.pc.decision 2 s.ring.readIdx = some ⟨1, [0], some 1⟩ := by
  have hcreate : create messageLayout "/q" 1 ⟨none, none, none⟩ =
      .ok (createdGeometry messageLayout 2 352) := by decide
  let s := (exec (step 2) (fun _ _ => True) (created 2 .producer fun _ => 0) fullRun).get
    (by decide)
  have run : Reachable (step 2) (created 2 .producer fun _ => 0) s :=
    Reaches.of_exec (Option.some_get _).symm
  have hexact := decisions_exact hcreate _ _ run
  refine ⟨s, ⟨⟨2, 0, 0⟩, .tryPushRefresh 8 1 0⟩, ⟨⟨2, 0, 0⟩, .ready (some (.tryPush false))⟩,
    ⟨⟨2, 0, 0⟩, none, none, .frontRefresh .tryPop 0⟩, ⟨⟨2, 0, 1⟩, none, none, .tryPopCopy 0⟩, run,
    ⟨rfl, rfl, rfl, ((hexact.1 _ rfl _ _ _ rfl).full rfl).2⟩, rfl, rfl, ?_⟩
  exact ((hexact.2.1 _ rfl _ _ _ rfl).decides _ rfl).resolve_right fun h => h.1 trivial

end ShmSpsc
