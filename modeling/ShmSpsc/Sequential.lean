import ShmSpsc.Consumer
import ShmSpsc.Transition

/-!
# The operations on their own

`try_push`, `push_n`, `front`, `pop()`, `try_pop` and `pop_n` as straight-line functions of
the segment and the handle, for calls with no step of the peer in between. The assertion of
`pop()` makes it partial.

`Solo.tryPush_exec` to `Solo.popN_exec` connect them to the steps of `Producer.act` and
`Consumer.act` : a call, and then steps of its own only, computes the function.
`Solo.batch_eq_single` says that the batch operations are the repeated single ones, in their
result and in every field they leave behind.
-/

namespace ShmSpsc

open Transition

variable {T : Type*}

/-- What an operation reads and writes : the segment and its handle. -/
@[ext]
structure Solo (T : Type*) where
  ring : Ring T
  handle : Handle

attribute [ext] Ring

namespace Solo

/-- `readIdxCache_ = ctrl_->readIdx.load()` -/
def loadRead (s : Solo T) : Solo T :=
  { s with handle := { s.handle with readIdxCache := s.ring.readIdx } }

/-- `writeIdxCache_ = ctrl_->writeIdx.load()` -/
def loadWrite (s : Solo T) : Solo T :=
  { s with handle := { s.handle with writeIdxCache := s.ring.writeIdx } }

/-- The copy to `slots_[w]` and the store to `writeIdx` of `try_push`. -/
def put (s : Solo T) (v : T) : Solo T :=
  let w := s.ring.writeIdx
  { s with ring := { s.ring.setSlot w.toNat v with writeIdx := nextIdx s.handle.capacity w } }

/-- `try_push(v)` -/
def tryPush (s : Solo T) (v : T) : Bool × Solo T :=
  let next := nextIdx s.handle.capacity s.ring.writeIdx
  if next = s.handle.readIdxCache then
    if next = s.loadRead.handle.readIdxCache then (false, s.loadRead)
    else (true, s.loadRead.put v)
  else (true, s.put v)

/-- The first `m` copies of a batch of `count` at index `w`. -/
def copyIn (ring : Ring T) (capacity w count : UInt64) (src : ℕ → T) (m : ℕ) : Ring T :=
  (List.range m).foldl (fun ring j => ring.setSlot (batchSlot capacity w count j) (src j)) ring

/-- The copies and the store to `writeIdx` of `push_n`. -/
def putN (s : Solo T) (src : ℕ → T) (n : UInt64) : UInt64 × Solo T :=
  let capacity := s.handle.capacity
  let w := s.ring.writeIdx
  let count := min n (freeSlots capacity w s.handle.readIdxCache)
  (count, { s with ring := { copyIn s.ring capacity w count src count.toNat with
    writeIdx := nextIdxN capacity w count } })

/-- `push_n(src, n)` -/
def pushN (s : Solo T) (src : ℕ → T) (n : UInt64) : UInt64 × Solo T :=
  let free (r : UInt64) := freeSlots s.handle.capacity s.ring.writeIdx r
  if n = 0 then (0, s)
  else if free s.handle.readIdxCache < n then
    if free s.ring.readIdx = 0 then (0, s.loadRead) else s.loadRead.putN src n
  else s.putN src n

/-- `front()` : the slot of the pointer it returns. -/
def front (s : Solo T) : Option UInt64 × Solo T :=
  let r := s.ring.readIdx
  if r = s.handle.writeIdxCache then
    if r = s.loadWrite.handle.writeIdxCache then (none, s.loadWrite) else (some r, s.loadWrite)
  else (some r, s)

/-- `pop()`, none if its assertion fails. -/
def pop (s : Solo T) : Option (Solo T) :=
  let r := s.ring.readIdx
  if s.ring.writeIdx = r then none
  else some { s with ring := { s.ring with readIdx := nextIdx s.handle.capacity r } }

/-- `try_pop(out)` : the element it copied, if it did. -/
def tryPop (s : Solo T) : Option (Option T × Solo T) :=
  match s.front with
  | (none, s') => some (none, s')
  | (some r, s') => s'.pop.map fun s'' => (some (s'.ring.slots r.toNat), s'')

/-- The copies and the store to `readIdx` of `pop_n`. -/
def takeN (s : Solo T) (n : UInt64) : List T × Solo T :=
  let capacity := s.handle.capacity
  let r := s.ring.readIdx
  let count := min n (usedSlots capacity s.handle.writeIdxCache r)
  ((batchSlots capacity r count).map s.ring.slots,
    { s with ring := { s.ring with readIdx := nextIdxN capacity r count } })

/-- `pop_n(dst, n)` : what it copied to `dst`. -/
def popN (s : Solo T) (n : UInt64) : List T × Solo T :=
  let avail (w : UInt64) := usedSlots s.handle.capacity w s.ring.readIdx
  if n = 0 then ([], s)
  else if avail s.handle.writeIdxCache < n then
    if avail s.ring.writeIdx = 0 then ([], s.loadWrite) else s.loadWrite.takeN n
  else s.takeN n

/-- `try_push` on `src i`, `src (i + 1)`, … until `k` succeed or one fails : how many did,
from `i` on. -/
def pushEach (src : ℕ → T) : ℕ → ℕ → Solo T → ℕ × Solo T
  | 0, i, s => (i, s)
  | k + 1, i, s =>
    match s.tryPush (src i) with
    | (true, s') => pushEach src k (i + 1) s'
    | (false, s') => (i, s')

/-- `try_pop` until `k` succeed or one fails : what was copied. -/
def popEach : ℕ → Solo T → Option (List T × Solo T)
  | 0, s => some ([], s)
  | k + 1, s =>
    s.tryPop.bind fun
      | (some x, s') => (popEach k s').map fun (xs, s'') => (x :: xs, s'')
      | (none, s') => some ([], s')

end Solo

/-! ## The steps of one side, with no other step in between -/

/-- A step of the producer on its own. -/
def Producer.solo (s : Ring T × Producer T) (a : PushAct T) : Option (Ring T × Producer T) :=
  (s.2.act s.1 a).map fun (ring, p, _) => (ring, p)

/-- A step of the consumer on its own. -/
def Consumer.solo (s : Ring T × Consumer T) (a : PopAct) : Option (Ring T × Consumer T) :=
  (s.2.act s.1 a).map fun (ring, q, _) => (ring, q)

namespace Solo

/-- The handle as a producer's, between two calls. -/
def producer (s : Solo T) (ret : Option PushResult) : Ring T × Producer T :=
  (s.ring, ⟨s.handle, .ready ret⟩)

/-- The handle as a consumer's, between two calls. -/
def consumer (s : Solo T) (held : Option UInt64) (peeked : Option T)
    (ret : Option (PopResult T)) : Ring T × Consumer T :=
  (s.ring, ⟨s.handle, held, peeked, .ready ret⟩)

/-- `a`, and then `k` steps. -/
def pushRun (a : PushAct T) (k : ℕ) (s : Ring T × Producer T) : Option (Ring T × Producer T) :=
  exec Producer.solo (fun _ _ => True) s (a :: List.replicate k .step)

/-- `a`, and then `k` steps. -/
def popRun (a : PopAct) (k : ℕ) (s : Ring T × Consumer T) : Option (Ring T × Consumer T) :=
  exec Consumer.solo (fun _ _ => True) s (a :: List.replicate k .step)

/-- The first `k` steps of a call, and then its other ones. -/
theorem pushRun_add (a : PushAct T) (k m : ℕ) (s : Ring T × Producer T) :
    pushRun a (k + m) s = (pushRun a k s).bind fun s' =>
      exec Producer.solo (fun _ _ => True) s' (List.replicate m .step) := by
  rw [pushRun, pushRun, List.replicate_add, ← List.cons_append, exec_append]

theorem popRun_add (a : PopAct) (k m : ℕ) (s : Ring T × Consumer T) :
    popRun a (k + m) s = (popRun a k s).bind fun s' =>
      exec Consumer.solo (fun _ _ => True) s' (List.replicate m .step) := by
  rw [popRun, popRun, List.replicate_add, ← List.cons_append, exec_append]

theorem min_ne_zero {a b : UInt64} (ha : a ≠ 0) (hb : b ≠ 0) : min a b ≠ 0 := by
  intro h
  have hmin := toNat_min a b
  rw [h, UInt64.toNat_zero] at hmin
  rcases Nat.le_total a.toNat b.toNat with hle | hle
  · exact ha (UInt64.toNat_inj.mp (by rw [UInt64.toNat_zero]; omega))
  · exact hb (UInt64.toNat_inj.mp (by rw [UInt64.toNat_zero]; omega))

/-- `try_push`, step by step. -/
theorem tryPush_exec (s : Solo T) (v : T) (ret : Option PushResult) :
    ∃ k, pushRun (.tryPush v) k (s.producer ret) =
      some ((s.tryPush v).2.producer (some (.tryPush (s.tryPush v).1))) := by
  obtain ⟨ring, capacity, rcache, wcache⟩ := s
  by_cases hcache : nextIdx capacity ring.writeIdx = rcache
  · by_cases hfull : nextIdx capacity ring.writeIdx = ring.readIdx
    · refine ⟨3, ?_⟩
      simp [pushRun, exec, Producer.solo, Producer.act, producer, tryPush, loadRead,
        Producer.refresh, hcache, hfull ▸ hcache]
    · refine ⟨5, ?_⟩
      rw [hcache] at hfull
      simp [pushRun, exec, Producer.solo, Producer.act, producer, tryPush, loadRead, put,
        Producer.refresh, hcache, hfull]
  · refine ⟨4, ?_⟩
    simp [pushRun, exec, Producer.solo, Producer.act, producer, tryPush, put, hcache]

theorem copyIn_zero (ring : Ring T) (capacity w count : UInt64) (src : ℕ → T) :
    copyIn ring capacity w count src 0 = ring := rfl

theorem copyIn_succ (ring : Ring T) (capacity w count : UInt64) (src : ℕ → T) (m : ℕ) :
    copyIn ring capacity w count src (m + 1) =
      (copyIn ring capacity w count src m).setSlot (batchSlot capacity w count m) (src m) := by
  simp [copyIn, List.range_succ]

/-- The copies of `push_n`, from element `i` on. -/
theorem pushNCopy_exec (handle : Handle) (ring : Ring T) (src : ℕ → T) (w count : UInt64) :
    ∀ (m i : ℕ), i + (m + 1) = count.toNat →
      exec Producer.solo (fun _ _ => True)
        (copyIn ring handle.capacity w count src i, ⟨handle, .pushNCopy src w count i⟩)
        (List.replicate (m + 1) .step) =
      some (copyIn ring handle.capacity w count src count.toNat,
        ⟨handle, .pushNStore src w count⟩)
  | 0, i, h => by
    have hlast : ¬i + 1 < count.toNat := by omega
    rw [← h]
    simp [exec, Producer.solo, Producer.act, copyIn_succ, ← h]
  | m + 1, i, h => by
    have hmore : i + 1 < count.toNat := by omega
    rw [List.replicate_succ, exec, if_pos trivial]
    simp only [Producer.solo, Producer.act, hmore, if_true, Option.map_some, Option.bind_some,
      ← copyIn_succ]
    exact pushNCopy_exec handle ring src w count m (i + 1) (by omega)

/-- The copies and the store of `push_n`. -/
theorem putN_exec (s : Solo T) (src : ℕ → T) (n : UInt64)
    (hcount : min n (freeSlots s.handle.capacity s.ring.writeIdx s.handle.readIdxCache) ≠ 0) :
    ∃ k, exec Producer.solo (fun _ _ => True)
        (s.ring, ⟨s.handle, .pushNCopy src s.ring.writeIdx
          (min n (freeSlots s.handle.capacity s.ring.writeIdx s.handle.readIdxCache)) 0⟩)
        (List.replicate k .step) =
      some ((s.putN src n).2.producer (some (.pushN (s.putN src n).1))) := by
  obtain ⟨m, hm⟩ := Nat.exists_eq_succ_of_ne_zero fun h => hcount (UInt64.toNat_inj.mp h)
  refine ⟨m + 1 + 1, ?_⟩
  have hcopy := pushNCopy_exec s.handle s.ring src s.ring.writeIdx _ m 0
    (by rw [Nat.zero_add]; exact hm.symm)
  rw [copyIn_zero] at hcopy
  rw [List.replicate_succ', exec_append, hcopy]
  simp [exec, Producer.solo, Producer.act, producer, putN]

/-- `push_n`, step by step. -/
theorem pushN_exec (s : Solo T) (src : ℕ → T) (n : UInt64) (ret : Option PushResult) :
    ∃ k, pushRun (.pushN src n) k (s.producer ret) =
      some ((s.pushN src n).2.producer (some (.pushN (s.pushN src n).1))) := by
  by_cases hn : n = 0
  · refine ⟨0, ?_⟩
    simp [pushRun, exec, Producer.solo, Producer.act, producer, pushN, hn]
  by_cases hcache : freeSlots s.handle.capacity s.ring.writeIdx s.handle.readIdxCache < n
  · by_cases hfull : freeSlots s.handle.capacity s.ring.writeIdx s.ring.readIdx = 0
    · refine ⟨3, ?_⟩
      simp [pushRun, exec, Producer.solo, Producer.act, producer, pushN, hn, hcache, hfull,
        Producer.refresh, loadRead]
    · obtain ⟨k, hk⟩ := s.loadRead.putN_exec src n (min_ne_zero hn hfull)
      have hstart : pushRun (.pushN src n) 3 (s.producer ret) =
          some (s.ring, ⟨s.loadRead.handle, .pushNCopy src s.ring.writeIdx
            (min n (freeSlots s.handle.capacity s.ring.writeIdx s.ring.readIdx)) 0⟩) := by
        simp [pushRun, exec, Producer.solo, Producer.act, producer, hn, hcache, hfull,
          Producer.refresh, loadRead]
      refine ⟨3 + k, ?_⟩
      rw [pushRun_add, hstart, Option.bind_some, pushN, if_neg hn, if_pos hcache, if_neg hfull]
      exact hk
  · have hfree : freeSlots s.handle.capacity s.ring.writeIdx s.handle.readIdxCache ≠ 0 := by
      rintro h
      rw [h, UInt64.not_lt, UInt64.le_iff_toNat_le] at hcache
      exact hn (UInt64.toNat_inj.mp (Nat.le_zero.mp hcache))
    obtain ⟨k, hk⟩ := s.putN_exec src n (min_ne_zero hn hfree)
    have hstart : pushRun (.pushN src n) 2 (s.producer ret) =
        some (s.ring, ⟨s.handle, .pushNCopy src s.ring.writeIdx
          (min n (freeSlots s.handle.capacity s.ring.writeIdx s.handle.readIdxCache)) 0⟩) := by
      simp [pushRun, exec, Producer.solo, Producer.act, producer, hn, hcache]
    refine ⟨2 + k, ?_⟩
    rw [pushRun_add, hstart, Option.bind_some, pushN, if_neg hn, if_neg hcache]
    exact hk

/-- `front`, step by step. -/
theorem front_exec (s : Solo T) (held : Option UInt64) (peeked : Option T)
    (ret : Option (PopResult T)) :
    ∃ k, popRun .front k (s.consumer held peeked ret) =
      some (s.front.2.consumer s.front.1 none (some (.front s.front.1))) := by
  obtain ⟨ring, capacity, rcache, wcache⟩ := s
  by_cases hcache : ring.readIdx = wcache
  · by_cases hempty : ring.readIdx = ring.writeIdx
    · refine ⟨3, ?_⟩
      simp [popRun, exec, Consumer.solo, Consumer.act, consumer, front, loadWrite,
        Consumer.refresh, Consumer.frontNull, ← hcache, hempty]
    · refine ⟨3, ?_⟩
      simp [popRun, exec, Consumer.solo, Consumer.act, consumer, front, loadWrite,
        Consumer.refresh, Consumer.frontSlot, ← hcache, hempty]
  · refine ⟨2, ?_⟩
    simp [popRun, exec, Consumer.solo, Consumer.act, consumer, front, Consumer.frontSlot, hcache]

/-- `pop()` on a held pointer, step by step. -/
theorem pop_exec {s s' : Solo T} (hpop : s.pop = some s') (r : UInt64) (peeked : Option T)
    (ret : Option (PopResult T)) :
    ∃ k, popRun .pop k (s.consumer (some r) peeked ret) =
      some (s'.consumer none none (some .pop)) := by
  simp only [pop] at hpop
  split_ifs at hpop with hassert
  obtain rfl := Option.some.inj hpop
  refine ⟨3, ?_⟩
  simp [popRun, exec, Consumer.solo, Consumer.act, consumer, hassert, Consumer.released,
    PopBy.result]

/-- The copy and the `pop()` of `try_pop`. -/
theorem tryPopCopy_exec {s s' : Solo T} (hpop : s.pop = some s') (held : Option UInt64)
    (peeked : Option T) :
    exec Consumer.solo (fun _ _ => True)
        (s.ring, ⟨s.handle, held, peeked, .tryPopCopy s.ring.readIdx⟩) (List.replicate 4 .step) =
      some (s'.consumer none none
        (some (.tryPop (some (s.ring.slots s.ring.readIdx.toNat))))) := by
  simp only [pop] at hpop
  split_ifs at hpop with hassert
  obtain rfl := Option.some.inj hpop
  simp [exec, Consumer.solo, Consumer.act, consumer, hassert, Consumer.released, PopBy.result]

/-- `try_pop`, step by step. A pointer held before it is gone if it took the element. -/
theorem tryPop_exec {s s' : Solo T} {out : Option T} (hpop : s.tryPop = some (out, s'))
    (held : Option UInt64) (peeked : Option T) (ret : Option (PopResult T)) :
    ∃ k held' peeked', popRun .tryPop k (s.consumer held peeked ret) =
      some (s'.consumer held' peeked' (some (.tryPop out))) := by
  by_cases hcache : s.ring.readIdx = s.handle.writeIdxCache
  · by_cases hempty : s.ring.readIdx = s.ring.writeIdx
    · have hfront : s.front = (none, s.loadWrite) := by simp [front, hcache, loadWrite, ← hempty]
      simp only [tryPop, hfront, Option.some.injEq, Prod.mk.injEq] at hpop
      obtain ⟨rfl, rfl⟩ := hpop
      refine ⟨3, held, peeked, ?_⟩
      simp [popRun, exec, Consumer.solo, Consumer.act, consumer, Consumer.refresh, loadWrite,
        Consumer.frontNull, ← hcache, hempty]
    · have hfront : s.front = (some s.ring.readIdx, s.loadWrite) := by
        simp [front, loadWrite, ← hcache, hempty]
      simp only [tryPop, hfront, Option.map_eq_some_iff, Prod.mk.injEq] at hpop
      obtain ⟨s'', hpop, rfl, rfl⟩ := hpop
      have hstart : popRun .tryPop 3 (s.consumer held peeked ret) =
          some (s.ring, ⟨s.loadWrite.handle, held, peeked, .tryPopCopy s.ring.readIdx⟩) := by
        simp [popRun, exec, Consumer.solo, Consumer.act, consumer, loadWrite, Consumer.refresh,
          Consumer.frontSlot, ← hcache, hempty]
      refine ⟨3 + 4, none, none, ?_⟩
      rw [popRun_add, hstart, Option.bind_some]
      exact tryPopCopy_exec hpop held peeked
  · have hfront : s.front = (some s.ring.readIdx, s) := by simp [front, hcache]
    simp only [tryPop, hfront, Option.map_eq_some_iff, Prod.mk.injEq] at hpop
    obtain ⟨s'', hpop, rfl, rfl⟩ := hpop
    have hstart : popRun .tryPop 2 (s.consumer held peeked ret) =
        some (s.ring, ⟨s.handle, held, peeked, .tryPopCopy s.ring.readIdx⟩) := by
      simp [popRun, exec, Consumer.solo, Consumer.act, consumer, Consumer.frontSlot, hcache]
    refine ⟨2 + 4, none, none, ?_⟩
    rw [popRun_add, hstart, Option.bind_some]
    exact tryPopCopy_exec hpop held peeked

/-- The copies of `pop_n`, from the element behind the first `i` on. -/
theorem popNCopy_exec (handle : Handle) (ring : Ring T) (held : Option UInt64)
    (peeked : Option T) (r count : UInt64) :
    ∀ (m i : ℕ), i + (m + 1) = count.toNat →
      exec Consumer.solo (fun _ _ => True)
        (ring, ⟨handle, held, peeked, .popNCopy r count
          ((List.range i).map fun j => ring.slots (batchSlot handle.capacity r count j))⟩)
        (List.replicate (m + 1) .step) =
      some (ring, ⟨handle, held, peeked,
        .popNStore r count ((batchSlots handle.capacity r count).map ring.slots)⟩)
  | 0, i, h => by
    have hlast : ¬i + 1 < count.toNat := by omega
    simp [exec, Consumer.solo, Consumer.act, batchSlots, ← h, List.range_succ]
  | m + 1, i, h => by
    have hmore : i + 1 < count.toNat := by omega
    have hnext := popNCopy_exec handle ring held peeked r count m (i + 1) (by omega)
    rw [List.replicate_succ, exec, if_pos trivial]
    simpa [Consumer.solo, Consumer.act, hmore, List.range_succ] using hnext

/-- The copies and the store of `pop_n`. -/
theorem takeN_exec (s : Solo T) (n : UInt64) (held : Option UInt64) (peeked : Option T)
    (hcount : min n (usedSlots s.handle.capacity s.handle.writeIdxCache s.ring.readIdx) ≠ 0) :
    ∃ k, exec Consumer.solo (fun _ _ => True)
        (s.ring, ⟨s.handle, held, peeked, .popNCopy s.ring.readIdx
          (min n (usedSlots s.handle.capacity s.handle.writeIdxCache s.ring.readIdx)) []⟩)
        (List.replicate k .step) =
      some ((s.takeN n).2.consumer none none (some (.popN (s.takeN n).1))) := by
  obtain ⟨m, hm⟩ := Nat.exists_eq_succ_of_ne_zero fun h => hcount (UInt64.toNat_inj.mp h)
  refine ⟨m + 1 + 1, ?_⟩
  have hcopy := popNCopy_exec s.handle s.ring held peeked s.ring.readIdx _ m 0
    (by rw [Nat.zero_add]; exact hm.symm)
  rw [List.range_zero, List.map_nil] at hcopy
  rw [List.replicate_succ', exec_append, hcopy]
  simp [exec, Consumer.solo, Consumer.act, consumer, takeN, Consumer.released]

/-- `pop_n`, step by step. -/
theorem popN_exec (s : Solo T) (n : UInt64) (held : Option UInt64) (peeked : Option T)
    (ret : Option (PopResult T)) :
    ∃ k held' peeked', popRun (.popN n) k (s.consumer held peeked ret) =
      some ((s.popN n).2.consumer held' peeked' (some (.popN (s.popN n).1))) := by
  by_cases hn : n = 0
  · refine ⟨0, held, peeked, ?_⟩
    simp [popRun, exec, Consumer.solo, Consumer.act, consumer, popN, hn]
  by_cases hcache : usedSlots s.handle.capacity s.handle.writeIdxCache s.ring.readIdx < n
  · by_cases hempty : usedSlots s.handle.capacity s.ring.writeIdx s.ring.readIdx = 0
    · refine ⟨3, held, peeked, ?_⟩
      simp [popRun, exec, Consumer.solo, Consumer.act, consumer, popN, hn, hcache, hempty,
        Consumer.refresh, loadWrite]
    · obtain ⟨k, hk⟩ := s.loadWrite.takeN_exec n held peeked (min_ne_zero hn hempty)
      have hstart : popRun (.popN n) 3 (s.consumer held peeked ret) =
          some (s.ring, ⟨s.loadWrite.handle, held, peeked, .popNCopy s.ring.readIdx
            (min n (usedSlots s.handle.capacity s.ring.writeIdx s.ring.readIdx)) []⟩) := by
        simp [popRun, exec, Consumer.solo, Consumer.act, consumer, hn, hcache, hempty,
          Consumer.refresh, loadWrite]
      refine ⟨3 + k, none, none, ?_⟩
      rw [popRun_add, hstart, Option.bind_some, popN, if_neg hn, if_pos hcache, if_neg hempty]
      exact hk
  · have havail : usedSlots s.handle.capacity s.handle.writeIdxCache s.ring.readIdx ≠ 0 := by
      intro h
      rw [h, UInt64.not_lt, UInt64.le_iff_toNat_le] at hcache
      exact hn (UInt64.toNat_inj.mp (Nat.le_zero.mp hcache))
    obtain ⟨k, hk⟩ := s.takeN_exec n held peeked (min_ne_zero hn havail)
    have hstart : popRun (.popN n) 2 (s.consumer held peeked ret) =
        some (s.ring, ⟨s.handle, held, peeked, .popNCopy s.ring.readIdx
          (min n (usedSlots s.handle.capacity s.handle.writeIdxCache s.ring.readIdx)) []⟩) := by
      simp [popRun, exec, Consumer.solo, Consumer.act, consumer, hn, hcache]
    refine ⟨2 + k, none, none, ?_⟩
    rw [popRun_add, hstart, Option.bind_some, popN, if_neg hn, if_neg hcache]
    exact hk

/-! ## `push_n` and repeated `try_push` -/

/-- A handle that may push : the segment holds the log, and the cached `readIdx` is a legal
one, however stale. -/
structure CanPush (c : Capacity) (log : Log T) (s : Solo T) : Prop where
  capacity : s.handle.capacity = c.slots
  ring : s.ring.Holds c log
  cache : ReadCache c log s.handle.readIdxCache 0

/-- The cached `readIdx` is loaded again if it shows less than `k` free slots. -/
def refreshRead (s : Solo T) (k : ℕ) : Solo T :=
  if (freeSlots s.handle.capacity s.ring.writeIdx s.handle.readIdxCache).toNat < k then s.loadRead
  else s

/-- `put` on `src i`, `src (i + 1)`, … -/
def puts (src : ℕ → T) : ℕ → ℕ → Solo T → Solo T
  | 0, _, s => s
  | m + 1, i, s => puts src m (i + 1) (s.put (src i))

section Push

variable {c : Capacity} {log : Log T} {s : Solo T}

theorem CanPush.loadRead (h : s.CanPush c log) : s.loadRead.CanPush c log :=
  ⟨h.capacity, h.ring, .of_load h.ring h.cache.room⟩

theorem CanPush.refreshRead (h : s.CanPush c log) (k : ℕ) : (s.refreshRead k).CanPush c log := by
  unfold Solo.refreshRead
  split_ifs
  · exact h.loadRead
  · exact h

/-- The free slots, and those the cache shows. -/
theorem CanPush.freeSlots_le (h : s.CanPush c log) :
    (freeSlots s.handle.capacity s.ring.writeIdx s.ring.readIdx).toNat =
        c.slots.toNat - 1 - log.held ∧
      (freeSlots s.handle.capacity s.ring.writeIdx s.handle.readIdxCache).toNat ≤
        c.slots.toNat - 1 - log.held := by
  obtain ⟨C, hcache, hC, hroom⟩ := h.cache
  have hle := h.ring.le
  rw [h.capacity, toNat_freeSlots c h.ring.write h.ring.read hle h.ring.room,
    toNat_freeSlots c h.ring.write hcache (by omega) (by omega), Log.held]
  omega

/-- `try_push` sees no room through an index exactly if no slot is free by it. -/
theorem CanPush.next_eq_iff (h : s.CanPush c log) :
    nextIdx s.handle.capacity s.ring.writeIdx = s.handle.readIdxCache ↔
      (freeSlots s.handle.capacity s.ring.writeIdx s.handle.readIdxCache).toNat < 1 := by
  obtain ⟨C, hcache, hC, hroom⟩ := h.cache
  have hle := h.ring.le
  rw [h.capacity, toNat_freeSlots c h.ring.write hcache (by omega) (by omega),
    nextIdx_eq_iff c h.ring.write hcache (by omega) (by omega)]
  have := c.pos
  omega

/-- An element put into a free slot is published. -/
theorem CanPush.put (h : s.CanPush c log) (v : T)
    (hfree : 0 < (freeSlots s.handle.capacity s.ring.writeIdx s.handle.readIdxCache).toNat) :
    (s.put v).CanPush c (log.publish [v]) := by
  have hcache : ReadCache c log s.handle.readIdxCache 1 :=
    h.cache.of_le_freeSlots h.ring (by rw [← h.capacity]; exact hfree)
  have hcopy := h.ring.copy (k := 0) v (by have := hcache.room; omega)
  rw [Nat.add_zero, ← h.ring.write] at hcopy
  refine ⟨h.capacity, ?_, ReadCache.publish hcache⟩
  simp only [Solo.put, h.capacity]
  refine hcopy.publish (toNat_nextIdx c h.ring.write) hcache.room fun j hj => ?_
  obtain rfl : j = 0 := by simpa using hj
  rw [Nat.add_zero, ← h.ring.write, Ring.setSlot_self]
  rfl

/-- A put uses one slot up. -/
theorem CanPush.freeSlots_put (h : s.CanPush c log) (v : T)
    (hfree : 0 < (freeSlots s.handle.capacity s.ring.writeIdx s.handle.readIdxCache).toNat) :
    (freeSlots (s.put v).handle.capacity (s.put v).ring.writeIdx
        (s.put v).handle.readIdxCache).toNat + 1 =
      (freeSlots s.handle.capacity s.ring.writeIdx s.handle.readIdxCache).toNat := by
  have h' := h.put v hfree
  obtain ⟨C, hcache, hC, hroom⟩ := h'.cache
  simp only [Log.publish_released, Log.publish_published, List.length_append,
    List.length_singleton] at hC hroom
  have hle := h.ring.le
  have hcache' : s.handle.readIdxCache.toNat = C % c.slots.toNat := hcache
  have hwrite := h'.ring.write
  simp only [Log.publish_published, List.length_append, List.length_singleton] at hwrite
  rw [h'.capacity, toNat_freeSlots c hwrite hcache (by omega) (by omega), h.capacity,
    toNat_freeSlots c h.ring.write hcache' (by omega) (by omega)]
  omega

/-- `try_push` with a free slot. -/
theorem CanPush.tryPush_of_room (h : s.CanPush c log) (v : T)
    (hroom : 0 < c.slots.toNat - 1 - log.held) :
    s.tryPush v = (true, (s.refreshRead 1).put v) := by
  have hload := h.loadRead.next_eq_iff
  have hfree := h.freeSlots_le.1
  have hne : nextIdx s.handle.capacity s.ring.writeIdx ≠ s.ring.readIdx := by
    intro heq
    have := hload.mp heq
    simp only [Solo.loadRead] at this
    omega
  simp only [Solo.tryPush, Solo.refreshRead, h.next_eq_iff]
  split_ifs with hcache heq
  · exact absurd heq hne
  · rfl
  · rfl

/-- `try_push` on a full ring. -/
theorem CanPush.tryPush_of_full (h : s.CanPush c log) (v : T)
    (hfull : c.slots.toNat - 1 - log.held = 0) : s.tryPush v = (false, s.loadRead) := by
  obtain ⟨hfree, hcached⟩ := h.freeSlots_le
  have heq : nextIdx s.handle.capacity s.ring.writeIdx = s.loadRead.handle.readIdxCache := by
    refine h.loadRead.next_eq_iff.mpr ?_
    simp only [Solo.loadRead]
    omega
  have hcache := h.next_eq_iff.mpr (by omega)
  simp only [Solo.tryPush]
  rw [if_pos hcache, if_pos heq]

/-- The loads of repeated `try_push` are the one load of `push_n`. -/
theorem CanPush.refreshRead_put (h : s.CanPush c log) (v : T) (k : ℕ) :
    ((s.refreshRead 1).put v).refreshRead k = (s.refreshRead (k + 1)).put v := by
  by_cases hcache : (freeSlots s.handle.capacity s.ring.writeIdx s.handle.readIdxCache).toNat < 1
  · have h1 : s.refreshRead 1 = s.loadRead := if_pos hcache
    have h2 : s.refreshRead (k + 1) = s.loadRead := if_pos (by omega)
    rw [h1, h2]
    exact ite_self _
  · have h1 : s.refreshRead 1 = s := if_neg hcache
    have hput := h.freeSlots_put v (by omega)
    rw [h1]
    unfold Solo.refreshRead
    split_ifs with hk hk' hk'
    · rfl
    · omega
    · omega
    · rfl

theorem CanPush.refreshRead_free (h : s.CanPush c log) {k : ℕ}
    (hk : k ≤ c.slots.toNat - 1 - log.held) :
    k ≤ (freeSlots (s.refreshRead k).handle.capacity (s.refreshRead k).ring.writeIdx
      (s.refreshRead k).handle.readIdxCache).toNat := by
  unfold Solo.refreshRead
  split_ifs with hcache
  · exact hk.trans h.freeSlots_le.1.ge
  · exact not_lt.mp hcache

/-- Repeated `try_push` puts what fits, and loads `readIdx` if the cache shows too little. -/
theorem CanPush.pushEach_eq (src : ℕ → T) :
    ∀ (k i : ℕ) {log : Log T} {s : Solo T}, s.CanPush c log →
      pushEach src k i s = (i + min k (c.slots.toNat - 1 - log.held),
        puts src (min k (c.slots.toNat - 1 - log.held)) i (s.refreshRead k))
  | 0, i, log, s, _ => by simp [pushEach, puts, Solo.refreshRead]
  | k + 1, i, log, s, h => by
    rcases Nat.eq_zero_or_pos (c.slots.toNat - 1 - log.held) with hfull | hroom
    · have hload : s.refreshRead (k + 1) = s.loadRead :=
        if_pos (by have := h.freeSlots_le.2; omega)
      simp [pushEach, h.tryPush_of_full _ hfull, hfull, hload, puts]
    · have hput := (h.refreshRead 1).put (src i) (h.refreshRead_free hroom)
      have hheld : (log.publish [src i]).held = log.held + 1 := by
        have := h.ring.le
        simp only [Log.held, Log.publish_published, Log.publish_released, List.length_append,
          List.length_singleton]
        omega
      have hmin : min (k + 1) (c.slots.toNat - 1 - log.held) =
          min k (c.slots.toNat - 1 - (log.held + 1)) + 1 := by omega
      rw [pushEach, h.tryPush_of_room _ hroom]
      simp only [CanPush.pushEach_eq src k (i + 1) hput, hheld, h.refreshRead_put, hmin,
        puts, Prod.mk.injEq, and_true]
      omega

theorem puts_succ (src : ℕ → T) :
    ∀ (m i : ℕ) (s : Solo T), puts src (m + 1) i s = (puts src m i s).put (src (i + m))
  | 0, _, _ => rfl
  | m + 1, i, s => by
    rw [puts, puts_succ src m (i + 1), puts, Nat.add_right_comm, Nat.add_assoc]

/-- The first `m` puts are the first `m` copies of a batch, and an index moved by `m`. -/
theorem CanPush.puts_eq (h : s.CanPush c log) (src : ℕ → T) {count : UInt64}
    (hcount : count.toNat < c.slots.toNat) :
    ∀ m ≤ count.toNat,
      (puts src m 0 s).handle = s.handle ∧
        (puts src m 0 s).ring.slots =
          (copyIn s.ring s.handle.capacity s.ring.writeIdx count src m).slots ∧
        (puts src m 0 s).ring.readIdx = s.ring.readIdx ∧
        (puts src m 0 s).ring.writeIdx.toNat = (log.published.length + m) % c.slots.toNat
  | 0, _ => ⟨rfl, rfl, rfl, h.ring.write⟩
  | m + 1, hm => by
    obtain ⟨hhandle, hslots, hread, hwrite⟩ := CanPush.puts_eq h src hcount m (by omega)
    have hcell := batchSlot_eq c h.ring.write hcount (j := m) (by omega)
    rw [puts_succ, copyIn_succ]
    refine ⟨hhandle, ?_, hread, ?_⟩
    · simp only [Solo.put, Ring.setSlot, hslots, hwrite, h.capacity, hcell, Nat.zero_add]
    · simp only [Solo.put, hhandle, h.capacity]
      exact toNat_nextIdx c hwrite

theorem copyIn_idx (ring : Ring T) (capacity w count : UInt64) (src : ℕ → T) :
    ∀ m, (copyIn ring capacity w count src m).readIdx = ring.readIdx
  | 0 => rfl
  | m + 1 => by
    rw [copyIn_succ]
    exact copyIn_idx ring capacity w count src m

/-- The copies and the store of `push_n` are as many puts. -/
theorem CanPush.putN_eq (h : s.CanPush c log) (src : ℕ → T) (n : UInt64) :
    (s.putN src n).2 = puts src (s.putN src n).1.toNat 0 s := by
  have hcount : (min n (freeSlots s.handle.capacity s.ring.writeIdx
      s.handle.readIdxCache)).toNat < c.slots.toNat := by
    have hfree := h.freeSlots_le.2
    have := c.pos
    rw [toNat_min]
    omega
  obtain ⟨hhandle, hslots, hread, hwrite⟩ := h.puts_eq src hcount _ le_rfl
  have hnext := toNat_nextIdxN c h.ring.write hcount
  rw [← hwrite, ← h.capacity, UInt64.toNat_inj] at hnext
  refine Solo.ext (Ring.ext ?_ ?_ ?_) hhandle.symm
  · exact hnext
  · exact (copyIn_idx ..).trans hread.symm
  · exact hslots.symm

/-- `push_n` puts what fits, and loads `readIdx` if the cache shows too little. -/
theorem CanPush.pushN_eq (h : s.CanPush c log) (src : ℕ → T) (n : UInt64) :
    (s.pushN src n).1.toNat = min n.toNat (c.slots.toNat - 1 - log.held) ∧
      (s.pushN src n).2 =
        puts src (min n.toNat (c.slots.toNat - 1 - log.held)) 0 (s.refreshRead n.toNat) := by
  obtain ⟨hfree, hcached⟩ := h.freeSlots_le
  by_cases hn : n = 0
  · subst hn
    simp [Solo.pushN, puts, Solo.refreshRead]
  by_cases hcache : freeSlots s.handle.capacity s.ring.writeIdx s.handle.readIdxCache < n
  · have hload : s.refreshRead n.toNat = s.loadRead := if_pos hcache
    by_cases hfull : freeSlots s.handle.capacity s.ring.writeIdx s.ring.readIdx = 0
    · rw [hfull, UInt64.toNat_zero] at hfree
      simp [Solo.pushN, hn, hcache, hfull, ← hfree, hload, puts]
    · have hcount : (s.loadRead.putN src n).1.toNat =
          min n.toNat (c.slots.toNat - 1 - log.held) := by
        rw [← hfree]
        exact toNat_min _ _
      simp only [Solo.pushN, hn, hcache, hfull, if_true, if_false, hload]
      exact ⟨hcount, hcount ▸ h.loadRead.putN_eq src n⟩
  · have hkeep : s.refreshRead n.toNat = s := if_neg hcache
    have hle : n.toNat ≤ (freeSlots s.handle.capacity s.ring.writeIdx
        s.handle.readIdxCache).toNat := not_lt.mp hcache
    have hcount : (s.putN src n).1.toNat = min n.toNat (c.slots.toNat - 1 - log.held) := by
      refine (toNat_min _ _).trans ?_
      omega
    simp only [Solo.pushN, hn, hcache, if_false, hkeep]
    exact ⟨hcount, hcount ▸ h.putN_eq src n⟩

end Push

/-! ## `pop_n` and repeated `try_pop` -/

/-- A handle that may pop : the segment holds the log, and the cached `writeIdx` is a legal
one, however stale. -/
structure CanPop (c : Capacity) (log : Log T) (s : Solo T) : Prop where
  capacity : s.handle.capacity = c.slots
  ring : s.ring.Holds c log
  cache : WriteCache c log s.handle.writeIdxCache 0

/-- The cached `writeIdx` is loaded again if it shows less than `k` elements. -/
def refreshWrite (s : Solo T) (k : ℕ) : Solo T :=
  if (usedSlots s.handle.capacity s.handle.writeIdxCache s.ring.readIdx).toNat < k then s.loadWrite
  else s

/-- The store to `readIdx` of `pop()`. -/
def take (s : Solo T) : Solo T :=
  { s with ring := { s.ring with readIdx := nextIdx s.handle.capacity s.ring.readIdx } }

/-- `take`, `m` times. -/
def takes : ℕ → Solo T → Solo T
  | 0, s => s
  | m + 1, s => takes m s.take

section Pop

variable {c : Capacity} {log : Log T} {s : Solo T}

theorem CanPop.loadWrite (h : s.CanPop c log) : s.loadWrite.CanPop c log :=
  ⟨h.capacity, h.ring, .of_load h.ring h.ring.le⟩

theorem CanPop.refreshWrite (h : s.CanPop c log) (k : ℕ) : (s.refreshWrite k).CanPop c log := by
  unfold Solo.refreshWrite
  split_ifs
  · exact h.loadWrite
  · exact h

/-- The elements there are, and those the cache shows. -/
theorem CanPop.usedSlots_le (h : s.CanPop c log) :
    (usedSlots s.handle.capacity s.ring.writeIdx s.ring.readIdx).toNat = log.held ∧
      (usedSlots s.handle.capacity s.handle.writeIdxCache s.ring.readIdx).toNat ≤ log.held := by
  obtain ⟨D, hcache, hD, hD'⟩ := h.cache
  have hroom := h.ring.room
  rw [h.capacity, toNat_usedSlots c h.ring.write h.ring.read h.ring.le hroom,
    toNat_usedSlots c hcache h.ring.read (by omega) (by omega), Log.held]
  omega

/-- `front` sees no element through an index exactly if there is none by it. -/
theorem CanPop.read_eq_iff (h : s.CanPop c log) :
    s.ring.readIdx = s.handle.writeIdxCache ↔
      (usedSlots s.handle.capacity s.handle.writeIdxCache s.ring.readIdx).toNat < 1 := by
  obtain ⟨D, hcache, hD, hD'⟩ := h.cache
  have hroom := h.ring.room
  rw [h.capacity, toNat_usedSlots c hcache h.ring.read (by omega) (by omega),
    cell_eq_iff c hcache h.ring.read (by omega) (by omega)]
  omega

/-- The oldest element is the first of those waiting. -/
theorem CanPop.waiting_eq (h : s.CanPop c log) (hheld : 0 < log.held) :
    log.waiting = s.ring.slots s.ring.readIdx.toNat ::
      (log.release [s.ring.slots s.ring.readIdx.toNat]).waiting := by
  have hlt : log.released.length < log.published.length := Nat.lt_of_sub_pos hheld
  have hcell := h.ring.cell _ le_rfl hlt
  rw [← h.ring.read, List.getElem?_eq_getElem hlt] at hcell
  rw [Log.waiting, List.drop_eq_getElem_cons hlt, Option.some.inj hcell]
  simp [Log.waiting]

/-- The oldest element is released by the store. -/
theorem CanPop.take (h : s.CanPop c log)
    (hused : 0 < (usedSlots s.handle.capacity s.handle.writeIdxCache s.ring.readIdx).toNat) :
    s.take.CanPop c (log.release [s.ring.slots s.ring.readIdx.toNat]) := by
  have hcache : WriteCache c log s.handle.writeIdxCache 1 :=
    h.cache.of_le_usedSlots h.ring (by rw [← h.capacity]; exact hused)
  have hold := Consumer.oldest_slot h.ring hcache.le
  refine ⟨h.capacity, ?_, WriteCache.release hcache⟩
  simp only [Solo.take, h.capacity]
  exact h.ring.release (toNat_nextIdx c h.ring.read) hold

/-- A take uses one element up. -/
theorem CanPop.usedSlots_take (h : s.CanPop c log)
    (hused : 0 < (usedSlots s.handle.capacity s.handle.writeIdxCache s.ring.readIdx).toNat) :
    (usedSlots s.take.handle.capacity s.take.handle.writeIdxCache s.take.ring.readIdx).toNat + 1 =
      (usedSlots s.handle.capacity s.handle.writeIdxCache s.ring.readIdx).toNat := by
  have h' := h.take hused
  obtain ⟨D, hcache, hD, hD'⟩ := h'.cache
  simp only [Log.release_released, Log.release_published, List.length_append,
    List.length_singleton] at hD hD'
  have hroom := h.ring.room
  have hcache' : s.handle.writeIdxCache.toNat = D % c.slots.toNat := hcache
  have hread := h'.ring.read
  simp only [Log.release_released, List.length_append, List.length_singleton] at hread
  rw [h'.capacity, toNat_usedSlots c hcache hread (by omega) (by omega), h.capacity,
    toNat_usedSlots c hcache' h.ring.read (by omega) (by omega)]
  omega

/-- The assertion of `pop()` holds with an element there. -/
theorem CanPop.pop_eq (h : s.CanPop c log) (hheld : 0 < log.held) : s.pop = some s.take := by
  have hne : ¬s.ring.writeIdx = s.ring.readIdx := by
    intro heq
    have hiff := cell_eq_iff c h.ring.write h.ring.read h.ring.le h.ring.room
    have := hiff.mp heq.symm
    rw [Log.held] at hheld
    omega
  exact if_neg hne

/-- `try_pop` with an element there. -/
theorem CanPop.tryPop_of_held (h : s.CanPop c log) (hheld : 0 < log.held) :
    s.tryPop = some (some (s.ring.slots s.ring.readIdx.toNat), (s.refreshWrite 1).take) := by
  have hused := h.usedSlots_le.1
  have hne : ¬s.ring.readIdx = s.loadWrite.handle.writeIdxCache := by
    intro heq
    have := h.loadWrite.read_eq_iff.mp heq
    simp only [Solo.loadWrite] at this
    omega
  have hfront : s.front = (some s.ring.readIdx, s.refreshWrite 1) := by
    simp only [Solo.front, Solo.refreshWrite, h.read_eq_iff, if_neg hne]
    split_ifs <;> rfl
  have hring : (s.refreshWrite 1).ring = s.ring := by
    unfold Solo.refreshWrite
    split_ifs <;> rfl
  simp only [Solo.tryPop, hfront, (h.refreshWrite 1).pop_eq hheld, Option.map_some, hring]

/-- `try_pop` on an empty ring. -/
theorem CanPop.tryPop_of_empty (h : s.CanPop c log) (hempty : log.held = 0) :
    s.tryPop = some (none, s.loadWrite) := by
  obtain ⟨hused, hcached⟩ := h.usedSlots_le
  have heq : s.ring.readIdx = s.loadWrite.handle.writeIdxCache := by
    refine h.loadWrite.read_eq_iff.mpr ?_
    simp only [Solo.loadWrite]
    omega
  have hcache := h.read_eq_iff.mpr (by omega)
  have hfront : s.front = (none, s.loadWrite) := by
    simp only [Solo.front]
    rw [if_pos hcache, if_pos heq]
  simp only [Solo.tryPop, hfront]

/-- The loads of repeated `try_pop` are the one load of `pop_n`. -/
theorem CanPop.refreshWrite_take (h : s.CanPop c log) (k : ℕ) :
    (s.refreshWrite 1).take.refreshWrite k = (s.refreshWrite (k + 1)).take := by
  by_cases hcache : (usedSlots s.handle.capacity s.handle.writeIdxCache s.ring.readIdx).toNat < 1
  · have h1 : s.refreshWrite 1 = s.loadWrite := if_pos hcache
    have h2 : s.refreshWrite (k + 1) = s.loadWrite := if_pos (by omega)
    rw [h1, h2]
    exact ite_self _
  · have h1 : s.refreshWrite 1 = s := if_neg hcache
    have htake := h.usedSlots_take (by omega)
    rw [h1]
    unfold Solo.refreshWrite
    split_ifs with hk hk' hk'
    · rfl
    · omega
    · omega
    · rfl

theorem CanPop.refreshWrite_used (h : s.CanPop c log) {k : ℕ} (hk : k ≤ log.held) :
    k ≤ (usedSlots (s.refreshWrite k).handle.capacity (s.refreshWrite k).handle.writeIdxCache
      (s.refreshWrite k).ring.readIdx).toNat := by
  unfold Solo.refreshWrite
  split_ifs with hcache
  · exact hk.trans h.usedSlots_le.1.ge
  · exact not_lt.mp hcache

theorem refreshWrite_ring (s : Solo T) (k : ℕ) : (s.refreshWrite k).ring = s.ring := by
  unfold Solo.refreshWrite
  split_ifs <;> rfl

/-- Repeated `try_pop` takes what is there, oldest first, and loads `writeIdx` if the cache
shows too little. -/
theorem CanPop.popEach_eq :
    ∀ (k : ℕ) {log : Log T} {s : Solo T}, s.CanPop c log →
      popEach k s = some (log.waiting.take k, takes (min k log.held) (s.refreshWrite k))
  | 0, log, s, _ => by simp [popEach, takes, Solo.refreshWrite]
  | k + 1, log, s, h => by
    rcases Nat.eq_zero_or_pos log.held with hempty | hheld
    · have hload : s.refreshWrite (k + 1) = s.loadWrite :=
        if_pos (by have := h.usedSlots_le.2; omega)
      have hnil : log.waiting = [] := log.waiting_eq_nil hempty
      simp [popEach, h.tryPop_of_empty hempty, hempty, hload, takes, hnil]
    · have htake := (h.refreshWrite 1).take (h.refreshWrite_used hheld)
      rw [refreshWrite_ring] at htake
      have hrest : (log.release [s.ring.slots s.ring.readIdx.toNat]).held = log.held - 1 := by
        simp only [Log.held, Log.release_published, Log.release_released, List.length_append,
          List.length_singleton]
        omega
      have hmin : min (k + 1) log.held = min k (log.held - 1) + 1 := by omega
      simp only [popEach, h.tryPop_of_held hheld, Option.bind_some,
        CanPop.popEach_eq k htake, h.refreshWrite_take, Option.map_some, hrest, hmin, takes]
      rw [h.waiting_eq hheld, List.take_succ_cons]

theorem takes_succ : ∀ (m : ℕ) (s : Solo T), takes (m + 1) s = (takes m s).take
  | 0, _ => rfl
  | m + 1, s => by
    rw [takes, takes_succ m s.take, takes]

/-- `m` takes are an index moved by `m`. -/
theorem CanPop.takes_eq (h : s.CanPop c log) :
    ∀ m, (takes m s).handle = s.handle ∧ (takes m s).ring.slots = s.ring.slots ∧
      (takes m s).ring.writeIdx = s.ring.writeIdx ∧
      (takes m s).ring.readIdx.toNat = (log.released.length + m) % c.slots.toNat
  | 0 => ⟨rfl, rfl, rfl, h.ring.read⟩
  | m + 1 => by
    obtain ⟨hhandle, hslots, hwrite, hread⟩ := CanPop.takes_eq h m
    rw [takes_succ]
    refine ⟨hhandle, hslots, hwrite, ?_⟩
    simp only [Solo.take, hhandle, h.capacity]
    exact toNat_nextIdx c hread

/-- The copies of `pop_n` are the oldest elements, its store as many takes. -/
theorem CanPop.takeN_eq (h : s.CanPop c log) (n : UInt64) :
    (s.takeN n).1 = log.waiting.take (s.takeN n).1.length ∧
      (s.takeN n).1.length = (min n (usedSlots s.handle.capacity s.handle.writeIdxCache
        s.ring.readIdx)).toNat ∧
      (s.takeN n).2 = takes (s.takeN n).1.length s := by
  have hused := h.usedSlots_le.2
  have hroom := h.ring.room
  have hle := h.ring.le
  have hcount : (min n (usedSlots s.handle.capacity s.handle.writeIdxCache
      s.ring.readIdx)).toNat ≤ log.held := by
    rw [toNat_min]
    omega
  have hheld : log.held = log.published.length - log.released.length := rfl
  have hlen : (s.takeN n).1.length = (min n (usedSlots s.handle.capacity
      s.handle.writeIdxCache s.ring.readIdx)).toNat := by
    simp [Solo.takeN, batchSlots]
  refine ⟨?_, hlen, ?_⟩
  · rw [hlen]
    refine List.ext_getElem? fun i => ?_
    rcases Nat.lt_or_ge i (min n (usedSlots s.handle.capacity s.handle.writeIdxCache
      s.ring.readIdx)).toNat with hi | hi
    · have hcell := h.ring.cell (log.released.length + i) (by omega) (by omega)
      rw [List.getElem?_take_of_lt hi, Log.waiting, List.getElem?_drop, hcell]
      simp only [Solo.takeN, batchSlots, List.map_map, List.getElem?_map]
      rw [List.getElem?_range hi, Option.map_some, Function.comp_apply]
      simp only [h.capacity]
      rw [h.capacity] at hi hcount
      rw [batchSlot_eq c h.ring.read (by omega) hi]
    · rw [List.getElem?_eq_none (hlen.le.trans hi), List.getElem?_eq_none]
      simp only [List.length_take]
      omega
  · obtain ⟨hhandle, hslots, hwrite, hread⟩ := h.takes_eq (s.takeN n).1.length
    rw [hlen] at hread
    have hlt : (min n (usedSlots s.handle.capacity s.handle.writeIdxCache
        s.ring.readIdx)).toNat < c.slots.toNat := by omega
    have hnext := toNat_nextIdxN c h.ring.read hlt
    rw [← hread, ← h.capacity, UInt64.toNat_inj] at hnext
    rw [hlen] at hhandle hslots hwrite ⊢
    exact Solo.ext (Ring.ext hwrite.symm hnext hslots.symm) hhandle.symm

/-- `pop_n` takes what is there, oldest first, and loads `writeIdx` if the cache shows too
little. -/
theorem CanPop.popN_eq (h : s.CanPop c log) (n : UInt64) :
    s.popN n = (log.waiting.take n.toNat,
      takes (min n.toNat log.held) (s.refreshWrite n.toNat)) := by
  obtain ⟨hused, hcached⟩ := h.usedSlots_le
  by_cases hn : n = 0
  · subst hn
    simp [Solo.popN, takes, Solo.refreshWrite]
  by_cases hcache : usedSlots s.handle.capacity s.handle.writeIdxCache s.ring.readIdx < n
  · have hload : s.refreshWrite n.toNat = s.loadWrite := if_pos hcache
    by_cases hempty : usedSlots s.handle.capacity s.ring.writeIdx s.ring.readIdx = 0
    · rw [hempty, UInt64.toNat_zero] at hused
      have hnil : log.waiting = [] := log.waiting_eq_nil hused.symm
      simp [Solo.popN, hn, hcache, hempty, ← hused, hload, takes, hnil]
    · obtain ⟨hdst, hdstlen, hstate⟩ := h.loadWrite.takeN_eq n
      have hcount : (s.loadWrite.takeN n).1.length = min n.toNat log.held := by
        rw [hdstlen, toNat_min, ← hused]
        rfl
      simp only [Solo.popN, hn, hcache, hempty, if_true, if_false, hload]
      rw [hcount] at hdst hstate
      exact Prod.ext (hdst.trans (log.take_waiting n.toNat)) hstate
  · have hkeep : s.refreshWrite n.toNat = s := if_neg hcache
    have hle : n.toNat ≤ (usedSlots s.handle.capacity s.handle.writeIdxCache
        s.ring.readIdx).toNat := not_lt.mp hcache
    obtain ⟨hdst, hdstlen, hstate⟩ := h.takeN_eq n
    have hcount : (s.takeN n).1.length = min n.toNat log.held := by
      rw [hdstlen, toNat_min]
      omega
    simp only [Solo.popN, hn, hcache, if_false, hkeep]
    rw [hcount] at hdst hstate
    exact Prod.ext (hdst.trans (log.take_waiting n.toNat)) hstate

end Pop

/-! ## The batch operations are the repeated single ones -/

theorem CanPush.ring_of_zero {c : Capacity} {log : Log T} {s : Solo T} (h : s.CanPush c log)
    (src : ℕ → T) {n : UInt64} (hzero : (s.pushN src n).1 = 0) :
    (s.pushN src n).2.ring = s.ring := by
  obtain ⟨hcount, hstate⟩ := h.pushN_eq src n
  rw [hzero, UInt64.toNat_zero] at hcount
  rw [hstate, ← hcount, puts, Solo.refreshRead]
  split_ifs <;> rfl

theorem CanPop.ring_of_nil {c : Capacity} {log : Log T} {s : Solo T} (h : s.CanPop c log)
    {n : UInt64} (hnil : (s.popN n).1 = []) : (s.popN n).2.ring = s.ring := by
  have hlen := log.length_waiting
  rw [h.popN_eq n] at hnil ⊢
  have hzero := congrArg List.length hnil
  rw [List.length_take, hlen, List.length_nil] at hzero
  rw [hzero]
  exact refreshWrite_ring s n.toNat

/-- Batch and single-item paths agree. On every segment that holds a log, through any legal
cache and for every `n`, `push_n` is `try_push` repeated until `n` succeed or one fails, and
`pop_n` is `try_pop` repeated : the same count, the same copies, the same indices, slots
and caches. The counts are the `n` asked for, cut to the room and to the length, and an
operation that moved nothing has stored nothing. -/
theorem batch_eq_single {c : Capacity} {log : Log T} {s : Solo T}
    (hcap : s.handle.capacity = c.slots) (hring : s.ring.Holds c log) (n : UInt64) :
    (ReadCache c log s.handle.readIdxCache 0 → ∀ src : ℕ → T,
      pushEach src n.toNat 0 s = ((s.pushN src n).1.toNat, (s.pushN src n).2) ∧
      (s.pushN src n).1.toNat =
        min n.toNat ((capacityOf c.slots).toNat - (s.ring.contents c.slots).length) ∧
      ((s.pushN src n).1 = 0 → (s.pushN src n).2.ring = s.ring)) ∧
    (WriteCache c log s.handle.writeIdxCache 0 →
      popEach n.toNat s = some (s.popN n) ∧
      (s.popN n).1 = (s.ring.contents c.slots).take n.toNat ∧
      ((s.popN n).1 = [] → (s.popN n).2.ring = s.ring)) := by
  rw [hring.contents_eq, log.length_waiting, toNat_capacityOf]
  refine ⟨fun hcache src => ?_, fun hcache => ?_⟩
  · have h : s.CanPush c log := ⟨hcap, hring, hcache⟩
    obtain ⟨hcount, hstate⟩ := h.pushN_eq src n
    refine ⟨?_, hcount, h.ring_of_zero src⟩
    rw [CanPush.pushEach_eq src n.toNat 0 h, hcount, hstate, Nat.zero_add]
  · have h : s.CanPop c log := ⟨hcap, hring, hcache⟩
    have hpop := h.popN_eq n
    refine ⟨?_, by rw [hpop], h.ring_of_nil⟩
    rw [CanPop.popEach_eq n.toNat h, hpop]

/-- Three slots, one element in slot `1`, both caches stale. -/
def stale : Solo ℕ := ⟨⟨2, 1, fun i => i + 7⟩, ⟨3, 0, 1⟩⟩

theorem batch_eq_single_stale :
    (pushEach (fun _ => 5) 2 0 stale).1 = 1 ∧
      pushEach (fun _ => 5) 2 0 stale = ((stale.pushN (fun _ => 5) 2).1.toNat,
        (stale.pushN (fun _ => 5) 2).2) ∧
      popEach 2 stale = some (stale.popN 2) ∧ (stale.popN 2).1 = [8] := by
  have hring : stale.ring.Holds ⟨3, by decide, by decide⟩ ⟨[7, 8], [7]⟩ :=
    ⟨rfl, rfl, ⟨[8], rfl⟩, by decide, fun i hlo hhi => by
      obtain rfl : i = 1 := by simp at hlo hhi; omega
      rfl⟩
  have h := batch_eq_single rfl hring 2
  have hpush := h.1 ⟨0, rfl, by decide, by decide⟩ fun _ => 5
  have hpop := h.2 ⟨1, rfl, by decide, by decide⟩
  exact ⟨by decide, hpush.1, hpop.1, by decide⟩

end Solo

end ShmSpsc
