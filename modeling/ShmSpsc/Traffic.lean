import ShmSpsc.Blocking
import ShmSpsc.Decisions
import ShmSpsc.WaitFree

/-!
# How often the peer's line is loaded

Each side keeps a stale copy of the peer's index and loads the index again only when the copy
says that it must block. `Meter` counts, for each side, its loads of the peer's index, the calls
that gave less than was asked for, and the stores to its own index. The assertion of `pop()`
loads the index too, without a look at the copy. These loads are counted once more on their own :
there are none in a build with `NDEBUG`.

A load that finds the copy as it was is one of a call that gives less; any other one is paid by a
store of the peer since the last load (`Producer.Paid`), or is the assertion's, of which there is
one for each `pop()` (`PopPc.checked`). `Metered.loads_le` adds this up over every run.
`Metered.run_through` : once the copy shows room for `k` elements, the next `k` calls of
`try_push` load nothing from the consumer's line, whatever the consumer does in between, and
those of `try_pop` load nothing but for the assertion.
-/

namespace ShmSpsc

open Transition

variable {T : Type*}

/-! ## The counts -/

/-- The step loads the consumer's index. -/
def PushPc.loads : PushPc T → ℕ
  | .tryPushRefresh _ _ _ => 1
  | .pushNRefresh _ _ _ => 1
  | _ => 0

/-- The step stores the own index. -/
def PushPc.stores : PushPc T → ℕ
  | .tryPushStore _ _ _ => 1
  | .pushNStore _ _ _ => 1
  | _ => 0

/-- The call has returned less than the `asked` elements. -/
def PushPc.short (asked : UInt64) : PushPc T → ℕ
  | .ready (some (.tryPush false)) => 1
  | .ready (some (.pushN count)) => if count < asked then 1 else 0
  | _ => 0

/-- The step loads the producer's index. -/
def PopPc.loads : PopPc T → ℕ
  | .frontRefresh _ _ => 1
  | .popAssert _ _ => 1
  | .popNRefresh _ _ => 1
  | _ => 0

/-- It does so in the assertion of `pop()`. -/
def PopPc.asserts : PopPc T → ℕ
  | .popAssert _ _ => 1
  | _ => 0

/-- The step stores the own index. -/
def PopPc.stores : PopPc T → ℕ
  | .popStore _ _ => 1
  | .popNStore _ _ _ => 1
  | _ => 0

/-- The call has returned less than the `asked` elements. -/
def PopPc.short (asked : UInt64) : PopPc T → ℕ
  | .ready (some (.front none)) => 1
  | .ready (some (.tryPop none)) => 1
  | .ready (some (.popN dst)) => if dst.length < asked.toNat then 1 else 0
  | _ => 0

/-- The assertions that an operation of the role makes at most. -/
def Role.asserts : Role → ℕ
  | .producer => 0
  | .consumer => 1

/-- What is counted of a side, and what its last batch was asked for. -/
structure Meter where
  asked : UInt64
  loads : ℕ
  asserts : ℕ
  short : ℕ
  stores : ℕ
  deriving DecidableEq, Repr

namespace Meter

/-- Nothing yet. -/
def start : Meter := ⟨0, 0, 0, 0, 0⟩

/-- A step of the producer from `pc` to `pc'`. -/
def push (m : Meter) (pc pc' : PushPc T) : PushAct T → Meter
  | .tryPush _ => m
  | .pushN _ n => { m with asked := n }
  | .step =>
    { m with
      loads := m.loads + pc.loads
      short := m.short + pc'.short m.asked
      stores := m.stores + pc.stores }

/-- A step of the consumer from `pc` to `pc'`. -/
def pop (m : Meter) (pc pc' : PopPc T) : PopAct → Meter
  | .popN n => { m with asked := n }
  | .step =>
    { m with
      loads := m.loads + pc.loads
      asserts := m.asserts + pc.asserts
      short := m.short + pc'.short m.asked
      stores := m.stores + pc.stores }
  | _ => m

end Meter

/-- The two sides, and what is counted of each. -/
structure Metered (T : Type*) where
  base : Spsc T
  meter : Role → Meter

namespace Metered

/-- The counts after a step to `base`. -/
def count (s : Metered T) (base : Spsc T) : SpscAct T → Role → Meter
  | .produce a =>
    match s.base.producer, base.producer with
    | .up p, .up p' => Function.update s.meter .producer ((s.meter .producer).push p.pc p'.pc a)
    | _, _ => s.meter
  | .consume a =>
    match s.base.consumer, base.consumer with
    | .up q, .up q' => Function.update s.meter .consumer ((s.meter .consumer).pop q.pc q'.pc a)
    | _, _ => s.meter
  | _ => s.meter

/-- One step. -/
def step (capacity : UInt64) (s : Metered T) (a : SpscAct T) : Option (Metered T) :=
  (s.base.step capacity a).map fun base => ⟨base, s.count base a⟩

/-- A segment as `create` returns it. -/
def created (capacity : UInt64) (role : Role) (slots : ℕ → T) : Metered T :=
  ⟨.created capacity role slots, fun _ => .start⟩

end Metered

/-! ## Who pays for a load -/

/-- The copy is not the peer's index any more. -/
def stale (cache idx : UInt64) : ℕ := if cache = idx then 0 else 1

theorem stale_self (idx : UInt64) : stale idx idx = 0 := if_pos rfl

theorem stale_le (cache idx : UInt64) : stale cache idx ≤ 1 := by
  unfold stale
  split_ifs <;> omega

/-- A batch under way that will give less than was asked for. -/
def PushPc.owed (asked : UInt64) : PushPc T → ℕ
  | .pushNCopy _ _ count _ => if count < asked then 1 else 0
  | .pushNStore _ _ count => if count < asked then 1 else 0
  | _ => 0

/-- The peer's index is loaded only if the copy says that the call must block. -/
def PushPc.Blocked (h : Handle) (asked : UInt64) : PushPc T → Prop
  | .tryPushRefresh _ _ next => next = h.readIdxCache
  | .pushNLoad _ n => n = asked ∧ n ≠ 0
  | .pushNTest _ n _ => n = asked ∧ n ≠ 0
  | .pushNRefresh _ n w => n = asked ∧ n ≠ 0 ∧ freeSlots h.capacity w h.readIdxCache < n
  | _ => True

/-- The loads of the producer are paid for by the calls that gave less and the `others` stores of
the consumer. -/
structure Producer.Paid (p : Producer T) (ring : Ring T) (m : Meter) (others : ℕ) : Prop where
  blocked : p.pc.Blocked p.handle m.asked
  paid : m.loads + stale p.handle.readIdxCache ring.readIdx ≤
    m.short + others + p.pc.owed m.asked

theorem min_eq_of_lt {a b : UInt64} (h : a < b) : min b a = a := by
  rw [UInt64.lt_iff_toNat_lt] at h
  rw [← UInt64.toNat_inj, toNat_min]
  omega

/-- A refresh that leaves a batch short of what was asked for, or finds the copy stale. -/
theorem one_le_stale_add (free : UInt64 → UInt64) {cache idx asked : UInt64}
    (hlt : free cache < asked) :
    1 ≤ stale cache idx + if min asked (free idx) < asked then 1 else 0 := by
  by_cases heq : cache = idx
  · subst heq
    rw [min_eq_of_lt hlt, if_pos hlt]
    omega
  · rw [stale, if_neg heq]
    omega

namespace Producer

variable {p p' : Producer T} {ring ring' : Ring T} {m : Meter} {n n' : ℕ} {a : PushAct T}
  {xs : List T}

/-- The stores of the consumer pay for what they make stale. -/
theorem Paid.store (h : p.Paid ring m n)
    (hstale : stale p.handle.readIdxCache ring'.readIdx + n ≤
      stale p.handle.readIdxCache ring.readIdx + n') : p.Paid ring' m n' := by
  refine ⟨h.blocked, ?_⟩
  have hpaid := h.paid
  omega

/-- A call is paid for. -/
theorem paid_call (h : p.Paid ring m n) (hact : p.act ring a = some (ring', p', xs))
    (hcall : a ≠ .step) : p'.Paid ring' (m.push p.pc p'.pc a) n := by
  obtain ⟨handle, pc⟩ := p
  obtain ⟨-, hpaid⟩ := h
  rcases a with v | ⟨src, k⟩ | _
  · cases pc <;> simp only [act, reduceCtorEq] at hact
    cases hact
    exact ⟨trivial, hpaid⟩
  · cases pc <;> simp only [act, reduceCtorEq] at hact
    split_ifs at hact with hk
    · cases hact
      exact ⟨trivial, hpaid⟩
    · cases hact
      exact ⟨⟨rfl, hk⟩, hpaid⟩
  · exact absurd rfl hcall

/-- A step of `try_push` is paid for. -/
theorem paid_tryPush (h : p.Paid ring m n) (hact : p.act ring .step = some (ring', p', xs))
    (hop : p.pc.inTryPush) : p'.Paid ring' (m.push p.pc p'.pc .step) n := by
  obtain ⟨⟨capacity, cache, wcache⟩, pc⟩ := p
  obtain ⟨hblocked, hpaid⟩ := h
  cases pc with
  | tryPushLoad v =>
    cases hact
    exact ⟨trivial, hpaid⟩
  | tryPushTest v w next =>
    simp only [act] at hact
    split_ifs at hact with heq
    · cases hact
      exact ⟨heq, hpaid⟩
    · cases hact
      exact ⟨trivial, hpaid⟩
  | tryPushRefresh v w next =>
    obtain rfl : next = cache := hblocked
    simp only [act] at hact
    split_ifs at hact with heq
    · -- the copy was not stale, and the call fails
      cases hact
      refine ⟨trivial, ?_⟩
      simp only [Meter.push, refresh, stale_self, PushPc.loads, PushPc.short,
        PushPc.owed] at hpaid ⊢
      omega
    · -- the copy was stale
      cases hact
      refine ⟨trivial, ?_⟩
      rw [stale, if_neg heq] at hpaid
      simp only [Meter.push, refresh, stale_self, PushPc.loads, PushPc.short,
        PushPc.owed] at hpaid ⊢
      omega
  | tryPushCopy v w next =>
    cases hact
    exact ⟨trivial, hpaid⟩
  | tryPushStore v w next =>
    cases hact
    exact ⟨trivial, hpaid⟩
  | _ => cases hop

/-- A step of `push_n` is paid for. -/
theorem paid_pushN (h : p.Paid ring m n) (hact : p.act ring .step = some (ring', p', xs))
    (hop : p.pc.inPushN) : p'.Paid ring' (m.push p.pc p'.pc .step) n := by
  obtain ⟨⟨capacity, cache, wcache⟩, pc⟩ := p
  obtain ⟨hblocked, hpaid⟩ := h
  cases pc with
  | pushNLoad src k =>
    cases hact
    exact ⟨hblocked, hpaid⟩
  | pushNTest src k w =>
    simp only [act] at hact
    split_ifs at hact with hlt
    · cases hact
      exact ⟨⟨hblocked.1, hblocked.2, hlt⟩, hpaid⟩
    · cases hact
      refine ⟨trivial, hpaid.trans ?_⟩
      exact Nat.le_add_right _ _
  | pushNRefresh src k w =>
    obtain ⟨rfl, hk, hlt⟩ := hblocked
    have hpos := UInt64.pos_iff_ne_zero.mpr hk
    have hone : 1 ≤ stale cache ring.readIdx +
        if min m.asked (freeSlots capacity w ring.readIdx) < m.asked then 1 else 0 :=
      one_le_stale_add (freeSlots capacity w) hlt
    have hbefore : m.loads + stale cache ring.readIdx ≤ m.short + n + 0 := hpaid
    simp only [act] at hact
    split_ifs at hact with hfree
    · cases hact
      refine ⟨trivial, ?_⟩
      have hafter : m.loads + 1 + stale ring.readIdx ring.readIdx ≤
          m.short + (if 0 < m.asked then 1 else 0) + n + 0 := by
        rw [stale_self, if_pos hpos]
        omega
      exact hafter
    · cases hact
      refine ⟨trivial, ?_⟩
      have hafter : m.loads + 1 + stale ring.readIdx ring.readIdx ≤ m.short + 0 + n +
          if min m.asked (freeSlots capacity w ring.readIdx) < m.asked then 1 else 0 := by
        rw [stale_self]
        omega
      exact hafter
  | pushNCopy src w count i =>
    cases hact
    simp only
    split_ifs
    · exact ⟨trivial, hpaid⟩
    · exact ⟨trivial, hpaid⟩
  | pushNStore src w count =>
    cases hact
    refine ⟨trivial, ?_⟩
    simp only [Meter.push, PushPc.loads, PushPc.short, PushPc.owed] at hpaid ⊢
    omega
  | _ => cases hop

/-- Every step of the producer is paid for. -/
theorem paid_act (h : p.Paid ring m n) (hact : p.act ring a = some (ring', p', xs)) :
    p'.Paid ring' (m.push p.pc p'.pc a) n := by
  rcases act_cases hact with hcall | ⟨rfl, hop | hop⟩
  · exact paid_call h hact hcall
  · exact paid_tryPush h hact hop
  · exact paid_pushN h hact hop

end Producer

/-- A batch under way that will give less than was asked for. -/
def PopPc.owed (asked : UInt64) : PopPc T → ℕ
  | .popNCopy _ count _ => if count < asked then 1 else 0
  | .popNStore _ count _ => if count < asked then 1 else 0
  | _ => 0

/-- The peer's index is loaded only if the copy says that the call must block. -/
def PopPc.Blocked (h : Handle) (asked : UInt64) : PopPc T → Prop
  | .frontRefresh _ r => r = h.writeIdxCache
  | .popNLoad n => n = asked ∧ n ≠ 0
  | .popNTest n _ => n = asked ∧ n ≠ 0
  | .popNRefresh n r => n = asked ∧ n ≠ 0 ∧ usedSlots h.capacity h.writeIdxCache r < n
  | .popNCopy _ count dst => dst.length < count.toNat
  | .popNStore _ count dst => dst.length = count.toNat
  | _ => True

/-- The assertion of `pop()` has been made, and the store has not. -/
def PopPc.checked : PopPc T → ℕ
  | .popStore _ _ => 1
  | .aborted => 1
  | _ => 0

/-- The loads of the consumer are paid for by the calls that gave less, the assertions and the
`others` stores of the producer. -/
structure Consumer.Paid (q : Consumer T) (ring : Ring T) (m : Meter) (others : ℕ) : Prop where
  blocked : q.pc.Blocked q.handle m.asked
  paid : m.loads + stale q.handle.writeIdxCache ring.writeIdx ≤
    m.short + m.asserts + others + q.pc.owed m.asked

namespace Consumer

variable {q q' : Consumer T} {ring ring' : Ring T} {m : Meter} {n n' : ℕ} {a : PopAct}
  {xs : List T}

/-- The stores of the producer pay for what they make stale. -/
theorem Paid.store (h : q.Paid ring m n)
    (hstale : stale q.handle.writeIdxCache ring'.writeIdx + n ≤
      stale q.handle.writeIdxCache ring.writeIdx + n') : q.Paid ring' m n' := by
  refine ⟨h.blocked, ?_⟩
  have hpaid := h.paid
  omega

/-- `front` returns without a load. -/
theorem paid_frontSlot (r : UInt64) (k : Caller)
    (hpaid : m.loads + stale q.handle.writeIdxCache ring.writeIdx ≤ m.short + m.asserts + n) :
    (q.frontSlot r k).Paid ring
      { m with short := m.short + (q.frontSlot r k).pc.short m.asked } n := by
  rcases k with _ | _
  · exact ⟨trivial, hpaid⟩
  · exact ⟨trivial, hpaid⟩

/-- A call is paid for. -/
theorem paid_call (h : q.Paid ring m n) (hact : q.act ring a = some (ring', q', xs))
    (hcall : a ≠ .step) : q'.Paid ring' (m.pop q.pc q'.pc a) n := by
  obtain ⟨handle, held, peeked, pc⟩ := q
  obtain ⟨-, hpaid⟩ := h
  rcases a with _ | _ | _ | _ | k | _
  · cases pc <;> simp only [act, reduceCtorEq] at hact
    cases hact
    exact ⟨trivial, hpaid⟩
  · cases pc <;> cases held <;> simp only [act, reduceCtorEq] at hact
    cases hact
    exact ⟨trivial, hpaid⟩
  · cases pc <;> cases held <;> simp only [act, reduceCtorEq] at hact
    cases hact
    exact ⟨trivial, hpaid⟩
  · cases pc <;> simp only [act, reduceCtorEq] at hact
    cases hact
    exact ⟨trivial, hpaid⟩
  · cases pc <;> simp only [act, reduceCtorEq] at hact
    split_ifs at hact with hk
    · cases hact
      exact ⟨trivial, hpaid⟩
    · cases hact
      exact ⟨⟨rfl, hk⟩, hpaid⟩
  · exact absurd rfl hcall

/-- A step of `front` is paid for. -/
theorem paid_front (h : q.Paid ring m n) (hact : q.act ring .step = some (ring', q', xs))
    (hop : q.pc.inFront) : q'.Paid ring' (m.pop q.pc q'.pc .step) n := by
  obtain ⟨⟨capacity, rcache, cache⟩, held, peeked, pc⟩ := q
  obtain ⟨hblocked, hpaid⟩ := h
  cases pc with
  | frontLoad k =>
    cases hact
    exact ⟨trivial, hpaid⟩
  | frontTest k r =>
    simp only [act] at hact
    split_ifs at hact with heq
    · cases hact
      exact ⟨heq, hpaid⟩
    · cases hact
      exact paid_frontSlot r k hpaid
  | frontRefresh k r =>
    obtain rfl : r = cache := hblocked
    have hbefore : m.loads + stale r ring.writeIdx ≤ m.short + m.asserts + n + 0 := hpaid
    simp only [act] at hact
    split_ifs at hact with heq
    · -- the copy was not stale, and the call finds nothing
      cases hact
      rw [heq, stale_self] at hbefore
      have hafter : m.loads + 1 + stale ring.writeIdx ring.writeIdx ≤
          m.short + 1 + m.asserts + n + 0 := by
        rw [stale_self]
        omega
      rcases k with _ | _
      · exact ⟨trivial, hafter⟩
      · exact ⟨trivial, hafter⟩
    · -- the copy was stale
      cases hact
      rw [stale, if_neg heq] at hbefore
      refine paid_frontSlot (m := { m with loads := m.loads + 1 }) r k ?_
      rw [refresh, stale_self]
      exact hbefore
  | _ => cases hop

/-- A step of `pop()` is paid for : its assertion pays for itself. -/
theorem paid_pop (h : q.Paid ring m n) (hact : q.act ring .step = some (ring', q', xs))
    (hop : q.pc.inPop) : q'.Paid ring' (m.pop q.pc q'.pc .step) n := by
  obtain ⟨⟨capacity, rcache, cache⟩, held, peeked, pc⟩ := q
  obtain ⟨hblocked, hpaid⟩ := h
  cases pc with
  | tryPopCopy r =>
    cases hact
    exact ⟨trivial, hpaid⟩
  | popLoad b =>
    cases hact
    exact ⟨trivial, hpaid⟩
  | popAssert b r =>
    have hafter : m.loads + 1 + stale cache ring.writeIdx ≤
        m.short + 0 + (m.asserts + 1) + n + 0 := by
      simp only [PopPc.owed] at hpaid
      omega
    simp only [act] at hact
    split_ifs at hact with heq
    · cases hact
      exact ⟨trivial, hafter⟩
    · cases hact
      exact ⟨trivial, hafter⟩
  | popStore b r =>
    cases hact
    rcases b with _ | _
    · exact ⟨trivial, hpaid⟩
    · exact ⟨trivial, hpaid⟩
  | _ => cases hop

/-- A step of `pop_n` is paid for. -/
theorem paid_popN (h : q.Paid ring m n) (hact : q.act ring .step = some (ring', q', xs))
    (hop : q.pc.inPopN) : q'.Paid ring' (m.pop q.pc q'.pc .step) n := by
  obtain ⟨⟨capacity, rcache, cache⟩, held, peeked, pc⟩ := q
  obtain ⟨hblocked, hpaid⟩ := h
  cases pc with
  | popNLoad k =>
    cases hact
    exact ⟨hblocked, hpaid⟩
  | popNTest k r =>
    obtain ⟨rfl, hk⟩ := hblocked
    simp only [act] at hact
    split_ifs at hact with hlt
    · cases hact
      exact ⟨⟨rfl, hk, hlt⟩, hpaid⟩
    · cases hact
      rw [min_eq_left_of_not_lt hlt]
      refine ⟨?_, hpaid.trans (Nat.le_add_right _ _)⟩
      exact Nat.pos_of_ne_zero fun hzero => hk (UInt64.toNat_inj.mp hzero)
  | popNRefresh k r =>
    obtain ⟨rfl, hk, hlt⟩ := hblocked
    have hpos : 0 < m.asked.toNat := UInt64.pos_iff_ne_zero.mpr hk
    have hone : 1 ≤ stale cache ring.writeIdx +
        if min m.asked (usedSlots capacity ring.writeIdx r) < m.asked then 1 else 0 :=
      one_le_stale_add (fun w => usedSlots capacity w r) hlt
    have hbefore : m.loads + stale cache ring.writeIdx ≤ m.short + m.asserts + n + 0 := hpaid
    simp only [act] at hact
    split_ifs at hact with havail
    · cases hact
      refine ⟨trivial, ?_⟩
      have hafter : m.loads + 1 + stale ring.writeIdx ring.writeIdx ≤
          m.short + (if 0 < m.asked.toNat then 1 else 0) + m.asserts + n + 0 := by
        rw [stale_self, if_pos hpos]
        omega
      exact hafter
    · cases hact
      refine ⟨?_, ?_⟩
      · have havail' : 0 < (usedSlots capacity ring.writeIdx r).toNat :=
          UInt64.pos_iff_ne_zero.mpr havail
        simp only [PopPc.Blocked, List.length_nil, toNat_min]
        omega
      · have hafter : m.loads + 1 + stale ring.writeIdx ring.writeIdx ≤
            m.short + 0 + m.asserts + n +
              if min m.asked (usedSlots capacity ring.writeIdx r) < m.asked then 1 else 0 := by
          rw [stale_self]
          omega
        exact hafter
  | popNCopy r count dst =>
    cases hact
    have hlt : dst.length < count.toNat := hblocked
    simp only
    split_ifs with hmore
    · exact ⟨hmore, hpaid⟩
    · refine ⟨?_, hpaid⟩
      simp only [List.length_append, List.length_singleton] at hmore
      simp only [PopPc.Blocked, List.length_append, List.length_singleton]
      omega
  | popNStore r count dst =>
    have hlen : dst.length = count.toNat := hblocked
    have hafter : m.loads + 0 + stale cache ring.writeIdx ≤
        m.short + (if dst.length < m.asked.toNat then 1 else 0) + m.asserts + n + 0 := by
      simp only [PopPc.owed, UInt64.lt_iff_toNat_lt] at hpaid
      rw [hlen]
      omega
    cases hact
    exact ⟨trivial, hafter⟩
  | _ => cases hop

/-- Every step of the consumer is paid for. -/
theorem paid_act (h : q.Paid ring m n) (hact : q.act ring a = some (ring', q', xs)) :
    q'.Paid ring' (m.pop q.pc q'.pc a) n := by
  rcases act_cases hact with hcall | ⟨rfl, hop | hop | hop⟩
  · exact paid_call h hact hcall
  · exact paid_front h hact hop
  · exact paid_pop h hact hop
  · exact paid_popN h hact hop

/-- Each store of `pop()` comes after one assertion. -/
theorem checked_act (h : m.asserts ≤ m.stores + q.pc.checked)
    (hact : q.act ring a = some (ring', q', xs)) :
    (m.pop q.pc q'.pc a).asserts ≤ (m.pop q.pc q'.pc a).stores + q'.pc.checked := by
  obtain ⟨handle, held, peeked, pc⟩ := q
  rcases a with _ | _ | _ | _ | k | _
  case step =>
    cases pc with
    | popAssert b r =>
      simp only [act] at hact
      split_ifs at hact with heq
      · cases hact
        exact Nat.succ_le_succ h
      · cases hact
        exact Nat.succ_le_succ h
    | popStore b r =>
      cases hact
      exact h
    | popNStore r count dst =>
      cases hact
      exact h.trans (Nat.le_succ _)
    | _ =>
      simp only [act] at hact
      try split_ifs at hact
      all_goals cases hact
      all_goals exact h.trans (Nat.le_add_right _ _)
  all_goals
    cases pc <;> try cases held
  all_goals simp only [act, reduceCtorEq] at hact
  all_goals try split_ifs at hact
  all_goals cases hact
  all_goals exact h.trans (Nat.le_add_right _ _)

end Consumer

/-! ## Over every run -/

/-- What a step of the producer makes stale, its store pays for. -/
theorem Producer.stale_act {p p' : Producer T} {ring ring' : Ring T} {a : PushAct T} {xs : List T}
    (h : p.act ring a = some (ring', p', xs)) (m : Meter) (cache : UInt64) :
    stale cache ring'.writeIdx + m.stores ≤
      stale cache ring.writeIdx + (m.push p.pc p'.pc a).stores := by
  obtain ⟨handle, pc⟩ := p
  have hle := stale_le cache ring'.writeIdx
  rcases a with v | ⟨src, k⟩ | _
  · simp only [act] at h
    split at h <;> cases h
    rfl
  · simp only [act] at h
    split at h
    · split_ifs at h <;> cases h <;> rfl
    · cases h
  · cases pc with
    | tryPushStore v w next =>
      simp only [Meter.push, PushPc.stores]
      omega
    | pushNStore src w count =>
      simp only [Meter.push, PushPc.stores]
      omega
    | _ =>
      simp only [act] at h
      try split_ifs at h
      all_goals cases h
      all_goals rfl

/-- What a step of the consumer makes stale, its store pays for. -/
theorem Consumer.stale_act {q q' : Consumer T} {ring ring' : Ring T} {a : PopAct} {xs : List T}
    (h : q.act ring a = some (ring', q', xs)) (m : Meter) (cache : UInt64) :
    stale cache ring'.readIdx + m.stores ≤
      stale cache ring.readIdx + (m.pop q.pc q'.pc a).stores := by
  obtain ⟨handle, held, peeked, pc⟩ := q
  have hle := stale_le cache ring'.readIdx
  rcases a with _ | _ | _ | _ | k | _
  · simp only [act] at h
    split at h <;> cases h
    rfl
  · simp only [act] at h
    split at h <;> cases h
    rfl
  · simp only [act] at h
    split at h <;> cases h
    rfl
  · simp only [act] at h
    split at h <;> cases h
    rfl
  · simp only [act] at h
    split at h
    · split_ifs at h <;> cases h <;> rfl
    · cases h
  · cases pc with
    | popStore b r =>
      simp only [Meter.pop, PopPc.stores]
      omega
    | popNStore r count dst =>
      simp only [Meter.pop, PopPc.stores]
      omega
    | _ =>
      simp only [act] at h
      try split_ifs at h
      all_goals cases h
      all_goals rfl

namespace Metered

variable {capacity : UInt64} {s s' : Metered T} {a : SpscAct T} {n n' : ℕ}

/-- The producer's loads are paid for, with `n` stores of the consumer. -/
def Pushes (ring : Ring T) (m : Meter) (n : ℕ) : Side (Producer T) → Prop
  | .absent => m.loads = 0
  | .loading r => m.loads = 0 ∧ stale r ring.readIdx ≤ n
  | .up p => p.Paid ring m n

/-- The consumer's loads are paid for, with `n` stores of the producer. -/
def Pops (ring : Ring T) (m : Meter) (n : ℕ) : Side (Consumer T) → Prop
  | .absent => m.loads = 0
  | .loading _ => m.loads = 0
  | .up q => q.Paid ring m n

theorem Pushes.store {ring ring' : Ring T} {m : Meter} {side : Side (Producer T)}
    (h : Pushes ring m n side)
    (hstale : ∀ cache, stale cache ring'.readIdx + n ≤ stale cache ring.readIdx + n') :
    Pushes ring' m n' side := by
  rcases side with _ | r | p
  · exact h
  · refine ⟨h.1, ?_⟩
    have hle := h.2
    have := hstale r
    omega
  · exact Producer.Paid.store h (hstale _)

theorem Pops.store {ring ring' : Ring T} {m : Meter} {side : Side (Consumer T)}
    (h : Pops ring m n side)
    (hstale : ∀ cache, stale cache ring'.writeIdx + n ≤ stale cache ring.writeIdx + n') :
    Pops ring' m n' side := by
  rcases side with _ | r | q
  · exact h
  · exact h
  · exact Consumer.Paid.store h (hstale _)

/-- The assertion that the consumer's next store comes after. -/
def checked : Side (Consumer T) → ℕ
  | .absent => 0
  | .loading _ => 0
  | .up q => q.pc.checked

/-- Every load of either side is paid for, and the assertions by the stores after them. -/
structure Fair (s : Metered T) : Prop where
  producer : Pushes s.base.ring (s.meter .producer) (s.meter .consumer).stores s.base.producer
  consumer : Pops s.base.ring (s.meter .consumer) (s.meter .producer).stores s.base.consumer
  unasserted : (s.meter .producer).asserts = 0
  asserted : (s.meter .consumer).asserts ≤ (s.meter .consumer).stores + checked s.base.consumer

theorem fair_created (capacity : UInt64) (role : Role) (slots : ℕ → T) :
    Fair (created capacity role slots) := by
  rcases role with _ | _
  · exact ⟨⟨trivial, le_rfl⟩, rfl, rfl, le_rfl⟩
  · exact ⟨rfl, ⟨trivial, le_rfl⟩, rfl, le_rfl⟩

theorem push_asserts (m : Meter) (pc pc' : PushPc T) (a : PushAct T) :
    (m.push pc pc' a).asserts = m.asserts := by
  cases a <;> rfl

theorem produce_eq {b : PushAct T} (h : s.step capacity (.produce b) = some s') :
    ∃ p p' xs, s.base.producer = .up p ∧ p.act s.base.ring b = some (s'.base.ring, p', xs) ∧
      s'.base.producer = .up p' ∧ s'.base.consumer = s.base.consumer ∧
      s'.base.log = s.base.log.publish xs ∧
      s'.meter .producer = (s.meter .producer).push p.pc p'.pc b ∧
      s'.meter .consumer = s.meter .consumer := by
  obtain ⟨base, hbase, rfl⟩ := Option.map_eq_some_iff.mp h
  simp only [Spsc.step] at hbase
  split at hbase
  next p hp =>
    obtain ⟨⟨ring, p', xs⟩, hact, rfl⟩ := Option.map_eq_some_iff.mp hbase
    refine ⟨p, p', xs, hp, hact, rfl, rfl, rfl, ?_, ?_⟩
    · simp only [count, hp, Function.update_self]
    · simp only [count, hp, Function.update_of_ne, ne_eq, reduceCtorEq, not_false_eq_true]
  next => cases hbase

theorem consume_eq {b : PopAct} (h : s.step capacity (.consume b) = some s') :
    ∃ q q' xs, s.base.consumer = .up q ∧ q.act s.base.ring b = some (s'.base.ring, q', xs) ∧
      s'.base.consumer = .up q' ∧ s'.base.producer = s.base.producer ∧
      s'.base.log = s.base.log.release xs ∧
      s'.meter .consumer = (s.meter .consumer).pop q.pc q'.pc b ∧
      s'.meter .producer = s.meter .producer := by
  obtain ⟨base, hbase, rfl⟩ := Option.map_eq_some_iff.mp h
  simp only [Spsc.step] at hbase
  split at hbase
  next q hq =>
    obtain ⟨⟨ring, q', xs⟩, hact, rfl⟩ := Option.map_eq_some_iff.mp hbase
    refine ⟨q, q', xs, hq, hact, rfl, rfl, rfl, ?_, ?_⟩
    · simp only [count, hq, Function.update_self]
    · simp only [count, hq, Function.update_of_ne, ne_eq, reduceCtorEq, not_false_eq_true]
  next => cases hbase

/-- An attach leaves the segment, the log, the other side and the counts. -/
theorem attach_eq (h : s.step capacity a = some s')
    (ha : a = .attachProducer ∨ a = .attachConsumer) :
    s'.meter = s.meter ∧ s'.base.ring = s.base.ring ∧ s'.base.log = s.base.log ∧
      (a = .attachProducer → s'.base.consumer = s.base.consumer ∧
        (s.base.producer = .absent ∧ s'.base.producer = .loading s.base.ring.readIdx ∨
          ∃ r, s.base.producer = .loading r ∧
            s'.base.producer = .up (.fresh ⟨capacity, r, s.base.ring.writeIdx⟩))) ∧
      (a = .attachConsumer → s'.base.producer = s.base.producer ∧
        (s.base.consumer = .absent ∧ s'.base.consumer = .loading s.base.ring.readIdx ∨
          ∃ r, s.base.consumer = .loading r ∧
            s'.base.consumer = .up (.fresh ⟨capacity, r, s.base.ring.writeIdx⟩))) := by
  obtain ⟨base, hbase, rfl⟩ := Option.map_eq_some_iff.mp h
  rcases ha with rfl | rfl
  · simp only [Spsc.step] at hbase
    split at hbase
    next hp =>
      obtain rfl := Option.some.inj hbase
      exact ⟨rfl, rfl, rfl, fun _ => ⟨rfl, .inl ⟨hp, rfl⟩⟩, by rintro ⟨⟩⟩
    next r hp =>
      obtain rfl := Option.some.inj hbase
      exact ⟨rfl, rfl, rfl, fun _ => ⟨rfl, .inr ⟨r, hp, rfl⟩⟩, by rintro ⟨⟩⟩
    next => cases hbase
  · simp only [Spsc.step] at hbase
    split at hbase
    next hq =>
      obtain rfl := Option.some.inj hbase
      exact ⟨rfl, rfl, rfl, by rintro ⟨⟩, fun _ => ⟨rfl, .inl ⟨hq, rfl⟩⟩⟩
    next r hq =>
      obtain rfl := Option.some.inj hbase
      exact ⟨rfl, rfl, rfl, by rintro ⟨⟩, fun _ => ⟨rfl, .inr ⟨r, hq, rfl⟩⟩⟩
    next => cases hbase

/-- An attach keeps it. -/
theorem fair_attach (h : Fair s) (hstep : s.step capacity a = some s')
    (ha : a = .attachProducer ∨ a = .attachConsumer) : Fair s' := by
  obtain ⟨hproducer, hconsumer, hnone, hasserts⟩ := h
  obtain ⟨hmeter, hring, -, hattach, hattach'⟩ := attach_eq hstep ha
  rcases ha with rfl | rfl
  · obtain ⟨hother, ⟨hp, hp'⟩ | ⟨r, hp, hp'⟩⟩ := hattach rfl
    · rw [hp] at hproducer
      refine ⟨?_, by rwa [hmeter, hring, hother], by rwa [hmeter], by rwa [hmeter, hother]⟩
      rw [hmeter, hring, hp']
      exact ⟨hproducer, by rw [stale_self]; exact Nat.zero_le _⟩
    · rw [hp] at hproducer
      obtain ⟨hloads, hstale⟩ := hproducer
      refine ⟨?_, by rwa [hmeter, hring, hother], by rwa [hmeter], by rwa [hmeter, hother]⟩
      rw [hmeter, hring, hp']
      refine ⟨trivial, ?_⟩
      simp only [Producer.fresh, PushPc.owed, hloads]
      omega
  · obtain ⟨hother, ⟨hq, hq'⟩ | ⟨r, hq, hq'⟩⟩ := hattach' rfl
    · rw [hq] at hconsumer hasserts
      refine ⟨by rwa [hmeter, hring, hother], ?_, by rwa [hmeter], by rwa [hmeter, hq']⟩
      rw [hmeter, hring, hq']
      exact hconsumer
    · rw [hq] at hconsumer hasserts
      have hloads : (s.meter .consumer).loads = 0 := hconsumer
      refine ⟨by rwa [hmeter, hring, hother], ?_, by rwa [hmeter], by rwa [hmeter, hq']⟩
      rw [hmeter, hring, hq']
      refine ⟨trivial, ?_⟩
      simp only [Consumer.fresh, PopPc.owed, hloads, stale_self]
      omega

/-- Every step keeps it. -/
theorem fair_step (h : Fair s) (hstep : s.step capacity a = some s') : Fair s' := by
  rcases a with _ | _ | a | a
  · exact fair_attach h hstep (.inl rfl)
  · exact fair_attach h hstep (.inr rfl)
  · obtain ⟨hproducer, hconsumer, hnone, hasserts⟩ := h
    obtain ⟨p, p', xs, hp, hact, hp', hother, -, hmeter, hmeter'⟩ := produce_eq hstep
    rw [hp] at hproducer
    refine ⟨?_, ?_, by rwa [hmeter, push_asserts], by rwa [hmeter', hother]⟩
    · rw [hmeter, hmeter', hp']
      exact Producer.paid_act hproducer hact
    · rw [hmeter, hmeter', hother]
      exact hconsumer.store (Producer.stale_act hact _)
  · obtain ⟨hproducer, hconsumer, hnone, hasserts⟩ := h
    obtain ⟨q, q', xs, hq, hact, hq', hother, -, hmeter, hmeter'⟩ := consume_eq hstep
    rw [hq] at hconsumer hasserts
    refine ⟨?_, ?_, by rwa [hmeter'], ?_⟩
    · rw [hmeter, hmeter', hother]
      exact hproducer.store (Consumer.stale_act hact _)
    · rw [hmeter, hmeter', hq']
      exact Consumer.paid_act hconsumer hact
    · rw [hmeter, hq']
      exact Consumer.checked_act hasserts hact

theorem push_owed_le (asked : UInt64) (pc : PushPc T) :
    pc.owed asked ≤ 1 ∧ (pc.isReady = true → pc.owed asked = 0) := by
  have hif (count : UInt64) : (if count < asked then 1 else 0) ≤ 1 := by
    split_ifs <;> omega
  rcases pc with _ | _ | _ | _ | _ | _ | _ | _ | _ | _ | _
  case pushNCopy => exact ⟨hif _, by rintro ⟨⟩⟩
  case pushNStore => exact ⟨hif _, by rintro ⟨⟩⟩
  all_goals exact ⟨Nat.zero_le 1, fun _ => rfl⟩

theorem pop_owed_le (asked : UInt64) (pc : PopPc T) :
    pc.owed asked ≤ 1 ∧ (pc.isReady = true → pc.owed asked = 0) := by
  have hif (count : UInt64) : (if count < asked then 1 else 0) ≤ 1 := by
    split_ifs <;> omega
  rcases pc with _ | _ | _ | _ | _ | _ | _ | _ | _ | _ | _ | _ | _ | _
  case popNCopy => exact ⟨hif _, by rintro ⟨⟩⟩
  case popNStore => exact ⟨hif _, by rintro ⟨⟩⟩
  all_goals exact ⟨Nat.zero_le 1, fun _ => rfl⟩

theorem checked_le (pc : PopPc T) :
    pc.checked ≤ 1 ∧ (pc.isReady = true → pc.checked = 0) := by
  rcases pc with _ | _ | _ | _ | _ | _ | _ | _ | _ | _ | _ | _ | _ | _
  case popStore => exact ⟨le_rfl, by rintro ⟨⟩⟩
  case aborted => exact ⟨le_rfl, by rintro ⟨⟩⟩
  all_goals exact ⟨Nat.zero_le 1, fun _ => rfl⟩

theorem producer_loads_le (hfair : Fair s) :
    (s.meter .producer).loads ≤ (s.meter .producer).short + (s.meter .consumer).stores + 1 ∧
      (s.base.returned .producer →
        (s.meter .producer).loads ≤ (s.meter .producer).short + (s.meter .consumer).stores) := by
  have hpushes := hfair.producer
  rw [Spsc.returned]
  rcases hp : s.base.producer with _ | r | p <;> rw [hp] at hpushes
  · have hloads : (s.meter .producer).loads = 0 := hpushes
    exact ⟨by omega, fun _ => by omega⟩
  · have hloads := hpushes.1
    exact ⟨by omega, fun _ => by omega⟩
  · have hpaid := Producer.Paid.paid hpushes
    obtain ⟨hone, hready⟩ := push_owed_le (s.meter .producer).asked p.pc
    refine ⟨by omega, fun hreturned => ?_⟩
    rw [hready hreturned] at hpaid
    omega

theorem consumer_loads_le (hfair : Fair s) :
    (s.meter .consumer).loads ≤ (s.meter .consumer).short + (s.meter .consumer).asserts +
        (s.meter .producer).stores + 1 ∧
      (s.base.returned .consumer →
        (s.meter .consumer).loads ≤ (s.meter .consumer).short + (s.meter .consumer).asserts +
          (s.meter .producer).stores) := by
  have hpops := hfair.consumer
  rw [Spsc.returned]
  rcases hq : s.base.consumer with _ | r | q <;> rw [hq] at hpops
  · have hloads : (s.meter .consumer).loads = 0 := hpops
    exact ⟨by omega, fun _ => by omega⟩
  · have hloads : (s.meter .consumer).loads = 0 := hpops
    exact ⟨by omega, fun _ => by omega⟩
  · have hpaid := Consumer.Paid.paid hpops
    obtain ⟨hone, hready⟩ := pop_owed_le (s.meter .consumer).asked q.pc
    refine ⟨by omega, fun hreturned => ?_⟩
    rw [hready hreturned] at hpaid
    omega

theorem asserts_le (hfair : Fair s) :
    (s.meter .consumer).asserts ≤ (s.meter .consumer).stores + 1 ∧
      (s.base.returned .consumer → (s.meter .consumer).asserts ≤ (s.meter .consumer).stores) := by
  have hasserted := hfair.asserted
  rw [Spsc.returned]
  rcases hq : s.base.consumer with _ | r | q <;> rw [hq, checked] at hasserted
  · exact ⟨by omega, fun _ => by omega⟩
  · exact ⟨by omega, fun _ => by omega⟩
  · obtain ⟨hone, hready⟩ := checked_le q.pc
    refine ⟨by omega, fun hreturned => ?_⟩
    rw [hready hreturned] at hasserted
    omega

/-- The peer's index is loaded no more often than calls gave less than was asked for, `pop()` has
asserted, and the peer has stored it, along every run. One load more may be that of a batch under
way. The producer asserts nothing, the consumer once for each store at most, with one assertion
more that of a `pop()` under way. -/
theorem loads_le (capacity : UInt64) (creator : Role) (slots : ℕ → T) {s : Metered T}
    (run : Reachable (step capacity) (created capacity creator slots) s) (role : Role) :
    (s.meter role).loads ≤ (s.meter role).short + (s.meter role).asserts +
        (s.meter role.peer).stores + 1 ∧
      (s.meter role).asserts ≤ role.asserts * ((s.meter role).stores + 1) ∧
      (s.base.returned role →
        (s.meter role).loads ≤ (s.meter role).short + (s.meter role).asserts +
            (s.meter role.peer).stores ∧
          (s.meter role).asserts ≤ role.asserts * (s.meter role).stores) := by
  have hfair : Fair s := run.invariant (fair_created capacity creator slots)
    fun _ _ _ h _ hstep => fair_step h hstep
  rcases role with _ | _
  · obtain ⟨hloads, hreturned⟩ := producer_loads_le hfair
    rw [hfair.unasserted]
    exact ⟨hloads, Nat.zero_le _, fun h => ⟨hreturned h, Nat.zero_le _⟩⟩
  · obtain ⟨hloads, hreturned⟩ := consumer_loads_le hfair
    obtain ⟨hasserts, hreturned'⟩ := asserts_le hfair
    rw [Role.asserts, one_mul, one_mul]
    exact ⟨hloads, hasserts, fun h => ⟨hreturned h, hreturned' h⟩⟩

theorem loads_le_wrapRun :
    ∃ s : Metered ℕ, ((s.meter .producer).loads = 1 ∧ (s.meter .producer).loads ≤
        (s.meter .producer).short + (s.meter .producer).asserts + (s.meter .consumer).stores) ∧
      (s.meter .consumer).loads = 1 ∧
      (s.meter .consumer).asserts ≤ Role.consumer.asserts * (s.meter .consumer).stores := by
  have hview : (exec (step 2) (fun _ _ => True) (created 2 .producer fun _ => 0)
      Spsc.wrapRun).map (fun s => ((s.meter .producer).loads, (s.meter .consumer).loads,
        s.base.returned .producer, s.base.returned .consumer)) = some (1, 1, true, true) := by
    decide
  obtain ⟨s, hs, hview⟩ := Option.map_eq_some_iff.mp hview
  simp only [Prod.mk.injEq] at hview
  obtain ⟨hproducer, hconsumer, hreturned, hreturned'⟩ := hview
  have run := Reaches.of_exec hs
  exact ⟨s, ⟨hproducer, ((loads_le 2 _ _ run .producer).2.2 hreturned).1⟩, hconsumer,
    ((loads_le 2 _ _ run .consumer).2.2 hreturned').2⟩

end Metered

/-! ## What a load is good for -/

section Ahead

variable {c : Capacity} {ring ring' : Ring T} {log : Log T} {cache : UInt64} {k : ℕ}

/-- The copy shows room for one more. -/
theorem ReadCache.next_ne (h : ring.Holds c log) (hcache : ReadCache c log cache (k + 1)) :
    nextIdx c.slots ring.writeIdx ≠ cache := by
  obtain ⟨C, hC, hle, hroom⟩ := hcache
  have := h.le
  rw [Ne, nextIdx_eq_iff c h.write hC (by omega) (by omega)]
  omega

/-- The copy shows one more element. -/
theorem WriteCache.read_ne (h : ring.Holds c log) (hcache : WriteCache c log cache (k + 1)) :
    ring.readIdx ≠ cache := by
  obtain ⟨D, hD, hle, hle'⟩ := hcache
  have := h.room
  rw [Ne, cell_eq_iff c hD h.read (by omega) (by omega)]
  omega

/-- How many elements a `try_push` under way is still to publish. -/
def PushPc.single : PushPc T → Option ℕ
  | .ready _ => some 0
  | .tryPushLoad _ => some 1
  | .tryPushTest _ _ _ => some 1
  | .tryPushCopy _ _ _ => some 1
  | .tryPushStore _ _ _ => some 1
  | _ => none

/-- The producer's copy shows room for `k` calls of `try_push` after the current one. -/
def Producer.Ahead (c : Capacity) (log : Log T) (k : ℕ) (p : Producer T) : Prop :=
  ∃ i, p.pc.single = some i ∧ ReadCache c log p.handle.readIdxCache (k + i)

/-- How many elements a `try_pop` under way is still to release. -/
def PopPc.single : PopPc T → Option ℕ
  | .ready _ => some 0
  | .frontLoad .tryPop => some 1
  | .frontTest .tryPop _ => some 1
  | .tryPopCopy _ => some 1
  | .popLoad (.tryPop _) => some 1
  | .popAssert (.tryPop _) _ => some 1
  | .popStore (.tryPop _) _ => some 1
  | _ => none

/-- The assertion of a `try_pop` under way is still to come. -/
def PopPc.unchecked : PopPc T → ℕ
  | .frontLoad .tryPop => 1
  | .frontTest .tryPop _ => 1
  | .tryPopCopy _ => 1
  | .popLoad (.tryPop _) => 1
  | .popAssert (.tryPop _) _ => 1
  | _ => 0

/-- The consumer's copy shows elements for `k` calls of `try_pop` after the current one. -/
def Consumer.Ahead (c : Capacity) (log : Log T) (k : ℕ) (q : Consumer T) : Prop :=
  ∃ i, q.pc.single = some i ∧ WriteCache c log q.handle.writeIdxCache (k + i)

/-- A call uses one up. -/
theorem Producer.ahead_call {p p' : Producer T} {v : T} {xs : List T}
    (h : p.Ahead c log (k + 1)) (hact : p.act ring (.tryPush v) = some (ring', p', xs)) :
    xs = [] ∧ p'.Ahead c log k := by
  obtain ⟨handle, pc⟩ := p
  obtain ⟨i, hi, hcache⟩ := h
  simp only [act] at hact
  split at hact
  next =>
    cases hact
    obtain rfl : 0 = i := Option.some.inj hi
    exact ⟨rfl, 1, rfl, hcache⟩
  next => cases hact

/-- A step of a `try_push` with room ahead loads nothing and does not fail. -/
theorem Producer.ahead_step {p p' : Producer T} {xs : List T} (hring : ring.Holds c log)
    (hp : p.Inv c ring log) (h : p.Ahead c log k) (hact : p.act ring .step = some (ring', p', xs))
    (asked : UInt64) :
    p'.Ahead c (log.publish xs) k ∧ p.pc.loads = 0 ∧ p'.pc.short asked = 0 := by
  obtain ⟨⟨capacity, cache, wcache⟩, pc⟩ := p
  obtain ⟨hcap, hpc⟩ := hp
  obtain rfl : capacity = c.slots := hcap
  obtain ⟨i, hi, hcache⟩ := h
  cases pc with
  | ready ret => cases hact
  | tryPushLoad v =>
    cases hact
    rw [Log.publish_nil]
    exact ⟨⟨i, hi, hcache⟩, rfl, rfl⟩
  | tryPushTest v w next =>
    obtain ⟨rfl, rfl, -⟩ := hpc
    obtain rfl : 1 = i := Option.some.inj hi
    simp only [act, if_neg (hcache.next_ne hring)] at hact
    cases hact
    rw [Log.publish_nil]
    exact ⟨⟨1, rfl, hcache⟩, rfl, rfl⟩
  | tryPushCopy v w next =>
    cases hact
    rw [Log.publish_nil]
    exact ⟨⟨i, hi, hcache⟩, rfl, rfl⟩
  | tryPushStore v w next =>
    obtain rfl : 1 = i := Option.some.inj hi
    cases hact
    obtain ⟨C, hC, hle, hroom⟩ := hcache
    refine ⟨⟨0, rfl, C, hC, hle, ?_⟩, rfl, rfl⟩
    rw [Log.publish_published, List.length_append, List.length_singleton]
    omega
  | _ => cases hi

/-- A call uses one up. -/
theorem Consumer.ahead_call {q q' : Consumer T} {xs : List T} (h : q.Ahead c log (k + 1))
    (hact : q.act ring .tryPop = some (ring', q', xs)) :
    xs = [] ∧ q'.Ahead c log k ∧ q'.pc.unchecked = 1 := by
  obtain ⟨handle, held, peeked, pc⟩ := q
  obtain ⟨i, hi, hcache⟩ := h
  simp only [act] at hact
  split at hact
  next =>
    cases hact
    obtain rfl : 0 = i := Option.some.inj hi
    exact ⟨rfl, ⟨1, rfl, hcache⟩, rfl⟩
  next => cases hact

/-- A step of a `try_pop` with elements ahead loads nothing but for the assertion, and does not
fail. -/
theorem Consumer.ahead_step {q q' : Consumer T} {xs : List T} (hring : ring.Holds c log)
    (hq : q.Inv c ring log) (h : q.Ahead c log k) (hact : q.act ring .step = some (ring', q', xs))
    (asked : UInt64) :
    q'.Ahead c (log.release xs) k ∧ q.pc.loads = q.pc.asserts ∧ q'.pc.short asked = 0 ∧
      q.pc.asserts + q'.pc.unchecked ≤ q.pc.unchecked := by
  obtain ⟨⟨capacity, rcache, cache⟩, held, peeked, pc⟩ := q
  obtain ⟨hcap, hpc, -, -⟩ := hq
  obtain rfl : capacity = c.slots := hcap
  obtain ⟨i, hi, hcache⟩ := h
  rcases pc with ret | (_ | _) | ⟨_ | _, r⟩ | ⟨_ | _, r⟩ | r | (_ | x) | ⟨_ | x, r⟩ | ⟨_ | x, r⟩ |
    n | ⟨n, r⟩ | ⟨n, r⟩ | ⟨r, count, dst⟩ | ⟨r, count, dst⟩ | _
  case ready => cases hact
  case frontLoad.tryPop =>
    cases hact
    rw [Log.release_nil]
    exact ⟨⟨i, hi, hcache⟩, rfl, rfl, le_rfl⟩
  case frontTest.tryPop =>
    obtain ⟨rfl, -⟩ := hpc
    obtain rfl : 1 = i := Option.some.inj hi
    simp only [act, if_neg (hcache.read_ne hring)] at hact
    cases hact
    rw [Log.release_nil]
    exact ⟨⟨1, rfl, hcache⟩, rfl, rfl, le_rfl⟩
  case tryPopCopy =>
    cases hact
    rw [Log.release_nil]
    exact ⟨⟨i, hi, hcache⟩, rfl, rfl, le_rfl⟩
  case popLoad.tryPop =>
    cases hact
    rw [Log.release_nil]
    exact ⟨⟨i, hi, hcache⟩, rfl, rfl, le_rfl⟩
  case popAssert.tryPop =>
    obtain ⟨rfl, -, -⟩ := hpc
    obtain rfl : 1 = i := Option.some.inj hi
    have hne : ring.writeIdx ≠ ring.readIdx := by
      have hle := hcache.le
      have hroom := hring.room
      rw [ne_comm, Ne, cell_eq_iff c hring.write hring.read (by omega) (by omega)]
      omega
    simp only [act, if_neg hne] at hact
    cases hact
    rw [Log.release_nil]
    exact ⟨⟨1, rfl, hcache⟩, rfl, rfl, le_rfl⟩
  case popStore.tryPop =>
    obtain rfl : 1 = i := Option.some.inj hi
    cases hact
    obtain ⟨D, hD, hle, hle'⟩ := hcache
    refine ⟨⟨0, rfl, D, hD, ?_, hle'⟩, rfl, rfl, le_rfl⟩
    rw [Log.release_released, List.length_append, List.length_singleton]
    omega
  all_goals cases hi

end Ahead

namespace Metered

variable {c : Capacity} {s s' : Metered T} {a : SpscAct T} {role : Role} {k : ℕ}

/-- What the copy of `role` shows : room, or elements. -/
def shows (s : Metered T) : Role → UInt64
  | .producer =>
    match s.base.producer with
    | .up p => freeSlots p.handle.capacity s.base.ring.writeIdx p.handle.readIdxCache
    | _ => 0
  | .consumer =>
    match s.base.consumer with
    | .up q => usedSlots q.handle.capacity q.handle.writeIdxCache s.base.ring.readIdx
    | _ => 0

/-- The action is a call of `try_push` or `try_pop` by `role`. -/
def single (role : Role) : SpscAct T → Bool
  | .produce (.tryPush _) => role = .producer
  | .consume .tryPop => role = .consumer
  | _ => false

/-- The copy of `role` is good for `k` calls more. -/
def Ahead (c : Capacity) (s : Metered T) (k : ℕ) : Role → Prop
  | .producer => ∃ p, s.base.producer = .up p ∧ p.Ahead c s.base.log k
  | .consumer => ∃ q, s.base.consumer = .up q ∧ q.Ahead c s.base.log k

/-- The assertion of the call of `role` under way is still to come. -/
def unchecked (s : Metered T) : Role → ℕ
  | .producer => 0
  | .consumer =>
    match s.base.consumer with
    | .up q => q.pc.unchecked
    | _ => 0

theorem unchecked_of_returned (hready : s.base.returned role) : s.unchecked role = 0 := by
  rcases role with _ | _
  · rfl
  · rw [Spsc.returned] at hready
    rw [unchecked]
    rcases hq : s.base.consumer with _ | r | ⟨handle, held, peeked, pc⟩
    · rfl
    · rfl
    · rw [hq] at hready
      cases pc with
      | ready ret => rfl
      | _ => cases hready

theorem ahead_of_shows (hinv : Spsc.Inv c s.base) (hready : s.base.returned role)
    (hk : k ≤ (s.shows role).toNat) : s.Ahead c k role := by
  rcases role with _ | _
  · rw [Spsc.returned] at hready
    rcases hp : s.base.producer with _ | r | ⟨⟨capacity, cache, wcache⟩, pc⟩ <;>
      rw [hp] at hready
    · cases hready
    · cases hready
    · obtain ⟨hcap, hpc⟩ := hinv.producer _ hp
      obtain rfl : capacity = c.slots := hcap
      rcases pc with ret | _ | _ | _ | _ | _ | _ | _ | _ | _ | _
      case ready =>
        rw [shows, hp] at hk
        exact ⟨_, hp, 0, rfl, ReadCache.of_le_freeSlots hinv.ring hpc hk⟩
      all_goals cases hready
  · rw [Spsc.returned] at hready
    rcases hq : s.base.consumer with _ | r | ⟨⟨capacity, rcache, cache⟩, held, peeked, pc⟩ <;>
      rw [hq] at hready
    · cases hready
    · cases hready
    · obtain ⟨hcap, hpc, -, -⟩ := hinv.consumer _ hq
      obtain rfl : capacity = c.slots := hcap
      rcases pc with ret | _ | _ | _ | _ | _ | _ | _ | _ | _ | _ | _ | _ | _
      case ready =>
        rw [shows, hq] at hk
        exact ⟨_, hq, 0, rfl, WriteCache.of_le_usedSlots hinv.ring hpc hk⟩
      all_goals cases hready

/-- A step of the peer. -/
theorem ahead_peer (h : s.Ahead c k role) (hstep : s.step c.slots a = some s')
    (hrole : a.role ≠ role) :
    s'.Ahead c k role ∧ s'.meter role = s.meter role ∧ s'.unchecked role = s.unchecked role := by
  rcases a with _ | _ | a | a
  · obtain ⟨hmeter, -, hlog, hattach, -⟩ := attach_eq hstep (.inl rfl)
    rcases role with _ | _
    · exact absurd rfl hrole
    · refine ⟨?_, by rw [hmeter], by simp only [unchecked, (hattach rfl).1]⟩
      rwa [Ahead, (hattach rfl).1, hlog]
  · obtain ⟨hmeter, -, hlog, -, hattach⟩ := attach_eq hstep (.inr rfl)
    rcases role with _ | _
    · refine ⟨?_, by rw [hmeter], rfl⟩
      rwa [Ahead, (hattach rfl).1, hlog]
    · exact absurd rfl hrole
  · obtain ⟨p, p', xs, -, -, -, hother, hlog, -, hmeter⟩ := produce_eq hstep
    rcases role with _ | _
    · exact absurd rfl hrole
    · obtain ⟨q, hq, i, hi, hcache⟩ := h
      refine ⟨⟨q, hother.trans hq, i, hi, ?_⟩, hmeter, by simp only [unchecked, hother]⟩
      rw [hlog]
      exact hcache.publish xs
  · obtain ⟨q, q', xs, -, -, -, hother, hlog, -, hmeter⟩ := consume_eq hstep
    rcases role with _ | _
    · obtain ⟨p, hp, i, hi, hcache⟩ := h
      refine ⟨⟨p, hother.trans hp, i, hi, ?_⟩, hmeter, rfl⟩
      rw [hlog]
      exact hcache.release xs
    · exact absurd rfl hrole

/-- What a step does to the counts of a side that its copy is good for : it makes no load but for
an assertion, and no call of it fails. -/
structure Spared (s s' : Metered T) (role : Role) (calls : ℕ) : Prop where
  loads : (s'.meter role).loads + (s.meter role).asserts =
    (s.meter role).loads + (s'.meter role).asserts
  short : (s'.meter role).short = (s.meter role).short
  asserts : (s'.meter role).asserts + s'.unchecked role ≤
    (s.meter role).asserts + s.unchecked role + role.asserts * calls

theorem Spared.trans {s₁ s₂ s₃ : Metered T} {n n' : ℕ} (h : Spared s₁ s₂ role n)
    (h' : Spared s₂ s₃ role n') : Spared s₁ s₃ role (n + n') := by
  obtain ⟨hloads, hshort, hasserts⟩ := h
  obtain ⟨hloads', hshort', hasserts'⟩ := h'
  refine ⟨by omega, hshort'.trans hshort, ?_⟩
  rw [Nat.mul_add]
  omega

/-- A call. -/
theorem ahead_single (h : s.Ahead c (k + 1) role) (hstep : s.step c.slots a = some s')
    (hsingle : single role a) : s'.Ahead c k role ∧ Spared s s' role 1 := by
  rcases a with _ | _ | (v | _ | _) | (_ | _ | _ | _ | _ | _)
  case produce.tryPush =>
    obtain rfl : role = .producer := of_decide_eq_true hsingle
    obtain ⟨p, p', xs, hp, hact, hp', -, hlog, hmeter, -⟩ := produce_eq hstep
    obtain ⟨p₀, hp₀, hahead⟩ := h
    obtain rfl : p = p₀ := Side.up.inj (hp.symm.trans hp₀)
    obtain ⟨rfl, hahead'⟩ := Producer.ahead_call hahead hact
    have hmeter' : s'.meter .producer = s.meter .producer := hmeter
    refine ⟨⟨p', hp', ?_⟩, by rw [hmeter'], by rw [hmeter'], ?_⟩
    · rwa [hlog, Log.publish_nil]
    · rw [hmeter']
      exact Nat.le_add_right _ _
  case consume.tryPop =>
    obtain rfl : role = .consumer := of_decide_eq_true hsingle
    obtain ⟨q, q', xs, hq, hact, hq', -, hlog, hmeter, -⟩ := consume_eq hstep
    obtain ⟨q₀, hq₀, hahead⟩ := h
    obtain rfl : q = q₀ := Side.up.inj (hq.symm.trans hq₀)
    obtain ⟨rfl, hahead', hone⟩ := Consumer.ahead_call hahead hact
    have hmeter' : s'.meter .consumer = s.meter .consumer := hmeter
    refine ⟨⟨q', hq', ?_⟩, by rw [hmeter'], by rw [hmeter'], ?_⟩
    · rwa [hlog, Log.release_nil]
    · have hone' : s'.unchecked .consumer = 1 := by rw [unchecked, hq', ← hone]
      rw [hmeter', hone', Role.asserts]
      omega
  all_goals cases hsingle

/-- A step of a call. -/
theorem ahead_next (hinv : Spsc.Inv c s.base) (h : s.Ahead c k role)
    (hstep : s.step c.slots (.next role) = some s') :
    s'.Ahead c k role ∧ Spared s s' role 0 := by
  rcases role with _ | _
  · obtain ⟨p, p', xs, hp, hact, hp', -, hlog, hmeter, -⟩ := produce_eq hstep
    obtain ⟨p₀, hp₀, hahead⟩ := h
    obtain rfl : p = p₀ := Side.up.inj (hp.symm.trans hp₀)
    obtain ⟨hahead', hloads, hshort⟩ := Producer.ahead_step hinv.ring (hinv.producer p hp) hahead
      hact (s.meter .producer).asked
    refine ⟨⟨p', hp', by rwa [hlog]⟩, ?_, ?_, ?_⟩
    · rw [hmeter, Meter.push, hloads]
      rfl
    · rw [hmeter, Meter.push, hshort]
      rfl
    · rw [hmeter, push_asserts]
      exact le_rfl
  · obtain ⟨q, q', xs, hq, hact, hq', -, hlog, hmeter, -⟩ := consume_eq hstep
    obtain ⟨q₀, hq₀, hahead⟩ := h
    obtain rfl : q = q₀ := Side.up.inj (hq.symm.trans hq₀)
    obtain ⟨hahead', hloads, hshort, hchecked⟩ := Consumer.ahead_step hinv.ring
      (hinv.consumer q hq) hahead hact (s.meter .consumer).asked
    refine ⟨⟨q', hq', by rwa [hlog]⟩, ?_, ?_, ?_⟩
    · rw [hmeter, Meter.pop, hloads]
      simp only
      omega
    · rw [hmeter, Meter.pop, hshort]
      rfl
    · rw [hmeter, Meter.pop, unchecked, unchecked, hq, hq']
      simp only
      omega

theorem base_of_step (h : s.step c.slots a = some s') : s.base.step c.slots a = some s'.base := by
  obtain ⟨base, hbase, rfl⟩ := Option.map_eq_some_iff.mp h
  exact hbase

theorem inv_of_reachable {creator : Role} {slots : ℕ → T}
    (run : Reachable (step c.slots) (created c.slots creator slots) s) : Spsc.Inv c s.base :=
  run.invariant (I := fun s => Spsc.Inv c s.base) (Spsc.inv_created c creator slots)
    fun _ _ _ h _ hstep => Spsc.inv_step h (base_of_step hstep)

/-- The calls that the copy is good for. -/
theorem ahead_exec {as : List (SpscAct T)} (hinv : Spsc.Inv c s.base)
    (h : s.Ahead c (as.countP (single role)) role)
    (hexec : exec (step c.slots) (fun _ _ => True) s as = some s')
    (hown : ∀ a ∈ as, a.role = role → single role a ∨ a = .next role) :
    Spared s s' role (as.countP (single role)) := by
  induction as generalizing s with
  | nil =>
    obtain rfl := Option.some.inj hexec
    exact ⟨rfl, rfl, Nat.le_add_right _ _⟩
  | cons a as ih =>
    rw [exec, if_pos trivial] at hexec
    obtain ⟨s₁, hstep, hrest⟩ := Option.bind_eq_some_iff.mp hexec
    have hinv₁ := Spsc.inv_step hinv (base_of_step hstep)
    have hown₁ : ∀ a ∈ as, a.role = role → single role a ∨ a = .next role :=
      fun a ha => hown a (List.mem_cons_of_mem _ ha)
    by_cases hrole : a.role = role
    · rcases hown a List.mem_cons_self hrole with hsingle | rfl
      · rw [List.countP_cons_of_pos hsingle] at h ⊢
        obtain ⟨h₁, hspared⟩ := ahead_single h hstep hsingle
        rw [Nat.add_comm]
        exact hspared.trans (ih hinv₁ h₁ hrest hown₁)
      · have hnot : single role (SpscAct.next role : SpscAct T) = false := by
          rcases role with _ | _ <;> rfl
        rw [List.countP_cons_of_neg (by simp [hnot])] at h ⊢
        obtain ⟨h₁, hspared⟩ := ahead_next hinv h hstep
        have hall := hspared.trans (ih hinv₁ h₁ hrest hown₁)
        rwa [Nat.zero_add] at hall
    · have hnot : single role a = false := by
        rcases a with _ | _ | (v | _ | _) | (_ | _ | _ | _ | _ | _)
        case produce.tryPush => exact decide_eq_false (Ne.symm hrole)
        case consume.tryPop => exact decide_eq_false (Ne.symm hrole)
        all_goals rfl
      rw [List.countP_cons_of_neg (by simp [hnot])] at h ⊢
      obtain ⟨h₁, hmeter, hunchecked⟩ := ahead_peer h hstep hrole
      obtain ⟨hloads, hshort, hasserts⟩ := ih hinv₁ h₁ hrest hown₁
      rw [hmeter] at hloads hshort hasserts
      rw [hunchecked] at hasserts
      exact ⟨hloads, hshort, hasserts⟩

/-- After one load a side runs through what the load has shown without another one. From any
reachable state with `role` between two calls, take as many calls of `try_push` or `try_pop` as
its copy shows room or elements for, their steps among any steps of the peer : none fails, and
none loads the peer's index, but for the assertion of `pop()`, once for each call of `try_pop`. -/
theorem run_through {L : Layout} {name : String} {requested : UInt64} {calls : CreateCalls}
    {g : Geometry} (hcreate : create L name requested calls = .ok g) (creator : Role)
    (slots : ℕ → T) {s s' : Metered T} {role : Role}
    (run : Reachable (step g.capacity) (created g.capacity creator slots) s)
    (hready : s.base.returned role) {as : List (SpscAct T)}
    (hexec : exec (step g.capacity) (fun _ _ => True) s as = some s')
    (hown : ∀ a ∈ as, a.role = role → single role a ∨ a = .next role)
    (hcount : as.countP (single role) ≤ (s.shows role).toNat) :
    (s'.meter role).loads + (s.meter role).asserts =
        (s.meter role).loads + (s'.meter role).asserts ∧
      (s'.meter role).asserts ≤
        (s.meter role).asserts + role.asserts * as.countP (single role) ∧
      (s'.meter role).short = (s.meter role).short := by
  obtain ⟨c, hc⟩ : ∃ c : Capacity, c.slots = g.capacity := ⟨.ofCreate hcreate, rfl⟩
  rw [← hc] at run hexec
  have hinv := inv_of_reachable run
  have hspared := ahead_exec hinv (ahead_of_shows hinv hready hcount) hexec hown
  have hasserts := hspared.asserts
  rw [unchecked_of_returned hready] at hasserts
  exact ⟨hspared.loads, by omega, hspared.short⟩

/-- Two calls of `try_push`, with an attach between their steps. -/
def twoPushes : List (SpscAct ℕ) :=
  SpscAct.produce (.tryPush 7) :: List.replicate 4 (SpscAct.produce .step) ++
    SpscAct.attachConsumer :: SpscAct.produce (.tryPush 8) ::
      List.replicate 4 (SpscAct.produce .step) ++ [SpscAct.attachConsumer]

/-- Two calls of `try_pop`, with one of `try_push` between their steps. -/
def twoPops : List (SpscAct ℕ) :=
  SpscAct.consume .tryPop :: SpscAct.produce (.tryPush 9) ::
    List.replicate 6 (SpscAct.consume .step) ++
      SpscAct.consume .tryPop :: List.replicate 6 (SpscAct.consume .step)

theorem run_through_twoPops :
    ∃ s s' : Metered ℕ, s.base.log.published = [7, 8] ∧ (s.meter .producer).loads = 0 ∧
      s'.base.log.released = [7, 8] ∧
      (s'.meter .consumer).loads = (s'.meter .consumer).asserts ∧
      (s'.meter .consumer).asserts ≤ 2 := by
  have hlog : (exec (step 3) (fun _ _ => True) (created 3 .producer fun _ => 0) twoPushes).map
      (fun s => (s.base.log.published, s.base.returned .consumer, s.shows .consumer,
        (s.meter .consumer).loads, (s.meter .consumer).asserts)) =
      some ([7, 8], true, 2, 0, 0) := by decide
  have hlog' : (exec (step 3) (fun _ _ => True) (created 3 .producer fun _ => 0)
      (twoPushes ++ twoPops)).map (fun s => s.base.log.released) = some [7, 8] := by decide
  obtain ⟨s, hs, hlog⟩ := Option.map_eq_some_iff.mp hlog
  obtain ⟨s', hs', hlog'⟩ := Option.map_eq_some_iff.mp hlog'
  simp only [Prod.mk.injEq] at hlog
  obtain ⟨hlog, hreturned, hshows, hloads, hasserts⟩ := hlog
  have hcreate : create messageLayout "/q" 2 ⟨none, none, none⟩ =
      .ok (createdGeometry messageLayout 3 400) := by decide
  have hown : ∀ a ∈ twoPushes, a.role = .producer → single .producer a ∨ a = .next .producer := by
    simp [twoPushes, List.replicate, SpscAct.role, single, SpscAct.next]
  have hown' : ∀ a ∈ twoPops, a.role = .consumer → single .consumer a ∨ a = .next .consumer := by
    simp [twoPops, List.replicate, SpscAct.role, single, SpscAct.next]
  have hpops : exec (step 3) (fun _ _ => True) s twoPops = some s' := by
    rwa [exec_append, hs, Option.bind_some] at hs'
  obtain ⟨hpush, hnone, -⟩ := run_through hcreate .producer _ .refl rfl hs hown (by decide)
  obtain ⟨hpop, htwo, -⟩ := run_through hcreate .producer _ (Reaches.of_exec hs) hreturned hpops
    hown' (by rw [hshows]; decide)
  rw [hloads, hasserts, Nat.add_zero, Nat.zero_add] at hpop
  rw [hasserts, Nat.zero_add] at htwo
  have hnone' : (s.meter .producer).asserts = 0 := Nat.le_zero.mp hnone
  rw [hnone'] at hpush
  exact ⟨s, s', hlog, hpush, hlog', hpop, htwo⟩

end Metered

end ShmSpsc
