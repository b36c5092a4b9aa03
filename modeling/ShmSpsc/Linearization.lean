import ShmSpsc.Atomic
import ShmSpsc.Decisions

/-!
# The queue as an object

What the queue is for, in one line : a list of at most `capacity()` elements, which the
operations change at one moment each (`boundedQueue`). `Spsc.linearizable` says that the calls
and returns of every run on a created segment are those of such an object. A push takes effect
with its store to `writeIdx`, a pop with its store to `readIdx`, and an operation that finds
the queue full or empty with its refresh load.

A batch operation takes at least one element if it can, and as many as it returns, but not
always as many as there are room for at that moment. `Spsc.not_linearizable_batches` is a
history that no queue with exact batches has.
-/

namespace ShmSpsc

open Transition Atomic

variable {T : Type*}

/-- The operations, as their callers see them. -/
inductive QueueOp (T : Type*) where
  | tryPush (v : T)
  | pushN (src : List T)
  | front
  | pop
  | tryPop
  | popN (n : ℕ)
  deriving DecidableEq

/-- What they return; `front` the element that its pointer shows. -/
inductive QueueRes (T : Type*) where
  | tryPush (ok : Bool)
  | pushN (count : ℕ)
  | front (p : Option T)
  | pop
  | tryPop (out : Option T)
  | popN (dst : List T)
  deriving DecidableEq

/-- What an operation does to the elements `q` of a queue of at most `n`. -/
inductive QueueDoes (n : ℕ) : List T → QueueOp T → QueueRes T → List T → Prop
  | tryPush {q : List T} (v : T) (hroom : q.length < n) :
      QueueDoes n q (.tryPush v) (.tryPush true) (q ++ [v])
  | full {q : List T} (v : T) (hfull : q.length = n) :
      QueueDoes n q (.tryPush v) (.tryPush false) q
  | pushN {q src : List T} {count : ℕ} (hcount : count ≤ src.length)
      (hroom : q.length + count ≤ n) (hzero : count = 0 → src = [] ∨ q.length = n) :
      QueueDoes n q (.pushN src) (.pushN count) (q ++ src.take count)
  | front {q : List T} : QueueDoes n q .front (.front q.head?) q
  | pop {q : List T} (x : T) : QueueDoes n (x :: q) .pop .pop q
  | tryPop {q : List T} : QueueDoes n q .tryPop (.tryPop q.head?) q.tail
  | popN {dst q : List T} {k : ℕ} (hcount : dst.length ≤ k)
      (hzero : dst = [] → k = 0 ∨ q = []) :
      QueueDoes n (dst ++ q) (.popN k) (.popN dst) q

/-- A queue of at most `n` elements, empty at first. -/
def boundedQueue (n : ℕ) : Atomic.Object (List T) (QueueOp T) (QueueRes T) := ⟨[], QueueDoes n⟩

/-! ## Calls and returns -/

/-- The elements that `push_n(src, n)` is given. -/
def batch (src : ℕ → T) (n : UInt64) : List T := (List.range n.toNat).map src

/-- The operation that a step calls. -/
def PushAct.op : PushAct T → Option (QueueOp T)
  | .tryPush v => some (.tryPush v)
  | .pushN src n => some (.pushN (batch src n))
  | .step => none

/-- The operation that a step calls. -/
def PopAct.op : PopAct → Option (QueueOp T)
  | .front => some .front
  | .copyFront => none
  | .pop => some .pop
  | .tryPop => some .tryPop
  | .popN n => some (.popN n.toNat)
  | .step => none

/-- What the caller gets. -/
def PushResult.shown : PushResult → QueueRes T
  | .tryPush ok => .tryPush ok
  | .pushN count => .pushN count.toNat

/-- What the caller gets, and what a pointer of `front` shows. -/
def PopResult.shown (ring : Ring T) : PopResult T → QueueRes T
  | .front p => .front (p.map fun r => ring.slots r.toNat)
  | .pop => .pop
  | .tryPop out => .tryPop out
  | .popN dst => .popN dst

/-- The return of the producer's operation, if it has returned. -/
def Producer.returns (p : Producer T) : List (Event Role (QueueOp T) (QueueRes T)) :=
  match p.pc with
  | .ready (some ret) => [.ret .producer ret.shown]
  | _ => []

/-- The return of the consumer's operation, if it has returned. -/
def Consumer.returns (ring : Ring T) (q : Consumer T) :
    List (Event Role (QueueOp T) (QueueRes T)) :=
  match q.pc with
  | .ready (some ret) => [.ret .consumer (ret.shown ring)]
  | _ => []

/-- The call of a step of `role`, if it is one. -/
def calls (role : Role) (op : Option (QueueOp T)) : List (Event Role (QueueOp T) (QueueRes T)) :=
  (op.map (Event.call role)).toList

/-- The calls and returns of the step `a` to `s'`. A copy out of a `front` pointer is
neither. -/
def Spsc.events (a : SpscAct T) (s' : Spsc T) : List (Event Role (QueueOp T) (QueueRes T)) :=
  match a, s'.producer, s'.consumer with
  | .produce a, .up p, _ => calls .producer a.op ++ p.returns
  | .consume .copyFront, _, _ => []
  | .consume a, _, .up q => calls .consumer a.op ++ q.returns s'.ring
  | _, _, _ => []

/-! ## The object goes along -/

/-- The status of a producer at a place of its operations. -/
def PushPc.Calls (st : Status (QueueOp T) (QueueRes T)) : PushPc T → Prop
  | .ready _ => st = .idle
  | .tryPushLoad v => st = .called (.tryPush v)
  | .tryPushTest v _ _ => st = .called (.tryPush v)
  | .tryPushRefresh v _ _ => st = .called (.tryPush v)
  | .tryPushCopy v _ _ => st = .called (.tryPush v)
  | .tryPushStore v _ _ => st = .called (.tryPush v)
  | .pushNLoad src n => st = .called (.pushN (batch src n))
  | .pushNTest src n _ => st = .called (.pushN (batch src n))
  | .pushNRefresh src n _ => st = .called (.pushN (batch src n))
  | .pushNCopy src _ count _ => ∃ n, st = .called (.pushN (batch src n)) ∧
      0 < count.toNat ∧ count.toNat ≤ n.toNat
  | .pushNStore src _ count => ∃ n, st = .called (.pushN (batch src n)) ∧
      0 < count.toNat ∧ count.toNat ≤ n.toNat

/-- What `front` is called by. -/
def Caller.op : Caller → QueueOp T
  | .user => .front
  | .tryPop => .tryPop

/-- What `pop()` is called by. -/
def PopBy.op : PopBy T → QueueOp T
  | .user _ => .pop
  | .tryPop _ => .tryPop

/-- The status of a consumer at a place of its operations. -/
def PopPc.Calls (st : Status (QueueOp T) (QueueRes T)) : PopPc T → Prop
  | .ready _ => st = .idle
  | .frontLoad k => st = .called k.op
  | .frontTest k _ => st = .called k.op
  | .frontRefresh k _ => st = .called k.op
  | .tryPopCopy _ => st = .called .tryPop
  | .popLoad b => st = .called b.op
  | .popAssert b _ => st = .called b.op
  | .popStore b _ => st = .called b.op
  | .popNLoad n => st = .called (.popN n.toNat)
  | .popNTest n _ => st = .called (.popN n.toNat)
  | .popNRefresh n _ => st = .called (.popN n.toNat)
  | .popNCopy _ count _ => ∃ n : UInt64, st = .called (.popN n.toNat) ∧
      0 < count.toNat ∧ count.toNat ≤ n.toNat
  | .popNStore _ count _ => ∃ n : UInt64, st = .called (.popN n.toNat) ∧
      0 < count.toNat ∧ count.toNat ≤ n.toNat
  | .aborted => False

/-- The object goes along with events of `role`, which leave it at `q` and `role` with a status
in `P`. -/
def Goes (n : ℕ) (role : Role) (S : State Role (List T) (QueueOp T) (QueueRes T))
    (h : List (Event Role (QueueOp T) (QueueRes T))) (q : List T)
    (P : Status (QueueOp T) (QueueRes T) → Prop) : Prop :=
  ∃ S', Follows (boundedQueue n) S h S' ∧ S'.value = q ∧ P (S'.status role) ∧
    ∀ role', role' ≠ role → S'.status role' = S.status role'

section Goes

variable {n : ℕ} {role : Role} {S : State Role (List T) (QueueOp T) (QueueRes T)} {q : List T}
  {P : Status (QueueOp T) (QueueRes T) → Prop} {op : QueueOp T} {res : QueueRes T}

theorem Goes.silent (hvalue : S.value = q) (hP : P (S.status role)) : Goes n role S [] q P :=
  ⟨S, .refl, hvalue, hP, fun _ _ => rfl⟩

theorem Goes.call (hvalue : S.value = q) (hidle : S.status role = .idle) (hP : P (.called op)) :
    Goes n role S [.call role op] q P := by
  refine ⟨_, .called hidle, hvalue, ?_, fun role' hne => ?_⟩
  · simpa [State.move] using hP
  · simp [State.move, hne]

theorem Goes.ret (hcalled : S.status role = .called op) (hdoes : QueueDoes n S.value op res q)
    (hP : P .idle) : Goes n role S [.ret role res] q P := by
  refine ⟨_, .returned hcalled hdoes, rfl, ?_, fun role' hne => ?_⟩
  · simpa [State.move] using hP
  · simp [State.move, hne]

/-- A call that returns in the same step. -/
theorem Goes.callRet (hidle : S.status role = .idle) (hdoes : QueueDoes n S.value op res q)
    (hP : P .idle) : Goes n role S [.call role op, .ret role res] q P := by
  obtain ⟨S₁, hcall, hvalue, hcalled, hother⟩ : Goes n role S [.call role op] S.value
    (· = .called op) := Goes.call rfl hidle rfl
  rw [← hvalue] at hdoes
  obtain ⟨S', hret, hvalue', hP', hother'⟩ := Goes.ret hcalled hdoes hP
  exact ⟨S', hcall.trans hret, hvalue', hP', fun role' hne => (hother' _ hne).trans (hother _ hne)⟩

end Goes

theorem Log.waiting_publish {log : Log T} (hle : log.released.length ≤ log.published.length)
    (xs : List T) : (log.publish xs).waiting = log.waiting ++ xs := by
  simp [Log.waiting, List.drop_append_of_le_length hle]

theorem Log.waiting_release {log : Log T} {xs : List T} (h : log.Oldest xs) :
    log.waiting = xs ++ (log.release xs).waiting := by
  obtain ⟨rest, hrest⟩ := h
  have hdrop : (log.released ++ xs ++ rest).drop (log.released ++ xs).length = rest :=
    List.drop_left
  rw [List.length_append] at hdrop
  rw [Log.waiting, Log.waiting, Log.release_published, ← hrest, Log.release_released,
    List.length_append, hdrop, List.append_assoc, List.drop_left]

theorem take_batch (src : ℕ → T) {n count : UInt64} (hle : count.toNat ≤ n.toNat) :
    (batch src n).take count.toNat = batch src count := by
  simp [batch, ← List.map_take, List.take_range, min_eq_left hle]

theorem batch_zero (src : ℕ → T) : batch src 0 = [] := by simp [batch]

/-- What `push_n` of `count` elements does, out of `n`. -/
theorem QueueDoes.batched {N : ℕ} {q : List T} (src : ℕ → T) {n count : UInt64}
    (hle : count.toNat ≤ n.toNat) (hroom : q.length + count.toNat ≤ N)
    (hzero : count = 0 → n = 0 ∨ q.length = N) :
    QueueDoes N q (.pushN (batch src n)) (PushResult.pushN count).shown (q ++ batch src count) := by
  rw [← take_batch src hle]
  refine .pushN (by simpa [batch] using hle) hroom fun hcount => ?_
  rcases hzero (UInt64.toNat_inj.mp hcount) with rfl | hfull
  · exact .inl (batch_zero src)
  · exact .inr hfull

section Producer

variable {c : Capacity} {ring ring' : Ring T} {log : Log T} {p p' : Producer T} {a : PushAct T}
  {xs : List T} {S : State Role (List T) (QueueOp T) (QueueRes T)}

/-- The object holds as many elements as wait, which are no more than it takes. -/
theorem length_value (hring : ring.Holds c log) (hvalue : S.value = log.waiting) :
    S.value.length = log.held ∧ log.held ≤ (capacityOf c.slots).toNat := by
  have hroom := hring.room
  have hle := hring.le
  refine ⟨by rw [hvalue, log.length_waiting], ?_⟩
  rw [toNat_capacityOf, Log.held]
  omega

/-- The object goes along with a call of the producer. -/
theorem Producer.call_goes (hring : ring.Holds c log) (h : p.act ring a = some (ring', p', xs))
    (hcall : a ≠ .step) (hvalue : S.value = log.waiting)
    (hst : p.pc.Calls (S.status .producer)) :
    Goes (capacityOf c.slots).toNat .producer S (calls .producer a.op ++ p'.returns)
      (log.publish xs).waiting p'.pc.Calls := by
  obtain ⟨hlength, hheld⟩ := length_value hring hvalue
  obtain ⟨handle, pc⟩ := p
  rw [log.waiting_publish hring.le xs, ← hvalue]
  rcases a with v | ⟨src, n⟩ | _
  · cases pc <;> simp only [act, reduceCtorEq] at h
    cases h
    exact Goes.call (by simp) hst rfl
  · cases pc <;> simp only [act, reduceCtorEq] at h
    split_ifs at h with hn <;> cases h
    · refine Goes.callRet hst ?_ rfl
      rw [hn]
      exact QueueDoes.batched src le_rfl (by simpa [hlength] using hheld) fun _ => .inl rfl
    · exact Goes.call (by simp) hst rfl
  · exact absurd rfl hcall

/-- The object goes along with a step of `try_push`. -/
theorem Producer.tryPush_goes (hring : ring.Holds c log) (hp : p.Inv c ring log)
    (h : p.act ring .step = some (ring', p', xs)) (hop : p.pc.inTryPush)
    (hvalue : S.value = log.waiting) (hst : p.pc.Calls (S.status .producer)) :
    Goes (capacityOf c.slots).toNat .producer S p'.returns (log.publish xs).waiting
      p'.pc.Calls := by
  obtain ⟨hlength, hheld⟩ := length_value hring hvalue
  have hwaiting := log.waiting_publish hring.le xs
  obtain ⟨⟨capacity, cache, wcache⟩, pc⟩ := p
  obtain ⟨hcap, hpc⟩ := hp
  obtain rfl : capacity = c.slots := hcap
  rw [hwaiting, ← hvalue]
  cases pc with
  | tryPushLoad v =>
    cases h
    exact Goes.silent (by simp) hst
  | tryPushTest v w next =>
    simp only [act] at h
    split_ifs at h <;> cases h <;> exact Goes.silent (by simp) hst
  | tryPushRefresh v w next =>
    obtain ⟨rfl, rfl, -⟩ := hpc
    simp only [act] at h
    split_ifs at h with heq <;> cases h
    · rw [List.append_nil]
      refine Goes.ret hst (.full v ?_) rfl
      rw [hlength, ← nextIdx_eq_readIdx_iff hring]
      exact heq
    · exact Goes.silent (by simp) hst
  | tryPushCopy v w next =>
    cases h
    exact Goes.silent (by simp) hst
  | tryPushStore v w next =>
    cases h
    have hle := hring.le
    have hroom := hpc.2.2.1.room
    refine Goes.ret hst (.tryPush v ?_) rfl
    rw [hlength, toNat_capacityOf, Log.held]
    omega
  | _ => cases hop

/-- The object goes along with a step of `push_n`. -/
theorem Producer.pushN_goes (hring : ring.Holds c log) (hp : p.Inv c ring log)
    (h : p.act ring .step = some (ring', p', xs)) (hop : p.pc.inPushN)
    (hvalue : S.value = log.waiting) (hst : p.pc.Calls (S.status .producer)) :
    Goes (capacityOf c.slots).toNat .producer S p'.returns (log.publish xs).waiting
      p'.pc.Calls := by
  obtain ⟨hlength, hheld⟩ := length_value hring hvalue
  have hwaiting := log.waiting_publish hring.le xs
  obtain ⟨⟨capacity, cache, wcache⟩, pc⟩ := p
  obtain ⟨hcap, hpc⟩ := hp
  obtain rfl : capacity = c.slots := hcap
  rw [hwaiting, ← hvalue]
  cases pc with
  | pushNLoad src n =>
    cases h
    exact Goes.silent (by simp) hst
  | pushNTest src n w =>
    obtain ⟨rfl, hn, hcache⟩ := hpc
    simp only [act] at h
    split_ifs at h with hlt <;> cases h
    · exact Goes.silent (by simp) hst
    · refine Goes.silent (by simp) ⟨n, hst, ?_⟩
      rw [UInt64.lt_iff_toNat_lt] at hlt
      have hpos : 0 < n.toNat := Nat.pos_of_ne_zero fun h0 => hn (UInt64.toNat_inj.mp h0)
      rw [toNat_min]
      omega
  | pushNRefresh src n w =>
    obtain ⟨rfl, hn, hcache⟩ := hpc
    simp only [act] at h
    split_ifs at h with hfree <;> cases h
    · rw [List.append_nil]
      have hfull : S.value.length = (capacityOf c.slots).toNat := by
        have hzero : (capacityOf c.slots).toNat - log.held = 0 := by
          rw [← toNat_freeSlots_eq hring, hfree]
          rfl
        omega
      have hdoes : QueueDoes _ S.value (.pushN (batch src n)) (PushResult.pushN 0).shown
          (S.value ++ batch src 0) :=
        .batched src (Nat.zero_le _) (by simpa using hfull.le) fun _ => .inr hfull
      rw [batch_zero, List.append_nil] at hdoes
      exact Goes.ret hst hdoes rfl
    · have hstart : (PushPc.pushNCopy src _ _ 0).Inv c ring log _ :=
        pushNCopy_start hring (.of_load hring hcache.room) hn hfree
      refine Goes.silent (by simp) ⟨n, hst, hstart.2.1, ?_⟩
      rw [toNat_min]
      exact min_le_left _ _
  | pushNCopy src w count i =>
    simp only [act, Option.some.injEq, Prod.mk.injEq] at h
    obtain ⟨-, rfl, rfl⟩ := h
    simp only [returns]
    split_ifs <;> exact Goes.silent (by simp) hst
  | pushNStore src w count =>
    cases h
    obtain ⟨n, hcalled, hpos, hcount⟩ := hst
    have hle := hring.le
    have hroom := hpc.2.1.room
    refine Goes.ret hcalled (QueueDoes.batched src hcount ?_ ?_) rfl
    · rw [hlength, toNat_capacityOf, Log.held]
      omega
    · rintro rfl
      simp at hpos
  | _ => cases hop

/-- The object goes along with a step of the producer. -/
theorem Producer.act_goes (hring : ring.Holds c log) (hp : p.Inv c ring log)
    (h : p.act ring a = some (ring', p', xs)) (hvalue : S.value = log.waiting)
    (hst : p.pc.Calls (S.status .producer)) :
    Goes (capacityOf c.slots).toNat .producer S (calls .producer a.op ++ p'.returns)
      (log.publish xs).waiting p'.pc.Calls := by
  rcases act_cases h with hcall | ⟨rfl, hop | hop⟩
  · exact call_goes hring h hcall hvalue hst
  · exact tryPush_goes hring hp h hop hvalue hst
  · exact pushN_goes hring hp h hop hvalue hst

end Producer

/-- What `pop_n` does if it takes nothing. -/
theorem QueueDoes.popNone {n k : ℕ} {q : List T} (h : k = 0 ∨ q = []) :
    QueueDoes n q (.popN k) (.popN []) q :=
  @QueueDoes.popN T n [] q k (Nat.zero_le k) fun _ => h

section Consumer

variable {c : Capacity} {ring ring' : Ring T} {log : Log T} {q q' : Consumer T} {a : PopAct}
  {xs : List T} {S : State Role (List T) (QueueOp T) (QueueRes T)}

/-- The oldest element is the one in the slot of `readIdx`. -/
theorem head?_waiting (hring : ring.Holds c log)
    (hlt : log.released.length + 1 ≤ log.published.length) :
    log.waiting.head? = some (ring.slots ring.readIdx.toNat) := by
  rw [Log.waiting_release (Consumer.oldest_slot hring hlt)]
  rfl

/-- `front` has found an element. -/
theorem Consumer.frontSlot_goes {n : ℕ} (hring : ring.Holds c log)
    (hlt : log.released.length + 1 ≤ log.published.length) (hvalue : S.value = log.waiting)
    (k : Caller) (hst : S.status .consumer = .called k.op) :
    Goes n .consumer S ((q.frontSlot ring.readIdx k).returns ring) log.waiting
      (q.frontSlot ring.readIdx k).pc.Calls := by
  rcases k with _ | _
  · refine Goes.ret hst ?_ rfl
    rw [hvalue]
    have hhead := head?_waiting hring hlt
    simp only [PopResult.shown, Option.map_some, ← hhead]
    exact .front
  · exact Goes.silent hvalue hst

/-- `front` has found none. -/
theorem Consumer.frontNull_goes {n : ℕ} (hempty : log.held = 0) (hvalue : S.value = log.waiting)
    (k : Caller) (hst : S.status .consumer = .called k.op) :
    Goes n .consumer S ((q.frontNull k).returns ring) log.waiting (q.frontNull k).pc.Calls := by
  have hnil := log.waiting_eq_nil hempty
  rw [hnil] at hvalue ⊢
  rcases k with _ | _
  · refine Goes.ret hst ?_ rfl
    rw [hvalue]
    exact .front
  · refine Goes.ret hst ?_ rfl
    rw [hvalue]
    exact .tryPop

/-- The object goes along with a call of the consumer. -/
theorem Consumer.call_goes (h : q.act ring a = some (ring', q', xs)) (hcall : a ≠ .step)
    (hcopy : a ≠ .copyFront) (hvalue : S.value = log.waiting)
    (hst : q.pc.Calls (S.status .consumer)) :
    Goes (capacityOf c.slots).toNat .consumer S (calls .consumer a.op ++ q'.returns ring')
      (log.release xs).waiting q'.pc.Calls := by
  obtain ⟨handle, held, peeked, pc⟩ := q
  rcases a with _ | _ | _ | _ | n | _
  · cases pc <;> simp only [act, reduceCtorEq] at h
    cases h
    exact Goes.call (by simpa using hvalue) hst rfl
  · exact absurd rfl hcopy
  · cases pc <;> cases held <;> simp only [act, reduceCtorEq] at h
    cases h
    exact Goes.call (by simpa using hvalue) hst rfl
  · cases pc <;> simp only [act, reduceCtorEq] at h
    cases h
    exact Goes.call (by simpa using hvalue) hst rfl
  · cases pc <;> simp only [act, reduceCtorEq] at h
    split_ifs at h with hn <;> cases h
    · refine Goes.callRet hst ?_ rfl
      rw [hvalue, hn, Log.release_nil]
      exact .popNone (.inl rfl)
    · exact Goes.call (by simpa using hvalue) hst rfl
  · exact absurd rfl hcall

/-- The object goes along with a step of `front`. -/
theorem Consumer.front_goes (hring : ring.Holds c log) (hq : q.Inv c ring log)
    (h : q.act ring .step = some (ring', q', xs)) (hop : q.pc.inFront)
    (hvalue : S.value = log.waiting) (hst : q.pc.Calls (S.status .consumer)) :
    Goes (capacityOf c.slots).toNat .consumer S (q'.returns ring') (log.release xs).waiting
      q'.pc.Calls := by
  have hempty := readIdx_eq_writeIdx_iff hring
  obtain ⟨⟨capacity, rcache, cache⟩, held, peeked, pc⟩ := q
  obtain ⟨hcap, hpc, -, -⟩ := hq
  obtain rfl : capacity = c.slots := hcap
  cases pc with
  | frontLoad k =>
    cases h
    exact Goes.silent (by simpa using hvalue) hst
  | frontTest k r =>
    obtain ⟨rfl, hcache⟩ := hpc
    simp only [act] at h
    split_ifs at h with heq <;> cases h
    · exact Goes.silent (by simpa using hvalue) hst
    · rw [Log.release_nil]
      exact frontSlot_goes hring (hcache.one_of_ne hring heq).le hvalue k hst
  | frontRefresh k r =>
    obtain ⟨rfl, hcache⟩ := hpc
    have hload := WriteCache.of_load hring hcache.le
    simp only [act] at h
    split_ifs at h with heq <;> cases h
    · rw [Log.release_nil]
      exact frontNull_goes (hempty.mp heq) hvalue k hst
    · rw [Log.release_nil]
      exact frontSlot_goes hring (hload.one_of_ne hring heq).le hvalue k hst
  | _ => cases hop

/-- The object goes along with a step of `pop()`. -/
theorem Consumer.pop_goes (hring : ring.Holds c log) (hq : q.Inv c ring log)
    (h : q.act ring .step = some (ring', q', xs)) (hop : q.pc.inPop)
    (hvalue : S.value = log.waiting) (hst : q.pc.Calls (S.status .consumer)) :
    Goes (capacityOf c.slots).toNat .consumer S (q'.returns ring') (log.release xs).waiting
      q'.pc.Calls := by
  have hwaiting : log.waiting = xs ++ (log.release xs).waiting :=
    Log.waiting_release (Consumer.act_inv hring hq h).1.fifo
  have hempty := readIdx_eq_writeIdx_iff hring
  obtain ⟨⟨capacity, rcache, cache⟩, held, peeked, pc⟩ := q
  obtain ⟨hcap, hpc, -, -⟩ := hq
  obtain rfl : capacity = c.slots := hcap
  cases pc with
  | tryPopCopy r =>
    cases h
    exact Goes.silent (by simpa using hvalue) hst
  | popLoad b =>
    cases h
    exact Goes.silent (by simpa using hvalue) hst
  | popAssert b r =>
    obtain ⟨rfl, hcache, -⟩ := hpc
    simp only [act] at h
    split_ifs at h with heq <;> cases h
    · have := hcache.le
      have := hempty.mp heq.symm
      rw [Log.held] at this
      omega
    · exact Goes.silent (by simpa using hvalue) hst
  | popStore b r =>
    cases h
    refine Goes.ret hst ?_ rfl
    rw [hvalue, hwaiting]
    rcases b with peeked | out
    · exact .pop _
    · exact .tryPop
  | _ => cases hop

/-- The object goes along with a step of `pop_n`. -/
theorem Consumer.popN_goes (hring : ring.Holds c log) (hq : q.Inv c ring log)
    (h : q.act ring .step = some (ring', q', xs)) (hop : q.pc.inPopN)
    (hvalue : S.value = log.waiting) (hst : q.pc.Calls (S.status .consumer)) :
    Goes (capacityOf c.slots).toNat .consumer S (q'.returns ring') (log.release xs).waiting
      q'.pc.Calls := by
  have hwaiting : log.waiting = xs ++ (log.release xs).waiting :=
    Log.waiting_release (Consumer.act_inv hring hq h).1.fifo
  obtain ⟨⟨capacity, rcache, cache⟩, held, peeked, pc⟩ := q
  obtain ⟨hcap, hpc, -, -⟩ := hq
  obtain rfl : capacity = c.slots := hcap
  cases pc with
  | popNLoad n =>
    cases h
    exact Goes.silent (by simpa using hvalue) hst
  | popNTest n r =>
    obtain ⟨rfl, hn, hcache⟩ := hpc
    simp only [act] at h
    split_ifs at h with hlt <;> cases h
    · exact Goes.silent (by simpa using hvalue) hst
    · refine Goes.silent (by simpa using hvalue) ⟨n, hst, ?_⟩
      rw [UInt64.lt_iff_toNat_lt] at hlt
      have hpos : 0 < n.toNat := Nat.pos_of_ne_zero fun h0 => hn (UInt64.toNat_inj.mp h0)
      rw [toNat_min]
      omega
  | popNRefresh n r =>
    obtain ⟨rfl, hn, hcache⟩ := hpc
    simp only [act] at h
    split_ifs at h with hzero <;> cases h
    · refine Goes.ret hst ?_ rfl
      have hnil : log.waiting = [] := by
        refine log.waiting_eq_nil ?_
        rw [← toNat_usedSlots_eq hring, hzero]
        rfl
      rw [hvalue, Log.release_nil, hnil]
      exact .popNone (.inr rfl)
    · have hstart := popNCopy_start hring (.of_load hring hcache.le) hn hzero
      refine Goes.silent (by simpa using hvalue) ⟨n, hst, hstart.2.1, ?_⟩
      rw [toNat_min]
      exact min_le_left _ _
  | popNCopy r count dst =>
    simp only [act, Option.some.injEq, Prod.mk.injEq] at h
    obtain ⟨-, rfl, rfl⟩ := h
    simp only [returns]
    split_ifs <;> exact Goes.silent (by simpa using hvalue) hst
  | popNStore r count dst =>
    cases h
    obtain ⟨n, hcalled, hpos, hle⟩ := hst
    have hlen : xs.length = count.toNat := hpc.2.1
    refine Goes.ret hcalled ?_ rfl
    rw [hvalue, hwaiting]
    refine .popN (by omega) ?_
    rintro rfl
    simp at hlen
    omega
  | _ => cases hop

/-- The object goes along with a step of the consumer, other than a copy out of its `front`
pointer. -/
theorem Consumer.act_goes (hring : ring.Holds c log) (hq : q.Inv c ring log)
    (h : q.act ring a = some (ring', q', xs)) (hcopy : a ≠ .copyFront)
    (hvalue : S.value = log.waiting) (hst : q.pc.Calls (S.status .consumer)) :
    Goes (capacityOf c.slots).toNat .consumer S (calls .consumer a.op ++ q'.returns ring')
      (log.release xs).waiting q'.pc.Calls := by
  rcases act_cases h with hcall | ⟨rfl, hop | hop | hop⟩
  · exact call_goes h hcall hcopy hvalue hst
  · exact front_goes hring hq h hop hvalue hst
  · exact pop_goes hring hq h hop hvalue hst
  · exact popN_goes hring hq h hop hvalue hst

end Consumer

/-! ## Runs -/

namespace Spsc

variable {c : Capacity} {s s' : Spsc T} {a : SpscAct T}
  {S : State Role (List T) (QueueOp T) (QueueRes T)}

/-- The object holds what is waiting, and each side has called what it is in. -/
structure Linked (c : Capacity) (s : Spsc T) (S : State Role (List T) (QueueOp T) (QueueRes T)) :
    Prop where
  inv : Inv c s
  value : S.value = s.log.waiting
  producer : match s.producer with
    | .up p => p.pc.Calls (S.status .producer)
    | _ => S.status .producer = .idle
  consumer : match s.consumer with
    | .up q => q.pc.Calls (S.status .consumer)
    | _ => S.status .consumer = .idle

theorem linked_created (c : Capacity) (role : Role) (slots : ℕ → T) :
    Linked c (created c.slots role slots) (boundedQueue (capacityOf c.slots).toNat).initial := by
  refine ⟨inv_created c role slots, rfl, ?_, ?_⟩
  · rcases role with _ | _ <;> rfl
  · rcases role with _ | _ <;> rfl

theorem events_consume {b : PopAct} {q : Consumer T} (hcopy : b ≠ .copyFront)
    (hq : s.consumer = .up q) :
    events (.consume b) s = calls .consumer b.op ++ q.returns s.ring := by
  rcases b with _ | _ | _ | _ | n | _ <;> simp_all [events]

/-- The object goes along with every step. -/
theorem linked_step (hlinked : Linked c s S) (h : s.step c.slots a = some s') :
    ∃ S', Follows (boundedQueue (capacityOf c.slots).toNat) S (events a s') S' ∧
      Linked c s' S' := by
  have hinv' := inv_step hlinked.inv h
  obtain ⟨hinv, hvalue, hproducer, hconsumer⟩ := hlinked
  rcases a with _ | _ | a | a
  · refine ⟨S, .refl, hinv', ?_, ?_, ?_⟩
    all_goals
      simp only [step] at h
      split at h <;> cases h
    all_goals simp_all [Producer.fresh, PushPc.Calls]
  · refine ⟨S, .refl, hinv', ?_, ?_, ?_⟩
    all_goals
      simp only [step] at h
      split at h <;> cases h
    all_goals simp_all [Consumer.fresh, PopPc.Calls]
  · simp only [step] at h
    split at h
    next p hp =>
      obtain ⟨⟨ring, p', xs⟩, hact, rfl⟩ := Option.map_eq_some_iff.mp h
      rw [hp] at hproducer
      obtain ⟨S', hfollows, hvalue', hcalls, hother⟩ :=
        Producer.act_goes hinv.ring (hinv.producer p hp) hact hvalue hproducer
      refine ⟨S', hfollows, hinv', hvalue', hcalls, ?_⟩
      rw [hother .consumer (by simp)]
      exact hconsumer
    next => cases h
  · simp only [step] at h
    split at h
    next q hq =>
      obtain ⟨⟨ring, q', xs⟩, hact, rfl⟩ := Option.map_eq_some_iff.mp h
      rw [hq] at hconsumer
      by_cases hcopy : a = .copyFront
      · -- the copy is the caller's
        subst hcopy
        refine ⟨S, .refl, hinv', ?_, hproducer, ?_⟩
        all_goals
          obtain ⟨handle, held, peeked, pc⟩ := q
          simp only [Consumer.act] at hact
          split at hact <;> cases hact
        · simpa using hvalue
        · exact hconsumer
      · obtain ⟨S', hfollows, hvalue', hcalls, hother⟩ :=
          Consumer.act_goes hinv.ring (hinv.consumer q hq) hact hcopy hvalue hconsumer
        refine ⟨S', ?_, hinv', hvalue', ?_, hcalls⟩
        · rw [events_consume hcopy rfl]
          exact hfollows
        · rw [hother .producer (by simp)]
          exact hproducer
    next => cases h

/-- The queue is linearizable. On every segment that `create` makes, the calls and returns of
every run are those of a queue of at most `capacity()` elements, whose operations take effect at
one moment each. -/
theorem linearizable {L : Layout} {name : String} {requested : UInt64} {calls : CreateCalls}
    {g : Geometry} (hcreate : create L name requested calls = .ok g) (role : Role)
    (slots : ℕ → T) {as : List (SpscAct T)} {s : Spsc T}
    (hexec : exec (step g.capacity) (fun _ _ => True) (created g.capacity role slots) as =
      some s) :
    Linearizable (boundedQueue (capacityOf g.capacity).toNat)
      (history (step g.capacity) events (created g.capacity role slots) as) := by
  let c : Capacity := .ofCreate hcreate
  have keep : ∀ (s : Spsc T) S a s', Linked c s S → s.step g.capacity a = some s' →
      ∃ S', Follows (boundedQueue (capacityOf g.capacity).toNat) S (events a s') S' ∧
        Linked c s' S' := fun _ _ _ _ hlinked h => linked_step hlinked h
  exact Linearizable.of_exec (linked_created c role slots) keep hexec

theorem linearizable_wrapRun :
    history (step 2) events (created 2 .producer fun _ => 0) wrapRun =
        [.call .producer (.tryPush 7), .ret .producer (.tryPush true), .call .consumer .tryPop,
          .ret .consumer (.tryPop (some 7)), .call .producer (.tryPush 8),
          .ret .producer (.tryPush true)] ∧
      Linearizable (boundedQueue 1) (history (step 2) events (created 2 .producer fun _ => 0)
        wrapRun) := by
  refine ⟨by decide +kernel, ?_⟩
  have hlog : (exec (step 2) (fun _ _ => True) (created 2 .producer fun _ => 0) wrapRun).isSome :=
    by decide
  obtain ⟨s, hs⟩ := Option.isSome_iff_exists.mp hlog
  have hcreate : create messageLayout "/q" 1 ⟨none, none, none⟩ =
      .ok (createdGeometry messageLayout 2 352) := by decide
  exact linearizable hcreate _ _ hs

/-- A queue of at most `n` elements whose batch operations take all they can. -/
def exactBatches (n : ℕ) (q : List T) : QueueOp T → QueueRes T × List T
  | .tryPush v => if q.length < n then (.tryPush true, q ++ [v]) else (.tryPush false, q)
  | .pushN src =>
    (.pushN (min src.length (n - q.length)), q ++ src.take (min src.length (n - q.length)))
  | .front => (.front q.head?, q)
  | .pop => (.pop, q.tail)
  | .tryPop => (.tryPop q.head?, q.tail)
  | .popN k => (.popN (q.take k), q.drop k)

/-- Two elements go in and one comes out. Then a batch of two finds room for one; before it is
published the other element comes out, and the queue is found empty. -/
def partialRun : List (SpscAct ℕ) :=
  SpscAct.produce (.pushN id 2) :: List.replicate 5 (SpscAct.produce .step) ++
    List.replicate 2 SpscAct.attachConsumer ++
    SpscAct.consume .tryPop :: List.replicate 6 (SpscAct.consume .step) ++
    SpscAct.produce (.pushN id 2) :: List.replicate 4 (SpscAct.produce .step) ++
    SpscAct.consume .tryPop :: List.replicate 6 (SpscAct.consume .step) ++
    SpscAct.consume .tryPop :: List.replicate 3 (SpscAct.consume .step) ++
    [SpscAct.produce .step]

/-- With exact batches the second one would have left an element to find. -/
theorem not_linearizable_batches :
    (exec (step 3) (fun _ _ => True) (created 3 .producer fun _ => 0) partialRun).isSome ∧
      ¬Linearizable (.ofFun [] (exactBatches 2))
        (history (step 3) events (created 3 .producer fun _ => 0) partialRun) := by
  refine ⟨by decide, fun hlin => ?_⟩
  have hts : ∀ role, role ∈ [Role.producer, Role.consumer] := by
    intro role
    rcases role with _ | _ <;> simp
  exact hlin.search_ne_nil hts (by decide +kernel)

end Spsc

end ShmSpsc
