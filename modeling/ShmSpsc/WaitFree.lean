import ShmSpsc.Blocking
import ShmSpsc.RaceFree

/-!
# The operations are wait-free

`try_push`, `push_n`, `front`, `pop()`, `try_pop` and `pop_n` have no loop that waits for the
peer. `PushPc.remaining` and `PopPc.remaining` bound the steps that are left of an operation in
progress : an own step decreases them (`Producer.act_remaining`, `Consumer.act_remaining`), a
step of the peer leaves them, and before the operation has returned its next step is enabled.
`Weak.wait_free` puts this together for a call among any steps of the peer, with the loads of
the peer's index as late as the memory allows, and whatever the orders are.
-/

namespace ShmSpsc

open Transition Race

variable {T : Type*}

/-! ## The steps that are left -/

/-- At most how many elements a batch of `n` moves : no more than `capacity()`. -/
def batchBound (capacity n : UInt64) : ℕ := min n.toNat (capacity.toNat - 1)

/-- At most how many steps are left of an operation of the producer : the load, the test, the
refresh, the copies and the store. -/
def PushPc.remaining (capacity : UInt64) : PushPc T → ℕ
  | .ready _ => 0
  | .tryPushLoad _ => 5
  | .tryPushTest _ _ _ => 4
  | .tryPushRefresh _ _ _ => 3
  | .tryPushCopy _ _ _ => 2
  | .tryPushStore _ _ _ => 1
  | .pushNLoad _ n => batchBound capacity n + 4
  | .pushNTest _ n _ => batchBound capacity n + 3
  | .pushNRefresh _ n _ => batchBound capacity n + 2
  | .pushNCopy _ _ count i => count.toNat - i + 1
  | .pushNStore _ _ _ => 1

/-- The steps of `try_pop` after its `front` : the copy, and the three of `pop()`. -/
def Caller.remaining : Caller → ℕ
  | .user => 0
  | .tryPop => 4

/-- At most how many steps are left of an operation of the consumer. -/
def PopPc.remaining (capacity : UInt64) : PopPc T → ℕ
  | .ready _ => 0
  | .frontLoad k => k.remaining + 3
  | .frontTest k _ => k.remaining + 2
  | .frontRefresh k _ => k.remaining + 1
  | .tryPopCopy _ => 4
  | .popLoad _ => 3
  | .popAssert _ _ => 2
  | .popStore _ _ => 1
  | .popNLoad n => batchBound capacity n + 4
  | .popNTest n _ => batchBound capacity n + 3
  | .popNRefresh n _ => batchBound capacity n + 2
  | .popNCopy _ count dst => count.toNat - dst.length + 1
  | .popNStore _ _ _ => 1
  | .aborted => 0

/-- At most how many steps a call takes. -/
def SpscAct.cost (capacity : UInt64) : SpscAct T → ℕ
  | .produce (.tryPush _) => 5
  | .produce (.pushN _ n) => batchBound capacity n + 4
  | .consume .front => 3
  | .consume .pop => 3
  | .consume .tryPop => 7
  | .consume (.popN n) => batchBound capacity n + 4
  | _ => 0

/-- The call of an operation. -/
def SpscAct.isCall : SpscAct T → Bool
  | .produce (.tryPush _) => true
  | .produce (.pushN _ _) => true
  | .consume .front => true
  | .consume .pop => true
  | .consume .tryPop => true
  | .consume (.popN _) => true
  | _ => false

/-- The next step of the operation of `role`. -/
def SpscAct.next : Role → SpscAct T
  | .producer => .produce .step
  | .consumer => .consume .step

/-! ## An own step -/

section Own

variable {c : Capacity} {ring ring' : Ring T} {log : Log T} {xs : List T}

/-- No batch is larger than the room that a cached index can show. -/
theorem min_freeSlots_le {cache n : UInt64} (hring : ring.Holds c log)
    (hcache : ReadCache c log cache 0) :
    (min n (freeSlots c.slots ring.writeIdx cache)).toNat ≤ batchBound c.slots n := by
  obtain ⟨C, hC, hle, hroom⟩ := hcache
  have := hring.le
  rw [toNat_min, toNat_freeSlots c hring.write hC (by omega) (by omega), batchBound]
  omega

/-- Nor than the elements it can show. -/
theorem min_usedSlots_le {cache n : UInt64} (hring : ring.Holds c log)
    (hcache : WriteCache c log cache 0) :
    (min n (usedSlots c.slots cache ring.readIdx)).toNat ≤ batchBound c.slots n := by
  obtain ⟨D, hD, hle, hle'⟩ := hcache
  have := hring.room
  rw [toNat_min, toNat_usedSlots c hD hring.read (by omega) (by omega), batchBound]
  omega

theorem Producer.act_remaining {p p' : Producer T} (hring : ring.Holds c log)
    (hp : p.Inv c ring log) (h : p.act ring .step = some (ring', p', xs)) :
    p'.pc.remaining c.slots < p.pc.remaining c.slots := by
  obtain ⟨⟨capacity, cache, wcache⟩, pc⟩ := p
  obtain ⟨hcap, hpc⟩ := hp
  obtain rfl : capacity = c.slots := hcap
  cases pc with
  | pushNTest src n w =>
    obtain ⟨rfl, hn, hcache⟩ := hpc
    have hle : (min n (freeSlots c.slots ring.writeIdx cache)).toNat ≤ _ :=
      min_freeSlots_le hring hcache
    simp only [act] at h
    split_ifs at h <;> cases h <;> simp only [PushPc.remaining]
    · omega
    · omega
  | pushNRefresh src n w =>
    obtain ⟨rfl, hn, hcache⟩ := hpc
    have hload := ReadCache.of_load hring hcache.room
    have hle := min_freeSlots_le (n := n) hring hload
    simp only [act] at h
    split_ifs at h <;> cases h <;> simp only [PushPc.remaining, refresh]
    · omega
    · omega
  | pushNCopy src w count i =>
    have hi : i < count.toNat := hpc.2.1
    simp only [act, Option.some.injEq, Prod.mk.injEq] at h
    obtain ⟨-, rfl, -⟩ := h
    simp only
    split_ifs <;> simp only [PushPc.remaining] <;> omega
  | _ =>
    simp only [act] at h
    try split_ifs at h
    all_goals cases h
    all_goals simp [PushPc.remaining, refresh]

theorem Consumer.act_remaining {q q' : Consumer T} (hring : ring.Holds c log)
    (hq : q.Inv c ring log) (h : q.act ring .step = some (ring', q', xs)) :
    q'.pc.remaining c.slots < q.pc.remaining c.slots := by
  obtain ⟨⟨capacity, rcache, cache⟩, held, peeked, pc⟩ := q
  obtain ⟨hcap, hpc, -, -⟩ := hq
  obtain rfl : capacity = c.slots := hcap
  cases pc with
  | frontTest k r =>
    simp only [act] at h
    split_ifs at h <;> cases h
    · simp [PopPc.remaining]
    · rcases k with _ | _ <;> simp [frontSlot, PopPc.remaining, Caller.remaining]
  | frontRefresh k r =>
    simp only [act] at h
    split_ifs at h <;> cases h
    · rcases k with _ | _ <;> simp [frontNull, PopPc.remaining]
    · rcases k with _ | _ <;> simp [frontSlot, PopPc.remaining, Caller.remaining]
  | popNTest n r =>
    obtain ⟨rfl, hn, hcache⟩ := hpc
    have hle : (min n (usedSlots c.slots cache ring.readIdx)).toNat ≤ _ :=
      min_usedSlots_le hring hcache
    simp only [act] at h
    split_ifs at h <;> cases h <;> simp only [PopPc.remaining, List.length_nil]
    · omega
    · omega
  | popNRefresh n r =>
    obtain ⟨rfl, hn, hcache⟩ := hpc
    have hload := WriteCache.of_load hring hcache.le
    have hle := min_usedSlots_le (n := n) hring hload
    simp only [act] at h
    split_ifs at h <;> cases h <;> simp only [PopPc.remaining, List.length_nil]
    · omega
    · omega
  | popNCopy r count dst =>
    have hlen : dst.length < count.toNat := hpc.2.1
    simp only [act, Option.some.injEq, Prod.mk.injEq] at h
    obtain ⟨-, rfl, -⟩ := h
    simp only [List.length_append, List.length_singleton]
    split_ifs <;> simp only [PopPc.remaining, List.length_append, List.length_singleton] <;> omega
  | _ =>
    simp only [act] at h
    try split_ifs at h
    all_goals cases h
    all_goals simp [PopPc.remaining, released]

/-- The producer's next step is enabled inside a call, whatever the segment holds. -/
theorem Producer.act_enabled {p : Producer T} (ring : Ring T) (hp : p.pc.isReady = false) :
    (p.act ring .step).isSome := by
  obtain ⟨handle, pc⟩ := p
  cases pc <;> simp only [act]
  case ready => simp [PushPc.isReady] at hp
  all_goals try split_ifs
  all_goals rfl

/-- So is the consumer's, unless the assertion of `pop()` has failed. -/
theorem Consumer.act_enabled {q : Consumer T} (ring : Ring T) (hq : q.pc.isReady = false)
    (hok : q.pc ≠ .aborted) : (q.act ring .step).isSome := by
  obtain ⟨handle, held, peeked, pc⟩ := q
  cases pc <;> simp only [act]
  case ready => simp [PopPc.isReady] at hq
  case aborted => exact absurd rfl hok
  all_goals try split_ifs
  all_goals rfl

/-- A call starts within its cost. -/
theorem Producer.act_call {p p' : Producer T} {a : PushAct T} (hcall : (SpscAct.produce a).isCall)
    (h : p.act ring a = some (ring', p', xs)) :
    p'.pc.remaining c.slots ≤ (SpscAct.produce a).cost c.slots := by
  obtain ⟨handle, pc⟩ := p
  rcases a with v | ⟨src, n⟩ | _
  · cases pc <;> simp only [act, reduceCtorEq] at h
    cases h
    exact le_rfl
  · cases pc <;> simp only [act, reduceCtorEq] at h
    split_ifs at h <;> cases h
    · exact Nat.zero_le _
    · exact le_rfl
  · cases hcall

theorem Consumer.act_call {q q' : Consumer T} {a : PopAct}
    (hcall : (SpscAct.consume a : SpscAct T).isCall) (h : q.act ring a = some (ring', q', xs)) :
    q'.pc.remaining c.slots ≤ (SpscAct.consume a : SpscAct T).cost c.slots := by
  obtain ⟨handle, held, peeked, pc⟩ := q
  rcases a with _ | _ | _ | _ | n | _
  · cases pc <;> simp only [act, reduceCtorEq] at h
    cases h
    exact le_rfl
  · cases hcall
  · cases pc <;> cases held <;> simp only [act, reduceCtorEq] at h
    cases h
    exact le_rfl
  · cases pc <;> simp only [act, reduceCtorEq] at h
    cases h
    exact le_rfl
  · cases pc <;> simp only [act, reduceCtorEq] at h
    split_ifs at h <;> cases h
    · exact Nat.zero_le _
    · exact le_rfl
  · cases hcall

end Own

/-! ## A call among the steps of the peer -/

namespace Spsc

/-- At most how many steps are left of the operation of `role`. -/
def remaining (capacity : UInt64) (s : Spsc T) : Role → ℕ
  | .producer =>
    match s.producer with
    | .up p => p.pc.remaining capacity
    | _ => 0
  | .consumer =>
    match s.consumer with
    | .up q => q.pc.remaining capacity
    | _ => 0

/-- The side is attached, and between two calls. -/
def returned (s : Spsc T) : Role → Bool
  | .producer =>
    match s.producer with
    | .up p => p.pc.isReady
    | _ => false
  | .consumer =>
    match s.consumer with
    | .up q => q.pc.isReady
    | _ => false

/-- The side is attached. -/
def attached (s : Spsc T) : Role → Bool
  | .producer =>
    match s.producer with
    | .up _ => true
    | _ => false
  | .consumer =>
    match s.consumer with
    | .up _ => true
    | _ => false

variable {c : Capacity} {s s' : Spsc T} {b : SpscAct T} {role : Role}

/-- A step of an operation leaves fewer, and one after a call no more than the call costs. -/
theorem remaining_step (hinv : Inv c s) (h : s.step c.slots b = some s') (hrole : b.role = role) :
    (b = .next role → s'.remaining c.slots role < s.remaining c.slots role ∧
        s'.attached role) ∧
      (b.isCall → s'.remaining c.slots role ≤ b.cost c.slots ∧ s'.attached role) := by
  subst hrole
  rcases b with _ | _ | a | a
  · exact ⟨by rintro ⟨⟩, by rintro ⟨⟩⟩
  · exact ⟨by rintro ⟨⟩, by rintro ⟨⟩⟩
  · simp only [step] at h
    split at h
    next p hp =>
      obtain ⟨⟨ring, p', xs⟩, hact, rfl⟩ := Option.map_eq_some_iff.mp h
      simp only [remaining, SpscAct.role, hp, attached, and_true]
      refine ⟨?_, fun hcall => Producer.act_call hcall hact⟩
      rintro ⟨rfl⟩
      exact Producer.act_remaining hinv.ring (hinv.producer p hp) hact
    next => cases h
  · simp only [step] at h
    split at h
    next q hq =>
      obtain ⟨⟨ring, q', xs⟩, hact, rfl⟩ := Option.map_eq_some_iff.mp h
      simp only [remaining, SpscAct.role, hq, attached, and_true]
      refine ⟨?_, fun hcall => Consumer.act_call hcall hact⟩
      rintro ⟨rfl⟩
      exact Consumer.act_remaining hinv.ring (hinv.consumer q hq) hact
    next => cases h

/-- An operation in progress can go on. -/
theorem step_enabled (hinv : Inv c s) (hup : s.attached role) (h : s.returned role = false) :
    ∃ s', s.step c.slots (.next role) = some s' := by
  rcases role with _ | _
  · simp only [attached] at hup
    split at hup
    next p hp =>
      simp only [returned, hp] at h
      obtain ⟨out, hout⟩ := Option.isSome_iff_exists.mp (p.act_enabled s.ring h)
      simp only [step, SpscAct.next, hp, hout, Option.map_some]
      exact ⟨_, rfl⟩
    next => cases hup
  · simp only [attached] at hup
    split at hup
    next q hq =>
      simp only [returned, hq] at h
      have hok : q.pc ≠ .aborted := by
        intro haborted
        have hpc := (hinv.consumer q hq).pc
        rw [haborted] at hpc
        exact hpc
      obtain ⟨out, hout⟩ := Option.isSome_iff_exists.mp (q.act_enabled s.ring h hok)
      simp only [step, SpscAct.next, hq, hout, Option.map_some]
      exact ⟨_, rfl⟩
    next => cases hup

/-- With no step left the operation has returned. -/
theorem returned_of_remaining (hinv : Inv c s) (hup : s.attached role)
    (h : s.remaining c.slots role = 0) : s.returned role := by
  by_contra hnot
  obtain ⟨s', hstep⟩ := step_enabled hinv hup (by simpa using hnot)
  have hrole : (SpscAct.next role : SpscAct T).role = role := by rcases role with _ | _ <;> rfl
  have := (remaining_step hinv hstep hrole).1 rfl
  omega

end Spsc

namespace Weak

variable {c : Capacity} {o : Orders} {s s' : Weak T} {a : WeakAct T} {role : Role}

/-- What a side does shows in what it sees. -/
theorem sideView_side (s : Weak T) (role : Role) (capacity : UInt64) :
    (s.sideView role).remaining capacity role = s.base.remaining capacity role ∧
      (s.sideView role).returned role = s.base.returned role ∧
      (s.sideView role).attached role = s.base.attached role := by
  rcases role with _ | _ <;> exact ⟨rfl, rfl, rfl⟩

/-- An own step is one on what the side sees. -/
theorem merge_own (s : Weak T) (role : Role) (v : Spsc T) (capacity : UInt64) :
    (s.merge role v).remaining capacity role = v.remaining capacity role ∧
      (s.merge role v).attached role = v.attached role := by
  rcases role with _ | _ <;> exact ⟨rfl, rfl⟩

/-- A step of the peer leaves an operation where it is. -/
theorem merge_other (s : Weak T) {role role' : Role} (hne : role' ≠ role) (v : Spsc T)
    (capacity : UInt64) :
    (s.merge role' v).remaining capacity role = s.base.remaining capacity role ∧
      (s.merge role' v).attached role = s.base.attached role := by
  rcases role with _ | _ <;> rcases role' with _ | _
  · exact absurd rfl hne
  · exact ⟨rfl, rfl⟩
  · exact ⟨rfl, rfl⟩
  · exact absurd rfl hne

/-- A side that makes no call uses up what is left of its operation, and only then. -/
theorem remaining_step (hinv : Inv c s) (h : s.step o c.slots a = some s')
    (hown : a.act.role = role → a.act = .next role) (hup : s.base.attached role) :
    (if a.act.role = role then 1 else 0) + s'.base.remaining c.slots role ≤
        s.base.remaining c.slots role ∧
      s'.base.attached role := by
  obtain ⟨t, v, hload, hstep, rfl⟩ := step_eq_some h
  have hbase := (load_eq_some hload).1
  rw [← hbase] at hup ⊢
  by_cases hrole : a.act.role = role
  · subst hrole
    obtain ⟨hrem, hattached⟩ := t.merge_own a.act.role v c.slots
    obtain ⟨hrem', -, -⟩ := t.sideView_side a.act.role c.slots
    have hview := (inv_load hinv hload).view a.act.role
    obtain ⟨hless, hnext⟩ := (Spsc.remaining_step hview hstep rfl).1 (hown rfl)
    simp only [acted, hrem, hattached, if_true, ← hrem']
    exact ⟨by omega, hnext⟩
  · obtain ⟨hrem, hattached⟩ := t.merge_other hrole v c.slots
    simp only [acted, hrem, hattached, if_neg hrole]
    exact ⟨by omega, hup⟩

/-- The same over steps in a row : the own ones are paid out of what is left. -/
theorem remaining_exec (hinv : Inv c s) {as : List (WeakAct T)}
    (h : exec (step o c.slots) (fun _ _ => True) s as = some s')
    (hown : ∀ a ∈ as, a.act.role = role → a.act = .next role) (hup : s.base.attached role) :
    as.countP (fun a => a.act.role = role) + s'.base.remaining c.slots role ≤
        s.base.remaining c.slots role ∧
      Inv c s' ∧ s'.base.attached role := by
  induction as generalizing s with
  | nil =>
    obtain rfl := Option.some.inj h
    exact ⟨by simp, hinv, hup⟩
  | cons a as ih =>
    rw [exec, if_pos trivial] at h
    obtain ⟨s₁, hstep, hrest⟩ := Option.bind_eq_some_iff.mp h
    obtain ⟨hpaid, hup₁⟩ := remaining_step hinv hstep (hown a (by simp)) hup
    obtain ⟨hle, hinv', hup'⟩ := ih (inv_step hinv hstep) hrest
      (fun b hb => hown b (List.mem_cons_of_mem a hb)) hup₁
    refine ⟨?_, hinv', hup'⟩
    rw [List.countP_cons]
    simp only [decide_eq_true_eq]
    omega

/-- A call leaves no more than it costs. -/
theorem remaining_call (hinv : Inv c s) (h : s.step o c.slots a = some s') (hcall : a.act.isCall) :
    s'.base.remaining c.slots a.act.role ≤ a.act.cost c.slots ∧ s'.base.attached a.act.role := by
  obtain ⟨t, v, hload, hstep, rfl⟩ := step_eq_some h
  obtain ⟨hrem, hattached⟩ := t.merge_own a.act.role v c.slots
  have hview := (inv_load hinv hload).view a.act.role
  simp only [acted, hrem, hattached]
  exact (Spsc.remaining_step hview hstep rfl).2 hcall

/-- An operation in progress can go on, at the least with the message it has seen last. -/
theorem step_enabled (hinv : Inv c s) (hup : s.base.attached role)
    (h : s.base.returned role = false) :
    ∃ i s', s.step o c.slots ⟨.next role, i⟩ = some s' := by
  have hrole : (SpscAct.next role : SpscAct T).role = role := by rcases role with _ | _ <;> rfl
  obtain ⟨t, hload⟩ : ∃ t, s.load o ⟨.next role, s.memory.seen role role.peerIdx⟩ = some t := by
    simp only [load]
    split
    next site hsite =>
      obtain ⟨memory, hmemory⟩ := s.memory.load_seen role role.peerIdx (o.load site)
      simp only [hrole, hmemory, Option.map_some]
      exact ⟨_, rfl⟩
    next => exact ⟨_, rfl⟩
  have hbase := (load_eq_some hload).1
  obtain ⟨-, hreturned, hattached⟩ := t.sideView_side role c.slots
  rw [← hbase, ← hattached] at hup
  rw [← hbase, ← hreturned] at h
  obtain ⟨v, hstep⟩ := Spsc.step_enabled ((inv_load hinv hload).view role) hup h
  refine ⟨s.memory.seen role role.peerIdx, t.acted o (.next role) v, ?_⟩
  simp only [step, hload, Option.bind_some, hrole, hstep, Option.map_some, acted]

theorem returned_of_remaining (hinv : Inv c s) (hup : s.base.attached role)
    (h : s.base.remaining c.slots role = 0) : s.base.returned role := by
  obtain ⟨hrem, hreturned, hattached⟩ := s.sideView_side role c.slots
  rw [← hreturned]
  exact Spsc.returned_of_remaining (hinv.view role) (by rwa [hattached]) (by rwa [hrem])

/-- The operations are wait-free. From a call in any reachable state on, whatever the peer does
or stops doing in between, whichever messages the loads read and whatever the orders are, the
side takes at most `cost` steps for the call, has returned when it has taken so many, and is
never blocked before. -/
theorem wait_free {L : Layout} {name : String} {requested : UInt64} {calls : CreateCalls}
    {g : Geometry} (hcreate : create L name requested calls = .ok g) (o : Orders) (creator : Role)
    (slots : ℕ → T) {s s₁ s' : Weak T}
    (run : Reachable (step o g.capacity) (created g.capacity creator slots) s)
    {b : WeakAct T} (hcall : b.act.isCall) (hstep : s.step o g.capacity b = some s₁)
    {as : List (WeakAct T)} (hexec : exec (step o g.capacity) (fun _ _ => True) s₁ as = some s')
    (hown : ∀ a ∈ as, a.act.role = b.act.role → a.act = .next b.act.role) :
    as.countP (fun a => a.act.role = b.act.role) ≤ b.act.cost g.capacity ∧
      (as.countP (fun a => a.act.role = b.act.role) = b.act.cost g.capacity →
        s'.base.returned b.act.role) ∧
      (s'.base.returned b.act.role = false →
        ∃ i s'', s'.step o g.capacity ⟨.next b.act.role, i⟩ = some s'') := by
  obtain ⟨c, hc⟩ : ∃ c : Capacity, c.slots = g.capacity := ⟨.ofCreate hcreate, rfl⟩
  rw [← hc] at run hstep hexec ⊢
  have hinv : Inv c s := run.invariant (inv_created c creator slots)
    fun _ _ _ h _ hstep => inv_step h hstep
  obtain ⟨hcost, hup⟩ := remaining_call hinv hstep hcall
  obtain ⟨hle, hinv', hup'⟩ := remaining_exec (inv_step hinv hstep) hexec hown hup
  refine ⟨by omega, fun hall => ?_, step_enabled hinv' hup'⟩
  have hzero : s'.base.remaining c.slots b.act.role = 0 := by omega
  exact returned_of_remaining hinv' hup' hzero

/-- The steps of a push that refreshes `readIdxCache_`, with two steps of the consumer among
them. -/
def lapPush : List (WeakAct ℕ) :=
  [⟨.produce .step, 1⟩, ⟨.consume .tryPop, 1⟩, ⟨.produce .step, 1⟩, ⟨.produce .step, 1⟩,
    ⟨.consume .step, 1⟩, ⟨.produce .step, 1⟩, ⟨.produce .step, 1⟩]

theorem wait_free_lapPush :
    ∃ s : Weak ℕ, Reachable (step .code 2) (created 2 .producer fun _ => 0) s ∧
      s.base.log.published = [0, 5] ∧ s.base.returned .producer := by
  have hlog : ((exec (step .code 2) (fun _ _ => True) (created 2 .producer fun _ => 0)
      (firstRun (.tryPush 0) 0 .tryPop 7)).bind fun s =>
        (s.step .code 2 ⟨.produce (.tryPush 5), 1⟩).bind fun s =>
          exec (step .code 2) (fun _ _ => True) s lapPush).map
            (fun s => s.base.log.published) = some [0, 5] := by decide +kernel
  obtain ⟨s', hs', hlog⟩ := Option.map_eq_some_iff.mp hlog
  obtain ⟨s, hs, hrest⟩ := Option.bind_eq_some_iff.mp hs'
  obtain ⟨s₁, hstep, hexec⟩ := Option.bind_eq_some_iff.mp hrest
  have run := Reaches.of_exec hs
  have hcreate : create messageLayout "/q" 1 ⟨none, none, none⟩ =
      .ok (createdGeometry messageLayout 2 352) := by decide
  have hown : ∀ a ∈ lapPush, a.act.role = .producer → a.act = .next .producer := by
    intro a ha hrole
    simp only [lapPush, List.mem_cons, List.not_mem_nil, or_false] at ha
    rcases ha with rfl | rfl | rfl | rfl | rfl | rfl | rfl <;> first | rfl | cases hrole
  obtain ⟨-, hreturned, -⟩ := wait_free hcreate .code .producer _ run rfl hstep hexec hown
  exact ⟨s', (run.tail trivial hstep).trans (Reaches.of_exec hexec), hlog, hreturned rfl⟩

end Weak

end ShmSpsc
