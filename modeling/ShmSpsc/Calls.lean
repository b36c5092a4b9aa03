import ShmSpsc.Decisions
import ShmSpsc.Drain

/-!
# Calls on the two sides of a queue

What a program sees that calls `try_push` and `push_n` on one side of a queue and `try_pop` and
`pop_n` on the other : a call under way, and what it has returned. `Spsc.Pushes` and
`Spsc.Pops` are the calls, `Spsc.push_step` and `Spsc.pop_step` say that a call publishes, or
releases, exactly what it returns, in the step in which it returns.

`Spsc.full_of_refused` : a `try_push` or `push_n` that pushes nothing has found the queue full.
-/

namespace ShmSpsc

variable {T : Type*}

/-! ## The producer's calls -/

/-- The producer is in a call that pushes the first elements of `src`, `n` at most, or has
returned from it. -/
def PushPc.Sends (src : ℕ → T) (n : UInt64) : PushPc T → Prop
  | .ready ret => ret.isSome
  | .tryPushLoad v => v = src 0 ∧ n = 1
  | .tryPushTest v _ _ => v = src 0 ∧ n = 1
  | .tryPushRefresh v _ _ => v = src 0 ∧ n = 1
  | .tryPushCopy v _ _ => v = src 0 ∧ n = 1
  | .tryPushStore v _ _ => v = src 0 ∧ n = 1
  | .pushNLoad src' m => src' = src ∧ m = n ∧ n ≠ 0
  | .pushNTest src' m _ => src' = src ∧ m = n ∧ n ≠ 0
  | .pushNRefresh src' m _ => src' = src ∧ m = n ∧ n ≠ 0
  | .pushNCopy src' _ count _ => src' = src ∧ count ≤ n ∧ count ≠ 0
  | .pushNStore src' _ count => src' = src ∧ count ≤ n ∧ count ≠ 0

theorem min_le_asked (n free : UInt64) : min n free ≤ n := by
  rw [UInt64.le_iff_toNat_le, toNat_min]
  exact min_le_left _ _

namespace Producer

variable {p p' : Producer T} {ring ring' : Ring T} {xs : List T} {src : ℕ → T} {n : UInt64}

theorem returned_of_step {out : Ring T × Producer T × List T} (h : p.act ring .step = some out) :
    p.pc.returned = none := by
  unfold PushPc.returned
  split
  next hpc =>
    rw [act, hpc] at h
    cases h
  next hpc =>
    rw [act, hpc] at h
    cases h
  next => rfl

/-- A call publishes what it returns, when it returns. -/
theorem sends_step (hpc : p.pc.Sends src n) (h : p.act ring .step = some (ring', p', xs)) :
    p'.pc.Sends src n ∧ p'.pc.returned.getD 0 ≤ n ∧
      xs = (List.range (p'.pc.returned.getD 0).toNat).map src := by
  obtain ⟨handle, pc⟩ := p
  cases pc with
  | ready ret => cases h
  | tryPushLoad v =>
    cases h
    exact ⟨hpc, UInt64.zero_le, rfl⟩
  | tryPushTest v w next =>
    simp only [act] at h
    split_ifs at h <;> cases h <;> exact ⟨hpc, UInt64.zero_le, rfl⟩
  | tryPushRefresh v w next =>
    simp only [act] at h
    split_ifs at h <;> cases h
    · exact ⟨rfl, UInt64.zero_le, rfl⟩
    · exact ⟨hpc, UInt64.zero_le, rfl⟩
  | tryPushCopy v w next =>
    cases h
    exact ⟨hpc, UInt64.zero_le, rfl⟩
  | tryPushStore v w next =>
    obtain ⟨rfl, rfl⟩ := hpc
    cases h
    exact ⟨rfl, UInt64.le_refl 1, rfl⟩
  | pushNLoad src' m =>
    cases h
    exact ⟨hpc, UInt64.zero_le, rfl⟩
  | pushNTest src' m w =>
    obtain ⟨rfl, rfl, hn⟩ := hpc
    simp only [act] at h
    split_ifs at h with hfree <;> cases h
    · exact ⟨⟨rfl, rfl, hn⟩, UInt64.zero_le, rfl⟩
    · rw [min_eq_left_of_not_lt hfree]
      exact ⟨⟨rfl, UInt64.le_refl m, hn⟩, UInt64.zero_le, rfl⟩
  | pushNRefresh src' m w =>
    obtain ⟨rfl, rfl, hn⟩ := hpc
    simp only [act] at h
    split_ifs at h with hfree <;> cases h
    · exact ⟨rfl, UInt64.zero_le, rfl⟩
    · exact ⟨⟨rfl, min_le_asked _ _, Solo.min_ne_zero hn hfree⟩, UInt64.zero_le, rfl⟩
  | pushNCopy src' w count i =>
    simp only [act] at h
    cases h
    simp only
    split_ifs <;> exact ⟨hpc, UInt64.zero_le, rfl⟩
  | pushNStore src' w count =>
    obtain ⟨rfl, hcount, -⟩ := hpc
    cases h
    exact ⟨rfl, hcount, rfl⟩

/-- A call that returns `0` has found the queue full. -/
theorem full_of_refused {c : Capacity} {log : Log T} (hring : ring.Holds c log)
    (hp : p.Inv c ring log) (hpc : p.pc.Sends src n)
    (h : p.act ring .step = some (ring', p', xs)) (hret : p'.pc.returned = some 0) :
    log.held = (capacityOf c.slots).toNat := by
  obtain ⟨handle, pc⟩ := p
  obtain ⟨hcap, hinv⟩ := hp
  simp only at hcap hinv
  cases pc with
  | ready ret => cases h
  | tryPushLoad v =>
    cases h
    cases hret
  | tryPushTest v w next =>
    simp only [act] at h
    split_ifs at h <;> cases h <;> cases hret
  | tryPushRefresh v w next =>
    obtain ⟨rfl, rfl, -⟩ := hinv
    simp only [act] at h
    split_ifs at h with hnext <;> cases h
    · exact (nextIdx_eq_readIdx_iff hring).mp hnext
    · cases hret
  | tryPushCopy v w next =>
    cases h
    cases hret
  | tryPushStore v w next =>
    cases h
    simp [PushPc.returned] at hret
  | pushNLoad src' m =>
    cases h
    cases hret
  | pushNTest src' m w =>
    simp only [act] at h
    split_ifs at h <;> cases h <;> cases hret
  | pushNRefresh src' m w =>
    obtain ⟨rfl, -, hcache⟩ := hinv
    simp only [act] at h
    split_ifs at h with hfree <;> cases h
    · have hroom := toNat_freeSlots_eq hring
      have hle := hring.le
      have hlt := hring.room
      rw [← hcap, hfree, UInt64.toNat_zero, hcap, toNat_capacityOf, Log.held] at hroom
      rw [toNat_capacityOf, Log.held]
      omega
    · cases hret
  | pushNCopy src' w count i =>
    simp only [act] at h
    cases h
    simp only at hret
    split_ifs at hret <;> cases hret
  | pushNStore src' w count =>
    cases h
    exact absurd (Option.some.inj hret) hpc.2.2

end Producer

/-! ## On a queue -/

/-- The handle is attached. -/
def Side.isUp {H : Type*} : Side H → Bool
  | .up _ => true
  | _ => false

namespace Spsc

variable {s s' : Spsc T} {capacity : UInt64} {src : ℕ → T} {n : UInt64}

/-- What the producer's last call has returned. -/
def pushed (s : Spsc T) : Option UInt64 :=
  match s.producer with
  | .up p => p.pc.returned
  | _ => none

/-- What the consumer's last `try_pop` or `pop_n` has taken. -/
def popped (s : Spsc T) : Option (List T) :=
  match s.consumer with
  | .up q => q.taken
  | _ => none

/-- The producer is in a call that pushes the first elements of `src`, `n` at most, or has
returned from it. -/
def Pushes (s : Spsc T) (src : ℕ → T) (n : UInt64) : Prop :=
  ∃ p, s.producer = .up p ∧ p.pc.Sends src n

/-- The consumer is in a `try_pop` or a `pop_n`, or has returned from it. -/
def Pops (s : Spsc T) : Prop :=
  ∃ q, s.consumer = .up q ∧ q.pc.Attempt

theorem produce_eq_some {a : PushAct T} (h : s.step capacity (.produce a) = some s') :
    ∃ p ring p' xs, s.producer = .up p ∧ p.act s.ring a = some (ring, p', xs) ∧
      s' = { s with ring := ring, log := s.log.publish xs, producer := .up p' } := by
  simp only [step] at h
  split at h
  next p hp =>
    obtain ⟨⟨ring, p', xs⟩, hact, rfl⟩ := Option.map_eq_some_iff.mp h
    exact ⟨p, ring, p', xs, hp, hact, rfl⟩
  next => cases h

theorem consume_eq_some {a : PopAct} (h : s.step capacity (.consume a) = some s') :
    ∃ q ring q' xs, s.consumer = .up q ∧ q.act s.ring a = some (ring, q', xs) ∧
      s' = { s with ring := ring, log := s.log.release xs, consumer := .up q' } := by
  simp only [step] at h
  split at h
  next q hq =>
    obtain ⟨⟨ring, q', xs⟩, hact, rfl⟩ := Option.map_eq_some_iff.mp h
    exact ⟨q, ring, q', xs, hq, hact, rfl⟩
  next => cases h

theorem attachConsumer_frame (h : s.step capacity .attachConsumer = some s') :
    s'.producer = s.producer ∧ s'.log = s.log := by
  simp only [step] at h
  split at h <;> cases h <;> exact ⟨rfl, rfl⟩

theorem attachProducer_frame (h : s.step capacity .attachProducer = some s') :
    s'.consumer = s.consumer ∧ s'.log = s.log := by
  simp only [step] at h
  split at h <;> cases h <;> exact ⟨rfl, rfl⟩

theorem tryPush_call (src : ℕ → T) (h : s.step capacity (.produce (.tryPush (src 0))) = some s') :
    s'.Pushes src 1 ∧ s'.pushed = none ∧ s'.log = s.log ∧ s'.consumer = s.consumer := by
  obtain ⟨p, ring, p', xs, hp, hact, rfl⟩ := produce_eq_some h
  simp only [Producer.act] at hact
  split at hact
  · cases hact
    exact ⟨⟨_, rfl, rfl, rfl⟩, rfl, Log.publish_nil s.log, rfl⟩
  · cases hact

theorem pushN_call (h : s.step capacity (.produce (.pushN src n)) = some s') :
    s'.Pushes src n ∧ s'.pushed.getD 0 = 0 ∧ s'.log = s.log ∧ s'.consumer = s.consumer := by
  obtain ⟨p, ring, p', xs, hp, hact, rfl⟩ := produce_eq_some h
  simp only [Producer.act] at hact
  split at hact
  · split_ifs at hact with hn <;> cases hact
    · exact ⟨⟨_, rfl, rfl⟩, rfl, Log.publish_nil s.log, rfl⟩
    · exact ⟨⟨_, rfl, rfl, rfl, hn⟩, rfl, Log.publish_nil s.log, rfl⟩
  · cases hact

/-- The elements that a call publishes are those it counts when it returns. -/
theorem push_step (hs : s.Pushes src n) (h : s.step capacity (.produce .step) = some s') :
    s'.Pushes src n ∧ s'.pushed.getD 0 ≤ n ∧
      s'.log = s.log.publish ((List.range (s'.pushed.getD 0).toNat).map src) ∧
      s'.consumer = s.consumer := by
  obtain ⟨p, ring, p', xs, hp, hact, rfl⟩ := produce_eq_some h
  obtain ⟨_, hp', hsends⟩ := hs
  obtain rfl := Side.up.inj (hp.symm.trans hp')
  obtain ⟨hsends', hle, rfl⟩ := Producer.sends_step hsends hact
  exact ⟨⟨p', rfl, hsends'⟩, hle, rfl, rfl⟩

theorem pushed_of_step (h : s.step capacity (.produce .step) = some s') : s.pushed = none := by
  obtain ⟨p, ring, p', xs, hp, hact, -⟩ := produce_eq_some h
  rw [pushed, hp]
  exact Producer.returned_of_step hact

/-- A call returns `0` only at a full queue. -/
theorem full_of_refused {c : Capacity} (hinv : Inv c s) (hs : s.Pushes src n)
    (h : s.step c.slots (.produce .step) = some s') (hret : s'.pushed = some 0) :
    s.log.held = (capacityOf c.slots).toNat := by
  obtain ⟨p, ring, p', xs, hp, hact, rfl⟩ := produce_eq_some h
  obtain ⟨_, hp', hsends⟩ := hs
  obtain rfl := Side.up.inj (hp.symm.trans hp')
  exact Producer.full_of_refused hinv.ring (hinv.producer p hp) hsends hact hret

theorem pop_call (k : Loop) (h : s.step capacity (.consume k.attempt) = some s') :
    s'.Pops ∧ s'.popped.getD [] = [] ∧ s'.log = s.log ∧ s'.producer = s.producer := by
  obtain ⟨q, ring, q', xs, hq, hact, rfl⟩ := consume_eq_some h
  obtain ⟨hattempt, htaken, rfl⟩ := Consumer.attempt_call k hact
  exact ⟨⟨q', rfl, hattempt⟩, htaken, Log.release_nil s.log, rfl⟩

/-- The elements that a call releases are those it returns. -/
theorem pop_step (hs : s.Pops) (h : s.step capacity (.consume .step) = some s') :
    s'.Pops ∧ s'.log = s.log.release (s'.popped.getD []) ∧ s'.producer = s.producer := by
  obtain ⟨q, ring, q', xs, hq, hact, rfl⟩ := consume_eq_some h
  obtain ⟨_, hq', hattempt⟩ := hs
  obtain rfl := Side.up.inj (hq.symm.trans hq')
  obtain ⟨hattempt', rfl⟩ := Consumer.attempt_step hattempt hact
  exact ⟨⟨q', rfl, hattempt'⟩, rfl, rfl⟩

theorem popped_of_step (h : s.step capacity (.consume .step) = some s') : s.popped = none := by
  obtain ⟨q, ring, q', xs, hq, hact, -⟩ := consume_eq_some h
  rw [popped, hq]
  exact Consumer.taken_of_step hact

end Spsc

end ShmSpsc
