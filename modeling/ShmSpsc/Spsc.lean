import ShmSpsc.Consumer
import ShmSpsc.Transition

/-!
# One producer and one consumer

The system of the queue's name : one handle in each role on one created segment, their
steps interleaved in any order. The creator's handle is there from the start; the other one
attaches at any time, its two index loads in `bind` being steps of their own. Either side
may take no further step.

`Spsc.Inv` is kept by every step, `Spsc.inv_of_reachable` gives it in every reachable
state, and `Spsc.exactly_once` reads off it that what the consumer has taken is a prefix of
what the producer has published and the rest is in the slots.
-/

namespace ShmSpsc

open Transition

variable {T : Type*}

/-- A handle of one role : not attached yet, between the two index loads of `bind`, or
attached. -/
inductive Side (H : Type*) where
  | absent
  | loading (r : UInt64)
  | up (h : H)

/-- The segment with its log, and the two sides. -/
structure Spsc (T : Type*) where
  ring : Ring T
  log : Log T
  producer : Side (Producer T)
  consumer : Side (Consumer T)

/-- A step of one of the sides. -/
inductive SpscAct (T : Type*) where
  | attachProducer
  | attachConsumer
  | produce (a : PushAct T)
  | consume (a : PopAct)

/-- A producer's handle as `bind` leaves it. -/
def Producer.fresh (h : Handle) : Producer T := ⟨h, .ready none⟩

/-- A consumer's handle as `bind` leaves it. -/
def Consumer.fresh (h : Handle) : Consumer T := ⟨h, none, none, .ready none⟩

namespace Spsc

/-- One step on a segment whose control block records `capacity` slots. -/
def step (capacity : UInt64) (s : Spsc T) : SpscAct T → Option (Spsc T)
  | .attachProducer =>
    match s.producer with
    | .absent => some { s with producer := .loading s.ring.readIdx }
    | .loading r => some { s with producer := .up (.fresh ⟨capacity, r, s.ring.writeIdx⟩) }
    | .up _ => none
  | .attachConsumer =>
    match s.consumer with
    | .absent => some { s with consumer := .loading s.ring.readIdx }
    | .loading r => some { s with consumer := .up (.fresh ⟨capacity, r, s.ring.writeIdx⟩) }
    | .up _ => none
  | .produce a =>
    match s.producer with
    | .up p => (p.act s.ring a).map fun (ring, p', xs) =>
        { s with ring := ring, log := s.log.publish xs, producer := .up p' }
    | _ => none
  | .consume a =>
    match s.consumer with
    | .up q => (q.act s.ring a).map fun (ring, q', xs) =>
        { s with ring := ring, log := s.log.release xs, consumer := .up q' }
    | _ => none

/-- A segment as `create` returns it to its creator in `role`, with whatever its slots
hold. -/
def created (capacity : UInt64) (role : Role) (slots : ℕ → T) : Spsc T where
  ring := ⟨0, 0, slots⟩
  log := ⟨[], []⟩
  producer := match role with
    | .producer => .up (.fresh ⟨capacity, 0, 0⟩)
    | .consumer => .absent
  consumer := match role with
    | .producer => .absent
    | .consumer => .up (.fresh ⟨capacity, 0, 0⟩)

/-- The segment holds the log, and each side knows what it knows. A producer between its
index loads has a `readIdx` that is good as its cache. -/
structure Inv (c : Capacity) (s : Spsc T) : Prop where
  ring : s.ring.Holds c s.log
  loading : ∀ r, s.producer = .loading r → ReadCache c s.log r 0
  producer : ∀ p, s.producer = .up p → p.Inv c s.ring s.log
  consumer : ∀ q, s.consumer = .up q → q.Inv c s.ring s.log

theorem inv_created (c : Capacity) (role : Role) (slots : ℕ → T) :
    Inv c (created c.slots role slots) := by
  have hpos := c.pos
  have hzero : (0 : UInt64).toNat = 0 % c.slots.toNat := by simp
  refine ⟨⟨hzero, hzero, List.prefix_rfl, by simpa [created] using hpos, by simp [created]⟩,
    ?_, ?_, ?_⟩
  · intro r hr
    cases role <;> cases hr
  · intro p hp
    cases role <;> cases hp
    exact ⟨rfl, 0, hzero, le_rfl, by simpa [created] using hpos⟩
  · intro q hq
    cases role <;> cases hq
    exact ⟨rfl, ⟨0, hzero, le_rfl, le_rfl⟩, by simp [Consumer.fresh], by simp [Consumer.fresh]⟩

/-- A producer's step. -/
theorem inv_produce {c : Capacity} {s s' : Spsc T} {a : PushAct T} (hinv : Inv c s)
    (h : s.step c.slots (.produce a) = some s') : Inv c s' := by
  cases hp : s.producer with
  | absent => simp [step, hp] at h
  | loading r => simp [step, hp] at h
  | up p =>
    simp only [step, hp, Option.map_eq_some_iff, Prod.exists] at h
    obtain ⟨ring, p', xs, hact, rfl⟩ := h
    obtain ⟨hring, hp'⟩ := Producer.act_inv hinv.ring (hinv.producer p hp) hact
    refine ⟨hring, by simp, ?_, fun q hq => ?_⟩
    · rintro _ ⟨rfl⟩
      exact hp'
    · exact (hinv.consumer q hq).publish xs (Producer.act_readIdx hact)

/-- A consumer's step. -/
theorem inv_consume {c : Capacity} {s s' : Spsc T} {a : PopAct} (hinv : Inv c s)
    (h : s.step c.slots (.consume a) = some s') : Inv c s' := by
  cases hq : s.consumer with
  | absent => simp [step, hq] at h
  | loading r => simp [step, hq] at h
  | up q =>
    simp only [step, hq, Option.map_eq_some_iff, Prod.exists] at h
    obtain ⟨ring, q', xs, hact, rfl⟩ := h
    obtain ⟨hring, hq'⟩ := Consumer.act_inv hinv.ring (hinv.consumer q hq) hact
    obtain ⟨hwrite, hslots⟩ := Consumer.act_frame hact
    refine ⟨hring, fun r hr => (hinv.loading r hr).release xs, fun p hp => ?_, ?_⟩
    · exact (hinv.producer p hp).release xs hwrite hslots
    · rintro _ ⟨rfl⟩
      exact hq'

/-- Every step keeps the invariant. -/
theorem inv_step {c : Capacity} {s s' : Spsc T} {a : SpscAct T} (hinv : Inv c s)
    (h : s.step c.slots a = some s') : Inv c s' := by
  cases a with
  | attachProducer =>
    cases hp : s.producer with
    | absent =>
      simp only [step, hp, Option.some.injEq] at h
      subst h
      refine ⟨hinv.ring, ?_, by simp, hinv.consumer⟩
      rintro _ ⟨rfl⟩
      exact .of_load hinv.ring hinv.ring.room
    | loading r =>
      simp only [step, hp, Option.some.injEq] at h
      subst h
      refine ⟨hinv.ring, by simp, ?_, hinv.consumer⟩
      rintro _ ⟨rfl⟩
      exact ⟨rfl, hinv.loading r hp⟩
    | up p => simp [step, hp] at h
  | attachConsumer =>
    cases hq : s.consumer with
    | absent =>
      simp only [step, hq, Option.some.injEq] at h
      subst h
      exact ⟨hinv.ring, hinv.loading, hinv.producer, by simp⟩
    | loading r =>
      simp only [step, hq, Option.some.injEq] at h
      subst h
      refine ⟨hinv.ring, hinv.loading, hinv.producer, ?_⟩
      rintro _ ⟨rfl⟩
      exact ⟨rfl, .of_load hinv.ring hinv.ring.le, by simp [Consumer.fresh],
        by simp [Consumer.fresh]⟩
    | up q => simp [step, hq] at h
  | produce a => exact inv_produce hinv h
  | consume a => exact inv_consume hinv h

/-- The invariant holds along every run on a created segment. -/
theorem inv_of_reachable {c : Capacity} {role : Role} {slots : ℕ → T} {s : Spsc T}
    (run : Reachable (step c.slots) (created c.slots role slots) s) : Inv c s :=
  run.invariant (inv_created c role slots) fun _ _ _ hinv _ h => inv_step hinv h

/-- FIFO, no loss, no duplication, no tearing. On every segment that `create` makes and
along every run, the elements the consumer has copied out and released are a prefix of the
published ones, and the rest is, in order, in the slots from `readIdx` up to `writeIdx`. -/
theorem exactly_once {L : Layout} {name : String} {requested : UInt64} {calls : CreateCalls}
    {g : Geometry} (hcreate : create L name requested calls = .ok g) (role : Role)
    (slots : ℕ → T) {s : Spsc T}
    (run : Reachable (step g.capacity) (created g.capacity role slots) s) :
    s.log.released <+: s.log.published ∧
      s.log.published = s.log.released ++ s.ring.contents g.capacity := by
  have hinv := inv_of_reachable (c := .ofCreate hcreate) run
  exact ⟨hinv.ring.fifo, hinv.ring.published_eq⟩

/-- Through a ring of two slots : a push, an attach and a pop, a push over the wrap. -/
def wrapRun : List (SpscAct ℕ) :=
  SpscAct.produce (.tryPush 7) :: List.replicate 4 (SpscAct.produce .step) ++
    List.replicate 2 SpscAct.attachConsumer ++
    SpscAct.consume .tryPop :: List.replicate 6 (SpscAct.consume .step) ++
    SpscAct.produce (.tryPush 8) :: List.replicate 5 (SpscAct.produce .step)

theorem exactly_once_wrapRun :
    ∃ s : Spsc ℕ, Reachable (step 2) (created 2 .producer fun _ => 0) s ∧
      s.log.released = [7] ∧ s.log.published = [7, 8] ∧
      s.log.published = s.log.released ++ s.ring.contents 2 := by
  have hlog : (exec (step 2) (fun _ _ => True) (created 2 .producer fun _ => 0) wrapRun).map
      (fun s => (s.log.released, s.log.published)) = some ([7], [7, 8]) := by decide
  obtain ⟨s, hs, hlog⟩ := Option.map_eq_some_iff.mp hlog
  have run := Reaches.of_exec hs
  have hcreate : create messageLayout "/q" 1 ⟨none, none, none⟩ =
      .ok (createdGeometry messageLayout 2 352) := by decide
  exact ⟨s, run, congrArg Prod.fst hlog, congrArg Prod.snd hlog, (exactly_once hcreate _ _ run).2⟩

end Spsc

end ShmSpsc
