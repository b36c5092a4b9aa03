import ShmSpsc.Delivery
import ShmSpsc.Drain

/-!
# The detach marker and the last index

The producer's stores to `writeIdx` and to its pid slot as messages to the consumer
(`Delivery`), each in order, the two in any order. The consumer runs on the segment it sees :
its own `readIdx`, the slots, and `writeIdx` as far as it has arrived. Its loads of
`writeIdx` are acquire loads; the load of `peerAlive` is a relaxed one (`peerAliveOrder`), and
so the `-1` of `detach` may arrive before the index that `detach` was to publish
(`Relay.lateRun`).

`Relay.Inv` is kept by every step whose load of the `-1` leaves no index under way.
`Relay.marker_publishes` reads off it that a `pop` that gives up on a `-1` leaves nothing
behind, and `Relay.inv_of_acquire` that an acquire load would do without the condition.
-/

namespace ShmSpsc

open Transition Delivery

variable {T : Type*}

/-- The variables whose stores are messages to the consumer. -/
inductive Shared where
  | writeIdx
  | producerPid
  deriving DecidableEq, Repr

/-- What the producer has stored to them, and the elements published with it. -/
structure Stored (T : Type*) where
  writeIdx : UInt64
  producerPid : ℤ
  published : List T

/-- `ctrl_->producerPid.load(std::memory_order_relaxed)` of `peerAlive`. -/
def peerAliveOrder : Order := .relaxed

/-- The step stores to `writeIdx`. -/
def Producer.storesIdx (p : Producer T) : PushAct T → Bool
  | .step =>
    match p.pc with
    | .tryPushStore .. => true
    | .pushNStore .. => true
    | _ => false
  | _ => false

/-- The step loads `writeIdx`. -/
def Consumer.loadsIdx (q : Consumer T) : PopAct → Bool
  | .step =>
    match q.pc with
    | .frontRefresh .. => true
    | .popAssert .. => true
    | .popNRefresh .. => true
    | _ => false
  | _ => false

/-- The loop is between two of its observations of the peer. -/
def LoopPc.looking : LoopPc T → Bool
  | .probe _ _ _ => true
  | .emptyFirst _ _ => true
  | .emptySecond _ _ _ _ _ => true
  | _ => false

/-- The two sides, the messages, and where the consumer is with its loop. -/
structure Relay (T : Type*) where
  base : Spsc T
  detached : Bool
  memory : Memory Shared (Stored T)
  loop : LoopPc T

/-- A step of one of the sides, or of the messages. -/
inductive RelayAct (T : Type*) where
  | attachProducer
  | produce (a : PushAct T)
  | detachProducer
  | deliver (x : Shared) (n : ℕ)
  | attachConsumer
  | consume (a : PopAct)
  | call (k : Loop)
  | attempt
  | test
  | load
  | kill (ans : KillResult)
  | emptyFirst (writeFirst : Bool)
  | emptySecond

namespace Relay

/-- The segment as the consumer sees it. -/
def seen (s : Relay T) : Ring T :=
  { s.base.ring with writeIdx := (s.memory.shown .writeIdx).writeIdx }

/-- The log as the consumer sees it. -/
def seenLog (s : Relay T) : Log T :=
  ⟨(s.memory.shown .writeIdx).published, s.base.log.released⟩

/-- A step of the consumer, on the segment it sees. -/
def onSeen (capacity : UInt64) (s : Relay T) (b : SpscAct T) : Option (Spsc T) :=
  ({ s.base with ring := s.seen }.step capacity b).map fun base : Spsc T =>
    { base with ring := { base.ring with writeIdx := s.base.ring.writeIdx } }

/-- A load of `writeIdx` by the consumer. -/
def loadIdx (s : Relay T) : Relay T :=
  { s with memory := s.memory.load .acquire .writeIdx }

/-- A step of an operation of the consumer. -/
def act (capacity : UInt64) (s : Relay T) (a : PopAct) : Option (Relay T) :=
  match s.base.consumer with
  | .up q => (s.onSeen capacity (.consume a)).map fun base =>
      if q.loadsIdx a then { s with base := base }.loadIdx else { s with base := base }
  | _ => none

/-- The producer stores `v`, a release store to `x`. -/
def storing (s : Relay T) (x : Shared) (v : Stored T) : Relay T :=
  { s with memory := s.memory.store x true v }

/-- The consumer is between two calls. -/
def idle (s : Relay T) : Bool :=
  match s.base.consumer with
  | .up q => Worker.idle .consumer q
  | _ => false

/-- What the consumer does outside its loop and inside an attempt of it. -/
def allows (s : Relay T) : PopAct → Bool
  | .step => !s.loop.inside || s.loop.attempting
  | _ => !s.loop.inside

/-- What the last attempt has taken. -/
def taken (s : Relay T) : Option (List T) :=
  match s.base.consumer with
  | .up q => q.taken
  | _ => none

/-- One step on a segment of `capacity` slots, the producer being process `pid` and the load
of `peerAlive` being of order `order`. -/
def step (capacity : UInt64) (pid : ℤ) (order : Order) (s : Relay T) :
    RelayAct T → Option (Relay T)
  | .attachProducer =>
    if s.detached then none
    else
      match s.base.producer with
      | .loading _ => (s.base.step capacity .attachProducer).map fun base =>
          { s with base := base }.storing .producerPid { s.memory.latest with producerPid := pid }
      | _ => (s.base.step capacity .attachProducer).map fun base => { s with base := base }
  | .produce a =>
    match s.base.producer with
    | .up p => (s.base.step capacity (.produce a)).map fun base =>
        if p.storesIdx a then
          { s with base := base }.storing .writeIdx { s.memory.latest with
            writeIdx := base.ring.writeIdx, published := base.log.published }
        else { s with base := base }
    | _ => none
  | .detachProducer =>
    match s.base.producer with
    | .up p =>
      if Worker.idle .producer p then
        some ({ s with base := { s.base with producer := .absent }, detached := true }.storing
          .producerPid { s.memory.latest with producerPid := -1 })
      else none
    | _ => none
  | .deliver x n => (s.memory.deliver x n).map fun memory => { s with memory := memory }
  | .attachConsumer =>
    match s.base.consumer with
    | .loading _ =>
      (s.onSeen capacity .attachConsumer).map fun base => { s with base := base }.loadIdx
    | _ => (s.onSeen capacity .attachConsumer).map fun base => { s with base := base }
  | .consume a =>
    if s.allows a then s.act capacity a else none
  | .call k => if s.idle && !s.loop.inside then some { s with loop := .next k 0 } else none
  | .attempt =>
    match s.loop with
    | .next k spins =>
      (s.act capacity k.attempt).map fun s' => { s' with loop := .trying k spins }
    | _ => none
  | .test =>
    match s.loop, s.taken with
    | .trying k spins, some xs => some { s with loop := Loops.afterAttempt k spins xs }
    | _, _ => none
  | .load =>
    match s.loop with
    | .loadPid k =>
      let pid := (s.memory.shown .producerPid).producerPid
      let s' := { s with memory := s.memory.load order .producerPid }
      if pid = 0 then some { s' with loop := .next k (0 + 1) }
      else some { s' with loop := .probe k pid pid }
    | _ => none
  | .kill ans =>
    match s.loop with
    | .probe k pid who =>
      if processAlive ans pid then some { s with loop := .next k (0 + 1) }
      else some { s with loop := .emptyFirst k who }
    | _ => none
  | .emptyFirst writeFirst =>
    match s.loop with
    | .emptyFirst k who =>
      let x := if writeFirst then s.seen.writeIdx else s.seen.readIdx
      let s' := if writeFirst then s.loadIdx else s
      some { s' with loop := .emptySecond k who writeFirst x s.seenLog }
    | _ => none
  | .emptySecond =>
    match s.loop with
    | .emptySecond k who writeFirst x seen =>
      let y := if writeFirst then s.seen.readIdx else s.seen.writeIdx
      let s' := if writeFirst then s else s.loadIdx
      if x = y then some { s' with loop := .gaveUp who (if writeFirst then seen else s.seenLog) }
      else some { s' with loop := .next k (0 + 1) }
    | _ => none

/-- A segment as `create` returns it to its creator in `role`. -/
def created (capacity : UInt64) (role : Role) (pid : ℤ) (slots : ℕ → T) : Relay T where
  base := .created capacity role slots
  detached := false
  memory := .start ⟨0, if role = .producer then pid else 0, []⟩
  loop := .idle

/-- When `peerAlive` reads a `-1`, no index is under way. -/
def delivered (s : Relay T) : RelayAct T → Bool
  | .load => (s.memory.shown .producerPid).producerPid ≠ -1 || !s.memory.pending .writeIdx
  | _ => true

end Relay

/-! ## What the consumer sees -/

theorem Producer.act_of_not_storesIdx {p p' : Producer T} {ring ring' : Ring T} {a : PushAct T}
    {xs : List T} (h : p.act ring a = some (ring', p', xs)) (hno : p.storesIdx a = false) :
    ring'.writeIdx = ring.writeIdx ∧ xs = [] := by
  obtain ⟨handle, pc⟩ := p
  cases a <;> cases pc <;> simp only [act, storesIdx, reduceCtorEq] at h hno
  all_goals try split_ifs at h
  all_goals cases h
  all_goals exact ⟨rfl, rfl⟩

namespace Relay

variable {c : Capacity} {pid : ℤ} {order : Order} {s s' : Relay T} {a : RelayAct T}

/-- The indices are those of the elements published with them, more and more of them, up to
the whole log, and what was released has arrived. -/
structure Carries (c : Capacity) (memory : Memory Shared (Stored T)) (log : Log T) : Prop where
  cell : ∀ n, (memory.after n).writeIdx.toNat =
    (memory.after n).published.length % c.slots.toNat
  grows : memory.Monotone fun v v' => v.published <+: v'.published
  frames : memory.Frames .writeIdx Stored.published
  latest : memory.latest.published = log.published
  released : log.released <+: (memory.shown .writeIdx).published

/-- Everything published has arrived, and nothing more will be. -/
def Caught (s : Relay T) : Prop :=
  s.detached = true ∧ (s.memory.shown .writeIdx).published = s.base.log.published

/-- What a loop that has read a `-1` knows. -/
def Knows (s : Relay T) : LoopPc T → Prop
  | .probe _ _ who => who = -1 → s.Caught
  | .emptyFirst _ who => who = -1 → s.Caught
  | .emptySecond _ who writeFirst x _ => who = -1 → s.Caught ∧
      x = if writeFirst then s.base.ring.writeIdx else s.base.ring.readIdx
  | .gaveUp who _ => who = -1 → s.Caught ∧ s.base.log.released = s.base.log.published
  | _ => True

/-- The segment holds the log and the producer knows what it knows; the consumer knows what
it knows of the log it sees; and the `-1` is the producer's last store. -/
structure Inv (c : Capacity) (s : Relay T) : Prop where
  ring : s.base.ring.Holds c s.base.log
  loading : ∀ r, s.base.producer = .loading r → ReadCache c s.base.log r 0
  producer : ∀ p, s.base.producer = .up p → p.Inv c s.base.ring s.base.log
  consumer : ∀ q, s.base.consumer = .up q → q.Inv c s.base.ring s.seenLog
  carries : Carries c s.memory s.base.log
  absent : s.detached = true → s.base.producer = .absent
  only : ∀ n, (s.memory.after n).producerPid = -1 →
    s.detached = true ∧ s.memory.stores.length ≤ n
  last : s.detached = true → ∃ st, s.memory.stores.getLast? = some st ∧
    st.var = .producerPid ∧ st.release = true
  knows : s.Knows s.loop

theorem Carries.shown_prefix {memory : Memory Shared (Stored T)} {log : Log T}
    (h : Carries c memory log) : (memory.shown .writeIdx).published <+: log.published := by
  rw [← h.latest]
  exact h.grows _ _ (memory.front_le _)

/-- More has arrived. -/
theorem Carries.later {memory memory' : Memory Shared (Stored T)} {log : Log T}
    (h : Carries c memory log) (hlater : memory.Later memory') : Carries c memory' log where
  cell n := by
    rw [hlater.after]
    exact h.cell n
  grows n k hnk := by
    rw [hlater.after, hlater.after]
    exact h.grows n k hnk
  frames n st hst hne := by
    rw [hlater.after]
    exact h.frames n st (by rw [← hlater.stores]; exact hst) hne
  latest := by
    rw [hlater.latest]
    exact h.latest
  released := by
    refine h.released.trans ?_
    rw [Memory.shown, Memory.shown, hlater.after]
    exact h.grows _ _ (hlater.front _)

/-- What the consumer sees holds what it sees. -/
theorem Inv.seen (h : Inv c s) : s.seen.Holds c s.seenLog :=
  h.ring.seen (h.carries.cell _) h.carries.shown_prefix h.carries.released

/-- With everything arrived, the consumer sees the index. -/
theorem Inv.seen_writeIdx (h : Inv c s) (hcaught : s.Caught) :
    s.seen.writeIdx = s.base.ring.writeIdx := by
  apply UInt64.toNat_inj.mp
  rw [h.seen.write, h.ring.write, seenLog, hcaught.2]

/-! ## Every step keeps it -/

theorem inv_created (c : Capacity) (role : Role) (hpid : 0 < pid) (slots : ℕ → T) :
    Inv c (created c.slots role pid slots) := by
  have hbase := Spsc.inv_created c role slots
  have hafter : ∀ n, (created c.slots role pid slots).memory.after n =
      ⟨0, if role = .producer then pid else 0, []⟩ := by
    intro n
    rw [Memory.after_of_le _ (Nat.zero_le n)]
    rfl
  refine ⟨hbase.ring, hbase.loading, hbase.producer, hbase.consumer, ⟨?_, ?_, ?_, rfl, ?_⟩,
    ?_, ?_, ?_, trivial⟩
  · intro n
    rw [hafter]
    simp
  · intro n k _
    rw [hafter, hafter]
  · intro n st hst
    cases hst
  · exact List.prefix_rfl
  · rintro ⟨⟩
  · intro n hn
    rw [hafter] at hn
    simp only at hn
    split_ifs at hn
    omega
  · rintro ⟨⟩

/-- More has arrived. -/
theorem Inv.later {memory : Memory Shared (Stored T)} (h : Inv c s)
    (hlater : s.memory.Later memory) : Inv c { s with memory := memory } := by
  have hgrows : (s.memory.shown .writeIdx).published <+: (memory.shown .writeIdx).published := by
    rw [Memory.shown, Memory.shown, hlater.after]
    exact h.carries.grows _ _ (hlater.front _)
  have hcarries := h.carries.later hlater
  have hcaught (hs : s.Caught) : Caught { s with memory := memory } := by
    refine ⟨hs.1, ?_⟩
    have hup := hcarries.shown_prefix
    rw [← hs.2] at hup
    exact (hup.eq_of_length (Nat.le_antisymm hup.length_le hgrows.length_le)).trans hs.2
  refine ⟨h.ring, h.loading, h.producer, fun q hq => ?_, hcarries, h.absent, ?_, ?_, ?_⟩
  · obtain ⟨ys, hys⟩ := hgrows
    have hpublish : q.Inv c s.base.ring _ := (h.consumer q hq).publish ys rfl
    simpa [Log.publish, seenLog, hys] using hpublish
  · rw [hlater.stores]
    intro n hn
    rw [hlater.after] at hn
    exact h.only n hn
  · rw [hlater.stores]
    exact h.last
  · have hknows := h.knows
    cases hloop : s.loop with
    | probe k pid who =>
      rw [hloop] at hknows
      exact fun hwho => hcaught (hknows hwho)
    | emptyFirst k who =>
      rw [hloop] at hknows
      exact fun hwho => hcaught (hknows hwho)
    | emptySecond k who writeFirst x seen =>
      rw [hloop] at hknows
      exact fun hwho => ⟨hcaught (hknows hwho).1, (hknows hwho).2⟩
    | gaveUp who seen =>
      rw [hloop] at hknows
      exact fun hwho => ⟨hcaught (hknows hwho).1, (hknows hwho).2⟩
    | _ => trivial

theorem Inv.loadIdx (h : Inv c s) : Inv c s.loadIdx := h.later (s.memory.later_load _ _)

/-- A move of the loop. -/
theorem Inv.go (h : Inv c s) {pc : LoopPc T} (hpc : s.Knows pc) : Inv c { s with loop := pc } :=
  ⟨h.ring, h.loading, h.producer, h.consumer, h.carries, h.absent, h.only, h.last, hpc⟩

/-- A step of the consumer that is not a look of its loop. -/
theorem Inv.consume {q : Consumer T} {a : PopAct} {base : Spsc T} (h : Inv c s)
    (hlook : s.loop.looking = false) (hq : s.base.consumer = .up q)
    (hstep : s.onSeen c.slots (.consume a) = some base) : Inv c { s with base := base } := by
  simp only [onSeen, Spsc.step, hq, Option.map_map, Option.map_eq_some_iff, Prod.exists] at hstep
  obtain ⟨ring, q', xs, hact, rfl⟩ := hstep
  have hsees : q.Inv c s.seen s.seenLog := by
    have hsame : q.Inv c s.seen _ := (h.consumer q hq).publish [] rfl
    rwa [Log.publish_nil] at hsame
  obtain ⟨hring, hq'⟩ := Consumer.act_inv h.seen hsees hact
  obtain ⟨-, hslots⟩ := Consumer.act_frame hact
  have hpublished : s.base.log.released ++ xs <+: s.base.log.published :=
    hring.fifo.trans h.carries.shown_prefix
  have hbase : ({ ring with writeIdx := s.base.ring.writeIdx } : Ring T) =
      { s.base.ring with readIdx := ring.readIdx } := Ring.ext rfl rfl hslots
  have hnext : ring.readIdx.toNat =
      (s.base.log.released.length + xs.length) % c.slots.toNat := by
    rw [hring.read, Log.release_released, List.length_append]
    rfl
  refine ⟨?_, fun r hr => (h.loading r hr).release xs, fun p hp => ?_, ?_,
    ⟨h.carries.cell, h.carries.grows, h.carries.frames, h.carries.latest, hring.fifo⟩,
    h.absent, h.only, h.last, ?_⟩
  · simp only [Function.comp, hbase]
    exact h.ring.release hnext hpublished
  · exact (h.producer p hp).release xs rfl hslots
  · rintro _ ⟨rfl⟩
    have hsame : q'.Inv c { ring with writeIdx := s.base.ring.writeIdx } _ := hq'.publish [] rfl
    rwa [Log.publish_nil] at hsame
  · have hknows := h.knows
    cases hloop : s.loop with
    | gaveUp who seen =>
      rw [hloop] at hknows
      intro hwho
      obtain ⟨hcaught, hall⟩ := hknows hwho
      refine ⟨hcaught, ?_⟩
      -- nothing is left to take
      refine hpublished.eq_of_length (Nat.le_antisymm hpublished.length_le ?_)
      rw [List.length_append, hall]
      exact Nat.le_add_right _ _
    | probe k pid who =>
      rw [hloop] at hlook
      cases hlook
    | emptyFirst k who =>
      rw [hloop] at hlook
      cases hlook
    | emptySecond k who writeFirst x seen =>
      rw [hloop] at hlook
      cases hlook
    | _ => trivial

/-- The steps of the consumer's `bind`. -/
theorem Inv.attachConsumer {base : Spsc T} (h : Inv c s)
    (hstep : s.onSeen c.slots .attachConsumer = some base) : Inv c { s with base := base } := by
  simp only [onSeen, Spsc.step] at hstep
  obtain ⟨base', hbase, rfl⟩ := Option.map_eq_some_iff.mp hstep
  split at hbase
  · cases hbase
    exact ⟨h.ring, h.loading, h.producer, by simp, h.carries, h.absent, h.only, h.last, h.knows⟩
  next r hr =>
    cases hbase
    refine ⟨h.ring, h.loading, h.producer, ?_, h.carries, h.absent, h.only, h.last, h.knows⟩
    rintro _ ⟨rfl⟩
    exact ⟨rfl, .of_load h.seen h.seen.le, by simp [Consumer.fresh], by simp [Consumer.fresh]⟩
  · cases hbase

/-- A step of an operation of the consumer. -/
theorem Inv.act {a : PopAct} (h : Inv c s) (hlook : s.loop.looking = false)
    (hact : s.act c.slots a = some s') : Inv c s' ∧ s'.loop = s.loop := by
  simp only [Relay.act] at hact
  split at hact
  next q hq =>
    obtain ⟨base, hbase, rfl⟩ := Option.map_eq_some_iff.mp hact
    have hinv := h.consume hlook hq hbase
    split_ifs
    · exact ⟨hinv.loadIdx, rfl⟩
    · exact ⟨hinv, rfl⟩
  next => cases hact

/-- Before the `-1` is stored nobody has read it. -/
theorem Knows.of_attached {pc : LoopPc T} (h : s.Knows pc) (hd : s.detached = false) :
    s'.Knows pc := by
  have never (hcaught : s.Caught) : False := by
    rw [Caught, hd] at hcaught
    cases hcaught.1
  cases pc with
  | probe k pid who => exact fun hwho => (never (h hwho)).elim
  | emptyFirst k who => exact fun hwho => (never (h hwho)).elim
  | emptySecond k who writeFirst x seen => exact fun hwho => (never (h hwho).1).elim
  | gaveUp who seen => exact fun hwho => (never (h hwho).1).elim
  | _ => trivial

/-- The next store : an index with the elements it publishes, or a pid. -/
theorem Carries.store {memory : Memory Shared (Stored T)} {log log' : Log T} {x : Shared}
    {v : Stored T} (h : Carries c memory log)
    (hcell : v.writeIdx.toNat = v.published.length % c.slots.toNat)
    (hup : log.published <+: v.published)
    (hframe : x ≠ .writeIdx → v.published = memory.latest.published)
    (hlog : v.published = log'.published) (hreleased : log'.released = log.released) :
    Carries c (memory.store x true v) log' where
  cell := memory.forall_after_store (Q := fun v => v.writeIdx.toNat =
    v.published.length % c.slots.toNat) x true v h.cell hcell
  grows := by
    refine h.grows.store (fun n => ?_) List.prefix_rfl
    have hlatest := h.grows n (max n memory.stores.length) (le_max_left _ _)
    rw [memory.after_of_le (le_max_right _ _), h.latest] at hlatest
    exact hlatest.trans hup
  frames := h.frames.store hframe
  latest := by rw [Memory.latest_store, hlog]
  released := by
    rw [hreleased, Memory.shown_store]
    exact h.released

theorem Inv.not_detached {p : Producer T} (h : Inv c s) (hp : s.base.producer = .up p) :
    s.detached = false := by
  refine Bool.eq_false_iff.mpr fun hdetached => ?_
  rw [h.absent hdetached] at hp
  cases hp

theorem Inv.pid_ne (h : Inv c s) (hd : s.detached = false) (n : ℕ) :
    (s.memory.after n).producerPid ≠ -1 := by
  intro hn
  have hdetached := (h.only n hn).1
  rw [hd] at hdetached
  cases hdetached

/-- What the producer does before it detaches leaves the consumer what it sees. -/
theorem Inv.attached {base : Spsc T} {memory : Memory Shared (Stored T)} (h : Inv c s)
    (hd : s.detached = false) (hring : base.ring.Holds c base.log)
    (hloading : ∀ r, base.producer = .loading r → ReadCache c base.log r 0)
    (hproducer : ∀ p, base.producer = .up p → p.Inv c base.ring base.log)
    (hconsumer : base.consumer = s.base.consumer)
    (hread : base.ring.readIdx = s.base.ring.readIdx)
    (hreleased : base.log.released = s.base.log.released)
    (hshown : memory.shown .writeIdx = s.memory.shown .writeIdx)
    (hcarries : Carries c memory base.log) (hpid : ∀ n, (memory.after n).producerPid ≠ -1) :
    Inv c { s with base := base, memory := memory } := by
  have never (hdetached : s.detached = true) : False := by
    rw [hd] at hdetached
    cases hdetached
  refine ⟨hring, hloading, hproducer, fun q hq => ?_, hcarries, fun hdet => (never hdet).elim,
    fun n hn => absurd hn (hpid n), fun hdet => (never hdet).elim, h.knows.of_attached hd⟩
  have hsame : q.Inv c base.ring _ := (h.consumer q (hconsumer ▸ hq)).publish [] hread
  rw [Log.publish_nil] at hsame
  simpa only [seenLog, hshown, hreleased] using hsame

/-- A step of an operation of the producer. -/
theorem inv_produce {a : PushAct T} (h : Inv c s)
    (hstep : s.step c.slots pid order (.produce a) = some s') : Inv c s' := by
  simp only [step] at hstep
  split at hstep
  next p hp =>
    have hd := h.not_detached hp
    obtain ⟨base, hbase, rfl⟩ := Option.map_eq_some_iff.mp hstep
    simp only [Spsc.step, hp, Option.map_eq_some_iff, Prod.exists] at hbase
    obtain ⟨ring, p', xs, hact, rfl⟩ := hbase
    obtain ⟨hring, hp'⟩ := Producer.act_inv h.ring (h.producer p hp) hact
    have hread := Producer.act_readIdx hact
    have hproducer : ∀ w, Side.up p' = .up w → w.Inv c ring (s.base.log.publish xs) := by
      rintro _ ⟨rfl⟩
      exact hp'
    split_ifs with hstores
    · refine h.attached hd hring (by simp) hproducer rfl hread rfl (s.memory.shown_store ..) ?_ ?_
      · exact h.carries.store hring.write (List.prefix_append _ _) (fun hne => absurd rfl hne) rfl
          rfl
      · exact s.memory.forall_after_store (Q := fun v => v.producerPid ≠ -1) _ _ _ (h.pid_ne hd)
          (h.pid_ne hd _)
    · obtain ⟨-, rfl⟩ := Producer.act_of_not_storesIdx hact (Bool.eq_false_iff.mpr hstores)
      refine h.attached hd hring (by simp) hproducer rfl hread rfl rfl ?_ (h.pid_ne hd)
      simp only [Log.publish_nil]
      exact h.carries
  next => cases hstep

/-- A step of the producer's `bind`. -/
theorem inv_attachProducer (hpid : 0 < pid) (h : Inv c s)
    (hstep : s.step c.slots pid order .attachProducer = some s') : Inv c s' := by
  simp only [step] at hstep
  split_ifs at hstep with hd
  have hd := Bool.eq_false_iff.mpr hd
  have hcell : s.memory.latest.writeIdx.toNat =
      s.memory.latest.published.length % c.slots.toNat := h.carries.cell _
  split at hstep
  next r hr =>
    simp only [Spsc.step, hr, Option.map_some, Option.some.injEq] at hstep
    subst hstep
    refine h.attached hd h.ring (by simp) ?_ rfl rfl rfl (s.memory.shown_store ..) ?_ ?_
    · rintro _ ⟨rfl⟩
      exact ⟨rfl, h.loading r hr⟩
    · refine h.carries.store hcell ?_ (fun _ => rfl) h.carries.latest rfl
      rw [← h.carries.latest]
    · refine s.memory.forall_after_store (Q := fun v => v.producerPid ≠ -1) _ _ _ (h.pid_ne hd) ?_
      simp only
      omega
  next hnot =>
    obtain ⟨base, hbase, rfl⟩ := Option.map_eq_some_iff.mp hstep
    simp only [Spsc.step] at hbase
    split at hbase
    · cases hbase
      refine h.attached hd h.ring ?_ (by simp) rfl rfl rfl rfl h.carries (h.pid_ne hd)
      rintro _ ⟨rfl⟩
      exact .of_load h.ring h.ring.room
    next r hr => exact absurd hr (hnot r)
    · cases hbase

/-- `detach` of the producer. -/
theorem inv_detachProducer (h : Inv c s)
    (hstep : s.step c.slots pid order .detachProducer = some s') : Inv c s' := by
  simp only [step] at hstep
  split at hstep
  next p hp =>
    have hd := h.not_detached hp
    split_ifs at hstep with hidle
    cases hstep
    refine ⟨h.ring, by simp [Relay.storing], by simp [Relay.storing], fun q hq => ?_, ?_,
      fun _ => rfl, fun n hn => ⟨rfl, ?_⟩, fun _ => ⟨_, List.getLast?_concat .., rfl, rfl⟩,
      h.knows.of_attached hd⟩
    · have hsame := h.consumer q hq
      simpa only [seenLog, Relay.storing, Memory.shown_store] using hsame
    · refine h.carries.store (h.carries.cell _) ?_ (fun _ => rfl) h.carries.latest rfl
      rw [← h.carries.latest]
    · by_contra hlt
      simp only [Relay.storing, Memory.length_store, not_le] at hlt hn
      rw [s.memory.after_store _ _ _ (Nat.lt_succ_iff.mp hlt)] at hn
      exact h.pid_ne hd n hn
  next => cases hstep

/-- No index is under way after a load of the `-1` that meets the condition, or that is an
acquire load. -/
theorem pending_of_load (h : Inv c s) (hok : order = .acquire ∨ s.delivered .load = true)
    (hread : (s.memory.shown .producerPid).producerPid = -1) :
    (s.memory.load order .producerPid).pending .writeIdx = false := by
  obtain ⟨hdetached, hend⟩ := h.only _ hread
  cases order with
  | relaxed =>
    rcases hok with hok | hok
    · cases hok
    · have hnone : s.memory.pending .writeIdx = false := by simpa [delivered, hread] using hok
      exact hnone
  | acquire =>
    obtain ⟨st, hlast, hvar, hrelease⟩ := h.last hdetached
    exact Memory.pending_acquire hlast hvar hrelease (Nat.le_antisymm (s.memory.front_le _) hend)

/-- The load of `peerAlive`. -/
theorem inv_load (h : Inv c s) (hok : order = .acquire ∨ s.delivered .load = true)
    (hstep : s.step c.slots pid order .load = some s') : Inv c s' := by
  have hlater := h.later (s.memory.later_load order .producerPid)
  simp only [step] at hstep
  split at hstep
  next k hat =>
    split_ifs at hstep with hzero
    · cases hstep
      exact hlater.go trivial
    · cases hstep
      refine hlater.go fun hread => ⟨(h.only _ hread).1, ?_⟩
      exact (Memory.get_shown hlater.carries.frames (pending_of_load h hok hread)).trans
        hlater.carries.latest
  next => cases hstep

/-- The probe. -/
theorem inv_kill {ans : KillResult} (h : Inv c s)
    (hstep : s.step c.slots pid order (.kill ans) = some s') : Inv c s' := by
  have hknows := h.knows
  simp only [step] at hstep
  split at hstep
  next k pid who hat =>
    rw [hat] at hknows
    split_ifs at hstep
    · cases hstep
      exact h.go trivial
    · cases hstep
      exact h.go hknows
  next => cases hstep

/-- The first load of `empty()`. -/
theorem inv_emptyFirst {writeFirst : Bool} (h : Inv c s)
    (hstep : s.step c.slots pid order (.emptyFirst writeFirst) = some s') : Inv c s' := by
  have hknows := h.knows
  simp only [step] at hstep
  split at hstep
  next k who hat =>
    rw [hat] at hknows
    cases writeFirst with
    | true =>
      cases hstep
      have hgo : Inv c { s with loop := .emptyFirst k who } := h.go hknows
      have hloaded := hgo.loadIdx.knows
      exact h.loadIdx.go fun hwho => ⟨hloaded hwho, h.seen_writeIdx (hknows hwho)⟩
    | false =>
      cases hstep
      exact h.go fun hwho => ⟨hknows hwho, rfl⟩
  next => cases hstep

/-- The second one : equal indices of an index that has arrived leave nothing. -/
theorem inv_emptySecond (h : Inv c s)
    (hstep : s.step c.slots pid order .emptySecond = some s') : Inv c s' := by
  have hknows := h.knows
  simp only [step] at hstep
  split at hstep
  next k who writeFirst x seen hat =>
    rw [hat] at hknows
    have all (hcaught : s.Caught) (hx : x = if writeFirst then s.base.ring.writeIdx
        else s.base.ring.readIdx) (hxy : x = if writeFirst then s.seen.readIdx
        else s.seen.writeIdx) : s.base.log.released = s.base.log.published := by
      refine (h.ring.idx_eq_iff.mp ?_).symm
      cases writeFirst with
      | true => exact hxy.symm.trans hx
      | false => exact hx.symm.trans (hxy.trans (h.seen_writeIdx hcaught))
    by_cases hxy : x = if writeFirst then s.seen.readIdx else s.seen.writeIdx
    · rw [if_pos hxy] at hstep
      cases hstep
      cases writeFirst with
      | true => exact h.go fun hwho => ⟨(hknows hwho).1, all (hknows hwho).1 (hknows hwho).2 hxy⟩
      | false =>
        have hgave : Inv c { s with loop := .gaveUp who s.seenLog } :=
          h.go fun hwho => ⟨(hknows hwho).1, all (hknows hwho).1 (hknows hwho).2 hxy⟩
        exact hgave.loadIdx
    · rw [if_neg hxy] at hstep
      cases hstep
      cases writeFirst with
      | true => exact h.go trivial
      | false => exact h.loadIdx.go trivial
  next => cases hstep

/-- Every step keeps the invariant, if a load of the `-1` leaves no index under way. -/
theorem inv_step (hpid : 0 < pid) (h : Inv c s)
    (hok : order = .acquire ∨ s.delivered a = true)
    (hstep : s.step c.slots pid order a = some s') : Inv c s' := by
  cases a with
  | attachProducer => exact inv_attachProducer hpid h hstep
  | produce a => exact inv_produce h hstep
  | detachProducer => exact inv_detachProducer h hstep
  | deliver x n =>
    obtain ⟨memory, hmemory, rfl⟩ := Option.map_eq_some_iff.mp hstep
    exact h.later (Memory.later_of_deliver hmemory)
  | attachConsumer =>
    simp only [step] at hstep
    split at hstep
    · obtain ⟨base, hbase, rfl⟩ := Option.map_eq_some_iff.mp hstep
      exact (h.attachConsumer hbase).loadIdx
    · obtain ⟨base, hbase, rfl⟩ := Option.map_eq_some_iff.mp hstep
      exact h.attachConsumer hbase
  | consume a =>
    simp only [step] at hstep
    split_ifs at hstep with hallows
    refine (h.act ?_ hstep).1
    cases hloop : s.loop <;> cases a <;> first
      | rfl
      | simp [allows, hloop, LoopPc.inside, LoopPc.attempting] at hallows
  | call k =>
    simp only [step] at hstep
    split_ifs at hstep
    cases hstep
    exact h.go trivial
  | attempt =>
    simp only [step] at hstep
    split at hstep
    next k spins hat =>
      obtain ⟨s₁, hact, rfl⟩ := Option.map_eq_some_iff.mp hstep
      exact (h.act (by rw [hat]; rfl) hact).1.go trivial
    next => cases hstep
  | test =>
    simp only [step] at hstep
    split at hstep
    next k spins xs hat htaken =>
      cases hstep
      refine h.go ?_
      unfold Loops.afterAttempt
      split
      · split_ifs <;> trivial
      · split <;> trivial
    next => cases hstep
  | load => exact inv_load h hok hstep
  | kill ans => exact inv_kill h hstep
  | emptyFirst writeFirst => exact inv_emptyFirst h hstep
  | emptySecond => exact inv_emptySecond h hstep

/-- With an acquire load in `peerAlive` the invariant holds along every run. -/
theorem inv_of_acquire {role : Role} (hpid : 0 < pid) {slots : ℕ → T}
    (run : Reachable (step c.slots pid .acquire) (created c.slots role pid slots) s) : Inv c s :=
  run.invariant (inv_created c role hpid slots) fun _ _ _ h _ hstep =>
    inv_step hpid h (.inl rfl) hstep

/-- The detach marker. The producer publishes any number of elements and then detaches, its
stores arriving at the consumer in order for each variable and in any order across them.
Along every run in which no store to `writeIdx` is under way whenever the relaxed load of
`peerAlive` reads the `-1`, a `pop` that returns `false` after it read the `-1` leaves nothing
behind : every element that was published has been consumed. -/
theorem marker_publishes {L : Layout} {name : String} {requested : UInt64} {calls : CreateCalls}
    {g : Geometry} (hcreate : create L name requested calls = .ok g) (role : Role)
    (hpid : 0 < pid) (slots : ℕ → T) {s : Relay T}
    (run : Reaches (step g.capacity pid peerAliveOrder) (fun s a => s.delivered a)
      (created g.capacity role pid slots) s) {seen : Log T} (hat : s.loop = .gaveUp (-1) seen) :
    s.detached = true ∧ s.base.log.released = s.base.log.published := by
  have hinv : Inv (.ofCreate hcreate) s := by
    refine run.invariant (inv_created (.ofCreate hcreate) role hpid slots) ?_
    exact fun _ _ _ h hok hstep => inv_step hpid h (.inr hok) hstep
  have hknows := hinv.knows
  rw [hat] at hknows
  obtain ⟨hcaught, hall⟩ := hknows rfl
  exact ⟨hcaught.1, hall⟩

/-- Producer `1` has created a queue of two slots, and a consumer attaches. -/
def bothRun : List (RelayAct ℕ) := List.replicate 2 RelayAct.attachConsumer

/-- An attempt of `pop` on what looks like an empty ring. -/
def failRun : List (RelayAct ℕ) :=
  RelayAct.attempt :: List.replicate 3 (RelayAct.consume .step) ++ [RelayAct.test]

/-- A push, and a detach. -/
def pushRun : List (RelayAct ℕ) :=
  RelayAct.produce (.tryPush 7) :: List.replicate 4 (RelayAct.produce .step) ++
    [RelayAct.detachProducer]

/-- A look at the peer. -/
def lookRun : List (RelayAct ℕ) :=
  [RelayAct.load, RelayAct.kill .ok, RelayAct.emptyFirst true, RelayAct.emptySecond]

/-- Everything arrives, and the consumer takes the element before it looks again. -/
def timelyRun : List (RelayAct ℕ) :=
  bothRun ++ pushRun ++ [RelayAct.deliver .writeIdx 2, RelayAct.deliver .producerPid 2] ++
    RelayAct.call (.pop 0) :: RelayAct.attempt :: List.replicate 7 (RelayAct.consume .step) ++
    [RelayAct.test, RelayAct.call (.pop 0)] ++ failRun ++ lookRun

theorem marker_publishes_timelyRun :
    ∃ (s : Relay ℕ) (seen : Log ℕ), Reaches (step 2 1 peerAliveOrder) (fun s a => s.delivered a)
      (created 2 .producer 1 fun _ => 0) s ∧ s.loop = .gaveUp (-1) seen ∧
      s.base.log.published = [7] ∧ s.base.log.released = s.base.log.published := by
  have hrun : (exec (step 2 1 peerAliveOrder) (fun s a => s.delivered a)
      (created 2 .producer 1 fun _ => 0) timelyRun).map
      (fun s => (s.loop, s.base.log.published)) =
        some (.gaveUp (-1) ⟨[7], [7]⟩, [7]) := by decide +kernel
  obtain ⟨s, hs, hview⟩ := Option.map_eq_some_iff.mp hrun
  simp only [Prod.mk.injEq] at hview
  have run := Reaches.of_exec hs
  have hcreate : create messageLayout "/q" 1 ⟨none, none, none⟩ =
      .ok (createdGeometry messageLayout 2 352) := by decide
  exact ⟨s, _, run, hview.1, hview.2,
    (marker_publishes hcreate .producer (by decide) _ run hview.1).2⟩

/-- The `-1` overtakes the index. -/
def lateRun : List (RelayAct ℕ) :=
  bothRun ++ [RelayAct.call (.pop 0)] ++ failRun ++ pushRun ++
    [RelayAct.deliver .producerPid 2] ++ lookRun

/-- `pop` has read the `-1` and returned `false`, and the element is still there. -/
theorem marker_overtakes :
    ∃ (s : Relay ℕ) (seen : Log ℕ), Reachable (step 2 1 peerAliveOrder)
      (created 2 .producer 1 fun _ => 0) s ∧ s.loop = .gaveUp (-1) seen ∧
      s.detached = true ∧ s.base.log.published = [7] ∧ s.base.log.released = [] := by
  have hrun : (exec (step 2 1 peerAliveOrder) (fun _ _ => True)
      (created 2 .producer 1 fun _ => 0) lateRun).map
      (fun s => (s.loop, s.detached, s.base.log.published, s.base.log.released)) =
        some (.gaveUp (-1) ⟨[], []⟩, true, [7], []) := by decide +kernel
  obtain ⟨s, hs, hview⟩ := Option.map_eq_some_iff.mp hrun
  simp only [Prod.mk.injEq] at hview
  exact ⟨s, _, Reaches.of_exec hs, hview⟩

end Relay

end ShmSpsc
