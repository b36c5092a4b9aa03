import ShmSpsc.Calls
import ShmSpsc.Message

/-!
# The throughput benchmark

`run` of `bench_throughput` : the parent pushes `total` messages, one at a time or in batches cut
to what is left, and a forked child pops until it has counted `total` of them. The parent stops
its clock when the child has exited, so that nothing is counted as delivered until the consumer
has it. `Throughput.step` is one step of either process, down to the accesses of the queue.

Neither count is ever ahead of what it counts : a batch is published, and released, when its call
returns (`Throughput.Inv`). `Throughput.all_delivered` is what the clock then measures.
-/

namespace ShmSpsc

open Transition

/-! ## The two processes -/

/-- Where the parent is : in `waitForPeer`, or given up there; at the head of its loop, or in a
call, with `sent` messages counted; in `waitpid`; or after it, with its clock stopped. -/
inductive FeedPc where
  | waiting
  | failed
  | head (sent : UInt64)
  | pushing (sent : UInt64)
  | reaping (sent : UInt64)
  | done (sent : UInt64)
  deriving DecidableEq, Repr

/-- Where the child is : in `attach`, or killed; at the head of its loop, or in a call, with `got`
messages counted; or exited. -/
inductive SinkPc where
  | attaching
  | killed
  | head (got : UInt64)
  | popping (got : UInt64)
  | exited (got : UInt64)
  deriving DecidableEq, Repr

/-- The child has exited. -/
def SinkPc.isExited : SinkPc → Bool
  | .exited _ => true
  | _ => false

/-- The queue and the two processes. -/
structure Throughput where
  queue : Spsc Message
  parent : FeedPc
  child : SinkPc

/-- The call of `waitForPeer` or of `attach` times out, or a process takes a step. -/
inductive ThroughputAct where
  | timeout
  | attachFails
  | parent
  | child

namespace Throughput

/-- The parent's buffer. -/
def buf (i : ℕ) : Message := makeMessage (.ofNat i) 0

/-- How many messages the parent's next call is to push. -/
def want (total batch sent : UInt64) : UInt64 :=
  if batch = 1 then 1 else min batch (total - sent)

/-- The parent's next call. -/
def pushCall (total batch sent : UInt64) : PushAct Message :=
  if batch = 1 then .tryPush (buf 0) else .pushN buf (want total batch sent)

/-- The child's next call. -/
def popCall (batch : UInt64) : PopAct :=
  if batch = 1 then .tryPop else .popN batch

/-- One step of the parent. -/
def parentStep (capacity total batch : UInt64) (s : Throughput) : Option Throughput :=
  match s.parent with
  | .waiting => if s.queue.consumer.isUp then some { s with parent := .head 0 } else none
  | .failed => none
  | .head sent =>
    if sent < total then
      (s.queue.step capacity (.produce (pushCall total batch sent))).map fun queue =>
        { s with queue := queue, parent := .pushing sent }
    else some { s with parent := .reaping sent }
  | .pushing sent =>
    match s.queue.pushed with
    | none => (s.queue.step capacity (.produce .step)).map fun queue => { s with queue := queue }
    | some k => some { s with parent := .head (sent + k) }
  | .reaping sent => if s.child.isExited then some { s with parent := .done sent } else none
  | .done _ => none

/-- One step of the child. -/
def childStep (capacity total batch : UInt64) (s : Throughput) : Option Throughput :=
  match s.child with
  | .attaching =>
    if s.queue.consumer.isUp then some { s with child := .head 0 }
    else (s.queue.step capacity .attachConsumer).map fun queue => { s with queue := queue }
  | .killed => none
  | .head got =>
    if got < total then
      (s.queue.step capacity (.consume (popCall batch))).map fun queue =>
        { s with queue := queue, child := .popping got }
    else some { s with child := .exited got }
  | .popping got =>
    match s.queue.popped with
    | none => (s.queue.step capacity (.consume .step)).map fun queue => { s with queue := queue }
    | some dst => some { s with child := .head (got + .ofNat dst.length) }
  | .exited _ => none

/-- One step. A parent whose child does not come kills it. -/
def step (capacity total batch : UInt64) (s : Throughput) : ThroughputAct → Option Throughput
  | .timeout =>
    if s.parent = .waiting then some { s with parent := .failed, child := .killed } else none
  | .attachFails => if s.child = .attaching then some { s with child := .killed } else none
  | .parent => s.parentStep capacity total batch
  | .child => s.childStep capacity total batch

/-- The parent has created the queue, with whatever its slots hold, and forked. -/
def start (capacity : UInt64) (slots : ℕ → Message) : Throughput where
  queue := .created capacity .producer slots
  parent := .waiting
  child := .attaching

end Throughput

/-! ## What the processes have counted -/

/-- What holds at each place of the parent. -/
def FeedPc.Inv (total batch : UInt64) (queue : Spsc Message) : FeedPc → Prop
  | .waiting => queue.log.published = []
  | .failed => queue.log.published = []
  | .head sent => queue.log.published.length = sent.toNat ∧ sent ≤ total
  | .pushing sent =>
    queue.log.published.length = sent.toNat + (queue.pushed.getD 0).toNat ∧ sent < total ∧
      queue.Pushes Throughput.buf (Throughput.want total batch sent) ∧
      queue.pushed.getD 0 ≤ Throughput.want total batch sent
  | .reaping sent => queue.log.published.length = sent.toNat ∧ sent = total
  | .done sent => queue.log.published.length = sent.toNat ∧ sent = total

/-- What holds at each place of the child. -/
def SinkPc.Inv (total : UInt64) (queue : Spsc Message) : SinkPc → Prop
  | .attaching => queue.log.released = []
  | .killed => queue.log.released = []
  | .head got => queue.log.released.length = got.toNat
  | .popping got =>
    queue.log.released.length = got.toNat + (queue.popped.getD []).length ∧ queue.Pops
  | .exited got => queue.log.released.length = got.toNat ∧ total ≤ got

section Frames

variable {total batch : UInt64} {queue queue' : Spsc Message}

theorem FeedPc.Inv.frame {pc : FeedPc} (h : pc.Inv total batch queue)
    (hproducer : queue'.producer = queue.producer)
    (hpublished : queue'.log.published = queue.log.published) : pc.Inv total batch queue' := by
  rcases pc with _ | _ | sent | sent | sent | sent <;>
    simp only [Inv, Spsc.pushed, Spsc.Pushes, hproducer, hpublished] at h ⊢ <;> exact h

theorem SinkPc.Inv.frame {pc : SinkPc} (h : pc.Inv total queue)
    (hconsumer : queue'.consumer = queue.consumer)
    (hreleased : queue'.log.released = queue.log.released) : pc.Inv total queue' := by
  rcases pc with _ | _ | got | got | got <;>
    simp only [Inv, Spsc.popped, Spsc.Pops, hconsumer, hreleased] at h ⊢ <;> exact h

end Frames

namespace Throughput

variable {c : Capacity} {total batch : UInt64} {s s' : Throughput}

/-- A call is asked for no more than what is left. -/
theorem toNat_want_le (batch : UInt64) {sent : UInt64} (h : sent < total) :
    sent.toNat + (want total batch sent).toNat ≤ total.toNat := by
  have hlt := UInt64.lt_iff_toNat_lt.mp h
  have hsub : (total - sent).toNat = total.toNat - sent.toNat :=
    UInt64.toNat_sub_of_le _ _ (UInt64.le_of_lt h)
  unfold want
  split_ifs with hone
  · rw [UInt64.toNat_one]
    omega
  · rw [toNat_min, hsub]
    omega

/-- Nor for more than the buffer holds. -/
theorem toNat_want_le_batch (total batch sent : UInt64) :
    (want total batch sent).toNat ≤ batch.toNat := by
  unfold want
  split_ifs with hone
  · rw [hone]
  · rw [toNat_min]
    exact min_le_left _ _

end Throughput

/-- Nothing is published beyond the total. -/
theorem FeedPc.Inv.length_le {total batch : UInt64} {queue : Spsc Message} {pc : FeedPc}
    (h : pc.Inv total batch queue) : queue.log.published.length ≤ total.toNat := by
  rcases pc with _ | _ | sent | sent | sent | sent <;> simp only [Inv] at h
  · simp [h]
  · simp [h]
  · have hle := UInt64.le_iff_toNat_le.mp h.2
    omega
  · obtain ⟨hlen, hlt, -, hle⟩ := h
    have hwant := Throughput.toNat_want_le batch hlt
    have hle' := UInt64.le_iff_toNat_le.mp hle
    omega
  · rw [h.1, h.2]
  · rw [h.1, h.2]

namespace Throughput

variable {c : Capacity} {total batch : UInt64} {s s' : Throughput}

/-- What holds along every run. -/
structure Inv (c : Capacity) (total batch : UInt64) (s : Throughput) : Prop where
  queue : Spsc.Inv c s.queue
  parent : s.parent.Inv total batch s.queue
  child : s.child.Inv total s.queue
  messages : ∀ m ∈ s.queue.log.published, ∃ i < batch.toNat, m = buf i
  reaped : ∀ sent, s.parent = .done sent → s.child.isExited

theorem inv_start (c : Capacity) (total batch : UInt64) (slots : ℕ → Message) :
    Inv c total batch (start c.slots slots) := by
  refine ⟨Spsc.inv_created c .producer slots, rfl, rfl, ?_, ?_⟩
  · simp [start, Spsc.created]
  · rintro sent ⟨⟩

/-- A move of the parent. -/
theorem Inv.parentMove (h : Inv c total batch s) {queue : Spsc Message} (pc : FeedPc)
    {xs : List Message} (hqueue : Spsc.Inv c queue)
    (hconsumer : queue.consumer = s.queue.consumer) (hlog : queue.log = s.queue.log.publish xs)
    (hpc : pc.Inv total batch queue) (hxs : ∀ m ∈ xs, ∃ i < batch.toNat, m = buf i)
    (hdone : ∀ sent, pc = .done sent → s.child.isExited) :
    Inv c total batch { s with queue := queue, parent := pc } := by
  refine ⟨hqueue, hpc, h.child.frame hconsumer (by rw [hlog, Log.publish_released]), ?_, hdone⟩
  rw [hlog, Log.publish_published]
  intro m hm
  rcases List.mem_append.mp hm with hm | hm
  · exact h.messages m hm
  · exact hxs m hm

/-- The parent goes on without an access to the queue. -/
theorem Inv.parentGo (h : Inv c total batch s) {pc : FeedPc} (hpc : pc.Inv total batch s.queue)
    (hdone : ∀ sent, pc = .done sent → s.child.isExited) :
    Inv c total batch { s with parent := pc } :=
  h.parentMove _ h.queue rfl (Log.publish_nil _).symm hpc (by simp) hdone

/-- A move of the child. -/
theorem Inv.childMove (h : Inv c total batch s) {queue : Spsc Message} (pc : SinkPc)
    (hqueue : Spsc.Inv c queue) (hproducer : queue.producer = s.queue.producer)
    (hpublished : queue.log.published = s.queue.log.published) (hpc : pc.Inv total queue)
    (hrunning : s.child.isExited = false) :
    Inv c total batch { s with queue := queue, child := pc } := by
  refine ⟨hqueue, h.parent.frame hproducer hpublished, hpc, ?_, ?_⟩
  · rw [hpublished]
    exact h.messages
  · intro sent hat
    have hexited := h.reaped sent hat
    rw [hrunning] at hexited
    cases hexited

/-- The parent calls `try_push` or `push_n`. -/
theorem inv_push {sent : UInt64} {queue : Spsc Message} (h : Inv c total batch s)
    (hat : s.parent = .head sent) (hlt : sent < total)
    (hcall : s.queue.step c.slots (.produce (pushCall total batch sent)) = some queue) :
    Inv c total batch { s with queue := queue, parent := .pushing sent } := by
  have hparent := h.parent
  rw [hat] at hparent
  have hfacts : queue.Pushes buf (want total batch sent) ∧ queue.pushed.getD 0 = 0 ∧
      queue.log = s.queue.log ∧ queue.consumer = s.queue.consumer := by
    unfold pushCall at hcall
    split_ifs at hcall with hone
    · obtain ⟨hpushes, hnone, hlog, hconsumer⟩ := Spsc.tryPush_call buf hcall
      rw [want, if_pos hone, hnone]
      exact ⟨hpushes, rfl, hlog, hconsumer⟩
    · exact Spsc.pushN_call hcall
  obtain ⟨hpushes, hnone, hlog, hconsumer⟩ := hfacts
  refine h.parentMove _ (Spsc.inv_step h.queue hcall) hconsumer
    (hlog.trans (Log.publish_nil _).symm) ⟨?_, hlt, hpushes, ?_⟩ (by simp) (by rintro _ ⟨⟩)
  · rw [hlog, hnone]
    exact hparent.1
  · rw [hnone]
    exact UInt64.zero_le

/-- A step of the parent's call. -/
theorem inv_pushing {sent : UInt64} {queue : Spsc Message} (h : Inv c total batch s)
    (hat : s.parent = .pushing sent) (hstep : s.queue.step c.slots (.produce .step) = some queue) :
    Inv c total batch { s with queue := queue } := by
  have hparent := h.parent
  rw [hat] at hparent
  obtain ⟨hlen, hlt, hpushes, -⟩ := hparent
  rw [Spsc.pushed_of_step hstep] at hlen
  obtain ⟨hpushes', hle, hlog, hconsumer⟩ := Spsc.push_step hpushes hstep
  have hxs : ∀ m ∈ (List.range (queue.pushed.getD 0).toNat).map buf,
      ∃ i < batch.toNat, m = buf i := by
    intro m hm
    obtain ⟨i, hi, rfl⟩ := List.mem_map.mp hm
    have hi' := List.mem_range.mp hi
    have hle' := UInt64.le_iff_toNat_le.mp hle
    have hwant := toNat_want_le_batch total batch sent
    exact ⟨i, by omega, rfl⟩
  have key := h.parentMove (.pushing sent) (Spsc.inv_step h.queue hstep) hconsumer hlog
    ⟨by simp [hlog, hlen], hlt, hpushes', hle⟩ hxs (by rintro _ ⟨⟩)
  rw [← hat] at key
  exact key

/-- The parent's call has returned `k`. -/
theorem inv_pushed {sent k : UInt64} (h : Inv c total batch s) (hat : s.parent = .pushing sent)
    (hk : s.queue.pushed = some k) : Inv c total batch { s with parent := .head (sent + k) } := by
  have hparent := h.parent
  rw [hat] at hparent
  obtain ⟨hlen, hlt, -, hle⟩ := hparent
  rw [hk, Option.getD_some] at hlen hle
  have hwant := toNat_want_le batch hlt
  have hle' := UInt64.le_iff_toNat_le.mp hle
  have htotal := total.toNat_lt
  have hsum : (sent + k).toNat = sent.toNat + k.toNat := by
    rw [UInt64.toNat_add]
    omega
  refine h.parentGo ⟨?_, ?_⟩ (by rintro _ ⟨⟩)
  · rw [hsum]
    exact hlen
  · rw [UInt64.le_iff_toNat_le, hsum]
    omega

/-- A step of the parent. -/
theorem inv_parent (h : Inv c total batch s) (hstep : s.parentStep c.slots total batch = some s') :
    Inv c total batch s' := by
  have hparent := h.parent
  cases hat : s.parent with
  | waiting =>
    rw [hat] at hparent
    simp only [parentStep, hat] at hstep
    split_ifs at hstep
    cases hstep
    refine h.parentGo ⟨?_, UInt64.zero_le⟩ (by rintro _ ⟨⟩)
    rw [hparent]
    rfl
  | failed => simp [parentStep, hat] at hstep
  | head sent =>
    rw [hat] at hparent
    simp only [parentStep, hat] at hstep
    split_ifs at hstep with hlt
    · obtain ⟨queue, hcall, rfl⟩ := Option.map_eq_some_iff.mp hstep
      exact inv_push h hat hlt hcall
    · cases hstep
      exact h.parentGo ⟨hparent.1, UInt64.le_antisymm hparent.2 (UInt64.not_lt.mp hlt)⟩
        (by rintro _ ⟨⟩)
  | pushing sent =>
    simp only [parentStep, hat] at hstep
    split at hstep
    next =>
      obtain ⟨queue, hact, rfl⟩ := Option.map_eq_some_iff.mp hstep
      rw [← hat]
      exact inv_pushing h hat hact
    next k hk =>
      cases hstep
      exact inv_pushed h hat hk
  | reaping sent =>
    rw [hat] at hparent
    simp only [parentStep, hat] at hstep
    split_ifs at hstep with hexited
    cases hstep
    exact h.parentGo hparent fun _ _ => hexited
  | done sent => simp [parentStep, hat] at hstep

/-- The child goes on without an access to the queue. -/
theorem Inv.childGo (h : Inv c total batch s) {pc : SinkPc} (hpc : pc.Inv total s.queue)
    (hrunning : s.child.isExited = false) : Inv c total batch { s with child := pc } :=
  h.childMove _ h.queue rfl rfl hpc hrunning

/-- A load of `bind` in `attach`. -/
theorem inv_attaching {queue : Spsc Message} (h : Inv c total batch s)
    (hat : s.child = .attaching) (hstep : s.queue.step c.slots .attachConsumer = some queue) :
    Inv c total batch { s with queue := queue } := by
  obtain ⟨hproducer, hlog⟩ := Spsc.attachConsumer_frame hstep
  have hchild := h.child
  rw [hat] at hchild
  have key := h.childMove .attaching (Spsc.inv_step h.queue hstep) hproducer
    (by rw [hlog]) (by rw [SinkPc.Inv, hlog]; exact hchild) (by rw [hat]; rfl)
  rw [← hat] at key
  exact key

/-- The child calls `try_pop` or `pop_n`. -/
theorem inv_pop {got : UInt64} {queue : Spsc Message} (h : Inv c total batch s)
    (hat : s.child = .head got)
    (hcall : s.queue.step c.slots (.consume (popCall batch)) = some queue) :
    Inv c total batch { s with queue := queue, child := .popping got } := by
  have hchild := h.child
  rw [hat] at hchild
  have hfacts : queue.Pops ∧ queue.popped.getD [] = [] ∧ queue.log = s.queue.log ∧
      queue.producer = s.queue.producer := by
    unfold popCall at hcall
    split_ifs at hcall with hone
    · exact Spsc.pop_call (.pop 0) hcall
    · exact Spsc.pop_call (.drain batch) hcall
  obtain ⟨hpops, hnone, hlog, hproducer⟩ := hfacts
  refine h.childMove _ (Spsc.inv_step h.queue hcall) hproducer (by rw [hlog]) ⟨?_, hpops⟩
    (by rw [hat]; rfl)
  rw [hlog, hnone]
  exact hchild

/-- A step of the child's call. -/
theorem inv_popping {got : UInt64} {queue : Spsc Message} (h : Inv c total batch s)
    (hat : s.child = .popping got) (hstep : s.queue.step c.slots (.consume .step) = some queue) :
    Inv c total batch { s with queue := queue } := by
  have hchild := h.child
  rw [hat] at hchild
  obtain ⟨hlen, hpops⟩ := hchild
  rw [Spsc.popped_of_step hstep] at hlen
  obtain ⟨hpops', hlog, hproducer⟩ := Spsc.pop_step hpops hstep
  have key := h.childMove (.popping got) (Spsc.inv_step h.queue hstep) hproducer
    (by rw [hlog, Log.release_published]) ⟨by simp [hlog, hlen], hpops'⟩ (by rw [hat]; rfl)
  rw [← hat] at key
  exact key

/-- The child's call has returned `dst`. -/
theorem inv_popped {got : UInt64} {dst : List Message} (h : Inv c total batch s)
    (hat : s.child = .popping got) (hdst : s.queue.popped = some dst) :
    Inv c total batch { s with child := .head (got + .ofNat dst.length) } := by
  have hchild := h.child
  rw [hat] at hchild
  obtain ⟨hlen, -⟩ := hchild
  rw [hdst, Option.getD_some] at hlen
  -- what is released is published, so the count stays within the total
  have hfifo := h.queue.ring.le
  have hbound := h.parent.length_le
  have htotal := total.toNat_lt
  refine h.childGo ?_ (by rw [hat]; rfl)
  rw [SinkPc.Inv, UInt64.toNat_add, UInt64.toNat_ofNat']
  omega

/-- A step of the child. -/
theorem inv_child (h : Inv c total batch s) (hstep : s.childStep c.slots total batch = some s') :
    Inv c total batch s' := by
  have hchild := h.child
  cases hat : s.child with
  | attaching =>
    simp only [childStep, hat] at hstep
    split_ifs at hstep
    · rw [hat] at hchild
      cases hstep
      refine h.childGo ?_ (by rw [hat]; rfl)
      rw [SinkPc.Inv, hchild]
      rfl
    · obtain ⟨queue, hload, rfl⟩ := Option.map_eq_some_iff.mp hstep
      rw [← hat]
      exact inv_attaching h hat hload
  | killed => simp [childStep, hat] at hstep
  | head got =>
    rw [hat] at hchild
    simp only [childStep, hat] at hstep
    split_ifs at hstep with hlt
    · obtain ⟨queue, hcall, rfl⟩ := Option.map_eq_some_iff.mp hstep
      exact inv_pop h hat hcall
    · cases hstep
      exact h.childGo ⟨hchild, UInt64.not_lt.mp hlt⟩ (by rw [hat]; rfl)
  | popping got =>
    simp only [childStep, hat] at hstep
    split at hstep
    next =>
      obtain ⟨queue, hact, rfl⟩ := Option.map_eq_some_iff.mp hstep
      rw [← hat]
      exact inv_popping h hat hact
    next dst hdst =>
      cases hstep
      exact inv_popped h hat hdst
  | exited got => simp [childStep, hat] at hstep

/-- The parent gives up, and kills the child. -/
theorem inv_timeout (h : Inv c total batch s) (hat : s.parent = .waiting) :
    Inv c total batch { s with parent := .failed, child := .killed } := by
  have hparent : s.queue.log.published = [] := by
    have hparent := h.parent
    rwa [hat] at hparent
  have hnone : s.queue.log.released = [] := by
    have hfifo := h.queue.ring.le
    rw [hparent] at hfifo
    exact List.length_eq_zero_iff.mp (Nat.le_zero.mp hfifo)
  exact ⟨h.queue, hparent, hnone, h.messages, by rintro _ ⟨⟩⟩

/-- Every step keeps the invariant. -/
theorem inv_step {a : ThroughputAct} (h : Inv c total batch s)
    (hstep : step c.slots total batch s a = some s') : Inv c total batch s' := by
  rcases a with _ | _ | _ | _
  · simp only [step] at hstep
    split_ifs at hstep with hat
    cases hstep
    exact inv_timeout h hat
  · simp only [step] at hstep
    split_ifs at hstep with hat
    cases hstep
    have hchild := h.child
    rw [hat] at hchild
    exact h.childGo hchild (by rw [hat]; rfl)
  · exact inv_parent h hstep
  · exact inv_child h hstep

theorem inv_of_reachable {slots : ℕ → Message}
    (run : Reachable (step c.slots total batch) (start c.slots slots) s) : Inv c total batch s :=
  run.invariant (inv_start c total batch slots) fun _ _ _ h _ hstep => inv_step h hstep

end Throughput

end ShmSpsc
