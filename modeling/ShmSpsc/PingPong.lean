import ShmSpsc.Calls
import ShmSpsc.Message

/-!
# The latency benchmark

`bench_latency` : the parent sends a request on `ping`, spins until the reply is there on
`pong`, and takes two times of the round trip, its own and the one up to the stamp of the echo
process, which sends every request back with nothing but `sentNs` replaced. `PingPong.step` is
one step of either process, down to the accesses of the two queues, or of the clock, which is one
for both processes and never goes back.

`PingPong.Inv` is what the two processes know at each place of their loops. It puts the four ends
of the two queues in lockstep (`PingPong.Inv.inStep`) : at most one message is under way.
-/

namespace ShmSpsc

/-! ## The two programs -/

/-- Where the parent is : in its two calls of `waitForPeer`, or given up there; at the head of its
loop; before or in the `try_push` of request `i`, made at `t0`; before or in a `try_pop` for the
reply; or out of its loop. -/
inductive ParentPc where
  | waitPing
  | waitPong
  | failed
  | head (i : UInt64)
  | send (i t0 : UInt64)
  | sending (i t0 : UInt64)
  | recv (i t0 : UInt64)
  | receiving (i t0 : UInt64)
  | done (i : UInt64)
  deriving DecidableEq, Repr

/-- Where the echo process is : in its two calls of `attach`, or killed; at the head of its loop;
before or in a `try_pop` for request `i`; before or in the `try_push` of the reply `m`; or out of
its loop. -/
inductive EchoPc where
  | attachIn
  | attachOut
  | killed
  | head (i : UInt64)
  | recv (i : UInt64)
  | receiving (i : UInt64)
  | send (i : UInt64) (m : Message)
  | sending (i : UInt64) (m : Message)
  | done (i : UInt64)
  deriving DecidableEq, Repr

/-- The two queues, the two processes, the clock and the samples. -/
structure PingPong where
  ping : Spsc Message
  pong : Spsc Message
  parent : ParentPc
  echo : EchoPc
  clock : UInt64
  rtt : List UInt64
  oneWay : List UInt64

/-- Time passes, a call of `waitForPeer` or of `attach` times out, or a process takes a step. -/
inductive PingPongAct where
  | tick (now : UInt64)
  | timeout
  | attachFails
  | parent
  | echo

namespace PingPong

/-- The rounds that are not sampled. -/
def warmup (iters : UInt64) : UInt64 := iters / 10 + 1

/-- The rounds. -/
def rounds (iters : UInt64) : UInt64 := iters + warmup iters

/-- Round `i`, asked at `t0` and answered with `reply`, is sampled now. -/
def sample (s : PingPong) (iters i t0 : UInt64) (reply : Message) : PingPong :=
  if warmup iters ≤ i then
    { s with
      rtt := s.rtt ++ [s.clock - t0]
      oneWay := s.oneWay ++ [if t0 < reply.sentNs then reply.sentNs - t0 else 0] }
  else s

/-- One step of the parent. -/
def parentStep (capacity iters : UInt64) (s : PingPong) : Option PingPong :=
  match s.parent with
  | .waitPing => if s.ping.consumer.isUp then some { s with parent := .waitPong } else none
  | .waitPong => if s.pong.producer.isUp then some { s with parent := .head 0 } else none
  | .failed => none
  | .head i =>
    if i < rounds iters then some { s with parent := .send i s.clock }
    else some { s with parent := .done i }
  | .send i t0 =>
    (s.ping.step capacity (.produce (.tryPush (makeMessage i t0)))).map fun ping =>
      { s with ping := ping, parent := .sending i t0 }
  | .sending i t0 =>
    match s.ping.pushed with
    | none => (s.ping.step capacity (.produce .step)).map fun ping => { s with ping := ping }
    | some ok => some { s with parent := if ok = 0 then .send i t0 else .recv i t0 }
  | .recv i t0 =>
    (s.pong.step capacity (.consume .tryPop)).map fun pong =>
      { s with pong := pong, parent := .receiving i t0 }
  | .receiving i t0 =>
    match s.pong.popped with
    | none => (s.pong.step capacity (.consume .step)).map fun pong => { s with pong := pong }
    | some [] => some { s with parent := .recv i t0 }
    | some (reply :: _) => some { s.sample iters i t0 reply with parent := .head (i + 1) }
  | .done _ => none

/-- One step of the echo process. -/
def echoStep (capacity iters : UInt64) (s : PingPong) : Option PingPong :=
  match s.echo with
  | .attachIn =>
    if s.ping.consumer.isUp then some { s with echo := .attachOut }
    else (s.ping.step capacity .attachConsumer).map fun ping => { s with ping := ping }
  | .attachOut =>
    if s.pong.producer.isUp then some { s with echo := .head 0 }
    else (s.pong.step capacity .attachProducer).map fun pong => { s with pong := pong }
  | .killed => none
  | .head i => some { s with echo := if i < rounds iters then .recv i else .done i }
  | .recv i =>
    (s.ping.step capacity (.consume .tryPop)).map fun ping =>
      { s with ping := ping, echo := .receiving i }
  | .receiving i =>
    match s.ping.popped with
    | none => (s.ping.step capacity (.consume .step)).map fun ping => { s with ping := ping }
    | some [] => some { s with echo := .recv i }
    | some (m :: _) => some { s with echo := .send i { m with sentNs := s.clock } }
  | .send i m =>
    (s.pong.step capacity (.produce (.tryPush m))).map fun pong =>
      { s with pong := pong, echo := .sending i m }
  | .sending i m =>
    match s.pong.pushed with
    | none => (s.pong.step capacity (.produce .step)).map fun pong => { s with pong := pong }
    | some ok => some { s with echo := if ok = 0 then .send i m else .head (i + 1) }
  | .done _ => none

/-- The parent is in a call of `waitForPeer`. -/
def waits (s : PingPong) : Bool := s.parent = .waitPing ∨ s.parent = .waitPong

/-- The echo process is in a call of `attach`. -/
def attaches (s : PingPong) : Bool := s.echo = .attachIn ∨ s.echo = .attachOut

/-- One step. A parent whose echo process does not come kills it. -/
def step (capacity iters : UInt64) (s : PingPong) : PingPongAct → Option PingPong
  | .tick now => if s.clock ≤ now then some { s with clock := now } else none
  | .timeout => if s.waits then some { s with parent := .failed, echo := .killed } else none
  | .attachFails => if s.attaches then some { s with echo := .killed } else none
  | .parent => s.parentStep capacity iters
  | .echo => s.echoStep capacity iters

/-- The parent has created both queues, with whatever their slots hold, and forked. -/
def start (capacity clock : UInt64) (slots : Role → ℕ → Message) : PingPong where
  ping := .created capacity .producer (slots .producer)
  pong := .created capacity .consumer (slots .consumer)
  parent := .waitPing
  echo := .attachIn
  clock := clock
  rtt := []
  oneWay := []

end PingPong

/-! ## What the processes know -/

section Lists

variable {α : Type*} {k : ℕ} {x : α} {xs l l' : List α}

/-- The list is `k` elements, and then `xs`. -/
def Ends (k : ℕ) (xs l : List α) : Prop :=
  ∃ old, l = old ++ xs ∧ old.length = k

theorem Ends.length_eq (h : Ends k xs l) : l.length = k + xs.length := by
  obtain ⟨old, rfl, rfl⟩ := h
  exact List.length_append

theorem Ends.get (h : Ends k (x :: xs) l) : l[k]? = some x := by
  obtain ⟨old, rfl, rfl⟩ := h
  simp

theorem ends_nil (h : l.length = k) : Ends k [] l :=
  ⟨l, (List.append_nil l).symm, h⟩

theorem get_of_starts (h : l <+: l') (hx : l[k]? = some x) : l'[k]? = some x := by
  obtain ⟨rest, rfl⟩ := h
  rw [List.getElem?_append_left (List.getElem?_eq_some_iff.mp hx).1, hx]

/-- A property of each element at its place, kept by an element added at the end. -/
theorem forall_get_concat {P : ℕ → α → Prop} (h : ∀ k y, l[k]? = some y → P k y)
    (hx : P l.length x) (k : ℕ) (y : α) (hy : (l ++ [x])[k]? = some y) : P k y := by
  rcases Nat.lt_trichotomy k l.length with hk | rfl | hk
  · rw [List.getElem?_append_left hk] at hy
    exact h k y hy
  · rw [List.getElem?_append_right le_rfl, Nat.sub_self] at hy
    obtain rfl : x = y := by simpa using hy
    exact hx
  · have := (List.getElem?_eq_some_iff.mp hy).1
    simp only [List.length_append, List.length_singleton] at this
    omega

end Lists

/-- The reply `r` is request `k` with the time of the echo process in it, which is not before
the request's own. -/
def Replies (asked : List Message) (clock : UInt64) (k : ℕ) (r : Message) : Prop :=
  ∃ m, asked[k]? = some m ∧ r = { m with sentNs := r.sentNs } ∧ m.sentNs ≤ r.sentNs ∧
    r.sentNs ≤ clock

theorem Replies.mono {asked asked' : List Message} {clock clock' : UInt64} {k : ℕ} {r : Message}
    (h : Replies asked clock k r) (hasked : asked <+: asked') (hclock : clock ≤ clock') :
    Replies asked' clock' k r := by
  obtain ⟨m, hm, heq, hle, hr⟩ := h
  exact ⟨m, get_of_starts hasked hm, heq, hle, UInt64.le_trans hr hclock⟩

/-- What holds at each place of the parent, with `n` rounds to go through. -/
def ParentPc.Inv (n : UInt64) (ping pong : Spsc Message) (clock : UInt64) : ParentPc → Prop
  | .waitPing => ping.log.published = [] ∧ pong.log.released = []
  | .waitPong => ping.log.published = [] ∧ pong.log.released = []
  | .failed => ping.log.published = [] ∧ pong.log.released = []
  | .head i => ping.log.published.length = i.toNat ∧ pong.log.released.length = i.toNat ∧ i ≤ n
  | .send i t0 =>
    ping.log.published.length = i.toNat ∧ pong.log.released.length = i.toNat ∧ i < n ∧ t0 ≤ clock
  | .sending i t0 =>
    Ends i.toNat ((List.range (ping.pushed.getD 0).toNat).map fun _ => makeMessage i t0)
      ping.log.published ∧
      pong.log.released.length = i.toNat ∧ i < n ∧ t0 ≤ clock ∧
      ping.Pushes (fun _ => makeMessage i t0) 1 ∧ ping.pushed ≠ some 0 ∧ ping.pushed.getD 0 ≤ 1
  | .recv i t0 =>
    Ends i.toNat [makeMessage i t0] ping.log.published ∧ pong.log.released.length = i.toNat ∧ i < n
  | .receiving i t0 =>
    Ends i.toNat [makeMessage i t0] ping.log.published ∧
      Ends i.toNat (pong.popped.getD []) pong.log.released ∧ i < n ∧ pong.Pops
  | .done i => ping.log.published.length = i.toNat ∧ pong.log.released.length = i.toNat ∧ i = n

/-- What holds at each place of the echo process. -/
def EchoPc.Inv (n : UInt64) (ping pong : Spsc Message) (clock : UInt64) : EchoPc → Prop
  | .attachIn => ping.log.released = [] ∧ pong.log.published = []
  | .attachOut => ping.log.released = [] ∧ pong.log.published = []
  | .killed => ping.log.released = [] ∧ pong.log.published = []
  | .head i => ping.log.released.length = i.toNat ∧ pong.log.published.length = i.toNat ∧ i ≤ n
  | .recv i => ping.log.released.length = i.toNat ∧ pong.log.published.length = i.toNat ∧ i < n
  | .receiving i =>
    Ends i.toNat (ping.popped.getD []) ping.log.released ∧
      pong.log.published.length = i.toNat ∧ i < n ∧ ping.Pops
  | .send i m =>
    ping.log.released.length = i.toNat + 1 ∧ pong.log.published.length = i.toNat ∧ i < n ∧
      Replies ping.log.published clock i.toNat m
  | .sending i m =>
    ping.log.released.length = i.toNat + 1 ∧
      Ends i.toNat ((List.range (pong.pushed.getD 0).toNat).map fun _ => m) pong.log.published ∧
      i < n ∧ Replies ping.log.published clock i.toNat m ∧
      pong.Pushes (fun _ => m) 1 ∧ pong.pushed ≠ some 0 ∧ pong.pushed.getD 0 ≤ 1
  | .done i => ping.log.released.length = i.toNat ∧ pong.log.published.length = i.toNat ∧ i = n

section Frames

variable {n clock clock' : UInt64} {ping ping' pong pong' : Spsc Message}

/-- The parent is not concerned by what the echo process does. -/
theorem ParentPc.Inv.frame {pc : ParentPc} (h : pc.Inv n ping pong clock)
    (hproducer : ping'.producer = ping.producer)
    (hpublished : ping'.log.published = ping.log.published)
    (hconsumer : pong'.consumer = pong.consumer)
    (hreleased : pong'.log.released = pong.log.released) (hclock : clock ≤ clock') :
    pc.Inv n ping' pong' clock' := by
  rcases pc with _ | _ | _ | i | ⟨i, t0⟩ | ⟨i, t0⟩ | ⟨i, t0⟩ | ⟨i, t0⟩ | i <;>
    simp only [Inv, Spsc.pushed, Spsc.popped, Spsc.Pushes, Spsc.Pops, hproducer, hpublished,
      hconsumer, hreleased] at h ⊢
  all_goals first | exact h | skip
  · exact ⟨h.1, h.2.1, h.2.2.1, UInt64.le_trans h.2.2.2 hclock⟩
  · exact ⟨h.1, h.2.1, h.2.2.1, UInt64.le_trans h.2.2.2.1 hclock, h.2.2.2.2⟩

/-- The echo process is not concerned by what the parent does, which only adds requests. -/
theorem EchoPc.Inv.frame {pc : EchoPc} (h : pc.Inv n ping pong clock)
    (hconsumer : ping'.consumer = ping.consumer)
    (hreleased : ping'.log.released = ping.log.released)
    (hasked : ping.log.published <+: ping'.log.published)
    (hproducer : pong'.producer = pong.producer)
    (hpublished : pong'.log.published = pong.log.published) (hclock : clock ≤ clock') :
    pc.Inv n ping' pong' clock' := by
  rcases pc with _ | _ | _ | i | i | i | ⟨i, m⟩ | ⟨i, m⟩ | i <;>
    simp only [Inv, Spsc.pushed, Spsc.popped, Spsc.Pushes, Spsc.Pops, hproducer, hpublished,
      hconsumer, hreleased] at h ⊢
  all_goals first | exact h | skip
  · exact ⟨h.1, h.2.1, h.2.2.1, h.2.2.2.mono hasked hclock⟩
  · exact ⟨h.1, h.2.1, h.2.2.1, h.2.2.2.1.mono hasked hclock, h.2.2.2.2⟩

/-- The parent waits for each reply. -/
theorem ParentPc.Inv.length_le {pc : ParentPc} (h : pc.Inv n ping pong clock) :
    ping.log.published.length ≤ pong.log.released.length + 1 := by
  rcases pc with _ | _ | _ | i | ⟨i, t0⟩ | ⟨i, t0⟩ | ⟨i, t0⟩ | ⟨i, t0⟩ | i <;>
    simp only [Inv] at h
  iterate 3 simp [h.1]
  · omega
  · omega
  · have hlen := h.1.length_eq
    have hone : (ping.pushed.getD 0).toNat ≤ 1 := UInt64.le_iff_toNat_le.mp h.2.2.2.2.2.2
    simp only [List.length_map, List.length_range] at hlen
    omega
  · have hlen := h.1.length_eq
    simp only [List.length_singleton] at hlen
    omega
  · have hlen := h.1.length_eq
    have hheard := h.2.1.length_eq
    simp only [List.length_singleton] at hlen
    omega
  · omega

/-- The echo process answers what it has taken. -/
theorem EchoPc.Inv.length_le {pc : EchoPc} (h : pc.Inv n ping pong clock) :
    pong.log.published.length ≤ ping.log.released.length := by
  rcases pc with _ | _ | _ | i | i | i | ⟨i, m⟩ | ⟨i, m⟩ | i <;> simp only [Inv] at h
  iterate 3 simp [h.2]
  · omega
  · omega
  · have hlen := h.1.length_eq
    omega
  · omega
  · have hlen := h.2.1.length_eq
    have hone : (pong.pushed.getD 0).toNat ≤ 1 := UInt64.le_iff_toNat_le.mp h.2.2.2.2.2.2
    simp only [List.length_map, List.length_range] at hlen
    omega
  · omega

end Frames

/-! ## The samples -/

/-- The times `rtt` and `oneWay` are those of round `k` : from the request to some `t1`, and to
the stamp of the reply, the three in this order. -/
def RoundTimes (asked heard : List Message) (k : ℕ) (rtt oneWay : UInt64) : Prop :=
  ∃ m r t1, asked[k]? = some m ∧ heard[k]? = some r ∧ m.sentNs ≤ r.sentNs ∧ r.sentNs ≤ t1 ∧
    rtt.toNat = t1.toNat - m.sentNs.toNat ∧ oneWay.toNat = r.sentNs.toNat - m.sentNs.toNat

/-- After `rounds` rounds there is a sample of each one from `warmup` on. -/
structure Samples (warmup rounds : ℕ) (asked heard : List Message) (rtt oneWay : List UInt64) :
    Prop where
  rtt_length : rtt.length = rounds - warmup
  oneWay_length : oneWay.length = rounds - warmup
  timed : ∀ k r o, rtt[k]? = some r → oneWay[k]? = some o → RoundTimes asked heard (warmup + k) r o

namespace Samples

variable {warmup rounds : ℕ} {asked asked' heard heard' : List Message} {rtt oneWay : List UInt64}

theorem mono (h : Samples warmup rounds asked heard rtt oneWay) (hasked : asked <+: asked')
    (hheard : heard <+: heard') : Samples warmup rounds asked' heard' rtt oneWay := by
  refine ⟨h.rtt_length, h.oneWay_length, fun k r o hr ho => ?_⟩
  obtain ⟨m, a, t1, hm, ha, htimes⟩ := h.timed k r o hr ho
  exact ⟨m, a, t1, get_of_starts hasked hm, get_of_starts hheard ha, htimes⟩

/-- A round of the warmup. -/
theorem skip (h : Samples warmup rounds asked heard rtt oneWay) (hlt : rounds < warmup) :
    Samples warmup (rounds + 1) asked heard rtt oneWay := by
  have hrtt := h.rtt_length
  have honeWay := h.oneWay_length
  exact ⟨by omega, by omega, h.timed⟩

/-- A sampled round. -/
theorem take {r o : UInt64} (h : Samples warmup rounds asked heard rtt oneWay)
    (hle : warmup ≤ rounds) (htimed : RoundTimes asked heard rounds r o) :
    Samples warmup (rounds + 1) asked heard (rtt ++ [r]) (oneWay ++ [o]) := by
  have hrtt := h.rtt_length
  have honeWay := h.oneWay_length
  refine ⟨by simp; omega, by simp; omega, fun k r' o' hr ho => ?_⟩
  rcases Nat.lt_or_ge k (rounds - warmup) with hk | hk
  · rw [List.getElem?_append_left (by omega)] at hr ho
    exact h.timed k r' o' hr ho
  · obtain rfl : k = rounds - warmup := by
      have := (List.getElem?_eq_some_iff.mp hr).1
      simp only [List.length_append, List.length_singleton] at this
      omega
    rw [List.getElem?_append_right (by omega), hrtt, Nat.sub_self] at hr
    rw [List.getElem?_append_right (by omega), honeWay, Nat.sub_self] at ho
    obtain rfl : r = r' := by simpa using hr
    obtain rfl : o = o' := by simpa using ho
    rwa [Nat.add_sub_cancel' hle]

end Samples

/-- The rounds the parent has gone through. -/
def ParentPc.round : ParentPc → UInt64
  | .waitPing => 0
  | .waitPong => 0
  | .failed => 0
  | .head i => i
  | .send i _ => i
  | .sending i _ => i
  | .recv i _ => i
  | .receiving i _ => i
  | .done i => i

namespace PingPong

variable {c : Capacity} {iters : UInt64} {s s' : PingPong}

/-- The requests are numbered. -/
def Requests (asked : List Message) (clock : UInt64) : Prop :=
  ∀ k m, asked[k]? = some m → m = makeMessage (.ofNat k) m.sentNs ∧ m.sentNs ≤ clock

/-- What holds along every run. -/
structure Inv (c : Capacity) (iters : UInt64) (s : PingPong) : Prop where
  ping : Spsc.Inv c s.ping
  pong : Spsc.Inv c s.pong
  parent : s.parent.Inv (rounds iters) s.ping s.pong s.clock
  echo : s.echo.Inv (rounds iters) s.ping s.pong s.clock
  requests : Requests s.ping.log.published s.clock
  replies : ∀ k r, s.pong.log.published[k]? = some r → Replies s.ping.log.published s.clock k r
  samples : Samples (warmup iters).toNat s.parent.round.toNat s.ping.log.published
    s.pong.log.released s.rtt s.oneWay

/-- At most one message is under way. -/
structure InStep (s : PingPong) : Prop where
  heard : s.pong.log.released.length ≤ s.pong.log.published.length
  answered : s.pong.log.published.length ≤ s.ping.log.released.length
  taken : s.ping.log.released.length ≤ s.ping.log.published.length
  asked : s.ping.log.published.length ≤ s.pong.log.released.length + 1

theorem Inv.inStep (h : Inv c iters s) : InStep s :=
  ⟨h.pong.ring.le, h.echo.length_le, h.ping.ring.le, h.parent.length_le⟩

theorem inv_start (c : Capacity) (iters clock : UInt64) (slots : Role → ℕ → Message) :
    Inv c iters (start c.slots clock slots) := by
  refine ⟨Spsc.inv_created c .producer _, Spsc.inv_created c .consumer _, ⟨rfl, rfl⟩,
    ⟨rfl, rfl⟩, ?_, ?_, ⟨?_, ?_, ?_⟩⟩
  · intro k m hm
    simp [start, Spsc.created] at hm
  · intro k r hr
    simp [start, Spsc.created] at hr
  · simp [start, ParentPc.round]
  · simp [start, ParentPc.round]
  · intro k r o hr
    simp [start] at hr

/-- A move of the parent, which has asked, heard or gone on. -/
theorem Inv.parentMove (h : Inv c iters s) {ping pong : Spsc Message} (pc : ParentPc)
    (hping : Spsc.Inv c ping) (hpong : Spsc.Inv c pong)
    (hconsumer : ping.consumer = s.ping.consumer)
    (htaken : ping.log.released = s.ping.log.released)
    (hasked : s.ping.log.published <+: ping.log.published)
    (hproducer : pong.producer = s.pong.producer)
    (hanswered : pong.log.published = s.pong.log.published)
    (hheard : s.pong.log.released <+: pong.log.released)
    (hpc : pc.Inv (rounds iters) ping pong s.clock) (hround : pc.round = s.parent.round)
    (hrequests : Requests ping.log.published s.clock) :
    Inv c iters { s with ping := ping, pong := pong, parent := pc } := by
  refine ⟨hping, hpong, hpc,
    h.echo.frame hconsumer htaken hasked hproducer hanswered UInt64.le_rfl, hrequests, ?_, ?_⟩
  · intro k r hr
    exact (h.replies k r (by rwa [← hanswered])).mono hasked UInt64.le_rfl
  · rw [hround]
    exact h.samples.mono hasked hheard

/-- A move of the echo process, which has taken, answered or gone on. -/
theorem Inv.echoMove (h : Inv c iters s) {ping pong : Spsc Message} (pc : EchoPc)
    (hping : Spsc.Inv c ping) (hpong : Spsc.Inv c pong)
    (hproducer : ping.producer = s.ping.producer)
    (hasked : ping.log.published = s.ping.log.published)
    (hconsumer : pong.consumer = s.pong.consumer)
    (hheard : pong.log.released = s.pong.log.released)
    (hpc : pc.Inv (rounds iters) ping pong s.clock)
    (hreplies : ∀ k r, pong.log.published[k]? = some r →
      Replies s.ping.log.published s.clock k r) :
    Inv c iters { s with ping := ping, pong := pong, echo := pc } := by
  refine ⟨hping, hpong, h.parent.frame hproducer hasked hconsumer hheard UInt64.le_rfl, hpc,
    ?_, ?_, ?_⟩
  · rw [hasked]
    exact h.requests
  · rw [hasked]
    exact hreplies
  · rw [hasked, hheard]
    exact h.samples

end PingPong

end ShmSpsc
