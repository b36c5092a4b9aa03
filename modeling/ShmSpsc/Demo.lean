import ShmSpsc.Drain
import ShmSpsc.Message

/-!
# The demo

`demo_consumer` creates the segment, waits for a producer and drains the queue with `pop_n`,
counting the messages and those that are out of sequence or do not match their checksum.
`demo_producer` attaches and sends `makeMessage(0)`, `makeMessage(1)` and so on with the blocking
`push`, up to its total or until the consumer has gone away. One consumer, and any number of
producers : each is refused while another one is attached, and starts over at `0` when it is
not.

`Demo.step` puts the two programs on top of `Loops.step`, which has the consumer's loop
already. `push` is here : an attempt, and every `4096` failures a load of the consumer's pid and
a probe of it. A signal may end either loop at its head.
-/

namespace ShmSpsc

open Transition

/-! ## The consumer's count -/

/-- `received`, `expect` and `errors`. -/
structure Tally where
  received : UInt64
  expect : UInt64
  errors : UInt64
  deriving DecidableEq, Repr

namespace Tally

/-- Nothing received. -/
def start : Tally := ⟨0, 0, 0⟩

/-- The check of one message. -/
def check (t : Tally) (m : Message) : Tally :=
  if m.seq ≠ t.expect ∨ m.checksum ≠ checksumOf m then
    { t with errors := t.errors + 1, expect := m.seq + 1 }
  else { t with expect := t.expect + 1 }

/-- The checks of a batch, and the count of its messages. -/
def batch (t : Tally) (ms : List Message) : Tally :=
  let t := ms.foldl check t
  { t with received := t.received + .ofNat ms.length }

end Tally

/-! ## The producer's loop -/

/-- Where a `demo_producer` is : not in its loop yet; at its head with `sent` messages sent; in
the `push` of `v`, before or in an attempt, before the load of the consumer's pid, before the
probe; or out of its loop, with the consumer `gone` or not. -/
inductive SendPc where
  | idle
  | head (sent : UInt64)
  | next (sent : UInt64) (v : Message) (spins : UInt32)
  | trying (sent : UInt64) (v : Message) (spins : UInt32)
  | loadPid (sent : UInt64) (v : Message)
  | probe (sent : UInt64) (v : Message) (pid : ℤ)
  | stopped (sent : UInt64) (gone : Bool)
  deriving DecidableEq

namespace SendPc

/-- The messages sent so far. -/
def sent : SendPc → UInt64
  | .idle => 0
  | .head n => n
  | .next n _ _ => n
  | .trying n _ _ => n
  | .loadPid n _ => n
  | .probe n _ _ => n
  | .stopped n _ => n

/-- The message being pushed. -/
def pushing : SendPc → Option Message
  | .next _ v _ => some v
  | .trying _ v _ => some v
  | .loadPid _ v => some v
  | .probe _ v _ => some v
  | _ => none

/-- The process is in its loop. -/
def inside : SendPc → Bool
  | .idle => false
  | .stopped _ _ => false
  | _ => true

/-- The process is in an attempt. -/
def trial : SendPc → Option Message
  | .trying _ v _ => some v
  | _ => none

/-- The process is out of its loop. -/
def isStopped : SendPc → Bool
  | .stopped _ _ => true
  | _ => false

end SendPc

/-- What the last `try_push` has returned. -/
def Producer.pushed {T : Type*} (w : Producer T) : Option Bool :=
  match w.pc with
  | .ready (some (.tryPush ok)) => some ok
  | _ => none

/-! ## The programs -/

/-- The processes, the producers' loops, and the consumer's count; `left` if a signal has ended
the consumer's loop. -/
structure Demo where
  base : Loops Message
  sender : ℤ → SendPc
  tally : Tally
  left : Bool

/-- A step of the queue or of the consumer's loop, a step of the consumer's program, or one of
a producer's. -/
inductive DemoAct where
  | loops (a : LoopAct Message)
  | begin
  | test
  | interrupt
  | start (p : ℤ)
  | push (p : ℤ) (now : UInt64)
  | stop (p : ℤ)
  | attempt (p : ℤ)
  | pushed (p : ℤ)
  | load (p : ℤ)
  | kill (p : ℤ) (ans : Answers)

namespace Demo

/-- The default of `peerCheckSpins`. -/
def peerCheckSpins : UInt32 := 4096

/-- The size of the consumer's buffer. -/
def bufSize : UInt64 := 256

/-- The loop of the producer `p` moves to `pc`. -/
def go (s : Demo) (p : ℤ) (pc : SendPc) : Demo :=
  { s with sender := Function.update s.sender p pc }

/-- The endpoint has not been used. -/
def unused (s : Demo) (p : ℤ) : Bool :=
  match s.base.base.endpoint .producer p with
  | .absent none => true
  | _ => false

/-- What the last `try_push` of `p` has returned. -/
def pushedBy (s : Demo) (p : ℤ) : Option Bool :=
  match s.base.base.endpoint .producer p with
  | .bound w => Producer.pushed w
  | _ => none

/-- `p` is a producer between two calls. -/
def idle (s : Demo) (p : ℤ) : Bool :=
  match s.base.base.endpoint .producer p with
  | .bound w => Worker.idle .producer w
  | _ => false

/-- The steps of the queue that the programs leave to it : a producer attaches once, detaches
after its loop, and calls `try_push` in its loop only; the consumer calls `pop_n` in its
loop only. -/
def allows (s : Demo) : LoopAct Message → Bool
  | .shm (.attach role p _) => role = .producer && s.unused p && s.sender p = .idle
  | .shm (.produce _ a) =>
    match a with
    | .step => true
    | _ => false
  | .shm (.consume _ a) =>
    match a with
    | .step => true
    | _ => false
  | .shm (.detach .producer p) => (s.sender p).isStopped
  | .call _ _ => false
  | .test _ => false
  | _ => true

/-- The producer after an attempt that has returned `ok`. -/
def afterAttempt (sent : UInt64) (v : Message) (spins : UInt32) (ok : Bool) : SendPc :=
  if ok then .head (sent + 1)
  else if spins ≥ peerCheckSpins then .loadPid sent v
  else .next sent v (spins + 1)

/-- One step; the producer `p` is to send `total p` messages. -/
def step (S : Setup) (total : ℤ → UInt64) (s : Demo) : DemoAct → Option Demo
  | .loops a =>
    if s.allows a then (s.base.step S a).map fun base => { s with base := base } else none
  | .begin =>
    -- `waitForPeer` has loaded a pid
    if 0 < s.base.base.object.pid .producer ∧ s.base.loop S.creator = .idle ∧ s.left = false then
      (s.base.step S (.call S.creator (.drain bufSize))).map fun base => { s with base := base }
    else none
  | .test =>
    (s.base.step S (.test S.creator)).map fun base =>
      { s with base := base, tally := s.tally.batch ((s.base.taken S.creator).getD []) }
  | .interrupt =>
    match s.base.loop S.creator with
    | .next _ _ =>
      if s.base.base.live S.creator then
        some { s with base := s.base.go S.creator .idle, left := true }
      else none
    | _ => none
  | .start p =>
    match s.sender p with
    | .idle => if s.base.base.live p && s.idle p then some (s.go p (.head 0)) else none
    | _ => none
  | .push p now =>
    match s.sender p with
    | .head sent =>
      if s.base.base.live p && decide (sent < total p) then
        some (s.go p (.next sent (makeMessage sent now) 0))
      else none
    | _ => none
  | .stop p =>
    match s.sender p with
    | .head sent => if s.base.base.live p then some (s.go p (.stopped sent false)) else none
    | _ => none
  | .attempt p =>
    match s.sender p with
    | .next sent v spins =>
      (s.base.step S (.shm (.produce p (.tryPush v)))).map fun base =>
        { s with base := base }.go p (.trying sent v spins)
    | _ => none
  | .pushed p =>
    match s.sender p, s.pushedBy p with
    | .trying sent v spins, some ok =>
      if s.base.base.live p then some (s.go p (afterAttempt sent v spins ok)) else none
    | _, _ => none
  | .load p =>
    match s.sender p with
    | .loadPid sent v =>
      let pid := s.base.base.object.pid .consumer
      if s.base.base.live p then
        if pid = 0 then some (s.go p (.next sent v (0 + 1)))
        else some (s.go p (.probe sent v pid))
      else none
    | _ => none
  | .kill p ans =>
    match s.sender p with
    | .probe sent v pid =>
      if s.base.base.live p && s.base.base.admits ans (some pid) then
        if processAlive ans.kill pid then some (s.go p (.next sent v (0 + 1)))
        else some (s.go p (.stopped sent true))
      else none
    | _ => none

/-- The consumer has made the object, and nobody is in a loop. -/
def opened (S : Setup) (slots : ℕ → Message) : Demo where
  base := .opened S slots
  sender := fun _ => .idle
  tally := .start
  left := false

/-- An attach that claims a role has a safe sample of the indices. -/
def safeClaim (s : Demo) : DemoAct → Bool
  | .loops (.shm a) => s.base.base.safeClaim a
  | _ => true

end Demo

/-! ## What a step does -/

namespace Demo

variable {S : Setup} {total : ℤ → UInt64} {s s' : Demo} {a : DemoAct} {p : ℤ}

/-- The steps, case by case. -/
inductive Steps (S : Setup) (total : ℤ → UInt64) (s : Demo) : DemoAct → Demo → Prop
  | loops {a : LoopAct Message} {base : Loops Message} (allowed : s.allows a)
      (next : s.base.step S a = some base) : Steps S total s (.loops a) { s with base := base }
  | begin {base : Loops Message}
      (next : s.base.step S (.call S.creator (.drain bufSize)) = some base) :
      Steps S total s .begin { s with base := base }
  | test {base : Loops Message} (next : s.base.step S (.test S.creator) = some base) :
      Steps S total s .test
        { s with base := base, tally := s.tally.batch ((s.base.taken S.creator).getD []) }
  | interrupt {k : Loop} {spins : UInt32} (at_ : s.base.loop S.creator = .next k spins) :
      Steps S total s .interrupt { s with base := s.base.go S.creator .idle, left := true }
  | start {p : ℤ} (at_ : s.sender p = .idle) (idle : s.idle p) :
      Steps S total s (.start p) (s.go p (.head 0))
  | push {p : ℤ} {now sent : UInt64} (at_ : s.sender p = .head sent) (more : sent < total p) :
      Steps S total s (.push p now) (s.go p (.next sent (makeMessage sent now) 0))
  | stop {p : ℤ} {sent : UInt64} (at_ : s.sender p = .head sent) :
      Steps S total s (.stop p) (s.go p (.stopped sent false))
  | attempt {p : ℤ} {sent : UInt64} {v : Message} {spins : UInt32} {base : Loops Message}
      (at_ : s.sender p = .next sent v spins)
      (next : s.base.step S (.shm (.produce p (.tryPush v))) = some base) :
      Steps S total s (.attempt p) ({ s with base := base }.go p (.trying sent v spins))
  | pushed {p : ℤ} {sent : UInt64} {v : Message} {spins : UInt32} {ok : Bool}
      (at_ : s.sender p = .trying sent v spins) (returned : s.pushedBy p = some ok) :
      Steps S total s (.pushed p) (s.go p (afterAttempt sent v spins ok))
  | unattached {p : ℤ} {sent : UInt64} {v : Message} (at_ : s.sender p = .loadPid sent v) :
      Steps S total s (.load p) (s.go p (.next sent v (0 + 1)))
  | load {p : ℤ} {sent : UInt64} {v : Message} (at_ : s.sender p = .loadPid sent v)
      (attached : s.base.base.object.pid .consumer ≠ 0) :
      Steps S total s (.load p) (s.go p (.probe sent v (s.base.base.object.pid .consumer)))
  | running {p pid : ℤ} {sent : UInt64} {v : Message} {ans : Answers}
      (at_ : s.sender p = .probe sent v pid) :
      Steps S total s (.kill p ans) (s.go p (.next sent v (0 + 1)))
  | gone {p pid : ℤ} {sent : UInt64} {v : Message} {ans : Answers}
      (at_ : s.sender p = .probe sent v pid) (answers : s.base.base.admits ans (some pid))
      (dead : ¬processAlive ans.kill pid) :
      Steps S total s (.kill p ans) (s.go p (.stopped sent true))

theorem steps_of_step (h : step S total s a = some s') : Steps S total s a s' := by
  rcases a with a | _ | _ | _ | p | ⟨p, now⟩ | p | p | p | p | ⟨p, ans⟩
  all_goals simp only [step] at h
  · split_ifs at h with allowed
    obtain ⟨base, next, rfl⟩ := Option.map_eq_some_iff.mp h
    exact .loops allowed next
  · split_ifs at h with hguard
    obtain ⟨base, next, rfl⟩ := Option.map_eq_some_iff.mp h
    exact .begin next
  · obtain ⟨base, next, rfl⟩ := Option.map_eq_some_iff.mp h
    exact .test next
  · split at h
    next hat =>
      split_ifs at h
      obtain rfl := Option.some.inj h
      exact .interrupt hat
    next => cases h
  · split at h
    next hat =>
      split_ifs at h with hguard
      obtain rfl := Option.some.inj h
      exact .start hat (Bool.and_eq_true_iff.mp hguard).2
    next => cases h
  · split at h
    next hat =>
      split_ifs at h with hguard
      obtain rfl := Option.some.inj h
      exact .push hat (of_decide_eq_true (Bool.and_eq_true_iff.mp hguard).2)
    next => cases h
  · split at h
    next hat =>
      split_ifs at h
      obtain rfl := Option.some.inj h
      exact .stop hat
    next => cases h
  · split at h
    next hat =>
      obtain ⟨base, next, rfl⟩ := Option.map_eq_some_iff.mp h
      exact .attempt hat next
    next => cases h
  · split at h
    next hat hreturned =>
      split_ifs at h
      obtain rfl := Option.some.inj h
      exact .pushed hat hreturned
    next => cases h
  · split at h
    next hat =>
      split_ifs at h with alive hzero
      · obtain rfl := Option.some.inj h
        exact .unattached hat
      · obtain rfl := Option.some.inj h
        exact .load hat hzero
    next => cases h
  · split at h
    next hat =>
      split_ifs at h with hguard halive
      · obtain rfl := Option.some.inj h
        exact .running hat
      · obtain rfl := Option.some.inj h
        exact .gone hat (Bool.and_eq_true_iff.mp hguard).2 halive
    next => cases h

end Demo

end ShmSpsc
