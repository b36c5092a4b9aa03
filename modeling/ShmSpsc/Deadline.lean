import ShmSpsc.Drain

/-!
# The deadlines of `attach` and `waitForPeer`

Both poll once a millisecond until a deadline of the steady clock. `attach` reads the clock before
an attempt, and the attempt of a reading at or after the deadline is the last one; `waitForPeer`
loads the peer's pid and reads the clock after it. `Timed.step` runs the calls of one process
against the clock, over the processes of `Shm.step`, which do whatever they do in between; how
long anything takes is open, but for `usleep(1000)`, which sleeps at least a millisecond.

`Timed.polls_bounded` : a call with `timeoutMs` makes at most `timeoutMs + 1` attempts, and does
not give up before its deadline. `Timed.ready_in_time` : `attach` never gives up on a segment that
was ready before the deadline.
-/

namespace ShmSpsc

open Transition

variable {T : Type*}

/-! ## Two polling loops -/

/-- `usleep(1000)`, and a millisecond, in nanoseconds. -/
def millisecond : ℕ := 1000000

/-- The call that waits. -/
inductive Waiter where
  | attach
  | waitForPeer
  deriving DecidableEq, Repr

/-- Where the process is : not waiting; before an attempt that it makes from `wake` on; in an
attempt of `attach`, the last one or not; in `waitForPeer`, after a load that has not shown the
peer; or past its loop, with what it waited for or without. -/
inductive WaitPc where
  | idle
  | asleep (w : Waiter) (wake : ℕ)
  | trying (last : Bool)
  | looked
  | ended (w : Waiter) (ok : Bool)
  deriving DecidableEq, Repr

/-- The processes, the clock, the process that waits with the time at which its call started,
its timeout and the attempts it has made, and the time at which `ready` was stored. -/
structure Timed (T : Type*) where
  base : Shm T
  clock : ℕ
  pc : WaitPc
  start : ℕ
  timeoutMs : UInt32
  attempts : ℕ
  readyAt : Option ℕ

/-- A step of the process that waits. -/
inductive WaitAct where
  | attach (A : Layout) (timeoutMs : UInt32)
  | look
  | attempt (ans : Answers)
  | waitForPeer (timeoutMs : UInt32)
  | load
  | check

/-- Time passes, a process takes a step of its own, or the one that waits does. -/
inductive TimedAct (T : Type*) where
  | tick (now : ℕ)
  | shm (a : ShmAct T)
  | wait (a : WaitAct)

/-- `attach` is in its loop. -/
def AttachPc.polls : AttachPc → Bool
  | .opening _ => true
  | .readyCheck _ _ _ => true
  | _ => false

namespace WaitPc

/-- The process is not waiting. -/
def isFree : WaitPc → Bool
  | .idle => true
  | .ended _ _ => true
  | _ => false

/-- Where `attach` is after a step to the endpoint `e` : it sleeps before it opens again, and is
past its loop when it has found the segment ready, or with an exception. -/
def afterAttempt {H : Type*} (clock : ℕ) (last : Bool) : Endpoint H → WaitPc
  | .attaching _ (.opening _) => .asleep .attach (clock + millisecond)
  | .attaching _ pc => if pc.polls then .trying last else .ended .attach true
  | .absent _ => .ended .attach false
  | _ => .ended .attach true

end WaitPc

namespace Timed

/-- `deadline` -/
def deadline (s : Timed T) : ℕ := s.start + s.timeoutMs.toNat * millisecond

/-- The processes have moved. -/
def moved (s : Timed T) (base : Shm T) : Timed T :=
  { s with
    base := base
    readyAt := if s.readyAt = none ∧ base.object.ready = 1 then some s.clock else s.readyAt }

/-- A call starts to wait. -/
def begin (s : Timed T) (w : Waiter) (timeoutMs : UInt32) : Timed T :=
  { s with pc := .asleep w s.clock, start := s.clock, timeoutMs := timeoutMs, attempts := 0 }

/-- The loop of `attach` takes this step with `p` in `role`, against the clock. -/
def polls (s : Timed T) (role : Role) (p : ℤ) : ShmAct T → Bool
  | .attach role' p' _ => role' = role ∧ p' = p
  | .attachStep role' p' _ =>
    match s.base.endpoint role p with
    | .attaching _ pc => role' = role ∧ p' = p ∧ pc.polls
    | _ => false
  | _ => false

/-- One step of `p`, which waits in `role`. -/
def waitStep (S : Setup) (role : Role) (p : ℤ) (s : Timed T) : WaitAct → Option (Timed T)
  | .attach A timeoutMs =>
    if s.pc.isFree then
      (s.base.step S (.attach role p A)).map fun base => (s.moved base).begin .attach timeoutMs
    else none
  | .look =>
    match s.pc with
    | .asleep .attach wake =>
      if wake ≤ s.clock then
        some { s with pc := .trying (s.deadline ≤ s.clock), attempts := s.attempts + 1 }
      else none
    | _ => none
  | .attempt ans =>
    match s.pc with
    | .trying last =>
      if ans.lastAttempt = last then
        (s.base.step S (.attachStep role p ans)).map fun base =>
          { s.moved base with pc := .afterAttempt s.clock last (base.endpoint role p) }
      else none
    | _ => none
  | .waitForPeer timeoutMs =>
    if s.pc.isFree ∧ (s.base.endpoint role p).isBound then some (s.begin .waitForPeer timeoutMs)
    else none
  | .load =>
    match s.pc with
    | .asleep .waitForPeer wake =>
      if wake ≤ s.clock then
        some { s with
          pc := if 0 < s.base.object.pid role.peer then .ended .waitForPeer true else .looked
          attempts := s.attempts + 1 }
      else none
    | _ => none
  | .check =>
    match s.pc with
    | .looked =>
      some { s with
        pc := if s.deadline ≤ s.clock then .ended .waitForPeer false
              else .asleep .waitForPeer (s.clock + millisecond) }
    | _ => none

/-- One step, `p` being the process that waits, in `role`. -/
def step (S : Setup) (role : Role) (p : ℤ) (s : Timed T) : TimedAct T → Option (Timed T)
  | .tick now => if s.clock ≤ now then some { s with clock := now } else none
  | .shm a => if s.polls role p a then none else (s.base.step S a).map s.moved
  | .wait a => if s.base.live p then s.waitStep S role p a else none

/-- The object right after the creator's `shm_open`. -/
def opened (S : Setup) (slots : ℕ → T) (clock : ℕ) : Timed T where
  base := .opened S slots
  clock := clock
  pc := .idle
  start := clock
  timeoutMs := 0
  attempts := 0
  readyAt := none

end Timed

/-! ## An attempt of `attach` -/

/-- `attach` is in an attempt, the last one or not. -/
def AttachPc.Tries (last : Bool) : AttachPc → Prop
  | .opening _ => True
  | .readyCheck _ l _ => l = last
  | _ => False

namespace Shm

variable {S : Setup} {s s' : Shm T} {role : Role} {p : ℤ} {since : ℕ} {pc : AttachPc}

/-- No other step moves an endpoint that is in the loop of `attach`. -/
theorem attaching_of_step {a : ShmAct T} (h : step S s a = some s')
    (hat : s.endpoint role p = .attaching since pc) (ha : ∀ ans, a ≠ .attachStep role p ans) :
    s'.endpoint role p = .attaching since pc := by
  have other {t : Shm T} {role' : Role} {p' : ℤ} {e : Endpoint (Worker T role')}
      (ht : t.endpoint = s.endpoint) (hne : ¬(role' = role ∧ p' = p)) :
      (t.set role' p' e).endpoint role p = .attaching since pc := by
    rw [← hat, ← ht]
    by_cases hrole : role = role'
    · subst hrole
      exact endpoint_set_of_ne_pid fun heq => hne ⟨rfl, heq.symm⟩
    · rw [endpoint_set_of_ne_role hrole]
  cases steps_of_step h with
  | create hat' alive answers =>
    refine other rfl ?_
    rintro ⟨rfl, rfl⟩
    simp [hat] at hat'
  | attach hat' alive =>
    refine other rfl ?_
    rintro ⟨rfl, rfl⟩
    simp [hat] at hat'
  | attachStep hat' alive answers =>
    refine other rfl ?_
    rintro ⟨rfl, rfl⟩
    exact ha _ rfl
  | produce hat' alive act =>
    refine other rfl ?_
    rintro ⟨rfl, rfl⟩
    simp [hat] at hat'
  | consume hat' alive act =>
    refine other rfl ?_
    rintro ⟨rfl, rfl⟩
    simp [hat] at hat'
  | detach hat' alive idle =>
    refine other rfl ?_
    rintro ⟨rfl, rfl⟩
    simp [hat] at hat'
  | die alive => exact hat

/-- A step of an attempt leads to a sleep, which the last attempt does not; goes on with the
attempt; finds the segment ready; or gives up, which only the last attempt does. -/
theorem attempt_cases {ans : Answers} {last : Bool} (clock : ℕ)
    (h : step S s (.attachStep role p ans) = some s')
    (hat : s.endpoint role p = .attaching since pc) (hpc : pc.Tries last)
    (hlast : ans.lastAttempt = last) :
    (last = false ∧ (∃ A, s'.endpoint role p = .attaching since (.opening A)) ∧
        WaitPc.afterAttempt clock last (s'.endpoint role p) =
          .asleep .attach (clock + millisecond)) ∨
      ((∃ pc', s'.endpoint role p = .attaching since pc' ∧ pc'.Tries last) ∧
        WaitPc.afterAttempt clock last (s'.endpoint role p) = .trying last) ∨
      WaitPc.afterAttempt clock last (s'.endpoint role p) = .ended .attach true ∨
      (last = true ∧ (s.object.ready = 1 → ∃ e, segmentOpen S.name s.object ans = .error e) ∧
        WaitPc.afterAttempt clock last (s'.endpoint role p) = .ended .attach false) := by
  cases steps_of_step h with
  | @attachStep _ _ _ since' pc' hat' alive answers =>
    obtain ⟨rfl, rfl⟩ := Endpoint.attaching.inj (hat.symm.trans hat')
    simp only [after, endpoint_set_self]
    cases pc with
    | opening A =>
      simp only [attachStep]
      split
      next mapped hopen =>
        exact .inr (.inl ⟨⟨_, rfl, hlast⟩, rfl⟩)
      next e hopen =>
        cases last with
        | false =>
          rw [hlast]
          exact .inl ⟨rfl, ⟨A, rfl⟩, rfl⟩
        | true =>
          rw [hlast]
          exact .inr (.inr (.inr ⟨rfl, fun _ => ⟨e, hopen⟩, rfl⟩))
    | readyCheck A l mapped =>
      obtain rfl : l = last := hpc
      simp only [attachStep]
      split_ifs with hready hl
      · exact .inr (.inr (.inl rfl))
      · exact .inr (.inr (.inr ⟨hl, fun h1 => absurd h1 hready, rfl⟩))
      · exact .inl ⟨by simpa using hl, ⟨A, rfl⟩, rfl⟩
    | validating A mapped => exact hpc.elim
    | binding b => exact hpc.elim

end Shm

/-! ## Counting the attempts -/

namespace Timed

variable {S : Setup} {role : Role} {p : ℤ} {s s' : Timed T}

/-- What holds at each place of the process that waits. An attempt is made a millisecond after the
one before, at the earliest. -/
def Paced (role : Role) (p : ℤ) (s : Timed T) : WaitPc → Prop
  | .idle => s.attempts ≤ s.timeoutMs.toNat + 1
  | .asleep w wake =>
    s.attempts ≤ s.timeoutMs.toNat ∧ s.start + s.attempts * millisecond ≤ wake ∧
      (w = .attach → ∃ since A, s.base.endpoint role p = .attaching since (.opening A))
  | .trying last =>
    1 ≤ s.attempts ∧ s.attempts ≤ s.timeoutMs.toNat + 1 ∧
      s.start + s.attempts * millisecond ≤ s.clock + millisecond ∧
      (last = true → s.deadline ≤ s.clock) ∧ (last = false → s.attempts ≤ s.timeoutMs.toNat) ∧
      ∃ since pc, s.base.endpoint role p = .attaching since pc ∧ pc.Tries last
  | .looked =>
    1 ≤ s.attempts ∧ s.attempts ≤ s.timeoutMs.toNat + 1 ∧
      s.start + s.attempts * millisecond ≤ s.clock + millisecond
  | .ended _ ok =>
    1 ≤ s.attempts ∧ s.attempts ≤ s.timeoutMs.toNat + 1 ∧ (ok = false → s.deadline ≤ s.clock)

/-- Before the deadline there is time for another attempt. -/
theorem attempts_lt (h : s.start + s.attempts * millisecond ≤ s.clock)
    (hlt : s.clock < s.deadline) : s.attempts < s.timeoutMs.toNat := by
  unfold deadline millisecond at *
  omega

/-- A step of the processes that is none of the loop of `attach`. -/
theorem paced_shm {a : ShmAct T} {base : Shm T} (h : s.Paced role p s.pc)
    (hnot : s.polls role p a = false) (hstep : s.base.step S a = some base) :
    (s.moved base).Paced role p (s.moved base).pc := by
  have keep {since : ℕ} {pc : AttachPc} (hat : s.base.endpoint role p = .attaching since pc)
      (hpc : pc.polls = true) : base.endpoint role p = .attaching since pc := by
    refine Shm.attaching_of_step hstep hat ?_
    rintro ans rfl
    simp [polls, hat, hpc] at hnot
  show (s.moved base).Paced role p s.pc
  cases hat : s.pc with
  | idle => rwa [hat] at h
  | asleep w wake =>
    rw [hat] at h
    refine ⟨h.1, h.2.1, fun hw => ?_⟩
    obtain ⟨since, A, hend⟩ := h.2.2 hw
    exact ⟨since, A, keep hend rfl⟩
  | trying last =>
    rw [hat] at h
    obtain ⟨h1, h2, h3, h4, h5, since, pc, hend, hpc⟩ := h
    refine ⟨h1, h2, h3, h4, h5, since, pc, keep hend ?_, hpc⟩
    cases pc with
    | opening A => rfl
    | readyCheck A l mapped => rfl
    | validating A mapped => exact hpc.elim
    | binding b => exact hpc.elim
  | looked => rwa [hat] at h
  | ended w ok => rwa [hat] at h

/-- Time passes. -/
theorem paced_tick {now : ℕ} (h : s.Paced role p s.pc) (hle : s.clock ≤ now) :
    ({ s with clock := now } : Timed T).Paced role p s.pc := by
  cases hat : s.pc with
  | idle => rwa [hat] at h
  | asleep w wake => rwa [hat] at h
  | trying last =>
    rw [hat] at h
    obtain ⟨h1, h2, h3, h4, h5, h6⟩ := h
    exact ⟨h1, h2, by simp only; omega, fun hl => (h4 hl).trans hle, h5, h6⟩
  | looked =>
    rw [hat] at h
    obtain ⟨h1, h2, h3⟩ := h
    exact ⟨h1, h2, by simp only; omega⟩
  | ended w ok =>
    rw [hat] at h
    exact ⟨h.1, h.2.1, fun hok => (h.2.2 hok).trans hle⟩

/-- `attach` reads the clock. -/
theorem paced_look {wake : ℕ} (h : s.Paced role p (.asleep .attach wake))
    (hwake : wake ≤ s.clock) :
    ({ s with attempts := s.attempts + 1 } : Timed T).Paced role p
      (.trying (s.deadline ≤ s.clock)) := by
  obtain ⟨hle, hstart, hend⟩ := h
  obtain ⟨since, A, hend⟩ := hend rfl
  refine ⟨by simp, by simp only; omega, ?_, ?_, ?_, since, .opening A, hend, trivial⟩
  · simp only [Nat.add_mul, Nat.one_mul]
    omega
  · intro hlast
    exact of_decide_eq_true hlast
  · intro hlast
    exact attempts_lt (hstart.trans hwake) (not_le.mp (of_decide_eq_false hlast))

/-- A step of an attempt. -/
theorem paced_attempt {ans : Answers} {base : Shm T} {last : Bool}
    (h : s.Paced role p (.trying last)) (hlast : ans.lastAttempt = last)
    (hstep : s.base.step S (.attachStep role p ans) = some base) :
    (s.moved base).Paced role p (.afterAttempt s.clock last (base.endpoint role p)) := by
  obtain ⟨h1, h2, h3, h4, h5, since, pc, hend, hpc⟩ := h
  rcases Shm.attempt_cases s.clock hstep hend hpc hlast with
    ⟨rfl, ⟨A, hopen⟩, heq⟩ | ⟨⟨pc', hend', hpc'⟩, heq⟩ | heq | ⟨rfl, -, heq⟩ <;> rw [heq]
  · exact ⟨h5 rfl, h3, fun _ => ⟨since, A, hopen⟩⟩
  · exact ⟨h1, h2, h3, h4, h5, since, pc', hend', hpc'⟩
  · exact ⟨h1, h2, by rintro ⟨⟩⟩
  · exact ⟨h1, h2, fun _ => h4 rfl⟩

/-- A step of the process that waits. -/
theorem paced_wait {a : WaitAct} (h : s.Paced role p s.pc)
    (hstep : s.waitStep S role p a = some s') : s'.Paced role p s'.pc := by
  cases a with
  | attach A timeoutMs =>
    simp only [waitStep] at hstep
    split_ifs at hstep with hfree
    obtain ⟨base, hbase, rfl⟩ := Option.map_eq_some_iff.mp hstep
    refine ⟨Nat.zero_le _, by simp [begin, moved], fun _ => ?_⟩
    cases Shm.steps_of_step hbase with
    | attach hat alive => exact ⟨_, A, Shm.endpoint_set_self⟩
  | look =>
    simp only [waitStep] at hstep
    split at hstep
    next wake hat =>
      split_ifs at hstep with hwake
      cases hstep
      rw [hat] at h
      exact paced_look h hwake
    next => cases hstep
  | attempt ans =>
    simp only [waitStep] at hstep
    split at hstep
    next last hat =>
      split_ifs at hstep with hlast
      obtain ⟨base, hbase, rfl⟩ := Option.map_eq_some_iff.mp hstep
      rw [hat] at h
      exact paced_attempt h hlast hbase
    next => cases hstep
  | waitForPeer timeoutMs =>
    simp only [waitStep] at hstep
    split_ifs at hstep with hfree
    cases hstep
    exact ⟨Nat.zero_le _, by simp [begin], by rintro ⟨⟩⟩
  | load =>
    simp only [waitStep] at hstep
    split at hstep
    next wake hat =>
      rw [hat] at h
      obtain ⟨hle, hstart, -⟩ := h
      split_ifs at hstep with hwake hpid <;> cases hstep
      · exact ⟨by simp, by simp only; omega, by rintro ⟨⟩⟩
      · refine ⟨by simp, by simp only; omega, ?_⟩
        simp only [Nat.add_mul, Nat.one_mul]
        omega
    next => cases hstep
  | check =>
    simp only [waitStep] at hstep
    split at hstep
    next hat =>
      rw [hat] at h
      obtain ⟨h1, h2, h3⟩ := h
      split_ifs at hstep with hlate <;> cases hstep
      · exact ⟨h1, h2, fun _ => hlate⟩
      · refine ⟨?_, h3, by rintro ⟨⟩⟩
        have hlt := not_le.mp hlate
        unfold deadline at hlt
        unfold millisecond at h3 hlt
        simp only
        omega
    next => cases hstep

/-- Every step keeps the pace. -/
theorem paced_step {a : TimedAct T} (h : s.Paced role p s.pc)
    (hstep : step S role p s a = some s') : s'.Paced role p s'.pc := by
  rcases a with now | a | a
  · simp only [step] at hstep
    split_ifs at hstep with hle
    cases hstep
    exact paced_tick h hle
  · simp only [step] at hstep
    split_ifs at hstep with hnot
    obtain ⟨base, hbase, rfl⟩ := Option.map_eq_some_iff.mp hstep
    exact paced_shm h (by simpa using hnot) hbase
  · simp only [step] at hstep
    split_ifs at hstep
    exact paced_wait h hstep

/-- In every run a call of `attach` or `waitForPeer` makes at most `timeoutMs + 1` attempts; when
it is past its loop it has made one, and if that is without what it waited for, its deadline has
passed. -/
theorem polls_bounded {slots : ℕ → T} {clock : ℕ}
    (run : Reachable (step S role p) (opened S slots clock) s) :
    s.attempts ≤ s.timeoutMs.toNat + 1 ∧
      ∀ w ok, s.pc = .ended w ok → 1 ≤ s.attempts ∧ (ok = false → s.deadline ≤ s.clock) := by
  have h : s.Paced role p s.pc :=
    run.invariant (I := fun s => s.Paced role p s.pc) (Nat.zero_le _)
      fun _ _ _ h _ hstep => paced_step h hstep
  constructor
  · cases hat : s.pc with
    | idle => rwa [hat] at h
    | asleep w wake =>
      rw [hat] at h
      exact h.1.trans (Nat.le_succ _)
    | trying last =>
      rw [hat] at h
      exact h.2.1
    | looked =>
      rw [hat] at h
      exact h.2.1
    | ended w ok =>
      rw [hat] at h
      exact h.2.1
  · intro w ok hat
    rw [hat] at h
    exact ⟨h.1, h.2.2⟩

/-- A producer waits a millisecond for a consumer, which attaches after the only load. -/
def missedRun : List (TimedAct ℕ) :=
  [List.replicate 20 (.shm (.create .plain)),
    [.wait (.waitForPeer 1), .wait .load, .shm (.attach .consumer 2 messageLayout)],
    List.replicate 9 (.shm (.attachStep .consumer 2 .plain)),
    [.tick 1000000, .wait .check]].flatten

theorem polls_bounded_missedRun :
    ∃ s : Timed ℕ, Reachable (step messageSetup .producer 1)
        (opened messageSetup (fun _ => 0) 0) s ∧
      s.pc = .ended .waitForPeer false ∧ s.base.object.pid .consumer = 2 ∧ s.attempts ≤ 2 ∧
      s.deadline ≤ s.clock := by
  have hend : (exec (step messageSetup .producer 1) (fun _ _ => True)
      (opened messageSetup (fun _ => 0) 0) missedRun).map (fun s : Timed ℕ =>
        (s.pc, s.base.object.pid .consumer, s.timeoutMs)) =
      some (.ended .waitForPeer false, 2, 1) := by decide +kernel
  obtain ⟨s, hs, hview⟩ := Option.map_eq_some_iff.mp hend
  simp only [Prod.mk.injEq] at hview
  obtain ⟨hpc, hpid, htimeout⟩ := hview
  have run := Reaches.of_exec hs
  have hbounded := polls_bounded run
  rw [htimeout] at hbounded
  exact ⟨s, run, hpc, hpid, hbounded.1, (hbounded.2 _ _ hpc).2 rfl⟩

/-! ## A segment that is ready in time -/

/-- The system calls of `attach` open a segment that is ready. -/
def opens (S : Setup) (s : Timed T) : TimedAct T → Bool
  | .wait (.attempt ans) =>
    decide (s.base.object.ready = 1 → (segmentOpen S.name s.base.object ans).isOk)
  | _ => true

/-- What holds along every run in which they do. -/
structure Prompt (S : Setup) (role : Role) (p : ℤ) (s : Timed T) : Prop where
  phase : Shm.Phase S s.base
  paced : s.Paced role p s.pc
  ready : ∀ t, s.readyAt = some t → s.base.object.ready = 1
  gaveUp : s.pc = .ended .attach false → ∀ t, s.readyAt = some t → s.deadline ≤ t

theorem readyAt_moved {base : Shm T} {t : ℕ} (h : (s.moved base).readyAt = some t) :
    s.readyAt = some t ∨ t = s.clock ∧ base.object.ready = 1 := by
  simp only [moved] at h
  split_ifs at h with hnew
  · exact .inr ⟨(Option.some.inj h).symm, hnew.2⟩
  · exact .inl h

/-- `ready` stays stored. -/
theorem Prompt.ready_moved {a : ShmAct T} {base : Shm T} (h : Prompt S role p s)
    (hstep : s.base.step S a = some base) (t : ℕ) (ht : (s.moved base).readyAt = some t) :
    base.object.ready = 1 := by
  rcases readyAt_moved ht with hold | ⟨-, hnew⟩
  · exact (Shm.geometry_of_step h.phase (h.ready t hold) hstep).1
  · exact hnew

theorem prompt_shm {a : ShmAct T} {base : Shm T} (h : Prompt S role p s)
    (hnot : s.polls role p a = false) (hstep : s.base.step S a = some base) :
    Prompt S role p (s.moved base) := by
  refine ⟨Shm.phase_step h.phase hstep, paced_shm h.paced hnot hstep, h.ready_moved hstep, ?_⟩
  intro hat t ht
  rcases readyAt_moved ht with hold | ⟨rfl, -⟩
  · exact h.gaveUp hat t hold
  · have hpaced := h.paced
    rw [show s.pc = .ended .attach false from hat] at hpaced
    exact hpaced.2.2 rfl

/-- A step of an attempt, the last one of which does not miss `ready`. -/
theorem prompt_attempt {ans : Answers} {base : Shm T} {last : Bool} (h : Prompt S role p s)
    (hat : s.pc = .trying last) (hlast : ans.lastAttempt = last)
    (hopens : s.opens S (.wait (.attempt ans)))
    (hstep : s.base.step S (.attachStep role p ans) = some base) :
    Prompt S role p
      { s.moved base with pc := .afterAttempt s.clock last (base.endpoint role p) } := by
  have hpaced := h.paced
  rw [hat] at hpaced
  refine ⟨Shm.phase_step h.phase hstep, paced_attempt hpaced hlast hstep, h.ready_moved hstep, ?_⟩
  intro hended t ht
  obtain ⟨-, -, -, hlate, -, since, pc, hend, hpc⟩ := hpaced
  rcases Shm.attempt_cases s.clock hstep hend hpc hlast with
    ⟨-, -, heq⟩ | ⟨-, heq⟩ | heq | ⟨rfl, hmiss, -⟩
  · cases heq.symm.trans hended
  · cases heq.symm.trans hended
  · cases heq.symm.trans hended
  · rcases readyAt_moved ht with hold | ⟨rfl, -⟩
    · obtain ⟨e, herror⟩ := hmiss (h.ready t hold)
      have hok := of_decide_eq_true hopens (h.ready t hold)
      rw [herror] at hok
      cases hok
    · exact hlate rfl

theorem prompt_wait {a : WaitAct} (h : Prompt S role p s) (hopens : s.opens S (.wait a))
    (hstep : s.waitStep S role p a = some s') : Prompt S role p s' := by
  have hpaced := paced_wait h.paced hstep
  cases a with
  | attach A timeoutMs =>
    simp only [waitStep] at hstep
    split_ifs at hstep
    obtain ⟨base, hbase, rfl⟩ := Option.map_eq_some_iff.mp hstep
    exact ⟨Shm.phase_step h.phase hbase, hpaced, h.ready_moved hbase, by rintro ⟨⟩⟩
  | look =>
    simp only [waitStep] at hstep
    split at hstep
    · split_ifs at hstep
      cases hstep
      exact ⟨h.phase, hpaced, h.ready, by rintro ⟨⟩⟩
    · cases hstep
  | attempt ans =>
    simp only [waitStep] at hstep
    split at hstep
    next last hat =>
      split_ifs at hstep with hlast
      obtain ⟨base, hbase, rfl⟩ := Option.map_eq_some_iff.mp hstep
      exact prompt_attempt h hat hlast hopens hbase
    next => cases hstep
  | waitForPeer timeoutMs =>
    simp only [waitStep] at hstep
    split_ifs at hstep
    cases hstep
    exact ⟨h.phase, hpaced, h.ready, by rintro ⟨⟩⟩
  | load =>
    simp only [waitStep] at hstep
    split at hstep
    · split_ifs at hstep <;> cases hstep
      · exact ⟨h.phase, hpaced, h.ready, by rintro ⟨⟩⟩
      · exact ⟨h.phase, hpaced, h.ready, by rintro ⟨⟩⟩
    · cases hstep
  | check =>
    simp only [waitStep] at hstep
    split at hstep
    · split_ifs at hstep <;> cases hstep
      · exact ⟨h.phase, hpaced, h.ready, by rintro ⟨⟩⟩
      · exact ⟨h.phase, hpaced, h.ready, by rintro ⟨⟩⟩
    · cases hstep

theorem prompt_step {a : TimedAct T} (h : Prompt S role p s) (hopens : s.opens S a)
    (hstep : step S role p s a = some s') : Prompt S role p s' := by
  rcases a with now | a | a
  · simp only [step] at hstep
    split_ifs at hstep with hle
    cases hstep
    exact ⟨h.phase, paced_tick h.paced hle, h.ready, h.gaveUp⟩
  · simp only [step] at hstep
    split_ifs at hstep with hnot
    obtain ⟨base, hbase, rfl⟩ := Option.map_eq_some_iff.mp hstep
    exact prompt_shm h (by simpa using hnot) hbase
  · simp only [step] at hstep
    split_ifs at hstep
    exact prompt_wait h hopens hstep

/-- In every run in which its system calls open a segment that is ready, `attach` does not give up
on one that was ready before the deadline, whatever the other processes do and however long
anything takes. -/
theorem ready_in_time {slots : ℕ → T} {clock : ℕ}
    (run : Reaches (step S role p) (fun s a => s.opens S a) (opened S slots clock) s)
    (hgaveUp : s.pc = .ended .attach false) : ∀ t, s.readyAt = some t → s.deadline ≤ t := by
  have h : Prompt S role p s := by
    refine run.invariant ?_ fun _ _ _ h hopens hstep => prompt_step h hopens hstep
    exact ⟨Shm.phase_opened S slots, Nat.zero_le _, by rintro t ⟨⟩, by rintro ⟨⟩⟩
  exact h.gaveUp hgaveUp

/-- A consumer waits a millisecond for a segment that is ready another one later. -/
def lateRun : List (TimedAct ℕ) :=
  [[.wait (.attach messageLayout 1), .wait .look, .wait (.attempt .plain), .tick 1000000,
      .wait .look, .wait (.attempt { Answers.plain with lastAttempt := true }), .tick 2000000],
    List.replicate 20 (.shm (.create .plain))].flatten

theorem ready_in_time_lateRun :
    ∃ s : Timed ℕ, Reachable (step messageSetup .consumer 2)
        (opened messageSetup (fun _ => 0) 0) s ∧
      s.pc = .ended .attach false ∧ s.attempts = 2 ∧ s.readyAt = some 2000000 ∧
      s.deadline ≤ 2000000 := by
  have hend : (exec (step messageSetup .consumer 2) (fun s a => s.opens messageSetup a)
      (opened messageSetup (fun _ => 0) 0) lateRun).map (fun s : Timed ℕ =>
        (s.pc, s.attempts, s.readyAt)) = some (.ended .attach false, 2, some 2000000) := by
    decide +kernel
  obtain ⟨s, hs, hview⟩ := Option.map_eq_some_iff.mp hend
  simp only [Prod.mk.injEq] at hview
  obtain ⟨hpc, hattempts, hready⟩ := hview
  have run := Reaches.of_exec hs
  exact ⟨s, run.mono fun _ _ _ => trivial, hpc, hattempts, hready,
    ready_in_time run hpc _ hready⟩

end Timed

end ShmSpsc
