import ShmSpsc.Blocking
import ShmSpsc.Recovery

/-!
# Draining a queue whose producer goes away

A consumer in the loop of `pop(T&)`, or in the demo's loop around `pop_n`, among any number
of processes. An iteration makes an attempt, and when that fails and the counter is due it
loads the producer's pid, probes it, and compares the two indices, each load and the probe a
step of its own. It gives up only after all three, in that order.

`got` are the elements that the loops of a process have returned, `left` the producers that
have detached, and a loop that gives up keeps whom it observed and the log at its load of
`writeIdx`; all of it is history. `Loops.Inv` is kept by every step, and
`Loops.nothing_abandoned` reads off it that a loop gives up only if nothing was left in the
queue and the producer it observed was gone. `Loops.Drained` follows the elements from the
producer's end on, and `Solo.popAll_eq` counts the calls that take them all.
-/

namespace ShmSpsc

open Transition OwnerWord

variable {T : Type*}

/-! ## The loops -/

/-- `pop(out, peerCheckSpins)`, or the demo's loop around `pop_n(buf, n)`. -/
inductive Loop where
  | pop (peerCheckSpins : UInt32)
  | drain (n : UInt64)
  deriving DecidableEq, Repr

/-- What the loop tries in each iteration. -/
def Loop.attempt : Loop → PopAct
  | .pop _ => .tryPop
  | .drain n => .popN n

/-- How many failures it takes before a look at the peer : the demo looks after each. -/
def Loop.spins : Loop → UInt32
  | .pop peerCheckSpins => peerCheckSpins
  | .drain _ => 0

deriving instance DecidableEq for Log

/-- Where a process is with its loop : in none, before or in an attempt, before the load of
the producer's pid, before the probe, before the first and the second load of `empty()`, or
out of it, with an element or without. `who` is the producer observed, `seen` the log when
`writeIdx` was loaded. -/
inductive LoopPc (T : Type*) where
  | idle
  | next (k : Loop) (spins : UInt32)
  | trying (k : Loop) (spins : UInt32)
  | loadPid (k : Loop)
  | probe (k : Loop) (pid who : ℤ)
  | emptyFirst (k : Loop) (who : ℤ)
  | emptySecond (k : Loop) (who : ℤ) (writeFirst : Bool) (x : UInt64) (seen : Log T)
  | returned (x : T)
  | gaveUp (who : ℤ) (seen : Log T)
  deriving DecidableEq

/-- The process is in its loop. -/
def LoopPc.inside : LoopPc T → Bool
  | .idle => false
  | .returned _ => false
  | .gaveUp _ _ => false
  | _ => true

/-- The process is in an attempt of its loop. -/
def LoopPc.attempting : LoopPc T → Bool
  | .trying _ _ => true
  | _ => false

/-- What an attempt has taken, once it has returned. -/
def PopResult.taken : PopResult T → Option (List T)
  | .tryPop out => some out.toList
  | .popN dst => some dst
  | _ => none

/-- What the last attempt has taken. -/
def Consumer.taken (q : Consumer T) : Option (List T) :=
  match q.pc with
  | .ready (some ret) => ret.taken
  | _ => none

/-- The processes, and where each is with its loop. -/
structure Loops (T : Type*) where
  base : Shm T
  loop : ℤ → LoopPc T
  got : ℤ → List T
  left : List ℤ

/-- A step of the queue, or of a loop. -/
inductive LoopAct (T : Type*) where
  | shm (a : ShmAct T)
  | call (p : ℤ) (k : Loop)
  | attempt (p : ℤ)
  | test (p : ℤ)
  | load (p : ℤ)
  | kill (p : ℤ) (ans : Answers)
  | emptyFirst (p : ℤ) (writeFirst : Bool)
  | emptySecond (p : ℤ)

namespace Loops

/-- The loop of `p` moves to `pc`. -/
def go (s : Loops T) (p : ℤ) (pc : LoopPc T) : Loops T :=
  { s with loop := Function.update s.loop p pc }

/-- The loop of `p` has taken `xs`. -/
def take (s : Loops T) (p : ℤ) (xs : List T) : Loops T :=
  { s with got := Function.update s.got p (s.got p ++ xs) }

/-- What `p` does outside its loop and inside an attempt of it. -/
def allows (s : Loops T) : ShmAct T → Bool
  | .consume p .step => !(s.loop p).inside || (s.loop p).attempting
  | .consume p _ => !(s.loop p).inside
  | .detach .consumer p => !(s.loop p).inside
  | _ => true

/-- The producers that have detached, after `a`. -/
def leaves (s : Loops T) : ShmAct T → List ℤ
  | .detach .producer p => if s.base.object.pid .producer = p then s.left ++ [p] else s.left
  | _ => s.left

/-- What the attempt of `p` has taken. -/
def taken (s : Loops T) (p : ℤ) : Option (List T) :=
  match s.base.endpoint .consumer p with
  | .bound w => Consumer.taken w
  | _ => none

/-- `p` is a consumer between two calls. -/
def idle (s : Loops T) (p : ℤ) : Bool :=
  match s.base.endpoint .consumer p with
  | .bound w => Worker.idle .consumer w
  | _ => false

/-- The loop after an attempt that has taken `xs` : `pop` returns with an element, the
demo's loop goes on, and a failure counts. -/
def afterAttempt (k : Loop) (spins : UInt32) : List T → LoopPc T
  | [] => if spins ≥ k.spins then .loadPid k else .next k (spins + 1)
  | x :: _ =>
    match k with
    | .pop _ => .returned x
    | .drain _ => .next k 0

/-- The producer behind a pid slot that reads as `pid`. -/
def observed (s : Loops T) (pid : ℤ) : ℤ :=
  if pid = -1 then s.left.getLast?.getD 0 else pid

/-- The next iteration after a look at the peer that has found it alive, or something in the
queue. -/
def again (s : Loops T) (p : ℤ) (k : Loop) : Loops T := s.go p (.next k (0 + 1))

/-- One step. -/
def step (S : Setup) (s : Loops T) : LoopAct T → Option (Loops T)
  | .shm a =>
    if s.allows a then
      (s.base.step S a).map fun base => { s with base := base, left := s.leaves a }
    else none
  | .call p k =>
    if s.base.live p && s.idle p && !(s.loop p).inside then some (s.go p (.next k 0)) else none
  | .attempt p =>
    match s.loop p with
    | .next k spins =>
      (s.base.step S (.consume p k.attempt)).map fun base =>
        { s with base := base }.go p (.trying k spins)
    | _ => none
  | .test p =>
    match s.loop p, s.taken p with
    | .trying k spins, some xs =>
      if s.base.live p then some ((s.take p xs).go p (afterAttempt k spins xs)) else none
    | _, _ => none
  | .load p =>
    match s.loop p with
    | .loadPid k =>
      let pid := s.base.object.pid .producer
      if s.base.live p then
        if pid = 0 then some (s.again p k) else some (s.go p (.probe k pid (s.observed pid)))
      else none
    | _ => none
  | .kill p ans =>
    match s.loop p with
    | .probe k pid who =>
      if s.base.live p && s.base.admits ans (some pid) then
        if processAlive ans.kill pid then some (s.again p k) else some (s.go p (.emptyFirst k who))
      else none
    | _ => none
  | .emptyFirst p writeFirst =>
    match s.loop p with
    | .emptyFirst k who =>
      if s.base.live p then
        let ring := s.base.object.ring
        let x := if writeFirst then ring.writeIdx else ring.readIdx
        some (s.go p (.emptySecond k who writeFirst x s.base.log))
      else none
    | _ => none
  | .emptySecond p =>
    match s.loop p with
    | .emptySecond k who writeFirst x seen =>
      if s.base.live p then
        let ring := s.base.object.ring
        let y := if writeFirst then ring.readIdx else ring.writeIdx
        if x = y then some (s.go p (.gaveUp who (if writeFirst then seen else s.base.log)))
        else some (s.again p k)
      else none
    | _ => none

/-- The object right after the creator's `shm_open`, and nobody in a loop. -/
def opened (S : Setup) (slots : ℕ → T) : Loops T where
  base := .opened S slots
  loop := fun _ => .idle
  got := fun _ => []
  left := []

/-- An attach that claims a role started after the role was last given up. -/
def freshClaim (s : Loops T) : LoopAct T → Bool
  | .shm a => s.base.freshClaim a
  | _ => true

end Loops

/-! ## What a step of the queue leaves -/

/-- Equal indices are an empty queue. -/
theorem Ring.Holds.idx_eq_iff {c : Capacity} {ring : Ring T} {log : Log T}
    (h : ring.Holds c log) :
    ring.readIdx = ring.writeIdx ↔ log.published = log.released := by
  rw [cell_eq_iff c h.write h.read h.le h.room]
  constructor
  · intro hlen
    exact (h.fifo.eq_of_length hlen.symm).symm
  · intro heq
    rw [heq]

/-- The endpoint has a handle that operates. -/
def Endpoint.isBound {H : Type*} : Endpoint H → Bool
  | .bound _ => true
  | _ => false

/-- `attach` stores the own pid to its slot, or nothing. -/
theorem attachStep_object (name : String) (role : Role) (p : ℤ) (o : Object T) (ans : Answers)
    (pc : AttachPc) :
    (attachStep name role p o ans pc).1 = o ∨
      (attachStep name role p o ans pc).1 = o.setPid role p := by
  cases pc with
  | opening A =>
    simp only [attachStep]
    split <;> exact .inl rfl
  | readyCheck A lastAttempt mapped =>
    simp only [attachStep]
    split_ifs <;> exact .inl rfl
  | validating A mapped =>
    simp only [attachStep]
    split <;> exact .inl rfl
  | binding b =>
    have hobject := bindStep_object role p o ans b
    simp only [attachStep]
    split <;> rename_i hb <;> simpa [hb] using hobject

/-- So does `create` in its `bind`. -/
theorem createStep_binding_object (S : Setup) (o : Object T) (ans : Answers) (b : BindPc) :
    (createStep S o ans (.binding b)).1 = o ∨
      (createStep S o ans (.binding b)).1 = o.setPid S.role S.creator := by
  have hobject := bindStep_object S.role S.creator o ans b
  simp only [createStep]
  split <;> rename_i hb <;> simpa [hb] using hobject

namespace Shm

variable {S : Setup} {s s' : Shm T} {a : ShmAct T} {p : ℤ}

theorem dead_of_step (h : step S s a = some s') (hdead : s.dead p = true) : s'.dead p = true := by
  cases steps_of_step h with
  | die alive =>
    simp only [died, Function.update_apply]
    split_ifs
    · rfl
    · exact hdead
  | _ => exact hdead

theorem live_of_live (h : step S s a = some s') (hlive : s'.live p) : s.live p := by
  simp only [live, Bool.and_eq_true, decide_eq_true_eq, Bool.not_eq_true'] at hlive ⊢
  refine ⟨hlive.1, Bool.eq_false_iff.mpr fun hdead => ?_⟩
  rw [dead_of_step h hdead] at hlive
  exact absurd hlive.2 (by simp)

/-- A step leaves the bound handles of the others : it moves an endpoint that is not bound,
or operates or detaches a bound one. -/
theorem endpoint_of_step {role : Role} (h : step S s a = some s')
    (hbound : (s.endpoint role p).isBound = true) (hdetach : a ≠ .detach role p)
    (hproduce : role = .producer → ∀ act, a ≠ .produce p act)
    (hconsume : role = .consumer → ∀ act, a ≠ .consume p act) :
    s'.endpoint role p = s.endpoint role p := by
  have other {t : Shm T} {role' : Role} {p' : ℤ} {e : Endpoint (Worker T role')}
      (ht : t.endpoint = s.endpoint) (hne : ¬(role = role' ∧ p = p')) :
      (t.set role' p' e).endpoint role p = s.endpoint role p := by
    rw [← ht]
    by_cases hrole : role = role'
    · subst hrole
      exact endpoint_set_of_ne_pid fun heq => hne ⟨rfl, heq⟩
    · rw [endpoint_set_of_ne_role hrole]
  have unbound {role' : Role} {p' : ℤ} (hnot : (s.endpoint role' p').isBound = false) :
      ¬(role = role' ∧ p = p') := by
    rintro ⟨rfl, rfl⟩
    rw [hbound] at hnot
    cases hnot
  cases steps_of_step h with
  | create hat alive answers => exact other rfl (unbound (by rw [hat]; rfl))
  | attach hat alive => exact other rfl (unbound (by rw [hat]; rfl))
  | attachStep hat alive answers => exact other rfl (unbound (by rw [hat]; rfl))
  | produce hat alive act =>
    refine other rfl ?_
    rintro ⟨rfl, rfl⟩
    exact hproduce rfl _ rfl
  | consume hat alive act =>
    refine other rfl ?_
    rintro ⟨rfl, rfl⟩
    exact hconsume rfl _ rfl
  | detach hat alive idle =>
    refine other rfl ?_
    rintro ⟨rfl, rfl⟩
    exact hdetach rfl
  | die alive => rfl

/-- While a live process has the consumer's handle nobody else releases anything. -/
theorem released_of_step {q : Consumer T} (hexcl : Exclusive (s.seat .consumer))
    (h : step S s a = some s') (alive : s.live p) (hq : s.endpoint .consumer p = .bound q)
    (hconsume : ∀ act, a ≠ .consume p act) : s'.released = s.released := by
  cases steps_of_step h with
  | consume hat alive' act =>
    have hp : (s.endpoint .consumer p).holds := by rw [hq]; rfl
    have hp' := congrArg Endpoint.holds hat
    obtain rfl := hexcl.unique alive alive' hp hp'
    exact absurd rfl (hconsume _)
  | _ => rfl

/-- A consumer's handle is bound until it detaches. -/
theorem isBound_of_step (h : step S s a = some s')
    (hbound : (s.endpoint .consumer p).isBound = true) (hdetach : a ≠ .detach .consumer p) :
    (s'.endpoint .consumer p).isBound = true := by
  by_cases hact : ∃ act, a = .consume p act
  · obtain ⟨act, rfl⟩ := hact
    cases steps_of_step h with
    | consume hat alive act =>
      rw [consumed, endpoint_set_self]
      rfl
  · rw [endpoint_of_step h hbound hdetach (fun hrole => by cases hrole)
      fun _ act heq => hact ⟨act, heq⟩]
    exact hbound

theorem published_of_step (h : step S s a = some s') (hproduce : ∀ p act, a ≠ .produce p act) :
    s'.published = s.published := by
  cases steps_of_step h with
  | produce hat alive act => exact absurd rfl (hproduce _ _)
  | _ => rfl

/-- A step leaves the pid slots, or stores a pid, or the `-1` of a detach. -/
theorem pid_of_step (role : Role) (hphase : Phase S s) (h : step S s a = some s') :
    s'.object.pid role = s.object.pid role ∨ 0 < s'.object.pid role ∨
      s'.object.pid role = -1 ∧ ∃ p, a = .detach role p ∧ s.object.pid role = p := by
  have stored {o : Object T} {role' : Role} {p' : ℤ} (alive : s.live p')
      (ho : o = s.object ∨ o = s.object.setPid role' p') :
      o.pid role = s.object.pid role ∨ 0 < o.pid role := by
    rcases ho with rfl | rfl
    · exact .inl rfl
    · by_cases hrole : role = role'
      · subst hrole
        rw [Object.pid_setPid_self]
        exact .inr (pos_of_live alive)
      · exact .inl (Object.pid_setPid_of_ne _ _ hrole)
  cases steps_of_step h with
  | @create ans pc hat alive answers =>
    have hstage := hphase.endpoint S.role S.creator
    rw [hat] at hstage
    by_cases hpc : ∃ b, pc = .binding b
    · obtain ⟨b, rfl⟩ := hpc
      exact (stored alive (createStep_binding_object S s.object ans b)).imp_right .inl
    · exact .inl ((createStep_quiet ans hstage.2.2 fun b hb => hpc ⟨b, hb⟩).1 role)
  | @attachStep role' p' ans since pc hat alive answers =>
    exact (stored alive (attachStep_object S.name role' p' s.object ans pc)).imp_right .inl
  | @detach role' p' w hat alive idle =>
    simp only [detached, set_object]
    split_ifs with hpid
    · by_cases hrole : role = role'
      · subst hrole
        exact .inr (.inr ⟨Object.pid_setPid_self _ _ _, p', rfl, hpid⟩)
      · exact .inl (Object.pid_setPid_of_ne _ _ hrole)
    · exact .inl rfl
  | _ => exact .inl (by cases role <;> rfl)

end Shm

/-! ## What a step of a loop does -/

namespace Loops

variable {S : Setup} {c : Capacity} {s s' : Loops T} {a : LoopAct T} {p : ℤ}

/-- The steps, case by case. The outcomes of a look at the peer are cases of their own. -/
inductive Steps (S : Setup) (s : Loops T) : LoopAct T → Loops T → Prop
  | shm {a : ShmAct T} {base : Shm T} (allowed : s.allows a) (next : s.base.step S a = some base) :
      Steps S s (.shm a) { s with base := base, left := s.leaves a }
  | call {p : ℤ} {k : Loop} (alive : s.base.live p) (idle : s.idle p)
      (outside : (s.loop p).inside = false) : Steps S s (.call p k) (s.go p (.next k 0))
  | attempt {p : ℤ} {k : Loop} {spins : UInt32} {base : Shm T} (at_ : s.loop p = .next k spins)
      (next : s.base.step S (.consume p k.attempt) = some base) :
      Steps S s (.attempt p) ({ s with base := base }.go p (.trying k spins))
  | test {p : ℤ} {k : Loop} {spins : UInt32} {xs : List T} (at_ : s.loop p = .trying k spins)
      (taken : s.taken p = some xs) (alive : s.base.live p) :
      Steps S s (.test p) ((s.take p xs).go p (afterAttempt k spins xs))
  | unattached {p : ℤ} {k : Loop} (at_ : s.loop p = .loadPid k) (alive : s.base.live p) :
      Steps S s (.load p) (s.again p k)
  | load {p : ℤ} {k : Loop} (at_ : s.loop p = .loadPid k) (alive : s.base.live p)
      (attached : s.base.object.pid .producer ≠ 0) :
      Steps S s (.load p) (s.go p
        (.probe k (s.base.object.pid .producer) (s.observed (s.base.object.pid .producer))))
  | running {p pid who : ℤ} {ans : Answers} {k : Loop} (at_ : s.loop p = .probe k pid who)
      (alive : s.base.live p) : Steps S s (.kill p ans) (s.again p k)
  | kill {p pid who : ℤ} {ans : Answers} {k : Loop} (at_ : s.loop p = .probe k pid who)
      (alive : s.base.live p) (answers : s.base.admits ans (some pid))
      (gone : ¬processAlive ans.kill pid) : Steps S s (.kill p ans) (s.go p (.emptyFirst k who))
  | emptyFirst {p who : ℤ} {k : Loop} {writeFirst : Bool} (at_ : s.loop p = .emptyFirst k who)
      (alive : s.base.live p) :
      Steps S s (.emptyFirst p writeFirst) (s.go p (.emptySecond k who writeFirst
        (if writeFirst then s.base.object.ring.writeIdx else s.base.object.ring.readIdx)
        s.base.log))
  | nonempty {p who : ℤ} {k : Loop} {writeFirst : Bool} {x : UInt64} {seen : Log T}
      (at_ : s.loop p = .emptySecond k who writeFirst x seen) (alive : s.base.live p) :
      Steps S s (.emptySecond p) (s.again p k)
  | giveUp {p who : ℤ} {k : Loop} {writeFirst : Bool} {x : UInt64} {seen : Log T}
      (at_ : s.loop p = .emptySecond k who writeFirst x seen) (alive : s.base.live p)
      (empty : x = if writeFirst then s.base.object.ring.readIdx
        else s.base.object.ring.writeIdx) :
      Steps S s (.emptySecond p) (s.go p (.gaveUp who (if writeFirst then seen else s.base.log)))

theorem steps_of_step (h : step S s a = some s') : Steps S s a s' := by
  cases a with
  | shm a =>
    simp only [step] at h
    split_ifs at h with hallows
    obtain ⟨base, hbase, rfl⟩ := Option.map_eq_some_iff.mp h
    exact .shm hallows hbase
  | call p k =>
    simp only [step] at h
    split_ifs at h with hguard
    cases h
    simp only [Bool.and_eq_true, Bool.not_eq_true'] at hguard
    exact .call hguard.1.1 hguard.1.2 hguard.2
  | attempt p =>
    simp only [step] at h
    split at h
    next k spins hat =>
      obtain ⟨base, hbase, rfl⟩ := Option.map_eq_some_iff.mp h
      exact .attempt hat hbase
    next => cases h
  | test p =>
    simp only [step] at h
    split at h
    next k spins xs hat htaken =>
      split_ifs at h with alive
      cases h
      exact .test hat htaken alive
    next => cases h
  | load p =>
    simp only [step] at h
    split at h
    next k hat =>
      split_ifs at h with alive hpid
      · cases h
        exact .unattached hat alive
      · cases h
        exact .load hat alive hpid
    next => cases h
  | kill p ans =>
    simp only [step] at h
    split at h
    next k pid who hat =>
      split_ifs at h with hguard hkill
      all_goals
        rw [Bool.and_eq_true] at hguard
        cases h
      · exact .running hat hguard.1
      · exact .kill hat hguard.1 hguard.2 hkill
    next => cases h
  | emptyFirst p writeFirst =>
    simp only [step] at h
    split at h
    next k who hat =>
      by_cases alive : s.base.live p
      · rw [if_pos alive] at h
        cases h
        exact .emptyFirst hat alive
      · rw [if_neg alive] at h
        cases h
    next => cases h
  | emptySecond p =>
    simp only [step] at h
    split at h
    next k who writeFirst x seen hat =>
      by_cases alive : s.base.live p
      · rw [if_pos alive] at h
        by_cases hempty : x = if writeFirst then s.base.object.ring.readIdx
            else s.base.object.ring.writeIdx
        · rw [if_pos hempty] at h
          cases h
          exact .giveUp hat alive hempty
        · rw [if_neg hempty] at h
          cases h
          exact .nonempty hat alive
      · rw [if_neg alive] at h
        cases h
    next => cases h

/-- A step of a loop is a step of the queue, or leaves it. -/
theorem base_of_step (h : step S s a = some s') (hfresh : s.freshClaim a) :
    s'.base = s.base ∨ ∃ b, s.base.step S b = some s'.base ∧ s.base.freshClaim b := by
  cases steps_of_step h with
  | shm allowed next => exact .inr ⟨_, next, hfresh⟩
  | attempt hat next => exact .inr ⟨_, next, rfl⟩
  | _ => exact .inl rfl

/-- So a run of the loops is a run of the queue. -/
theorem base_of_reaches {slots : ℕ → T}
    (run : Reaches (step S) (fun s a => s.freshClaim a) (opened S slots) s) :
    Reaches (Shm.step S) (fun s a => s.freshClaim a) (Shm.opened S slots) s.base := by
  refine run.invariant (I := fun s =>
    Reaches (Shm.step S) (fun s a => s.freshClaim a) (Shm.opened S slots) s.base) .refl ?_
  intro s a s' hrun hfresh hstep
  rcases base_of_step hstep hfresh with heq | ⟨b, hb, hclaim⟩
  · rw [heq]
    exact hrun
  · exact hrun.tail hclaim hb

/-! ## What a loop knows -/

/-- The producer `who` has detached or died. -/
def Gone (s : Loops T) (who : ℤ) : Prop := who ∈ s.left ∨ s.base.dead who = true

/-- Between the two loads of `empty()` : the first has loaded `x`, the log was `seen`, and
nothing was released since. -/
def Looked (c : Capacity) (s : Loops T) (p : ℤ) (writeFirst : Bool) (x : UInt64)
    (seen : Log T) : Prop :=
  s.base.live p → seen.released = s.base.log.released ∧
    ∃ ring : Ring T, ring.Holds c seen ∧ x = if writeFirst then ring.writeIdx else ring.readIdx

/-- What the loop of `p` knows. -/
def Knows (c : Capacity) (s : Loops T) (p : ℤ) : LoopPc T → Prop
  | .probe _ pid who => pid = -1 ∧ who ∈ s.left ∨ 0 < pid ∧ who = pid
  | .emptyFirst _ who => s.Gone who
  | .emptySecond _ who writeFirst x seen => s.Gone who ∧ s.Looked c p writeFirst x seen
  | .gaveUp who seen => s.Gone who ∧ seen.published = seen.released
  | _ => True

/-- The producer's slot holds `0`, a pid, or the `-1` of somebody who has left; a process in
its loop has the consumer's handle; and every loop knows what it knows. -/
structure Inv (c : Capacity) (s : Loops T) : Prop where
  slot : s.base.object.pid .producer = 0 ∨ 0 < s.base.object.pid .producer ∨
    s.base.object.pid .producer = -1 ∧ s.left ≠ []
  bound : ∀ p, (s.loop p).inside = true → (s.base.endpoint .consumer p).isBound = true
  knows : ∀ p, s.Knows c p (s.loop p)

theorem inv_opened (S : Setup) (c : Capacity) (slots : ℕ → T) : Inv c (opened S slots) where
  slot := .inl rfl
  bound p h := by cases h
  knows p := trivial

theorem left_subset (s : Loops T) (a : ShmAct T) : s.left ⊆ s.leaves a := by
  unfold leaves
  split
  · split_ifs
    · exact List.subset_append_left _ _
    · exact List.Subset.refl _
  · exact List.Subset.refl _

/-- A process in its loop consumes in an attempt only. -/
theorem attempting_of_allows {act : PopAct} (h : s.allows (.consume p act))
    (hinside : (s.loop p).inside = true) : (s.loop p).attempting = true := by
  cases act with
  | step => simpa [allows, hinside] using h
  | _ => simp [allows, hinside] at h

theorem Gone.mono {base : Shm T} {left : List ℤ} {who : ℤ} {b : ShmAct T} (h : s.Gone who)
    (hnext : s.base.step S b = some base) (hleft : s.left ⊆ left) :
    Gone { s with base := base, left := left } who :=
  h.imp (fun hmem => hleft hmem) (Shm.dead_of_step hnext)

/-- A step of the queue that is not the loop's own leaves what the loop knows. -/
theorem Knows.base {base : Shm T} {left : List ℤ} {b : ShmAct T} {pc : LoopPc T}
    (hsound : Shm.Sound S c s.base) (hnext : s.base.step S b = some base) (hleft : s.left ⊆ left)
    (hbound : pc.inside = true → (s.base.endpoint .consumer p).isBound = true)
    (hother : pc.inside = true → pc.attempting = false → ∀ act, b ≠ .consume p act)
    (h : s.Knows c p pc) : Knows c { s with base := base, left := left } p pc := by
  cases pc with
  | probe k pid who => exact h.imp_left (And.imp_right fun hmem => hleft hmem)
  | emptyFirst k who => exact Gone.mono h hnext hleft
  | emptySecond k who writeFirst x seen =>
    refine ⟨h.1.mono hnext hleft, fun alive => ?_⟩
    have halive := Shm.live_of_live hnext alive
    obtain ⟨hreleased, hring⟩ := h.2 halive
    refine ⟨?_, hring⟩
    have hhandle := hbound rfl
    cases hq : s.base.endpoint .consumer p with
    | bound q =>
      have hsame := Shm.released_of_step (hsound.exclusive .consumer) hnext halive hq
        (hother rfl rfl)
      rw [hreleased]
      exact congrArg (List.map Prod.snd) hsame.symm
    | _ =>
      rw [hq] at hhandle
      cases hhandle
  | gaveUp who seen => exact ⟨h.1.mono hnext hleft, h.2⟩
  | _ => trivial

@[simp] theorem loop_go_self {pc : LoopPc T} : (s.go p pc).loop p = pc := by simp [Loops.go]

theorem loop_go_of_ne {pc : LoopPc T} {q : ℤ} (h : q ≠ p) : (s.go p pc).loop q = s.loop q := by
  simp [Loops.go, h]

/-- A move of one loop. -/
theorem Inv.go {pc : LoopPc T} (h : Inv c s) (hpc : s.Knows c p pc)
    (hinside : pc.inside = true → (s.base.endpoint .consumer p).isBound = true) :
    Inv c (s.go p pc) := by
  refine ⟨h.slot, fun q hq => ?_, fun q => ?_⟩
  · by_cases hqp : q = p
    · subst hqp
      rw [loop_go_self] at hq
      exact hinside hq
    · rw [loop_go_of_ne hqp] at hq
      exact h.bound q hq
  · by_cases hqp : q = p
    · subst hqp
      rw [loop_go_self]
      exact hpc
    · rw [loop_go_of_ne hqp]
      exact h.knows q

theorem slot_of_step {b : ShmAct T} {base : Shm T} (h : Inv c s) (hphase : Shm.Phase S s.base)
    (hnext : s.base.step S b = some base) :
    base.object.pid .producer = 0 ∨ 0 < base.object.pid .producer ∨
      base.object.pid .producer = -1 ∧ s.leaves b ≠ [] := by
  rcases Shm.pid_of_step .producer hphase hnext with hsame | hpos | ⟨hpid, p, rfl, hp⟩
  · rw [hsame]
    refine h.slot.imp_right (Or.imp_right (And.imp_right fun hne hnil => hne ?_))
    exact List.eq_nil_of_subset_nil (hnil ▸ s.left_subset b)
  · exact .inr (.inl hpos)
  · exact .inr (.inr ⟨hpid, by simp [leaves, hp]⟩)

/-- A step of the queue outside the loops, or in an attempt. -/
theorem inv_shm {a : ShmAct T} {base : Shm T} (hsound : Shm.Sound S c s.base) (h : Inv c s)
    (hallowed : s.allows a) (hnext : s.base.step S a = some base) :
    Inv c { s with base := base, left := s.leaves a } where
  slot := slot_of_step h hsound.phase hnext
  bound p hp := by
    refine Shm.isBound_of_step hnext (h.bound p hp) ?_
    rintro rfl
    rw [allows, hp] at hallowed
    cases hallowed
  knows p := by
    refine (h.knows p).base hsound hnext (s.left_subset a) (h.bound p) ?_
    rintro hinside hattempt act rfl
    rw [attempting_of_allows hallowed hinside] at hattempt
    cases hattempt

/-- The call of an attempt. -/
theorem inv_attempt {k : Loop} {spins : UInt32} {base : Shm T} (hsound : Shm.Sound S c s.base)
    (h : Inv c s) (hat : s.loop p = .next k spins)
    (hnext : s.base.step S (.consume p k.attempt) = some base) :
    Inv c ({ s with base := base }.go p (.trying k spins)) := by
  have hkept (q : ℤ) (hq : (s.loop q).inside = true) :
      (base.endpoint .consumer q).isBound = true :=
    Shm.isBound_of_step hnext (h.bound q hq) (by simp)
  refine ⟨slot_of_step h hsound.phase hnext, fun q hq => ?_, fun q => ?_⟩
  · by_cases hqp : q = p
    · subst hqp
      exact hkept q (by rw [hat]; rfl)
    · rw [loop_go_of_ne hqp] at hq
      exact hkept q hq
  · by_cases hqp : q = p
    · subst hqp
      rw [loop_go_self]
      trivial
    · rw [loop_go_of_ne hqp]
      refine (h.knows q).base hsound hnext (List.Subset.refl _) (h.bound q) ?_
      rintro - - act heq
      cases heq
      exact hqp rfl

/-- A loop that finds the slot occupied has observed somebody. -/
theorem knows_observed {k : Loop} (h : Inv c s) (hpid : s.base.object.pid .producer ≠ 0) :
    s.Knows c p (.probe k (s.base.object.pid .producer)
      (s.observed (s.base.object.pid .producer))) := by
  rcases h.slot with hzero | hpos | ⟨hleft, hne⟩
  · exact absurd hzero hpid
  · exact .inr ⟨hpos, if_neg (by omega)⟩
  · refine .inl ⟨hleft, ?_⟩
    rw [observed, if_pos hleft, List.getLast?_eq_some_getLast hne]
    exact List.getLast_mem hne

/-- A probe that fails has observed somebody who is gone. -/
theorem gone_of_probe {k : Loop} {pid who : ℤ} {ans : Answers} (h : s.Knows c p (.probe k pid who))
    (hanswers : s.base.admits ans (some pid)) (hkill : ¬processAlive ans.kill pid) :
    s.Gone who := by
  rcases h with ⟨-, hmem⟩ | ⟨hpos, rfl⟩
  · exact .inl hmem
  · refine .inr ?_
    by_contra hdead
    refine hkill (Shm.processAlive_of_live hanswers ?_)
    simpa [Shm.live, hpos] using hdead

/-- Equal indices : nothing was left when `writeIdx` was loaded. -/
theorem empty_of_looked {writeFirst : Bool} {x : UInt64} {seen : Log T}
    (hring : s.base.object.ring.Holds c s.base.log) (hlooked : s.Looked c p writeFirst x seen)
    (alive : s.base.live p)
    (hempty : x = if writeFirst then s.base.object.ring.readIdx
      else s.base.object.ring.writeIdx) :
    (if writeFirst then seen else s.base.log).published =
      (if writeFirst then seen else s.base.log).released := by
  obtain ⟨hreleased, ring, hseen, hx⟩ := hlooked alive
  have hread : ring.readIdx = s.base.object.ring.readIdx := by
    apply UInt64.toNat_inj.mp
    rw [hseen.read, hring.read, hreleased]
  cases writeFirst with
  | true =>
    refine hseen.idx_eq_iff.mp ?_
    exact hread.trans (hempty.symm.trans hx)
  | false =>
    refine hring.idx_eq_iff.mp ?_
    exact hread.symm.trans (hx.symm.trans hempty)

/-- Every step keeps the invariant. -/
theorem inv_step (hsound : Shm.Sound S c s.base) (h : Inv c s) (hstep : step S s a = some s') :
    Inv c s' := by
  have inside {q : ℤ} {pc : LoopPc T} (hat : s.loop q = pc) (hpc : pc.inside = true) :
      (s.base.endpoint .consumer q).isBound = true := h.bound q (by rw [hat]; exact hpc)
  cases steps_of_step hstep with
  | shm allowed next => exact inv_shm hsound h allowed next
  | @call p k alive idle outside =>
    refine h.go trivial fun _ => ?_
    rw [Loops.idle] at idle
    cases hq : s.base.endpoint .consumer p with
    | bound q => rfl
    | _ =>
      rw [hq] at idle
      cases idle
  | attempt hat next => exact inv_attempt hsound h hat next
  | @test p k spins xs hat taken alive =>
    have htake : Inv c (s.take p xs) := ⟨h.slot, h.bound, h.knows⟩
    refine htake.go ?_ fun _ => inside hat rfl
    unfold afterAttempt
    split
    · split_ifs <;> trivial
    · split <;> trivial
  | unattached hat alive => exact h.go trivial fun _ => inside hat rfl
  | load hat alive attached => exact h.go (knows_observed h attached) fun _ => inside hat rfl
  | running hat alive => exact h.go trivial fun _ => inside hat rfl
  | @kill p pid who ans k hat alive answers gone =>
    have hknows := h.knows p
    rw [hat] at hknows
    exact h.go (gone_of_probe hknows answers gone) fun _ => inside hat rfl
  | @emptyFirst p who k writeFirst hat alive =>
    have hknows := h.knows p
    rw [hat] at hknows
    refine h.go ⟨hknows, fun _ => ⟨rfl, _, hsound.intact.ring, rfl⟩⟩ fun _ => inside hat rfl
  | nonempty hat alive => exact h.go trivial fun _ => inside hat rfl
  | @giveUp p who k writeFirst x seen hat alive empty =>
    have hknows := h.knows p
    rw [hat] at hknows
    exact h.go ⟨hknows.1, empty_of_looked hsound.intact.ring hknows.2 alive empty⟩
      fun hinside => by cases hinside

/-- The invariant holds along every run. -/
theorem inv_of_reaches (hc : S.geometry.capacity = c.slots) {slots : ℕ → T}
    (run : Reaches (step S) (fun s a => s.freshClaim a) (opened S slots) s) : Inv c s := by
  induction run with
  | refl => exact inv_opened S c slots
  | tail run met next ih =>
    exact inv_step (Shm.sound_of_reaches hc (base_of_reaches run)) ih next

end Loops

/-! ## What the attempts take -/

/-- Not inside a `front` or `pop()` of the user. -/
def PopPc.Attempt : PopPc T → Prop
  | .frontLoad k => k = .tryPop
  | .frontTest k _ => k = .tryPop
  | .frontRefresh k _ => k = .tryPop
  | .popLoad b => ∃ out, b = .tryPop out
  | .popAssert b _ => ∃ out, b = .tryPop out
  | .popStore b _ => ∃ out, b = .tryPop out
  | _ => True

namespace Consumer

variable {q q' : Consumer T} {ring ring' : Ring T} {xs : List T}

theorem taken_of_step {out : Ring T × Consumer T × List T} (h : q.act ring .step = some out) :
    q.taken = none := by
  unfold taken
  split
  next hpc =>
    rw [act, hpc] at h
    cases h
  next => rfl

/-- An attempt returns what it has released. -/
theorem attempt_step (hpc : q.pc.Attempt) (h : q.act ring .step = some (ring', q', xs)) :
    q'.pc.Attempt ∧ q'.taken.getD [] = xs := by
  obtain ⟨handle, held, peeked, pc⟩ := q
  cases pc with
  | ready ret => cases h
  | frontLoad k =>
    cases h
    exact ⟨hpc, rfl⟩
  | frontTest k r =>
    obtain rfl : k = .tryPop := hpc
    simp only [act] at h
    split_ifs at h <;> cases h
    · exact ⟨rfl, rfl⟩
    · exact ⟨trivial, rfl⟩
  | frontRefresh k r =>
    obtain rfl : k = .tryPop := hpc
    simp only [act] at h
    split_ifs at h <;> cases h <;> exact ⟨trivial, rfl⟩
  | tryPopCopy r =>
    cases h
    exact ⟨⟨_, rfl⟩, rfl⟩
  | popLoad b =>
    cases h
    exact ⟨hpc, rfl⟩
  | popAssert b r =>
    simp only [act] at h
    split_ifs at h <;> cases h
    · exact ⟨trivial, rfl⟩
    · exact ⟨hpc, rfl⟩
  | popStore b r =>
    obtain ⟨out, rfl⟩ := hpc
    cases h
    exact ⟨trivial, rfl⟩
  | popNLoad n =>
    cases h
    exact ⟨trivial, rfl⟩
  | popNTest n r =>
    simp only [act] at h
    split_ifs at h <;> cases h <;> exact ⟨trivial, rfl⟩
  | popNRefresh n r =>
    simp only [act] at h
    split_ifs at h <;> cases h <;> exact ⟨trivial, rfl⟩
  | popNCopy r count dst =>
    simp only [act] at h
    cases h
    simp only
    split_ifs <;> exact ⟨trivial, rfl⟩
  | popNStore r count dst =>
    cases h
    exact ⟨trivial, rfl⟩
  | aborted => cases h

/-- The call of an attempt takes nothing yet. -/
theorem attempt_call (k : Loop) (h : q.act ring k.attempt = some (ring', q', xs)) :
    q'.pc.Attempt ∧ q'.taken.getD [] = [] ∧ xs = [] := by
  cases k with
  | pop peerCheckSpins =>
    simp only [Loop.attempt, act] at h
    split at h
    · cases h
      exact ⟨rfl, rfl, rfl⟩
    · cases h
  | drain n =>
    simp only [Loop.attempt, act] at h
    split at h
    · split_ifs at h <;> cases h <;> exact ⟨trivial, rfl, rfl⟩
    · cases h

end Consumer

/-! ## Draining after the last push -/

/-- The log at the look at `writeIdx`, from that look on. -/
def LoopPc.seen : LoopPc T → Option (Log T)
  | .emptySecond _ _ _ _ seen => some seen
  | .gaveUp _ seen => some seen
  | _ => none

namespace Loops

variable {S : Setup} {c : Capacity} {s₀ s s' : Loops T} {a : LoopAct T} {p : ℤ}

/-- What the attempt of `p` has taken and its loop has not seen yet. -/
def pending (s : Loops T) (p : ℤ) : List T :=
  if (s.loop p).attempting then (s.taken p).getD [] else []

/-- Nothing is pushed any more, and `p` takes elements in its loop only. -/
def onlyDrains (p : ℤ) (s : Loops T) : LoopAct T → Bool
  | .shm (.produce _ _) => false
  | .shm (.consume q _) => q ≠ p || (s.loop p).attempting
  | .shm (.detach .consumer q) => q ≠ p
  | _ => true

/-- From `s₀` on, `p` has got what was released, up to what its attempt has just taken. -/
structure Drained (p : ℤ) (s₀ s : Loops T) : Prop where
  published : s.base.published = s₀.base.published
  handle : ∃ q, s.base.endpoint .consumer p = .bound q ∧
    ((s.loop p).attempting = true → q.pc.Attempt)
  taken : s.base.live p → ∃ xs, s.got p = s₀.got p ++ xs ∧
    s.base.log.released = s₀.base.log.released ++ xs ++ s.pending p
  seen : ∀ seen, (s.loop p).seen = some seen → seen.published = s₀.base.log.published ∧
    (s.base.live p → seen.released = s.base.log.released)

/-- What does not concern `p`. -/
theorem Drained.frame (h : Drained p s₀ s) (hbase : s'.base = s.base)
    (hloop : s'.loop p = s.loop p) (hgot : s'.got p = s.got p) : Drained p s₀ s' := by
  have hpending : s'.pending p = s.pending p := by
    simp only [pending, Loops.taken, hbase, hloop]
  refine ⟨?_, ?_, ?_, ?_⟩
  · rw [hbase]
    exact h.published
  · rw [hbase, hloop]
    exact h.handle
  · rw [hbase, hgot, hpending]
    exact h.taken
  · rw [hbase, hloop]
    exact h.seen

/-- A step of the queue that is not the consumer's of `p`. -/
theorem Drained.other {b : ShmAct T} (hsound : Shm.Sound S c s.base) (h : Drained p s₀ s)
    (hnext : s.base.step S b = some s'.base) (hproduce : ∀ q act, b ≠ .produce q act)
    (hconsume : ∀ act, b ≠ .consume p act) (hdetach : b ≠ .detach .consumer p)
    (hloop : s'.loop p = s.loop p) (hgot : s'.got p = s.got p) : Drained p s₀ s' := by
  obtain ⟨q, hq, hattempt⟩ := h.handle
  have hend : s'.base.endpoint .consumer p = s.base.endpoint .consumer p :=
    Shm.endpoint_of_step hnext (by rw [hq]; rfl) hdetach (fun hrole => by cases hrole)
      fun _ => hconsume
  have hreleased (alive : s'.base.live p) : s'.base.log.released = s.base.log.released := by
    have hsame := Shm.released_of_step (hsound.exclusive .consumer) hnext
      (Shm.live_of_live hnext alive) hq hconsume
    exact congrArg (List.map Prod.snd) hsame
  have hpending : s'.pending p = s.pending p := by
    simp only [pending, Loops.taken, hend, hloop]
  refine ⟨(Shm.published_of_step hnext hproduce).trans h.published, ?_, fun alive => ?_,
    fun seen hseen => ?_⟩
  · rw [hend, hloop]
    exact h.handle
  · rw [hreleased alive, hgot, hpending]
    exact h.taken (Shm.live_of_live hnext alive)
  · rw [hloop] at hseen
    refine ⟨(h.seen seen hseen).1, fun alive => ?_⟩
    rw [hreleased alive]
    exact (h.seen seen hseen).2 (Shm.live_of_live hnext alive)

/-- A move of the loop of `p` outside its attempts. -/
theorem Drained.move {pc : LoopPc T} (h : Drained p s₀ s)
    (hbefore : (s.loop p).attempting = false) (hafter : pc.attempting = false)
    (hseen : ∀ seen, pc.seen = some seen → seen.published = s₀.base.log.published ∧
      (s.base.live p → seen.released = s.base.log.released)) : Drained p s₀ (s.go p pc) := by
  have hpending : (s.go p pc).pending p = s.pending p := by
    simp [pending, hbefore, hafter]
  obtain ⟨q, hq, -⟩ := h.handle
  refine ⟨h.published, ⟨q, hq, ?_⟩, ?_, ?_⟩
  · rw [loop_go_self, hafter]
    exact fun hfalse => by cases hfalse
  · rw [hpending]
    exact h.taken
  · rw [loop_go_self]
    exact hseen

/-- A step of the consumer of `p` that leaves what its attempt has just taken. -/
theorem Drained.consume {q : Consumer T} {ring : Ring T} {xs : List T} (h : Drained p s₀ s)
    (hbase : s'.base = s.base.consumed p (ring, q, xs)) (hpc : q.pc.Attempt)
    (htaken : q.taken.getD [] = xs) (hbefore : s.pending p = [])
    (hafter : (s'.loop p).attempting = true) (hgot : s'.got p = s.got p) : Drained p s₀ s' := by
  have hend : s'.base.endpoint .consumer p = .bound q := by
    rw [hbase, Shm.consumed, Shm.endpoint_set_self]
  have hpending : s'.pending p = xs := by
    rw [pending, hafter, if_pos rfl, Loops.taken, hend]
    exact htaken
  refine ⟨?_, ⟨q, hend, fun _ => hpc⟩, fun alive => ?_, fun seen hseen => ?_⟩
  · rw [hbase]
    exact h.published
  · rw [hbase] at alive
    obtain ⟨ys, hys, hreleased⟩ := h.taken alive
    refine ⟨ys, hgot.trans hys, ?_⟩
    rw [hbase, Shm.log_consumed, Log.release_released, hreleased, hbefore, hpending,
      List.append_nil]
  · cases hloop : s'.loop p with
    | trying k spins =>
      rw [hloop] at hseen
      cases hseen
    | _ =>
      rw [hloop] at hafter
      cases hafter

/-- A step of the queue. -/
theorem drained_shm {a : ShmAct T} {base : Shm T} (hsound : Shm.Sound S c s.base)
    (h : Drained p s₀ s) (hallowed : s.allows a) (honly : s.onlyDrains p (.shm a))
    (hnext : s.base.step S a = some base) :
    Drained p s₀ { s with base := base, left := s.leaves a } := by
  by_cases hact : ∃ act, a = .consume p act
  · obtain ⟨act, rfl⟩ := hact
    have hattempting : (s.loop p).attempting = true := by simpa [onlyDrains] using honly
    have hinside : (s.loop p).inside = true := by
      cases hloop : s.loop p with
      | trying k spins => rfl
      | _ =>
        rw [hloop] at hattempting
        cases hattempting
    obtain rfl : act = .step := by
      cases act with
      | step => rfl
      | _ => simp [allows, hinside] at hallowed
    cases Shm.steps_of_step hnext with
    | @consume _ _ w out hat alive act =>
      obtain ⟨q, hq, hpc⟩ := h.handle
      obtain rfl : q = w := Endpoint.bound.inj (hq.symm.trans hat)
      obtain ⟨ring, q', xs⟩ := out
      obtain ⟨hpc', htaken⟩ := Consumer.attempt_step (hpc hattempting) act
      refine h.consume rfl hpc' htaken ?_ hattempting rfl
      simp only [pending, hattempting, if_true, Loops.taken, hq, Consumer.taken_of_step act,
        Option.getD_none]
  · refine h.other hsound hnext ?_ (fun act heq => hact ⟨act, heq⟩) ?_ rfl rfl
    · rintro q act rfl
      cases honly
    · rintro rfl
      simp [onlyDrains] at honly

/-- The look of `empty()`. -/
theorem drained_look {k : Loop} {who : ℤ} {writeFirst : Bool} {x : UInt64} (h : Drained p s₀ s)
    (hat : s.loop p = .emptyFirst k who) :
    Drained p s₀ (s.go p (.emptySecond k who writeFirst x s.base.log)) := by
  refine h.move (by rw [hat]; rfl) rfl ?_
  rintro _ ⟨rfl⟩
  exact ⟨congrArg (List.map Prod.snd) h.published, fun _ => rfl⟩

/-- The end of the loop. -/
theorem drained_giveUp {k : Loop} {who : ℤ} {writeFirst : Bool} {x : UInt64} {seen : Log T}
    (h : Drained p s₀ s) (hat : s.loop p = .emptySecond k who writeFirst x seen) :
    Drained p s₀ (s.go p (.gaveUp who (if writeFirst then seen else s.base.log))) := by
  refine h.move (by rw [hat]; rfl) rfl ?_
  rintro _ ⟨rfl⟩
  cases writeFirst with
  | true => exact h.seen seen (by rw [hat]; rfl)
  | false => exact ⟨congrArg (List.map Prod.snd) h.published, fun _ => rfl⟩

/-- The loop of `p` has seen what its attempt has taken. -/
theorem drained_test {k : Loop} {spins : UInt32} {xs : List T} (h : Drained p s₀ s)
    (hat : s.loop p = .trying k spins) (htaken : s.taken p = some xs) :
    Drained p s₀ ((s.take p xs).go p (afterAttempt k spins xs)) := by
  have hpending : s.pending p = xs := by
    simp only [pending, hat, htaken, LoopPc.attempting, if_true, Option.getD_some]
  have hafter : (afterAttempt k spins xs : LoopPc T).attempting = false ∧
      (afterAttempt k spins xs : LoopPc T).seen = none := by
    unfold afterAttempt
    split
    · split_ifs <;> exact ⟨rfl, rfl⟩
    · split <;> exact ⟨rfl, rfl⟩
  obtain ⟨q, hq, -⟩ := h.handle
  refine ⟨h.published, ⟨q, hq, ?_⟩, fun alive => ?_, ?_⟩
  · rw [loop_go_self, hafter.1]
    exact fun hfalse => by cases hfalse
  · obtain ⟨ys, hys, hreleased⟩ := h.taken alive
    refine ⟨ys ++ xs, ?_, ?_⟩
    · simp [Loops.go, Loops.take, hys]
    · have hnone : ((s.take p xs).go p (afterAttempt k spins xs)).pending p = [] := by
        simp [pending, hafter.1]
      rw [hpending, List.append_assoc] at hreleased
      rw [hnone, List.append_nil]
      exact hreleased
  · rw [loop_go_self, hafter.2]
    exact fun seen hfalse => by cases hfalse

/-- Every step keeps it. -/
theorem drained_step (hsound : Shm.Sound S c s.base) (h : Drained p s₀ s)
    (honly : s.onlyDrains p a) (hstep : step S s a = some s') : Drained p s₀ s' := by
  have moves {q : ℤ} {pc pc' : LoopPc T} (hat : s.loop q = pc) (hbefore : pc.attempting = false)
      (hafter : pc'.attempting = false) (hseen : pc'.seen = none) : Drained p s₀ (s.go q pc') := by
    by_cases hqp : p = q
    · subst hqp
      refine h.move (by rw [hat]; exact hbefore) hafter ?_
      rw [hseen]
      exact fun seen hfalse => by cases hfalse
    · exact h.frame rfl (loop_go_of_ne hqp) rfl
  cases steps_of_step hstep with
  | shm allowed next => exact drained_shm hsound h allowed honly next
  | @call q k alive idle outside =>
    refine moves rfl ?_ rfl rfl
    cases hloop : s.loop q with
    | trying k spins =>
      rw [hloop] at outside
      cases outside
    | _ => rfl
  | @attempt q k spins base hat next =>
    by_cases hqp : p = q
    · subst hqp
      cases Shm.steps_of_step next with
      | @consume _ _ w out hend alive act =>
        obtain ⟨ring, q', xs⟩ := out
        obtain ⟨hpc, htaken, rfl⟩ := Consumer.attempt_call k act
        refine h.consume rfl hpc htaken ?_ (by rw [loop_go_self]; rfl) rfl
        simp only [pending, hat, LoopPc.attempting, if_neg Bool.false_ne_true]
    · refine h.other hsound next (by simp) ?_ (by simp) (loop_go_of_ne hqp) rfl
      intro act heq
      cases heq
      exact hqp rfl
  | @test q k spins xs hat taken alive =>
    by_cases hqp : p = q
    · subst hqp
      exact drained_test h hat taken
    · refine h.frame rfl (loop_go_of_ne hqp) ?_
      simp [Loops.go, Loops.take, hqp]
  | unattached hat alive => exact moves hat rfl rfl rfl
  | load hat alive attached => exact moves hat rfl rfl rfl
  | running hat alive => exact moves hat rfl rfl rfl
  | kill hat alive answers gone => exact moves hat rfl rfl rfl
  | @emptyFirst q who k writeFirst hat alive =>
    by_cases hqp : p = q
    · subst hqp
      exact drained_look h hat
    · exact h.frame rfl (loop_go_of_ne hqp) rfl
  | nonempty hat alive => exact moves hat rfl rfl rfl
  | @giveUp q who k writeFirst x seen hat alive empty =>
    by_cases hqp : p = q
    · subst hqp
      exact drained_giveUp h hat
    · exact h.frame rfl (loop_go_of_ne hqp) rfl

end Loops

/-! ## Calling `pop` until it fails -/

namespace Solo

/-- `pop(out, peerCheckSpins)` until it returns `false`, at most `n` times : what it copied. -/
def popAll (peerCheckSpins : UInt32) (pid : ℤ) (answers : List KillResult) :
    ℕ → Solo T → Option (List T × Solo T)
  | 0, _ => none
  | n + 1, s =>
    (s.popInto peerCheckSpins pid answers 0).bind fun
      | (none, s') => some ([], s')
      | (some x, s') =>
        (popAll peerCheckSpins pid answers n s').map fun (xs, s'') => (x :: xs, s'')

/-- The peer gone, the calls take what is waiting, and one more call fails. -/
theorem popAll_eq {c : Capacity} {peerCheckSpins : UInt32} {pid : ℤ} {answers : List KillResult}
    (hlen : peerCheckSpins.toNat + 1 ≤ answers.length)
    (hgone : ∀ kill ∈ answers, peerAlive pid kill = false) :
    ∀ (n : ℕ) {log : Log T} {s : Solo T}, s.CanPop c log → log.held = n →
      ∃ s', popAll peerCheckSpins pid answers (n + 1) s = some (log.waiting, s')
  | 0, log, s, h, hheld => by
    refine ⟨s.loadWrite, ?_⟩
    rw [popAll, h.popInto_of_empty peerCheckSpins hheld answers 0 hgone (by simpa using hlen),
      log.waiting_eq_nil hheld]
    rfl
  | n + 1, log, s, h, hheld => by
    have hpos : 0 < log.held := by omega
    have htake := (h.refreshWrite 1).take (h.refreshWrite_used hpos)
    rw [refreshWrite_ring] at htake
    obtain ⟨s', hs'⟩ := popAll_eq hlen hgone n htake (by
      simp only [Log.held, Log.release_published, Log.release_released, List.length_append,
        List.length_singleton] at hheld ⊢
      omega)
    refine ⟨s', ?_⟩
    obtain ⟨kill, answers, rfl⟩ := List.exists_cons_of_length_pos (by omega : 0 < answers.length)
    rw [popAll, h.popInto_of_held peerCheckSpins 0 hpos kill answers]
    simp only [Option.bind_some, hs', Option.map_some, h.waiting_eq hpos]

end Solo

namespace Loops

variable {S : Setup} {c : Capacity} {s t : Loops T} {a : LoopAct T} {p : ℤ}

/-- A consumer between two calls may pop. -/
theorem canPop_of_sound {q : Consumer T} (hsound : Shm.Sound S c s.base) (alive : s.base.live p)
    (hq : s.base.endpoint .consumer p = .bound q) (hidle : Worker.idle .consumer q) :
    Solo.CanPop c s.base.log ⟨s.base.object.ring, q.handle⟩ := by
  have hknows := hsound.intact.endpoint .consumer p alive
  rw [hq] at hknows
  obtain ⟨hcap, hpc, -⟩ := hknows
  refine ⟨hcap, hsound.intact.ring, ?_⟩
  simp only [Worker.idle] at hidle
  split at hidle
  next ret hready =>
    rw [hready] at hpc
    exact hpc
  next => cases hidle

/-- The loop of `p` right after its call. -/
theorem drained_call {k : Loop} (hidle : s.idle p) : Drained p s (s.go p (.next k 0)) := by
  have hhandle : ∃ q, s.base.endpoint .consumer p = .bound q := by
    rw [Loops.idle] at hidle
    cases hq : s.base.endpoint .consumer p with
    | bound q => exact ⟨q, rfl⟩
    | _ =>
      rw [hq] at hidle
      cases hidle
  obtain ⟨q, hq⟩ := hhandle
  refine ⟨rfl, ⟨q, hq, ?_⟩, fun _ => ⟨[], (List.append_nil _).symm, ?_⟩, ?_⟩
  · rw [loop_go_self]
    exact fun hfalse => by cases hfalse
  · simp [pending, LoopPc.attempting, Loops.go]
  · rw [loop_go_self]
    exact fun seen hfalse => by cases hfalse

/-- It is kept along a run after the last push. -/
theorem drained_of_reaches {s₀ : Loops T} (hc : S.geometry.capacity = c.slots) {slots : ℕ → T}
    (run : Reaches (step S) (fun s a => s.freshClaim a) (opened S slots) s)
    (rest : Reaches (step S) (fun s a => s.freshClaim a ∧ s.onlyDrains p a) s t)
    (h : Drained p s₀ s) : Drained p s₀ t := by
  induction rest with
  | refl => exact h
  | tail rest met next ih =>
    have hrun := run.trans (rest.mono fun _ _ hok => hok.1)
    exact drained_step (Shm.sound_of_reaches hc (base_of_reaches hrun)) ih met.2 next

/-- A loop that drains the queue after the last push has got what was waiting. -/
theorem got_of_drained {who : ℤ} {seen : Log T} (hinv : Inv c t) (h : Drained p s t)
    (alive : t.base.live p) (hat : t.loop p = .gaveUp who seen) :
    t.got p = s.got p ++ s.base.log.waiting := by
  have hknows := hinv.knows p
  rw [hat] at hknows
  obtain ⟨xs, hgot, hreleased⟩ := h.taken alive
  obtain ⟨hpublished, hseen⟩ := h.seen seen (by rw [hat]; rfl)
  have hall : s.base.log.published = s.base.log.released ++ xs := by
    calc s.base.log.published = seen.released := hpublished.symm.trans hknows.2
      _ = t.base.log.released := hseen alive
      _ = s.base.log.released ++ xs := by
        rw [hreleased]
        simp [pending, hat, LoopPc.attempting]
  rw [hgot, Log.waiting, hall, List.drop_left]

/-- No message is abandoned when the producer goes away. Consumers are in their loops,
producers push, detach and die at any step, and successors attach after that. When the look
at the peer has failed, the producer it observed has detached or died. A loop gives up only
if nothing was left in the queue when it loaded `writeIdx`. After the last push, the calls
of `p` until one gives up get what was waiting, in order; and with the producer gone they
come to that end. -/
theorem nothing_abandoned (S : Setup)
    (hcreate : create S.layout S.name S.requested S.calls = .ok S.geometry) (slots : ℕ → T)
    {s : Loops T} (run : Reaches (step S) (fun s a => s.freshClaim a) (opened S slots) s) (p : ℤ) :
    (∀ k who, s.loop p = .emptyFirst k who → s.Gone who) ∧
    (∀ who seen, s.loop p = .gaveUp who seen → s.Gone who ∧ seen.published = seen.released) ∧
    (∀ k s₁ t who seen, step S s (.call p k) = some s₁ →
      Reaches (step S) (fun s a => s.freshClaim a ∧ s.onlyDrains p a) s₁ t →
      t.base.live p → t.loop p = .gaveUp who seen →
      t.got p = s.got p ++ s.base.log.waiting) ∧
    ∀ (q : Consumer T) (peerCheckSpins : UInt32) (answers : List KillResult),
      s.base.live p → s.base.endpoint .consumer p = .bound q → Worker.idle .consumer q →
      peerCheckSpins.toNat + 1 ≤ answers.length →
      (s.base.object.pid .producer = -1 ∨
        0 < s.base.object.pid .producer ∧ ∀ kill ∈ answers, kill = .errno esrch) →
      ∃ s', Solo.popAll peerCheckSpins (s.base.object.pid .producer) answers
        (s.base.log.held + 1) ⟨s.base.object.ring, q.handle⟩ = some (s.base.log.waiting, s') := by
  have hinv : Inv (.ofCreate hcreate) s := inv_of_reaches rfl run
  have hknows := hinv.knows p
  refine ⟨fun k who hat => ?_, fun who seen hat => ?_,
    fun k s₁ t who seen hcall rest alive hat => ?_,
    fun q peerCheckSpins answers alive hq hidle hlen hgone => ?_⟩
  · rw [hat] at hknows
    exact hknows
  · rw [hat] at hknows
    exact hknows
  · have hrun₁ := run.tail (show s.freshClaim (.call p k) from rfl) hcall
    have hinv' : Inv (.ofCreate hcreate) t :=
      inv_of_reaches rfl (hrun₁.trans (rest.mono fun _ _ hok => hok.1))
    have hstart : Drained p s s₁ := by
      cases steps_of_step hcall with
      | call alive idle outside => exact drained_call idle
    have hc : S.geometry.capacity = (Capacity.ofCreate hcreate).slots := rfl
    exact got_of_drained hinv' (drained_of_reaches hc hrun₁ rest hstart) alive hat
  · have hsound : Shm.Sound S (.ofCreate hcreate) s.base :=
      Shm.sound_of_reaches rfl (base_of_reaches run)
    refine Solo.popAll_eq hlen (fun kill hkill => ?_) _
      (canPop_of_sound hsound alive hq hidle) rfl
    exact peerAlive_of_gone (hgone.imp_right fun h => ⟨h.1, h.2 kill hkill⟩)

/-- Consumer `2` follows the producer `1`, which pushes `7` and detaches. -/
def pushedRun : List (LoopAct ℕ) :=
  List.replicate 20 (LoopAct.shm (.create .plain)) ++
    LoopAct.shm (.attach .consumer 2 messageLayout) ::
      List.replicate 9 (LoopAct.shm (.attachStep .consumer 2 .plain)) ++
    LoopAct.shm (.produce 1 (.tryPush 7)) ::
      List.replicate 4 (LoopAct.shm (.produce 1 .step)) ++
    [LoopAct.shm (.detach .producer 1)]

/-- It calls `pop` once more after the call that returns `7`. -/
def drainRun : List (LoopAct ℕ) :=
  LoopAct.attempt 2 :: List.replicate 7 (LoopAct.shm (.consume 2 .step)) ++
    [LoopAct.test 2, LoopAct.call 2 (.pop 0), LoopAct.attempt 2] ++
    List.replicate 3 (LoopAct.shm (.consume 2 .step)) ++
    [LoopAct.test 2, LoopAct.load 2, LoopAct.kill 2 .plain, LoopAct.emptyFirst 2 true,
      LoopAct.emptySecond 2]

theorem nothing_abandoned_drainRun :
    ∃ s t : Loops ℕ, Reaches (step messageSetup) (fun s a => s.freshClaim a) s t ∧
      s.base.log.waiting = [7] ∧ t.loop 2 = .gaveUp 1 ⟨[7], [7]⟩ ∧ t.Gone 1 ∧
      t.got 2 = s.got 2 ++ s.base.log.waiting := by
  have hrun : ((exec (step messageSetup) (fun s a => s.freshClaim a)
      (opened messageSetup fun _ => 0) pushedRun).bind fun s =>
        (step messageSetup s (.call 2 (.pop 0))).bind fun s₁ =>
          (exec (step messageSetup) (fun s a => s.freshClaim a ∧ s.onlyDrains 2 a) s₁
            drainRun).map fun t =>
              (s.base.log.waiting, t.base.live 2, t.loop 2)) =
      some ([7], true, .gaveUp 1 ⟨[7], [7]⟩) := by decide +kernel
  obtain ⟨s, hs, hrun⟩ := Option.bind_eq_some_iff.mp hrun
  obtain ⟨s₁, hcall, hrun⟩ := Option.bind_eq_some_iff.mp hrun
  obtain ⟨t, ht, hview⟩ := Option.map_eq_some_iff.mp hrun
  simp only [Prod.mk.injEq] at hview
  obtain ⟨hwaiting, alive, hat⟩ := hview
  have run := Reaches.of_exec hs
  have rest := Reaches.of_exec ht
  have hcreate : create messageSetup.layout messageSetup.name messageSetup.requested
      messageSetup.calls = .ok messageSetup.geometry := by decide
  have hcalled : Reaches (step messageSetup) (fun s a => s.freshClaim a) s s₁ :=
    .tail .refl rfl hcall
  have hafter := hcalled.trans (rest.mono fun _ _ hok => hok.1)
  have hgone := (nothing_abandoned messageSetup hcreate _ (run.trans hafter) 2).2.1 _ _ hat
  have hgot := (nothing_abandoned messageSetup hcreate _ run 2).2.2.1 _ _ _ _ _ hcall rest alive
    hat
  exact ⟨s, t, hafter, hwaiting, hat, hgone.1, hgot⟩

end Loops

end ShmSpsc
