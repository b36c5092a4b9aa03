import ShmSpsc.Bind
import ShmSpsc.Spsc

/-!
# Any number of processes on one object

The object of one `create`, from its `shm_open` on, and every process that attaches to it.
A process has at most one handle per role (`Endpoint`); it attaches, operates, detaches
between two calls and dies between any two steps, and a dead process takes no further step
(pids are not reused). What the system calls answer at a step is part of the action; the
only constraint on it (`Shm.admits`) is that `kill` does not report a live process as
`ESRCH`.

The lists of published and released elements, with the process that stored the index, and
the count `changes` of the times a role was taken or given up are history, read by no
operation.
-/

namespace ShmSpsc

open Transition

variable {T : Type*}

/-- The handle a role operates through. -/
abbrev Worker (T : Type*) : Role → Type _
  | .producer => Producer T
  | .consumer => Consumer T

/-- A handle as `bind` leaves it. -/
def Worker.fresh : (role : Role) → Handle → Worker T role
  | .producer, h => Producer.fresh h
  | .consumer, h => Consumer.fresh h

/-- The handle is between two calls. -/
def Worker.idle : (role : Role) → Worker T role → Bool
  | .producer, p => match p.pc with
    | .ready _ => true
    | _ => false
  | .consumer, q => match q.pc with
    | .ready _ => true
    | _ => false

/-- A process's handle in one role : none, with the exception that ended the last one;
inside `create`; inside an `attach` that started after `since` changes of the role; or
bound. -/
inductive Endpoint (H : Type*) where
  | absent (thrown : Option Exception)
  | creating (pc : CreatePc)
  | attaching (since : ℕ) (pc : AttachPc)
  | bound (h : H)

/-- The handle is `bound_` : `bind` has returned. -/
def Endpoint.holds {H : Type*} : Endpoint H → Bool
  | .bound _ => true
  | .creating (.ready _) => true
  | _ => false

/-- The endpoint after a step of `create` or `attach`; `wrap` is the one that goes on. -/
def Outcome.endpoint {π : Type*} (role : Role) (wrap : π → Endpoint (Worker T role)) :
    Outcome π → Endpoint (Worker T role)
  | .more pc => wrap pc
  | .bound h => .bound (Worker.fresh role h)
  | .threw e => .absent (some e)

/-- The pid that the next step of `bind` probes. -/
def BindPc.probed : BindPc → Option ℤ
  | .test _ expected => some expected
  | _ => none

/-- The pid that the next step of `attach` probes. -/
def AttachPc.probed : AttachPc → Option ℤ
  | .binding b => b.probed
  | _ => none

/-- The pid that the next step of `create` probes. -/
def CreatePc.probed : CreatePc → Option ℤ
  | .binding b => b.probed
  | _ => none

/-- The pid that the endpoint's next step probes. -/
def Endpoint.probed {H : Type*} : Endpoint H → Option ℤ
  | .creating pc => pc.probed
  | .attaching _ pc => pc.probed
  | _ => none

/-- The object, its history, the endpoints of every process, and who is dead. -/
structure Shm (T : Type*) where
  object : Object T
  published : List (ℤ × T)
  released : List (ℤ × T)
  changes : Role → ℕ
  endpoint : (role : Role) → ℤ → Endpoint (Worker T role)
  dead : ℤ → Bool

/-- A step of some process. -/
inductive ShmAct (T : Type*) where
  | create (ans : Answers)
  | attach (role : Role) (p : ℤ) (A : Layout)
  | attachStep (role : Role) (p : ℤ) (ans : Answers)
  | produce (p : ℤ) (a : PushAct T)
  | consume (p : ℤ) (a : PopAct)
  | detach (role : Role) (p : ℤ)
  | die (p : ℤ)

namespace Shm

/-- The published and released elements. -/
def log (s : Shm T) : Log T := ⟨s.published.map Prod.snd, s.released.map Prod.snd⟩

/-- `p` is a process that has not died. -/
def live (s : Shm T) (p : ℤ) : Bool := decide (0 < p) && !s.dead p

/-- The answers that the system can give to a step that probes `probed`. -/
def admits (s : Shm T) (ans : Answers) (probed : Option ℤ) : Bool :=
  match probed with
  | some q => !(s.live q && ans.kill == .errno esrch)
  | none => true

/-- The endpoint of `p` in `role` becomes `e`. -/
def set (s : Shm T) (role : Role) (p : ℤ) (e : Endpoint (Worker T role)) : Shm T :=
  { s with
    endpoint := Function.update s.endpoint role (Function.update (s.endpoint role) p e)
    changes := Function.update s.changes role
      (if (s.endpoint role p).holds = e.holds then s.changes role else s.changes role + 1) }

/-- The state after a step of `create` or `attach` that ended with `out`. -/
def after {π : Type*} (s : Shm T) (role : Role) (p : ℤ)
    (wrap : π → Endpoint (Worker T role)) (out : Object T × Outcome π) : Shm T :=
  { s with object := out.1 }.set role p (out.2.endpoint role wrap)

/-- The state after `p` has stored to the ring, publishing `xs`. -/
def produced (s : Shm T) (p : ℤ) (out : Ring T × Producer T × List T) : Shm T :=
  { s with
    object := { s.object with ring := out.1 }
    published := s.published ++ out.2.2.map (Prod.mk p) }.set .producer p (.bound out.2.1)

/-- The state after a step of the consumer `p`. -/
def consumed (s : Shm T) (p : ℤ) (out : Ring T × Consumer T × List T) : Shm T :=
  { s with
    object := { s.object with ring := out.1 }
    released := s.released ++ out.2.2.map (Prod.mk p) }.set .consumer p (.bound out.2.1)

/-- `detach`, the compare-exchange of the own pid with `-1`. -/
def detached (s : Shm T) (role : Role) (p : ℤ) : Shm T :=
  { s with object := if s.object.pid role = p then s.object.setPid role (-1) else s.object }.set
    role p (.absent none)

/-- `p` dies. Nothing it has in the object changes. -/
def died (s : Shm T) (p : ℤ) : Shm T :=
  { s with
    dead := Function.update s.dead p true
    changes := fun role =>
      if (s.endpoint role p).holds then s.changes role + 1 else s.changes role }

/-- One step. -/
def step (S : Setup) (s : Shm T) : ShmAct T → Option (Shm T)
  | .create ans =>
    match s.endpoint S.role S.creator with
    | .creating pc =>
      if s.live S.creator && s.admits ans pc.probed then
        some (s.after S.role S.creator .creating (createStep S s.object ans pc))
      else none
    | _ => none
  | .attach role p A =>
    match s.endpoint role p with
    | .absent _ =>
      if s.live p then some (s.set role p (.attaching (s.changes role) (.opening A))) else none
    | _ => none
  | .attachStep role p ans =>
    match s.endpoint role p with
    | .attaching since pc =>
      if s.live p && s.admits ans pc.probed then
        some (s.after role p (.attaching since) (attachStep S.name role p s.object ans pc))
      else none
    | _ => none
  | .produce p a =>
    match s.endpoint .producer p with
    | .bound w => if s.live p then (w.act s.object.ring a).map (s.produced p) else none
    | _ => none
  | .consume p a =>
    match s.endpoint .consumer p with
    | .bound w => if s.live p then (w.act s.object.ring a).map (s.consumed p) else none
    | _ => none
  | .detach role p =>
    match s.endpoint role p with
    | .bound w => if s.live p && Worker.idle role w then some (s.detached role p) else none
    | _ => none
  | .die p => if s.live p then some (s.died p) else none

/-- The object right after the creator's `shm_open` : zero-filled, its slots reading as
`slots`, nobody attached. -/
def opened (S : Setup) (slots : ℕ → T) : Shm T where
  object := ⟨0, .zero, 0, 0, 0, ⟨0, 0, slots⟩⟩
  published := []
  released := []
  changes := fun _ => 0
  endpoint := fun role p =>
    if role = S.role ∧ p = S.creator then .creating .ftruncate else .absent none
  dead := fun _ => false

/-! ## What a step does -/

/-- The steps, case by case. -/
inductive Steps (S : Setup) (s : Shm T) : ShmAct T → Shm T → Prop
  | create {ans : Answers} {pc : CreatePc} (at_ : s.endpoint S.role S.creator = .creating pc)
      (alive : s.live S.creator) (answers : s.admits ans pc.probed) :
      Steps S s (.create ans) (s.after S.role S.creator .creating (createStep S s.object ans pc))
  | attach {role : Role} {p : ℤ} {A : Layout} {thrown : Option Exception}
      (at_ : s.endpoint role p = .absent thrown) (alive : s.live p) :
      Steps S s (.attach role p A) (s.set role p (.attaching (s.changes role) (.opening A)))
  | attachStep {role : Role} {p : ℤ} {ans : Answers} {since : ℕ} {pc : AttachPc}
      (at_ : s.endpoint role p = .attaching since pc) (alive : s.live p)
      (answers : s.admits ans pc.probed) :
      Steps S s (.attachStep role p ans)
        (s.after role p (.attaching since) (attachStep S.name role p s.object ans pc))
  | produce {p : ℤ} {a : PushAct T} {w : Producer T} {out : Ring T × Producer T × List T}
      (at_ : s.endpoint .producer p = .bound w) (alive : s.live p)
      (act : w.act s.object.ring a = some out) : Steps S s (.produce p a) (s.produced p out)
  | consume {p : ℤ} {a : PopAct} {w : Consumer T} {out : Ring T × Consumer T × List T}
      (at_ : s.endpoint .consumer p = .bound w) (alive : s.live p)
      (act : w.act s.object.ring a = some out) : Steps S s (.consume p a) (s.consumed p out)
  | detach {role : Role} {p : ℤ} {w : Worker T role} (at_ : s.endpoint role p = .bound w)
      (alive : s.live p) (idle : Worker.idle role w) :
      Steps S s (.detach role p) (s.detached role p)
  | die {p : ℤ} (alive : s.live p) : Steps S s (.die p) (s.died p)

theorem steps_of_step {S : Setup} {s s' : Shm T} {a : ShmAct T} (h : step S s a = some s') :
    Steps S s a s' := by
  cases a with
  | create ans =>
    simp only [step] at h
    split at h
    next pc hpc =>
      split_ifs at h with hguard
      rw [Bool.and_eq_true] at hguard
      cases h
      exact .create hpc hguard.1 hguard.2
    next => cases h
  | attach role p A =>
    simp only [step] at h
    split at h
    next thrown hpc =>
      split_ifs at h with hguard
      cases h
      exact .attach hpc hguard
    next => cases h
  | attachStep role p ans =>
    simp only [step] at h
    split at h
    next since pc hpc =>
      split_ifs at h with hguard
      rw [Bool.and_eq_true] at hguard
      cases h
      exact .attachStep hpc hguard.1 hguard.2
    next => cases h
  | produce p a =>
    simp only [step] at h
    split at h
    next w hpc =>
      split_ifs at h with hguard
      obtain ⟨out, hact, rfl⟩ := Option.map_eq_some_iff.mp h
      exact .produce hpc hguard hact
    next => cases h
  | consume p a =>
    simp only [step] at h
    split at h
    next w hpc =>
      split_ifs at h with hguard
      obtain ⟨out, hact, rfl⟩ := Option.map_eq_some_iff.mp h
      exact .consume hpc hguard hact
    next => cases h
  | detach role p =>
    simp only [step] at h
    split at h
    next w hpc =>
      split_ifs at h with hguard
      rw [Bool.and_eq_true] at hguard
      cases h
      exact .detach hpc hguard.1 hguard.2
    next => cases h
  | die p =>
    simp only [step] at h
    split_ifs at h with hguard
    cases h
    exact .die hguard

/-! ## Endpoints and lives after a step -/

section Api

variable {s : Shm T} {role role' : Role} {p q : ℤ} {e : Endpoint (Worker T role)}

@[simp] theorem set_object : (s.set role p e).object = s.object := rfl

@[simp] theorem set_published : (s.set role p e).published = s.published := rfl

@[simp] theorem set_released : (s.set role p e).released = s.released := rfl

@[simp] theorem set_live : (s.set role p e).live q = s.live q := rfl

@[simp] theorem endpoint_set_self : (s.set role p e).endpoint role p = e := by
  simp [set]

theorem endpoint_set_of_ne_pid (h : q ≠ p) :
    (s.set role p e).endpoint role q = s.endpoint role q := by
  simp [set, h]

theorem endpoint_set_of_ne_role (h : role' ≠ role) :
    (s.set role p e).endpoint role' = s.endpoint role' := by
  simp [set, h]

/-- What holds of the new endpoint and of every other one holds of all of them. -/
theorem forall_endpoint_set {Q : (role : Role) → ℤ → Endpoint (Worker T role) → Prop}
    (self : Q role p e)
    (others : ∀ role' q, ¬(role' = role ∧ q = p) → Q role' q (s.endpoint role' q)) :
    ∀ role' q, Q role' q ((s.set role p e).endpoint role' q) := by
  intro role' q
  by_cases hrole : role' = role
  · subst hrole
    by_cases hq : q = p
    · subst hq
      rwa [endpoint_set_self]
    · rw [endpoint_set_of_ne_pid hq]
      exact others _ _ fun h => hq h.2
  · rw [endpoint_set_of_ne_role hrole]
    exact others _ _ fun h => hrole h.1

theorem pos_of_live (h : s.live p) : 0 < p := by
  simp only [live, Bool.and_eq_true, decide_eq_true_eq] at h
  exact h.1

@[simp] theorem live_died : (s.died p).live q ↔ s.live q ∧ q ≠ p := by
  by_cases hq : q = p <;> simp [live, died, hq]

/-- A live process does not probe as dead. -/
theorem processAlive_of_live {ans : Answers} (hadm : s.admits ans (some q))
    (hq : s.live q) : processAlive ans.kill q := by
  simp only [admits, hq, Bool.true_and, Bool.not_eq_true', beq_eq_false_iff_ne] at hadm
  exact processAlive_of_ne (pos_of_live hq) hadm

end Api

end Shm

end ShmSpsc
