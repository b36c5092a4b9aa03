import ShmSpsc.Creator
import ShmSpsc.Recovery

/-!
# The loop of `bind`

Past the load of the role's pid, `bind` tests what it has read and tries to replace it, until it
binds or throws. `Contest.step` follows this loop of one process `p` in one role along the steps of
all processes : the compare-exchanges it has made and those that failed spuriously, the changes of
the role when it loaded the pid, and who has held the role since.

`Contest.lock_free` : every compare-exchange is paid for by a spurious failure or by a change of
the role. `Contest.refused_by_holder` : `attach` is turned away only by a live process that has
held the role since the load.
-/

namespace ShmSpsc

open Transition OwnerWord

variable {T : Type*}

/-! ## The steps of `bind` -/

/-- The step of `bind` that an endpoint is before. -/
def Endpoint.bindPc {H : Type*} : Endpoint H → Option BindPc
  | .creating (.binding b) => some b
  | .attaching _ (.binding b) => some b
  | _ => none

/-- The pid that the loop of `bind` has read. -/
def Endpoint.expected {H : Type*} (e : Endpoint H) : Option ℤ :=
  match e.attempt with
  | .testing q => some q
  | .claiming q => some q
  | .none => none

namespace Shm

/-- The step of `bind` that `a` is, of `p` in `role`. -/
def bindAct (S : Setup) (s : Shm T) (role : Role) (p : ℤ) : ShmAct T → Option (Answers × BindPc)
  | .create ans =>
    if role = S.role ∧ p = S.creator then (s.endpoint role p).bindPc.map (ans, ·) else none
  | .attachStep role' p' ans =>
    if role' = role ∧ p' = p then (s.endpoint role p).bindPc.map (ans, ·) else none
  | _ => none

/-- `q` is alive and holds the role. -/
def held (s : Shm T) (role : Role) (q : ℤ) : Bool := s.live q && (s.endpoint role q).holds

end Shm

/-- The processes, and for the last `bind` of one of them in one role : the changes of the role
at its load of the pid, and since then its compare-exchanges, those of them that failed
spuriously, and who has held the role. -/
structure Contest (T : Type*) where
  base : Shm T
  since : ℕ
  rounds : ℕ
  spurious : ℕ
  seen : ℤ → Bool

namespace Contest

/-- The processes have moved to `base`, with this step of `bind`. -/
def next (s : Contest T) (role : Role) (base : Shm T) : Option (Answers × BindPc) → Contest T
  | some (_, .loadPid _) => ⟨base, base.changes role, 0, 0, base.held role⟩
  | some (ans, .cas _ expected) =>
    { base := base
      since := s.since
      rounds := s.rounds + 1
      spurious := if s.base.object.pid role = expected ∧ ans.spurious then s.spurious + 1
                  else s.spurious
      seen := fun q => s.seen q || base.held role q }
  | _ => { s with base := base, seen := fun q => s.seen q || base.held role q }

/-- One step of the processes, seen by the `bind` of `p` in `role`. -/
def step (S : Setup) (role : Role) (p : ℤ) (s : Contest T) (a : ShmAct T) : Option (Contest T) :=
  (s.base.step S a).map fun base => s.next role base (s.base.bindAct S role p a)

/-- The object right after the creator's `shm_open`. -/
def opened (S : Setup) (slots : ℕ → T) : Contest T := ⟨.opened S slots, 0, 0, 0, fun _ => false⟩

end Contest

/-! ## What a step does to the loop -/

namespace Shm

variable {S : Setup} {s s' : Shm T} {a : ShmAct T} {role : Role} {p : ℤ}

/-- From `s` to `s'` the process `p`, which does not hold the role, has taken a step of `bind`, to
the endpoint `e`. -/
structure Binds (s s' : Shm T) (role : Role) (p : ℤ) (ans : Answers) (b : BindPc)
    (e : Endpoint (Worker T role)) : Prop where
  attempt : (s.endpoint role p).attempt = b.attempt
  free : (s.endpoint role p).holds = false
  moved : s' = { s with object := (bindStep role p s.object ans b).1 }.set role p e
  endpoint : (bindStep role p s.object ans b).2.Binds e

section Binds

variable {ans : Answers} {b : BindPc} {e : Endpoint (Worker T role)}

theorem Binds.at_eq (h : Binds s s' role p ans b e) : s'.endpoint role p = e := by
  rw [h.moved, endpoint_set_self]

theorem Binds.object_eq (h : Binds s s' role p ans b e) :
    s'.object = (bindStep role p s.object ans b).1 := by
  rw [h.moved, set_object]

end Binds

theorem binds_create (ans : Answers) {b : BindPc}
    (hat : s.endpoint S.role S.creator = .creating (.binding b)) :
    ∃ e, Binds s (s.after S.role S.creator .creating (createStep S s.object ans (.binding b)))
      S.role S.creator ans b e := by
  suffices h : ∃ e : Endpoint (Worker T S.role),
      s.after S.role S.creator .creating (createStep S s.object ans (.binding b)) =
        { s with object := (bindStep S.role S.creator s.object ans b).1 }.set S.role S.creator e ∧
      (bindStep S.role S.creator s.object ans b).2.Binds e by
    obtain ⟨e, hmoved, hbinds⟩ := h
    exact ⟨e, by rw [hat]; rfl, by rw [hat]; rfl, hmoved, hbinds⟩
  simp only [after, createStep]
  generalize bindStep S.role S.creator s.object ans b = out
  obtain ⟨o, out⟩ := out
  cases out <;> exact ⟨_, rfl, rfl, rfl⟩

theorem binds_attach (name : String) (ans : Answers) {since : ℕ} {b : BindPc}
    (hat : s.endpoint role p = .attaching since (.binding b)) :
    ∃ e, Binds s (s.after role p (.attaching since) (attachStep name role p s.object ans
      (.binding b))) role p ans b e := by
  suffices h : ∃ e : Endpoint (Worker T role),
      s.after role p (.attaching since) (attachStep name role p s.object ans (.binding b)) =
        { s with object := (bindStep role p s.object ans b).1 }.set role p e ∧
      (bindStep role p s.object ans b).2.Binds e by
    obtain ⟨e, hmoved, hbinds⟩ := h
    exact ⟨e, by rw [hat]; rfl, by rw [hat]; rfl, hmoved, hbinds⟩
  simp only [after, attachStep]
  generalize bindStep role p s.object ans b = out
  obtain ⟨o, out⟩ := out
  cases out <;> exact ⟨_, rfl, rfl, rfl⟩

/-- Outside `bind`, `attach` stores nothing and tests no pid. -/
theorem attachStep_quiet (name : String) (role : Role) (p : ℤ) (o : Object T) (ans : Answers)
    (since : ℕ) {pc : AttachPc} (hpc : ∀ b, pc ≠ .binding b) :
    (attachStep name role p o ans pc).1 = o ∧
      ((attachStep name role p o ans pc).2.endpoint (T := T) role (.attaching since)).attempt =
        .none := by
  cases pc with
  | opening A =>
    simp only [attachStep]
    split
    · exact ⟨rfl, rfl⟩
    · split_ifs <;> exact ⟨rfl, rfl⟩
  | readyCheck A lastAttempt mapped =>
    simp only [attachStep]
    split_ifs <;> exact ⟨rfl, rfl⟩
  | validating A mapped =>
    simp only [attachStep]
    split <;> exact ⟨rfl, rfl⟩
  | binding b => exact absurd rfl (hpc b)

/-- A step of `bind` is one of `create` or `attach`. -/
theorem binds_of_bindAct {ans : Answers} {b : BindPc} (h : step S s a = some s')
    (hbind : s.bindAct S role p a = some (ans, b)) : ∃ e, Binds s s' role p ans b e := by
  cases steps_of_step h with
  | @create ans' pc at_ alive answers =>
    simp only [bindAct] at hbind
    split_ifs at hbind with hself
    obtain ⟨rfl, rfl⟩ := hself
    rw [at_] at hbind
    cases pc with
    | binding b' =>
      obtain ⟨rfl, rfl⟩ : ans' = ans ∧ b' = b := by simpa [Endpoint.bindPc] using hbind
      exact binds_create _ at_
    | _ => simp [Endpoint.bindPc] at hbind
  | @attachStep role' p' ans' since pc at_ alive answers =>
    simp only [bindAct] at hbind
    split_ifs at hbind with hself
    obtain ⟨rfl, rfl⟩ := hself
    rw [at_] at hbind
    cases pc with
    | binding b' =>
      obtain ⟨rfl, rfl⟩ : ans' = ans ∧ b' = b := by simpa [Endpoint.bindPc] using hbind
      exact binds_attach _ _ at_
    | _ => simp [Endpoint.bindPc] at hbind
  | _ => simp [bindAct] at hbind

/-- Every other step leaves the endpoint, or leaves it outside the loop of `bind`. -/
theorem endpoint_of_bindAct (hphase : Phase S s) (h : step S s a = some s')
    (hbind : s.bindAct S role p a = none) :
    s'.endpoint role p = s.endpoint role p ∨ (s'.endpoint role p).attempt = .none := by
  -- An endpoint that some other process moves, or that moves outside `bind`.
  have moved {t : Shm T} {role' : Role} {p' : ℤ} {e : Endpoint (Worker T role')}
      (ht : t.endpoint = s.endpoint) (he : role' = role → p' = p → e.attempt = .none) :
      (t.set role' p' e).endpoint role p = s.endpoint role p ∨
        ((t.set role' p' e).endpoint role p).attempt = .none := by
    by_cases hrole : role' = role
    · subst hrole
      by_cases hp : p' = p
      · subst hp
        rw [endpoint_set_self]
        exact .inr (he rfl rfl)
      · rw [endpoint_set_of_ne_pid (Ne.symm hp), ht]
        exact .inl rfl
    · rw [endpoint_set_of_ne_role (Ne.symm hrole), ht]
      exact .inl rfl
  cases steps_of_step h with
  | @create ans pc at_ alive answers =>
    refine moved rfl ?_
    rintro rfl rfl
    have hstage := hphase.endpoint S.role S.creator
    rw [at_] at hstage
    refine (createStep_quiet ans hstage.2.2 ?_).2.2
    rintro b rfl
    simp [bindAct, at_, Endpoint.bindPc] at hbind
  | attach at_ alive => exact moved rfl fun _ _ => rfl
  | @attachStep role' p' ans since pc at_ alive answers =>
    refine moved rfl ?_
    rintro rfl rfl
    refine (attachStep_quiet S.name role' p' s.object ans since ?_).2
    rintro b rfl
    simp [bindAct, at_, Endpoint.bindPc] at hbind
  | produce at_ alive act => exact moved rfl fun _ _ => rfl
  | consume at_ alive act => exact moved rfl fun _ _ => rfl
  | detach at_ alive idle => exact moved rfl fun _ _ => rfl
  | die alive => exact .inl rfl

/-- An endpoint that comes to hold its role, or holds it no more, is a change of the role. -/
theorem changes_lt_set {e : Endpoint (Worker T role)} (h : (s.endpoint role p).holds ≠ e.holds) :
    s.changes role < (s.set role p e).changes role := by
  rw [changes_set_self, if_neg h]
  exact Nat.lt_succ_self _

/-- `bind` stores to the slot only when it takes the role. -/
theorem changes_lt_of_binds {role' : Role} {ans : Answers} {b : BindPc}
    {e : Endpoint (Worker T role')} (h : Binds s s' role' p ans b e)
    (hne : s'.object.pid role ≠ s.object.pid role) : s.changes role < s'.changes role := by
  obtain ⟨-, hfree, rfl, hbinds⟩ := h
  by_cases hrole : role = role'
  · subst hrole
    have hkeep := bindStep_unbound role p s.object ans b
    generalize bindStep role p s.object ans b = out at hne hbinds hkeep ⊢
    obtain ⟨o, out⟩ := out
    cases out with
    | more b' => exact absurd (congrArg (Object.pid · role) (hkeep (by simp))) hne
    | bound h =>
      refine changes_lt_set (s := { s with object := o }) ?_
      show (s.endpoint role p).holds ≠ e.holds
      rw [hfree, hbinds.2]
      exact Bool.false_ne_true
    | threw e' => exact absurd (congrArg (Object.pid · role) (hkeep (by simp))) hne
  · exact absurd (pid_bindStep_of_ne hrole) hne

/-- The slot of a role changes only when the role changes hands. -/
theorem changes_lt_of_pid_ne (hphase : Phase S s) (h : step S s a = some s')
    (hne : s'.object.pid role ≠ s.object.pid role) : s.changes role < s'.changes role := by
  cases steps_of_step h with
  | @create ans pc at_ alive answers =>
    by_cases hpc : ∃ b, pc = .binding b
    · obtain ⟨b, rfl⟩ := hpc
      obtain ⟨e, hbinds⟩ := binds_create ans at_
      exact changes_lt_of_binds hbinds hne
    · have hstage := hphase.endpoint S.role S.creator
      rw [at_] at hstage
      have hquiet := createStep_quiet ans hstage.2.2 fun b hb => hpc ⟨b, hb⟩
      exact absurd (hquiet.1 role) hne
  | attach at_ alive => exact absurd rfl hne
  | @attachStep role' p' ans since pc at_ alive answers =>
    by_cases hpc : ∃ b, pc = .binding b
    · obtain ⟨b, rfl⟩ := hpc
      obtain ⟨e, hbinds⟩ := binds_attach S.name ans at_
      exact changes_lt_of_binds hbinds hne
    · have hquiet := attachStep_quiet S.name role' p' s.object ans since fun b hb => hpc ⟨b, hb⟩
      exact absurd (congrArg (Object.pid · role) hquiet.1) hne
  | produce at_ alive act => exact absurd rfl hne
  | consume at_ alive act => exact absurd rfl hne
  | @detach role' p' w at_ alive idle =>
    by_cases hrole : role = role'
    · subst hrole
      refine changes_lt_set ?_
      show (s.endpoint role p').holds ≠ _
      rw [at_]
      exact Bool.false_ne_true.symm
    · refine absurd ?_ hne
      simp only [detached, set_object]
      split_ifs
      · exact Object.pid_setPid_of_ne _ _ hrole
      · rfl
  | die alive => exact absurd rfl hne

end Shm

/-! ## The loop along a run -/

namespace Contest

variable {S : Setup} {role : Role} {p : ℤ} {s s' : Contest T} {a : ShmAct T}

/-- What holds along every run. If the pid that the loop has read is not in the slot any more, the
role has changed since, and nothing has been charged to that change yet; if it is that of a live
process, that process held the role when the loop read it. -/
structure Inv (S : Setup) (role : Role) (p : ℤ) (s : Contest T) : Prop where
  phase : Shm.Phase S s.base
  exclusive : Exclusive (s.base.seat role)
  paid : s.rounds + s.since ≤ s.base.changes role + s.spurious
  behind : ∀ q, (s.base.endpoint role p).expected = some q → q ≠ s.base.object.pid role →
    s.rounds + s.since < s.base.changes role + s.spurious
  seen : ∀ q, (s.base.endpoint role p).expected = some q → s.base.live q → s.seen q

theorem inv_opened (S : Setup) (role : Role) (p : ℤ) (slots : ℕ → T) :
    Inv S role p (opened S slots) := by
  have hout (q : ℤ) : ((opened S slots).base.endpoint role p).expected ≠ some q := by
    simp only [opened, Shm.opened]
    split_ifs <;> simp [Endpoint.expected, Endpoint.attempt]
  exact ⟨Shm.phase_opened S slots, Shm.exclusive_opened S slots role, le_rfl,
    fun q hq => absurd hq (hout q), fun q hq => absurd hq (hout q)⟩

@[simp] theorem next_base (base : Shm T) (b : Option (Answers × BindPc)) :
    (s.next role base b).base = base := by
  unfold next
  split <;> rfl

/-- What was paid for stays paid for. -/
theorem Inv.paid_step {base : Shm T} (h : Inv S role p s) (hstep : s.base.step S a = some base) :
    s.rounds + s.since ≤ base.changes role + s.spurious :=
  h.paid.trans (Nat.add_le_add_right (Shm.le_changes_step hstep) _)

/-- A step that is none of the loop. -/
theorem inv_other {base : Shm T} (h : Inv S role p s) (hstep : s.base.step S a = some base)
    (hbind : s.base.bindAct S role p a = none) : Inv S role p (s.next role base none) := by
  have hle : s.base.changes role ≤ base.changes role := Shm.le_changes_step hstep
  have back {q : ℤ} (hq : (base.endpoint role p).expected = some q) :
      (s.base.endpoint role p).expected = some q := by
    rcases Shm.endpoint_of_bindAct h.phase hstep hbind with heq | hnone
    · rwa [heq] at hq
    · simp [Endpoint.expected, hnone] at hq
  refine ⟨Shm.phase_step h.phase hstep, Shm.exclusive_step h.phase h.exclusive hstep,
    h.paid_step hstep, fun q hq hne => ?_, fun q hq hlive => ?_⟩
  · show s.rounds + s.since < base.changes role + s.spurious
    have hpaid := h.paid
    by_cases hpid : q = s.base.object.pid role
    · have hlt := Shm.changes_lt_of_pid_ne h.phase hstep (hpid ▸ Ne.symm hne)
      omega
    · have hlt := h.behind q (back hq) hpid
      omega
  · have hseen := h.seen q (back hq) (Shm.live_of_step hstep hlive)
    simp [next, hseen]

/-- A step of `bind` after which the loop has just read the slot. -/
theorem inv_read (phase : Shm.Phase S s.base) (exclusive : Exclusive (s.base.seat role))
    (paid : s.rounds + s.since ≤ s.base.changes role + s.spurious)
    (hread : (s.base.endpoint role p).attempt = .testing (s.base.object.pid role))
    (hseen : ∀ q, s.base.held role q → s.seen q) : Inv S role p s := by
  have hq {q : ℤ} (hq : (s.base.endpoint role p).expected = some q) :
      q = s.base.object.pid role := by
    simpa [Endpoint.expected, hread, eq_comm] using hq
  refine ⟨phase, exclusive, paid, fun q hat hne => absurd (hq hat) hne, fun q hat hlive => ?_⟩
  have hholds : (s.base.endpoint role q).holds := exclusive.owner q hlive (hq hat).symm
  exact hseen q (by simp [Shm.held, hlive, hholds])

/-- A step of `bind` after which it is not in its loop. -/
theorem inv_outside (phase : Shm.Phase S s.base) (exclusive : Exclusive (s.base.seat role))
    (paid : s.rounds + s.since ≤ s.base.changes role + s.spurious)
    (hout : (s.base.endpoint role p).attempt = .none) : Inv S role p s := by
  have hne (q : ℤ) : (s.base.endpoint role p).expected ≠ some q := by
    simp [Endpoint.expected, hout]
  exact ⟨phase, exclusive, paid, fun q hq => absurd hq (hne q), fun q hq => absurd hq (hne q)⟩

section Bind

variable {base : Shm T} {ans : Answers} {handle : Handle} {expected : ℤ}
  {e : Endpoint (Worker T role)}

/-- The load of the pid. -/
theorem inv_load (h : Inv S role p s) (hstep : s.base.step S a = some base)
    (hbinds : Shm.Binds s.base base role p ans (.loadPid handle) e) :
    Inv S role p (s.next role base (some (ans, .loadPid handle))) := by
  refine inv_read (Shm.phase_step h.phase hstep)
    (Shm.exclusive_step h.phase h.exclusive hstep) (by simp [next]) ?_ fun q hq => hq
  show (base.endpoint role p).attempt = .testing (base.object.pid role)
  rw [hbinds.at_eq, hbinds.object_eq]
  exact hbinds.endpoint.1

/-- The test of the pid, which leaves the slot. -/
theorem inv_test (h : Inv S role p s) (hstep : s.base.step S a = some base)
    (hbinds : Shm.Binds s.base base role p ans (.test handle expected) e) :
    Inv S role p (s.next role base (some (ans, .test handle expected))) := by
  have hphase := Shm.phase_step h.phase hstep
  have hexcl := Shm.exclusive_step h.phase h.exclusive hstep
  have hle : s.base.changes role ≤ base.changes role := Shm.le_changes_step hstep
  have hpaid := h.paid_step hstep
  have hobject := hbinds.object_eq
  have hend := hbinds.endpoint
  simp only [bindStep] at hend hobject
  split_ifs at hend hobject with hself hlive
  · exact inv_outside hphase hexcl hpaid (hbinds.at_eq ▸ hend.1)
  · exact inv_outside hphase hexcl hpaid (hbinds.at_eq ▸ hend.1)
  · -- The loop goes on with the pid that it has tested.
    have hat : (base.endpoint role p).expected = (s.base.endpoint role p).expected := by
      simp [Endpoint.expected, hbinds.at_eq, hend.1, hbinds.attempt, BindPc.attempt]
    have hpid : base.object.pid role = s.base.object.pid role :=
      congrArg (Object.pid · role) hobject
    refine ⟨hphase, hexcl, hpaid, fun q hq hne => ?_, fun q hq hlive => ?_⟩
    · have hlt := h.behind q (hat ▸ hq) fun hq => hne (hq.trans hpid.symm)
      simp only [next]
      omega
    · have hseen := h.seen q (hat ▸ hq) (Shm.live_of_step hstep hlive)
      simp [next, hseen]

/-- The compare-exchange : it takes the role, has failed spuriously, or finds a pid that some
change has stored since the last look at the slot. -/
theorem inv_cas (h : Inv S role p s) (hstep : s.base.step S a = some base)
    (hbinds : Shm.Binds s.base base role p ans (.cas handle expected) e) :
    Inv S role p (s.next role base (some (ans, .cas handle expected))) := by
  have hphase := Shm.phase_step h.phase hstep
  have hexcl := Shm.exclusive_step h.phase h.exclusive hstep
  have hpaid := h.paid
  have hle : s.base.changes role ≤ base.changes role := Shm.le_changes_step hstep
  have hobject := hbinds.object_eq
  have hend := hbinds.endpoint
  simp only [bindStep] at hend hobject
  split_ifs at hend hobject with hcas
  · refine inv_outside hphase hexcl ?_ (hbinds.at_eq ▸ hend.1)
    have htaken : s.base.changes role < base.changes role := by
      rw [hbinds.moved]
      refine Shm.changes_lt_set ?_
      show (s.base.endpoint role p).holds ≠ e.holds
      rw [hbinds.free, hend.2]
      exact Bool.false_ne_true
    simp only [next, hcas.2, Bool.false_eq_true, and_false, if_false]
    omega
  · refine inv_read hphase hexcl ?_ ?_ fun q hq => ?_
    · by_cases hpid : s.base.object.pid role = expected
      · have hspurious : ans.spurious = true := by simpa [hpid] using hcas
        simp only [next, hpid, hspurious, and_self, if_true]
        omega
      · have hat : (s.base.endpoint role p).expected = some expected := by
          simp [Endpoint.expected, hbinds.attempt, BindPc.attempt]
        have hlt := h.behind expected hat (Ne.symm hpid)
        simp only [next, hpid, false_and, if_false]
        omega
    · show (base.endpoint role p).attempt = .testing (base.object.pid role)
      rw [hbinds.at_eq, hobject]
      exact hend.1
    · have hq : base.held role q := hq
      simp [next, hq]

end Bind

/-- A step of `bind`. -/
theorem inv_bind {base : Shm T} {ans : Answers} {b : BindPc} {e : Endpoint (Worker T role)}
    (h : Inv S role p s) (hstep : s.base.step S a = some base)
    (hbinds : Shm.Binds s.base base role p ans b e) :
    Inv S role p (s.next role base (some (ans, b))) := by
  have hphase := Shm.phase_step h.phase hstep
  have hexcl := Shm.exclusive_step h.phase h.exclusive hstep
  have hpaid := h.paid_step hstep
  cases b with
  | loadCapacity => exact inv_outside hphase hexcl hpaid (hbinds.at_eq ▸ hbinds.endpoint.1)
  | loadReadIdx capacity =>
    exact inv_outside hphase hexcl hpaid (hbinds.at_eq ▸ hbinds.endpoint.1)
  | loadWriteIdx capacity r =>
    exact inv_outside hphase hexcl hpaid (hbinds.at_eq ▸ hbinds.endpoint.1)
  | loadPid handle => exact inv_load h hstep hbinds
  | test handle expected => exact inv_test h hstep hbinds
  | cas handle expected => exact inv_cas h hstep hbinds

theorem inv_step (h : Inv S role p s) (hstep : step S role p s a = some s') :
    Inv S role p s' := by
  obtain ⟨base, hbase, rfl⟩ := Option.map_eq_some_iff.mp hstep
  cases hbind : s.base.bindAct S role p a with
  | none => exact inv_other h hbase hbind
  | some step =>
    obtain ⟨e, hbinds⟩ := Shm.binds_of_bindAct hbase hbind
    exact inv_bind h hbase hbinds

theorem inv_of_reachable {slots : ℕ → T} (run : Reachable (step S role p) (opened S slots) s) :
    Inv S role p s :=
  run.invariant (I := Inv S role p) (inv_opened S role p slots)
    fun _ _ _ h _ hstep => inv_step h hstep

/-- The loop of `bind` is lock-free. In every run, the compare-exchanges that `p` has made since
it loaded the pid of its role are at most the changes of the role since then, by `p` itself or by
another process that took it, gave it up or died, and the compare-exchanges that failed
spuriously. -/
theorem lock_free {slots : ℕ → T} (run : Reachable (step S role p) (opened S slots) s) :
    s.rounds + s.since ≤ s.base.changes role + s.spurious :=
  (inv_of_reachable run).paid

/-- The creator dies, and `2` and `3` find it gone; the compare-exchange of `2` fails spuriously,
and once more after that of `3`. -/
def contestRun : List (ShmAct ℕ) :=
  [List.replicate 20 (ShmAct.create .plain), [.die 1, .attach .producer 2 messageLayout],
    List.replicate 8 (.attachStep .producer 2 .gone),
    [.attachStep .producer 2 { Answers.gone with spurious := true },
      .attachStep .producer 2 .gone, .attach .producer 3 messageLayout],
    List.replicate 9 (.attachStep .producer 3 .gone),
    [.attachStep .producer 2 .plain]].flatten

theorem lock_free_contestRun :
    ∃ s : Contest ℕ, Reachable (step messageSetup .producer 2)
        (opened messageSetup fun _ => 0) s ∧
      s.rounds = 2 ∧ s.spurious = 1 ∧ s.since + 1 ≤ s.base.changes .producer := by
  have hend : (exec (step messageSetup .producer 2) (fun _ _ => True)
      (opened messageSetup fun _ => 0) contestRun).map (fun s : Contest ℕ =>
        (s.rounds, s.spurious)) = some (2, 1) := by decide +kernel
  obtain ⟨s, hs, hview⟩ := Option.map_eq_some_iff.mp hend
  simp only [Prod.mk.injEq] at hview
  obtain ⟨hrounds, hspurious⟩ := hview
  have run := Reaches.of_exec hs
  have hpaid := lock_free run
  exact ⟨s, run, hrounds, hspurious, by omega⟩

/-! ## A role that is refused -/

/-- A step of `bind` in `attach` throws only at the test of a pid that is not its own and that
`kill` does not report as gone. -/
theorem threw_of_attach {base base' : Shm T} {ans : Answers} {n : ℕ} {b : BindPc} {e : Exception}
    (h : base.step S (.attachStep role p ans) = some base')
    (hat : base.endpoint role p = .attaching n (.binding b))
    (hend : base'.endpoint role p = .absent (some e)) :
    ∃ handle q, b = .test handle q ∧ q ≠ p ∧ processAlive ans.kill q ∧ e = liveConflict role q := by
  cases Shm.steps_of_step h with
  | @attachStep _ _ _ n' pc hat' alive answers =>
    obtain ⟨rfl, rfl⟩ := Endpoint.attaching.inj (hat.symm.trans hat')
    simp only [Shm.after, Shm.endpoint_set_self, attachStep] at hend
    cases b with
    | test handle q =>
      simp only [bindStep] at hend
      split_ifs at hend with hself hlive
      · cases hend
      · refine ⟨handle, q, rfl, hself, hlive.2, ?_⟩
        simpa [Outcome.endpoint, eq_comm] using hend
      · cases hend
    | cas handle q =>
      simp only [bindStep] at hend
      split_ifs at hend <;> cases hend
    | _ => cases hend

/-- A role that is refused was taken. When `bind` throws in an `attach` of `p`, and `kill` reports
only a live process as alive, its exception names another live process that has held the role, at
the load of the pid or later. -/
theorem refused_by_holder {slots : ℕ → T} {ans : Answers} {n : ℕ} {b : BindPc} {e : Exception}
    (run : Reachable (step S role p) (opened S slots) s)
    (hstep : step S role p s (.attachStep role p ans) = some s')
    (hat : s.base.endpoint role p = .attaching n (.binding b))
    (hend : s'.base.endpoint role p = .absent (some e))
    (htrue : ∀ q, b.probed = some q → processAlive ans.kill q → s.base.live q) :
    ∃ q, q ≠ p ∧ e = liveConflict role q ∧ s.base.live q ∧ s.seen q := by
  obtain ⟨base, hbase, rfl⟩ := Option.map_eq_some_iff.mp hstep
  rw [next_base] at hend
  obtain ⟨handle, q, rfl, hne, halive, rfl⟩ := threw_of_attach hbase hat hend
  have hlive := htrue q rfl halive
  refine ⟨q, hne, rfl, hlive, (inv_of_reachable run).seen q ?_ hlive⟩
  rw [hat]
  rfl

/-- The pid that an `attach` is about to test. -/
def testing (s : Contest T) (role : Role) (p : ℤ) : Option ℤ :=
  match s.base.endpoint role p with
  | .attaching _ (.binding (.test _ q)) => some q
  | _ => none

/-- The exception that the last `attach` has ended with. -/
def thrown (s : Contest T) (role : Role) (p : ℤ) : Option Exception :=
  match s.base.endpoint role p with
  | .absent e => e
  | _ => none

theorem endpoint_of_testing {q : ℤ} (h : s.testing role p = some q) :
    ∃ n handle, s.base.endpoint role p = .attaching n (.binding (.test handle q)) := by
  unfold testing at h
  split at h
  next n handle q' hat =>
    obtain rfl := Option.some.inj h
    exact ⟨n, handle, hat⟩
  next => cases h

theorem endpoint_of_thrown {e : Exception} (h : s.thrown role p = some e) :
    s.base.endpoint role p = .absent (some e) := by
  unfold thrown at h
  split at h
  next e' hat => rw [hat, h]
  next => cases h

/-- Process `2` is refused by `3`, which took the role after it had found the creator gone. -/
theorem refused_by_holder_contestRun :
    ∃ (s s' : Contest ℕ) (q : ℤ), Reachable (step messageSetup .producer 2)
        (opened messageSetup fun _ => 0) s ∧
      step messageSetup .producer 2 s (.attachStep .producer 2 .plain) = some s' ∧
      s'.thrown .producer 2 = some (liveConflict .producer 3) ∧
      q ≠ 2 ∧ liveConflict .producer 3 = liveConflict .producer q ∧ s.seen q := by
  have hrun : (exec (step messageSetup .producer 2) (fun _ _ => True)
      (opened messageSetup fun _ => 0) contestRun).map (fun s : Contest ℕ =>
        (s.base.live 3, s.testing .producer 2,
          (step messageSetup .producer 2 s (.attachStep .producer 2 .plain)).map
            (·.thrown .producer 2))) =
      some (true, some 3, some (some (liveConflict .producer 3))) := by decide +kernel
  obtain ⟨s, hs, hview⟩ := Option.map_eq_some_iff.mp hrun
  simp only [Prod.mk.injEq] at hview
  obtain ⟨hlive, htesting, hnext⟩ := hview
  obtain ⟨s', hstep, hthrown⟩ := Option.map_eq_some_iff.mp hnext
  obtain ⟨n, handle, hat⟩ := endpoint_of_testing htesting
  have run := Reaches.of_exec hs
  obtain ⟨q, hne, heq, -, hseen⟩ := refused_by_holder run hstep hat (endpoint_of_thrown hthrown) (by
    rintro q hq -
    obtain rfl : 3 = q := by simpa [BindPc.probed] using hq
    exact hlive)
  exact ⟨s, s', q, run, hstep, hthrown, hne, heq, hseen⟩

end Contest

end ShmSpsc
