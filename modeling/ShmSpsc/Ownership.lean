import ShmSpsc.OwnerWord
import ShmSpsc.Publication

/-!
# Roles are exclusive

The pid slot of a role is a word that names its owner : `Shm.seat` reads the slot, the lives
and the endpoints of a role as a state of `OwnerWord`, and every step of every process is a
step there or changes nothing (`Shm.simulates`). So in every reachable state at most one
live process has a bound handle in a role, and the slot holds its pid
(`Shm.role_exclusive`).
-/

namespace ShmSpsc

open Transition OwnerWord

variable {T : Type*}

/-- Where `bind` is with its claim of the slot. -/
def BindPc.attempt : BindPc → Attempt ℤ
  | .test _ expected => .testing expected
  | .cas _ expected => .claiming expected
  | _ => .none

/-- Where an endpoint is with its claim of the slot. -/
def Endpoint.attempt {H : Type*} : Endpoint H → Attempt ℤ
  | .creating (.binding b) => b.attempt
  | .attaching _ (.binding b) => b.attempt
  | _ => .none

/-- What `bind` makes of an endpoint. -/
def Outcome.Binds {H : Type*} (e : Endpoint H) : Outcome BindPc → Prop
  | .more b => e.attempt = b.attempt ∧ e.holds = false
  | .bound _ => e.attempt = .none ∧ e.holds = true
  | .threw _ => e.attempt = .none ∧ e.holds = false

/-! ## `bind` and the word -/

/-- The word and the claims after a step of `bind` in process `p` that has left `word`. -/
def Outcome.seat (σ : State ℤ) (p word : ℤ) : Outcome BindPc → State ℤ
  | .more b => σ.try p b.attempt
  | .bound _ => { σ with word := word }.own p True
  | .threw _ => σ.try p .none

/-- `bind` stores to the own role's slot only. -/
theorem pid_bindStep_of_ne {role role' : Role} {p : ℤ} {o : Object T} {ans : Answers}
    {b : BindPc} (h : role' ≠ role) : (bindStep role p o ans b).1.pid role' = o.pid role' := by
  rcases bindStep_object role p o ans b with heq | heq
  · rw [heq]
  · rw [heq, o.pid_setPid_of_ne p h]

/-- A step of `bind` is a step of the word, if the probe takes nobody alive for gone. -/
theorem step_bindStep {σ : State ℤ} {role : Role} {p : ℤ} {o : Object T} (ans : Answers)
    {b : BindPc} (alive : σ.alive p) (word : σ.word = o.pid role) (at_ : σ.attempt p = b.attempt)
    (answers : ∀ e, b.probed = some e → σ.alive e → 0 < e ∧ processAlive ans.kill e) :
    Step σ ((bindStep role p o ans b).2.seat σ p ((bindStep role p o ans b).1.pid role)) := by
  have load : Step σ (σ.try p (.testing (o.pid role))) := word ▸ .load alive
  cases b with
  | loadCapacity => exact .abandon
  | loadReadIdx capacity => exact .abandon
  | loadWriteIdx capacity r => exact .abandon
  | loadPid h => exact load
  | test h expected =>
    simp only [bindStep]
    split_ifs with hself hlive
    · subst hself
      have hown := Step.resume alive at_
      rwa [← word]
    · exact .abandon
    · exact .judge alive at_ hself fun hgone => hlive (answers expected rfl hgone)
  | cas h expected =>
    simp only [bindStep]
    split_ifs with hcas
    · rw [← hcas.1, ← word] at at_
      simpa only [Object.pid_setPid_self, Outcome.seat] using Step.claim alive at_
    · exact load

namespace Shm

variable {S : Setup} {s s' : Shm T} {a : ShmAct T} {role role' : Role} {p : ℤ}
  {e : Endpoint (Worker T role)}

/-- The slot of `role`, and everybody's claim of it. -/
def seat (s : Shm T) (role : Role) : State ℤ where
  word := s.object.pid role
  alive p := s.live p
  owns p := (s.endpoint role p).holds
  attempt p := (s.endpoint role p).attempt

/-! ## The seat after a step -/

theorem seat_set_try (he : e.holds = (s.endpoint role p).holds) :
    (s.set role p e).seat role = (s.seat role).try p e.attempt := by
  simp only [seat, State.try, set_object, set_live, State.mk.injEq, true_and]
  constructor
  · funext q
    by_cases hq : q = p
    · subst hq
      rw [endpoint_set_self, he]
    · rw [endpoint_set_of_ne_pid hq]
  · funext q
    by_cases hq : q = p
    · subst hq
      rw [endpoint_set_self, Function.update_self]
    · rw [endpoint_set_of_ne_pid hq, Function.update_of_ne hq]

theorem seat_set_own {b : Prop} (he : e.attempt = .none) (hb : e.holds ↔ b) :
    (s.set role p e).seat role = (s.seat role).own p b := by
  simp only [seat, State.own, State.try, set_object, set_live, State.mk.injEq, true_and]
  constructor
  · funext q
    by_cases hq : q = p
    · subst hq
      rw [endpoint_set_self, Function.update_self, hb]
    · rw [endpoint_set_of_ne_pid hq, Function.update_of_ne hq]
  · funext q
    by_cases hq : q = p
    · subst hq
      rw [endpoint_set_self, Function.update_self, he]
    · rw [endpoint_set_of_ne_pid hq, Function.update_of_ne hq]

theorem seat_setPid (v : ℤ) : ({ s with object := s.object.setPid role v } : Shm T).seat role =
    { s.seat role with word := v } := by
  simp only [seat, Object.pid_setPid_self]
  rfl

theorem seat_set_of_ne (h : role' ≠ role) : (s.set role p e).seat role' = s.seat role' := by
  simp only [seat, set_object, set_live, endpoint_set_of_ne_role h]

/-- A step that stores to no pid slot and neither takes nor gives up the role. -/
theorem seat_quiet {t : Shm T} (ht : ∀ role, t.seat role = s.seat role)
    (he : e.holds = (t.endpoint role p).holds) (hattempt : e.attempt = .none) (role' : Role) :
    Relation.ReflGen Step (s.seat role') ((t.set role p e).seat role') := by
  by_cases h : role' = role
  · subst h
    rw [seat_set_try he, hattempt, ht]
    exact .single .abandon
  · rw [seat_set_of_ne h, ht]

/-- A step of `bind` is a step of the word. -/
theorem seat_bind {ans : Answers} {b : BindPc} (alive : s.live p)
    (answers : s.admits ans b.probed) (hat : (s.endpoint role p).attempt = b.attempt)
    (hholds : (s.endpoint role p).holds = false)
    (he : (bindStep role p s.object ans b).2.Binds e) :
    Step (s.seat role)
      (({ s with object := (bindStep role p s.object ans b).1 }.set role p e).seat role) := by
  have hstep := step_bindStep (σ := s.seat role) (o := s.object) ans alive rfl hat
    fun e hprobed he => ⟨pos_of_live he, processAlive_of_live (hprobed ▸ answers) he⟩
  have hkeep := bindStep_unbound role p s.object ans b
  generalize bindStep role p s.object ans b = out at he hstep hkeep ⊢
  obtain ⟨o, out⟩ := out
  cases out with
  | more b' =>
    obtain rfl : o = s.object := hkeep (by simp)
    rwa [seat_set_try (he.2.trans hholds.symm), he.1]
  | bound h =>
    rw [seat_set_own he.1 (iff_true_intro he.2)]
    exact hstep
  | threw e' =>
    obtain rfl : o = s.object := hkeep (by simp)
    rwa [seat_set_try (he.2.trans hholds.symm), he.1]

/-- A store to the slot of one role leaves the seat of the other. -/
theorem seat_setPid_of_ne (h : role' ≠ role) (v : ℤ) :
    ({ s with object := s.object.setPid role v } : Shm T).seat role' = s.seat role' := by
  simp only [seat, Object.pid_setPid_of_ne _ _ h]
  rfl

theorem seat_bindStep_of_ne (h : role' ≠ role) {ans : Answers} {b : BindPc} :
    ({ s with object := (bindStep role p s.object ans b).1 } : Shm T).seat role' =
      s.seat role' := by
  simp only [seat, pid_bindStep_of_ne h]
  rfl

/-- Both seats after a step of `bind`. -/
theorem seats_bind {ans : Answers} {b : BindPc} (alive : s.live p)
    (answers : s.admits ans b.probed) (hat : (s.endpoint role p).attempt = b.attempt)
    (hholds : (s.endpoint role p).holds = false)
    (he : (bindStep role p s.object ans b).2.Binds e) (role' : Role) :
    Relation.ReflGen Step (s.seat role')
      (({ s with object := (bindStep role p s.object ans b).1 }.set role p e).seat role') := by
  by_cases h : role' = role
  · subst h
    exact .single (seat_bind alive answers hat hholds he)
  · rw [seat_set_of_ne h, seat_bindStep_of_ne h]

/-- The steps of `create` outside `bind` store to no pid slot (`memset` clears them before
anybody can have claimed one) and neither take nor give up a role. -/
theorem createStep_quiet {o : Object T} (ans : Answers) {pc : CreatePc} (hstage : pc.Stage S o)
    (hpc : ∀ b, pc ≠ .binding b) :
    (∀ role, (createStep S o ans pc).1.pid role = o.pid role) ∧
      ((createStep S o ans pc).2.endpoint (T := T) S.role .creating).holds =
        (Endpoint.creating (H := Worker T S.role) pc).holds ∧
      ((createStep S o ans pc).2.endpoint (T := T) S.role .creating).attempt = .none := by
  cases pc with
  | ftruncate =>
    simp only [createStep]
    split <;> exact ⟨fun _ => rfl, rfl, rfl⟩
  | mmap =>
    simp only [createStep]
    split <;> exact ⟨fun _ => rfl, rfl, rfl⟩
  | memset =>
    refine ⟨fun role => ?_, rfl, rfl⟩
    have hzero : o.pid role = 0 := by
      by_cases hrole : role = S.role
      · rw [hrole]
        exact hstage.claim
      · exact hstage.peer role hrole
    rw [hzero]
    cases role <;> rfl
  | binding b => exact absurd rfl (hpc b)
  | _ => exact ⟨fun _ => rfl, rfl, rfl⟩

/-- A step of `create`. -/
theorem seats_create {ans : Answers} {pc : CreatePc} (hphase : Phase S s)
    (hat : s.endpoint S.role S.creator = .creating pc) (alive : s.live S.creator)
    (answers : s.admits ans pc.probed) (role' : Role) :
    Relation.ReflGen Step (s.seat role')
      ((s.after S.role S.creator .creating (createStep S s.object ans pc)).seat role') := by
  have hstage := hphase.endpoint S.role S.creator
  rw [hat] at hstage
  by_cases hpc : ∃ b, pc = .binding b
  · obtain ⟨b, rfl⟩ := hpc
    have hbind (e) := seats_bind (e := e) alive answers (by rw [hat]; rfl) (by rw [hat]; rfl)
    simp only [after, createStep]
    generalize bindStep S.role S.creator s.object ans b = out at hbind ⊢
    obtain ⟨o, out⟩ := out
    cases out with
    | more b' => exact hbind _ ⟨rfl, rfl⟩ role'
    | bound h => exact hbind _ ⟨rfl, rfl⟩ role'
    | threw e => exact hbind _ ⟨rfl, rfl⟩ role'
  · obtain ⟨hpid, hholds, hattempt⟩ :=
      createStep_quiet ans hstage.2.2 fun b hb => hpc ⟨b, hb⟩
    refine seat_quiet (fun role => ?_) (hholds.trans (by rw [← hat])) hattempt role'
    simp only [seat, hpid]
    rfl

/-- A step of `attach`. -/
theorem seats_attach {ans : Answers} {since : ℕ} {pc : AttachPc} (name : String)
    (hat : s.endpoint role p = .attaching since pc) (alive : s.live p)
    (answers : s.admits ans pc.probed) (role' : Role) :
    Relation.ReflGen Step (s.seat role')
      ((s.after role p (.attaching since) (attachStep name role p s.object ans pc)).seat
        role') := by
  have quiet {out : Outcome AttachPc}
      (hholds : (out.endpoint (T := T) role (.attaching since)).holds = false)
      (hattempt : (out.endpoint (T := T) role (.attaching since)).attempt = .none) :
      Relation.ReflGen Step (s.seat role')
        ((s.set role p (out.endpoint role (.attaching since))).seat role') :=
    seat_quiet (fun _ => rfl) (hholds.trans (by rw [hat]; rfl)) hattempt role'
  cases pc with
  | opening A =>
    simp only [attachStep]
    split
    · exact quiet rfl rfl
    · split_ifs <;> exact quiet rfl rfl
  | readyCheck A lastAttempt mapped =>
    simp only [attachStep]
    split_ifs <;> exact quiet rfl rfl
  | validating A mapped =>
    simp only [attachStep]
    split <;> exact quiet rfl rfl
  | binding b =>
    have hbind (e) := seats_bind (e := e) alive answers (by rw [hat]; rfl) (by rw [hat]; rfl)
    simp only [after, attachStep]
    generalize bindStep role p s.object ans b = out at hbind ⊢
    obtain ⟨o, out⟩ := out
    cases out with
    | more b' => exact hbind _ ⟨rfl, rfl⟩ role'
    | bound h => exact hbind _ ⟨rfl, rfl⟩ role'
    | threw e => exact hbind _ ⟨rfl, rfl⟩ role'

/-- `detach` releases the word. -/
theorem seats_detach (role' : Role) :
    Relation.ReflGen Step (s.seat role') ((s.detached role p).seat role') := by
  by_cases h : role' = role
  · subst h
    refine .single ?_
    have hfree : ¬(s.seat role').alive (-1) := fun halive => by
      have := pos_of_live halive
      omega
    have hrelease := Step.release (σ := s.seat role') (p := p) hfree
    rw [detached, seat_set_own rfl (b := False) (by simp [Endpoint.holds])]
    split_ifs with hpid
    · have hword : (s.seat role').word = p := hpid
      rw [seat_setPid]
      rwa [if_pos hword] at hrelease
    · have hword : (s.seat role').word ≠ p := hpid
      rwa [if_neg hword] at hrelease
  · rw [detached, seat_set_of_ne h]
    split_ifs
    · rw [seat_setPid_of_ne h]
    · rfl

/-- A death is a death at each seat. -/
theorem seats_die (role : Role) : Step (s.seat role) ((s.died p).seat role) := by
  have hseat : (s.died p).seat role =
      { s.seat role with alive := fun q => (s.seat role).alive q ∧ q ≠ p } := by
    simp only [seat, live_died]
    rfl
  rw [hseat]
  exact .die

/-- Every step is a step of each role's word, or leaves it. -/
theorem simulates (hphase : Phase S s) (h : step S s a = some s') (role : Role) :
    Relation.ReflGen Step (s.seat role) (s'.seat role) := by
  cases steps_of_step h with
  | create at_ alive answers => exact seats_create hphase at_ alive answers role
  | attach at_ alive => exact seat_quiet (fun _ => rfl) (by rw [at_]; rfl) rfl role
  | attachStep at_ alive answers => exact seats_attach S.name at_ alive answers role
  | produce at_ alive act =>
    refine seat_quiet (fun _ => rfl) ?_ rfl role
    exact (congrArg Endpoint.holds at_).symm
  | consume at_ alive act =>
    refine seat_quiet (fun _ => rfl) ?_ rfl role
    exact (congrArg Endpoint.holds at_).symm
  | detach at_ alive idle => exact seats_detach role
  | die alive => exact .single (seats_die role)

/-! ## Exclusion -/

theorem exclusive_opened (S : Setup) (slots : ℕ → T) (role : Role) :
    Exclusive ((opened S slots).seat role) := by
  refine .of_free (fun halive => ?_) (fun p => ?_) fun p => ?_
  · have hpos : 0 < (0 : ℤ) := by
      cases role <;> exact pos_of_live halive
    omega
  · simp only [seat, opened]
    split_ifs <;> simp [Endpoint.holds]
  · simp only [seat, opened]
    split_ifs <;> rfl

theorem exclusive_step (hphase : Phase S s) (hexcl : Exclusive (s.seat role))
    (h : step S s a = some s') : Exclusive (s'.seat role) := by
  rcases Relation.reflGen_iff .. |>.mp (simulates hphase h role) with heq | hstep
  · rwa [heq]
  · exact hexcl.step hstep

theorem exclusive_of_reachable {slots : ℕ → T} (run : Reachable (step S) (opened S slots) s)
    (role : Role) : Exclusive (s.seat role) := by
  have hinv : Phase S s ∧ Exclusive (s.seat role) := by
    refine run.invariant (I := fun s => Phase S s ∧ Exclusive (s.seat role))
      ⟨phase_opened S slots, exclusive_opened S slots role⟩ ?_
    rintro s a s' ⟨hphase, hexcl⟩ - h
    exact ⟨phase_step hphase h, exclusive_step hphase hexcl h⟩
  exact hinv.2

/-- Role exclusivity across processes. Whatever the processes do, and in whichever order
their steps in `bind` and `detach` and their deaths fall, at most one live process has a
bound handle in a role, and the role's pid slot holds its pid. -/
theorem role_exclusive (S : Setup) (slots : ℕ → T) {s : Shm T}
    (run : Reachable (step S) (opened S slots) s) (role : Role) :
    (∀ p q, s.live p → s.live q → (s.endpoint role p).holds → (s.endpoint role q).holds →
      p = q) ∧
    ∀ p, s.live p → (s.endpoint role p).holds → s.object.pid role = p := by
  have hexcl := exclusive_of_reachable run role
  exact ⟨fun p q hp hq => hexcl.unique hp hq, hexcl.slot⟩

/-- The creator dies; processes `2` and `3` both find it gone, and `3` is first. -/
def reclaimRun : List (ShmAct ℕ) :=
  List.replicate 20 (ShmAct.create .plain) ++ ShmAct.die 1 ::
    ShmAct.attach .producer 2 messageLayout ::
      List.replicate 8 (ShmAct.attachStep .producer 2 .gone) ++
    ShmAct.attach .producer 3 messageLayout ::
      List.replicate 9 (ShmAct.attachStep .producer 3 .gone) ++
    [ShmAct.attachStep .producer 2 .plain]

theorem role_exclusive_reclaimRun :
    ∃ s : Shm ℕ, Reachable (step messageSetup) (opened messageSetup fun _ => 0) s ∧
      (s.endpoint .producer 2).probed = some 3 ∧ s.object.pid .producer = 3 := by
  have hrun : (exec (step messageSetup) (fun _ _ => True) (opened messageSetup fun _ => 0)
      reclaimRun).map (fun s => (s.live 3, (s.endpoint .producer 3).holds,
        (s.endpoint .producer 2).probed)) = some (true, true, some 3) := by decide +kernel
  obtain ⟨s, hs, hview⟩ := Option.map_eq_some_iff.mp hrun
  simp only [Prod.mk.injEq] at hview
  obtain ⟨hlive, hholds, hprobed⟩ := hview
  have run := Reaches.of_exec hs
  exact ⟨s, run, hprobed, (role_exclusive messageSetup _ run .producer).2 3 hlive hholds⟩

end Shm

end ShmSpsc
