import ShmSpsc.Handover

/-!
# Crash recovery

A process that attaches in a role only after the last holder of the role is gone samples
indices that nobody stores to until it claims (`Shm.Fresh`), so its claim is safe. In the
runs whose claims are all made that way (`Shm.freshClaim`) a death loses what its operation
had not published, delivers again what it had not released, and touches nothing else
(`Shm.recovery`).
-/

namespace ShmSpsc

open Transition OwnerWord

variable {T : Type*}

/-- The elements that the consumer has copied and not released. -/
def Consumer.copied (q : Consumer T) : List T :=
  match q.pc with
  | .popLoad b => b.copied.toList
  | .popAssert b _ => b.copied.toList
  | .popStore b _ => b.copied.toList
  | .popNCopy _ _ dst => dst
  | .popNStore _ _ dst => dst
  | _ => if q.held = none then [] else q.peeked.toList

/-- They are the oldest ones. -/
theorem Consumer.Inv.oldest_copied {c : Capacity} {ring : Ring T} {log : Log T} {q : Consumer T}
    (hring : ring.Holds c log) (hq : q.Inv c ring log) : log.Oldest q.copied := by
  have none : log.Oldest [] := by simpa [Log.Oldest] using hring.fifo
  have copy {o : Option T} (ho : ∀ x, o = some x → log.Oldest [x]) : log.Oldest o.toList := by
    cases o with
    | none => exact none
    | some x => exact ho x rfl
  obtain ⟨handle, held, peeked, pc⟩ := q
  obtain ⟨hcap, hpc, hheld, hpeeked⟩ := hq
  have peek : log.Oldest (if held = .none then [] else peeked.toList) := by
    split_ifs with h
    · exact none
    · exact copy fun x => hpeeked x h
  cases pc with
  | popLoad b => exact copy hpc.2
  | popAssert b r => exact copy hpc.2.2
  | popStore b r => exact copy hpc.2.2
  | popNCopy r count dst => exact hpc.2.2.2
  | popNStore r count dst => exact hpc.2.2.2
  | _ => exact peek

/-! ## Fresh samples -/

/-- What `bind` has sampled is good as a cache. -/
def BindPc.Fresh (c : Capacity) (log : Log T) : Role → BindPc → Prop
  | .producer, .loadWriteIdx _ r => ReadCache c log r 0
  | .producer, .loadPid h => ReadCache c log h.readIdxCache 0
  | .producer, .test h _ => ReadCache c log h.readIdxCache 0
  | .producer, .cas h _ => ReadCache c log h.readIdxCache 0
  | .consumer, .loadPid h => WriteCache c log h.writeIdxCache 0
  | .consumer, .test h _ => WriteCache c log h.writeIdxCache 0
  | .consumer, .cas h _ => WriteCache c log h.writeIdxCache 0
  | _, _ => True

section Fresh

variable {c : Capacity} {ring : Ring T} {log : Log T} {h : Handle}

theorem BindPc.Fresh.release {b : BindPc} (h : b.Fresh c log .producer) (xs : List T) :
    b.Fresh c (log.release xs) .producer := by
  cases b with
  | loadWriteIdx capacity r => exact ReadCache.release h xs
  | loadPid handle => exact ReadCache.release h xs
  | test handle expected => exact ReadCache.release h xs
  | cas handle expected => exact ReadCache.release h xs
  | _ => trivial

theorem BindPc.Fresh.publish {b : BindPc} (h : b.Fresh c log .consumer) (xs : List T) :
    b.Fresh c (log.publish xs) .consumer := by
  cases b with
  | loadPid handle => exact WriteCache.publish h xs
  | test handle expected => exact WriteCache.publish h xs
  | cas handle expected => exact WriteCache.publish h xs
  | _ => trivial

/-- A cache errs on the safe side. -/
theorem Ring.sampledSafely_of_fresh (hring : ring.Holds c log) (hcap : h.capacity = c.slots)
    {expected : ℤ} {role : Role} (hfresh : (BindPc.cas h expected).Fresh c log role) :
    ring.sampledSafely role h := by
  have hle := hring.le
  have hroom := hring.room
  cases role with
  | producer =>
    obtain ⟨C, hcache, hC, hC'⟩ := hfresh
    simp only [Ring.sampledSafely, hcap, decide_eq_true_eq, UInt64.le_iff_toNat_le]
    rw [toNat_freeSlots c hring.write hring.read hle hroom,
      toNat_freeSlots c hring.write hcache (by omega) (by omega)]
    omega
  | consumer =>
    obtain ⟨D, hcache, hD, hD'⟩ := hfresh
    simp only [Ring.sampledSafely, hcap, decide_eq_true_eq, UInt64.le_iff_toNat_le]
    rw [toNat_usedSlots c hring.write hring.read hle hroom,
      toNat_usedSlots c hcache hring.read (by omega) (by omega)]
    omega

/-- `bind` keeps its sample fresh. -/
theorem BindPc.Fresh.bind {o : Object T} {role : Role} {p : ℤ} {ans : Answers} {b b' : BindPc}
    (hring : o.ring.Holds c log) (h : b.Fresh c log role)
    (hnext : (bindStep role p o ans b).2 = .more b') : b'.Fresh c log role := by
  cases b with
  | loadCapacity =>
    cases hnext
    cases role <;> trivial
  | loadReadIdx capacity =>
    cases hnext
    cases role with
    | producer => exact ReadCache.of_load hring hring.room
    | consumer => trivial
  | loadWriteIdx capacity r =>
    cases hnext
    cases role with
    | producer => exact h
    | consumer => exact WriteCache.of_load hring hring.le
  | loadPid handle =>
    cases hnext
    cases role <;> exact h
  | test handle expected =>
    simp only [bindStep] at hnext
    split_ifs at hnext
    cases hnext
    cases role <;> exact h
  | cas handle expected =>
    simp only [bindStep] at hnext
    split_ifs at hnext
    cases hnext
    cases role <;> exact h

end Fresh

namespace Shm

variable {S : Setup} {c : Capacity} {s s' t : Shm T} {a : ShmAct T} {role role' : Role} {p q : ℤ}
  {e : Endpoint (Worker T role)}

/-- If the step claims a role, nobody has held the role since the attach started. -/
def freshClaim (s : Shm T) (a : ShmAct T) : Bool :=
  match s.claiming a with
  | some (role, since, _) => since == s.changes role
  | none => true

/-- No live process holds the role. -/
def Vacant (s : Shm T) (role : Role) : Prop :=
  ∀ q, s.live q → (s.endpoint role q).holds = false

/-- An attach that started after the last change of its role has a fresh sample, as long as
nobody holds the role. -/
structure Fresh (c : Capacity) (s : Shm T) : Prop where
  since : ∀ role p since pc, s.endpoint role p = .attaching since pc → since ≤ s.changes role
  sample : ∀ role p since b, s.endpoint role p = .attaching since (.binding b) →
    since = s.changes role → s.Vacant role → b.Fresh c s.log role

/-! ## How often a role changed hands -/

theorem changes_set_of_ne (h : role' ≠ role) :
    (s.set role p e).changes role' = s.changes role' := by
  simp [set, h]

theorem changes_set_self : (s.set role p e).changes role =
    if (s.endpoint role p).holds = e.holds then s.changes role else s.changes role + 1 := by
  simp [set]

theorem le_changes_set : s.changes role' ≤ (s.set role p e).changes role' := by
  by_cases h : role' = role
  · subst h
    rw [changes_set_self]
    split_ifs <;> omega
  · rw [changes_set_of_ne h]

/-- Who holds a role that did not change hands. -/
theorem holds_set (h : (s.set role p e).changes role' = s.changes role') :
    ((s.set role p e).endpoint role' q).holds = (s.endpoint role' q).holds := by
  by_cases hrole : role' = role
  · subst hrole
    rw [changes_set_self] at h
    by_cases hq : q = p
    · subst hq
      rw [endpoint_set_self]
      split_ifs at h with hholds
      · exact hholds.symm
      · omega
    · rw [endpoint_set_of_ne_pid hq]
  · rw [endpoint_set_of_ne_role hrole]

/-- Every step but a death moves one endpoint. -/
theorem set_of_step (h : step S s a = some s') :
    (∃ p, s' = s.died p) ∨ ∃ (t : Shm T) (role : Role) (p : ℤ) (e : Endpoint (Worker T role)),
      s' = t.set role p e ∧ t.endpoint = s.endpoint ∧ t.changes = s.changes ∧ t.dead = s.dead := by
  cases steps_of_step h with
  | die alive => exact .inl ⟨_, rfl⟩
  | _ => exact .inr ⟨_, _, _, _, rfl, rfl, rfl, rfl⟩

theorem le_changes_step (h : step S s a = some s') : s.changes role ≤ s'.changes role := by
  rcases set_of_step h with ⟨p, rfl⟩ | ⟨t, role', p, e, rfl, -, hch, -⟩
  · simp only [died]
    split_ifs <;> omega
  · rw [← hch]
    exact le_changes_set

/-- A role that is vacant and did not change hands was vacant. -/
theorem vacant_of_step (h : step S s a = some s') (hch : s'.changes role = s.changes role)
    (hvac : s'.Vacant role) : s.Vacant role := by
  intro q hq
  rcases set_of_step h with ⟨p, rfl⟩ | ⟨t, role', p, e, rfl, hend, hch', hdead⟩
  · by_cases hqp : q = p
    · subst hqp
      simp only [died] at hch
      split_ifs at hch with hholds
      · omega
      · exact Bool.eq_false_iff.mpr hholds
    · exact hvac q (live_died.mpr ⟨hq, hqp⟩)
  · have hlive : t.live q := by simpa [live, hdead] using hq
    rw [← hend, ← holds_set (hch.trans (congrFun hch' role).symm)]
    exact hvac q hlive

/-! ## Every step keeps samples fresh -/

/-- An endpoint that did not move keeps its fresh sample. -/
theorem Fresh.keep (h : Fresh c s) (hstep : step S s a = some s') {since : ℕ} {b : BindPc}
    (hat : s.endpoint role p = .attaching since (.binding b)) (hsince : since = s'.changes role)
    (hvac : s'.Vacant role) : b.Fresh c s.log role := by
  have hle := h.since role p since _ hat
  have hch : s.changes role ≤ s'.changes role := le_changes_step hstep
  exact h.sample role p since b hat (by omega) (vacant_of_step hstep (by omega) hvac)

theorem fresh_opened (S : Setup) (c : Capacity) (slots : ℕ → T) : Fresh c (opened S slots) := by
  refine ⟨fun role p since pc hat => ?_, fun role p since b hat => ?_⟩
  all_goals
    simp only [opened] at hat
    split_ifs at hat

/-- A step that moves one endpoint, and publishes or releases only what leaves the samples
of a vacant role fresh. -/
theorem Fresh.move (h : Fresh c s) (hstep : step S s a = some (t.set role p e))
    (ht : t.endpoint = s.endpoint)
    (hlog : ∀ role' (b : BindPc), (t.set role p e).Vacant role' → b.Fresh c s.log role' →
      b.Fresh c t.log role')
    (hsince : ∀ since pc, e = .attaching since pc → since ≤ s.changes role)
    (hsample : ∀ since b, e = .attaching since (.binding b) →
      since = (t.set role p e).changes role → (t.set role p e).Vacant role →
      b.Fresh c t.log role) : Fresh c (t.set role p e) := by
  constructor
  · refine forall_endpoint_set (Q := fun role' q e' => ∀ since pc, e' = .attaching since pc →
      since ≤ (t.set role p e).changes role') (fun since pc he => ?_)
      fun role' q _ since pc hat => ?_
    · exact (hsince since pc he).trans (le_changes_step hstep)
    · rw [ht] at hat
      exact (h.since role' q since pc hat).trans (le_changes_step hstep)
  · refine forall_endpoint_set (Q := fun role' q e' => ∀ since b,
      e' = .attaching since (.binding b) → since = (t.set role p e).changes role' →
      (t.set role p e).Vacant role' → b.Fresh c t.log role') hsample ?_
    intro role' q _ since b hat hch hvac
    rw [ht] at hat
    exact hlog role' b hvac (h.keep hstep hat hch hvac)

/-- A step of `attach`. -/
theorem Fresh.attach (h : Fresh c s) (hring : s.object.ring.Holds c s.log) {ans : Answers}
    {since : ℕ} {pc : AttachPc} (hat : s.endpoint role p = .attaching since pc)
    (hstep : step S s (.attachStep role p ans) =
      some (s.after role p (.attaching since) (attachStep S.name role p s.object ans pc))) :
    Fresh c (s.after role p (.attaching since) (attachStep S.name role p s.object ans pc)) := by
  have hle := h.since role p since pc hat
  refine h.move hstep rfl (fun _ _ _ hb => hb) (fun since' pc' he => ?_)
    fun since' b' he hch hvac => ?_
  · cases hout : (attachStep S.name role p s.object ans pc).2 <;> rw [hout] at he <;> cases he
    exact hle
  · have hmore : (attachStep S.name role p s.object ans pc).2 = .more (.binding b') ∧
        since' = since := by
      cases hout : (attachStep S.name role p s.object ans pc).2 <;> rw [hout] at he <;> cases he
      exact ⟨rfl, rfl⟩
    obtain ⟨hmore, rfl⟩ := hmore
    cases pc with
    | opening A =>
      simp only [attachStep] at hmore
      split at hmore
      · cases hmore
      · split_ifs at hmore
        cases hmore
    | readyCheck A lastAttempt mapped =>
      simp only [attachStep] at hmore
      split_ifs at hmore <;> cases hmore
    | validating A mapped =>
      simp only [attachStep] at hmore
      split at hmore
      · cases hmore
        cases role <;> trivial
      · cases hmore
    | binding b =>
      have hnext : (bindStep role p s.object ans b).2 = .more b' := by
        simp only [attachStep] at hmore
        split at hmore
        next hb =>
          cases hmore
          rw [hb]
        next => cases hmore
        next => cases hmore
      exact (h.keep hstep hat hch hvac).bind hring hnext

/-- Every step keeps samples fresh. -/
theorem fresh_step (hring : s.object.ring.Holds c s.log) (h : Fresh c s)
    (hstep : step S s a = some s') : Fresh c s' := by
  cases steps_of_step hstep with
  | create at_ alive answers =>
    refine h.move hstep rfl (fun _ _ _ hb => hb) (fun since pc he => ?_) fun since b he => ?_
    all_goals
      revert he
      cases (createStep S s.object _ _).2 <;> simp [Outcome.endpoint]
  | attach at_ alive =>
    refine h.move hstep rfl (fun _ _ _ hb => hb) ?_ ?_
    · rintro since pc ⟨⟩
      exact le_rfl
    · rintro since b ⟨⟩
  | attachStep at_ alive answers => exact h.attach hring at_ hstep
  | @produce p a w out at_ alive act =>
    refine h.move hstep rfl (fun role' b hvac hb => ?_) (by simp) (by simp)
    cases role' with
    | producer =>
      have := hvac p alive
      rw [endpoint_set_self] at this
      cases this
    | consumer => exact (log_produced (s := s) (p := p) out) ▸ hb.publish out.2.2
  | @consume p a w out at_ alive act =>
    refine h.move hstep rfl (fun role' b hvac hb => ?_) (by simp) (by simp)
    cases role' with
    | producer => exact (log_consumed (s := s) (p := p) out) ▸ hb.release out.2.2
    | consumer =>
      have := hvac p alive
      rw [endpoint_set_self] at this
      cases this
  | detach at_ alive idle => exact h.move hstep rfl (fun _ _ _ hb => hb) (by simp) (by simp)
  | die alive =>
    exact ⟨fun role q since pc hat => (h.since role q since pc hat).trans (le_changes_step hstep),
      fun role q since b hat hch hvac => h.keep hstep hat hch hvac⟩

/-! ## Recovery -/

theorem claiming_eq_some {since : ℕ} {h : Handle} (hclaim : s.claiming a = some (role, since, h)) :
    ∃ p ans, a = .attachStep role p ans ∧
      s.endpoint role p = .attaching since (.binding (.cas h (s.object.pid role))) := by
  cases a with
  | attachStep role' p ans =>
    simp only [claiming] at hclaim
    split at hclaim
    next since' h' expected hat =>
      split_ifs at hclaim with hcas
      cases hclaim
      exact ⟨p, ans, rfl, by rw [hat, hcas.1]⟩
    next => cases hclaim
  | _ => cases hclaim

/-- A claim that nobody came before is safe. -/
theorem safeClaim_of_freshClaim (hsound : Sound S c s) (h : Fresh c s)
    (hstep : step S s a = some s') (hfresh : s.freshClaim a) : s.safeClaim a := by
  unfold safeClaim
  cases hclaim : s.claiming a with
  | none => rfl
  | some claim =>
    obtain ⟨role, since, handle⟩ := claim
    simp only [freshClaim, hclaim, beq_iff_eq] at hfresh
    obtain ⟨p, ans, rfl, hat⟩ := claiming_eq_some hclaim
    cases steps_of_step hstep with
    | attachStep at_ alive answers =>
      have hexcl := hsound.exclusive role
      have hgone := (hexcl.claiming p _ alive (by simp only [seat, hat]; rfl)).2
      have hvac : s.Vacant role := by
        intro q hq
        refine Bool.eq_false_iff.mpr fun hholds => hgone ?_
        have hpid : s.object.pid role = q := hexcl.slot q hq hholds
        rw [hpid]
        exact hq
      have hcap := hsound.intact.endpoint role p alive
      rw [hat] at hcap
      exact Ring.sampledSafely_of_fresh hsound.intact.ring hcap.1
        (h.sample role p since _ hat hfresh hvac)

theorem sound_of_reaches (hc : S.geometry.capacity = c.slots) {slots : ℕ → T}
    (run : Reaches (step S) (fun s a => s.freshClaim a) (opened S slots) s) : Sound S c s := by
  have hinv : Sound S c s ∧ Fresh c s := by
    refine run.invariant (I := fun s => Sound S c s ∧ Fresh c s)
      ⟨sound_opened S c slots, fresh_opened S c slots⟩ ?_
    rintro s a s' ⟨hsound, hfresh⟩ hclaim hstep
    exact ⟨sound_step hc hsound (safeClaim_of_freshClaim hsound hfresh hstep hclaim) hstep,
      fresh_step hsound.intact.ring hfresh hstep⟩
  exact hinv.1

/-- The elements a run adds to the history are not of a process that is dead. -/
theorem history_of_reaches {ok : Shm T → ShmAct T → Prop} (run : Reaches (step S) ok s t)
    (hdead : s.dead p) :
    t.dead p ∧ ∃ ys zs, t.published = s.published ++ ys ∧ t.released = s.released ++ zs ∧
      (∀ y ∈ ys, y.1 ≠ p) ∧ ∀ z ∈ zs, z.1 ≠ p := by
  induction run with
  | refl => exact ⟨hdead, [], [], by simp⟩
  | @tail t t' a run met next ih =>
    obtain ⟨hdead, ys, zs, hys, hzs, hy, hz⟩ := ih
    have alive_ne {q : ℤ} (hq : t.live q) : q ≠ p := by
      rintro rfl
      simp [live, hdead] at hq
    cases steps_of_step next with
    | @produce q a w out at_ alive act =>
      refine ⟨hdead, ys ++ out.2.2.map (Prod.mk q), zs, ?_, hzs, ?_, hz⟩
      · simp [produced, hys]
      · simp only [List.mem_append, List.mem_map]
        rintro y (h | ⟨x, -, rfl⟩)
        · exact hy y h
        · exact alive_ne alive
    | @consume q a w out at_ alive act =>
      refine ⟨hdead, ys, zs ++ out.2.2.map (Prod.mk q), hys, ?_, hy, ?_⟩
      · simp [consumed, hzs]
      · simp only [List.mem_append, List.mem_map]
        rintro z (h | ⟨x, -, rfl⟩)
        · exact hz z h
        · exact alive_ne alive
    | die alive =>
      refine ⟨?_, ys, zs, hys, hzs, hy, hz⟩
      simp only [died, Function.update_apply]
      split_ifs
      · rfl
      · exact hdead
    | _ => exact ⟨hdead, ys, zs, hys, hzs, hy, hz⟩

/-- Crash recovery. Process `p` dies at any point of a run, and the run goes on; every attach
that claims a role started after the role was last given up. The death changes neither the
ring nor what was published and released. From then on elements of other processes only are
published, behind the last published one, and released; what was published is at any time
what was released and then the contents of the ring, so the elements of the operation that
`p` had not published are lost and nothing else is. And what a dead consumer had copied and
not released is what is released next, in its order. -/
theorem recovery (S : Setup)
    (hcreate : create S.layout S.name S.requested S.calls = .ok S.geometry) (slots : ℕ → T)
    {s s' t : Shm T} {p : ℤ}
    (run : Reaches (step S) (fun s a => s.freshClaim a) (opened S slots) s)
    (death : step S s (.die p) = some s')
    (rest : Reaches (step S) (fun s a => s.freshClaim a) s' t) :
    s'.object = s.object ∧ s'.published = s.published ∧ s'.released = s.released ∧
      t.published.map Prod.snd =
        t.released.map Prod.snd ++ t.object.ring.contents S.geometry.capacity ∧
      ∃ ys zs, t.published = s.published ++ ys ∧ t.released = s.released ++ zs ∧
        (∀ y ∈ ys, y.1 ≠ p) ∧ (∀ z ∈ zs, z.1 ≠ p) ∧
        ∀ q, s.endpoint .consumer p = .bound q →
          zs.map Prod.snd <+: q.copied ∨ q.copied <+: zs.map Prod.snd := by
  have hs : Sound S (.ofCreate hcreate) s := sound_of_reaches rfl run
  have ht : Sound S (.ofCreate hcreate) t :=
    sound_of_reaches rfl ((run.tail rfl death).trans rest)
  cases steps_of_step death with
  | die alive =>
    obtain ⟨-, ys, zs, hys, hzs, hy, hz⟩ := history_of_reaches rest (p := p) (by simp [died])
    refine ⟨rfl, rfl, rfl, ht.intact.ring.published_eq, ys, zs, hys, hzs, hy, hz, fun q hq => ?_⟩
    have hend := hs.intact.endpoint .consumer p alive
    rw [hq] at hend
    have hcopied : s.released.map Prod.snd ++ q.copied <+: t.published.map Prod.snd := by
      rw [hys, List.map_append]
      exact (Consumer.Inv.oldest_copied hs.intact.ring hend).trans (List.prefix_append _ _)
    have hreleased : s.released.map Prod.snd ++ zs.map Prod.snd <+: t.published.map Prod.snd := by
      rw [← List.map_append]
      exact hzs ▸ ht.intact.ring.fifo
    rcases List.prefix_or_prefix_of_prefix hreleased hcopied with h | h
    · exact .inl ((List.prefix_append_right_inj _).mp h)
    · exact .inr ((List.prefix_append_right_inj _).mp h)

/-- Consumer `2` has copied the element that process `1` has pushed. -/
def copiedRun : List (ShmAct ℕ) :=
  List.replicate 20 (ShmAct.create .plain) ++
    ShmAct.attach .consumer 2 messageLayout ::
      List.replicate 9 (ShmAct.attachStep .consumer 2 .plain) ++
    ShmAct.produce 1 (.tryPush 7) :: List.replicate 4 (ShmAct.produce 1 .step) ++
    ShmAct.consume 2 .tryPop :: List.replicate 4 (ShmAct.consume 2 .step)

/-- Consumer `3` follows. -/
def redeliveryRun : List (ShmAct ℕ) :=
  ShmAct.attach .consumer 3 messageLayout ::
      List.replicate 9 (ShmAct.attachStep .consumer 3 .gone) ++
    ShmAct.consume 3 .tryPop :: List.replicate 6 (ShmAct.consume 3 .step)

theorem recovery_redeliveryRun :
    ∃ s s' t : Shm ℕ, step messageSetup s (.die 2) = some s' ∧
      Reaches (step messageSetup) (fun s a => s.freshClaim a) s' t ∧
      s.released = [] ∧ t.released = [(3, 7)] ∧
      t.published.map Prod.snd = t.released.map Prod.snd ++ t.object.ring.contents 2 := by
  have hrun : ((exec (step messageSetup) (fun s a => s.freshClaim a)
      (opened messageSetup fun _ => 0) copiedRun).bind fun s =>
        (step messageSetup s (.die 2)).bind fun s' =>
          (exec (step messageSetup) (fun s a => s.freshClaim a) s' redeliveryRun).map fun t =>
            (s.released, t.released)) = some ([], [(3, 7)]) := by decide +kernel
  obtain ⟨s, hs, hrun⟩ := Option.bind_eq_some_iff.mp hrun
  obtain ⟨s', death, hrun⟩ := Option.bind_eq_some_iff.mp hrun
  obtain ⟨t, ht, hview⟩ := Option.map_eq_some_iff.mp hrun
  simp only [Prod.mk.injEq] at hview
  have rest := Reaches.of_exec ht
  have h := recovery messageSetup (by decide) _ (Reaches.of_exec hs) death rest
  exact ⟨s, s', t, death, rest, hview.1, hview.2, h.2.2.2.1⟩

end Shm

end ShmSpsc
