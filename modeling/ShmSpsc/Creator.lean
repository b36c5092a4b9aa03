import ShmSpsc.Ownership

/-!
# The creator's role

`create` claims its own role before it stores `ready`, so no other process can look at the
slot before it holds the creator's pid. `Shm.publication` puts this together with the phases
of the object : what a process that passes its check of `ready` finds, what no later step
changes, and that an attach in the creator's role is refused while the creator lives and has
not detached.
-/

namespace ShmSpsc

open Transition OwnerWord

variable {T : Type*}

/-- The action detaches `p` from `role`. -/
def ShmAct.detaches (role : Role) (p : ℤ) : ShmAct T → Bool
  | .detach role' q => role' = role && q = p
  | _ => false

namespace Shm

variable {S : Setup} {s s' : Shm T} {a : ShmAct T} {role : Role} {p : ℤ}

/-- A bound handle stays bound until it is detached. -/
theorem bound_of_step {w : Worker T role} (hat : s.endpoint role p = .bound w)
    (ha : a.detaches role p = false) (h : step S s a = some s') :
    ∃ w', s'.endpoint role p = .bound w' := by
  have keep {t : Shm T} {role' : Role} {q : ℤ} {e : Endpoint (Worker T role')}
      (ht : t.endpoint role p = s.endpoint role p) (hne : ¬(role = role' ∧ p = q)) :
      ∃ w', (t.set role' q e).endpoint role p = .bound w' := by
    refine ⟨w, ?_⟩
    by_cases hrole : role = role'
    · subst hrole
      rw [endpoint_set_of_ne_pid fun hq => hne ⟨rfl, hq⟩, ht, hat]
    · rw [endpoint_set_of_ne_role hrole, ht, hat]
  cases steps_of_step h with
  | create at_ alive answers =>
    refine keep rfl ?_
    rintro ⟨rfl, rfl⟩
    rw [hat] at at_
    cases at_
  | attach at_ alive =>
    refine keep rfl ?_
    rintro ⟨rfl, rfl⟩
    rw [hat] at at_
    cases at_
  | attachStep at_ alive answers =>
    refine keep rfl ?_
    rintro ⟨rfl, rfl⟩
    rw [hat] at at_
    cases at_
  | @produce q a w' out at_ alive act =>
    by_cases hq : role = .producer ∧ p = q
    · obtain ⟨rfl, rfl⟩ := hq
      exact ⟨out.2.1, endpoint_set_self⟩
    · exact keep rfl hq
  | @consume q a w' out at_ alive act =>
    by_cases hq : role = .consumer ∧ p = q
    · obtain ⟨rfl, rfl⟩ := hq
      exact ⟨out.2.1, endpoint_set_self⟩
    · exact keep rfl hq
  | detach at_ alive idle =>
    refine keep rfl ?_
    rintro ⟨rfl, rfl⟩
    simp [ShmAct.detaches] at ha
  | die alive => exact ⟨w, hat⟩

/-- Until `ready` is stored nobody but the creator has looked at a pid slot. -/
theorem Phase.undisputed (h : Phase S s) (hready : s.object.ready = 0) :
    Undisputed (s.seat S.role) S.creator := by
  intro q hq
  have hend := h.endpoint S.role q
  have hne : s.object.ready ≠ 1 := by rw [hready]; decide
  simp only [seat]
  cases hat : s.endpoint S.role q with
  | absent thrown => exact ⟨Bool.false_ne_true, .inl rfl⟩
  | creating pc =>
    rw [hat] at hend
    exact absurd hend.2.1 hq
  | attaching since pc =>
    rw [hat] at hend
    cases pc with
    | opening A => exact ⟨Bool.false_ne_true, .inl rfl⟩
    | readyCheck A lastAttempt mapped => exact ⟨Bool.false_ne_true, .inl rfl⟩
    | validating A mapped => exact absurd hend hne
    | binding b => exact absurd hend hne
  | bound w =>
    rw [hat] at hend
    exact absurd hend hne

/-- Once `ready` is stored, the live creator's handle is bound and nobody disputes its
role. -/
def Reserved (S : Setup) (s : Shm T) : Prop :=
  s.object.ready = 1 → s.live S.creator →
    (∃ w, s.endpoint S.role S.creator = .bound w) ∧ Undisputed (s.seat S.role) S.creator

theorem Phase.ready_eq (h : Phase S s) (hne : s.object.ready ≠ 1) : s.object.ready = 0 := by
  rcases h.ready with h | h
  · exact h
  · exact absurd h.1 hne

theorem live_of_step (h : step S s a = some s') (hlive : s'.live p) : s.live p := by
  cases steps_of_step h with
  | die alive => exact (live_died.mp hlive).1
  | _ => exact hlive

/-- Every step but the creator's `detach` keeps its role reserved. -/
theorem reserved_step (hphase : Phase S s) (hexcl : Exclusive (s.seat S.role))
    (hres : Reserved S s) (ha : a.detaches S.role S.creator = false)
    (h : step S s a = some s') : Reserved S s' := by
  intro hready' hlive'
  have hlive := live_of_step h hlive'
  have stays (hund : Undisputed (s.seat S.role) S.creator) (hown : (s.seat S.role).owns S.creator) :
      Undisputed (s'.seat S.role) S.creator := by
    rcases (Relation.reflGen_iff ..).mp (simulates hphase h S.role) with heq | hstep
    · rwa [heq]
    · exact hund.step hexcl hlive hown hstep
  by_cases hready : s.object.ready = 1
  · obtain ⟨⟨w, hat⟩, hund⟩ := hres hready hlive
    exact ⟨bound_of_step hat ha h, stays hund (congrArg Endpoint.holds hat)⟩
  · have hunready := hphase.ready_eq hready
    obtain ⟨-, -, hpid, hbound⟩ := hphase.published_of_step hunready hready' h
    exact ⟨hbound, stays (hphase.undisputed hunready) (hexcl.owner _ hlive hpid)⟩

/-- What holds along the runs in which the creator does not detach. -/
theorem reserved_of_reaches {slots : ℕ → T}
    (run : Reaches (step S) (fun _ a => a.detaches S.role S.creator = false) (opened S slots) s) :
    Exclusive (s.seat S.role) ∧ Reserved S s := by
  have hinv : Phase S s ∧ Exclusive (s.seat S.role) ∧ Reserved S s := by
    refine run.invariant (I := fun s => Phase S s ∧ Exclusive (s.seat S.role) ∧ Reserved S s)
      ⟨phase_opened S slots, exclusive_opened S slots S.role,
        fun h => absurd h (by simp [opened])⟩ ?_
    rintro s a s' ⟨hphase, hexcl, hres⟩ ha h
    exact ⟨phase_step hphase h, exclusive_step hphase hexcl h, reserved_step hphase hexcl hres ha h⟩
  exact hinv.2

/-- A run that has come to `ready` has passed the creator's store of it. -/
theorem published_of_reachable {slots : ℕ → T} (run : Reachable (step S) (opened S slots) s)
    (hready : s.object.ready = 1) :
    ∃ s₁ ans s₂, Reachable (step S) (opened S slots) s₁ ∧ s₁.object.geometry = S.geometry ∧
      s₁.object.pid S.role = S.creator ∧ step S s₁ (.create ans) = some s₂ ∧
      s₁.object.ready = 0 ∧ s₂.object.ready = 1 ∧ Reachable (step S) s₂ s := by
  induction run with
  | refl => exact absurd hready (by simp [opened])
  | @tail s s' a run met next ih =>
    have hphase := phase_of_reachable run
    by_cases h : s.object.ready = 1
    · obtain ⟨s₁, ans, s₂, hs₁, hgeo, hpid, hstep, h0, h1, hs⟩ := ih h
      exact ⟨s₁, ans, s₂, hs₁, hgeo, hpid, hstep, h0, h1, hs.tail met next⟩
    · have h0 := hphase.ready_eq h
      obtain ⟨⟨ans, rfl⟩, hgeo, hpid, -⟩ := hphase.published_of_step h0 hready next
      exact ⟨s, ans, s', run, hgeo, hpid, next, h0, hready, .refl⟩

/-- The role of a live creator is refused to everybody else. -/
theorem refused {expected : ℤ} {ans : Answers}
    (hund : Undisputed (s.seat S.role) S.creator) (hlive : s.live S.creator) (hp : p ≠ S.creator)
    (hprobed : (s.endpoint S.role p).probed = some expected)
    (hstep : step S s (.attachStep S.role p ans) = some s') :
    s'.endpoint S.role p = .absent (some (liveConflict S.role S.creator)) := by
  cases steps_of_step hstep with
  | @attachStep _ _ _ since pc at_ alive answers =>
    have hattempt := (hund p hp).2
    simp only [seat, at_] at hattempt hprobed
    cases pc with
    | binding b =>
      cases b with
      | test h e =>
        have he : e = S.creator := by simpa [Endpoint.attempt, BindPc.attempt] using hattempt
        subst he
        have halive := processAlive_of_live answers hlive
        simp only [after, attachStep, bindStep, if_neg (Ne.symm hp), S.creator_pos, halive,
          and_self, if_true, endpoint_set_self]
        rfl
      | _ => cases hprobed
    | _ => cases hprobed

/-- Initialisation is published atomically. In every run, a process that is past its check of
`ready` finds the creator's geometry in the object, and the run has passed the store of
`ready`, made with all of it written and the creator's pid in its role's slot; no step after
that changes the geometry. In the runs in which the creator does not detach, as long as it
lives its pid stays in the slot, no other process is bound in its role, and every attach in
that role that comes to look at the slot is refused. -/
theorem publication (S : Setup) (slots : ℕ → T) :
    (∀ s : Shm T, Reachable (step S) (opened S slots) s →
      (∀ role p, (∃ since A mapped, s.endpoint role p = .attaching since (.validating A mapped)) ∨
          (∃ since b, s.endpoint role p = .attaching since (.binding b)) ∨
          (∃ w, s.endpoint role p = .bound w) →
        s.object.ready = 1) ∧
      (s.object.ready = 1 →
        s.object.geometry = S.geometry ∧
        (∃ s₁ ans s₂, Reachable (step S) (opened S slots) s₁ ∧ s₁.object.geometry = S.geometry ∧
          s₁.object.pid S.role = S.creator ∧ step S s₁ (.create ans) = some s₂ ∧
          s₁.object.ready = 0 ∧ s₂.object.ready = 1 ∧ Reachable (step S) s₂ s) ∧
        ∀ a s', step S s a = some s' →
          s'.object.ready = 1 ∧ s'.object.geometry = s.object.geometry)) ∧
    (∀ s : Shm T,
      Reaches (step S) (fun _ a => a.detaches S.role S.creator = false) (opened S slots) s →
      s.object.ready = 1 → s.live S.creator →
        s.object.pid S.role = S.creator ∧
        ∀ p, p ≠ S.creator → (s.endpoint S.role p).holds = false ∧
          ∀ expected ans s', (s.endpoint S.role p).probed = some expected →
            step S s (.attachStep S.role p ans) = some s' →
            s'.endpoint S.role p = .absent (some (liveConflict S.role S.creator))) := by
  refine ⟨fun s run =>
      ⟨?_, fun hready => ⟨?_, published_of_reachable run hready, fun a s' h => ?_⟩⟩,
    fun s run hready hlive => ?_⟩
  · have hphase := phase_of_reachable run
    rintro role p (⟨since, A, mapped, hat⟩ | ⟨since, b, hat⟩ | ⟨w, hat⟩)
    all_goals
      have hend := hphase.endpoint role p
      rw [hat] at hend
      exact hend
  · rcases (phase_of_reachable run).ready with h | h
    · exact absurd (h.symm.trans hready) (by decide)
    · exact h.2
  · exact geometry_of_step (phase_of_reachable run) hready h
  · obtain ⟨hexcl, hres⟩ := reserved_of_reaches run
    obtain ⟨⟨w, hat⟩, hund⟩ := hres hready hlive
    refine ⟨hexcl.slot _ hlive (congrArg Endpoint.holds hat), fun p hp => ⟨?_, ?_⟩⟩
    · exact Bool.eq_false_iff.mpr (hund p hp).1
    · intro expected ans s' hprobed hstep
      exact refused hund hlive hp hprobed hstep

/-- Process `2` looks for the producer's role that process `1` has created the queue in. -/
def refusedRun : List (ShmAct ℕ) :=
  ShmAct.attach .producer 2 messageLayout :: List.replicate 20 (ShmAct.create .plain) ++
    List.replicate 7 (ShmAct.attachStep .producer 2 .plain)

theorem publication_refusedRun :
    ∃ s s' : Shm ℕ, Reachable (step messageSetup) (opened messageSetup fun _ => 0) s ∧
      step messageSetup s (.attachStep .producer 2 .plain) = some s' ∧
      s.object.geometry = messageSetup.geometry ∧ s.object.pid .producer = 1 ∧
      s'.endpoint .producer 2 = .absent (some (liveConflict .producer 1)) := by
  have hrun : (exec (step messageSetup) (fun _ a => a.detaches .producer 1 = false)
      (opened messageSetup fun _ => 0) refusedRun).map (fun s => (s.object.ready, s.live 1,
        (s.endpoint .producer 2).probed,
        (step messageSetup s (.attachStep .producer 2 .plain)).isSome)) =
      some (1, true, some 1, true) := by decide +kernel
  obtain ⟨s, hs, hview⟩ := Option.map_eq_some_iff.mp hrun
  simp only [Prod.mk.injEq] at hview
  obtain ⟨hready, hlive, hprobed, hnext⟩ := hview
  obtain ⟨s', next⟩ := Option.isSome_iff_exists.mp hnext
  have run := Reaches.of_exec hs
  have reachable : Reachable (step messageSetup) _ s := run.mono fun _ _ _ => trivial
  have hpub := publication messageSetup fun _ : ℕ => 0
  have hres := hpub.2 s run hready hlive
  exact ⟨s, s', reachable, next, ((hpub.1 s reachable).2 hready).1, hres.1,
    (hres.2 2 (by decide)).2 1 .plain s' hprobed next⟩

end Shm

end ShmSpsc
