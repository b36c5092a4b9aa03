import ShmSpsc.Seats

/-!
# Who is registered in a pid slot

A pid slot names a process, but a process can have several handles bound to one role of one
object : `bind` takes the own pid for a re-attach. The first of them that is released clears
the slot for all (`World.registered_destroyRun`, where a second live producer attaches then).

In the runs in which a released handle is the only one of its process bound to its role, the
slot holds the pid of each live process with a bound handle there and everybody else is
refused; a release that does not meet this breaks it at once (`World.registered_iff`).
-/

namespace ShmSpsc

open Transition OwnerWord

variable {T : Type*}

/-- The call is an `attach` in `role` of object `o` that has loaded `pid`. -/
def Call.judges (role : Role) (o : ℕ) (pid : ℤ) : Call → Bool
  | .attach _ role' _ o' (.binding (.test _ expected)) =>
    role' == role && o' == o && expected == pid
  | _ => false

theorem Call.eq_of_judges {c : Call} {role : Role} {o : ℕ} {pid : ℤ} (h : c.judges role o pid) :
    ∃ name u handle, c = .attach name role u o (.binding (.test handle pid)) := by
  unfold judges at h
  split at h
  next name role' u o' handle expected =>
    simp only [Bool.and_eq_true, beq_iff_eq] at h
    obtain ⟨⟨rfl, rfl⟩, rfl⟩ := h
    exact ⟨name, u, handle, rfl⟩
  next => cases h

/-- What the next step of a `bind` of process `q`, in an `attach`, does while the role is
process `p`'s : it finds the pid of `p`, and then throws. -/
def BindPc.Refused (w' : World T) (q p : ℤ) (name : String) (role : Role) (u o : ℕ) :
    BindPc → Prop
  | .loadPid h => (w'.proc q).call = .attach name role u o (.binding (.test h p))
  | .cas h _ => (w'.proc q).call = .attach name role u o (.binding (.test h p))
  | .test _ expected => expected = p →
      (w'.proc q).call = .destroying tmp ∧ (w'.proc q).thrown = some (liveConflict role p)
  | _ => True

namespace World

variable {w w' : World T} {a : WorldAct} {p : ℤ} {u v o : ℕ} {role : Role}

/-- The slot of every role in which a live process has a bound handle holds its pid. -/
def Registered (w : World T) : Prop :=
  ∀ p v o role, w.live p → w.holds p v o role → (w.objects o).pid role = p

/-- No other live process is bound to a role in which `p` is, and its `attach` is refused. -/
def Refuses (w : World T) : Prop :=
  ∀ p q v o role, w.live p → w.live q → q ≠ p → w.holds p v o role →
    (∀ u, w.holds q u o role = false) ∧
    ∀ name u b ans w', (w.proc q).call = .attach name role u o (.binding b) →
      w.step (.step q ans) = some w' → b.Refused w' q p name role u o

/-! ## Registration -/

theorem Inv.registered (hinv : w.Inv) : w.Registered := fun p v o role hlive hholds =>
  (hinv.seat o role).slot p hlive ⟨v, hholds⟩

/-- Whoever attaches in a role that a live process has finds its pid, and throws. -/
theorem Inv.refuses (hinv : w.Inv) : w.Refuses := by
  intro p q v o role hp hq hne hholds
  have hexcl := hinv.seat o role
  have hown : (w.seat o role).owns p := ⟨v, hholds⟩
  have hword : (w.objects o).pid role = p := hexcl.slot p hp hown
  refine ⟨fun u => ?_, fun name u b ans w' hcall hstep => ?_⟩
  · rw [← Bool.not_eq_true]
    exact fun hu => hne (hexcl.unique hq hp ⟨u, hu⟩ hown)
  · have hat : (w.seat o role).attempt q = b.attempt := by
      simp only [World.seat, hcall, Call.attempt, and_self, if_true]
    rcases (step_cases hstep).2 with ⟨_, ⟨⟩, _⟩ | ⟨_, _, ⟨⟩, hadm, hstep⟩ | ⟨_, ⟨⟩⟩
    rw [hcall] at hadm hstep
    obtain ⟨h, x, -, -, -, -, -, hleaves⟩ := bindStep_cases hstep
    cases b with
    | loadPid handle => exact hleaves.2.trans (by rw [hword])
    | test handle expected =>
      rintro rfl
      have hthrow : (0 < expected ∧ processAlive ans.kill expected) :=
        ⟨pos_of_live hp, processAlive_of_live hadm hp⟩
      simp only [ShmSpsc.bindStep, if_neg (Ne.symm hne), if_pos hthrow] at hleaves
      exact hleaves.2
    | cas handle expected =>
      have hgone : (w.objects o).pid role ≠ expected := by
        rw [hword]
        rintro rfl
        exact (hexcl.claiming q p hq hat).2 hp
      simp only [ShmSpsc.bindStep, hgone, false_and, if_false] at hleaves
      exact hleaves.2.trans (by rw [hword])
    | _ => trivial

/-- A step that releases a bound handle is its `detach`. -/
theorem release_of_step (hv : w.releases a = some (p, v)) (hholds : w.holds p v o role)
    (h : w.step a = some w') : ∃ next, w.release p v next = some w' := by
  have hvar : ∃ q, w.var p v = some q := by
    rw [holds] at hholds
    cases hvar : w.var p v with
    | none => simp [hvar] at hholds
    | some q => exact ⟨q, rfl⟩
  obtain ⟨q, hvar⟩ := hvar
  rcases (step_cases h).2 with ⟨p', rfl, -⟩ | ⟨p', ans, rfl, -, hcall⟩ | ⟨-, hstart⟩
  · cases hv
  · simp only [releases] at hv
    split at hv <;> cases hv
    next hat =>
      rw [hat] at hcall
      simp only [stepCall, hvar] at hcall
      exact ⟨_, hcall⟩
    next hat =>
      rw [hat] at hcall
      exact ⟨_, hcall⟩
  · cases a with
    | detach p' v' =>
      cases hv
      exact ⟨_, hstart⟩
    | destroy p' v' =>
      cases hv
      exact ⟨_, hstart⟩
    | moveAssign p' v' u =>
      simp only [releases] at hv
      split_ifs at hv with hvu
      cases hv
      simp only [startCall, if_neg hvu] at hstart
      split at hstart
      · exact ⟨_, hstart⟩
      · cases hstart
    | step p' ans => cases hstart
    | _ => cases hv

theorem pid_of_releases (hv : w.releases a = some (p, v)) : a.pid = p := by
  cases a with
  | detach p' v' =>
    cases hv
    rfl
  | destroy p' v' =>
    cases hv
    rfl
  | moveAssign p' v' u =>
    simp only [releases] at hv
    split_ifs at hv
    cases hv
    rfl
  | step p' ans =>
    simp only [releases] at hv
    split at hv <;> cases hv <;> rfl
  | _ => cases hv

/-- The release of one of two handles clears the slot of both. -/
theorem not_registered_of_release {next : Next} (hinv : w.Inv) (hlive : w.live p) (hu : u ≠ v)
    (hholds : w.holds p v o role) (hother : w.holds p u o role)
    (h : w.release p v next = some w') : ¬w'.Registered := by
  intro hreg
  have hpos := pos_of_live hlive
  have hpid := hinv.registered p v o role hlive hholds
  unfold release at h
  split at h
  next q hq =>
    cases h
    have hbound : q.boundTo o role := by simpa [holds, hq] using hholds
    have hslot := hreg p u o role
      (by simpa [live, goto, setVar, setProc, dead_clearPid] using hlive)
      (by simpa [holds, var, hu] using hother)
    have hclear : ((w.clearPid p q).objects o).pid role = -1 :=
      pid_clearPid.trans (if_pos ⟨hbound, hpid⟩)
    have : (-1 : ℤ) = p := hclear.symm.trans hslot
    omega
  next => cases h

/-- Releasing a handle un-registers no other one, exactly as long as no process has another
handle bound to the same role of the same object : in every run in which every released handle
is the only one, the slot of each role in which a live process has a bound handle holds its
pid and everybody else is refused, and the next step keeps this if and only if it meets the
condition too. -/
theorem registered_iff (slots : ℕ → T) {w : World T}
    (run : Reaches step soleRelease (start slots) w) :
    w.Registered ∧ w.Refuses ∧
      ∀ a w', w.step a = some w' → (w'.Registered ↔ w.soleRelease a) := by
  have hinv := inv_of_reaches run
  refine ⟨hinv.registered, hinv.refuses, fun a w' h => ⟨fun hreg => ?_, fun hsole => ?_⟩⟩
  · intro p v hv o role hholds u hu
    rw [← Bool.not_eq_true]
    intro hother
    obtain ⟨next, hrelease⟩ := release_of_step hv hholds h
    have hlive : w.live p := pid_of_releases hv ▸ (step_cases h).1
    exact not_registered_of_release hinv hlive hu hholds hother hrelease hreg
  · exact (inv_step hinv hsole h).registered

/-- The handle that is released, if any, is not bound. -/
def releasesUnbound (w : World T) (a : WorldAct) : Bool :=
  (w.releases a).all fun x => (w.var x.1 x.2).all fun q => !q.bound

theorem soleRelease_of_unbound (h : w.releasesUnbound a) : w.soleRelease a := by
  intro p v hv o role hholds
  unfold releasesUnbound at h
  simp only [hv, Option.all_some] at h
  unfold holds at hholds
  cases hvar : w.var p v with
  | none => simp [hvar] at hholds
  | some q =>
    simp only [hvar, Option.all_some, Option.any_some, Queue.boundTo] at h hholds
    simp_all

/-- `q = create("/q")` and `r = attach("/q")` in process `1`, as a producer both times, and an
`attach` of process `2` that has found `1` in the slot. -/
def reattachRun : List WorldAct :=
  WorldAct.create 1 1 messageSetup true :: List.replicate 25 (WorldAct.step 1 .plain) ++
    WorldAct.attach 1 2 "/q" .producer messageLayout ::
      List.replicate 11 (WorldAct.step 1 .plain) ++
    WorldAct.attach 2 1 "/q" .producer messageLayout :: List.replicate 7 (WorldAct.step 2 .plain)

theorem registered_iff_reattachRun :
    ∃ w w₁ w₂ : World ℕ, Reaches step soleRelease (start fun _ => 0) w ∧
      w.holds 1 1 0 .producer ∧ w.holds 1 2 0 .producer ∧ (w.objects 0).pid .producer = 1 ∧
      w.step (.step 2 .plain) = some w₁ ∧ (w₁.proc 2).thrown = some (liveConflict .producer 1) ∧
      w.step (.destroy 1 2) = some w₂ ∧ ¬w₂.Registered := by
  have hrun : (exec step (fun w a => w.releasesUnbound a) (start fun _ => (0 : ℕ))
      reattachRun).map (fun w => ((w.live 1, w.holds 1 1 0 .producer, w.holds 1 2 0 .producer),
        (w.live 2, (w.proc 2).call.judges .producer 0 1),
        ((w.step (.step 2 .plain)).isSome, (w.step (.destroy 1 2)).isSome))) =
      some ((true, true, true), (true, true), (true, true)) := by
    decide +kernel
  obtain ⟨w, hw, hview⟩ := Option.map_eq_some_iff.mp hrun
  simp only [Prod.mk.injEq] at hview
  obtain ⟨⟨hlive, hholds, hother⟩, ⟨hlive', hat⟩, hnext₁, hnext₂⟩ := hview
  obtain ⟨w₁, next₁⟩ := Option.isSome_iff_exists.mp hnext₁
  obtain ⟨w₂, next₂⟩ := Option.isSome_iff_exists.mp hnext₂
  have run := (Reaches.of_exec hw).mono fun _ _ => soleRelease_of_unbound
  obtain ⟨hreg, hrefuses, hiff⟩ := registered_iff _ run
  refine ⟨w, w₁, w₂, run, hholds, hother, hreg 1 1 0 .producer hlive hholds, next₁, ?_, next₂,
    fun hreg₂ => ?_⟩
  · obtain ⟨name, u, h, hcall⟩ := Call.eq_of_judges hat
    exact ((hrefuses 1 2 1 0 .producer hlive hlive' (by decide) hholds).2 name u _ .plain w₁
      hcall next₁ rfl).2
  · have := (hiff _ _ next₂).mp hreg₂ 1 2 rfl 0 .producer hother 1 (by decide)
    rw [hholds] at this
    cases this

/-- `q = create("/q")`, then `r = attach("/q")` in the same process and role, which is
destroyed, and then an `attach` of process `2`. -/
def destroyRun : List WorldAct :=
  WorldAct.create 1 1 messageSetup true :: List.replicate 25 (WorldAct.step 1 .plain) ++
    WorldAct.attach 1 2 "/q" .producer messageLayout ::
      List.replicate 11 (WorldAct.step 1 .plain) ++
    WorldAct.destroy 1 2 :: WorldAct.step 1 .plain ::
    WorldAct.attach 2 1 "/q" .producer messageLayout :: List.replicate 11 (WorldAct.step 2 .plain)

/-- The destructor of `r` clears the slot that `q` is registered in, and process `2` becomes a
second live producer. -/
theorem registered_destroyRun :
    ∃ w : World ℕ, Reachable step (start fun _ => 0) w ∧
      w.live 1 ∧ w.holds 1 1 0 .producer ∧ w.live 2 ∧ w.holds 2 1 0 .producer ∧
      (w.objects 0).pid .producer = 2 ∧ ¬w.Registered := by
  have hrun : (exec step (fun _ _ => True) (start fun _ => (0 : ℕ)) destroyRun).map
      (fun w => ((w.live 1, w.holds 1 1 0 .producer), (w.live 2, w.holds 2 1 0 .producer),
        (w.objects 0).pid .producer)) =
      some ((true, true), (true, true), 2) := by decide +kernel
  obtain ⟨w, hw, hview⟩ := Option.map_eq_some_iff.mp hrun
  simp only [Prod.mk.injEq] at hview
  obtain ⟨⟨hlive, hholds⟩, ⟨hlive', hholds'⟩, hpid⟩ := hview
  refine ⟨w, Reaches.of_exec hw, hlive, hholds, hlive', hholds', hpid, fun hreg => ?_⟩
  have := hreg 1 1 0 .producer hlive hholds
  omega

end World

end ShmSpsc
