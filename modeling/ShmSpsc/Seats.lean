import ShmSpsc.Handles

/-!
# Seats along a run

If every handle that is released is the only one of its process bound to its role of its object
(`World.soleRelease`), every step of every process is a step of each seat or leaves it, and
`World.Inv` holds along the run (`World.inv_of_reaches`) : objects are blank until they are
made, one process creates each of them, and every seat is exclusive.
-/

namespace ShmSpsc

open Transition OwnerWord

variable {T : Type*}

namespace World

variable {w w' : World T} {a : WorldAct} {p q : ℤ} {v o : ℕ} {role : Role} {c : Call}

/-! ## The condition -/

/-- The handle whose `detach` the action runs. -/
def releases (w : World T) : WorldAct → Option (ℤ × ℕ)
  | .detach p v => some (p, v)
  | .destroy p v => some (p, v)
  | .moveAssign p v u => if v = u then none else some (p, v)
  | .step p _ =>
    match (w.proc p).call with
    | .placing v => some (p, v)
    | .destroying v => some (p, v)
    | _ => none
  | _ => none

/-- A bound handle that is released is the only one of its process bound to its role of its
object. -/
def soleRelease (w : World T) (a : WorldAct) : Prop :=
  ∀ p v, w.releases a = some (p, v) → ∀ o role, w.holds p v o role →
    ∀ u, u ≠ v → w.holds p u o role = false

/-! ## The other steps of `create` -/

/-- The temporary before the next step of `create`. -/
theorem tmp_of_more {S : Setup} (object : Object T) (ans : Answers) {pc : CreatePc}
    (hmmap : pc ≠ .mmap) (hpc : ∀ b, pc ≠ .binding b) (pc' : CreatePc) (h : Queue)
    (htmp : pc.Tmp S.role o h)
    (hmore : (ShmSpsc.createStep S object ans pc).2 = .more pc') : pc'.Tmp S.role o h := by
  cases pc with
  | ftruncate =>
    simp only [ShmSpsc.createStep] at hmore
    split at hmore <;> cases hmore
    exact htmp
  | mmap => exact absurd rfl hmmap
  | binding b => exact absurd rfl (hpc b)
  | ready handle => cases hmore
  | readIdx =>
    cases hmore
    exact ⟨htmp.1, htmp.2, .inl rfl⟩
  | _ =>
    cases hmore
    exact htmp

/-- A system call or a store of `create`. -/
theorem kept_store {S : Setup} {whole : Bool} {ans : Answers} {pc : CreatePc}
    (hmmap : pc ≠ .mmap) (hpc : ∀ b, pc ≠ .binding b)
    (hcall : (w.proc p).call = .create S whole v o pc) (hfits : w.Fits p) :
    Kept w (w.storeStep p S whole v o ans pc) p := by
  rw [Fits, hcall] at hfits
  obtain ⟨rfl, hv, ho, hstage, htmp⟩ := hfits
  obtain ⟨hpid, -, hattempt⟩ := Shm.createStep_quiet ans hstage hpc
  have hcreated := createStep_stage ans hstage
  have hmore := tmp_of_more (S := S) (o := o) (w.objects o) ans hmmap hpc
  unfold storeStep
  generalize ShmSpsc.createStep S (w.objects o) ans pc = out at *
  obtain ⟨object, out⟩ := out
  have htouched (x : Proc) (o' : ℕ) :
      Touched w ((w.setObject o object).setProc S.creator x) S.creator o' := by
    by_cases ho' : o' = o
    · subst ho'
      exact .inr (.inl (by rw [hcall]; rfl))
    · exact .inl (Function.update_of_ne ho' ..)
  have hseats (x : Proc) (hvars : x.vars = (w.proc S.creator).vars)
      (hx : ∀ o' role', x.call.attempt o' role' = .none) (o' : ℕ) (role' : Role) :
      Relation.ReflGen Step (w.seat o' role')
        (((w.setObject o object).setProc S.creator x).seat o' role') := by
    refine seat_quiet ⟨rfl, fun q hq => proc_setProc_of_ne hq⟩ ?_ ?_ ?_
    · by_cases ho' : o' = o
      · subst ho'
        simpa [setObject, setProc] using hpid role'
      · simp [setObject, setProc, ho']
    · rw [Owns, proc_setProc_self, hvars]
      rfl
    · rw [proc_setProc_self]
      exact hx o' role'
  cases out with
  | more pc' =>
    refine ⟨?_, le_rfl, htouched _, fun o' ho' => .inl ?_, hseats _ rfl fun o' role' => ?_⟩
    · rw [Fits, call_goto, vars_goto]
      refine ⟨rfl, hv, ho, ?_, fun q hq => hmore pc' q (htmp q hq) rfl⟩
      have hobject : (((w.setObject o object).goto S.creator
          (.create S whole v o pc')).objects o) = object := Function.update_self ..
      rw [hobject]
      exact hcreated
    · rw [hcall, ← ho']
      simp [Call.creates]
    · cases pc' with
      | binding b => exact (congrArg (ite _ · Attempt.none) hattempt).trans (ite_self _)
      | _ => rfl
  | bound handle =>
    refine ⟨?_, le_rfl, htouched _, by simp [Call.creates], hseats _ rfl fun _ _ => rfl⟩
    rw [Fits, call_goto]
    exact hv
  | threw e =>
    refine ⟨?_, le_rfl, htouched _, by simp [Call.creates], hseats _ rfl fun _ _ => rfl⟩
    rw [Fits, call_throw]
    trivial

/-! ## Every step -/

/-- A new mapping in an unbound temporary, of object `o`. -/
theorem kept_mapTmp {h : Queue} {size : UInt64} {owner whole : Bool} {name : String}
    (hvar : (w.proc p).vars tmp = some h) (hfree : h.bound = false)
    (hattempt : ∀ o role, c.attempt o role = .none)
    (hcreates : ∀ o, c.creates = some o → (w.proc p).call.creates = some o)
    (hfits : ∀ x : Queue, x.bound = false →
      (whole → x.ctrl.map Mapping.object = some o) →
      c.Fits w.objects w.nextObject p (Function.update (w.proc p).vars tmp (some x))) :
    Kept w ((w.mapTmp p h o size owner name whole).goto p c) p := by
  obtain ⟨hobjects, hnext, hdead⟩ := resetSegment_frame w h.seg
  have hnext : ((w.mapTmp p h o size owner name whole).goto p c).nextObject = w.nextObject := hnext
  refine .quiet call_goto (vars_goto.trans vars_mapTmp) ⟨hdead, fun q hq => ?_⟩ hobjects hnext.ge
    ?_ (fun o role => hasBound_update ?_ ?_) hattempt fun o ho => .inl (hcreates o ho)
  · simp [goto, proc_setProc_of_ne hq, proc_mapTmp hq]
  · rw [hnext]
    exact hfits _ hfree fun hwhole => by simp [hwhole]
  · rw [hvar]
    exact any_unbound (by rintro q ⟨⟩; exact hfree)
  · exact any_unbound (by rintro q ⟨⟩; exact hfree)

/-- A step that only moves the call on. -/
theorem kept_goto (hproc : (w'.proc p).call = c ∧ (w'.proc p).vars = (w.proc p).vars)
    (hframe : Frame w w' p) (hobjects : w'.objects = w.objects)
    (hnext : w'.nextObject = w.nextObject)
    (hfits : c.Fits w.objects w.nextObject p (w.proc p).vars)
    (hattempt : ∀ o role, c.attempt o role = .none) (hcreates : c.creates = none) :
    Kept w w' p :=
  .quiet hproc.1 hproc.2 hframe hobjects hnext.ge (hnext ▸ hfits) (fun _ _ => .rfl) hattempt
    (by simp [hcreates])

/-- An exception out of a call. -/
theorem kept_throw {e : Exception} (hfits : c.Fits w.objects w.nextObject p (w.proc p).vars)
    (hattempt : ∀ o role, c.attempt o role = .none) (hcreates : c.creates = none) :
    Kept w (w.throw p e c) p :=
  kept_goto ⟨call_throw, vars_throw⟩ ⟨rfl, fun _ => proc_setProc_of_ne⟩ rfl rfl hfits hattempt
    hcreates

theorem kept_shmOpen {S : Setup} {whole : Bool} (hinv : w.Inv)
    (hcall : (w.proc p).call = .shmOpen S whole v) : Kept w (w.shmOpen p S whole v) p := by
  have hfits := hinv.fits p
  rw [Fits, hcall] at hfits
  obtain ⟨hcreator, hv, htmp⟩ := hfits
  unfold shmOpen
  dsimp only
  split
  · exact kept_throw rfl (fun _ _ => rfl) rfl
  · exact kept_throw rfl (fun _ _ => rfl) rfl
  · refine .quiet call_goto vars_goto ⟨rfl, fun _ => proc_setProc_of_ne⟩ rfl (Nat.le_succ _) ?_
      (fun _ _ => .rfl) (fun _ _ => rfl) ?_
    · have hblank := hinv.blank w.nextObject le_rfl
      exact ⟨hcreator, hv, Nat.lt_succ_self _, ⟨hblank.ready, hblank.geometry, hblank.writeIdx,
        hblank.readIdx, fun role _ => hblank.pid role, hblank.pid S.role⟩, htmp⟩
    · rintro o ⟨⟩
      exact .inr le_rfl

theorem kept_createStep {S : Setup} {whole : Bool} {ans : Answers} {pc : CreatePc}
    (hfits : w.Fits p) (hcall : (w.proc p).call = .create S whole v o pc) (hlive : w.live p)
    (hadm : w.admits ans (w.proc p).call.probed)
    (h : w.createStep p S whole v o ans pc = some w') : Kept w w' p := by
  cases pc with
  | mmap =>
    have hwhere := hfits
    rw [Fits, hcall] at hwhere
    obtain ⟨hcreator, hv, ho, hstage, htmp⟩ := hwhere
    simp only [createStep] at h
    split at h
    next h' e hvar _ =>
      cases h
      exact kept_throw trivial (fun _ _ => rfl) rfl
    next _ h' hvar _ =>
      cases h
      refine kept_mapTmp hvar (htmp h' hvar) (fun o role => ?_) (fun o' ho' => ?_)
        fun x hx hctrl => ?_
      · split_ifs <;> rfl
      · split_ifs at ho'
        · rw [hcall, ← ho']
          rfl
        · cases ho'
      · split_ifs with hwhole
        · refine ⟨hcreator, hv, ho, ⟨hstage.ready, hstage.geometry, hstage.writeIdx,
            hstage.readIdx, hstage.peer, hstage.claim⟩, ?_⟩
          rw [Function.update_self]
          rintro q ⟨⟩
          exact ⟨hx, hctrl hwhole⟩
        · exact hv
    next => cases h
  | binding b =>
    refine kept_bind_create hcall hfits hlive ?_ h
    rw [hcall] at hadm
    cases b <;> exact hadm
  | _ =>
    cases h
    exact kept_store (by simp) (by simp) hcall hfits

theorem kept_attachStep {name : String} {ans : Answers} {pc : AttachPc} (hfits : w.Fits p)
    (hcall : (w.proc p).call = .attach name role v o pc) (hlive : w.live p)
    (hadm : w.admits ans (w.proc p).call.probed)
    (h : w.attachStep p name role v o ans pc = some w') : Kept w w' p := by
  have hwhere := hfits
  rw [Fits, hcall] at hwhere
  obtain ⟨hv, hready, htmp⟩ := hwhere
  have hfail {e : Exception} : Kept w (w.throw p e (.destroying tmp)) p :=
    kept_throw rfl (fun _ _ => rfl) rfl
  have hmore {pc' : AttachPc} (hattempt : ∀ o' role',
      (Call.attach name role v o pc').attempt o' role' = .none)
      (hfits : (Call.attach name role v o pc').Fits w.objects w.nextObject p (w.proc p).vars) :
      Kept w (w.goto p (.attach name role v o pc')) p :=
    kept_goto ⟨call_goto, vars_goto⟩ ⟨rfl, fun _ => proc_setProc_of_ne⟩ rfl rfl hfits hattempt
      rfl
  cases pc with
  | opening A =>
    simp only [attachStep] at h
    split at h
    next h' o' mapped hvar _ =>
      cases h
      refine kept_mapTmp hvar (htmp h' hvar) (fun _ _ => rfl) (by simp [Call.creates])
        fun x hx hctrl => ?_
      refine ⟨hv, by simp [AttachPc.passed], ?_⟩
      rw [Function.update_self]
      rintro q ⟨⟩
      exact ⟨hx, hctrl rfl⟩
    · cases h
      split_ifs
      · exact hfail
      · exact hmore (fun _ _ => rfl) ⟨hv, hready, htmp⟩
    · cases h
  | readyCheck A lastAttempt mapped =>
    cases h
    simp only [checkStep, ShmSpsc.attachStep]
    split_ifs with hpublished
    · exact hmore (fun _ _ => rfl) ⟨hv, fun _ => hpublished, htmp⟩
    · exact hfail
    · exact hmore (fun _ _ => rfl) ⟨hv, by simp [AttachPc.passed], fun q hq => (htmp q hq).1⟩
  | validating A mapped =>
    cases h
    simp only [checkStep, ShmSpsc.attachStep]
    cases validate A (w.objects o).geometry mapped with
    | ok _ =>
      refine hmore (fun o' role' => ?_)
        ⟨hv, hready, fun q hq => ⟨(htmp q hq).1, (htmp q hq).2, .inl rfl⟩⟩
      exact ite_self _
    | error e => exact hfail
  | binding b =>
    refine kept_bind_attach hcall hfits hlive ?_ h
    rw [hcall] at hadm
    cases b <;> exact hadm

/-- `seg_.reset()`, and what follows it. -/
theorem kept_reset {next : Next} (hfits : w.Fits p)
    (hcall : (w.proc p).call = .resetting v next) (h : w.reset p v next = some w') :
    Kept w w' p := by
  rw [Fits, hcall] at hfits
  unfold reset at h
  split at h
  next q hq =>
    obtain ⟨hobjects, hnext, hdead⟩ := resetSegment_frame w q.seg
    have hvar : (w.proc p).vars v = some q := hq
    have hfree : Unbound ((w.proc p).vars v) → Unbound (some { q with seg := .null }) := by
      rintro hv q' ⟨⟩
      exact hv q hvar
    cases next with
    | keep =>
      cases h
      obtain ⟨hv, htmp⟩ := hfits
      have hne : tmp ≠ v := by
        rintro rfl
        simp [htmp] at hvar
      refine .quiet call_goto (vars_goto.trans vars_setVar) ⟨hdead, fun q' hq' => ?_⟩ hobjects
        hnext.ge ?_ (fun o role => ?_) (fun _ _ => rfl) (by simp [Call.creates])
      · simp [goto, setVar, proc_setProc_of_ne hq']
      · exact (Function.update_of_ne hne ..).trans (by rw [proc_resetSegment, htmp])
      · rw [proc_resetSegment]
        exact hasBound_update (any_unbound hv) (any_unbound (hfree hv))
    | drop =>
      cases h
      obtain ⟨hv, htmp⟩ := hfits
      refine .quiet call_goto (vars_goto.trans vars_setVar) ⟨hdead, fun q' hq' => ?_⟩ hobjects
        hnext.ge ?_ (fun o role => ?_) (fun _ _ => rfl) (by simp [Call.creates])
      · simp [goto, setVar, proc_setProc_of_ne hq']
      · by_cases hne : v = tmp
        · subst hne
          exact Function.update_self ..
        · exact (Function.update_of_ne (Ne.symm hne) ..).trans
            (by rw [proc_resetSegment, htmp hne])
      · rw [proc_resetSegment]
        exact hasBound_update (any_unbound hv) (any_unbound unbound_none)
    | swap u =>
      cases h
      obtain ⟨hv, hne, htmp⟩ := hfits
      refine .quiet call_goto (vars_goto.trans vars_setVar) ⟨hdead, fun q' hq' => ?_⟩ hobjects
        hnext.ge ?_ (fun o role => ?_) (fun _ _ => ?_) fun o ho => ?_
      · simp [goto, setVar, proc_setProc_of_ne hq']
      · split_ifs with hu
        · rfl
        · refine (Function.update_of_ne (Ne.symm hu) ..).trans ?_
          rw [vars_setVar, Function.update_of_ne (Ne.symm hne), proc_resetSegment, htmp hu]
      · rw [vars_setVar, proc_resetSegment]
        exact hasBound_move hv (hfree hv)
      · split_ifs <;> rfl
      · split_ifs at ho <;> cases ho
  next => cases h

/-- The next step of a call. -/
theorem kept_stepCall {ans : Answers} (hinv : w.Inv) (hlive : w.live p)
    (hadm : w.admits ans (w.proc p).call.probed) (hsole : w.soleRelease (.step p ans))
    (h : w.stepCall p ans (w.proc p).call = some w') : Kept w w' p := by
  have hwhere := hinv.fits p
  unfold Fits at hwhere
  cases hcall : (w.proc p).call with
  | idle =>
    rw [hcall] at h
    cases h
  | unlink S whole v =>
    rw [hcall] at h hwhere
    cases h
    exact kept_goto ⟨call_goto, vars_goto⟩ ⟨rfl, fun _ => proc_setProc_of_ne⟩ rfl rfl hwhere
      (fun _ _ => rfl) rfl
  | shmOpen S whole v =>
    rw [hcall] at h
    cases h
    exact kept_shmOpen hinv hcall
  | create S whole v o pc =>
    rw [hcall] at h
    exact kept_createStep (hinv.fits p) hcall hlive hadm h
  | cleanup name o =>
    rw [hcall] at h
    cases h
    exact kept_goto ⟨call_goto, vars_goto⟩ ⟨rfl, fun _ => proc_setProc_of_ne⟩ rfl rfl rfl
      (fun _ _ => rfl) rfl
  | attach name role v o pc =>
    rw [hcall] at h
    exact kept_attachStep (hinv.fits p) hcall hlive hadm h
  | openSegment name v =>
    rw [hcall] at h hwhere
    obtain ⟨hv, htmp⟩ := hwhere
    simp only [stepCall] at h
    split at h <;> cases h
    next q o size hq _ =>
      exact kept_mapTmp hq (htmp q hq) (fun _ _ => rfl) (by simp [Call.creates]) fun _ _ _ => hv
    · exact kept_throw rfl (fun _ _ => rfl) rfl
  | placing v =>
    rw [hcall] at h hwhere
    simp only [stepCall] at h
    split at h
    · refine kept_release h (fun _ x hx => ?_) (hsole p v (by simp [releases, hcall]))
      exact ⟨by rwa [Function.update_self], hwhere, fun hne => absurd rfl hne⟩
    next hvar =>
      cases h
      have hv : Unbound ((w.proc p).vars v) := by
        rw [show (w.proc p).vars v = none from hvar]
        exact unbound_none
      refine .quiet call_goto (vars_goto.trans vars_setVar) ⟨rfl, fun q hq => ?_⟩ rfl le_rfl rfl
        (fun o role => ?_) (fun _ _ => rfl) (by simp [Call.creates])
      · simp [goto, setVar, proc_setProc_of_ne hq]
      · rw [vars_setVar]
        exact hasBound_move hv unbound_null
  | destroying v =>
    rw [hcall] at h hwhere
    refine kept_release h (fun _ x hx => ?_) (hsole p v (by simp [releases, hcall]))
    exact ⟨by rwa [Function.update_self], fun hne => absurd hwhere hne⟩
  | resetting v next =>
    rw [hcall] at h
    exact kept_reset (hinv.fits p) hcall h

/-- The release of a handle between two calls, when there is no temporary. -/
theorem kept_release_idle {next : Next} (htmp : (w.proc p).vars tmp = none)
    (sole : ∀ o role, w.holds p v o role → ∀ u, u ≠ v → w.holds p u o role = false)
    (h : w.release p v next = some w') : Kept w w' p := by
  have hne : v ≠ tmp := by
    rintro rfl
    simp [release, var, htmp] at h
  have htmp' (x : Option Queue) : Function.update (w.proc p).vars v x tmp = none := by
    rw [Function.update_of_ne (Ne.symm hne), htmp]
  refine kept_release h (fun _ x hx => ?_) sole
  cases next with
  | keep => exact ⟨by rwa [Function.update_self], htmp' x⟩
  | drop => exact ⟨by rwa [Function.update_self], fun _ => htmp' x⟩
  | swap u => exact ⟨by rwa [Function.update_self], hne, fun _ => htmp' x⟩

/-- A call that goes on, with its temporary. -/
theorem kept_fresh (htmp : (w.proc p).vars tmp = none)
    (hfits : c.Fits w.objects w.nextObject p
      (Function.update (w.proc p).vars tmp (some .null)))
    (hattempt : ∀ o role, c.attempt o role = .none) (hcreates : c.creates = none) :
    Kept w ((w.setVar p tmp (some .null)).goto p c) p := by
  have hfree : Unbound ((w.proc p).vars tmp) := htmp ▸ unbound_none
  refine .quiet call_goto (vars_goto.trans vars_setVar) ⟨rfl, fun q hq => ?_⟩ rfl le_rfl hfits
    (fun o role => ?_) hattempt fun o ho => ?_
  · simp [goto, setVar, proc_setProc_of_ne hq]
  · exact hasBound_update (any_unbound hfree) (any_unbound unbound_null)
  · simp [hcreates] at ho

/-- The temporary of such a call. -/
theorem unbound_fresh (f : ℕ → Option Queue) :
    Unbound (Function.update f tmp (some .null) tmp) := by
  rw [Function.update_self]
  exact unbound_null

/-- A call that is over at once, and leaves the process with the variables `f`. -/
theorem kept_done {f : ℕ → Option Queue} (hidle : (w'.proc a.pid).call = .idle)
    (h : w.startCall a = some w') (hvars : (w'.proc a.pid).vars = f) (hdead : w'.dead = w.dead)
    (hobjects : w'.objects = w.objects) (hnext : w'.nextObject = w.nextObject)
    (hf : f tmp = none) (hbound : ∀ o role, HasBound f o role ↔ w.Owns a.pid o role) :
    Kept w w' a.pid :=
  .quiet hidle hvars ⟨hdead, fun q hq => proc_startCall hq h⟩ hobjects hnext.ge hf hbound
    (fun _ _ => rfl) (by simp [Call.creates])

/-- A variable other than the temporary, which there is none of between two calls. -/
theorem ne_tmp {x : Queue} (htmp : (w.proc p).vars tmp = none)
    (hv : (w.proc p).vars v = some x) : tmp ≠ v := by
  rintro rfl
  exact absurd (htmp.symm.trans hv) (by simp)

theorem kept_construct (htmp : (w.proc p).vars tmp = none) (hidle : (w.proc p).call = .idle)
    (h : w.startCall (.construct p v) = some w') : Kept w w' p := by
  have hstart := h
  simp only [startCall] at h
  split_ifs at h with hguard
  cases h
  have hv : Unbound ((w.proc p).vars v) := by
    rw [show (w.proc p).vars v = none from hguard.2]
    exact unbound_none
  refine kept_done (call_setVar.trans hidle) hstart vars_setVar rfl rfl rfl ?_ fun o role => ?_
  · rw [Function.update_of_ne (Ne.symm hguard.1)]
    exact htmp
  · exact hasBound_update (any_unbound hv) (any_unbound unbound_null)

theorem kept_moveConstruct {u : ℕ} (htmp : (w.proc p).vars tmp = none)
    (hidle : (w.proc p).call = .idle) (h : w.startCall (.moveConstruct p v u) = some w') :
    Kept w w' p := by
  have hstart := h
  simp only [startCall] at h
  split at h
  next q hv hu =>
    split_ifs at h with hne
    cases h
    have hvars : (w.proc p).vars v = none := hv
    have hvaru : (w.proc p).vars u = some q := hu
    refine kept_done (call_setVar.trans (call_setVar.trans hidle)) hstart
      (vars_setVar.trans (by rw [vars_setVar])) rfl rfl rfl ?_ fun o role => ?_
    · rw [Function.update_of_ne (ne_tmp htmp hvaru), Function.update_of_ne (Ne.symm hne)]
      exact htmp
    · rw [← hvaru]
      exact hasBound_move (hvars ▸ unbound_none) unbound_null
  · cases h

theorem kept_swapWith {u : ℕ} (htmp : (w.proc p).vars tmp = none)
    (hidle : (w.proc p).call = .idle) (h : w.startCall (.swapWith p v u) = some w') :
    Kept w w' p := by
  have hstart := h
  simp only [startCall] at h
  split at h
  next q q' hv hu =>
    cases h
    have hvarv : (w.proc p).vars v = some q := hv
    have hvaru : (w.proc p).vars u = some q' := hu
    refine kept_done (call_setVar.trans (call_setVar.trans hidle)) hstart
      (vars_setVar.trans (by rw [vars_setVar])) rfl rfl rfl ?_ fun o role => ?_
    · rw [Function.update_of_ne (ne_tmp htmp hvaru), Function.update_of_ne (ne_tmp htmp hvarv)]
      exact htmp
    · rw [← hvaru, ← hvarv]
      exact hasBound_swap
  · cases h

/-- A call of a process between two calls. -/
theorem kept_startCall (hinv : w.Inv) (hidle : (w.proc a.pid).call = .idle)
    (hsole : w.soleRelease a) (h : w.startCall a = some w') : Kept w w' a.pid := by
  have htmp := hinv.fits a.pid
  rw [Fits, hidle] at htmp
  have htmp : (w.proc a.pid).vars tmp = none := htmp
  have hstart := h
  cases a with
  | create p v S whole =>
    simp only [startCall] at h
    split_ifs at h with hguard
    cases h
    exact kept_fresh htmp ⟨hguard.2, hguard.1, unbound_fresh _⟩ (fun _ _ => rfl) rfl
  | attach p v name role A =>
    simp only [startCall] at h
    split_ifs at h with hv
    cases h
    exact kept_fresh htmp ⟨hv, by simp [AttachPc.passed], unbound_fresh _⟩ (fun _ _ => rfl) rfl
  | openSegment p v name =>
    simp only [startCall] at h
    split_ifs at h with hv
    cases h
    exact kept_fresh htmp ⟨hv, unbound_fresh _⟩ (fun _ _ => rfl) rfl
  | construct p v => exact kept_construct htmp hidle h
  | moveConstruct p v u => exact kept_moveConstruct htmp hidle h
  | moveAssign p v u =>
    simp only [startCall] at h
    split at h
    · split_ifs at h with hvu
      · cases h
        exact kept_done hidle hstart rfl rfl rfl rfl htmp fun _ _ => .rfl
      · exact kept_release_idle htmp (hsole p v (by simp [releases, hvu])) h
    · cases h
  | swapWith p v u => exact kept_swapWith htmp hidle h
  | detach p v => exact kept_release_idle htmp (hsole p v rfl) h
  | destroy p v => exact kept_release_idle htmp (hsole p v rfl) h
  | remove p name =>
    cases h
    exact kept_done hidle hstart rfl rfl rfl rfl htmp fun _ _ => .rfl
  | step p ans => cases h
  | die p => cases h

/-! ## Runs -/

/-- While an object is created, its slots are free or the creator's. -/
theorem pid_of_stage {S : Setup} {object : Object T} {pc : CreatePc} (h : pc.Stage S object)
    (role : Role) : object.pid role = 0 ∨ object.pid role = S.creator := by
  by_cases hrole : role = S.role
  · subst hrole
    have hclaim := h.claim
    cases pc with
    | binding b => exact .inl hclaim.1
    | ready handle => exact .inr hclaim.1
    | _ => exact .inl hclaim
  · exact .inl (h.peer role hrole)

/-- An object that is being created has been opened, and is not ready. -/
theorem Inv.creating (hinv : w.Inv) (h : (w.proc p).call.creates = some o) :
    o < w.nextObject ∧ (w.objects o).ready = 0 := by
  have hfits := hinv.fits p
  unfold Fits at hfits
  generalize (w.proc p).call = c at h hfits
  cases c with
  | create S whole v o' pc =>
    cases h
    exact ⟨hfits.2.2.1, hfits.2.2.2.1.ready⟩
  | _ => cases h

/-- A process that takes no step stays where it can be. -/
theorem Kept.fits_of_ne (hk : Kept w w' p) (hinv : w.Inv) (hlive : w.live p) (hq : q ≠ p)
    (hproc : w'.proc q = w.proc q) : w'.Fits q := by
  have hfits := hinv.fits q
  have halone := fun o => hinv.alone p q o
  have hpos := pos_of_live hlive
  unfold Fits at hfits ⊢
  rw [hproc]
  generalize (w.proc q).call = c at hfits halone
  cases c with
  | create S whole v o pc =>
    obtain ⟨hcreator, hv, ho, hstage, htmp⟩ := hfits
    refine ⟨hcreator, hv, ho.trans_le hk.next, ?_, htmp⟩
    -- nobody else stores to an object that `q` creates : it is not ready, and its slots are
    -- free or hold the pid of `q`
    rcases hk.objects o with heq | hcreates | ⟨role, x, -, hready | hpid⟩
    · rwa [heq]
    · exact absurd (halone o hcreates rfl) (Ne.symm hq)
    · exact absurd (hstage.ready.symm.trans hready) (by decide)
    · rcases pid_of_stage hstage role with hzero | hown
      · omega
      · exact absurd (hcreator.symm.trans (hown.symm.trans hpid)) hq
  | attach name role v o pc =>
    obtain ⟨hv, hready, htmp⟩ := hfits
    refine ⟨hv, fun hpassed => ?_, htmp⟩
    rcases hk.objects o with heq | hcreates | ⟨role, x, heq, -⟩
    · rw [heq, hready hpassed]
    · exact absurd ((hinv.creating hcreates).2.symm.trans (hready hpassed)) (by decide)
    · rw [heq, Object.setPid_ready, hready hpassed]
  | resetting v next => cases next <;> exact hfits
  | _ => exact hfits

/-- What a step leaves keeps the invariant. -/
theorem Kept.inv (hk : Kept w w' p) (hinv : w.Inv) (hlive : w.live p)
    (hothers : ∀ q, q ≠ p → w'.proc q = w.proc q) : w'.Inv where
  blank o ho := by
    have hblank := hinv.blank o (hk.next.trans ho)
    have hpos := pos_of_live hlive
    rcases hk.objects o with heq | hcreates | ⟨role, x, -, hready | hpid⟩
    · rwa [heq]
    · exact absurd (hinv.creating hcreates).1 (by have := hk.next; omega)
    · exact absurd (hblank.ready.symm.trans hready) (by decide)
    · have := hblank.pid role
      omega
  fits q := by
    by_cases hq : q = p
    · subst hq
      exact hk.fits
    · exact hk.fits_of_ne hinv hlive hq (hothers q hq)
  alone := alone_of_creates hothers (fun _ _ hq => (hinv.creating hq).1) hinv.alone hk.creates
  seat o role := by
    rcases Relation.reflGen_iff .. |>.mp (hk.seats o role) with heq | hstep
    · rw [heq]
      exact hinv.seat o role
    · exact (hinv.seat o role).step hstep

theorem inv_start (slots : ℕ → T) : (start slots).Inv where
  blank o _ := ⟨rfl, rfl, rfl, rfl, fun role => by cases role <;> rfl⟩
  fits p := rfl
  alone p q o h := by cases h
  seat o role := by
    refine .of_free (fun halive => ?_) (fun p => ?_) fun p => rfl
    · have hpos : 0 < (0 : ℤ) := by
        cases role <;> exact pos_of_live halive
      omega
    · rintro ⟨v, hv⟩
      cases hv

/-- A death leaves everything but the lives. -/
theorem inv_die (hinv : w.Inv) : ({ w with dead := Function.update w.dead p true }).Inv where
  blank := hinv.blank
  fits := hinv.fits
  alone := hinv.alone
  seat o role := by
    have hseat : ({ w with dead := Function.update w.dead p true } : World T).seat o role =
        { w.seat o role with alive := fun q => (w.seat o role).alive q ∧ q ≠ p } := by
      simp only [seat, State.mk.injEq, true_and, and_true]
      refine ⟨?_, rfl⟩
      funext q
      by_cases hq : q = p <;> simp [live, hq]
    rw [hseat]
    exact (hinv.seat o role).step .die

/-- Every step that meets the condition keeps the invariant. -/
theorem inv_step (hinv : w.Inv) (hsole : w.soleRelease a) (h : w.step a = some w') : w'.Inv := by
  have hothers : ∀ q, q ≠ a.pid → w'.proc q = w.proc q := fun q hq => proc_of_step hq h
  obtain ⟨hlive, ⟨p, rfl, rfl⟩ | ⟨p, ans, rfl, hadm, hcall⟩ | ⟨hidle, hstart⟩⟩ := step_cases h
  · exact inv_die hinv
  · exact (kept_stepCall hinv hlive hadm hsole hcall).inv hinv hlive hothers
  · exact (kept_startCall hinv hidle hsole hstart).inv hinv hlive hothers

theorem inv_of_reaches {slots : ℕ → T} (run : Reaches step soleRelease (start slots) w) :
    w.Inv :=
  run.invariant (inv_start slots) fun _ _ _ hinv hsole h => inv_step hinv hsole h

end World

end ShmSpsc
