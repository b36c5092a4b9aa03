import ShmSpsc.Lifecycle

/-!
# The names over a step

Ownership of a segment is a flag and a name, not an object : `reset()` of an owning handle and
the failure path of `create` unlink whatever the name is bound to (`World.unlinking`), and a
`create` unlinks its name before it knows whether it can make an object (`World.failing`). The
other steps leave the names alone, but for `shm_unlink` and `shm_open` of a `create`, and
`remove` (`World.sameNames_createStep` and its siblings, `World.names_startCall`).

Until a `create` has mapped its object its temporary owns nothing (`World.tmpInv_step`), so
that assigning `seg_` unlinks no name.
-/

namespace ShmSpsc

open Transition Function

variable {T : Type*}

/-- The call has not yet created a segment in the temporary. -/
def Call.building : Call → Bool
  | .unlink .. => true
  | .shmOpen .. => true
  | .create _ _ _ _ .ftruncate => true
  | .create _ _ _ _ .mmap => true
  | .attach .. => true
  | .openSegment .. => true
  | _ => false

/-- The name of a `create` between its `shm_unlink` and its `shm_open`. -/
def Call.opens : Call → Option String
  | .shmOpen S _ _ => some S.name
  | _ => none

namespace World

variable {w w' : World T} {a : WorldAct} {p q : ℤ} {v : ℕ} {c : Call}

/-- The name that the next step of the call unlinks on behalf of an owner, and the owner's
object. -/
def unlinkingCall (w : World T) (p : ℤ) : Call → Option (String × Option ℕ)
  | .cleanup name o => some (name, some o)
  | .resetting v _ =>
    match w.var p v with
    | some q =>
      if q.seg.owner ∧ q.seg.name ≠ "" then
        some (q.seg.name, q.seg.addr.map Mapping.object) else none
    | none => none
  | _ => none

/-- The name that the action unlinks on behalf of an owner, and the owner's object. -/
def unlinking (w : World T) : WorldAct → Option (String × Option ℕ)
  | .step p _ => w.unlinkingCall p (w.proc p).call
  | _ => none

/-- An owner's unlink finds the name unbound, or bound to its own object. -/
def ownUnlink (w : World T) (a : WorldAct) : Bool :=
  match w.unlinking a with
  | some (name, own) => w.names name = none ∨ w.names name = own
  | none => true

/-- The name of the call if it is a `create` whose `shm_open` fails. -/
def failingCall (w : World T) : Call → Option String
  | .shmOpen S _ _ =>
    if S.calls.shmOpen = none ∧ w.names S.name = none then none else some S.name
  | _ => none

/-- The name of a `create` that ends between its `shm_unlink` and an object of its own : its
`shm_open` fails, or the process dies before it. -/
def failing (w : World T) : WorldAct → Option String
  | .step p _ => w.failingCall (w.proc p).call
  | .die p => (w.proc p).call.opens
  | _ => none

/-- The name that process `p` is about to bind. -/
def opening (w : World T) (p : ℤ) : Option String :=
  if w.live p then (w.proc p).call.opens else none

/-- The names, the objects there are, and the deaths are the same. -/
structure SameNames (w w' : World T) : Prop where
  names : w'.names = w.names
  next : w'.nextObject = w.nextObject
  dead : w'.dead = w.dead

/-- Until a `create` has mapped its object the temporary owns nothing, and in an `attach` it
never does. -/
def TmpInv (w : World T) (p : ℤ) : Prop :=
  (w.proc p).call.building → ∀ q, w.var p tmp = some q → q.seg.owner = false

/-! ## Names over a step -/

/-- Assigning `seg_` unlinks nothing if the segment before was not an owner. -/
theorem sameNames_resetSegment {seg : Segment} (h : seg.owner = false) :
    SameNames w (w.resetSegment seg) := by
  unfold resetSegment
  rw [if_neg (by simp [h])]
  exact ⟨rfl, rfl, rfl⟩

theorem sameNames_mapTmp {h : Queue} {o : ℕ} {size : UInt64} {owner whole : Bool} {name : String}
    (hown : h.seg.owner = false) : SameNames w (w.mapTmp p h o size owner name whole) := by
  have hreset := sameNames_resetSegment (w := w) hown
  exact ⟨hreset.names, hreset.next, hreset.dead⟩

theorem SameNames.goto (h : SameNames w w') : SameNames w (w'.goto p c) :=
  ⟨h.names, h.next, h.dead⟩

/-- `detach` stores to a pid slot, and to no name. -/
theorem sameNames_release {next : Next} (h : w.release p v next = some w') :
    SameNames w w' := by
  unfold release at h
  split at h
  next q hq =>
    cases h
    have hclear : SameNames w (w.clearPid p q) := by
      unfold clearPid
      split
      · split_ifs <;> exact ⟨rfl, rfl, rfl⟩
      · exact ⟨rfl, rfl, rfl⟩
    exact ⟨hclear.names, hclear.next, hclear.dead⟩
  next => cases h

theorem sameNames_bindStep {role : Role} {o : ℕ} {b : BindPc} {ans : Answers}
    {more : BindPc → Call} {bound : Handle → Call}
    (h : w.bindStep p role o b ans more bound = some w') : SameNames w w' := by
  unfold bindStep at h
  split at h
  · cases h
    split <;> exact ⟨rfl, rfl, rfl⟩
  · cases h

theorem sameNames_storeStep {S : Setup} {whole : Bool} {o : ℕ} {ans : Answers} {pc : CreatePc} :
    SameNames w (w.storeStep p S whole v o ans pc) := by
  unfold storeStep
  dsimp only
  split <;> exact ⟨rfl, rfl, rfl⟩

theorem sameNames_checkStep {name : String} {role : Role} {o : ℕ} {ans : Answers}
    {pc : AttachPc} : SameNames w (w.checkStep p name role v o ans pc) := by
  unfold checkStep
  split <;> exact ⟨rfl, rfl, rfl⟩

/-- After its `shm_open` a `create` leaves the names. -/
theorem sameNames_createStep {S : Setup} {whole : Bool} {o : ℕ} {ans : Answers} {pc : CreatePc}
    (htmp : (Call.create S whole v o pc).building → ∀ q, w.var p tmp = some q → q.seg.owner = false)
    (h : w.createStep p S whole v o ans pc = some w') : SameNames w w' := by
  cases pc with
  | mmap =>
    simp only [createStep] at h
    split at h
    · cases h
      exact ⟨rfl, rfl, rfl⟩
    next q hq _ =>
      cases h
      exact (sameNames_mapTmp (htmp rfl _ hq)).goto
    · cases h
  | binding b => exact sameNames_bindStep h
  | _ =>
    cases h
    exact sameNames_storeStep

/-- `attach` leaves the names. -/
theorem sameNames_attachStep {name : String} {role : Role} {o : ℕ} {ans : Answers} {pc : AttachPc}
    (htmp : ∀ q, w.var p tmp = some q → q.seg.owner = false)
    (h : w.attachStep p name role v o ans pc = some w') : SameNames w w' := by
  cases pc with
  | opening A =>
    simp only [attachStep] at h
    split at h
    next q o' mapped hq _ =>
      cases h
      exact (sameNames_mapTmp (htmp q hq)).goto
    · cases h
      split_ifs <;> exact ⟨rfl, rfl, rfl⟩
    · cases h
  | binding b => exact sameNames_bindStep h
  | _ =>
    cases h
    exact sameNames_checkStep

/-- A call of a process between two calls unlinks nothing, or is `remove`. -/
theorem names_startCall (h : w.startCall a = some w') :
    SameNames w w' ∨ ∃ p name, a = .remove p name ∧ w' = w.unlink name := by
  cases a with
  | remove p name =>
    cases h
    exact .inr ⟨p, name, rfl, rfl⟩
  | detach p v => exact .inl (sameNames_release h)
  | destroy p v => exact .inl (sameNames_release h)
  | moveAssign p v u =>
    simp only [startCall] at h
    split at h
    · split_ifs at h
      · cases h
        exact .inl ⟨rfl, rfl, rfl⟩
      · exact .inl (sameNames_release h)
    · cases h
  | moveConstruct p v u =>
    simp only [startCall] at h
    split at h
    · split_ifs at h
      cases h
      exact .inl ⟨rfl, rfl, rfl⟩
    · cases h
  | swapWith p v u =>
    simp only [startCall] at h
    split at h
    · cases h
      exact .inl ⟨rfl, rfl, rfl⟩
    · cases h
  | step p ans => cases h
  | die p => cases h
  | _ =>
    simp only [startCall] at h
    split_ifs at h
    cases h
    exact .inl ⟨rfl, rfl, rfl⟩

/-! ## The temporary over a step -/

theorem tmpInv_of_not_building (h : (w.proc p).call.building = false) : TmpInv w p := by
  intro hb
  rw [h] at hb
  cases hb

theorem tmpInv_release {next : Next} (h : w.release p v next = some w') : TmpInv w' p := by
  unfold release at h
  split at h
  · cases h
    exact tmpInv_of_not_building (by simp [Call.building])
  · cases h

/-- A step that leaves the temporary's segment, or assigns one that is not owned. -/
theorem tmpInv_bindStep {role : Role} {o : ℕ} {b : BindPc} {ans : Answers}
    {more : BindPc → Call} {bound : Handle → Call}
    (htmp : ∀ q, w.var p tmp = some q → (∃ b', (more b').building) → q.seg.owner = false)
    (hbound : ∀ h, (bound h).building = false)
    (h : w.bindStep p role o b ans more bound = some w') : TmpInv w' p := by
  unfold bindStep at h
  split at h
  next q hq =>
    have hseg : (q.assign role (w.objects o) b).seg = q.seg := by
      cases b <;> rfl
    cases h
    split
    next b' _ =>
      intro hb q' hq'
      rw [call_goto] at hb
      rw [var_goto, var_setVar_self] at hq'
      cases hq'
      rw [hseg]
      exact htmp q hq ⟨b', hb⟩
    · exact tmpInv_of_not_building (by simp [hbound])
    · exact tmpInv_of_not_building (by simp [Call.building])
  next => cases h

/-- A step of `create` after its `shm_open`. -/
theorem tmpInv_createStep {S : Setup} {whole : Bool} {v o : ℕ} {ans : Answers} {pc : CreatePc}
    (htmp : (Call.create S whole v o pc).building → ∀ q, w.var p tmp = some q →
      q.seg.owner = false)
    (h : w.createStep p S whole v o ans pc = some w') : TmpInv w' p := by
  cases pc with
  | ftruncate =>
    cases h
    cases htrunc : ftruncate S.calls.ftruncate S.bytes with
    | some e =>
      exact tmpInv_of_not_building
        (by simp [storeStep, ShmSpsc.createStep, htrunc, Call.building])
    | none =>
      intro _ q hq
      refine htmp rfl q ?_
      simpa [storeStep, ShmSpsc.createStep, htrunc, var, goto, setObject] using hq
  | mmap =>
    simp only [createStep] at h
    split at h <;> cases h
    · exact tmpInv_of_not_building (by simp [Call.building])
    · refine tmpInv_of_not_building ?_
      rw [call_goto]
      split_ifs <;> rfl
  | binding b =>
    refine tmpInv_bindStep (fun q _ hb => ?_) (fun _ => rfl) h
    obtain ⟨b', hb⟩ := hb
    cases hb
  | _ =>
    cases h
    refine tmpInv_of_not_building ?_
    simp [storeStep, ShmSpsc.createStep, Call.building]

/-- A step of `attach`, whose temporary never owns its segment. -/
theorem tmpInv_attachStep {name : String} {role : Role} {v o : ℕ} {ans : Answers} {pc : AttachPc}
    (hown : ∀ q, w.var p tmp = some q → q.seg.owner = false)
    (h : w.attachStep p name role v o ans pc = some w') : TmpInv w' p := by
  cases pc with
  | opening A =>
    simp only [attachStep] at h
    split at h <;> cases h
    · intro _ q hq
      rw [var_goto, var_mapTmp] at hq
      cases hq
      rfl
    · split_ifs
      · exact tmpInv_of_not_building (by simp [Call.building])
      · intro _ q hq
        exact hown q (by simpa [var, goto] using hq)
  | binding b => exact tmpInv_bindStep (fun q hq _ => hown q hq) (fun _ => rfl) h
  | _ =>
    cases h
    unfold checkStep
    split
    · intro _ q hq
      exact hown q (by simpa [var, goto] using hq)
    · exact tmpInv_of_not_building (by simp [Call.building])
    · exact tmpInv_of_not_building (by simp [Call.building])

/-- The next step of a call. -/
theorem tmpInv_stepCall {ans : Answers} (htmp : TmpInv w p)
    (h : w.stepCall p ans (w.proc p).call = some w') : TmpInv w' p := by
  unfold TmpInv at htmp
  generalize (w.proc p).call = c at htmp h
  cases c with
  | idle => cases h
  | unlink S whole v =>
    cases h
    intro _ q hq
    exact htmp rfl q (by simpa [var, goto, unlink] using hq)
  | shmOpen S whole v =>
    cases h
    unfold shmOpen
    dsimp only
    split
    · exact tmpInv_of_not_building (by simp [Call.building])
    · exact tmpInv_of_not_building (by simp [Call.building])
    · intro _ q hq
      exact htmp rfl q (by simpa [var, goto] using hq)
  | create S whole v o pc => exact tmpInv_createStep htmp h
  | cleanup name o =>
    cases h
    exact tmpInv_of_not_building (by simp [Call.building])
  | attach name role v o pc => exact tmpInv_attachStep (htmp rfl) h
  | openSegment name v =>
    simp only [stepCall] at h
    split at h <;> cases h
    · exact tmpInv_of_not_building (by simp [Call.building])
    · exact tmpInv_of_not_building (by simp [Call.building])
  | placing v =>
    simp only [stepCall] at h
    split at h
    · exact tmpInv_release h
    · cases h
      exact tmpInv_of_not_building (by simp [Call.building])
  | destroying v => exact tmpInv_release h
  | resetting v next =>
    simp only [stepCall, reset] at h
    split at h
    · refine tmpInv_of_not_building ?_
      cases next <;> cases h <;> rw [call_goto]
      · rfl
      · rfl
      · split_ifs <;> rfl
    · cases h

/-- A new call has a temporary that owns nothing. -/
theorem tmpInv_startCall (hidle : (w.proc a.pid).call = .idle) (h : w.startCall a = some w') :
    TmpInv w' a.pid := by
  have idle {x y : Option Queue} {v u : ℕ} {p : ℤ} (hp : (w.proc p).call = .idle) :
      TmpInv ((w.setVar p v x).setVar p u y) p := by
    refine tmpInv_of_not_building ?_
    simp [setVar, hp, Call.building]
  have fresh {c : Call} {p : ℤ} : TmpInv ((w.setVar p tmp (some .null)).goto p c) p := by
    intro _ q hq
    rw [var_goto, var_setVar_self] at hq
    cases hq
    rfl
  cases a with
  | detach p v => exact tmpInv_release h
  | destroy p v => exact tmpInv_release h
  | remove p name =>
    cases h
    exact tmpInv_of_not_building (congrArg Call.building hidle)
  | step p ans => cases h
  | die p => cases h
  | moveAssign p v u =>
    simp only [startCall] at h
    split at h
    · split_ifs at h
      · cases h
        exact tmpInv_of_not_building (by rw [hidle]; rfl)
      · exact tmpInv_release h
    · cases h
  | moveConstruct p v u =>
    simp only [startCall] at h
    split at h
    · split_ifs at h
      cases h
      exact idle hidle
    · cases h
  | swapWith p v u =>
    simp only [startCall] at h
    split at h <;> cases h
    exact idle hidle
  | construct p v =>
    simp only [startCall] at h
    split_ifs at h
    cases h
    refine tmpInv_of_not_building ?_
    simp only [WorldAct.pid] at hidle ⊢
    simp [setVar, hidle, Call.building]
  | create p v S whole =>
    simp only [startCall] at h
    split_ifs at h
    cases h
    exact fresh
  | attach p v name role A =>
    simp only [startCall] at h
    split_ifs at h
    cases h
    exact fresh
  | openSegment p v name =>
    simp only [startCall] at h
    split_ifs at h
    cases h
    exact fresh

/-- Every step keeps it, for every process. -/
theorem tmpInv_step (htmp : ∀ p, TmpInv w p) (h : w.step a = some w') (p : ℤ) : TmpInv w' p := by
  by_cases hp : p = a.pid
  · subst hp
    rcases (step_cases h).2 with ⟨p, rfl, rfl⟩ | ⟨p, ans, rfl, -, hcall⟩ | ⟨hidle, hstart⟩
    · exact htmp p
    · exact tmpInv_stepCall (htmp p) hcall
    · exact tmpInv_startCall hidle hstart
  · have hproc := proc_of_step hp h
    have := htmp p
    simp only [TmpInv, var, hproc] at this ⊢
    exact this

/-! ## Who is about to bind a name -/

theorem opens_release {next : Next} (h : w.release p v next = some w') :
    (w'.proc p).call.opens = none := by
  obtain ⟨q, -, rfl⟩ := release_eq h
  rw [call_goto]
  rfl

theorem opens_bindStep {role : Role} {o : ℕ} {b : BindPc} {ans : Answers} {more : BindPc → Call}
    {bound : Handle → Call} (hmore : ∀ b', (more b').opens = none)
    (hbound : ∀ h, (bound h).opens = none)
    (h : w.bindStep p role o b ans more bound = some w') : (w'.proc p).call.opens = none := by
  unfold bindStep at h
  split at h
  · cases h
    split
    · rw [call_goto, hmore]
    · rw [call_goto, hbound]
    · rw [call_throw]
      rfl
  · cases h

/-- Only the `shm_unlink` of a `create` comes before its `shm_open`. -/
theorem opens_stepCall {ans : Answers} (hc : ∀ S whole v, c ≠ .unlink S whole v)
    (h : w.stepCall p ans c = some w') : (w'.proc p).call.opens = none := by
  cases c with
  | idle => cases h
  | unlink S whole v => exact absurd rfl (hc S whole v)
  | shmOpen S whole v =>
    cases h
    unfold shmOpen
    dsimp only
    split <;> simp [Call.opens]
  | create S whole v o pc =>
    cases pc with
    | mmap =>
      simp only [stepCall, createStep] at h
      split at h <;> cases h
      · simp [Call.opens]
      · rw [call_goto]
        split_ifs <;> rfl
    | binding b => exact opens_bindStep (fun _ => rfl) (fun _ => rfl) h
    | _ =>
      cases h
      unfold storeStep
      dsimp only
      split <;> simp [Call.opens]
  | cleanup name o =>
    cases h
    simp [Call.opens]
  | attach name role v o pc =>
    cases pc with
    | opening A =>
      simp only [stepCall, attachStep] at h
      split at h <;> cases h
      · simp [Call.opens]
      · split_ifs <;> simp [Call.opens]
    | binding b => exact opens_bindStep (fun _ => rfl) (fun _ => rfl) h
    | _ =>
      cases h
      unfold checkStep
      split <;> simp [Call.opens]
  | openSegment name v =>
    simp only [stepCall] at h
    split at h <;> cases h
    · simp [Call.opens]
    · simp [Call.opens]
  | placing v =>
    simp only [stepCall] at h
    split at h
    · exact opens_release h
    · cases h
      simp [Call.opens]
  | destroying v => exact opens_release h
  | resetting v next =>
    simp only [stepCall, reset] at h
    split at h
    · cases next <;> cases h <;> rw [call_goto]
      · rfl
      · rfl
      · split_ifs <;> rfl
    · cases h

theorem opens_startCall (hidle : (w.proc a.pid).call = .idle) (h : w.startCall a = some w') :
    (w'.proc a.pid).call.opens = none := by
  cases a with
  | detach p v => exact opens_release h
  | destroy p v => exact opens_release h
  | remove p name =>
    cases h
    exact congrArg Call.opens hidle
  | step p ans => cases h
  | die p => cases h
  | moveAssign p v u =>
    simp only [startCall] at h
    split at h
    · split_ifs at h
      · cases h
        exact congrArg Call.opens hidle
      · exact opens_release h
    · cases h
  | moveConstruct p v u =>
    simp only [startCall] at h
    split at h
    · split_ifs at h
      cases h
      simp only [WorldAct.pid, call_setVar]
      exact congrArg Call.opens hidle
    · cases h
  | swapWith p v u =>
    simp only [startCall] at h
    split at h <;> cases h
    simp only [WorldAct.pid, call_setVar]
    exact congrArg Call.opens hidle
  | construct p v =>
    simp only [startCall] at h
    split_ifs at h
    cases h
    simp only [WorldAct.pid, call_setVar]
    exact congrArg Call.opens hidle
  | _ =>
    simp only [startCall] at h
    split_ifs at h
    cases h
    simp [WorldAct.pid, Call.opens]

end World

end ShmSpsc
