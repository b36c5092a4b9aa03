import ShmSpsc.Seats
import ShmSpsc.Tidy

/-!
# Handles own mappings linearly

Along every run on queues, `Ledger.Inv` puts the books on mappings and on owned names together
with `World.Tidy`. `World.footprint_step` says which handles and which object a step stores to,
and `World.accesses` through which `ctrl_`. From these : no step goes through a control block that
is not mapped (`Ledger.Inv.mapped_of_accesses`), a handle that was moved from or detached is empty
and stays so until it is assigned to (`World.empty_of_leaves`, `World.empty_of_spares`), and the
release of an empty handle changes nothing (`World.same_of_givesUp`). `Ledger.handles_linear` is
the whole.
-/

namespace ShmSpsc

open Transition
open Function (update update_self update_of_ne)

variable {T : Type*}

/-- The segment itself, if its `reset()` unlinks the name. -/
def Segment.owned (seg : Segment) : Option Segment :=
  if seg.owner = true ∧ seg.name ≠ "" then some seg else none

theorem reading_addr : Reading Segment.addr where
  null := rfl
  addr _ _ _ hs hs' := hs.trans hs'.symm

theorem reading_owned : Reading Segment.owned where
  null := rfl
  addr s s' t hs hs' := by
    unfold Segment.owned at hs hs'
    split_ifs at hs hs'
    cases hs
    cases hs'
    rfl

/-- A handle that has given everything up. -/
structure Queue.Empty (q : Queue) : Prop where
  seg : q.seg = .null
  ctrl : q.ctrl = none
  slots : q.slots = none
  bound : q.bound = false

/-- The handles that the next step of a call stores to. -/
def Call.stores : Call → List ℕ
  | .create .. => [tmp]
  | .attach .. => [tmp]
  | .openSegment .. => [tmp]
  | .placing v => [v, tmp]
  | .destroying v => [v]
  | .resetting v (.swap u) => [v, u]
  | .resetting v _ => [v]
  | _ => []

namespace World

/-! ## Stores and accesses -/

/-- The control block that `detach()` of handle `v` goes through, with its object. -/
def clears (w : World T) (p : ℤ) (v : ℕ) : Option (Option Mapping × ℕ) :=
  (w.var p v).bind fun q => if q.bound then q.ctrl.map fun m => (some m, m.object) else none

/-- The control block that the next step of `create` or `attach` goes through, with the object
it works on. -/
def uses (w : World T) (p : ℤ) : Call → Option (Option Mapping × ℕ)
  | .create _ _ _ _ .ftruncate => none
  | .create _ _ _ _ .mmap => none
  | .create _ _ _ o _ => some ((w.var p tmp).bind Queue.ctrl, o)
  | .attach _ _ _ _ (.opening _) => none
  | .attach _ _ _ o _ => some ((w.var p tmp).bind Queue.ctrl, o)
  | _ => none

/-- The `ctrl_` that the action dereferences, with the object. -/
def accesses (w : World T) (a : WorldAct) : Option (Option Mapping × ℕ) :=
  match w.releases a with
  | some (p, v) => w.clears p v
  | none =>
    match a with
    | .step p _ => w.uses p (w.proc p).call
    | _ => none

variable {w w' : World T} {a : WorldAct} {p : ℤ} {v o : ℕ} {q : Queue}

/-- The action is a step of `create` that sizes object `o`. -/
def truncates (w : World T) (a : WorldAct) (o : ℕ) : Prop :=
  ∃ p ans S whole v, a = .step p ans ∧ (w.proc p).call = .create S whole v o .ftruncate

/-- The handles of its process that the action stores to. -/
def stores (w : World T) : WorldAct → List ℕ
  | .create .. => [tmp]
  | .attach .. => [tmp]
  | .openSegment .. => [tmp]
  | .construct _ v => [v]
  | .moveConstruct _ v u => [v, u]
  | .moveAssign _ v _ => [v]
  | .swapWith _ v u => [v, u]
  | .detach _ v => [v]
  | .destroy _ v => [v]
  | .step p _ => (w.proc p).call.stores
  | .remove .. => []
  | .die _ => []

/-- The step stores to the handles `vs` of process `p` only, and to no object but where `P`
holds. -/
structure Footprint (w w' : World T) (p : ℤ) (vs : List ℕ) (P : ℕ → Prop) : Prop where
  vars : ∀ v, v ∉ vs → (w'.proc p).vars v = (w.proc p).vars v
  objects : ∀ o, w'.objects o = w.objects o ∨ P o

namespace Footprint

variable {vs : List ℕ} {P Q : ℕ → Prop}

theorem none (hvars : (w'.proc p).vars = (w.proc p).vars) (hobjects : w'.objects = w.objects) :
    Footprint w w' p vs P :=
  ⟨fun _ _ => by rw [hvars], fun _ => .inl (by rw [hobjects])⟩

theorem mono (h : Footprint w w' p vs P) (hPQ : ∀ o, P o → Q o) : Footprint w w' p vs Q :=
  ⟨h.vars, fun o => (h.objects o).imp_right (hPQ o)⟩

theorem release {next : Next} (h : w.release p v next = some w') :
    Footprint w w' p [v] fun o => ∃ x, w.clears p v = some (x, o) := by
  obtain ⟨q, hq, rfl⟩ := release_eq h
  refine ⟨fun c hc => ?_, fun o => ?_⟩
  · rw [vars_goto, vars_setVar, proc_clearPid, update_of_ne (by simpa using hc)]
  · have hobjects : (((w.clearPid p q).setVar p v (some q.released)).goto p
        (.resetting v next)).objects = (w.clearPid p q).objects := rfl
    rw [hobjects]
    unfold clearPid
    split
    next m hm =>
      split_ifs with hclear
      · by_cases ho : o = m.object
        · subst ho
          exact .inr ⟨some m, by simp [clears, hq, hclear.1, hm]⟩
        · exact .inl (by simp [setObject, ho])
      · exact .inl rfl
    next => exact .inl rfl

theorem mapTmp {size : UInt64} {owner whole : Bool} {name : String} {c : Call} :
    Footprint w ((w.mapTmp p q o size owner name whole).goto p c) p [tmp] P := by
  refine ⟨fun v hv => ?_, fun o => .inl (congrFun (resetSegment_frame w q.seg).1 o)⟩
  rw [vars_goto, vars_mapTmp, update_of_ne (by simpa using hv)]

theorem bindStep {role : Role} {b : BindPc} {ans : Answers} {more : BindPc → Call}
    {bound : Handle → Call} (h : w.bindStep p role o b ans more bound = some w') :
    Footprint w w' p [tmp] (· = o) := by
  obtain ⟨_, _, -, -, -, hobjects, hvars, -⟩ := bindStep_cases h
  refine ⟨fun v hv => ?_, fun o' => ?_⟩
  · rw [hvars, update_of_ne (by simpa using hv)]
  · by_cases ho : o' = o
    · exact .inr ho
    · exact .inl (by rw [hobjects, update_of_ne ho])

theorem storeStep {S : Setup} {whole : Bool} {ans : Answers} {pc : CreatePc} :
    Footprint w (w.storeStep p S whole v o ans pc) p vs (· = o) := by
  have hset {object : Object T} {x : Proc} (hx : x.vars = (w.proc p).vars) :
      Footprint w ((w.setObject o object).setProc p x) p vs (· = o) := by
    refine ⟨fun v _ => by rw [proc_setProc_self, hx], fun o' => ?_⟩
    by_cases ho : o' = o
    · exact .inr ho
    · exact .inl (by simp [setObject, setProc, ho])
  unfold World.storeStep
  dsimp only
  split <;> exact hset rfl

theorem reset {next : Next} (h : w.reset p v next = some w') :
    Footprint w w' p (Call.resetting v next).stores P := by
  unfold World.reset at h
  split at h
  next q hq =>
    have hobjects := congrFun (resetSegment_frame w q.seg).1
    cases next with
    | swap u =>
      cases h
      refine ⟨fun c hc => ?_, fun o => .inl (hobjects o)⟩
      obtain ⟨hv, hu⟩ : c ≠ v ∧ c ≠ u := by simpa [Call.stores] using hc
      rw [vars_goto, vars_setVar, vars_setVar, proc_resetSegment, update_of_ne hu, update_of_ne hv]
    | _ =>
      cases h
      refine ⟨fun c hc => ?_, fun o => .inl (hobjects o)⟩
      have hv : c ≠ v := by simpa [Call.stores] using hc
      rw [vars_goto, vars_setVar, proc_resetSegment, update_of_ne hv]
  next => cases h

end Footprint

/-- What a step of `create` after its `shm_open` stores to. -/
theorem footprint_createStep {S : Setup} {whole : Bool} {ans : Answers} {pc : CreatePc}
    (hcall : (w.proc p).call = .create S whole v o pc)
    (h : w.createStep p S whole v o ans pc = some w') :
    Footprint w w' p (Call.create S whole v o pc).stores fun o' =>
      w.truncates (.step p ans) o' ∨ ∃ x, w.accesses (.step p ans) = some (x, o') := by
  cases pc with
  | mmap =>
    simp only [createStep] at h
    split at h <;> cases h
    · exact .none vars_throw rfl
    · exact .mapTmp
  | binding b =>
    refine (Footprint.bindStep h).mono ?_
    rintro _ rfl
    exact .inr ⟨_, by simp only [accesses, releases, hcall, uses]; rfl⟩
  | ftruncate =>
    cases h
    refine Footprint.storeStep.mono ?_
    rintro _ rfl
    exact .inl ⟨p, ans, S, whole, v, rfl, hcall⟩
  | _ =>
    cases h
    refine Footprint.storeStep.mono ?_
    rintro _ rfl
    exact .inr ⟨_, by simp only [accesses, releases, hcall, uses]; rfl⟩

/-- What a step of `attach` stores to. -/
theorem footprint_attachStep {name : String} {role : Role} {ans : Answers} {pc : AttachPc}
    (hcall : (w.proc p).call = .attach name role v o pc)
    (h : w.attachStep p name role v o ans pc = some w') :
    Footprint w w' p (Call.attach name role v o pc).stores fun o' =>
      w.truncates (.step p ans) o' ∨ ∃ x, w.accesses (.step p ans) = some (x, o') := by
  cases pc with
  | opening A =>
    simp only [attachStep] at h
    split at h <;> cases h
    · exact .mapTmp
    · split_ifs
      · exact .none vars_throw rfl
      · exact .none vars_goto rfl
  | binding b =>
    refine (Footprint.bindStep h).mono ?_
    rintro _ rfl
    exact .inr ⟨_, by simp only [accesses, releases, hcall, uses]; rfl⟩
  | _ =>
    cases h
    unfold checkStep
    split
    · exact .none vars_goto rfl
    · exact .none vars_goto rfl
    · exact .none vars_throw rfl

/-- What the next step of a call stores to : the object that it sizes, or the one it accesses. -/
theorem footprint_stepCall {ans : Answers} (h : w.stepCall p ans (w.proc p).call = some w') :
    Footprint w w' p (w.proc p).call.stores fun o =>
      w.truncates (.step p ans) o ∨ ∃ x, w.accesses (.step p ans) = some (x, o) := by
  cases hcall : (w.proc p).call with
  | idle =>
    rw [hcall] at h
    cases h
  | unlink S whole v =>
    rw [hcall] at h
    cases h
    exact .none vars_goto rfl
  | shmOpen S whole v =>
    rw [hcall] at h
    cases h
    unfold shmOpen
    dsimp only
    split
    · exact .none vars_throw rfl
    · exact .none vars_throw rfl
    · exact .none vars_goto rfl
  | create S whole v o pc =>
    rw [hcall] at h
    exact footprint_createStep hcall h
  | cleanup name o =>
    rw [hcall] at h
    cases h
    exact .none vars_goto rfl
  | attach name role v o pc =>
    rw [hcall] at h
    exact footprint_attachStep hcall h
  | openSegment name v =>
    rw [hcall] at h
    simp only [stepCall] at h
    split at h <;> cases h
    · exact .mapTmp
    · exact .none vars_throw rfl
  | placing v =>
    rw [hcall] at h
    simp only [stepCall] at h
    split at h
    · have hrelease := Footprint.release h
      refine ⟨fun c hc => hrelease.vars c ?_, fun o => (hrelease.objects o).imp_right fun hx => ?_⟩
      · simp only [Call.stores, List.mem_cons, not_or] at hc
        simpa using hc.1
      · exact .inr (by simpa only [accesses, releases, hcall] using hx)
    · cases h
      refine ⟨fun c hc => ?_, fun _ => .inl rfl⟩
      obtain ⟨hv, htmp⟩ : c ≠ v ∧ c ≠ tmp := by simpa [Call.stores] using hc
      rw [vars_goto, vars_setVar, vars_setVar, update_of_ne htmp, update_of_ne hv]
  | destroying v =>
    rw [hcall] at h
    refine (Footprint.release h).mono fun o hx => .inr ?_
    simpa only [accesses, releases, hcall] using hx
  | resetting v next =>
    rw [hcall] at h
    exact .reset h

/-- What a new call stores to. -/
theorem footprint_startCall (h : w.startCall a = some w') :
    Footprint w w' a.pid (w.stores a) fun o =>
      w.truncates a o ∨ ∃ x, w.accesses a = some (x, o) := by
  -- handles stored at once
  have hstored {p : ℤ} {v u : ℕ} {x y : Option Queue} {P : ℕ → Prop} :
      Footprint w ((w.setVar p v x).setVar p u y) p [v, u] P := by
    refine ⟨fun c hc => ?_, fun _ => .inl rfl⟩
    obtain ⟨hv, hu⟩ : c ≠ v ∧ c ≠ u := by simpa using hc
    rw [vars_setVar, vars_setVar, update_of_ne hu, update_of_ne hv]
  cases a with
  | detach p v => exact (Footprint.release h).mono fun _ hx => .inr hx
  | destroy p v => exact (Footprint.release h).mono fun _ hx => .inr hx
  | moveAssign p v u =>
    simp only [startCall] at h
    split at h
    · split_ifs at h with hvu
      · cases h
        exact .none rfl rfl
      · refine (Footprint.release h).mono fun _ hx => .inr ?_
        simpa only [accesses, releases, if_neg hvu] using hx
    · cases h
  | moveConstruct p v u =>
    simp only [startCall] at h
    split at h
    · split_ifs at h
      cases h
      exact hstored
    · cases h
  | swapWith p v u =>
    simp only [startCall] at h
    split at h <;> cases h
    exact hstored
  | remove p name =>
    cases h
    exact .none rfl rfl
  | step p ans => cases h
  | die p => cases h
  | _ =>
    simp only [startCall] at h
    split_ifs at h
    cases h
    refine ⟨fun c hc => ?_, fun _ => .inl rfl⟩
    simp only [stores, List.mem_singleton] at hc
    simp [WorldAct.pid, hc]

theorem footprint_step (h : w.step a = some w') :
    Footprint w w' a.pid (w.stores a) fun o =>
      w.truncates a o ∨ ∃ x, w.accesses a = some (x, o) := by
  obtain ⟨-, ⟨p, rfl, rfl⟩ | ⟨p, ans, rfl, -, hcall⟩ | ⟨-, hstart⟩⟩ := step_cases h
  · exact .none rfl rfl
  · exact footprint_stepCall hcall
  · exact footprint_startCall hstart

/-! ## Handles that have given everything up -/

/-- The handle that the action leaves moved from or detached. -/
def leaves (w : World T) : WorldAct → Option (ℤ × ℕ)
  | .moveConstruct p _ u => some (p, u)
  | .step p _ =>
    match (w.proc p).call with
    | .resetting v .keep => some (p, v)
    | .resetting _ (.swap u) => some (p, u)
    | _ => none
  | _ => none

/-- The action is a step of the release of handle `v` : of its `detach()`, or the
`seg_.reset()` at the end. -/
def givesUp (w : World T) (a : WorldAct) (p : ℤ) (v : ℕ) : Prop :=
  w.releases a = some (p, v) ∨
    ∃ ans next, a = .step p ans ∧ (w.proc p).call = .resetting v next

/-- The action stores nothing to handle `v`, unless it starts its release. -/
def spares (w : World T) (a : WorldAct) (p : ℤ) (v : ℕ) : Prop :=
  a.pid = p → v ∈ w.stores a → w.releases a = some (p, v)

theorem empty_null : Queue.null.Empty := ⟨rfl, rfl, rfl, rfl⟩

/-- After its `seg_.reset()` a handle is empty. -/
theorem empty_of_resetting {next : Next} (ht : w.Tidy) (hcall : (w.proc p).call = .resetting v next)
    (hq : w.var p v = some q) : ({ q with seg := .null } : Queue).Empty := by
  have hreleased := (fine_of_eq (by rw [hcall]; rfl)).mp (ht.handle p v q hq)
  exact ⟨rfl, hreleased.ctrl, hreleased.slots, hreleased.bound⟩

/-- A handle that was moved from or detached is empty. -/
theorem empty_of_leaves (ht : w.Tidy) (hl : w.leaves a = some (p, v)) (h : w.step a = some w') :
    ∃ q, w'.var p v = some q ∧ q.Empty := by
  obtain ⟨-, ⟨p', rfl, rfl⟩ | ⟨p', ans, rfl, -, hcall⟩ | ⟨-, hstart⟩⟩ := step_cases h
  · cases hl
  · simp only [leaves] at hl
    split at hl
    next v' hc =>
      cases hl
      rw [hc] at hcall
      simp only [stepCall, reset] at hcall
      split at hcall
      next q hq =>
        cases hcall
        exact ⟨_, by rw [var_goto, var_setVar_self], empty_of_resetting ht hc hq⟩
      next => cases hcall
    next v' u hc =>
      cases hl
      rw [hc] at hcall
      simp only [stepCall, reset] at hcall
      split at hcall
      next q hq =>
        cases hcall
        exact ⟨_, by rw [var_goto, var_setVar_self], empty_of_resetting ht hc hq⟩
      next => cases hcall
    next => cases hl
  · cases a with
    | moveConstruct p' v' u =>
      cases hl
      simp only [startCall] at hstart
      split at hstart
      · split_ifs at hstart
        cases hstart
        exact ⟨.null, var_setVar_self, empty_null⟩
      · cases hstart
    | step p' ans => cases hstart
    | _ => cases hl

/-- The release of an empty handle changes nothing that others see, and leaves it empty. -/
theorem release_empty {next : Next} (hq : w.var p v = some q) (he : q.Empty)
    (h : w.release p v next = some w') :
    w'.objects = w.objects ∧ w'.names = w.names ∧ w'.unmapped = w.unmapped ∧
      w'.var p v = some q := by
  obtain ⟨q', hq', rfl⟩ := release_eq h
  obtain rfl : q = q' := Option.some.inj (hq.symm.trans hq')
  have hclear : w.clearPid p q = w := by
    simp [clearPid, he.ctrl]
  have hsame : q.released = q := by
    have hctrl := he.ctrl
    have hslots := he.slots
    have hbound := he.bound
    cases q
    simp_all [Queue.released]
  rw [hclear, hsame]
  exact ⟨rfl, rfl, rfl, by rw [var_goto, var_setVar_self]⟩

/-- So does its `seg_.reset()`. -/
theorem reset_empty {next : Next} (hq : w.var p v = some q) (he : q.Empty)
    (h : w.reset p v next = some w') :
    w'.objects = w.objects ∧ w'.names = w.names ∧ w'.unmapped = w.unmapped := by
  have hreset : w.resetSegment q.seg = w := by
    simp [he.seg, resetSegment, Segment.null, unmap]
  simp only [reset, hq, hreset] at h
  cases next <;> cases h <;> exact ⟨rfl, rfl, rfl⟩

/-- The action that releases a handle runs its `detach()`. -/
theorem release_of_releases (hr : w.releases a = some (p, v)) (hq : w.var p v = some q)
    (h : w.step a = some w') : ∃ next, w.release p v next = some w' := by
  obtain ⟨-, ⟨p', rfl, rfl⟩ | ⟨p', ans, rfl, -, hcall⟩ | ⟨-, hstart⟩⟩ := step_cases h
  · cases hr
  · simp only [releases] at hr
    split at hr
    next v' hc =>
      cases hr
      rw [hc] at hcall
      simp only [stepCall, hq] at hcall
      exact ⟨_, hcall⟩
    next v' hc =>
      cases hr
      rw [hc] at hcall
      exact ⟨_, hcall⟩
    next => cases hr
  · cases a with
    | detach p' v' =>
      cases hr
      exact ⟨_, hstart⟩
    | destroy p' v' =>
      cases hr
      exact ⟨_, hstart⟩
    | moveAssign p' v' u =>
      simp only [releases] at hr
      split_ifs at hr with hvu
      cases hr
      simp only [startCall] at hstart
      split at hstart
      · rw [if_neg hvu] at hstart
        exact ⟨_, hstart⟩
      · cases hstart
    | step p' ans => cases hstart
    | _ => cases hr

/-- No step of the release of an empty handle changes an object, a name or a mapping. -/
theorem same_of_givesUp (hg : w.givesUp a p v) (hq : w.var p v = some q) (he : q.Empty)
    (h : w.step a = some w') :
    w'.objects = w.objects ∧ w'.names = w.names ∧ w'.unmapped = w.unmapped := by
  rcases hg with hr | ⟨ans, next, rfl, hcall⟩
  · obtain ⟨next, hrelease⟩ := release_of_releases hr hq h
    obtain ⟨hobjects, hnames, hunmapped, -⟩ := release_empty hq he hrelease
    exact ⟨hobjects, hnames, hunmapped⟩
  · obtain ⟨-, ⟨p', ha, -⟩ | ⟨p', ans', ha, -, hstep⟩ | ⟨hidle, -⟩⟩ := step_cases h
    · cases ha
    · cases ha
      rw [hcall] at hstep
      exact reset_empty hq he hstep
    · rw [show (w.proc p).call = .idle from hidle] at hcall
      cases hcall

/-- A step that does not store to a handle leaves it. -/
theorem var_of_stores (hs : a.pid = p → v ∉ w.stores a) (h : w.step a = some w') :
    w'.var p v = w.var p v := by
  by_cases hp : a.pid = p
  · subst hp
    exact (footprint_step h).vars v (hs rfl)
  · rw [var, proc_of_step (Ne.symm hp) h]
    rfl

/-- An empty handle stays empty until something is stored to it. -/
theorem empty_of_spares (hs : w.spares a p v) (hq : w.var p v = some q) (he : q.Empty)
    (h : w.step a = some w') : w'.var p v = some q := by
  by_cases hstores : a.pid = p ∧ v ∈ w.stores a
  · obtain ⟨next, hrelease⟩ := release_of_releases (hs hstores.1 hstores.2) hq h
    exact (release_empty hq he hrelease).2.2.2
  · rw [var_of_stores (fun hp hv => hstores ⟨hp, hv⟩) h, hq]

/-- The names and the mappings after `reset()` of a segment. -/
def Called (w w' : World T) (s : Segment) : Prop :=
  w'.unmapped = w.unmapped ++ s.addr.toList ∧
    w'.names = s.unlinks.foldl (fun names name => update names name none) w.names

theorem called_mapTmp {size : UInt64} {owner whole : Bool} {name : String} {c : Call} {s : Segment}
    (hq : w.var p tmp = some q) (hs : (w.var p tmp).map Queue.seg = some s) :
    Called w ((w.mapTmp p q o size owner name whole).goto p c) s := by
  rw [hq] at hs
  cases hs
  exact ⟨unmapped_resetSegment, names_resetSegment⟩

theorem called_stepCall {ans : Answers} {c : Call} {s : Segment}
    (hs : w.resetsCall p ans c = some s) (h : w.stepCall p ans c = some w') : Called w w' s := by
  have hsome (hc : ∀ v next, c ≠ .resetting v next) :
      (w.mapsCall ans c).isSome ∧ (w.var p tmp).map Queue.seg = some s := by
    rw [resetsCall_of_maps hc] at hs
    split_ifs at hs with hmaps
    exact ⟨hmaps, hs⟩
  cases c with
  | resetting v next =>
    simp only [stepCall, reset] at h
    split at h
    next q hq =>
      simp only [resetsCall, hq] at hs
      cases hs
      cases next <;> cases h <;> exact ⟨unmapped_resetSegment, names_resetSegment⟩
    next => cases h
  | create S whole v o pc =>
    obtain ⟨hmaps, hseg⟩ := hsome (by simp)
    cases pc with
    | mmap =>
      simp only [mapsCall] at hmaps
      split_ifs at hmaps with hmmap
      simp only [stepCall, createStep, ShmSpsc.createStep, hmmap] at h
      split at h <;> cases h
      · rename_i hout
        cases hout
      · rename_i hq _
        exact called_mapTmp hq hseg
      · cases hmaps
    | _ => cases hmaps
  | attach name role v o pc =>
    obtain ⟨hmaps, hseg⟩ := hsome (by simp)
    cases pc with
    | opening A =>
      simp only [stepCall, attachStep] at h
      split at h <;> cases h
      next q o' size hq _ => exact called_mapTmp hq hseg
      next q e hq hopen =>
        simp [mapsCall, opens_error hopen] at hmaps
    | _ => cases hmaps
  | openSegment name v =>
    obtain ⟨hmaps, hseg⟩ := hsome (by simp)
    simp only [stepCall] at h
    split at h <;> cases h
    next q o' size hq _ => exact called_mapTmp hq hseg
    next q e hq hopen => simp [mapsCall, opens_error hopen] at hmaps
  | _ =>
    obtain ⟨hmaps, -⟩ := hsome (by simp)
    cases hmaps

/-- What is booked as reset is what the step calls `munmap` and `shm_unlink` for. -/
theorem called_of_resets {s : Segment} (hs : w.resets a = some s) (h : w.step a = some w') :
    Called w w' s := by
  obtain ⟨-, ⟨p, rfl, rfl⟩ | ⟨p, ans, rfl, -, hcall⟩ | ⟨-, hstart⟩⟩ := step_cases h
  · cases hs
  · exact called_stepCall hs hcall
  · cases a with
    | step p ans => cases hstart
    | _ => cases hs

end World

/-! ## Runs -/

namespace Ledger

variable {l l' : Ledger T} {a : WorldAct}

/-- The mappings made so far. -/
def mapped (l : Ledger T) : List Mapping := l.made.filterMap Segment.addr

/-- The segments whose `reset()` has unlinked their name, one entry for each call. -/
def unlinked (l : Ledger T) : List Segment := l.reset.filterMap Segment.owned

/-- The books on mappings and names are right, and the world is tidy. -/
structure Inv (l : Ledger T) : Prop where
  tidy : l.world.Tidy
  mappings : Books Segment.addr l
  owners : Books Segment.owned l
  named : ∀ s ∈ l.made, s.owner = true → s.name ≠ ""

theorem inv_step (h : Inv l) (ha : a.onQueues) (hstep : l.step a = some l') : Inv l' := by
  have htmp (p : ℤ) (hidle : (l.world.proc p).call = .idle) : l.world.var p tmp = none := by
    have hinside := h.tidy.inside p
    rwa [hidle] at hinside
  refine ⟨?_, h.mappings.step reading_addr htmp hstep, h.owners.step reading_owned htmp hstep, ?_⟩
  · obtain ⟨w', hw, rfl⟩ := Option.map_eq_some_iff.mp hstep
    exact World.tidy_step h.tidy ha hw
  · obtain ⟨w', hw, rfl⟩ := Option.map_eq_some_iff.mp hstep
    intro s hs ho
    rcases List.mem_append.mp hs with hs | hs
    · exact h.named s hs ho
    · exact (World.maps_cases (Option.mem_toList.mp hs)).2 ho

theorem inv_of_reaches {slots : ℕ → T}
    (run : Reaches step (fun _ a => a.onQueues) (start slots) l) : Inv l := by
  refine run.invariant ?_ fun _ _ _ h ha hstep => inv_step h ha hstep
  exact ⟨World.tidy_start slots, books_start slots, books_start slots, by simp [start]⟩

namespace Inv

variable {p : ℤ} {v o : ℕ} {q : Queue} {m : Mapping} {s : Segment}

/-- The mapping of a handle is not undone. -/
theorem mapped_of_var (h : Inv l) (hq : l.world.var p v = some q) (hm : q.seg.addr = some m) :
    m ∈ l.mapped ∧ m ∉ l.world.unmapped := by
  have hheld : l.world.held Segment.addr (p, v) = some m := by
    simp [World.held, hq, hm]
  rw [h.mappings.unmapped]
  exact h.mappings.linear.holder (p, v) m hheld

/-- A mapping is with one handle, or has been undone once. -/
theorem mapping (h : Inv l) (hm : m ∈ l.mapped) :
    (m ∉ l.world.unmapped ∧ ∃! i, l.world.held Segment.addr i = some m) ∨
      (l.world.unmapped.count m = 1 ∧ ∀ i, l.world.held Segment.addr i ≠ some m) := by
  rw [h.mappings.unmapped]
  exact h.mappings.linear.account hm

/-- An owner's name is with one handle, or has been unlinked once. -/
theorem owner (h : Inv l) (hs : s ∈ l.made) (ho : s.owner = true) :
    (s ∉ l.unlinked ∧ ∃! i, l.world.held Segment.owned i = some s) ∨
      (l.unlinked.count s = 1 ∧ ∀ i, l.world.held Segment.owned i ≠ some s) := by
  refine h.owners.linear.account (List.mem_filterMap.mpr ⟨s, hs, ?_⟩)
  rw [Segment.owned, if_pos ⟨ho, h.named s hs ho⟩]

/-- Every access goes through a `ctrl_` that is mapped, to the object that it maps. -/
theorem mapped_of_accesses (h : Inv l) {x : Option Mapping}
    (hx : l.world.accesses a = some (x, o)) :
    ∃ m, x = some m ∧ m.object = o ∧ m ∈ l.mapped ∧ m ∉ l.world.unmapped := by
  -- the temporary of a call that maps object `o`
  have huses {p : ℤ} {q : Queue} (hr : (l.world.proc p).call.releasing = none)
      (hq : l.world.var p tmp = some q) (hctrl : q.ctrl.map Mapping.object = some o)
      (htmp : (l.world.var p tmp).bind Queue.ctrl = x) :
      ∃ m, x = some m ∧ m.object = o ∧ m ∈ l.mapped ∧ m ∉ l.world.unmapped := by
    obtain ⟨m, hm, rfl⟩ := Option.map_eq_some_iff.mp hctrl
    refine ⟨m, ?_, rfl, h.mapped_of_var hq ((h.tidy.sound hr hq).ctrl.symm.trans hm)⟩
    rw [← htmp, hq]
    exact hm
  unfold World.accesses at hx
  split at hx
  next p v hreleases =>
    obtain ⟨q, hq, hbound⟩ := Option.bind_eq_some_iff.mp hx
    split_ifs at hbound with hb
    obtain ⟨m, hm, heq⟩ := Option.map_eq_some_iff.mp hbound
    cases heq
    have hfine := h.tidy.handle p v q hq
    -- a handle that waits for its `seg_.reset()` is bound no more
    by_cases hr : (l.world.proc p).call.releasing = some v
    · rw [((World.fine_of_eq hr).mp hfine).bound] at hb
      cases hb
    · have hsound := (World.fine_of_ne hr).mp hfine
      exact ⟨m, rfl, rfl, h.mapped_of_var hq (hsound.ctrl.symm.trans hm)⟩
  next =>
    cases a with
    | step p ans =>
      have hinside := h.tidy.inside p
      dsimp only at hx
      cases hcall : (l.world.proc p).call with
      | create S whole v o' pc =>
        rw [hcall] at hinside hx
        obtain ⟨-, -, q, hq, hlocal⟩ := hinside
        have hr : (l.world.proc p).call.releasing = none := by rw [hcall]; rfl
        cases pc with
        | ftruncate => cases hx
        | mmap => cases hx
        | binding b =>
          cases hx
          exact huses hr hq hlocal.1 rfl
        | _ =>
          cases hx
          exact huses hr hq hlocal rfl
      | attach name role v o' pc =>
        rw [hcall] at hinside hx
        obtain ⟨-, q, hq, hlocal⟩ := hinside
        have hr : (l.world.proc p).call.releasing = none := by rw [hcall]; rfl
        cases pc with
        | opening A => cases hx
        | readyCheck A lastAttempt size =>
          cases hx
          exact huses hr hq hlocal.2 rfl
        | _ =>
          cases hx
          exact huses hr hq hlocal.1 rfl
      | _ =>
        rw [hcall] at hx
        cases hx
    | _ => cases hx

end Inv

/-- An empty handle stays empty along a run that stores nothing to it. -/
theorem empty_of_reaches {p : ℤ} {v : ℕ}
    (run : Reaches step (fun l a => l.world.spares a p v) l l')
    (h : ∃ q, l.world.var p v = some q ∧ q.Empty) : ∃ q, l'.world.var p v = some q ∧ q.Empty := by
  refine run.invariant (I := fun l => ∃ q, l.world.var p v = some q ∧ q.Empty) h ?_
  rintro l a l' ⟨q, hq, he⟩ hs hstep
  obtain ⟨w', hw, rfl⟩ := Option.map_eq_some_iff.mp hstep
  exact ⟨q, World.empty_of_spares hs hq he hw, he⟩

/-- Handles own mappings linearly. In every state of every run on queues :
every mapping made is with exactly one handle, or has been unmapped exactly once;
every owning segment is with exactly one handle, or has unlinked its name exactly once;
every handle, but one that is before its `seg_.reset()`, has `ctrl_` equal to the mapping of
`seg_`, which is not undone, and if it is bound its slots behind it;
whatever a step dereferences is a mapping of the object at work that is not undone.
A step changes no object but through such an access or by sizing it, and calls `munmap` and
`shm_unlink` for the segments that are booked as reset. A handle that a step leaves moved from or
detached is empty until it is assigned to, and no step of its destruction changes an object, a
name or a mapping. `swapWith`, member by member, exchanges the handles and calls nothing, and the
steps that move handles or assign a segment do what their members' operations compute. -/
theorem handles_linear (slots : ℕ → T)
    (run : Reaches step (fun _ a => a.onQueues) (start slots) l) :
    (∀ m ∈ l.mapped,
      (m ∉ l.world.unmapped ∧ ∃! i, l.world.held Segment.addr i = some m) ∨
        (l.world.unmapped.count m = 1 ∧ ∀ i, l.world.held Segment.addr i ≠ some m)) ∧
    (∀ s ∈ l.made, s.owner = true →
      (s ∉ l.unlinked ∧ ∃! i, l.world.held Segment.owned i = some s) ∨
        (l.unlinked.count s = 1 ∧ ∀ i, l.world.held Segment.owned i ≠ some s)) ∧
    (∀ p v q, l.world.var p v = some q → (l.world.proc p).call.releasing ≠ some v →
      q.ctrl = q.seg.addr ∧
        (∀ m, q.ctrl = some m → m ∈ l.mapped ∧ m ∉ l.world.unmapped) ∧
        (q.bound = true → ∃ m, q.ctrl = some m ∧
          q.slots = some (m, (l.world.objects m.object).geometry.slotsOffset))) ∧
    (∀ a x o, l.world.accesses a = some (x, o) →
      ∃ m, x = some m ∧ m.object = o ∧ m ∈ l.mapped ∧ m ∉ l.world.unmapped) ∧
    (∀ a l', l.step a = some l' →
      (∀ o, l'.world.objects o = l.world.objects o ∨ l.world.truncates a o ∨
        ∃ x, l.world.accesses a = some (x, o)) ∧
      (∀ s, l.world.resets a = some s → World.Called l.world l'.world s) ∧
      ∀ p v, l.world.leaves a = some (p, v) → ∀ l₁ : Ledger T,
        Reaches step (fun l a => l.world.spares a p v) l' l₁ →
          (∃ q, l₁.world.var p v = some q ∧ q.Empty) ∧
          ∀ b l₂, l₁.step b = some l₂ → l₁.world.givesUp b p v →
            l₂.world.objects = l₁.world.objects ∧ l₂.world.names = l₁.world.names ∧
              l₂.world.unmapped = l₁.world.unmapped) ∧
    (∀ (m : Storage) (v u : ℕ), (m.swapWith v u).queue = m.queue ∘ Equiv.swap v u ∧
      (m.swapWith v u).munmapped = m.munmapped ∧ (m.swapWith v u).unlinked = m.unlinked) ∧
    ∀ (p : ℤ) (m : Storage), l.world.InStorage p m →
      (∀ v u w', l.world.startCall (.swapWith p v u) = some w' →
        l.world.Executes w' p m (m.swapWith v u)) ∧
      (∀ v u w', l.world.startCall (.moveConstruct p v u) = some w' →
        l.world.Executes w' p m (m.construct v u)) ∧
      (∀ v next w', l.world.reset p v next = some w' →
        l.world.Executes w' p m (m.finish v next)) ∧
      ∀ q o size owner name, l.world.var p tmp = some q →
        l.world.Executes (l.world.mapTmp p q o size owner name true) p m
          (m.assignSegment tmp ⟨some ⟨l.world.nextMapping, o⟩, size, owner, name⟩) := by
  have hinv := inv_of_reaches run
  refine ⟨fun m hm => hinv.mapping hm, fun s hs ho => hinv.owner hs ho, fun p v q hq hr => ?_,
    fun a x o hx => hinv.mapped_of_accesses hx, fun a l' hstep => ?_, fun m v u => ?_,
    fun p m hm => ⟨fun v u w' => World.executes_swapWith hm,
      fun v u w' => World.executes_moveConstruct hm, fun v next w' => World.executes_reset hm,
      fun q o size owner name => World.executes_mapTmp hm⟩⟩
  · have hsound := (World.fine_of_ne hr).mp (hinv.tidy.handle p v q hq)
    refine ⟨hsound.ctrl, fun m hm => hinv.mapped_of_var hq (hsound.ctrl.symm.trans hm),
      fun hbound => ?_⟩
    rcases hsound.slots with hnone | ⟨m, hm, -, hslots⟩
    · have hsome := hsound.bound hbound
      rw [hnone] at hsome
      cases hsome
    · exact ⟨m, hm, hslots⟩
  · obtain ⟨w', hw, rfl⟩ := Option.map_eq_some_iff.mp hstep
    refine ⟨(World.footprint_step hw).objects, fun s hs => World.called_of_resets hs hw,
      fun p v hleaves l₁ hrun => ?_⟩
    have hempty := empty_of_reaches hrun (World.empty_of_leaves hinv.tidy hleaves hw)
    refine ⟨hempty, fun b l₂ hb hgives => ?_⟩
    obtain ⟨q, hq, he⟩ := hempty
    obtain ⟨w₂, hw₂, rfl⟩ := Option.map_eq_some_iff.mp hb
    exact World.same_of_givesUp hgives hq he hw₂
  · rw [Storage.swapWith_eq, Equiv.swap_comm, Equiv.comp_swap_eq_update]
    exact ⟨rfl, rfl, rfl⟩

/-- Process `2` polls while process `1` creates the queue, and attaches. Process `1` moves its
handle to another variable, assigns it to itself, swaps it back, assigns it over a null handle
and destroys them all. -/
def movesRun : List WorldAct :=
  WorldAct.create 1 1 messageSetup true :: List.replicate 4 (WorldAct.step 1 .plain) ++
    WorldAct.attach 2 1 "/q" .consumer messageLayout :: List.replicate 2 (WorldAct.step 2 .plain) ++
    List.replicate 21 (WorldAct.step 1 .plain) ++ List.replicate 12 (WorldAct.step 2 .plain) ++
    [WorldAct.moveConstruct 1 2 1, WorldAct.moveAssign 1 2 2, WorldAct.swapWith 1 2 1,
      WorldAct.construct 1 3, WorldAct.moveAssign 1 3 1, WorldAct.step 1 .plain,
      WorldAct.destroy 1 1, WorldAct.step 1 .plain, WorldAct.destroy 1 3, WorldAct.step 1 .plain]

theorem handles_linear_movesRun :
    ∃ l : Ledger ℕ, Reaches step (fun _ a => a.onQueues) (start fun _ => 0) l ∧
      l.mapped = [⟨0, 0⟩, ⟨1, 0⟩, ⟨2, 0⟩] ∧ l.world.unmapped.count ⟨0, 0⟩ = 1 ∧
      l.world.unmapped.count ⟨1, 0⟩ = 1 ∧ (∃! i, l.world.held Segment.addr i = some ⟨2, 0⟩) ∧
      l.unlinked.count ⟨some ⟨0, 0⟩, 352, true, "/q"⟩ = 1 := by
  have hrun : (exec step (fun _ a => a.onQueues) (start fun _ => (0 : ℕ)) movesRun).map
      (fun l => (l.made, l.world.unmapped, l.unlinked)) =
      some ([⟨some ⟨0, 0⟩, 352, true, "/q"⟩, ⟨some ⟨1, 0⟩, 352, false, "/q"⟩,
        ⟨some ⟨2, 0⟩, 352, false, "/q"⟩], [⟨1, 0⟩, ⟨0, 0⟩],
        [⟨some ⟨0, 0⟩, 352, true, "/q"⟩]) := by decide +kernel
  obtain ⟨l, hl, hview⟩ := Option.map_eq_some_iff.mp hrun
  simp only [Prod.mk.injEq] at hview
  obtain ⟨hmade, hunmapped, hunlinked⟩ := hview
  have run := Reaches.of_exec hl
  have hmapped : l.mapped = [⟨0, 0⟩, ⟨1, 0⟩, ⟨2, 0⟩] := by
    rw [mapped, hmade]
    rfl
  obtain ⟨hmapping, howner, -⟩ := handles_linear _ run
  have hspent (m : Mapping) (hm : m ∈ l.mapped) (hin : m ∈ l.world.unmapped) :
      l.world.unmapped.count m = 1 := by
    rcases hmapping m hm with hheld | hspent
    · exact absurd hin hheld.1
    · exact hspent.1
  refine ⟨l, run, hmapped, hspent _ (by simp [hmapped]) (by simp [hunmapped]),
    hspent _ (by simp [hmapped]) (by simp [hunmapped]), ?_, ?_⟩
  · rcases hmapping ⟨2, 0⟩ (by simp [hmapped]) with hheld | hspent
    · exact hheld.2
    · rw [hunmapped] at hspent
      exact absurd hspent.1 (by decide)
  · rcases howner ⟨some ⟨0, 0⟩, 352, true, "/q"⟩ (by simp [hmade]) rfl with hheld | hspent
    · exact absurd (by simp [hunlinked]) hheld.1
    · exact hspent.1

end Ledger

end ShmSpsc
