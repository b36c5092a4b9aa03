import ShmSpsc.Names

/-!
# Who unlinks a name

A handle that has outlived its object unlinks a newer one of the same name, and a `create` that
fails has unlinked the object of an earlier one; `Named.resolves_overwriteRun` has a run of
either kind.

`Named` keeps the history of the names beside the world. In the runs whose steps meet
`Named.Keeps` every name resolves to the object of its last `create`, but for a later `create`
between its `shm_unlink` and its `shm_open`, and a step that does not meet it breaks this at
once (`Named.resolves_iff`). `Named.Turn` says once what a step can do to the names and to
their history.
-/

namespace ShmSpsc

open Transition Function

variable {T : Type*}

/-! ## The history of the names -/

/-- A world, and the history of its names : for each name the objects that its creates have
made, the last one first, and for each process how many objects there were at the last
`shm_unlink` of a `create` of its own.

An object is taken off when its handle is released, when its `create` fails, by `remove`, and
when a `create` that has made a later object of the name returns. A process that dies leaves
its objects there. -/
structure Named (T : Type*) where
  world : World T
  creates : String → List ℕ
  since : ℤ → ℕ

namespace Named

/-- What is left of the creates of `name` when the owner of `own` gives it up. -/
def rest (s : Named T) (name : String) (own : Option ℕ) : List ℕ :=
  (s.creates name).filter fun o => own ≠ some o

/-- What is left of the creates of `name` when the one that has made `o` returns : it has
replaced the objects before its own. -/
def replaced (s : Named T) (name : String) (o : ℕ) : List ℕ :=
  (s.creates name).take ((s.creates name).idxOf o + 1)

/-- The creates after a step of a call to `w`. -/
def createsCall (s : Named T) (w : World T) (p : ℤ) (c : Call) : String → List ℕ :=
  match c with
  | .shmOpen S _ _ =>
    if w.nextObject = s.world.nextObject then s.creates
    else update s.creates S.name (s.world.nextObject :: s.creates S.name)
  | .create S _ _ o _ =>
    if (w.proc p).call.isPlacing then update s.creates S.name (s.replaced S.name o)
    else s.creates
  | c =>
    match s.world.unlinkingCall p c with
    | some (name, own) => update s.creates name (s.rest name own)
    | none => s.creates

/-- The creates after a step to `w`. -/
def createsStep (s : Named T) (w : World T) : WorldAct → String → List ℕ
  | .step p _ => s.createsCall w p (s.world.proc p).call
  | .remove _ name => update s.creates name []
  | _ => s.creates

/-- `since` after a step of a call. -/
def sinceCall (s : Named T) (p : ℤ) : Call → ℤ → ℕ
  | .unlink _ _ _ => update s.since p s.world.nextObject
  | _ => s.since

/-- `since` after a step. -/
def sinceStep (s : Named T) : WorldAct → ℤ → ℕ
  | .step p _ => s.sinceCall p (s.world.proc p).call
  | _ => s.since

/-- One step. -/
def step (s : Named T) (a : WorldAct) : Option (Named T) :=
  (s.world.step a).map fun w => ⟨w, s.createsStep w a, s.sinceStep a⟩

/-- Nothing has been created. -/
def start (slots : ℕ → T) : Named T := ⟨.start slots, fun _ => [], fun _ => 0⟩

/-- A `create` of process `p` has unlinked object `o` of `name`, and is about to bind its own. -/
def Replacing (s : Named T) (name : String) (o : ℕ) (p : ℤ) : Prop :=
  s.world.opening p = some name ∧ o < s.since p

/-- Every name resolves to the object of its last `create`, unless a later `create` is between
its `shm_unlink` and its `shm_open`. -/
def Resolves (s : Named T) : Prop :=
  ∀ name o, (s.creates name).head? = some o →
    s.world.names name = some o ∨ ∃ p, s.Replacing name o p

/-- A step that unlinks for an owner finds the name unbound, or bound to the owner's object; and
no `create` fails after it has unlinked the object of an earlier one : what is then the last
object of the name is bound, or another `create` is about to replace it. -/
structure Keeps (s : Named T) (a : WorldAct) : Prop where
  own : s.world.ownUnlink a
  unlinked : ∀ name own, s.world.unlinking a = some (name, own) →
    ∀ o, (s.rest name own).head? = some o → ∃ q, q ≠ a.pid ∧ s.Replacing name o q
  failed : ∀ name, s.world.failing a = some name → ∀ o, (s.creates name).head? = some o →
    s.world.names name = some o ∨ ∃ q, q ≠ a.pid ∧ s.Replacing name o q

/-! ## What a step does -/

variable {s s' : Named T} {a : WorldAct} {p q : ℤ} {name : String} {o : ℕ}

/-- What a step of process `p` does to the names and their history. The indices are the name it
unlinks for an owner, with the owner's object, and the name of the `create` that fails in it. -/
inductive Turn (s s' : Named T) (p : ℤ) : Option (String × Option ℕ) → Option String → Prop
  | quiet (names : s'.world.names = s.world.names) (creates : s'.creates = s.creates)
      (before : s.world.opening p = none) (after : s'.world.opening p = none) :
      Turn s s' p none none
  | opened {name : String} (names : s'.world.names = update s.world.names name none)
      (creates : s'.creates = s.creates) (before : s.world.opening p = none)
      (after : s'.world.opening p = some name) (since : s'.since p = s.world.nextObject) :
      Turn s s' p none none
  | bound {name : String} (free : s.world.names name = none)
      (names : s'.world.names = update s.world.names name (some s.world.nextObject))
      (creates : s'.creates = update s.creates name (s.world.nextObject :: s.creates name))
      (before : s.world.opening p = some name) (after : s'.world.opening p = none)
      (next : s'.world.nextObject = s.world.nextObject + 1) : Turn s s' p none none
  | returned {name : String} {o : ℕ} (names : s'.world.names = s.world.names)
      (creates : s'.creates = update s.creates name (s.replaced name o))
      (before : s.world.opening p = none) (after : s'.world.opening p = none) :
      Turn s s' p none none
  | removed {name : String} (names : s'.world.names = update s.world.names name none)
      (creates : s'.creates = update s.creates name [])
      (before : s.world.opening p = none) (after : s'.world.opening p = none) :
      Turn s s' p none none
  | failed {name : String} (names : s'.world.names = s.world.names)
      (creates : s'.creates = s.creates) (before : s.world.opening p = some name)
      (after : s'.world.opening p = none) : Turn s s' p none (some name)
  | gaveUp {name : String} {own : Option ℕ}
      (names : s'.world.names = update s.world.names name none)
      (creates : s'.creates = update s.creates name (s.rest name own))
      (before : s.world.opening p = none) (after : s'.world.opening p = none) :
      Turn s s' p (some (name, own)) none

theorem opening_of_call {w : World T} {c : Call} (hcall : (w.proc p).call = c)
    (hc : c.opens = none) : w.opening p = none := by
  unfold World.opening
  rw [hcall, hc, ite_self]

theorem opening_of_live {w : World T} {c : Call} (hlive : w.live p) (hcall : (w.proc p).call = c) :
    w.opening p = c.opens := by
  rw [World.opening, if_pos hlive, hcall]

theorem sinceCall_of_ne (hq : q ≠ p) (c : Call) : s.sinceCall p c q = s.since q := by
  cases c with
  | unlink S whole v => exact update_of_ne hq ..
  | _ => rfl

theorem sinceStep_of_ne (hq : q ≠ a.pid) : s.sinceStep a q = s.since q := by
  cases a with
  | step p ans => exact sinceCall_of_ne hq _
  | _ => rfl

/-- `shm_open` binds the name to a new object, or the `create` fails. -/
theorem turn_shmOpen {S : Setup} {whole : Bool} {v : ℕ} (hlive : s.world.live p)
    (hcall : (s.world.proc p).call = .shmOpen S whole v) {w : World T}
    (hw : w = s.world.shmOpen p S whole v) :
    Turn s ⟨w, s.createsCall w p (.shmOpen S whole v), s.since⟩ p none
      (s.world.failingCall (.shmOpen S whole v)) := by
  have hopen : s.world.opening p = some S.name := opening_of_live hlive hcall
  simp only [createsCall, World.failingCall]
  have fail {e : Exception} (hfail : ¬(S.calls.shmOpen = none ∧ s.world.names S.name = none))
      (hw : w = s.world.throw p e (.destroying tmp)) :
      Turn s ⟨w, if w.nextObject = s.world.nextObject then s.creates
        else update s.creates S.name (s.world.nextObject :: s.creates S.name), s.since⟩ p none
        (if S.calls.shmOpen = none ∧ s.world.names S.name = none then none else some S.name) := by
    subst hw
    rw [if_neg hfail]
    exact .failed rfl (if_pos rfl) hopen (opening_of_call World.call_throw rfl)
  unfold World.shmOpen at hw
  dsimp only at hw
  split at hw
  next e he => exact fail (by simp [he]) hw
  next o he ho => exact fail (by simp [ho]) hw
  next he hfree =>
    have hok : S.calls.shmOpen = none ∧ s.world.names S.name = none := ⟨he, hfree⟩
    subst hw
    rw [if_pos hok]
    exact .bound hfree rfl (if_neg (Nat.succ_ne_self _)) hopen
      (opening_of_call World.call_goto rfl) rfl

/-- A step of a `create` on its object. -/
theorem turn_createStep {S : Setup} {whole : Bool} {v o : ℕ} {pc : CreatePc} {w : World T}
    (hnames : s.world.SameNames w) (before : s.world.opening p = none)
    (after : w.opening p = none) :
    Turn s ⟨w, s.createsCall w p (.create S whole v o pc), s.since⟩ p none none := by
  simp only [createsCall]
  split_ifs
  · exact .returned hnames.names rfl before after
  · exact .quiet hnames.names rfl before after

/-- `seg_.reset()` -/
theorem turn_reset {v : ℕ} {next : Next} {w : World T} (before : s.world.opening p = none)
    (after : w.opening p = none) (h : s.world.reset p v next = some w) :
    Turn s ⟨w, s.createsCall w p (.resetting v next), s.since⟩ p
      (s.world.unlinkingCall p (.resetting v next)) none := by
  unfold World.reset at h
  split at h
  next q hq =>
    have hnames : w.names = (s.world.resetSegment q.seg).names := by
      cases next <;> cases h <;> rfl
    simp only [createsCall, World.unlinkingCall, hq]
    unfold World.resetSegment at hnames
    split_ifs at hnames with hown
    · rw [if_pos hown]
      exact .gaveUp hnames rfl before after
    · rw [if_neg hown]
      exact .quiet hnames rfl before after
  next => cases h

/-- The next step of a call. -/
theorem turn_stepCall {ans : Answers} {c : Call} {w : World T} (hlive : s.world.live p)
    (hcall : (s.world.proc p).call = c)
    (htmp : c.building → ∀ q, s.world.var p tmp = some q → q.seg.owner = false)
    (h : s.world.stepCall p ans c = some w) :
    Turn s ⟨w, s.createsCall w p c, s.sinceCall p c⟩ p (s.world.unlinkingCall p c)
      (s.world.failingCall c) := by
  have before : s.world.opening p = c.opens := opening_of_live hlive hcall
  have after (hc : ∀ S whole v, c ≠ .unlink S whole v) : w.opening p = none :=
    opening_of_call rfl (World.opens_stepCall hc h)
  cases c with
  | idle => cases h
  | unlink S whole v =>
    cases h
    have hopens : ((s.world.unlink S.name).goto p (.shmOpen S whole v)).opening p =
        some S.name := by
      rw [World.opening, World.call_goto]
      exact if_pos hlive
    exact .opened rfl rfl before hopens (update_self ..)
  | shmOpen S whole v => exact turn_shmOpen hlive hcall (Option.some.inj h).symm
  | create S whole v o pc =>
    exact turn_createStep (World.sameNames_createStep htmp h) before (after (by simp))
  | cleanup name o =>
    cases h
    exact .gaveUp rfl rfl before (after (by simp))
  | attach name role v o pc =>
    exact .quiet (World.sameNames_attachStep (htmp rfl) h).names rfl before (after (by simp))
  | openSegment name v =>
    have hafter := after (by simp)
    simp only [World.stepCall] at h
    split at h <;> cases h
    next q o size hq _ =>
      have hsame : s.world.SameNames
          ((s.world.mapTmp p q o size false name false).goto p (.placing v)) :=
        (World.sameNames_mapTmp (htmp rfl q hq)).goto
      exact .quiet hsame.names rfl before hafter
    · exact .quiet rfl rfl before hafter
  | placing v =>
    have hafter := after (by simp)
    simp only [World.stepCall] at h
    split at h
    · exact .quiet (World.sameNames_release h).names rfl before hafter
    · cases h
      exact .quiet rfl rfl before hafter
  | destroying v => exact .quiet (World.sameNames_release h).names rfl before (after (by simp))
  | resetting v next => exact turn_reset before (after (by simp)) h

/-- The start of a call. -/
theorem turn_startCall {w : World T} (hidle : (s.world.proc a.pid).call = .idle)
    (h : s.world.startCall a = some w) :
    Turn s ⟨w, s.createsStep w a, s.sinceStep a⟩ a.pid (s.world.unlinking a)
      (s.world.failing a) := by
  have before : s.world.opening a.pid = none := opening_of_call hidle rfl
  have after : w.opening a.pid = none := opening_of_call rfl (World.opens_startCall hidle h)
  rcases World.names_startCall h with hsame | ⟨p, name, rfl, rfl⟩
  · cases a with
    | remove p name =>
      cases h
      exact .removed rfl rfl before after
    | step p ans => cases h
    | die p => cases h
    | _ => exact .quiet hsame.names rfl before after
  · exact .removed rfl rfl before after

/-- Every step. -/
theorem turn_step (htmp : s.world.TmpInv a.pid) (h : s.step a = some s') :
    Turn s s' a.pid (s.world.unlinking a) (s.world.failing a) := by
  obtain ⟨w, hw, rfl⟩ := Option.map_eq_some_iff.mp h
  obtain ⟨hlive, ⟨p, rfl, rfl⟩ | ⟨p, ans, rfl, -, hcall⟩ | ⟨hidle, hstart⟩⟩ := World.step_cases hw
  · have after : World.opening { s.world with dead := update s.world.dead p true } p = none := by
      simp [World.opening, World.live]
    have before : s.world.opening p = (s.world.proc p).call.opens := opening_of_live hlive rfl
    simp only [World.unlinking, World.failing]
    cases hopens : (s.world.proc p).call.opens with
    | none => exact .quiet rfl rfl (before.trans hopens) after
    | some name => exact .failed rfl rfl (before.trans hopens) after
  · exact turn_stepCall hlive rfl htmp hcall
  · exact turn_startCall hidle hstart

/-! ## Keeping the names -/

/-- The objects there are, and the deaths, after the next step of a call. -/
theorem frame_stepCall {w w' : World T} {ans : Answers} {c : Call}
    (htmp : c.building → ∀ q, w.var p tmp = some q → q.seg.owner = false)
    (h : w.stepCall p ans c = some w') : w.nextObject ≤ w'.nextObject ∧ w'.dead = w.dead := by
  have same (hsame : w.SameNames w') : w.nextObject ≤ w'.nextObject ∧ w'.dead = w.dead :=
    ⟨hsame.next.ge, hsame.dead⟩
  cases c with
  | idle => cases h
  | unlink S whole v =>
    cases h
    exact ⟨le_rfl, rfl⟩
  | shmOpen S whole v =>
    cases h
    unfold World.shmOpen
    dsimp only
    split
    · exact ⟨le_rfl, rfl⟩
    · exact ⟨le_rfl, rfl⟩
    · exact ⟨Nat.le_succ _, rfl⟩
  | create S whole v o pc => exact same (World.sameNames_createStep htmp h)
  | cleanup name o =>
    cases h
    exact ⟨le_rfl, rfl⟩
  | attach name role v o pc => exact same (World.sameNames_attachStep (htmp rfl) h)
  | openSegment name v =>
    simp only [World.stepCall] at h
    split at h <;> cases h
    next q o size hq _ => exact same (World.sameNames_mapTmp (htmp rfl q hq)).goto
    · exact ⟨le_rfl, rfl⟩
  | placing v =>
    simp only [World.stepCall] at h
    split at h
    · exact same (World.sameNames_release h)
    · cases h
      exact ⟨le_rfl, rfl⟩
  | destroying v => exact same (World.sameNames_release h)
  | resetting v next =>
    simp only [World.stepCall, World.reset] at h
    split at h
    next q hq =>
      obtain ⟨-, hnext, hdead⟩ := World.resetSegment_frame w q.seg
      cases next <;> cases h <;> exact ⟨hnext.ge, hdead⟩
    next => cases h

/-- What a step of process `p` leaves to the others. -/
structure Frame (s s' : Named T) (p : ℤ) : Prop where
  opening : ∀ q ≠ p, s'.world.opening q = s.world.opening q
  since : ∀ q ≠ p, s'.since q = s.since q
  next : s.world.nextObject ≤ s'.world.nextObject

theorem frame_step (htmp : s.world.TmpInv a.pid) (h : s.step a = some s') : Frame s s' a.pid := by
  obtain ⟨w, hw, rfl⟩ := Option.map_eq_some_iff.mp h
  have hframe : s.world.nextObject ≤ w.nextObject ∧
      ∀ q ≠ a.pid, w.dead q = s.world.dead q := by
    rcases (World.step_cases hw).2 with ⟨p, rfl, rfl⟩ | ⟨p, ans, rfl, -, hcall⟩ | ⟨-, hstart⟩
    · exact ⟨le_rfl, fun q hq => update_of_ne hq ..⟩
    · obtain ⟨hnext, hdead⟩ := frame_stepCall htmp hcall
      exact ⟨hnext, fun q _ => congrFun hdead q⟩
    · rcases World.names_startCall hstart with hsame | ⟨p, name, rfl, rfl⟩
      · exact ⟨hsame.next.ge, fun q _ => congrFun hsame.dead q⟩
      · exact ⟨le_rfl, fun _ _ => rfl⟩
  refine ⟨fun q hq => ?_, fun q hq => sinceStep_of_ne hq, hframe.1⟩
  have hlive : w.live q = s.world.live q := by simp only [World.live, hframe.2 q hq]
  rw [World.opening, hlive, World.proc_of_step hq hw, World.opening]

/-- What holds of the names as long as every step keeps them. -/
structure Inv (s : Named T) : Prop where
  tmp : ∀ p, s.world.TmpInv p
  resolves : s.Resolves
  last : ∀ name o, s.world.names name = some o → (s.creates name).head? = some o
  fresh : ∀ p name o, s.world.opening p = some name → s.world.names name = some o →
    s.since p ≤ o
  known : ∀ name, ∀ o ∈ s.creates name, o < s.world.nextObject
  since_le : ∀ p, s.since p ≤ s.world.nextObject

/-- A `create` of another process is where it was. -/
theorem Frame.replacing (h : Frame s s' p) (hq : q ≠ p) :
    s'.Replacing name o q ↔ s.Replacing name o q := by
  rw [Replacing, h.opening q hq, h.since q hq, Replacing]

/-- The name is as it was, and so is who is about to replace its object. -/
theorem Frame.resolved (h : Frame s s' p) (before : s.world.opening p ≠ some name)
    (hres : s.world.names name = some o ∨ ∃ q, s.Replacing name o q)
    (hnames : s'.world.names name = s.world.names name) :
    s'.world.names name = some o ∨ ∃ q, s'.Replacing name o q := by
  rcases hres with hbound | ⟨q, hq⟩
  · exact .inl (hnames.trans hbound)
  · have hne : q ≠ p := by
      rintro rfl
      exact before hq.1
    exact .inr ⟨q, (h.replacing hne).mpr hq⟩

theorem head_replaced (s : Named T) (name : String) (o : ℕ) :
    (s.replaced name o).head? = (s.creates name).head? := by
  unfold replaced
  cases s.creates name <;> simp

theorem mem_of_rest {own : Option ℕ} (h : o ∈ s.rest name own) : o ∈ s.creates name :=
  (List.mem_filter.mp h).1

theorem head_rest {own : Option ℕ} (h : (s.creates name).head? = some o) (hne : own ≠ some o) :
    (s.rest name own).head? = some o := by
  obtain ⟨os, hos⟩ := List.head?_eq_some_iff.mp h
  rw [rest, hos, List.filter_cons_of_pos (by simpa using hne)]
  rfl

theorem since_le_step (h : ∀ p, s.since p ≤ s.world.nextObject) (a : WorldAct) (q : ℤ) :
    s.sinceStep a q ≤ s.world.nextObject := by
  by_cases hq : q = a.pid
  · subst hq
    cases a with
    | step p ans =>
      simp only [sinceStep, WorldAct.pid]
      cases (s.world.proc p).call with
      | unlink S whole v => exact (update_self ..).le
      | _ => exact h p
    | _ => exact h _
  · rw [sinceStep_of_ne hq]
    exact h q

/-- A step that meets the condition. -/
theorem resolves_of_keeps (h : s.Inv) (hkeeps : s.Keeps a) (frame : Frame s s' a.pid)
    (turn : Turn s s' a.pid (s.world.unlinking a) (s.world.failing a)) : s'.Resolves := by
  obtain ⟨-, hunlinked, hfailed⟩ := hkeeps
  generalize s.world.unlinking a = unlinking at *
  generalize s.world.failing a = failing at *
  intro n o ho
  cases turn with
  | quiet names creates before after =>
    rw [creates] at ho
    exact frame.resolved (by simp [before]) (h.resolves n o ho) (congrFun names n)
  | @opened name names creates before after since =>
    rw [creates] at ho
    by_cases hn : n = name
    · subst hn
      refine .inr ⟨a.pid, after, ?_⟩
      rw [since]
      exact h.known n o (List.mem_of_mem_head? (Option.mem_def.mpr ho))
    · exact frame.resolved (by simp [before]) (h.resolves n o ho)
        (by rw [names, update_of_ne hn])
  | @bound name free names creates before after next =>
    rw [creates] at ho
    by_cases hn : n = name
    · subst hn
      rw [update_self] at ho
      rw [names, update_self]
      exact .inl ho
    · rw [update_of_ne hn] at ho
      exact frame.resolved (by simpa [before] using Ne.symm hn) (h.resolves n o ho)
        (by rw [names, update_of_ne hn])
  | @returned name o' names creates before after =>
    have hhead : (s.creates n).head? = some o := by
      rw [creates] at ho
      by_cases hn : n = name
      · subst hn
        rwa [update_self, head_replaced] at ho
      · rwa [update_of_ne hn] at ho
    exact frame.resolved (by simp [before]) (h.resolves n o hhead) (congrFun names n)
  | @removed name names creates before after =>
    rw [creates] at ho
    by_cases hn : n = name
    · subst hn
      simp at ho
    · rw [update_of_ne hn] at ho
      exact frame.resolved (by simp [before]) (h.resolves n o ho)
        (by rw [names, update_of_ne hn])
  | @failed name names creates before after =>
    rw [creates] at ho
    by_cases hn : n = name
    · subst hn
      rcases hfailed n rfl o ho with hbound | ⟨q, hq, hrep⟩
      · exact .inl ((congrFun names n).trans hbound)
      · exact .inr ⟨q, (frame.replacing hq).mpr hrep⟩
    · exact frame.resolved (by simpa [before] using Ne.symm hn) (h.resolves n o ho)
        (congrFun names n)
  | @gaveUp name own names creates before after =>
    rw [creates] at ho
    by_cases hn : n = name
    · subst hn
      rw [update_self] at ho
      obtain ⟨q, hq, hrep⟩ := hunlinked n own rfl o ho
      exact .inr ⟨q, (frame.replacing hq).mpr hrep⟩
    · rw [update_of_ne hn] at ho
      exact frame.resolved (by simp [before]) (h.resolves n o ho)
        (by rw [names, update_of_ne hn])

/-- What is bound is the last object of its name, and nobody's `create` has unlinked it. -/
theorem last_of_turn {unlinking : Option (String × Option ℕ)} {failing : Option String}
    (h : s.Inv) (turn : Turn s s' p unlinking failing) {n : String}
    (ho : s'.world.names n = some o) : (s'.creates n).head? = some o := by
  -- the names that are unbound now
  have unbound {name : String} {os : List ℕ}
      (names : s'.world.names = update s.world.names name none)
      (creates : s'.creates = update s.creates name os) : (s'.creates n).head? = some o := by
    rw [names] at ho
    rw [creates]
    by_cases hn : n = name
    · subst hn
      simp at ho
    · rw [update_of_ne hn] at ho ⊢
      exact h.last n o ho
  cases turn with
  | quiet names creates before after =>
    rw [names] at ho
    rw [creates]
    exact h.last n o ho
  | @opened name names creates before after since =>
    exact unbound names (creates.trans (update_eq_self name _).symm)
  | @bound name free names creates before after next =>
    rw [names] at ho
    rw [creates]
    by_cases hn : n = name
    · subst hn
      rw [update_self] at ho ⊢
      exact ho
    · rw [update_of_ne hn] at ho ⊢
      exact h.last n o ho
  | @returned name o' names creates before after =>
    rw [names] at ho
    rw [creates]
    by_cases hn : n = name
    · subst hn
      rw [update_self, head_replaced]
      exact h.last n o ho
    · rw [update_of_ne hn]
      exact h.last n o ho
  | removed names creates before after => exact unbound names creates
  | failed names creates before after =>
    rw [names] at ho
    rw [creates]
    exact h.last n o ho
  | gaveUp names creates before after => exact unbound names creates

/-- The names after a step are the ones before it, but for one name that is unbound or bound to
a new object. -/
theorem names_of_turn {unlinking : Option (String × Option ℕ)} {failing : Option String}
    (turn : Turn s s' p unlinking failing) {n : String} (ho : s'.world.names n = some o) :
    s.world.names n = some o ∨ o = s.world.nextObject := by
  have unbound {name : String} {x : Option ℕ} (hx : x = none ∨ x = some s.world.nextObject)
      (names : s'.world.names = update s.world.names name x) :
      s.world.names n = some o ∨ o = s.world.nextObject := by
    rw [names] at ho
    by_cases hn : n = name
    · subst hn
      rw [update_self] at ho
      rcases hx with rfl | rfl
      · cases ho
      · exact .inr (Option.some.inj ho).symm
    · rw [update_of_ne hn] at ho
      exact .inl ho
  cases turn with
  | quiet names creates before after => exact .inl (names ▸ ho)
  | opened names creates before after since => exact unbound (.inl rfl) names
  | bound free names creates before after next => exact unbound (.inr rfl) names
  | returned names creates before after => exact .inl (names ▸ ho)
  | removed names creates before after => exact unbound (.inl rfl) names
  | failed names creates before after => exact .inl (names ▸ ho)
  | gaveUp names creates before after => exact unbound (.inl rfl) names

/-- The objects of the creates after a step. -/
theorem creates_of_turn {unlinking : Option (String × Option ℕ)} {failing : Option String}
    (turn : Turn s s' p unlinking failing) {n : String} (ho : o ∈ s'.creates n) :
    o ∈ s.creates n ∨ o = s.world.nextObject ∧ s'.world.nextObject = s.world.nextObject + 1 := by
  have changed {name : String} {os : List ℕ} (hos : ∀ x ∈ os, x ∈ s.creates name)
      (creates : s'.creates = update s.creates name os) : o ∈ s.creates n := by
    rw [creates] at ho
    by_cases hn : n = name
    · subst hn
      rw [update_self] at ho
      exact hos o ho
    · rwa [update_of_ne hn] at ho
  cases turn with
  | quiet names creates before after => exact .inl (creates ▸ ho)
  | opened names creates before after since => exact .inl (creates ▸ ho)
  | @bound name free names creates before after next =>
    rw [creates] at ho
    by_cases hn : n = name
    · subst hn
      rw [update_self] at ho
      rcases List.mem_cons.mp ho with rfl | ho
      · exact .inr ⟨rfl, next⟩
      · exact .inl ho
    · rw [update_of_ne hn] at ho
      exact .inl ho
  | returned names creates before after =>
    exact .inl (changed (fun _ => List.mem_of_mem_take) creates)
  | removed names creates before after => exact .inl (changed (by simp) creates)
  | failed names creates before after => exact .inl (creates ▸ ho)
  | gaveUp names creates before after => exact .inl (changed (fun _ => mem_of_rest) creates)

/-- Who is about to bind a name after a step of its own has just unlinked it. -/
theorem opening_of_turn {unlinking : Option (String × Option ℕ)} {failing : Option String}
    (turn : Turn s s' p unlinking failing) (hopen : s'.world.opening p = some name) :
    s'.world.names name = none ∧ s'.since p = s.world.nextObject := by
  have closed (after : s'.world.opening p = none) :
      s'.world.names name = none ∧ s'.since p = s.world.nextObject := by
    rw [after] at hopen
    cases hopen
  cases turn with
  | opened names creates before after since =>
    rw [after] at hopen
    obtain rfl := Option.some.inj hopen
    rw [names, update_self]
    exact ⟨rfl, since⟩
  | quiet names creates before after => exact closed after
  | bound free names creates before after next => exact closed after
  | returned names creates before after => exact closed after
  | removed names creates before after => exact closed after
  | failed names creates before after => exact closed after
  | gaveUp names creates before after => exact closed after

theorem inv_start (slots : ℕ → T) : Inv (start slots) where
  tmp _ := World.tmpInv_of_not_building rfl
  resolves _ _ h := by cases h
  last _ _ h := by cases h
  fresh _ _ _ _ h := by cases h
  known _ _ h := by cases h
  since_le _ := le_rfl

/-- Every step that meets the condition. -/
theorem inv_step (h : s.Inv) (hkeeps : s.Keeps a) (hstep : s.step a = some s') : s'.Inv := by
  have turn := turn_step (h.tmp a.pid) hstep
  have frame := frame_step (h.tmp a.pid) hstep
  refine ⟨?_, resolves_of_keeps h hkeeps frame turn, fun n o ho => last_of_turn h turn ho, ?_, ?_,
    ?_⟩
  · obtain ⟨w, hw, rfl⟩ := Option.map_eq_some_iff.mp hstep
    exact World.tmpInv_step h.tmp hw
  · intro q n o hopen ho
    by_cases hq : q = a.pid
    · subst hq
      rw [(opening_of_turn turn hopen).1] at ho
      cases ho
    · rw [frame.opening q hq] at hopen
      rw [frame.since q hq]
      rcases names_of_turn turn ho with ho | rfl
      · exact h.fresh q n o hopen ho
      · exact h.since_le q
  · intro n o ho
    rcases creates_of_turn turn ho with ho | ⟨rfl, hnext⟩
    · exact (h.known n o ho).trans_le frame.next
    · rw [hnext]
      exact Nat.lt_succ_self _
  · intro q
    obtain ⟨w, hw, rfl⟩ := Option.map_eq_some_iff.mp hstep
    exact (since_le_step h.since_le a q).trans frame.next

/-- A step that does not meet the condition leaves a name that does not resolve. -/
theorem keeps_of_resolves (h : s.Inv) (frame : Frame s s' a.pid)
    (turn : Turn s s' a.pid (s.world.unlinking a) (s.world.failing a)) (hres : s'.Resolves) :
    s.Keeps a := by
  -- who is about to replace an object after the step is another process, and was before it
  have other {n : String} {o : ℕ} (after : s'.world.opening a.pid = none)
      (hrep : ∃ q, s'.Replacing n o q) : ∃ q, q ≠ a.pid ∧ s.Replacing n o q := by
    obtain ⟨q, hq⟩ := hrep
    have hne : q ≠ a.pid := by
      rintro rfl
      rw [Replacing, after] at hq
      cases hq.1
    exact ⟨q, hne, (frame.replacing hne).mp hq⟩
  generalize hu : s.world.unlinking a = unlinking at turn
  generalize hf : s.world.failing a = failing at turn
  cases turn with
  | @failed name names creates before after =>
    refine ⟨by simp [World.ownUnlink, hu], by simp [hu], fun n hn o ho => ?_⟩
    rw [hf] at hn
    obtain rfl := Option.some.inj hn
    rcases hres name o (by rwa [creates]) with hbound | hrep
    · exact .inl ((congrFun names name).symm.trans hbound)
    · exact .inr (other after hrep)
  | @gaveUp name own names creates before after =>
    have hunlinked : ∀ o, (s.rest name own).head? = some o →
        ∃ q, q ≠ a.pid ∧ s.Replacing name o q := by
      intro o ho
      rcases hres name o (by rwa [creates, update_self]) with hbound | hrep
      · rw [names, update_self] at hbound
        cases hbound
      · exact other after hrep
    refine ⟨?_, ?_, by simp [hf]⟩
    · simp only [World.ownUnlink, hu, decide_eq_true_eq]
      by_contra hne
      rw [not_or] at hne
      -- the name is bound to another object, the last one, which no process can have unlinked
      obtain ⟨o, ho⟩ := Option.ne_none_iff_exists'.mp hne.1
      have hrest := head_rest (h.last name o ho) fun heq => hne.2 (ho.trans heq.symm)
      obtain ⟨q, -, hopen, hlt⟩ := hunlinked o hrest
      exact absurd (h.fresh q name o hopen ho) hlt.not_ge
    · intro n own' hn
      rw [hu] at hn
      cases hn
      exact hunlinked
  | _ => exact ⟨by simp [World.ownUnlink, hu], by simp [hu], by simp [hf]⟩

/-- A segment name is only unlinked by its own creator, under an exact condition : in every run
whose steps meet it every name resolves to the object of its last `create`, but for a later
`create` between its `shm_unlink` and its `shm_open`; and the next step keeps this if and only
if it meets the condition too. -/
theorem resolves_iff (slots : ℕ → T) (run : Reaches step Keeps (start slots) s) :
    s.Resolves ∧ ∀ a s', s.step a = some s' → (s'.Resolves ↔ s.Keeps a) := by
  have h := run.invariant (I := Inv) (inv_start slots) fun _ _ _ h hkeeps => inv_step h hkeeps
  refine ⟨h.resolves, fun a s' hstep => ⟨fun hres => ?_, fun hkeeps => ?_⟩⟩
  · exact keeps_of_resolves h (frame_step (h.tmp _) hstep) (turn_step (h.tmp _) hstep) hres
  · exact (inv_step h hkeeps hstep).resolves

/-- A step that unlinks nothing for an owner, and in which no `create` fails. -/
theorem keeps_of_quiet (hu : s.world.unlinking a = none) (hf : s.world.failing a = none) :
    s.Keeps a :=
  ⟨by simp [World.ownUnlink, hu], by simp [hu], by simp [hf]⟩

/-- `q = create("/q")`, and `q.detach()` up to its `seg_.reset()`. -/
def detachRun : List WorldAct :=
  WorldAct.create 1 1 messageSetup true ::
      List.replicate 25 (WorldAct.step 1 .plain) ++ [WorldAct.detach 1 1]

theorem resolves_iff_detachRun :
    ∃ s s' : Named ℕ, Reaches step Keeps (start fun _ => 0) s ∧ s.creates "/q" = [0] ∧
      s.world.names "/q" = some 0 ∧ s.step (.step 1 .plain) = some s' ∧ s'.Resolves := by
  have hrun : (exec step
      (fun s a => s.world.unlinking a = none ∧ s.world.failing a = none)
      (start fun _ => (0 : ℕ)) detachRun).map
      (fun s => decide (s.creates "/q" = [0] ∧ s.world.names "/q" = some 0 ∧
        (s.step (.step 1 .plain)).isSome ∧ s.world.ownUnlink (.step 1 .plain) ∧
        s.world.unlinking (.step 1 .plain) = some ("/q", some 0) ∧
        s.world.failing (.step 1 .plain) = none)) = some true := by decide +kernel
  obtain ⟨s, hs, hview⟩ := Option.map_eq_some_iff.mp hrun
  rw [decide_eq_true_eq] at hview
  obtain ⟨hcreates, hnames, hnext, hown, hunlinking, hfailing⟩ := hview
  obtain ⟨s', next⟩ := Option.isSome_iff_exists.mp hnext
  have run : Reaches step Keeps (start fun _ => (0 : ℕ)) s :=
    (Reaches.of_exec hs).mono fun _ _ hquiet => keeps_of_quiet hquiet.1 hquiet.2
  have hkeeps : s.Keeps (.step 1 .plain) := by
    refine ⟨hown, ?_, by simp [hfailing]⟩
    rw [hunlinking]
    rintro _ _ ⟨⟩ o ho
    simp [rest, hcreates] at ho
  exact ⟨s, s', run, hcreates, hnames, next, ((resolves_iff _ run).2 _ _ next).mpr hkeeps⟩

/-- A process that takes no step is between two calls. -/
theorem call_of_exec {as : List WorldAct} (hq : ∀ a ∈ as, a.pid ≠ q)
    (hexec : exec step (fun _ _ => True) s as = some s') :
    (s'.world.proc q).call = (s.world.proc q).call := by
  induction as generalizing s with
  | nil =>
    obtain rfl := Option.some.inj hexec
    rfl
  | cons a as ih =>
    rw [exec, if_pos trivial] at hexec
    obtain ⟨s₁, hstep, hrest⟩ := Option.bind_eq_some_iff.mp hexec
    obtain ⟨w, hw, rfl⟩ := Option.map_eq_some_iff.mp hstep
    have hcall := ih (fun b hb => hq b (List.mem_cons_of_mem _ hb)) hrest
    rw [hcall, World.proc_of_step (Ne.symm (hq a List.mem_cons_self)) hw]

/-- A name that is unbound when no process is about to bind one, though an object of it has not
been given up. -/
theorem not_resolves {as : List WorldAct} (ps : List ℤ) {slots : ℕ → T}
    (hexec : exec step (fun _ _ => True) (start slots) as = some s)
    (hps : ∀ a ∈ as, a.pid ∈ ps) (hcalls : ∀ p ∈ ps, (s.world.proc p).call.opens = none)
    (hlast : (s.creates name).head? = some o) (hnames : s.world.names name = none) :
    ¬s.Resolves := by
  have hidle : ∀ q ∉ ps, (s.world.proc q).call = .idle := by
    intro q hq
    refine call_of_exec (fun a ha heq => hq ?_) hexec
    rw [← heq]
    exact hps a ha
  intro hres
  rcases hres name o hlast with hbound | ⟨q, hopen, -⟩
  · rw [hnames] at hbound
    cases hbound
  · have hclosed : s.world.opening q = none := by
      by_cases hq : q ∈ ps
      · exact opening_of_call rfl (hcalls q hq)
      · exact opening_of_call (hidle q hq) rfl
    rw [hclosed] at hopen
    cases hopen

/-- `q = create("/q")` twice, with the same `q`. -/
def overwriteRun : List WorldAct :=
  WorldAct.create 1 1 messageSetup true :: List.replicate 25 (WorldAct.step 1 .plain) ++
    WorldAct.create 1 1 messageSetup true :: List.replicate 26 (WorldAct.step 1 .plain)

/-- A `create` of process `2` whose `ftruncate` fails with `ENOSPC`. -/
def failingSetup : Setup :=
  { messageSetup with
    calls := ⟨none, some 28, none⟩
    creator := 2
    creator_pos := by decide }

/-- `create("/q")` in process `2`, which fails, after one in process `1`. -/
def failingRun : List WorldAct :=
  WorldAct.create 1 1 messageSetup true :: List.replicate 25 (WorldAct.step 1 .plain) ++
    WorldAct.create 2 1 failingSetup true :: List.replicate 4 (WorldAct.step 2 .plain)

/-- The assignment creates object `1`, and then releases what `q` held : it unlinks the name
of object `1`, which nobody can attach to any more. And a `create` that fails leaves the name of
the queue that another process has created unbound. -/
theorem resolves_overwriteRun :
    (∃ s : Named ℕ, Reachable step (start fun _ => 0) s ∧
      (s.world.var 1 1).map (fun q => (q.seg.owner, q.seg.name, q.ctrl.map Mapping.object)) =
        some (true, "/q", some 1) ∧
      s.creates "/q" = [1] ∧ s.world.names "/q" = none ∧ ¬s.Resolves) ∧
    ∃ s : Named ℕ, Reachable step (start fun _ => 0) s ∧
      (s.world.var 1 1).map (fun q => (q.seg.owner, q.seg.name, q.ctrl.map Mapping.object)) =
        some (true, "/q", some 0) ∧
      (s.world.proc 2).thrown = some (.systemError 28 "ftruncate /q") ∧
      s.creates "/q" = [0] ∧ s.world.names "/q" = none ∧ ¬s.Resolves := by
  constructor
  · have hrun : (exec step (fun _ _ => True) (start fun _ => (0 : ℕ)) overwriteRun).map
        (fun s => decide (
          (s.world.var 1 1).map (fun q => (q.seg.owner, q.seg.name, q.ctrl.map Mapping.object)) =
            some (true, "/q", some 1) ∧
          s.creates "/q" = [1] ∧ s.world.names "/q" = none ∧
          (s.world.proc 1).call.opens = none)) = some true := by decide +kernel
    obtain ⟨s, hs, hview⟩ := Option.map_eq_some_iff.mp hrun
    rw [decide_eq_true_eq] at hview
    obtain ⟨hvar, hcreates, hnames, hcall⟩ := hview
    have hnot : ¬s.Resolves := by
      refine not_resolves [1] hs (by decide) ?_ (by rw [hcreates]; rfl) hnames
      simpa using hcall
    exact ⟨s, Reaches.of_exec hs, hvar, hcreates, hnames, hnot⟩
  · have hrun : (exec step (fun _ _ => True) (start fun _ => (0 : ℕ)) failingRun).map
        (fun s => decide (
          (s.world.var 1 1).map (fun q => (q.seg.owner, q.seg.name, q.ctrl.map Mapping.object)) =
            some (true, "/q", some 0) ∧
          (s.world.proc 2).thrown = some (.systemError 28 "ftruncate /q") ∧
          s.creates "/q" = [0] ∧ s.world.names "/q" = none ∧
          (s.world.proc 1).call.opens = none ∧ (s.world.proc 2).call.opens = none)) =
        some true := by decide +kernel
    obtain ⟨s, hs, hview⟩ := Option.map_eq_some_iff.mp hrun
    rw [decide_eq_true_eq] at hview
    obtain ⟨hvar, hthrown, hcreates, hnames, hcall, hcall'⟩ := hview
    have hnot : ¬s.Resolves := by
      refine not_resolves [1, 2] hs (by decide) ?_ (by rw [hcreates]; rfl) hnames
      simpa using ⟨hcall, hcall'⟩
    exact ⟨s, Reaches.of_exec hs, hvar, hthrown, hcreates, hnames, hnot⟩

end Named

end ShmSpsc
