import ShmSpsc.Bind
import ShmSpsc.Transition

/-!
# Handles, mappings and names

`ShmSegment` and `ShmSpscQueue` as values of a program : any number of processes with any
number of handles each, which they create, attach, move, swap, detach and destroy, over any
number of shared memory objects and a namespace from names to objects. A process runs its
calls one after the other, and every system call and every access to an object is a step of
its own, between which the other processes take theirs.

A handle refers to the object it maps through a `Mapping`. `create` and `attach` build their
result in the temporary `tmp`; it is then moved into the variable it was called for, or
destroyed by an exception. The release of a handle is two steps, the compare-exchange of
`detach` (`World.release`) and `seg_.reset()` (`World.reset`).
-/

namespace ShmSpsc

open Transition

variable {T : Type*}

/-! ## Handles -/

/-- An object mapped into a process. -/
structure Mapping where
  id : ℕ
  object : ℕ
  deriving DecidableEq, Repr

/-- `ShmSegment` -/
structure Segment where
  addr : Option Mapping
  size : UInt64
  owner : Bool
  name : String
  deriving DecidableEq, Repr

/-- `ShmSpscQueue`. A `ShmSegment` used alone is one whose other members are null. -/
structure Queue where
  seg : Segment
  ctrl : Option Mapping
  slots : Option (Mapping × UInt32)
  capacity : UInt64
  role : Role
  bound : Bool
  readIdxCache : UInt64
  writeIdxCache : UInt64
  deriving DecidableEq, Repr

/-- `ShmSegment()` -/
def Segment.null : Segment := ⟨none, 0, false, ""⟩

/-- `ShmSpscQueue()` -/
def Queue.null : Queue := ⟨.null, none, none, 0, .producer, false, 0, 0⟩

/-- The members that a step of `bind` assigns. -/
def Queue.assign (q : Queue) (role : Role) (o : Object T) : BindPc → Queue
  | .loadCapacity =>
    { q with role := role, capacity := o.geometry.capacity,
             slots := q.ctrl.map fun m => (m, o.geometry.slotsOffset) }
  | .loadReadIdx _ => { q with readIdxCache := o.ring.readIdx }
  | .loadWriteIdx _ _ => { q with writeIdxCache := o.ring.writeIdx }
  | _ => q

/-- `detach`, but for the store to the pid slot and `seg_.reset()`. -/
def Queue.released (q : Queue) : Queue := { q with ctrl := none, slots := none, bound := false }

/-- The handle is bound to `role` of `object`. -/
def Queue.boundTo (q : Queue) (object : ℕ) (role : Role) : Bool :=
  q.bound && (q.role == role && q.ctrl.map Mapping.object == some object)

/-! ## Calls -/

/-- What follows `seg_.reset()` : `detach` returns, the destructor returns, or `operator=` goes
on to swap with `u`. -/
inductive Next where
  | keep
  | drop
  | swap (u : ℕ)
  deriving DecidableEq, Repr

/-- Where a process is : between two calls, or before a step of one. `whole` tells
`ShmSpscQueue::create` from `ShmSegment::create`, `v` is the variable for the result and `o` the
object at work. -/
inductive Call where
  | idle
  | unlink (S : Setup) (whole : Bool) (v : ℕ)
  | shmOpen (S : Setup) (whole : Bool) (v : ℕ)
  | create (S : Setup) (whole : Bool) (v o : ℕ) (pc : CreatePc)
  | cleanup (name : String) (o : ℕ)
  | attach (name : String) (role : Role) (v o : ℕ) (pc : AttachPc)
  | openSegment (name : String) (v : ℕ)
  | placing (v : ℕ)
  | destroying (v : ℕ)
  | resetting (v : ℕ) (next : Next)

/-- A process : its handles, where it is, and the last exception. -/
structure Proc where
  vars : ℕ → Option Queue
  call : Call
  thrown : Option Exception

/-- The local of `create` and `attach`. -/
def tmp : ℕ := 0

/-- The namespace, the objects, the mappings undone so far, and the processes. -/
structure World (T : Type*) where
  names : String → Option ℕ
  objects : ℕ → Object T
  nextObject : ℕ
  nextMapping : ℕ
  unmapped : List Mapping
  proc : ℤ → Proc
  dead : ℤ → Bool

/-- A call of process `p`, the next step of its call, or its death. -/
inductive WorldAct where
  | create (p : ℤ) (v : ℕ) (S : Setup) (whole : Bool)
  | attach (p : ℤ) (v : ℕ) (name : String) (role : Role) (A : Layout)
  | openSegment (p : ℤ) (v : ℕ) (name : String)
  | construct (p : ℤ) (v : ℕ)
  | moveConstruct (p : ℤ) (v u : ℕ)
  | moveAssign (p : ℤ) (v u : ℕ)
  | swapWith (p : ℤ) (v u : ℕ)
  | detach (p : ℤ) (v : ℕ)
  | destroy (p : ℤ) (v : ℕ)
  | remove (p : ℤ) (name : String)
  | step (p : ℤ) (ans : Answers)
  | die (p : ℤ)

/-- `ENOENT` -/
def enoent : ℕ := 2

/-- `EEXIST` -/
def eexist : ℕ := 17

/-- The pid that the next step of a call probes. -/
def Call.probed : Call → Option ℤ
  | .create _ _ _ _ (.binding (.test _ expected)) => some expected
  | .attach _ _ _ _ (.binding (.test _ expected)) => some expected
  | _ => none

namespace World

variable (w : World T) (p : ℤ)

/-- `p` is a process that has not died. -/
def live : Bool := decide (0 < p) && !w.dead p

/-- The answers that the system can give : `ESRCH` for no live process. -/
def admits (ans : Answers) (probed : Option ℤ) : Bool :=
  match probed with
  | some q => !(w.live q && ans.kill == .errno esrch)
  | none => true

/-- The handle in variable `v`. -/
def var (v : ℕ) : Option Queue := (w.proc p).vars v

/-- Process `p` becomes `x`. -/
def setProc (x : Proc) : World T := { w with proc := Function.update w.proc p x }

/-- Process `p` goes on to `call`. -/
def goto (call : Call) : World T := w.setProc p { w.proc p with call := call }

/-- A store to variable `v`. -/
def setVar (v : ℕ) (q : Option Queue) : World T :=
  w.setProc p { w.proc p with vars := Function.update (w.proc p).vars v q }

/-- The exception `e` leaves the call, through `call`. -/
def throw (e : Exception) (call : Call) : World T :=
  w.setProc p { w.proc p with call := call, thrown := some e }

/-- `shm_unlink(name)` -/
def unlink (name : String) : World T := { w with names := Function.update w.names name none }

/-- Object `o` after a step that has left `obj` in it. -/
def setObject (o : ℕ) (obj : Object T) : World T :=
  { w with objects := Function.update w.objects o obj }

/-- `munmap` -/
def unmap (addr : Option Mapping) : World T := { w with unmapped := w.unmapped ++ addr.toList }

/-! ## Releasing a handle -/

/-- The compare-exchange of `detach()` on the pid slot of handle `q`. -/
def clearPid (q : Queue) : World T :=
  match q.ctrl with
  | some m =>
    if q.bound ∧ (w.objects m.object).pid q.role = p then
      w.setObject m.object ((w.objects m.object).setPid q.role (-1))
    else w
  | none => w

/-- `detach()` up to `seg_.reset()`. -/
def release (v : ℕ) (next : Next) : Option (World T) :=
  match w.var p v with
  | some q => some (((w.clearPid p q).setVar p v (some q.released)).goto p (.resetting v next))
  | none => none

/-- What `seg_.reset()` does outside the handle. -/
def resetSegment (seg : Segment) : World T :=
  if seg.owner ∧ seg.name ≠ "" then (w.unmap seg.addr).unlink seg.name else w.unmap seg.addr

/-- `seg_.reset()`, and what follows it. -/
def reset (v : ℕ) (next : Next) : Option (World T) :=
  match w.var p v with
  | some q =>
    let w' := w.resetSegment q.seg
    let q' := { q with seg := .null }
    match next with
    | .keep => some ((w'.setVar p v (some q')).goto p .idle)
    | .drop => some ((w'.setVar p v none).goto p .idle)
    | .swap u =>
      some (((w'.setVar p v (w.var p u)).setVar p u (some q')).goto p
        (if u = tmp then .destroying tmp else .idle))
  | none => none

/-! ## `create` and `attach` -/

/-- A new mapping of object `o`, in the temporary : `seg_` is assigned, which resets the segment
that was there, and for a queue `ctrl_` too. -/
def mapTmp (q : Queue) (o : ℕ) (size : UInt64) (owner : Bool) (name : String) (whole : Bool) :
    World T :=
  let m : Mapping := ⟨w.nextMapping, o⟩
  let q' := { q with seg := ⟨some m, size, owner, name⟩, ctrl := if whole then some m else q.ctrl }
  { (w.resetSegment q.seg).setVar p tmp (some q') with nextMapping := w.nextMapping + 1 }

/-- A step of `bind` on the temporary : `more` and `bound` are where the call goes on. -/
def bindStep (role : Role) (o : ℕ) (b : BindPc) (ans : Answers) (more : BindPc → Call)
    (bound : Handle → Call) : Option (World T) :=
  match w.var p tmp with
  | some q =>
    let out := ShmSpsc.bindStep role p (w.objects o) ans b
    let q' := q.assign role (w.objects o) b
    let w' := w.setObject o out.1
    some (match out.2 with
      | .more b' => (w'.setVar p tmp (some q')).goto p (more b')
      | .bound h => (w'.setVar p tmp (some { q' with bound := true })).goto p (bound h)
      | .threw e => (w'.setVar p tmp (some q')).throw p e (.destroying tmp))
  | none => none

/-- A step of `create` outside `mmap` and `bind`. -/
def storeStep (S : Setup) (whole : Bool) (v o : ℕ) (ans : Answers) (pc : CreatePc) : World T :=
  let out := ShmSpsc.createStep S (w.objects o) ans pc
  let w' := w.setObject o out.1
  match out.2 with
  | .more pc' => w'.goto p (.create S whole v o pc')
  | .bound _ => w'.goto p (.placing v)
  | .threw e => w'.throw p e (.cleanup S.name o)

/-- A step of `create` on its object. -/
def createStep (S : Setup) (whole : Bool) (v o : ℕ) (ans : Answers) :
    CreatePc → Option (World T)
  | .mmap =>
    match w.var p tmp, (ShmSpsc.createStep S (w.objects o) ans .mmap).2 with
    | some _, .threw e => some (w.throw p e (.cleanup S.name o))
    | some q, _ =>
      some ((w.mapTmp p q o S.bytes true S.name whole).goto p
        (if whole then .create S whole v o .memset else .placing v))
    | none, _ => none
  | .binding b =>
    w.bindStep p S.role o b ans (fun b' => .create S whole v o (.binding b'))
      fun h => .create S whole v o (.ready h)
  | pc => some (w.storeStep p S whole v o ans pc)

/-- `ShmSegment::open` : the object the name resolves to, and the `size()` of the segment. -/
def openName (name : String) (ans : Answers) : Except Exception (ℕ × UInt64) :=
  match w.names name with
  | some o => (segmentOpen name (w.objects o) ans).map (o, ·)
  | none => do
    validateName name
    .error (.systemError enoent ("shm_open " ++ name ++ " (is the peer running?)"))

/-- The check of `ready`, or `validate`, of `attach`. -/
def checkStep (name : String) (role : Role) (v o : ℕ) (ans : Answers) (pc : AttachPc) :
    World T :=
  match (ShmSpsc.attachStep name role p (w.objects o) ans pc).2 with
  | .more pc' => w.goto p (.attach name role v o pc')
  | .bound _ => w.goto p (.placing v)
  | .threw e => w.throw p e (.destroying tmp)

/-- A step of `attach`. -/
def attachStep (name : String) (role : Role) (v o : ℕ) (ans : Answers) :
    AttachPc → Option (World T)
  | .opening A =>
    match w.var p tmp, w.openName name ans with
    | some q, .ok (o', mapped) =>
      some ((w.mapTmp p q o' mapped false name true).goto p
        (.attach name role v o' (.readyCheck A ans.lastAttempt mapped)))
    | some _, .error e =>
      some (if ans.lastAttempt then w.throw p e (.destroying tmp)
            else w.goto p (.attach name role v o (.opening A)))
    | none, _ => none
  | .binding b =>
    w.bindStep p role o b ans (fun b' => .attach name role v o (.binding b'))
      fun _ => .placing v
  | pc => some (w.checkStep p name role v o ans pc)

/-- `shm_open(name, O_CREAT | O_EXCL | O_RDWR)` of `create`. -/
def shmOpen (S : Setup) (whole : Bool) (v : ℕ) : World T :=
  let what := "shm_open(O_CREAT) " ++ S.name
  match S.calls.shmOpen, w.names S.name with
  | some e, _ => w.throw p (.systemError e what) (.destroying tmp)
  | none, some _ => w.throw p (.systemError eexist what) (.destroying tmp)
  | none, none =>
    { w with names := Function.update w.names S.name (some w.nextObject)
             nextObject := w.nextObject + 1 }.goto p
      (.create S whole v w.nextObject .ftruncate)

/-! ## Steps -/

/-- The next step of the current call. -/
def stepCall (ans : Answers) : Call → Option (World T)
  | .idle => none
  | .unlink S whole v => some ((w.unlink S.name).goto p (.shmOpen S whole v))
  | .shmOpen S whole v => some (w.shmOpen p S whole v)
  | .create S whole v o pc => w.createStep p S whole v o ans pc
  | .cleanup name _ => some ((w.unlink name).goto p (.destroying tmp))
  | .attach name role v o pc => w.attachStep p name role v o ans pc
  | .openSegment name v =>
    match w.var p tmp, w.openName name ans with
    | some q, .ok (o, size) => some ((w.mapTmp p q o size false name false).goto p (.placing v))
    | some _, .error e => some (w.throw p e (.destroying tmp))
    | none, _ => none
  | .placing v =>
    match w.var p v with
    | some _ => w.release p v (.swap tmp)
    | none =>
      some (((w.setVar p v (w.var p tmp)).setVar p tmp (some .null)).goto p (.destroying tmp))
  | .destroying v => w.release p v .drop
  | .resetting v next => w.reset p v next

/-- A process between two calls starts one. -/
def startCall : WorldAct → Option (World T)
  | .create p v S whole =>
    if v ≠ tmp ∧ S.creator = p then
      some ((w.setVar p tmp (some .null)).goto p (.unlink S whole v)) else none
  | .attach p v name role A =>
    if v ≠ tmp then
      some ((w.setVar p tmp (some .null)).goto p (.attach name role v 0 (.opening A))) else none
  | .openSegment p v name =>
    if v ≠ tmp then
      some ((w.setVar p tmp (some .null)).goto p (.openSegment name v)) else none
  | .construct p v =>
    if v ≠ tmp ∧ w.var p v = none then some (w.setVar p v (some .null)) else none
  | .moveConstruct p v u =>
    match w.var p v, w.var p u with
    | none, some q =>
      if v ≠ tmp then some ((w.setVar p v (some q)).setVar p u (some .null)) else none
    | _, _ => none
  | .moveAssign p v u =>
    match w.var p v, w.var p u with
    | some _, some _ => if v = u then some w else w.release p v (.swap u)
    | _, _ => none
  | .swapWith p v u =>
    match w.var p v, w.var p u with
    | some q, some q' => some ((w.setVar p v (some q')).setVar p u (some q))
    | _, _ => none
  | .detach p v => w.release p v .keep
  | .destroy p v => w.release p v .drop
  | .remove _ name => some (w.unlink name)
  | .step _ _ => none
  | .die _ => none

end World

/-- The process that takes the action. -/
def WorldAct.pid : WorldAct → ℤ
  | .create p _ _ _ => p
  | .attach p _ _ _ _ => p
  | .openSegment p _ _ => p
  | .construct p _ => p
  | .moveConstruct p _ _ => p
  | .moveAssign p _ _ => p
  | .swapWith p _ _ => p
  | .detach p _ => p
  | .destroy p _ => p
  | .remove p _ => p
  | .step p _ => p
  | .die p => p

/-- `attach` or `create` has returned, and its result is moved to its variable. -/
def Call.isPlacing : Call → Bool
  | .placing _ => true
  | _ => false

/-- The process is between two calls. -/
def Call.isIdle : Call → Bool
  | .idle => true
  | _ => false

namespace World

/-- One step. -/
def step (w : World T) (a : WorldAct) : Option (World T) :=
  if w.live a.pid = false then none
  else
    match a with
    | .die p => some { w with dead := Function.update w.dead p true }
    | .step p ans =>
      if w.admits ans (w.proc p).call.probed then w.stepCall p ans (w.proc p).call else none
    | a => if (w.proc a.pid).call.isIdle then w.startCall a else none

/-- Nobody has done anything : no name is bound, and objects are zero-filled when they are
made. -/
def start (slots : ℕ → T) : World T where
  names := fun _ => none
  objects := fun _ => ⟨0, .zero, 0, 0, 0, ⟨0, 0, slots⟩⟩
  nextObject := 0
  nextMapping := 0
  unmapped := []
  proc := fun _ => ⟨fun _ => none, .idle, none⟩
  dead := fun _ => false

/-! ## What a step does -/

section Api

variable {w w' : World T} {a : WorldAct} {p q : ℤ} {v u : ℕ}

/-- A step is a death, the next step of a call, or the start of one. -/
theorem step_cases (h : w.step a = some w') :
    w.live a.pid ∧
      ((∃ p, a = .die p ∧ w' = { w with dead := Function.update w.dead p true }) ∨
        (∃ p ans, a = .step p ans ∧ w.admits ans (w.proc p).call.probed ∧
          w.stepCall p ans (w.proc p).call = some w') ∨
        (w.proc a.pid).call = .idle ∧ w.startCall a = some w') := by
  unfold step at h
  split_ifs at h with hlive
  refine ⟨by simpa using hlive, ?_⟩
  cases a with
  | die p =>
    cases h
    exact .inl ⟨p, rfl, rfl⟩
  | step p ans =>
    dsimp only at h
    split_ifs at h with hadm
    exact .inr (.inl ⟨p, ans, rfl, hadm, h⟩)
  | _ =>
    dsimp only at h
    split_ifs at h with hidle
    refine .inr (.inr ⟨?_, h⟩)
    revert hidle
    cases (w.proc _).call <;> simp [Call.isIdle]

theorem pos_of_live (h : w.live p) : 0 < p := by
  simp only [live, Bool.and_eq_true, decide_eq_true_eq] at h
  exact h.1

/-- A live process does not probe as dead. -/
theorem processAlive_of_live {ans : Answers} (hadm : w.admits ans (some q)) (hq : w.live q) :
    processAlive ans.kill q := by
  simp only [admits, hq, Bool.true_and, Bool.not_eq_true', beq_eq_false_iff_ne] at hadm
  exact processAlive_of_ne (pos_of_live hq) hadm

@[simp] theorem proc_setProc_self {x : Proc} : (w.setProc p x).proc p = x := by
  simp [setProc]

theorem proc_setProc_of_ne {x : Proc} (h : q ≠ p) : (w.setProc p x).proc q = w.proc q := by
  simp [setProc, h]

theorem var_setVar_self {x : Option Queue} : (w.setVar p v x).var p v = x := by
  simp [setVar, var]

@[simp] theorem var_goto {c : Call} : (w.goto p c).var p v = w.var p v := by
  simp [goto, var]

@[simp] theorem call_goto {c : Call} : ((w.goto p c).proc p).call = c := by
  simp [goto]

@[simp] theorem call_throw {e : Exception} {c : Call} : ((w.throw p e c).proc p).call = c := by
  simp [throw]

@[simp] theorem vars_goto {c : Call} : ((w.goto p c).proc p).vars = (w.proc p).vars := by
  simp [goto]

@[simp] theorem vars_throw {e : Exception} {c : Call} :
    ((w.throw p e c).proc p).vars = (w.proc p).vars := by
  simp [throw]

@[simp] theorem vars_setVar {x : Option Queue} :
    ((w.setVar p v x).proc p).vars = Function.update (w.proc p).vars v x := by
  simp [setVar]

@[simp] theorem call_setVar {x : Option Queue} :
    ((w.setVar p v x).proc p).call = (w.proc p).call := by
  simp [setVar]

@[simp] theorem thrown_goto {c : Call} : ((w.goto p c).proc p).thrown = (w.proc p).thrown := by
  simp [goto]

@[simp] theorem thrown_throw {e : Exception} {c : Call} :
    ((w.throw p e c).proc p).thrown = some e := by
  simp [throw]

@[simp] theorem thrown_setVar {x : Option Queue} :
    ((w.setVar p v x).proc p).thrown = (w.proc p).thrown := by
  simp [setVar]

@[simp] theorem proc_clearPid {h : Queue} : (w.clearPid p h).proc = w.proc := by
  unfold clearPid
  split
  · split_ifs <;> rfl
  · rfl

@[simp] theorem proc_resetSegment {seg : Segment} : (w.resetSegment seg).proc = w.proc := by
  unfold resetSegment
  split_ifs <;> rfl

theorem dead_clearPid {h : Queue} : (w.clearPid p h).dead = w.dead := by
  unfold clearPid
  split
  · split_ifs <;> rfl
  · rfl

theorem nextObject_clearPid {h : Queue} : (w.clearPid p h).nextObject = w.nextObject := by
  unfold clearPid
  split
  · split_ifs <;> rfl
  · rfl

theorem clearPid_frame (h : Queue) (o : ℕ) :
    ((w.clearPid p h).objects o).geometry = (w.objects o).geometry ∧
      ((w.clearPid p h).objects o).ready = (w.objects o).ready := by
  unfold clearPid
  split
  next m _ =>
    split_ifs
    · by_cases ho : o = m.object
      · subst ho
        simp [setObject]
      · simp [setObject, ho]
    · exact ⟨rfl, rfl⟩
  next => exact ⟨rfl, rfl⟩

theorem resetSegment_frame (w : World T) (seg : Segment) :
    (w.resetSegment seg).objects = w.objects ∧
    (w.resetSegment seg).nextObject = w.nextObject ∧
    (w.resetSegment seg).dead = w.dead := by
  unfold resetSegment
  split_ifs <;> exact ⟨rfl, rfl, rfl⟩

theorem release_eq {next : Next} (h : w.release p v next = some w') :
    ∃ q, w.var p v = some q ∧
      w' = ((w.clearPid p q).setVar p v (some q.released)).goto p (.resetting v next) := by
  unfold release at h
  split at h
  next q hq =>
    cases h
    exact ⟨q, hq, rfl⟩
  next => cases h

theorem proc_release {next : Next} (hq : q ≠ p) (h : w.release p v next = some w') :
    w'.proc q = w.proc q := by
  unfold release at h
  split at h
  · cases h
    simp [goto, setVar, proc_setProc_of_ne hq]
  · cases h

theorem proc_bindStep {role : Role} {o : ℕ} {b : BindPc} {ans : Answers} {more : BindPc → Call}
    {bound : Handle → Call} (hq : q ≠ p) (h : w.bindStep p role o b ans more bound = some w') :
    w'.proc q = w.proc q := by
  unfold bindStep at h
  split at h
  · cases h
    split <;> simp [goto, throw, setVar, setObject, proc_setProc_of_ne hq]
  · cases h

theorem proc_mapTmp {h : Queue} {o : ℕ} {size : UInt64} {owner whole : Bool} {name : String}
    (hq : q ≠ p) : (w.mapTmp p h o size owner name whole).proc q = w.proc q := by
  simp [mapTmp, setVar, proc_setProc_of_ne hq]

theorem var_mapTmp {h : Queue} {o : ℕ} {size : UInt64} {owner whole : Bool} {name : String} :
    (w.mapTmp p h o size owner name whole).var p tmp =
      some { h with seg := ⟨some ⟨w.nextMapping, o⟩, size, owner, name⟩
                    ctrl := if whole then some ⟨w.nextMapping, o⟩ else h.ctrl } := by
  simp [mapTmp, setVar, var]

theorem vars_mapTmp {h : Queue} {o : ℕ} {size : UInt64} {owner whole : Bool} {name : String} :
    ((w.mapTmp p h o size owner name whole).proc p).vars =
      Function.update (w.proc p).vars tmp
        (some { h with seg := ⟨some ⟨w.nextMapping, o⟩, size, owner, name⟩
                       ctrl := if whole then some ⟨w.nextMapping, o⟩ else h.ctrl }) := by
  simp [mapTmp, setVar]

theorem proc_stepCall {ans : Answers} {c : Call} (hq : q ≠ p) (h : w.stepCall p ans c = some w') :
    w'.proc q = w.proc q := by
  cases c with
  | idle => cases h
  | unlink S whole v =>
    cases h
    simp [goto, unlink, proc_setProc_of_ne hq]
  | shmOpen S whole v =>
    cases h
    unfold shmOpen
    dsimp only
    split <;> simp [goto, throw, proc_setProc_of_ne hq]
  | create S whole v o pc =>
    cases pc with
    | mmap =>
      simp only [stepCall, createStep] at h
      split at h <;> cases h
      · simp [throw, proc_setProc_of_ne hq]
      · simp [goto, proc_setProc_of_ne hq, proc_mapTmp hq]
    | binding b => exact proc_bindStep hq h
    | _ =>
      cases h
      unfold storeStep
      dsimp only
      split <;> simp [goto, throw, setObject, proc_setProc_of_ne hq]
  | cleanup name o =>
    cases h
    simp [goto, unlink, proc_setProc_of_ne hq]
  | attach name role v o pc =>
    cases pc with
    | opening A =>
      simp only [stepCall, attachStep] at h
      split at h <;> cases h
      · simp [goto, proc_setProc_of_ne hq, proc_mapTmp hq]
      · split_ifs <;> simp [goto, throw, proc_setProc_of_ne hq]
    | binding b => exact proc_bindStep hq h
    | _ =>
      cases h
      unfold checkStep
      split <;> simp [goto, throw, proc_setProc_of_ne hq]
  | openSegment name v =>
    simp only [stepCall] at h
    split at h <;> cases h
    · simp [goto, proc_setProc_of_ne hq, proc_mapTmp hq]
    · simp [throw, proc_setProc_of_ne hq]
  | placing v =>
    simp only [stepCall] at h
    split at h
    · exact proc_release hq h
    · cases h
      simp [goto, setVar, proc_setProc_of_ne hq]
  | destroying v => exact proc_release hq h
  | resetting v next =>
    simp only [stepCall, reset] at h
    split at h
    · cases next <;> cases h <;> simp [goto, setVar, proc_setProc_of_ne hq]
    · cases h

theorem proc_startCall (hq : q ≠ a.pid) (h : w.startCall a = some w') :
    w'.proc q = w.proc q := by
  cases a with
  | detach p v => exact proc_release hq h
  | destroy p v => exact proc_release hq h
  | remove p name =>
    cases h
    rfl
  | step p ans => cases h
  | die p => cases h
  | moveAssign p v u =>
    simp only [startCall] at h
    split at h
    · split_ifs at h
      · cases h
        rfl
      · exact proc_release hq h
    · cases h
  | moveConstruct p v u =>
    simp only [startCall, WorldAct.pid] at h hq
    split at h
    · split_ifs at h
      cases h
      simp [setVar, proc_setProc_of_ne hq]
    · cases h
  | swapWith p v u =>
    simp only [startCall, WorldAct.pid] at h hq
    split at h <;> cases h
    simp [setVar, proc_setProc_of_ne hq]
  | _ =>
    simp only [startCall, WorldAct.pid] at h hq
    split_ifs at h
    cases h
    simp [goto, setVar, proc_setProc_of_ne hq]

/-- A step changes no other process. -/
theorem proc_of_step (hq : q ≠ a.pid) (h : w.step a = some w') : w'.proc q = w.proc q := by
  rcases (step_cases h).2 with ⟨p, rfl, rfl⟩ | ⟨p, ans, rfl, -, hcall⟩ | ⟨-, hstart⟩
  · rfl
  · exact proc_stepCall hq hcall
  · exact proc_startCall hq hstart

end Api

end World

end ShmSpsc
