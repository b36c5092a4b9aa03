import ShmSpsc.Lifecycle
import Mathlib.Data.Option.Defs

/-!
# A failed attach is invisible

An `attach` that throws, from its first `open` to the destruction of its local, among any
operations of any other processes on objects of any content. `World.Agree p` compares two
worlds as everybody but `p` sees them : names, objects, deaths, and the other processes with
their handles, up to the identities of mappings. `World.Agree.step` : in worlds that agree the
others can take the same steps, and the worlds agree after them. `World.Failing` is where an
`attach` can be as long as it has not bound its local, and `World.Failing.step` says that its
steps change nothing that others see.

`World.failed_attach_invisible` puts the two together with `Transition.exec_filter` : the run
without the attach is a run, and ends in the same world.
-/

namespace ShmSpsc

open Transition

variable {T : Type*}

/-! ## Mappings without their identities -/

/-- The object it maps. -/
def Mapping.unnamed (m : Mapping) : Mapping := { m with id := 0 }

/-- The segment, but for the identity of its mapping. -/
def Segment.unnamed (seg : Segment) : Segment := { seg with addr := seg.addr.map Mapping.unnamed }

/-- The handle, but for the identity of its mapping. -/
def Queue.unnamed (q : Queue) : Queue :=
  { q with
    seg := q.seg.unnamed
    ctrl := q.ctrl.map Mapping.unnamed
    slots := q.slots.map fun (m, offset) => (m.unnamed, offset) }

/-- The process, but for the identities of its mappings. -/
def Proc.unnamed (x : Proc) : Proc :=
  { x with vars := fun v => (x.vars v).map Queue.unnamed }

/-- A step of `bind` stores the same in either. -/
theorem Queue.unnamed_assign (q : Queue) (role : Role) (o : Object T) (b : BindPc) :
    (q.assign role o b).unnamed = q.unnamed.assign role o b := by
  cases b with
  | loadCapacity =>
    simp only [assign, unnamed, Option.map_map]
    rfl
  | _ => rfl

theorem Queue.unnamed_released (q : Queue) : q.released.unnamed = q.unnamed.released := rfl

section Read

variable {q q' : Queue}

/-- What handles without identities agree in. -/
theorem Queue.eq_of_unnamed (h : q.unnamed = q'.unnamed) :
    q.bound = q'.bound ∧ q.role = q'.role ∧
      q.ctrl.map Mapping.object = q'.ctrl.map Mapping.object ∧
      q.seg.unnamed = q'.seg.unnamed := by
  have hbound : q.unnamed.bound = q'.unnamed.bound := by rw [h]
  have hrole : q.unnamed.role = q'.unnamed.role := by rw [h]
  have hseg : q.unnamed.seg = q'.unnamed.seg := by rw [h]
  have hctrl : q.unnamed.ctrl.map Mapping.object = q'.unnamed.ctrl.map Mapping.object := by rw [h]
  simp only [unnamed, Option.map_map] at hctrl
  exact ⟨hbound, hrole, hctrl, hseg⟩

/-- What segments without identities agree in. -/
theorem Segment.eq_of_unnamed {seg seg' : Segment} (h : seg.unnamed = seg'.unnamed) :
    seg.owner = seg'.owner ∧ seg.name = seg'.name := by
  have howner : seg.unnamed.owner = seg'.unnamed.owner := by rw [h]
  have hname : seg.unnamed.name = seg'.unnamed.name := by rw [h]
  exact ⟨howner, hname⟩

end Read

/-- Handles that agree, with the same segment moved into either. -/
theorem Queue.unnamed_setSeg {q q' : Queue} (h : q.unnamed = q'.unnamed) (seg : Segment) :
    Queue.unnamed { q with seg := seg } = Queue.unnamed { q' with seg := seg } := by
  have hset : { q.unnamed with seg := seg.unnamed } = { q'.unnamed with seg := seg.unnamed } := by
    rw [h]
  exact hset

theorem Queue.unnamed_setBound {q q' : Queue} (h : q.unnamed = q'.unnamed) (bound : Bool) :
    Queue.unnamed { q with bound := bound } = Queue.unnamed { q' with bound := bound } := by
  have hset : { q.unnamed with bound := bound } = { q'.unnamed with bound := bound } := by rw [h]
  exact hset

/-- Handles that agree, and then map the same object. -/
theorem Queue.unnamed_mapped {q q' : Queue} (h : q.unnamed = q'.unnamed) (id id' o : ℕ)
    (size : UInt64) (owner : Bool) (name : String) (whole : Bool) :
    Queue.unnamed { q with seg := ⟨some ⟨id, o⟩, size, owner, name⟩
                           ctrl := if whole then some ⟨id, o⟩ else q.ctrl } =
      Queue.unnamed { q' with seg := ⟨some ⟨id', o⟩, size, owner, name⟩
                              ctrl := if whole then some ⟨id', o⟩ else q'.ctrl } := by
  have hmapped : { q.unnamed with
        seg := ⟨some ⟨0, o⟩, size, owner, name⟩
        ctrl := if whole then some ⟨0, o⟩ else q.unnamed.ctrl } =
      { q'.unnamed with
        seg := ⟨some ⟨0, o⟩, size, owner, name⟩
        ctrl := if whole then some ⟨0, o⟩ else q'.unnamed.ctrl } := by rw [h]
  cases whole <;> exact hmapped

/-! ## Worlds that agree -/

namespace World

/-- The worlds are the same to everybody but `p`. -/
structure Agree (p : ℤ) (w w' : World T) : Prop where
  names : w.names = w'.names
  objects : w.objects = w'.objects
  nextObject : w.nextObject = w'.nextObject
  dead : w.dead = w'.dead
  proc : ∀ q ≠ p, (w.proc q).unnamed = (w'.proc q).unnamed

namespace Agree

variable {p q : ℤ} {w w' w'' : World T}

theorem refl (p : ℤ) (w : World T) : Agree p w w := ⟨rfl, rfl, rfl, rfl, fun _ _ => rfl⟩

/-- To go through a third world, as the others' run does with each hidden step. -/
theorem trans (h : Agree p w w') (h' : Agree p w' w'') : Agree p w w'' :=
  ⟨h.names.trans h'.names, h.objects.trans h'.objects,
    h.nextObject.trans h'.nextObject, h.dead.trans h'.dead,
    fun q hq => (h.proc q hq).trans (h'.proc q hq)⟩

/-- The others have the same handles in either world. -/
theorem var (h : Agree p w w') (hq : q ≠ p) (v : ℕ) :
    (w.var q v).map Queue.unnamed = (w'.var q v).map Queue.unnamed :=
  congrFun (congrArg Proc.vars (h.proc q hq)) v

theorem call (h : Agree p w w') (hq : q ≠ p) : (w.proc q).call = (w'.proc q).call := by
  have hcall : (w.proc q).unnamed.call = (w'.proc q).unnamed.call := by rw [h.proc q hq]
  exact hcall

theorem live (h : Agree p w w') (r : ℤ) : w.live r = w'.live r := by
  simp only [World.live, h.dead]

/-- The kernel may answer the same, since it knows the same of the dead. -/
theorem admits (h : Agree p w w') (ans : Answers) (probed : Option ℤ) :
    w.admits ans probed = w'.admits ans probed := by
  cases probed with
  | none => rfl
  | some r => simp only [World.admits, h.live]

/-- Everything that a step stores in its process goes through this. -/
theorem setProc {x x' : Proc} (h : Agree p w w') (hx : x.unnamed = x'.unnamed) :
    Agree p (w.setProc q x) (w'.setProc q x') := by
  refine ⟨h.names, h.objects, h.nextObject, h.dead, fun r hr => ?_⟩
  by_cases hrq : r = q
  · subst hrq
    simpa using hx
  · rw [proc_setProc_of_ne hrq, proc_setProc_of_ne hrq]
    exact h.proc r hr

theorem goto (h : Agree p w w') (hq : q ≠ p) (call : Call) :
    Agree p (w.goto q call) (w'.goto q call) :=
  h.setProc (congrArg (fun x : Proc => { x with call := call }) (h.proc q hq))

theorem throw (h : Agree p w w') (hq : q ≠ p) (e : Exception) (call : Call) :
    Agree p (w.throw q e call) (w'.throw q e call) :=
  h.setProc (congrArg (fun x : Proc => { x with call := call, thrown := some e }) (h.proc q hq))

/-- A handle of another process, replaced in both worlds. -/
theorem setVar {x x' : Option Queue} (h : Agree p w w') (hq : q ≠ p) (v : ℕ)
    (hx : x.map Queue.unnamed = x'.map Queue.unnamed) :
    Agree p (w.setVar q v x) (w'.setVar q v x') := by
  refine h.setProc ?_
  have hproc := h.proc q hq
  simp only [Proc.unnamed, Proc.mk.injEq] at hproc ⊢
  refine ⟨funext fun u => ?_, hproc.2⟩
  by_cases hu : u = v
  · subst hu
    simpa using hx
  · simpa [hu, World.var] using h.var hq u

theorem setSome {x x' : Queue} (h : Agree p w w') (hq : q ≠ p) (v : ℕ)
    (hx : x.unnamed = x'.unnamed) : Agree p (w.setVar q v (some x)) (w'.setVar q v (some x')) :=
  h.setVar hq v (by rw [Option.map_some, Option.map_some, hx])

theorem unlink (h : Agree p w w') (name : String) : Agree p (w.unlink name) (w'.unlink name) :=
  ⟨by simp only [World.unlink, h.names], h.objects, h.nextObject, h.dead, h.proc⟩

theorem setObject (h : Agree p w w') (o : ℕ) (obj : Object T) :
    Agree p (w.setObject o obj) (w'.setObject o obj) :=
  ⟨h.names, by simp only [World.setObject, h.objects], h.nextObject, h.dead, h.proc⟩

theorem unmap (h : Agree p w w') (addr addr' : Option Mapping) :
    Agree p (w.unmap addr) (w'.unmap addr') :=
  ⟨h.names, h.objects, h.nextObject, h.dead, h.proc⟩

/-- A slot is cleared by pid, role and object, which the worlds agree in. -/
theorem clearPid {x x' : Queue} (h : Agree p w w') (hx : x.unnamed = x'.unnamed) :
    Agree p (w.clearPid q x) (w'.clearPid q x') := by
  obtain ⟨hbound, hrole, hctrl, -⟩ := Queue.eq_of_unnamed hx
  simp only [World.clearPid]
  cases hm : x.ctrl with
  | none =>
    cases hm' : x'.ctrl with
    | none => exact h
    | some m' => simp [hm, hm'] at hctrl
  | some m =>
    cases hm' : x'.ctrl with
    | none => simp [hm, hm'] at hctrl
    | some m' =>
      have hobject : m.object = m'.object := by simpa [hm, hm'] using hctrl
      simp only [hbound, hrole, hobject, h.objects]
      split_ifs
      · exact h.setObject _ _
      · exact h

/-- The variables of worlds that agree are both empty, or hold handles that agree. -/
theorem var_cases (h : Agree p w w') (hq : q ≠ p) (v : ℕ) :
    w.var q v = none ∧ w'.var q v = none ∨
      ∃ x x', w.var q v = some x ∧ w'.var q v = some x' ∧ x.unnamed = x'.unnamed := by
  have hvar := h.var hq v
  cases hx : w.var q v with
  | none =>
    rw [hx, Option.map_none, eq_comm, Option.map_eq_none_iff] at hvar
    exact .inl ⟨rfl, hvar⟩
  | some x =>
    rw [hx, Option.map_some, eq_comm, Option.map_eq_some_iff] at hvar
    obtain ⟨x', hx', heq⟩ := hvar
    exact .inr ⟨x, x', rfl, hx', heq.symm⟩

/-- `detach` in both worlds. -/
theorem release (h : Agree p w w') (hq : q ≠ p) (v : ℕ) (next : Next) :
    Option.Rel (Agree p) (w.release q v next) (w'.release q v next) := by
  simp only [World.release]
  rcases h.var_cases hq v with ⟨hx, hx'⟩ | ⟨x, x', hx, hx', heq⟩
  · rw [hx, hx']
    exact .none
  · rw [hx, hx']
    refine .some (((h.clearPid heq).setSome hq v ?_).goto hq _)
    rw [Queue.unnamed_released, Queue.unnamed_released, heq]

/-- A name is unlinked in both worlds or in none. -/
theorem resetSegment {seg seg' : Segment} (h : Agree p w w') (hseg : seg.unnamed = seg'.unnamed) :
    Agree p (w.resetSegment seg) (w'.resetSegment seg') := by
  obtain ⟨howner, hname⟩ := Segment.eq_of_unnamed hseg
  simp only [World.resetSegment, howner, hname]
  split_ifs
  · exact (h.unmap _ _).unlink _
  · exact h.unmap _ _

/-- The move of a handle into a released one. -/
theorem reset (h : Agree p w w') (hq : q ≠ p) (v : ℕ) (next : Next) :
    Option.Rel (Agree p) (w.reset q v next) (w'.reset q v next) := by
  simp only [World.reset]
  rcases h.var_cases hq v with ⟨hx, hx'⟩ | ⟨x, x', hx, hx', heq⟩
  · rw [hx, hx']
    exact .none
  · rw [hx, hx']
    have hreset := h.resetSegment (Queue.eq_of_unnamed heq).2.2.2
    have hnull := Queue.unnamed_setSeg heq .null
    cases next with
    | keep => exact .some ((hreset.setSome hq v hnull).goto hq _)
    | drop => exact .some ((hreset.setVar hq v rfl).goto hq _)
    | swap u =>
      exact .some (((hreset.setVar hq v (h.var hq u)).setSome hq u hnull).goto hq _)

/-- The new mappings may have different identities, but are of the same object. -/
theorem mapTmp {x x' : Queue} (h : Agree p w w') (hq : q ≠ p) (hx : x.unnamed = x'.unnamed) (o : ℕ)
    (size : UInt64) (owner : Bool) (name : String) (whole : Bool) :
    Agree p (w.mapTmp q x o size owner name whole) (w'.mapTmp q x' o size owner name whole) := by
  have hvar := (h.resetSegment (Queue.eq_of_unnamed hx).2.2.2).setSome hq tmp
    (Queue.unnamed_mapped hx w.nextMapping w'.nextMapping o size owner name whole)
  exact ⟨hvar.names, hvar.objects, hvar.nextObject, hvar.dead, hvar.proc⟩

/-- A step of `bind` in both worlds. -/
theorem bindStep (h : Agree p w w') (hq : q ≠ p) (role : Role) (o : ℕ) (b : BindPc)
    (ans : Answers) (more : BindPc → Call) (bound : Handle → Call) :
    Option.Rel (Agree p) (w.bindStep q role o b ans more bound)
      (w'.bindStep q role o b ans more bound) := by
  simp only [World.bindStep]
  rcases h.var_cases hq tmp with ⟨hx, hx'⟩ | ⟨x, x', hx, hx', heq⟩
  · rw [hx, hx']
    exact .none
  · rw [hx, hx', h.objects]
    have hassign : (x.assign role (w'.objects o) b).unnamed =
        (x'.assign role (w'.objects o) b).unnamed := by
      rw [Queue.unnamed_assign, Queue.unnamed_assign, heq]
    have hobject := h.setObject o (ShmSpsc.bindStep role q (w'.objects o) ans b).1
    refine .some ?_
    split
    · exact (hobject.setSome hq tmp hassign).goto hq _
    · exact (hobject.setSome hq tmp (Queue.unnamed_setBound hassign true)).goto hq _
    · exact (hobject.setSome hq tmp hassign).throw hq _ _

/-- A step of `create` on its object. -/
theorem storeStep (h : Agree p w w') (hq : q ≠ p) (S : Setup) (whole : Bool) (v o : ℕ)
    (ans : Answers) (pc : CreatePc) :
    Agree p (w.storeStep q S whole v o ans pc) (w'.storeStep q S whole v o ans pc) := by
  simp only [World.storeStep, h.objects]
  have hobject := h.setObject o (ShmSpsc.createStep S (w'.objects o) ans pc).1
  split
  · exact hobject.goto hq _
  · exact hobject.goto hq _
  · exact hobject.throw hq _ _

/-- A step of `create` after its `shm_open`. -/
theorem createStep (h : Agree p w w') (hq : q ≠ p) (S : Setup) (whole : Bool) (v o : ℕ)
    (ans : Answers) (pc : CreatePc) :
    Option.Rel (Agree p) (w.createStep q S whole v o ans pc)
      (w'.createStep q S whole v o ans pc) := by
  cases pc with
  | mmap =>
    simp only [World.createStep, h.objects]
    rcases h.var_cases hq tmp with ⟨hx, hx'⟩ | ⟨x, x', hx, hx', heq⟩
    · rw [hx, hx']
      exact .none
    · rw [hx, hx']
      cases (ShmSpsc.createStep S (w'.objects o) ans .mmap).2 with
      | threw e => exact .some (h.throw hq _ _)
      | more pc => exact .some ((h.mapTmp hq heq ..).goto hq _)
      | bound handle => exact .some ((h.mapTmp hq heq ..).goto hq _)
  | binding b => exact h.bindStep hq ..
  | _ => exact .some (h.storeStep hq ..)

/-- A name opens the same object. -/
theorem openName (h : Agree p w w') (name : String) (ans : Answers) :
    w.openName name ans = w'.openName name ans := by
  simp only [World.openName, h.names, h.objects]

/-- A step of `attach` that only loads. -/
theorem checkStep (h : Agree p w w') (hq : q ≠ p) (name : String) (role : Role) (v o : ℕ)
    (ans : Answers) (pc : AttachPc) :
    Agree p (w.checkStep q name role v o ans pc) (w'.checkStep q name role v o ans pc) := by
  simp only [World.checkStep, h.objects]
  split
  · exact h.goto hq _
  · exact h.goto hq _
  · exact h.throw hq _ _

/-- A step of `attach`. -/
theorem attachStep (h : Agree p w w') (hq : q ≠ p) (name : String) (role : Role) (v o : ℕ)
    (ans : Answers) (pc : AttachPc) :
    Option.Rel (Agree p) (w.attachStep q name role v o ans pc)
      (w'.attachStep q name role v o ans pc) := by
  cases pc with
  | opening A =>
    simp only [World.attachStep, h.openName]
    rcases h.var_cases hq tmp with ⟨hx, hx'⟩ | ⟨x, x', hx, hx', heq⟩
    · rw [hx, hx']
      exact .none
    · rw [hx, hx']
      cases w'.openName name ans with
      | ok out => exact .some ((h.mapTmp hq heq ..).goto hq _)
      | error e =>
        refine .some ?_
        split_ifs
        · exact h.throw hq _ _
        · exact h.goto hq _
  | binding b => exact h.bindStep hq ..
  | _ => exact .some (h.checkStep hq ..)

/-- A `shm_open` with `O_CREAT` makes the same object. -/
theorem shmOpen (h : Agree p w w') (hq : q ≠ p) (S : Setup) (whole : Bool) (v : ℕ) :
    Agree p (w.shmOpen q S whole v) (w'.shmOpen q S whole v) := by
  have hopened (names : String → Option ℕ) (nextObject : ℕ) : Agree p
      { w with names := names, nextObject := nextObject }
      { w' with names := names, nextObject := nextObject } :=
    ⟨rfl, h.objects, rfl, h.dead, h.proc⟩
  simp only [World.shmOpen, h.names, h.nextObject]
  split
  · exact h.throw hq _ _
  · exact h.throw hq _ _
  · exact (hopened _ _).goto hq _

/-- The next step of a call of another process. -/
theorem stepCall (h : Agree p w w') (hq : q ≠ p) (ans : Answers) (c : Call) :
    Option.Rel (Agree p) (w.stepCall q ans c) (w'.stepCall q ans c) := by
  cases c with
  | idle => exact .none
  | unlink S whole v => exact .some ((h.unlink _).goto hq _)
  | shmOpen S whole v => exact .some (h.shmOpen hq ..)
  | create S whole v o pc => exact h.createStep hq ..
  | cleanup name o => exact .some ((h.unlink _).goto hq _)
  | attach name role v o pc => exact h.attachStep hq ..
  | openSegment name v =>
    simp only [World.stepCall, h.openName]
    rcases h.var_cases hq tmp with ⟨hx, hx'⟩ | ⟨x, x', hx, hx', heq⟩
    · rw [hx, hx']
      exact .none
    · rw [hx, hx']
      cases w'.openName name ans with
      | ok out => exact .some ((h.mapTmp hq heq ..).goto hq _)
      | error e => exact .some (h.throw hq _ _)
  | placing v =>
    simp only [World.stepCall]
    rcases h.var_cases hq v with ⟨hx, hx'⟩ | ⟨x, x', hx, hx', heq⟩
    · rw [hx, hx']
      exact .some (((h.setVar hq v (h.var hq tmp)).setVar hq tmp rfl).goto hq _)
    · rw [hx, hx']
      exact h.release hq v _
  | destroying v => exact h.release hq v _
  | resetting v next => exact h.reset hq v next

/-- A call of another process. -/
theorem startCall (h : Agree p w w') {a : WorldAct} (hq : a.pid ≠ p) :
    Option.Rel (Agree p) (w.startCall a) (w'.startCall a) := by
  cases a with
  | create q v S whole =>
    simp only [World.startCall, WorldAct.pid] at hq ⊢
    split_ifs
    · exact .some ((h.setVar hq tmp rfl).goto hq _)
    · exact .none
  | attach q v name role A =>
    simp only [World.startCall, WorldAct.pid] at hq ⊢
    split_ifs
    · exact .some ((h.setVar hq tmp rfl).goto hq _)
    · exact .none
  | openSegment q v name =>
    simp only [World.startCall, WorldAct.pid] at hq ⊢
    split_ifs
    · exact .some ((h.setVar hq tmp rfl).goto hq _)
    · exact .none
  | construct q v =>
    simp only [World.startCall, WorldAct.pid] at hq ⊢
    rcases h.var_cases hq v with ⟨hx, hx'⟩ | ⟨x, x', hx, hx', -⟩
    · rw [hx, hx']
      split_ifs
      · exact .some (h.setVar hq v rfl)
      · exact .none
    · rw [hx, hx']
      simp only [reduceCtorEq, and_false, if_false]
      exact .none
  | moveConstruct q v u =>
    simp only [World.startCall, WorldAct.pid] at hq ⊢
    rcases h.var_cases hq v with ⟨hx, hx'⟩ | ⟨x, x', hx, hx', -⟩
    · rcases h.var_cases hq u with ⟨hy, hy'⟩ | ⟨y, y', hy, hy', heq⟩
      · rw [hx, hx', hy, hy']
        exact .none
      · rw [hx, hx', hy, hy']
        dsimp only
        split_ifs
        · exact .some ((h.setSome hq v heq).setVar hq u rfl)
        · exact .none
    · rw [hx, hx']
      exact .none
  | moveAssign q v u =>
    simp only [World.startCall, WorldAct.pid] at hq ⊢
    rcases h.var_cases hq v with ⟨hx, hx'⟩ | ⟨x, x', hx, hx', -⟩
    · rw [hx, hx']
      exact .none
    · rcases h.var_cases hq u with ⟨hy, hy'⟩ | ⟨y, y', hy, hy', -⟩
      · rw [hx, hx', hy, hy']
        exact .none
      · rw [hx, hx', hy, hy']
        dsimp only
        split_ifs
        · exact .some h
        · exact h.release hq v _
  | swapWith q v u =>
    simp only [World.startCall, WorldAct.pid] at hq ⊢
    rcases h.var_cases hq v with ⟨hx, hx'⟩ | ⟨x, x', hx, hx', heqv⟩
    · rw [hx, hx']
      exact .none
    · rcases h.var_cases hq u with ⟨hy, hy'⟩ | ⟨y, y', hy, hy', hequ⟩
      · rw [hx, hx', hy, hy']
        exact .none
      · rw [hx, hx', hy, hy']
        exact .some ((h.setSome hq v hequ).setSome hq u heqv)
  | detach q v => exact h.release hq v _
  | destroy q v => exact h.release hq v _
  | remove q name => exact .some (h.unlink name)
  | step q ans => exact .none
  | die q => exact .none

/-- In worlds that agree the others can take the same steps. -/
theorem step (h : Agree p w w') {a : WorldAct} (hq : a.pid ≠ p) :
    Option.Rel (Agree p) (w.step a) (w'.step a) := by
  unfold World.step
  rw [h.live]
  split_ifs
  · exact .none
  · cases a with
    | die q =>
      refine .some ⟨h.names, h.objects, h.nextObject, ?_, h.proc⟩
      simp only [h.dead]
    | step q ans =>
      have hcall := h.call hq
      simp only [WorldAct.pid] at hcall
      dsimp only
      rw [hcall, h.admits]
      split_ifs
      · exact h.stepCall hq ans _
      · exact .none
    | _ =>
      dsimp only
      rw [h.call hq]
      split_ifs
      · exact h.startCall hq
      · exact .none

end Agree

end World

/-! ## An attach that has bound nothing -/

namespace World

/-- Where a process can be from the call of an `attach` that throws to its end, `x` being the
process before it : in the call or in the destruction of its local, which is not bound and owns
no name, or out of it. -/
inductive Failing (x : Proc) : Proc → Prop
  | running {q : Queue} {name : String} {role : Role} {v o : ℕ} {pc : AttachPc}
      {thrown : Option Exception} (unbound : q.bound = false) (borrowed : q.seg.owner = false) :
      Failing x ⟨Function.update x.vars tmp (some q), .attach name role v o pc, thrown⟩
  | unwinding {q : Queue} {e : Exception} (unbound : q.bound = false)
      (borrowed : q.seg.owner = false) :
      Failing x ⟨Function.update x.vars tmp (some q), .destroying tmp, some e⟩
  | resetting {q : Queue} {e : Exception} (borrowed : q.seg.owner = false) :
      Failing x ⟨Function.update x.vars tmp (some q), .resetting tmp .drop, some e⟩
  | thrown {e : Exception} : Failing x ⟨x.vars, .idle, some e⟩

section Failing

variable {p : ℤ} {w w' : World T} {x : Proc}

/-- What a process does to itself, nobody else sees. -/
theorem agree_setProc (w : World T) (p : ℤ) (y : Proc) : Agree p (w.setProc p y) w :=
  ⟨rfl, rfl, rfl, rfl, fun q hq => by rw [proc_setProc_of_ne hq]⟩

theorem agree_goto (w : World T) (p : ℤ) (call : Call) : Agree p (w.goto p call) w :=
  agree_setProc ..

theorem agree_throw (w : World T) (p : ℤ) (e : Exception) (call : Call) :
    Agree p (w.throw p e call) w :=
  agree_setProc ..

theorem agree_setVar (w : World T) (p : ℤ) (v : ℕ) (q : Option Queue) :
    Agree p (w.setVar p v q) w :=
  agree_setProc ..

/-- A segment that owns no name is unmapped, and that is all. -/
theorem agree_resetSegment (p : ℤ) {seg : Segment} (hseg : seg.owner = false) :
    Agree p (w.resetSegment seg) w := by
  rw [resetSegment, if_neg (by simp [hseg])]
  exact ⟨rfl, rfl, rfl, rfl, fun _ _ => rfl⟩

/-- A mapping of an attached object is seen by nobody else. -/
theorem agree_mapTmp {q : Queue} (hseg : q.seg.owner = false) (o : ℕ) (size : UInt64)
    (name : String) (whole : Bool) : Agree p (w.mapTmp p q o size false name whole) w := by
  have hvar := (agree_setVar (w.resetSegment q.seg) p tmp
    (some { q with seg := ⟨some ⟨w.nextMapping, o⟩, size, false, name⟩
                   ctrl := if whole then some ⟨w.nextMapping, o⟩ else q.ctrl })).trans
    (agree_resetSegment p hseg)
  exact ⟨hvar.names, hvar.objects, hvar.nextObject, hvar.dead, hvar.proc⟩

/-- An unbound handle clears no slot. -/
theorem clearPid_of_unbound {q : Queue} (hq : q.bound = false) : w.clearPid p q = w := by
  unfold clearPid
  split
  · rw [if_neg (by simp [hq])]
  · rfl

theorem setObject_self (w : World T) (o : ℕ) : w.setObject o (w.objects o) = w := by
  simp [setObject]

theorem proc_goto {c : Call} : (w.goto p c).proc p = { w.proc p with call := c } := by
  simp [goto]

theorem proc_throw {e : Exception} {c : Call} :
    (w.throw p e c).proc p = { w.proc p with call := c, thrown := some e } := by
  simp [throw]

theorem proc_setVar {v : ℕ} {q : Option Queue} :
    (w.setVar p v q).proc p =
      { w.proc p with vars := Function.update (w.proc p).vars v q } := by
  simp [setVar]

theorem proc_mapTmp_self {q : Queue} {o : ℕ} {size : UInt64} {owner whole : Bool} {name : String} :
    (w.mapTmp p q o size owner name whole).proc p =
      { w.proc p with
        vars := Function.update (w.proc p).vars tmp
          (some { q with seg := ⟨some ⟨w.nextMapping, o⟩, size, owner, name⟩
                         ctrl := if whole then some ⟨w.nextMapping, o⟩ else q.ctrl }) } := by
  simp [mapTmp, setVar]

/-- The local after a store to it. -/
theorem update_tmp (vars : ℕ → Option Queue) (q q' : Option Queue) :
    Function.update (Function.update vars tmp q) tmp q' = Function.update vars tmp q' :=
  Function.update_idem ..

/-- The steps of `bind` that do not bind. -/
theorem Failing.bind {q : Queue} {name : String} {role : Role} {v o : ℕ} {b : BindPc}
    {thrown : Option Exception} {ans : Answers} (unbound : q.bound = false)
    (borrowed : q.seg.owner = false)
    (hy : w.proc p =
      ⟨Function.update x.vars tmp (some q), .attach name role v o (.binding b), thrown⟩)
    (hcall : w.bindStep p role o b ans (fun b' => .attach name role v o (.binding b'))
      (fun _ => .placing v) = some w')
    (hplace : (w'.proc p).call.isPlacing = false) :
    Failing x (w'.proc p) ∧ Agree p w' w := by
  have hvar : w.var p tmp = some q := by simp [var, hy]
  have hassign : (q.assign role (w.objects o) b).bound = false ∧
      (q.assign role (w.objects o) b).seg.owner = false := by
    cases b <;> exact ⟨unbound, borrowed⟩
  simp only [World.bindStep, hvar, Option.some.injEq] at hcall
  have hobject := bindStep_unbound role p (w.objects o) ans b
  cases hout : (ShmSpsc.bindStep role p (w.objects o) ans b).2 with
  | more b' =>
    rw [hout] at hcall hobject
    rw [hobject (by simp), setObject_self] at hcall
    subst hcall
    refine ⟨?_, (agree_goto ..).trans (agree_setVar ..)⟩
    rw [proc_goto, proc_setVar, hy]
    simp only [update_tmp]
    exact .running hassign.1 hassign.2
  | bound handle =>
    rw [hout] at hcall
    subst hcall
    rw [call_goto] at hplace
    cases hplace
  | threw e =>
    rw [hout] at hcall hobject
    rw [hobject (by simp), setObject_self] at hcall
    subst hcall
    refine ⟨?_, (agree_throw ..).trans (agree_setVar ..)⟩
    rw [proc_throw, proc_setVar, hy]
    simp only [update_tmp]
    exact .unwinding hassign.1 hassign.2

/-- The steps of `attach` that do not bind. -/
theorem Failing.attach {q : Queue} {name : String} {role : Role} {v o : ℕ} {pc : AttachPc}
    {thrown : Option Exception} {ans : Answers} (unbound : q.bound = false)
    (borrowed : q.seg.owner = false)
    (hy : w.proc p = ⟨Function.update x.vars tmp (some q), .attach name role v o pc, thrown⟩)
    (hcall : w.attachStep p name role v o ans pc = some w')
    (hplace : (w'.proc p).call.isPlacing = false) :
    Failing x (w'.proc p) ∧ Agree p w' w := by
  have hvar : w.var p tmp = some q := by simp [var, hy]
  have check (hcheck : w.checkStep p name role v o ans pc = w') :
      Failing x (w'.proc p) ∧ Agree p w' w := by
    subst hcheck
    simp only [checkStep] at hplace ⊢
    split at hplace
    · refine ⟨?_, agree_goto ..⟩
      rw [proc_goto, hy]
      exact .running unbound borrowed
    · rw [call_goto] at hplace
      cases hplace
    · refine ⟨?_, agree_throw ..⟩
      rw [proc_throw, hy]
      exact .unwinding unbound borrowed
  cases pc with
  | opening A =>
    simp only [World.attachStep, hvar] at hcall
    cases hopen : w.openName name ans with
    | ok out =>
      rw [hopen] at hcall
      obtain rfl := Option.some.inj hcall
      refine ⟨?_, (agree_goto ..).trans (agree_mapTmp borrowed ..)⟩
      rw [proc_goto, proc_mapTmp_self, hy]
      simp only [update_tmp]
      exact .running unbound rfl
    | error e =>
      rw [hopen] at hcall
      obtain rfl := Option.some.inj hcall
      split_ifs
      · refine ⟨?_, agree_throw ..⟩
        rw [proc_throw, hy]
        exact .unwinding unbound borrowed
      · refine ⟨?_, agree_goto ..⟩
        rw [proc_goto, hy]
        exact .running unbound borrowed
  | readyCheck A lastAttempt mapped => exact check (Option.some.inj hcall)
  | validating A mapped => exact check (Option.some.inj hcall)
  | binding b => exact Failing.bind unbound borrowed hy hcall hplace

/-- As long as the attach does not return, its steps and those of the destruction of its local
change nothing that others see. -/
theorem Failing.step (htmp : x.vars tmp = none) {ans : Answers} (h : Failing x (w.proc p))
    (hstep : w.step (.step p ans) = some w') (hplace : (w'.proc p).call.isPlacing = false) :
    Failing x (w'.proc p) ∧ Agree p w' w := by
  have hcall : w.stepCall p ans (w.proc p).call = some w' := by
    rcases (step_cases hstep).2 with ⟨_, ha, -⟩ | ⟨_, _, ha, -, hcall⟩ | ⟨-, hstart⟩
    · cases ha
    · cases ha
      exact hcall
    · cases hstart
  generalize hy : w.proc p = y at h hcall
  cases h with
  | running unbound borrowed => exact Failing.attach unbound borrowed hy hcall hplace
  | @unwinding q e unbound borrowed =>
    have hvar : w.var p tmp = some q := by simp [var, hy]
    simp only [World.stepCall, World.release, hvar, clearPid_of_unbound unbound,
      Option.some.injEq] at hcall
    subst hcall
    refine ⟨?_, (agree_goto ..).trans (agree_setVar ..)⟩
    rw [proc_goto, proc_setVar, hy]
    simp only [update_tmp]
    exact .resetting borrowed
  | @resetting q e borrowed =>
    have hvar : w.var p tmp = some q := by simp [var, hy]
    simp only [World.stepCall, World.reset, hvar, Option.some.injEq] at hcall
    subst hcall
    refine ⟨?_, ((agree_goto ..).trans (agree_setVar ..)).trans (agree_resetSegment p borrowed)⟩
    rw [proc_goto, proc_setVar, proc_resetSegment, hy]
    simp only [update_tmp]
    rw [← htmp, Function.update_eq_self]
    exact .thrown
  | thrown => cases hcall

end Failing

end World

/-! ## Among the others -/

/-- A step on the handles, or what a step of process `q` stores to object `o` : of a `try_push`,
a `pop_n`, or of anything else that writes to the mapped memory. -/
inductive HostAct (T : Type*) where
  | world (a : WorldAct)
  | store (q : ℤ) (o : ℕ) (f : Object T → Object T)

/-- The process that takes the action. -/
def HostAct.pid : HostAct T → ℤ
  | .world a => a.pid
  | .store q _ _ => q

namespace World

/-- One step. -/
def hostStep (w : World T) : HostAct T → Option (World T)
  | .world a => w.step a
  | .store q o f => if w.live q then some (w.setObject o (f (w.objects o))) else none

/-- Process `p` only goes on with its call, and that does not return. -/
def throwing (p : ℤ) (w : World T) : HostAct T → Bool
  | .world (.step q ans) =>
    q != p || !(w.step (.step q ans)).any fun w' => (w'.proc p).call.isPlacing
  | a => a.pid != p

variable {p : ℤ} {w w' t : World T}

/-- The others follow in a world that agrees. -/
theorem Agree.hostStep (h : Agree p w t) {a : HostAct T} (ha : a.pid ≠ p)
    (hstep : w.hostStep a = some w') : ∃ t', t.hostStep a = some t' ∧ Agree p w' t' := by
  cases a with
  | world a =>
    have hrel := h.step ha
    simp only [World.hostStep] at hstep ⊢
    rw [hstep] at hrel
    generalize t.step a = out at hrel
    cases hrel with
    | some hagree => exact ⟨_, rfl, hagree⟩
  | store q o f =>
    simp only [World.hostStep, ← h.live, ← h.objects] at hstep ⊢
    split_ifs at hstep with hlive
    cases hstep
    rw [if_pos hlive]
    exact ⟨_, rfl, h.setObject _ _⟩

/-- A step of process `p` in its attach is the next step of the call. -/
theorem step_of_throwing {a : HostAct T} (ha : a.pid = p) (hok : w.throwing p a)
    (hstep : w.hostStep a = some w') :
    ∃ ans, w.step (.step p ans) = some w' ∧ (w'.proc p).call.isPlacing = false := by
  cases a with
  | store q o f =>
    simp only [throwing, bne_iff_ne] at hok
    exact absurd ha hok
  | world a =>
    cases a with
    | step q ans =>
      obtain rfl : q = p := ha
      simp only [World.hostStep] at hstep
      simp only [throwing, bne_self_eq_false, Bool.false_or, hstep, Option.any_some,
        Bool.not_eq_true'] at hok
      exact ⟨ans, hstep, hok⟩
    | _ =>
      simp only [throwing, bne_iff_ne] at hok
      exact absurd ha hok

/-- The two worlds of a failing attach : with it and without it. -/
structure Hidden (p : ℤ) (x : Proc) (w t : World T) : Prop where
  agree : Agree p w t
  failing : Failing x (w.proc p)
  before : t.proc p = x

/-- A step leaves the other processes. -/
theorem proc_hostStep {q : ℤ} {a : HostAct T} (hq : q ≠ a.pid) (h : w.hostStep a = some w') :
    w'.proc q = w.proc q := by
  cases a with
  | world a => exact proc_of_step hq h
  | store r o f =>
    simp only [World.hostStep] at h
    split_ifs at h
    cases h
    rfl

/-- A step of another process is taken in both worlds. -/
theorem Hidden.follow {x : Proc} (h : Hidden p x w t) {a : HostAct T} (ha : a.pid ≠ p)
    (hstep : w.hostStep a = some w') : ∃ t', t.hostStep a = some t' ∧ Hidden p x w' t' := by
  obtain ⟨t', ht', hagree⟩ := h.agree.hostStep ha hstep
  refine ⟨t', ht', hagree, ?_, ?_⟩
  · rw [proc_hostStep ha.symm hstep]
    exact h.failing
  · rw [proc_hostStep ha.symm ht']
    exact h.before

/-- A step of the attach is taken in one of them, and is not seen. -/
theorem Hidden.hide {x : Proc} (htmp : x.vars tmp = none) (h : Hidden p x w t) {a : HostAct T}
    (ha : a.pid = p) (hok : w.throwing p a) (hstep : w.hostStep a = some w') :
    Hidden p x w' t ∧ Agree p w' w := by
  obtain ⟨ans, hnext, hplace⟩ := step_of_throwing ha hok hstep
  obtain ⟨hfailing, hagree⟩ := h.failing.step htmp hnext hplace
  exact ⟨⟨hagree.trans h.agree, hfailing, h.before⟩, hagree⟩

/-- The call of the attach hides it. -/
theorem hidden_call {v : ℕ} {name : String} {role : Role} {A : Layout}
    (hcall : w.step (.attach p v name role A) = some w') : Hidden p (w.proc p) w' w := by
  rcases (step_cases hcall).2 with ⟨_, ha, -⟩ | ⟨_, _, ha, -⟩ | ⟨-, hstart⟩
  · cases ha
  · cases ha
  · simp only [World.startCall] at hstart
    split_ifs at hstart
    obtain rfl := Option.some.inj hstart
    refine ⟨(agree_goto ..).trans (agree_setVar ..), ?_, rfl⟩
    rw [proc_goto, proc_setVar]
    exact .running rfl rfl

/-- The two worlds along a run. -/
theorem hidden_of_exec {x : Proc} (htmp : x.vars tmp = none) {as : List (HostAct T)}
    (h : Hidden p x w t) (run : exec hostStep (fun w a => w.throwing p a) w as = some w') :
    ∃ t', exec hostStep (fun _ _ => True) t (as.filter (·.pid != p)) = some t' ∧
      Hidden p x w' t' := by
  refine exec_filter (R := Hidden p x) (·.pid == p) ?_ ?_ h run
  · intro s t a s' hR ha hstep
    exact hR.follow (by simpa using ha) hstep
  · intro s t a s' hR ha hok hstep
    exact (hR.hide htmp (by simpa using ha) hok hstep).1

/-- A failed attach is invisible. From any world, with objects of any content, process `p` calls
`attach`, which throws and destroys its local, the others taking any steps in between and
storing anything. Each step of the attach leaves every object and every name as it was; in the
end `p` has the handles it had before; and the run of the others alone is a run, which ends in
the same names, objects and processes. -/
theorem failed_attach_invisible {w₀ : World T} {v : ℕ} {name : String} {role : Role} {A : Layout}
    (htmp : w.var p tmp = none) (hcall : w.step (.attach p v name role A) = some w₀)
    (as : List (HostAct T)) (run : exec hostStep (fun w a => w.throwing p a) w₀ as = some w')
    (hend : (w'.proc p).call = .idle) :
    (∃ e, (w'.proc p).thrown = some e) ∧ (w'.proc p).vars = (w.proc p).vars ∧
      (∀ bs a cs u u', as = bs ++ a :: cs → a.pid = p →
        exec hostStep (fun w a => w.throwing p a) w₀ bs = some u → u.hostStep a = some u' →
        u'.objects = u.objects ∧ u'.names = u.names) ∧
      ∃ t, exec hostStep (fun _ _ => True) w (as.filter (·.pid != p)) = some t ∧
        Agree p w' t ∧ t.proc p = w.proc p := by
  have hstart := hidden_call hcall
  obtain ⟨t, ht, hidden⟩ := hidden_of_exec htmp hstart run
  have hfailing := hidden.failing
  refine ⟨?_, ?_, ?_, t, ht, hidden.agree, hidden.before⟩
  · generalize w'.proc p = y at hfailing hend
    cases hfailing with
    | thrown => exact ⟨_, rfl⟩
    | _ => cases hend
  · generalize w'.proc p = y at hfailing hend
    cases hfailing with
    | thrown => rfl
    | _ => cases hend
  · rintro bs a cs u u' rfl ha hbs hstep
    rw [exec_append, hbs, Option.bind_some, exec] at run
    split_ifs at run with hok
    obtain ⟨t', -, hidden'⟩ := hidden_of_exec htmp hstart hbs
    have hagree := (hidden'.hide htmp ha hok hstep).2
    exact ⟨hagree.objects, hagree.names⟩

/-- Process `2` finds the producer's slot taken, between two steps of an `attach` of process `3`
as the consumer and a store of the producer. -/
def conflictRun : List (HostAct ℕ) :=
  List.replicate 3 (HostAct.world (.step 2 .plain)) ++
    [HostAct.world (.attach 3 1 "/q" .consumer messageLayout), HostAct.world (.step 3 .plain),
      HostAct.store 1 0 fun o => { o with ring := { o.ring with writeIdx := 1 } }] ++
    List.replicate 7 (HostAct.world (.step 2 .plain)) ++
    List.replicate 11 (HostAct.world (.step 3 .plain))

theorem failed_attach_conflictRun :
    ∃ w w' t : World ℕ, (w'.proc 2).thrown = some (liveConflict .producer 1) ∧
      exec hostStep (fun _ _ => True) w (conflictRun.filter (·.pid != 2)) = some t ∧
      Agree 2 w' t ∧ (t.objects 0).pid .consumer = 3 := by
  have hrun : ((exec step (fun _ _ => True) (start fun _ => (0 : ℕ))
      (WorldAct.create 1 1 messageSetup true ::
        List.replicate 25 (WorldAct.step 1 .plain))).bind fun w =>
          (w.step (.attach 2 1 "/q" .producer messageLayout)).bind fun w₀ =>
            (exec hostStep (fun w a => w.throwing 2 a) w₀ conflictRun).map fun w' =>
              ((w.var 2 tmp).isNone, (w'.proc 2).call.isIdle, (w'.proc 2).thrown,
                (w'.objects 0).pid .consumer)) =
      some (true, true, some (liveConflict .producer 1), 3) := by decide +kernel
  obtain ⟨w, hw, hrun⟩ := Option.bind_eq_some_iff.mp hrun
  obtain ⟨w₀, hcall, hrun⟩ := Option.bind_eq_some_iff.mp hrun
  obtain ⟨w', run, hview⟩ := Option.map_eq_some_iff.mp hrun
  simp only [Prod.mk.injEq, Option.isNone_iff_eq_none] at hview
  obtain ⟨htmp, hidle, hthrown, hpid⟩ := hview
  have hend : (w'.proc 2).call = .idle := by
    revert hidle
    cases (w'.proc 2).call <;> simp [Call.isIdle]
  obtain ⟨-, -, -, t, ht, hagree, -⟩ := failed_attach_invisible htmp hcall conflictRun run hend
  exact ⟨w, w', t, hthrown, ht, hagree, hagree.objects ▸ hpid⟩

end World

end ShmSpsc
