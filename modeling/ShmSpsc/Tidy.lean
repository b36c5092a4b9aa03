import ShmSpsc.Mappings

/-!
# Where handles can be

Queues that are created, attached, moved, swapped, detached and destroyed, by any processes in
any order. `World.Tidy` is what holds in every state : `ctrl_` is the mapping of `seg_`, a bound
handle has its slots behind a control block that nobody writes any more, and a call is where its
temporary lets it be; only the handle whose `seg_.reset()` is still to come has given up all but
its segment (`Queue.Released`). `World.Grown` is what a step does to the objects, from which
everything that other handles rely on is kept (`World.Grown.tidy`), and `World.tidy_step` keeps
the whole along every step.
-/

namespace ShmSpsc

open Transition
open Function (update update_self update_of_ne)

variable {T : Type*}

/-! ## Where handles can be -/

/-- The object whose control block the call is still writing. -/
def Call.storing : Call → Option ℕ
  | .create _ _ _ _ (.binding _) => none
  | .create _ _ _ _ (.ready _) => none
  | .create _ _ _ o _ => some o
  | _ => none

/-- The handle whose `seg_.reset()` is the next step of the call. -/
def Call.releasing : Call → Option ℕ
  | .resetting v _ => some v
  | _ => none

/-- The object has been made, and its control block written. -/
def World.Settled (w : World T) (o : ℕ) : Prop :=
  o < w.nextObject ∧ ∀ p, (w.proc p).call.storing ≠ some o

/-- The segment is mapped, under a name. -/
def Segment.Named (seg : Segment) : Prop := seg.addr.isSome ∧ seg.name ≠ ""

/-- A handle between two operations. -/
structure Queue.Sound (w : World T) (q : Queue) : Prop where
  ctrl : q.ctrl = q.seg.addr
  slots : q.slots = none ∨ ∃ m, q.ctrl = some m ∧ w.Settled m.object ∧
    q.slots = some (m, (w.objects m.object).geometry.slotsOffset)
  bound : q.bound = true → q.slots.isSome
  owner : q.seg.owner = true → q.seg.Named

/-- A handle before `seg_.reset()`. -/
structure Queue.Released (q : Queue) : Prop where
  ctrl : q.ctrl = none
  slots : q.slots = none
  bound : q.bound = false
  owner : q.seg.owner = true → q.seg.Named

/-- Handle `v` when handle `r` is being released. -/
def Queue.Fine (w : World T) (r : Option ℕ) (v : ℕ) (q : Queue) : Prop :=
  if r = some v then q.Released else q.Sound w

/-- The local of `create` before each step. -/
def CreatePc.Local (o : ℕ) (q : Queue) : CreatePc → Prop
  | .ftruncate => q = .null
  | .mmap => q = .null
  | .binding b => q.ctrl.map Mapping.object = some o ∧ (b = .loadCapacity ∨ q.slots.isSome)
  | _ => q.ctrl.map Mapping.object = some o

/-- The local of `attach` before each step. -/
def AttachPc.Local (w : World T) (o : ℕ) (q : Queue) : AttachPc → Prop
  | .opening _ => q.slots = none
  | .readyCheck .. => q.slots = none ∧ q.ctrl.map Mapping.object = some o
  | .validating .. => q.ctrl.map Mapping.object = some o ∧ w.Settled o
  | .binding b =>
    q.ctrl.map Mapping.object = some o ∧ w.Settled o ∧ (b = .loadCapacity ∨ q.slots.isSome)

/-- The temporary of a process inside a call on queues. -/
def Call.Local (w : World T) (vars : ℕ → Option Queue) : Call → Prop
  | .idle => vars tmp = none
  | .unlink _ whole v => whole = true ∧ v ≠ tmp ∧ vars tmp = some .null
  | .shmOpen _ whole v => whole = true ∧ v ≠ tmp ∧ vars tmp = some .null
  | .create _ whole v o pc => whole = true ∧ v ≠ tmp ∧ ∃ q, vars tmp = some q ∧ pc.Local o q
  | .cleanup .. => True
  | .attach _ _ v o pc => v ≠ tmp ∧ ∃ q, vars tmp = some q ∧ pc.Local w o q
  | .openSegment .. => False
  | .placing v => v ≠ tmp
  | .destroying v => v = tmp
  | .resetting v .keep => v ≠ tmp ∧ vars tmp = none
  | .resetting v .drop => v ≠ tmp → vars tmp = none
  | .resetting v (.swap u) => v ≠ tmp ∧ u ≠ v ∧ (u ≠ tmp → vars tmp = none)

/-- The action is one on queues, not on a segment alone. -/
def WorldAct.onQueues : WorldAct → Bool
  | .create _ _ _ whole => whole
  | .openSegment .. => false
  | _ => true

namespace World

/-- Every object is created by one process, and every handle is where it can be. -/
structure Tidy (w : World T) : Prop where
  blank : ∀ o, w.nextObject ≤ o → (w.objects o).ready = 0
  creating : ∀ p o, (w.proc p).call.creates = some o →
    o < w.nextObject ∧ (w.objects o).ready = 0
  alone : ∀ p q o, (w.proc p).call.creates = some o → (w.proc q).call.creates = some o → p = q
  inside : ∀ p, (w.proc p).call.Local w (w.proc p).vars
  handle : ∀ p v q, w.var p v = some q → q.Fine w (w.proc p).call.releasing v

/-- What a step of process `p` does to the objects. -/
structure Grown (w w' : World T) (p : ℤ) : Prop where
  others : ∀ q, q ≠ p → w'.proc q = w.proc q
  next : w.nextObject ≤ w'.nextObject
  geometry : ∀ o, (w.proc p).call.storing ≠ some o →
    (w'.objects o).geometry = (w.objects o).geometry
  ready : ∀ o, (w.proc p).call.creates ≠ some o → (w'.objects o).ready = (w.objects o).ready
  storing : ∀ o, (w'.proc p).call.storing = some o →
    (w.proc p).call.storing = some o ∨ w.nextObject ≤ o
  creates : ∀ o, (w'.proc p).call.creates = some o →
    ((w.proc p).call.creates = some o ∨ w.nextObject ≤ o) ∧ o < w'.nextObject ∧
      (w'.objects o).ready = 0

variable {w w' : World T} {a : WorldAct} {p : ℤ} {v u o : ℕ} {q : Queue}

/-! ## What a step keeps -/

theorem creates_of_storing {c : Call} (h : c.storing = some o) : c.creates = some o := by
  cases c with
  | create S whole v o' pc => cases pc <;> first | exact h | cases h
  | _ => cases h

namespace Grown

/-- A step that touches no object, and creates none. -/
theorem quiet (hothers : ∀ q, q ≠ p → w'.proc q = w.proc q) (hobjects : w'.objects = w.objects)
    (hnext : w'.nextObject = w.nextObject) (hcreates : (w'.proc p).call.creates = none) :
    Grown w w' p where
  others := hothers
  next := hnext.ge
  geometry o _ := by rw [hobjects]
  ready o _ := by rw [hobjects]
  storing o ho := by
    rw [creates_of_storing ho] at hcreates
    cases hcreates
  creates o ho := by
    rw [ho] at hcreates
    cases hcreates

theorem settled (hg : Grown w w' p) (h : w.Settled o) : w'.Settled o := by
  refine ⟨h.1.trans_le hg.next, fun q hq => ?_⟩
  by_cases hqp : q = p
  · subst hqp
    rcases hg.storing o hq with hold | hnew
    · exact h.2 q hold
    · exact absurd h.1 (by omega)
  · rw [hg.others q hqp] at hq
    exact h.2 q hq

theorem geometry_of_settled (hg : Grown w w' p) (h : w.Settled o) :
    (w'.objects o).geometry = (w.objects o).geometry :=
  hg.geometry o (h.2 p)

theorem sound (hg : Grown w w' p) (h : q.Sound w) : q.Sound w' where
  ctrl := h.ctrl
  slots := by
    rcases h.slots with hnone | ⟨m, hm, hsettled, hslots⟩
    · exact .inl hnone
    · refine .inr ⟨m, hm, hg.settled hsettled, ?_⟩
      rw [hg.geometry_of_settled hsettled]
      exact hslots
  bound := h.bound
  owner := h.owner

theorem fine (hg : Grown w w' p) {r : Option ℕ} (h : q.Fine w r v) : q.Fine w' r v := by
  unfold Queue.Fine at h ⊢
  split_ifs at h ⊢
  · exact h
  · exact hg.sound h

theorem inside (hg : Grown w w' p) {vars : ℕ → Option Queue} {c : Call} (h : c.Local w vars) :
    c.Local w' vars := by
  cases c with
  | attach name role v o pc =>
    obtain ⟨hv, q, hq, hpc⟩ := h
    refine ⟨hv, q, hq, ?_⟩
    cases pc with
    | validating A mapped => exact ⟨hpc.1, hg.settled hpc.2⟩
    | binding b => exact ⟨hpc.1, hg.settled hpc.2.1, hpc.2.2⟩
    | _ => exact hpc
  | resetting v next => cases next <;> exact h
  | _ => exact h

/-- The state after a step, given where the process that took it is. -/
theorem tidy (hg : Grown w w' p) (h : w.Tidy)
    (hinside : (w'.proc p).call.Local w' (w'.proc p).vars)
    (hhandle : ∀ v q, (w'.proc p).vars v = some q → q.Fine w' (w'.proc p).call.releasing v) :
    w'.Tidy where
  blank o ho := by
    rw [hg.ready o fun hcreates => ?_]
    · exact h.blank o (hg.next.trans ho)
    · exact absurd (h.creating p o hcreates).1 (by have := hg.next; omega)
  creating q o ho := by
    by_cases hq : q = p
    · subst hq
      exact (hg.creates o ho).2
    · rw [hg.others q hq] at ho
      obtain ⟨hlt, hready⟩ := h.creating q o ho
      refine ⟨hlt.trans_le hg.next, ?_⟩
      rw [hg.ready o fun hp => hq (h.alone q p o ho hp), hready]
  alone := alone_of_creates hg.others (fun q o hq => (h.creating q o hq).1) h.alone
    fun o ho => (hg.creates o ho).1
  inside q := by
    by_cases hq : q = p
    · subst hq
      exact hinside
    · rw [hg.others q hq]
      exact hg.inside (h.inside q)
  handle q v x hx := by
    by_cases hq : q = p
    · subst hq
      exact hhandle v x hx
    · unfold var at hx
      rw [hg.others q hq] at hx ⊢
      exact hg.fine (h.handle q v x hx)

/-- A step that stores to pid slots at most, and goes on with what it creates. -/
theorem pids (h : w.Tidy) (hothers : ∀ q, q ≠ p → w'.proc q = w.proc q)
    (hobjects : ∀ o, (w'.objects o).geometry = (w.objects o).geometry ∧
      (w'.objects o).ready = (w.objects o).ready)
    (hnext : w'.nextObject = w.nextObject)
    (hcreates : ∀ o, (w'.proc p).call.creates = some o → (w.proc p).call.creates = some o)
    (hstoring : ∀ o, (w'.proc p).call.storing = some o → (w.proc p).call.storing = some o) :
    Grown w w' p where
  others := hothers
  next := hnext.ge
  geometry o _ := (hobjects o).1
  ready o _ := (hobjects o).2
  storing o ho := .inl (hstoring o ho)
  creates o ho := by
    obtain ⟨hlt, hready⟩ := h.creating p o (hcreates o ho)
    exact ⟨.inl (hcreates o ho), hnext ▸ hlt, (hobjects o).2.trans hready⟩

/-- A step that stores to pid slots at most, and creates nothing. -/
theorem idle (h : w.Tidy) (hothers : ∀ q, q ≠ p → w'.proc q = w.proc q)
    (hobjects : ∀ o, (w'.objects o).geometry = (w.objects o).geometry ∧
      (w'.objects o).ready = (w.objects o).ready)
    (hnext : w'.nextObject = w.nextObject) (hcreates : (w'.proc p).call.creates = none) :
    Grown w w' p := by
  refine pids h hothers hobjects hnext (fun o ho => ?_) fun o ho => ?_
  · rw [hcreates] at ho
    cases ho
  · rw [creates_of_storing ho] at hcreates
    cases hcreates

end Grown

theorem fine_of_ne {r : Option ℕ} (hr : r ≠ some v) : q.Fine w r v ↔ q.Sound w := by
  rw [Queue.Fine, if_neg hr]

theorem fine_of_free {r : Option ℕ} (hr : r = none) : q.Fine w r v ↔ q.Sound w :=
  fine_of_ne (by simp [hr])

theorem fine_of_eq {r : Option ℕ} (hr : r = some v) : q.Fine w r v ↔ q.Released := by
  rw [Queue.Fine, if_pos hr]

/-- The variables after a step that stores none of them. -/
theorem Tidy.goto (h : w.Tidy) (hg : Grown w w' p) (hvars : (w'.proc p).vars = (w.proc p).vars)
    (hr : (w.proc p).call.releasing = none) (hr' : (w'.proc p).call.releasing = none)
    (hinside : (w'.proc p).call.Local w' (w.proc p).vars) : w'.Tidy := by
  refine hg.tidy h (hvars ▸ hinside) fun v q hq => ?_
  rw [hvars] at hq
  have hfine := hg.fine (h.handle p v q hq)
  rw [hr] at hfine
  rwa [hr']

/-- The variables after a step that stores one of them. -/
theorem Tidy.store (h : w.Tidy) (hg : Grown w w' p) {x : Option Queue}
    (hvars : (w'.proc p).vars = update (w.proc p).vars v x)
    (hr : ∀ u, (w.proc p).call.releasing = some u → u = v)
    (hr' : ∀ u, (w'.proc p).call.releasing = some u → u = v)
    (hx : ∀ q, x = some q → q.Fine w' (w'.proc p).call.releasing v)
    (hinside : (w'.proc p).call.Local w' (update (w.proc p).vars v x)) : w'.Tidy := by
  refine hg.tidy h (hvars ▸ hinside) fun u q hq => ?_
  rw [hvars] at hq
  by_cases hu : u = v
  · subst hu
    rw [update_self] at hq
    exact hx q hq
  · rw [update_of_ne hu] at hq
    have hsound := (fine_of_ne fun hru => hu (hr u hru)).mp (h.handle p u q hq)
    exact (fine_of_ne fun hru => hu (hr' u hru)).mpr (hg.sound hsound)

/-- The variables after a step that moves one of them, and leaves `x` behind. -/
theorem Tidy.move (h : w.Tidy) (hg : Grown w w' p) {x : Option Queue}
    (hvars : (w'.proc p).vars = update (update (w.proc p).vars v ((w.proc p).vars u)) u x)
    (hr : ∀ c, (w.proc p).call.releasing = some c → c = v ∧ u ≠ v)
    (hr' : (w'.proc p).call.releasing = none) (hx : ∀ q, x = some q → q.Sound w')
    (hinside : (w'.proc p).call.Local w'
      (update (update (w.proc p).vars v ((w.proc p).vars u)) u x)) : w'.Tidy := by
  refine hg.tidy h (hvars ▸ hinside) fun c q hq => (fine_of_free hr').mpr ?_
  rw [hvars] at hq
  by_cases hcu : c = u
  · subst hcu
    rw [update_self] at hq
    exact hx q hq
  · rw [update_of_ne hcu] at hq
    by_cases hcv : c = v
    · subst hcv
      rw [update_self] at hq
      exact hg.sound ((fine_of_ne fun hru => hcu (hr u hru).1.symm).mp (h.handle p u q hq))
    · rw [update_of_ne hcv] at hq
      exact hg.sound ((fine_of_ne fun hrc => hcv (hr c hrc).1).mp (h.handle p c q hq))

/-! ## Releasing -/

theorem Tidy.sound (h : w.Tidy) (hr : (w.proc p).call.releasing = none)
    (hq : w.var p v = some q) : q.Sound w :=
  (fine_of_free hr).mp (h.handle p v q hq)

/-- `detach()` up to `seg_.reset()`. -/
theorem tidy_release {next : Next} (h : w.Tidy) (hr : (w.proc p).call.releasing = none)
    (hinside : ∀ x : Queue, (Call.resetting v next).Local w
      (update (w.proc p).vars v (some x)))
    (hstep : w.release p v next = some w') : w'.Tidy := by
  have hothers : ∀ q, q ≠ p → w'.proc q = w.proc q := fun q hq => proc_release hq hstep
  obtain ⟨q, hq, rfl⟩ := release_eq hstep
  have hsound := h.sound hr hq
  have hg : Grown w (((w.clearPid p q).setVar p v (some q.released)).goto p (.resetting v next))
      p := by
    refine .idle h hothers (fun o => ?_) nextObject_clearPid (by simp [Call.creates])
    exact clearPid_frame q o
  refine h.store hg (v := v) (x := some q.released) ?_ ?_ ?_ ?_ ?_
  · rw [vars_goto, vars_setVar, proc_clearPid]
  · simp [hr]
  · simp [Call.releasing]
  · rintro x ⟨⟩
    exact (fine_of_eq (by simp [Call.releasing])).mpr ⟨rfl, rfl, rfl, hsound.owner⟩
  · rw [call_goto]
    exact hg.inside (hinside _)

theorem sound_reset (hq : q.Released) : ({ q with seg := .null } : Queue).Sound w where
  ctrl := hq.ctrl
  slots := .inl hq.slots
  bound hb := by
    rw [hq.bound] at hb
    cases hb
  owner ho := by cases ho

/-- `seg_.reset()`, and what follows it. -/
theorem tidy_reset {next : Next} (h : w.Tidy) (hcall : (w.proc p).call = .resetting v next)
    (hstep : w.reset p v next = some w') : w'.Tidy := by
  have hinside := h.inside p
  rw [hcall] at hinside
  have hothers : ∀ q, q ≠ p → w'.proc q = w.proc q := by
    intro q hq
    have hcalled : w.stepCall p .plain (.resetting v next) = some w' := hstep
    exact proc_stepCall hq hcalled
  unfold reset at hstep
  split at hstep
  next q hq =>
    obtain ⟨hobjects, hnext, -⟩ := resetSegment_frame w q.seg
    have hreleased : q.Released :=
      (fine_of_eq (by simp [hcall, Call.releasing])).mp (h.handle p v q hq)
    have hr : ∀ u, (w.proc p).call.releasing = some u → u = v := by
      simp [hcall, Call.releasing, eq_comm]
    cases next with
    | keep =>
      cases hstep
      have hg := Grown.quiet hothers hobjects hnext (by simp [Call.creates])
      refine h.store hg (v := v) (x := some { q with seg := .null }) ?_ hr ?_ ?_ ?_
      · rw [vars_goto, vars_setVar, proc_resetSegment]
      · simp [Call.releasing]
      · rintro x ⟨⟩
        exact (fine_of_free (by simp [Call.releasing])).mpr (sound_reset hreleased)
      · rw [call_goto]
        exact (update_of_ne (Ne.symm hinside.1) ..).trans hinside.2
    | drop =>
      cases hstep
      have hg := Grown.quiet hothers hobjects hnext (by simp [Call.creates])
      refine h.store hg (v := v) (x := none) ?_ hr ?_ ?_ ?_
      · rw [vars_goto, vars_setVar, proc_resetSegment]
      · simp [Call.releasing]
      · simp
      · rw [call_goto]
        by_cases hv : v = tmp
        · subst hv
          exact update_self ..
        · exact (update_of_ne (Ne.symm hv) ..).trans (hinside hv)
    | swap u =>
      cases hstep
      obtain ⟨hv, huv, htmp⟩ := hinside
      have hg := Grown.quiet hothers hobjects hnext (by split_ifs <;> simp [Call.creates])
      refine h.move hg (v := v) (u := u) (x := some { q with seg := .null }) ?_ ?_ ?_ ?_ ?_
      · rw [vars_goto, vars_setVar, vars_setVar, proc_resetSegment]
        rfl
      · exact fun c hc => ⟨hr c hc, huv⟩
      · rw [call_goto]
        split_ifs <;> rfl
      · rintro x ⟨⟩
        exact sound_reset hreleased
      · rw [call_goto]
        split_ifs with hu
        · rfl
        · refine (update_of_ne (Ne.symm hu) ..).trans ?_
          rw [update_of_ne (Ne.symm hv), htmp hu]
  next => cases hstep

/-! ## `create` and `attach` -/

/-- The temporary is assigned a new mapping of object `o`. -/
theorem tidy_mapTmp {size : UInt64} {owner : Bool} {name : String} {c : Call} (h : w.Tidy)
    (hr : (w.proc p).call.releasing = none) (hr' : c.releasing = none)
    (hq : w.var p tmp = some q) (hslots : q.slots = none) (howner : owner = true → name ≠ "")
    (hcreates : ∀ o, c.creates = some o → (w.proc p).call.creates = some o)
    (hstoring : ∀ o, c.storing = some o → (w.proc p).call.storing = some o)
    (hinside : ∀ x : Queue, x.slots = none → x.ctrl.map Mapping.object = some o →
      c.Local w (update (w.proc p).vars tmp (some x))) :
    ((w.mapTmp p q o size owner name true).goto p c).Tidy := by
  obtain ⟨hobjects, hnext, -⟩ := resetSegment_frame w q.seg
  have hg : Grown w ((w.mapTmp p q o size owner name true).goto p c) p := by
    refine .pids h (fun r hr => ?_) (fun o => ?_) hnext ?_ ?_
    · simp [World.goto, proc_setProc_of_ne hr, proc_mapTmp hr]
    · exact ⟨congrArg (fun f => (f o).geometry) hobjects, congrArg (fun f => (f o).ready) hobjects⟩
    · rw [call_goto]
      exact hcreates
    · rw [call_goto]
      exact hstoring
  refine h.store hg (vars_goto.trans vars_mapTmp) (by simp [hr]) (by simp [hr']) ?_ ?_
  · rintro x ⟨⟩
    refine (fine_of_free (by rw [call_goto, hr'])).mpr
      ⟨rfl, .inl hslots, fun hb => ?_, fun ho => ?_⟩
    · exact (h.sound hr hq).bound hb
    · exact ⟨rfl, howner ho⟩
  · rw [call_goto]
    exact hg.inside (hinside _ hslots rfl)

/-- What `bind` assigns. -/
theorem sound_assign (role : Role) {b : BindPc} (hsound : q.Sound w)
    (hctrl : q.ctrl.map Mapping.object = some o) (hsettled : w.Settled o)
    (hb : b = .loadCapacity ∨ q.slots.isSome) :
    (q.assign role (w.objects o) b).Sound w ∧ (q.assign role (w.objects o) b).slots.isSome ∧
      (q.assign role (w.objects o) b).ctrl = q.ctrl := by
  have hsame {x : Queue} (hseg : x.seg = q.seg) (hc : x.ctrl = q.ctrl) (hs : x.slots = q.slots)
      (hbound : x.bound = q.bound) : x.Sound w :=
    ⟨by rw [hseg, hc, hsound.ctrl], by rw [hc, hs]; exact hsound.slots,
      by rw [hs, hbound]; exact hsound.bound, by rw [hseg]; exact hsound.owner⟩
  cases b with
  | loadCapacity =>
    obtain ⟨m, hm, rfl⟩ := Option.map_eq_some_iff.mp hctrl
    refine ⟨⟨hsound.ctrl, .inr ⟨m, hm, hsettled, ?_⟩, ?_, hsound.owner⟩, ?_, rfl⟩ <;>
      simp [Queue.assign, hm]
  | _ =>
    have hslots := hb.resolve_left (by simp)
    exact ⟨hsame rfl rfl rfl rfl, hslots, rfl⟩

/-- A step of `bind` on the temporary. -/
theorem tidy_bindStep {role : Role} {b : BindPc} {ans : Answers} {more : BindPc → Call}
    {bound : Handle → Call} (h : w.Tidy) (hr : (w.proc p).call.releasing = none)
    (htmp : ∃ q, (w.proc p).vars tmp = some q ∧ q.ctrl.map Mapping.object = some o ∧
      (b = .loadCapacity ∨ q.slots.isSome)) (hsettled : w.Settled o)
    (hcall : ∀ c, (∃ b', c = more b') ∨ (∃ handle, c = bound handle) → c.releasing = none ∧
      c.storing = none ∧ (∀ o, c.creates = some o → (w.proc p).call.creates = some o) ∧
      ∀ x : Queue, x.ctrl.map Mapping.object = some o → x.slots.isSome →
        c.Local w (update (w.proc p).vars tmp (some x)))
    (hstep : w.bindStep p role o b ans more bound = some w') : w'.Tidy := by
  obtain ⟨q, hq, hctrl, hb⟩ := htmp
  obtain ⟨q', x, hvar, hframe, hnext, hobjects, hvars, hleaves⟩ := bindStep_cases hstep
  obtain rfl : q = q' := Option.some.inj (hq.symm.trans hvar)
  obtain ⟨hsound, hslots, hctrl'⟩ := sound_assign role (h.sound hr hq) hctrl hsettled hb
  -- the call goes on, returns, or is left by an exception
  have hafter : ((∃ b', (w'.proc p).call = more b') ∨ (∃ handle, (w'.proc p).call = bound handle) ∨
      (w'.proc p).call = .destroying tmp) ∧
      (x = q.assign role (w.objects o) b ∨
        x = { q.assign role (w.objects o) b with bound := true }) := by
    cases hout : (ShmSpsc.bindStep role p (w.objects o) ans b).2 with
    | more b' =>
      rw [hout] at hleaves
      exact ⟨.inl ⟨b', hleaves.2⟩, .inl hleaves.1⟩
    | bound handle =>
      rw [hout] at hleaves
      exact ⟨.inr (.inl ⟨handle, hleaves.2⟩), .inr hleaves.1⟩
    | threw e =>
      rw [hout] at hleaves
      exact ⟨.inr (.inr hleaves.2.1), .inl hleaves.1⟩
  have hx : x.Sound w ∧ x.slots.isSome ∧ x.ctrl = q.ctrl := by
    rcases hafter.2 with rfl | rfl
    · exact ⟨hsound, hslots, hctrl'⟩
    · exact ⟨⟨hsound.ctrl, hsound.slots, fun _ => hslots, hsound.owner⟩, hslots, hctrl'⟩
  have hgoes : (w'.proc p).call.releasing = none ∧ (w'.proc p).call.storing = none ∧
      (∀ o, (w'.proc p).call.creates = some o → (w.proc p).call.creates = some o) ∧
      (w'.proc p).call.Local w (update (w.proc p).vars tmp (some x)) := by
    rcases hafter.1 with hmore | hbound | hthrew
    · obtain ⟨hfree, hstore, hcreates, hinside⟩ := hcall _ (.inl hmore)
      exact ⟨hfree, hstore, hcreates, hinside x (hx.2.2 ▸ hctrl) hx.2.1⟩
    · obtain ⟨hfree, hstore, hcreates, hinside⟩ := hcall _ (.inr hbound)
      exact ⟨hfree, hstore, hcreates, hinside x (hx.2.2 ▸ hctrl) hx.2.1⟩
    · rw [hthrew]
      exact ⟨rfl, rfl, by simp [Call.creates], rfl⟩
  obtain ⟨hfree, hstore, hcreates, hinside⟩ := hgoes
  have hg : Grown w w' p := by
    refine .pids h hframe.others (fun o' => ?_) hnext hcreates (by simp [hstore])
    rw [hobjects]
    by_cases ho : o' = o
    · subst ho
      rw [update_self]
      exact ⟨(bindStep_frame ..).2.1, (bindStep_frame ..).1⟩
    · rw [update_of_ne ho]
      exact ⟨rfl, rfl⟩
  refine h.store hg hvars (by simp [hr]) (by simp [hfree]) ?_ (hg.inside hinside)
  rintro x' ⟨⟩
  exact (fine_of_free hfree).mpr (hg.sound hx.1)

/-- A step of `create` outside `mmap` and `bind` that goes on. -/
theorem local_of_more {S : Setup} {object : Object T} {ans : Answers} {pc pc' : CreatePc}
    (hmmap : pc ≠ .mmap) (hpc : ∀ b, pc ≠ .binding b) (hready : object.ready = 0)
    (hmore : (ShmSpsc.createStep S object ans pc).2 = .more pc') :
    (ShmSpsc.createStep S object ans pc).1.ready = 0 ∧
      (∀ whole v o, (Call.create S whole v o pc).storing = some o) ∧
      ∀ o q, pc.Local o q → pc'.Local o q := by
  cases pc with
  | ftruncate =>
    simp only [ShmSpsc.createStep] at hmore ⊢
    split at hmore <;> cases hmore
    exact ⟨hready, fun _ _ _ => rfl, fun _ _ hq => hq⟩
  | mmap => exact absurd rfl hmmap
  | binding b => exact absurd rfl (hpc b)
  | ready handle => cases hmore
  | memset =>
    cases hmore
    exact ⟨rfl, fun _ _ _ => rfl, fun _ _ hq => hq⟩
  | readIdx =>
    cases hmore
    exact ⟨hready, fun _ _ _ => rfl, fun _ _ hq => ⟨hq, .inl rfl⟩⟩
  | _ =>
    cases hmore
    exact ⟨hready, fun _ _ _ => rfl, fun _ _ hq => hq⟩

/-- A system call or a store of `create`. -/
theorem tidy_storeStep {S : Setup} {whole : Bool} {ans : Answers} {pc : CreatePc} (h : w.Tidy)
    (hmmap : pc ≠ .mmap) (hpc : ∀ b, pc ≠ .binding b)
    (hcall : (w.proc p).call = .create S whole v o pc) :
    (w.storeStep p S whole v o ans pc).Tidy := by
  have hinside := h.inside p
  rw [hcall] at hinside
  obtain ⟨hwhole, hv, q, hq, hlocal⟩ := hinside
  obtain ⟨hlt, hready⟩ := h.creating p o (by rw [hcall]; rfl)
  have hr : (w.proc p).call.releasing = none := by rw [hcall]; rfl
  have hmore := fun pc' => @local_of_more T S (w.objects o) ans pc pc' hmmap hpc hready
  -- the stores leave the geometry once `bind` has returned
  have hgeometry : (w.proc p).call.storing ≠ some o →
      (ShmSpsc.createStep S (w.objects o) ans pc).1.geometry = (w.objects o).geometry := by
    intro hstoring
    rw [hcall] at hstoring
    cases pc with
    | ready handle => rfl
    | binding b => exact absurd rfl (hpc b)
    | _ => exact absurd rfl hstoring
  unfold storeStep
  generalize ShmSpsc.createStep S (w.objects o) ans pc = out at hmore hgeometry
  obtain ⟨object, out⟩ := out
  have hg (x : Proc) (hstoring : ∀ o', x.call.storing = some o' → (w.proc p).call.storing = some o')
      (hcreates : ∀ o', x.call.creates = some o' → o' = o ∧ object.ready = 0) :
      Grown w ((w.setObject o object).setProc p x) p := by
    refine ⟨fun q hq => proc_setProc_of_ne hq, le_rfl, fun o' ho' => ?_, fun o' ho' => ?_,
      fun o' ho' => ?_, fun o' ho' => ?_⟩
    · by_cases ho : o' = o
      · subst ho
        simpa [setObject, setProc] using hgeometry ho'
      · simp [setObject, setProc, ho]
    · have ho : o' ≠ o := by
        rintro rfl
        exact ho' (by rw [hcall]; rfl)
      simp [setObject, setProc, ho]
    · rw [proc_setProc_self] at ho'
      exact .inl (hstoring o' ho')
    · rw [proc_setProc_self] at ho'
      obtain ⟨rfl, hzero⟩ := hcreates o' ho'
      refine ⟨.inl (by rw [hcall]; rfl), hlt, ?_⟩
      simpa [setObject, setProc] using hzero
  cases out with
  | more pc' =>
    obtain ⟨hzero, hstoring, hnext⟩ := hmore pc' rfl
    refine h.goto (hg _ (fun o' ho' => ?_) fun o' ho' => ?_) vars_goto hr
      (by simp [Call.releasing]) ?_
    · rw [hcall, hstoring, ← Option.some.inj (creates_of_storing ho')]
    · exact ⟨(Option.some.inj ho').symm, hzero⟩
    · rw [call_goto]
      exact ⟨hwhole, hv, q, hq, hnext o q hlocal⟩
  | bound handle =>
    refine h.goto (hg _ (fun o' ho' => ?_) fun o' ho' => ?_) vars_goto hr
      (by simp [Call.releasing]) ?_
    · cases ho'
    · cases ho'
    · rw [call_goto]
      exact hv
  | threw e =>
    refine h.goto (hg _ (fun o' ho' => ?_) fun o' ho' => ?_) vars_throw hr
      (by simp [Call.releasing]) ?_
    · cases ho'
    · cases ho'
    · rw [call_throw]
      trivial

/-- A step that only moves the call on. -/
theorem tidy_goto {c : Call} (h : w.Tidy) (hothers : ∀ q, q ≠ p → w'.proc q = w.proc q)
    (hobjects : w'.objects = w.objects) (hnext : w'.nextObject = w.nextObject)
    (hproc : (w'.proc p).call = c ∧ (w'.proc p).vars = (w.proc p).vars)
    (hr : (w.proc p).call.releasing = none) (hr' : c.releasing = none)
    (hcreates : c.creates = none) (hinside : c.Local w (w.proc p).vars) : w'.Tidy := by
  have hg : Grown w w' p := .quiet hothers hobjects hnext (by rw [hproc.1, hcreates])
  refine h.goto hg hproc.2 hr (by rw [hproc.1, hr']) ?_
  rw [hproc.1]
  exact hg.inside hinside

theorem tidy_throw {e : Exception} {c : Call} (h : w.Tidy)
    (hr : (w.proc p).call.releasing = none) (hr' : c.releasing = none)
    (hcreates : c.creates = none) (hinside : c.Local w (w.proc p).vars) : (w.throw p e c).Tidy :=
  tidy_goto h (fun _ => proc_setProc_of_ne) rfl rfl ⟨call_throw, vars_throw⟩ hr hr' hcreates hinside

theorem tidy_shmOpen {S : Setup} {whole : Bool} (h : w.Tidy)
    (hcall : (w.proc p).call = .shmOpen S whole v) : (w.shmOpen p S whole v).Tidy := by
  have hinside := h.inside p
  rw [hcall] at hinside
  obtain ⟨hwhole, hv, htmp⟩ := hinside
  have hr : (w.proc p).call.releasing = none := by rw [hcall]; rfl
  unfold shmOpen
  dsimp only
  split
  · exact tidy_throw h hr rfl rfl rfl
  · exact tidy_throw h hr rfl rfl rfl
  · refine h.goto (p := p) ?_ vars_goto hr (by simp [Call.releasing]) ?_
    · refine ⟨fun q hq => proc_setProc_of_ne hq, Nat.le_succ _, fun _ _ => rfl, fun _ _ => rfl,
        fun o ho => ?_, fun o ho => ?_⟩
      · rw [call_goto] at ho
        cases ho
        exact .inr le_rfl
      · rw [call_goto] at ho
        cases ho
        exact ⟨.inr le_rfl, Nat.lt_succ_self _, h.blank _ le_rfl⟩
    · rw [call_goto]
      exact ⟨hwhole, hv, .null, htmp, rfl⟩

theorem tidy_createStep {S : Setup} {whole : Bool} {ans : Answers} {pc : CreatePc} (h : w.Tidy)
    (hcall : (w.proc p).call = .create S whole v o pc)
    (hstep : w.createStep p S whole v o ans pc = some w') : w'.Tidy := by
  have hinside := h.inside p
  rw [hcall] at hinside
  obtain ⟨hwhole, hv, q, hq, hlocal⟩ := hinside
  have hr : (w.proc p).call.releasing = none := by rw [hcall]; rfl
  cases pc with
  | mmap =>
    simp only [createStep] at hstep
    split at hstep
    · cases hstep
      exact tidy_throw h hr rfl rfl trivial
    next _ q' hq' _ =>
      cases hstep
      obtain rfl : q = q' := Option.some.inj (hq.symm.trans hq')
      obtain rfl : q = .null := hlocal
      rw [hwhole, if_pos rfl]
      refine tidy_mapTmp h hr rfl hq rfl (fun _ => S.name_ne) ?_ ?_ fun x _ hx => ?_
      · rw [hcall]
        exact fun _ ho => ho
      · rw [hcall]
        exact fun _ ho => ho
      · exact ⟨rfl, hv, x, update_self .., hx⟩
    · cases hstep
  | binding b =>
    refine tidy_bindStep h hr ⟨q, hq, hlocal⟩ ⟨(h.creating p o (by rw [hcall]; rfl)).1, ?_⟩ ?_ hstep
    -- the creator has written the control block, and nobody else creates the object
    · intro r hstoring
      have hcreates := creates_of_storing hstoring
      obtain rfl := h.alone r p o hcreates (by rw [hcall]; rfl)
      rw [hcall] at hstoring
      cases hstoring
    · rintro c (⟨b', rfl⟩ | ⟨handle, rfl⟩)
      · exact ⟨rfl, rfl, fun o ho => by rw [hcall]; exact ho,
          fun x hx hslots => ⟨hwhole, hv, x, update_self .., hx, .inr hslots⟩⟩
      · exact ⟨rfl, rfl, fun o ho => by rw [hcall]; exact ho,
          fun x hx _ => ⟨hwhole, hv, x, update_self .., hx⟩⟩
  | _ =>
    cases hstep
    exact tidy_storeStep h (by simp) (by simp) hcall

/-- A published object is settled. -/
theorem Tidy.settled_of_ready (h : w.Tidy) (hready : (w.objects o).ready = 1) : w.Settled o := by
  have hne : (w.objects o).ready ≠ 0 := by rw [hready]; decide
  refine ⟨?_, fun q hq => hne (h.creating q o (creates_of_storing hq)).2⟩
  by_contra hlt
  exact hne (h.blank o (not_lt.mp hlt))

theorem tidy_attachStep {name : String} {role : Role} {ans : Answers} {pc : AttachPc} (h : w.Tidy)
    (hcall : (w.proc p).call = .attach name role v o pc)
    (hstep : w.attachStep p name role v o ans pc = some w') : w'.Tidy := by
  have hinside := h.inside p
  rw [hcall] at hinside
  obtain ⟨hv, q, hq, hlocal⟩ := hinside
  have hr : (w.proc p).call.releasing = none := by rw [hcall]; rfl
  have hfail {e : Exception} : (w.throw p e (.destroying tmp)).Tidy := tidy_throw h hr rfl rfl rfl
  have hmore {pc' : AttachPc} (hlocal : pc'.Local w o q) :
      (w.goto p (.attach name role v o pc')).Tidy :=
    tidy_goto h (fun _ => proc_setProc_of_ne) rfl rfl ⟨call_goto, vars_goto⟩ hr rfl rfl
      ⟨hv, q, hq, hlocal⟩
  cases pc with
  | opening A =>
    simp only [attachStep] at hstep
    split at hstep
    next q' o' mapped hq' _ =>
      cases hstep
      obtain rfl : q = q' := Option.some.inj (hq.symm.trans hq')
      exact tidy_mapTmp h hr rfl hq hlocal (by simp) (by simp [Call.creates])
        (by simp [Call.storing]) fun x hslots hx => ⟨hv, x, update_self .., hslots, hx⟩
    · cases hstep
      split_ifs
      · exact hfail
      · exact hmore hlocal
    · cases hstep
  | readyCheck A lastAttempt mapped =>
    cases hstep
    simp only [checkStep, ShmSpsc.attachStep]
    split_ifs with hready
    · exact hmore ⟨hlocal.2, h.settled_of_ready hready⟩
    · exact hfail
    · exact hmore hlocal.1
  | validating A mapped =>
    cases hstep
    simp only [checkStep, ShmSpsc.attachStep]
    cases validate A (w.objects o).geometry mapped with
    | ok _ => exact hmore ⟨hlocal.1, hlocal.2, .inl rfl⟩
    | error e => exact hfail
  | binding b =>
    refine tidy_bindStep h hr ⟨q, hq, hlocal.1, hlocal.2.2⟩ hlocal.2.1 ?_ hstep
    rintro c (⟨b', rfl⟩ | ⟨handle, rfl⟩)
    · exact ⟨rfl, rfl, by simp [Call.creates],
        fun x hx hslots => ⟨hv, x, update_self .., hx, hlocal.2.1, .inr hslots⟩⟩
    · exact ⟨rfl, rfl, by simp [Call.creates], fun _ _ _ => hv⟩

/-! ## Every step -/

theorem sound_null : Queue.null.Sound w where
  ctrl := rfl
  slots := .inl rfl
  bound hb := by cases hb
  owner ho := by cases ho

/-- The next step of a call. -/
theorem tidy_stepCall {ans : Answers} (h : w.Tidy)
    (hstep : w.stepCall p ans (w.proc p).call = some w') : w'.Tidy := by
  have hothers : ∀ q, q ≠ p → w'.proc q = w.proc q := fun q hq => proc_stepCall hq hstep
  have hinside := h.inside p
  cases hcall : (w.proc p).call with
  | idle =>
    rw [hcall] at hstep
    cases hstep
  | unlink S whole v =>
    rw [hcall] at hstep hinside
    cases hstep
    exact tidy_goto h hothers rfl rfl ⟨call_goto, vars_goto⟩ (by rw [hcall]; rfl) rfl rfl hinside
  | shmOpen S whole v =>
    rw [hcall] at hstep
    cases hstep
    exact tidy_shmOpen h hcall
  | create S whole v o pc =>
    rw [hcall] at hstep
    exact tidy_createStep h hcall hstep
  | cleanup name o =>
    rw [hcall] at hstep
    cases hstep
    exact tidy_goto h hothers rfl rfl ⟨call_goto, vars_goto⟩ (by rw [hcall]; rfl) rfl rfl rfl
  | attach name role v o pc =>
    rw [hcall] at hstep
    exact tidy_attachStep h hcall hstep
  | openSegment name v =>
    rw [hcall] at hinside
    cases hinside
  | placing v =>
    rw [hcall] at hstep hinside
    have hr : (w.proc p).call.releasing = none := by rw [hcall]; rfl
    simp only [stepCall] at hstep
    split at hstep
    · refine tidy_release h hr (fun x => ?_) hstep
      exact ⟨hinside, Ne.symm hinside, fun hne => absurd rfl hne⟩
    next hvar =>
      cases hstep
      refine h.move (p := p) (v := v) (u := tmp) (x := some .null)
        (.quiet hothers rfl rfl (by simp [Call.creates])) ?_ (by simp [hr])
        (by simp [Call.releasing]) ?_ ?_
      · rw [vars_goto, vars_setVar, vars_setVar]
        rfl
      · rintro x ⟨⟩
        exact sound_null
      · rw [call_goto]
        rfl
  | destroying v =>
    rw [hcall] at hstep hinside
    refine tidy_release h (by rw [hcall]; rfl) (fun x => ?_) hstep
    exact fun hne => absurd hinside hne
  | resetting v next =>
    rw [hcall] at hstep
    exact tidy_reset h hcall hstep

/-- The release of a handle between two calls, when there is no temporary. -/
theorem tidy_release_idle {next : Next} (h : w.Tidy) (hidle : (w.proc p).call = .idle)
    (hnext : ∀ u, next = .swap u → u ≠ v) (hstep : w.release p v next = some w') : w'.Tidy := by
  have htmp := h.inside p
  rw [hidle] at htmp
  have htmp : (w.proc p).vars tmp = none := htmp
  have hv : v ≠ tmp := by
    rintro rfl
    simp [release, var, htmp] at hstep
  refine tidy_release h (by rw [hidle]; rfl) (fun x => ?_) hstep
  have htmp' : update (w.proc p).vars v (some x) tmp = none := by
    rw [update_of_ne (Ne.symm hv), htmp]
  cases next with
  | keep => exact ⟨hv, htmp'⟩
  | drop => exact fun _ => htmp'
  | swap u => exact ⟨hv, hnext u rfl, fun _ => htmp'⟩

/-- A call that goes on, with its temporary. -/
theorem tidy_fresh {c : Call} (h : w.Tidy) (hidle : (w.proc p).call = .idle)
    (hr : c.releasing = none) (hcreates : c.creates = none)
    (hinside : c.Local w (update (w.proc p).vars tmp (some .null))) :
    ((w.setVar p tmp (some .null)).goto p c).Tidy := by
  have hothers : ∀ q, q ≠ p → ((w.setVar p tmp (some .null)).goto p c).proc q = w.proc q := by
    intro q hq
    simp [goto, setVar, proc_setProc_of_ne hq]
  have hg : Grown w ((w.setVar p tmp (some .null)).goto p c) p :=
    .quiet hothers rfl rfl (by rw [call_goto, hcreates])
  refine h.store hg (vars_goto.trans vars_setVar) (by simp [hidle, Call.releasing])
    (by simp [hr]) ?_ ?_
  · rintro x ⟨⟩
    exact (fine_of_free (by rw [call_goto, hr])).mpr sound_null
  · rw [call_goto]
    exact hg.inside hinside

/-- A handle that is moved or swapped at once. -/
theorem tidy_moved {u : ℕ} {x y : Queue} (h : w.Tidy) (hidle : (w.proc a.pid).call = .idle)
    (hstep : w.startCall a = some w') (hcall : (w'.proc a.pid).call = .idle)
    (hobjects : w'.objects = w.objects) (hnext : w'.nextObject = w.nextObject)
    (hvars : (w'.proc a.pid).vars =
      update (update (w.proc a.pid).vars v ((w.proc a.pid).vars u)) u (some x))
    (hv : v ≠ tmp) (hu : w.var a.pid u = some y) (hx : x.Sound w) : w'.Tidy := by
  have hothers : ∀ q, q ≠ a.pid → w'.proc q = w.proc q := fun q hq => proc_startCall hq hstep
  have htmp := h.inside a.pid
  rw [hidle] at htmp
  have htmp : (w.proc a.pid).vars tmp = none := htmp
  have hg := Grown.quiet hothers hobjects hnext (by rw [hcall]; rfl)
  have hut : tmp ≠ u := by
    rintro rfl
    rw [var, htmp] at hu
    cases hu
  refine h.move hg hvars (by simp [hidle, Call.releasing]) (by rw [hcall]; rfl) ?_ ?_
  · rintro x' ⟨⟩
    exact hg.sound hx
  · rw [hcall]
    refine (update_of_ne hut ..).trans ?_
    rw [update_of_ne (Ne.symm hv), htmp]

theorem tidy_construct (h : w.Tidy) (hidle : (w.proc p).call = .idle)
    (hstep : w.startCall (.construct p v) = some w') : w'.Tidy := by
  have hothers : ∀ q, q ≠ p → w'.proc q = w.proc q :=
    fun q hq => proc_startCall (a := .construct p v) hq hstep
  have htmp := h.inside p
  rw [hidle] at htmp
  have htmp : (w.proc p).vars tmp = none := htmp
  simp only [startCall] at hstep
  split_ifs at hstep with hguard
  cases hstep
  have hcall : ((w.setVar p v (some .null)).proc p).call = .idle := call_setVar.trans hidle
  refine h.store (p := p) (.quiet hothers rfl rfl ?_) vars_setVar ?_ ?_ ?_ ?_
  · rw [hcall]
    rfl
  · simp [hidle, Call.releasing]
  · rw [hcall]
    exact fun u hu => by cases hu
  · rintro x ⟨⟩
    exact (fine_of_free (by rw [hcall]; rfl)).mpr sound_null
  · rw [hcall]
    exact (update_of_ne (Ne.symm hguard.1) ..).trans htmp

theorem tidy_moveConstruct {u : ℕ} (h : w.Tidy) (hidle : (w.proc p).call = .idle)
    (hstep : w.startCall (.moveConstruct p v u) = some w') : w'.Tidy := by
  have hstart := hstep
  simp only [startCall] at hstep
  split at hstep
  next q hv hu =>
    split_ifs at hstep with hne
    cases hstep
    refine tidy_moved (a := .moveConstruct p v u) h hidle hstart
      (call_setVar.trans (call_setVar.trans hidle)) rfl rfl ?_ hne hu sound_null
    refine vars_setVar.trans ?_
    rw [vars_setVar, ← show (w.proc p).vars u = some q from hu]
    rfl
  next => cases hstep

theorem tidy_swapWith {u : ℕ} (h : w.Tidy) (hidle : (w.proc p).call = .idle)
    (hstep : w.startCall (.swapWith p v u) = some w') : w'.Tidy := by
  have hstart := hstep
  have htmp := h.inside p
  rw [hidle] at htmp
  have htmp : (w.proc p).vars tmp = none := htmp
  simp only [startCall] at hstep
  split at hstep
  next q q' hv hu =>
    cases hstep
    have hvt : v ≠ tmp := by
      rintro rfl
      exact absurd (htmp.symm.trans hv) (by simp)
    refine tidy_moved (a := .swapWith p v u) h hidle hstart
      (call_setVar.trans (call_setVar.trans hidle)) rfl rfl ?_ hvt hu
      (h.sound (by rw [hidle]; rfl) hv)
    refine vars_setVar.trans ?_
    rw [vars_setVar, ← show (w.proc p).vars u = some q' from hu]
    rfl
  next => cases hstep

/-- A call of a process between two calls. -/
theorem tidy_startCall (h : w.Tidy) (hidle : (w.proc a.pid).call = .idle) (ha : a.onQueues)
    (hstep : w.startCall a = some w') : w'.Tidy := by
  have hstart := hstep
  cases a with
  | create p v S whole =>
    simp only [startCall] at hstep
    split_ifs at hstep with hguard
    cases hstep
    exact tidy_fresh h hidle rfl rfl ⟨ha, hguard.1, update_self ..⟩
  | attach p v name role A =>
    simp only [startCall] at hstep
    split_ifs at hstep with hv
    cases hstep
    exact tidy_fresh h hidle rfl rfl ⟨hv, .null, update_self .., rfl⟩
  | openSegment p v name => cases ha
  | construct p v => exact tidy_construct h hidle hstep
  | moveConstruct p v u => exact tidy_moveConstruct h hidle hstep
  | moveAssign p v u =>
    simp only [startCall] at hstep
    split at hstep
    · split_ifs at hstep with hvu
      · cases hstep
        exact h
      · refine tidy_release_idle h hidle ?_ hstep
        rintro u' ⟨⟩
        exact Ne.symm hvu
    · cases hstep
  | swapWith p v u => exact tidy_swapWith h hidle hstep
  | detach p v => exact tidy_release_idle h hidle (by simp) hstep
  | destroy p v => exact tidy_release_idle h hidle (by simp) hstep
  | remove p name =>
    have hothers : ∀ q, q ≠ p → w'.proc q = w.proc q :=
      fun q hq => proc_startCall (a := .remove p name) hq hstart
    have hr : (w.proc p).call.releasing = none := by
      rw [show (w.proc p).call = .idle from hidle]
      rfl
    have htmp := h.inside p
    rw [show (w.proc p).call = .idle from hidle] at htmp
    cases hstep
    exact tidy_goto h hothers rfl rfl ⟨hidle, rfl⟩ hr rfl rfl htmp
  | step p ans => cases hstep
  | die p => cases hstep

theorem tidy_start (slots : ℕ → T) : (start slots).Tidy where
  blank _ _ := rfl
  creating p o h := by cases h
  alone p q o h := by cases h
  inside p := rfl
  handle p v q h := by cases h

theorem tidy_step (h : w.Tidy) (ha : a.onQueues) (hstep : w.step a = some w') : w'.Tidy := by
  obtain ⟨-, ⟨p, rfl, rfl⟩ | ⟨p, ans, rfl, -, hcall⟩ | ⟨hidle, hstart⟩⟩ := step_cases hstep
  · have hg : Grown w { w with dead := update w.dead p true } p :=
      .pids h (fun _ _ => rfl) (fun _ => ⟨rfl, rfl⟩) rfl (fun _ ho => ho) fun _ ho => ho
    exact hg.tidy h (hg.inside (h.inside p)) fun v q hq => hg.fine (h.handle p v q hq)
  · exact tidy_stepCall h hcall
  · exact tidy_startCall h hidle ha hstart

end World

end ShmSpsc
