import ShmSpsc.Lifecycle
import ShmSpsc.Ownership

/-!
# Bound handles

A process has any number of handles, and any of them may be bound to any role of any object.
`World.seat` reads a role of an object as a state of `OwnerWord` whose owners are the processes
with a bound handle there. `World.Kept` is what a step of one process leaves : the process is
where it can be, it has touched no object but as its call may, and every seat has taken a step
or none; here for the release of a handle (`World.kept_release`) and for the steps of `bind`.
-/

namespace ShmSpsc

open Transition OwnerWord

variable {T : Type*}

namespace World

/-- Handle `v` of process `p` is bound to `role` of object `o`. -/
def holds (w : World T) (p : ℤ) (v o : ℕ) (role : Role) : Bool :=
  (w.var p v).any fun q => q.boundTo o role

end World

/-! ## Where a process can be -/

/-- The handle is not bound. -/
def Unbound (x : Option Queue) : Prop := ∀ q, x = some q → q.bound = false

/-- Some handle is bound to `role` of object `o`. -/
def HasBound (vars : ℕ → Option Queue) (o : ℕ) (role : Role) : Prop :=
  ∃ v, (vars v).any fun q => q.boundTo o role

/-- The temporary before a step of `bind` on object `o`. -/
structure Queue.Binding (role : Role) (o : ℕ) (b : BindPc) (q : Queue) : Prop where
  bound : q.bound = false
  ctrl : q.ctrl.map Mapping.object = some o
  role : b = .loadCapacity ∨ q.role = role

/-- The temporary before each step of `create`. -/
def CreatePc.Tmp (role : Role) (o : ℕ) (q : Queue) : CreatePc → Prop
  | .ftruncate => q.bound = false
  | .mmap => q.bound = false
  | .binding b => q.Binding role o b
  -- `bound_` is set : the temporary owns its role already
  | .ready _ => True
  | _ => q.bound = false ∧ q.ctrl.map Mapping.object = some o

/-- The temporary before each step of `attach`. -/
def AttachPc.Tmp (role : Role) (o : ℕ) (q : Queue) : AttachPc → Prop
  | .opening _ => q.bound = false
  | .binding b => q.Binding role o b
  | _ => q.bound = false ∧ q.ctrl.map Mapping.object = some o

/-- The check of `ready` has passed. -/
def AttachPc.passed : AttachPc → Bool
  | .validating .. => true
  | .binding _ => true
  | _ => false

/-- The handles of a process `p` inside `call`, and the object that it creates or binds to. -/
def Call.Fits (objects : ℕ → Object T) (next : ℕ) (p : ℤ) (vars : ℕ → Option Queue) :
    Call → Prop
  | .idle => vars tmp = none
  | .unlink S _ v => S.creator = p ∧ v ≠ tmp ∧ Unbound (vars tmp)
  | .shmOpen S _ v => S.creator = p ∧ v ≠ tmp ∧ Unbound (vars tmp)
  | .create S _ v o pc => S.creator = p ∧ v ≠ tmp ∧ o < next ∧ pc.Stage S (objects o) ∧
      ∀ q, vars tmp = some q → pc.Tmp S.role o q
  | .cleanup .. => True
  | .attach _ role v o pc => v ≠ tmp ∧ (pc.passed → (objects o).ready = 1) ∧
      ∀ q, vars tmp = some q → pc.Tmp role o q
  | .openSegment _ v => v ≠ tmp ∧ Unbound (vars tmp)
  | .placing v => v ≠ tmp
  | .destroying v => v = tmp
  | .resetting v .keep => Unbound (vars v) ∧ vars tmp = none
  | .resetting v .drop => Unbound (vars v) ∧ (v ≠ tmp → vars tmp = none)
  | .resetting v (.swap u) => Unbound (vars v) ∧ v ≠ tmp ∧ (u ≠ tmp → vars tmp = none)

/-- The object that the call creates. -/
def Call.creates : Call → Option ℕ
  | .create _ _ _ o _ => some o
  | _ => none

/-- Where the call is with a claim of `role` of object `o`. -/
def Call.attempt (o : ℕ) (role : Role) : Call → Attempt ℤ
  | .create S _ _ o' (.binding b) => if o' = o ∧ S.role = role then b.attempt else .none
  | .attach _ role' _ o' (.binding b) => if o' = o ∧ role' = role then b.attempt else .none
  | _ => .none

/-- Zero-filled memory, but for the slots. -/
structure Object.Blank (o : Object T) : Prop where
  ready : o.ready = 0
  geometry : o.geometry = .zero
  writeIdx : o.ring.writeIdx = 0
  readIdx : o.ring.readIdx = 0
  pid : ∀ role, o.pid role = 0

/-- The temporary and the call after a step of `bind` that ended with `out`. -/
def Outcome.Leaves (q x : Queue) (more : BindPc → Call) (bound : Handle → Call) (call : Call)
    (thrown : Option Exception) : Outcome BindPc → Prop
  | .more b => x = q ∧ call = more b
  | .bound h => x = { q with bound := true } ∧ call = bound h
  | .threw e => x = q ∧ call = .destroying tmp ∧ thrown = some e

namespace World

/-- Process `p` has a handle bound to `role` of object `o`. -/
def Owns (w : World T) (p : ℤ) (o : ℕ) (role : Role) : Prop := HasBound (w.proc p).vars o role

/-- The slot of `role` of object `o`, and everybody's claim of it. -/
def seat (w : World T) (o : ℕ) (role : Role) : State ℤ where
  word := (w.objects o).pid role
  alive p := w.live p
  owns p := w.Owns p o role
  attempt p := (w.proc p).call.attempt o role

/-- Process `p` is where it can be. -/
def Fits (w : World T) (p : ℤ) : Prop :=
  (w.proc p).call.Fits w.objects w.nextObject p (w.proc p).vars

/-- Objects are blank until they are made, one process creates each of them, and every seat
is exclusive. -/
structure Inv (w : World T) : Prop where
  blank : ∀ o, w.nextObject ≤ o → (w.objects o).Blank
  fits : ∀ p, w.Fits p
  alone : ∀ p q o, (w.proc p).call.creates = some o → (w.proc q).call.creates = some o → p = q
  seat : ∀ o role, Exclusive (w.seat o role)

/-- What a step of process `p` can do to object `o` : nothing, a step of `create`, or a store
to a pid slot of a ready object or of one that is its own. -/
def Touched (w w' : World T) (p : ℤ) (o : ℕ) : Prop :=
  w'.objects o = w.objects o ∨ (w.proc p).call.creates = some o ∨
    ∃ role x, w'.objects o = (w.objects o).setPid role x ∧
      ((w.objects o).ready = 1 ∨ (w.objects o).pid role = p)

/-- What a step of process `p` leaves. -/
structure Kept (w w' : World T) (p : ℤ) : Prop where
  fits : w'.Fits p
  next : w.nextObject ≤ w'.nextObject
  objects : ∀ o, Touched w w' p o
  creates : ∀ o, (w'.proc p).call.creates = some o →
    (w.proc p).call.creates = some o ∨ w.nextObject ≤ o
  seats : ∀ o role, Relation.ReflGen Step (w.seat o role) (w'.seat o role)

end World

/-! ## Bound handles over a store to the variables -/

section Vars

variable {f : ℕ → Option Queue} {x : Option Queue} {u v o : ℕ} {role : Role}

theorem any_unbound (h : Unbound x) : x.any (fun q => q.boundTo o role) = false := by
  cases x with
  | none => rfl
  | some q => simp [Queue.boundTo, h q rfl]

theorem unbound_none : Unbound none := by
  simp [Unbound]

theorem unbound_null : Unbound (some .null) := by
  simp [Unbound, Queue.null]

/-- A handle that is not bound to the role is replaced by one that is not either. -/
theorem hasBound_update (hv : (f v).any (fun q => q.boundTo o role) = false)
    (hx : x.any (fun q => q.boundTo o role) = false) :
    HasBound (Function.update f v x) o role ↔ HasBound f o role := by
  refine exists_congr fun u => ?_
  by_cases hu : u = v
  · subst hu
    rw [Function.update_self, hv, hx]
  · rw [Function.update_of_ne hu]

/-- Two handles are swapped. -/
theorem hasBound_swap :
    HasBound (Function.update (Function.update f v (f u)) u (f v)) o role ↔
      HasBound f o role := by
  rw [← Equiv.comp_swap_eq_update u v f]
  exact ((Equiv.swap u v).surjective.exists (p := fun v =>
    (f v).any fun q => q.boundTo o role)).symm

/-- A handle is moved over an unbound one, and leaves an unbound one behind. -/
theorem hasBound_move (hv : Unbound (f v)) (hx : Unbound x) :
    HasBound (Function.update (Function.update f v (f u)) u x) o role ↔
      HasBound f o role := by
  have hswap : Function.update (Function.update f v (f u)) u x =
      Function.update (Function.update (Function.update f v (f u)) u (f v)) u x := by
    rw [Function.update_idem]
  rw [hswap]
  refine (hasBound_update ?_ (any_unbound hx)).trans hasBound_swap
  rw [Function.update_self]
  exact any_unbound hv

end Vars

namespace World

variable {w w' : World T} {a : WorldAct} {p q : ℤ} {u v o : ℕ} {role : Role} {c : Call}
  {f : ℕ → Option Queue}

/-- One process creates each object, also after a step of `p` that goes on with its own object
or starts on a new one. -/
theorem alone_of_creates (hothers : ∀ q, q ≠ p → w'.proc q = w.proc q)
    (hlt : ∀ q o, (w.proc q).call.creates = some o → o < w.nextObject)
    (halone : ∀ q r o, (w.proc q).call.creates = some o → (w.proc r).call.creates = some o → q = r)
    (hcreates : ∀ o, (w'.proc p).call.creates = some o →
      (w.proc p).call.creates = some o ∨ w.nextObject ≤ o) (q r : ℤ) (o : ℕ)
    (hq : (w'.proc q).call.creates = some o) (hr : (w'.proc r).call.creates = some o) : q = r := by
  -- whoever else creates an object did so before
  have other {q : ℤ} (hqp : q ≠ p) (hself : (w'.proc p).call.creates = some o)
      (hq : (w'.proc q).call.creates = some o) : p = q := by
    rw [hothers q hqp] at hq
    rcases hcreates o hself with hold | hnew
    · exact halone p q o hold hq
    · exact absurd (hlt q o hq) (by omega)
  by_cases hqp : q = p
  · subst hqp
    by_cases hrq : r = q
    · exact hrq.symm
    · exact other hrq hq hr
  · by_cases hrp : r = p
    · subst hrp
      exact (other hqp hr hq).symm
    · rw [hothers q hqp] at hq
      rw [hothers r hrp] at hr
      exact halone q r o hq hr

/-! ## The seats after a step -/

/-- The step is one of process `p`. -/
structure Frame (w w' : World T) (p : ℤ) : Prop where
  dead : w'.dead = w.dead
  others : ∀ q, q ≠ p → w'.proc q = w.proc q

theorem seat_eq (hframe : Frame w w' p) : w'.seat o role =
    { word := (w'.objects o).pid role
      alive := (w.seat o role).alive
      owns := Function.update (w.seat o role).owns p (w'.Owns p o role)
      attempt := Function.update (w.seat o role).attempt p
        ((w'.proc p).call.attempt o role) } := by
  simp only [seat, live, hframe.dead, State.mk.injEq, true_and]
  constructor
  · funext q
    by_cases hq : q = p
    · subst hq
      rw [Function.update_self]
    · rw [Function.update_of_ne hq, Owns, hframe.others q hq]
      rfl
  · funext q
    by_cases hq : q = p
    · subst hq
      rw [Function.update_self]
    · rw [Function.update_of_ne hq, hframe.others q hq]

/-- The slot is the same, and so are the owners. -/
theorem seat_try (hframe : Frame w w' p) (hpid : (w'.objects o).pid role = (w.objects o).pid role)
    (howns : w'.Owns p o role ↔ w.Owns p o role) :
    w'.seat o role = (w.seat o role).try p ((w'.proc p).call.attempt o role) := by
  have hsame : Function.update (w.seat o role).owns p (w'.Owns p o role) =
      (w.seat o role).owns := by
    rw [propext howns]
    exact Function.update_eq_self p _
  rw [seat_eq hframe, hsame, hpid]
  rfl

/-- Process `p` is not trying, and owns the seat if and only if `b`. -/
theorem seat_own (hframe : Frame w w' p) {b : Prop} (howns : w'.Owns p o role ↔ b)
    (hattempt : (w'.proc p).call.attempt o role = .none) :
    w'.seat o role =
      { w.seat o role with word := (w'.objects o).pid role }.own p b := by
  rw [seat_eq hframe, propext howns, hattempt]
  rfl

/-- Neither the slot nor the owners change, and process `p` is not trying. -/
theorem seat_quiet (hframe : Frame w w' p)
    (hpid : (w'.objects o).pid role = (w.objects o).pid role)
    (howns : w'.Owns p o role ↔ w.Owns p o role)
    (hattempt : (w'.proc p).call.attempt o role = .none) :
    Relation.ReflGen Step (w.seat o role) (w'.seat o role) := by
  rw [seat_try hframe hpid howns, hattempt]
  exact .single .abandon

/-! ## What each step leaves -/

/-- A step that stores to no object and neither takes nor gives up a role. -/
theorem Kept.quiet (hcall : (w'.proc p).call = c) (hvars : (w'.proc p).vars = f)
    (hframe : Frame w w' p) (hobjects : w'.objects = w.objects)
    (hnext : w.nextObject ≤ w'.nextObject) (hfits : c.Fits w.objects w'.nextObject p f)
    (hbound : ∀ o role, HasBound f o role ↔ w.Owns p o role)
    (hattempt : ∀ o role, c.attempt o role = .none)
    (hcreates : ∀ o, c.creates = some o →
      (w.proc p).call.creates = some o ∨ w.nextObject ≤ o) : Kept w w' p where
  fits := by
    rw [Fits, hcall, hvars, hobjects]
    exact hfits
  next := hnext
  objects o := .inl (congrFun hobjects o)
  creates o ho := hcreates o (hcall ▸ ho)
  seats o role := by
    refine seat_quiet hframe (by rw [hobjects]) ?_ (hcall ▸ hattempt o role)
    rw [Owns, hvars]
    exact hbound o role

/-! ### Releasing -/

/-- The slots after the compare-exchange of `detach`. -/
theorem pid_clearPid {h : Queue} : ((w.clearPid p h).objects o).pid role =
    if h.boundTo o role ∧ (w.objects o).pid role = p then -1 else (w.objects o).pid role := by
  unfold clearPid
  cases hctrl : h.ctrl with
  | none => simp [Queue.boundTo, hctrl]
  | some m =>
    by_cases hbound : h.boundTo o role
    · simp only [Queue.boundTo, hctrl, Option.map_some, Bool.and_eq_true, beq_iff_eq,
        Option.some.injEq] at hbound
      obtain ⟨hb, rfl, rfl⟩ := hbound
      by_cases hpid : (w.objects m.object).pid h.role = p
      · simp [hb, hpid, hctrl, Queue.boundTo, setObject]
      · simp [hpid]
    · rw [if_neg fun hand => hbound hand.1]
      dsimp only
      split_ifs with hclear
      · by_cases ho : o = m.object
        · subst ho
          have hrole : role ≠ h.role := by
            rintro rfl
            simp [Queue.boundTo, hctrl, hclear.1] at hbound
          simp [setObject, Object.pid_setPid_of_ne _ _ hrole]
        · simp [setObject, ho]
      · rfl

theorem touched_clearPid {h : Queue} : Touched w (w.clearPid p h) p o := by
  unfold clearPid
  split
  next m _ =>
    split_ifs with hclear
    · by_cases ho : o = m.object
      · subst ho
        exact .inr (.inr ⟨h.role, -1, by simp [setObject], .inr hclear.2⟩)
      · exact .inl (by simp [setObject, ho])
    · exact .inl rfl
  next => exact .inl rfl

/-- `detach()` up to `seg_.reset()`, of a handle that is the only one bound to its role. -/
theorem kept_release {next : Next} (h : w.release p v next = some w')
    (hfits : ∀ (objects : ℕ → Object T) (x : Option Queue), Unbound x →
      (Call.resetting v next).Fits objects w.nextObject p
        (Function.update (w.proc p).vars v x))
    (sole : ∀ o role, w.holds p v o role → ∀ u, u ≠ v → w.holds p u o role = false) :
    Kept w w' p := by
  have hothers : ∀ q, q ≠ p → w'.proc q = w.proc q := fun q hq => proc_release hq h
  unfold release at h
  split at h
  next q hq =>
    cases h
    have hvar : (w.proc p).vars v = some q := hq
    have hframe := Frame.mk (p := p) (w := w) (by exact dead_clearPid) hothers
    have hreleased : Unbound (some q.released) := by
      simp [Unbound, Queue.released]
    refine ⟨?_, nextObject_clearPid.ge, fun o => touched_clearPid, by simp [Call.creates],
      fun o role => ?_⟩
    · rw [Fits, call_goto, vars_goto, vars_setVar, proc_clearPid]
      exact nextObject_clearPid (w := w) ▸ hfits _ _ hreleased
    · by_cases hbound : q.boundTo o role
      -- the seat of the handle : no other handle of `p` keeps it
      · have hfree : ¬(w.seat o role).alive (-1) := by
          simp [seat, live]
        have hown : ¬Owns (((w.clearPid p q).setVar p v (some q.released)).goto p
            (.resetting v next)) p o role := by
          rw [Owns, vars_goto, vars_setVar, proc_clearPid]
          rintro ⟨u, hu⟩
          by_cases huv : u = v
          · subst huv
            rw [Function.update_self, any_unbound hreleased] at hu
            cases hu
          · rw [Function.update_of_ne huv] at hu
            have hu : w.holds p u o role = true := hu
            rw [sole o role (by simpa [holds, hq] using hbound) u huv] at hu
            cases hu
        rw [seat_own hframe (iff_false_intro hown) (by simp [Call.attempt])]
        have hword : ((w.clearPid p q).objects o).pid role =
            if (w.seat o role).word = p then -1 else (w.seat o role).word := by
          rw [pid_clearPid]
          simp only [hbound, true_and]
          rfl
        refine .single ?_
        have hstep := Step.release (σ := w.seat o role) (p := p) hfree
        rw [← hword] at hstep
        exact hstep
      · refine seat_quiet hframe ?_ ?_ (by simp [Call.attempt])
        · exact pid_clearPid.trans (if_neg fun hand => hbound hand.1)
        · rw [Owns, Owns, vars_goto, vars_setVar, proc_clearPid]
          exact hasBound_update (by simpa [hvar] using hbound) (any_unbound hreleased)
  next => cases h

/-! ### Binding -/

section Bind

variable {b : BindPc} {ans : Answers} {more : BindPc → Call} {bound : Handle → Call} {h : Queue}

/-- What a step of `bind` on the temporary changes. -/
theorem bindStep_cases (hstep : w.bindStep p role o b ans more bound = some w') :
    ∃ h x, (w.proc p).vars tmp = some h ∧ Frame w w' p ∧ w'.nextObject = w.nextObject ∧
      w'.objects = Function.update w.objects o (ShmSpsc.bindStep role p (w.objects o) ans b).1 ∧
      (w'.proc p).vars = Function.update (w.proc p).vars tmp (some x) ∧
      (ShmSpsc.bindStep role p (w.objects o) ans b).2.Leaves (h.assign role (w.objects o) b) x
        more bound (w'.proc p).call (w'.proc p).thrown := by
  have hothers : ∀ q, q ≠ p → w'.proc q = w.proc q := fun q hq => proc_bindStep hq hstep
  unfold bindStep at hstep
  split at hstep
  next h hvar =>
    cases hstep
    generalize (ShmSpsc.bindStep role p (w.objects o) ans b).2 = out at hothers ⊢
    cases out with
    | more b' =>
      refine ⟨h, h.assign role (w.objects o) b, hvar, ⟨rfl, hothers⟩, rfl, rfl, ?_, rfl, ?_⟩
      · rw [vars_goto, vars_setVar]
        rfl
      · exact call_goto
    | bound handle =>
      refine ⟨h, { h.assign role (w.objects o) b with bound := true }, hvar, ⟨rfl, hothers⟩, rfl,
        rfl, ?_, rfl, ?_⟩
      · rw [vars_goto, vars_setVar]
        rfl
      · exact call_goto
    | threw e =>
      refine ⟨h, h.assign role (w.objects o) b, hvar, ⟨rfl, hothers⟩, rfl, rfl, ?_, rfl, ?_, ?_⟩
      · rw [vars_throw, vars_setVar]
        rfl
      · exact call_throw
      · simp [throw]
  next => cases hstep

/-- The members that `bind` assigns. -/
theorem Binding.assign (object : Object T) (hb : h.Binding role o b) :
    (h.assign role object b).bound = false ∧
      (h.assign role object b).ctrl.map Mapping.object = some o ∧
      (h.assign role object b).role = role := by
  obtain ⟨hbound, hctrl, hrole⟩ := hb
  cases b with
  | loadCapacity => exact ⟨hbound, hctrl, rfl⟩
  | _ => exact ⟨hbound, hctrl, hrole.resolve_left (by simp)⟩

/-- Every seat after a step of `bind`. -/
theorem seats_bindStep (hlive : w.live p) (hadm : w.admits ans b.probed)
    (htmp : ∀ q, (w.proc p).vars tmp = some q → q.Binding role o b)
    (hcall : ∀ o' role', (w.proc p).call.attempt o' role' =
      if o = o' ∧ role = role' then b.attempt else .none)
    (hmore : ∀ b' o' role', (more b').attempt o' role' =
      if o = o' ∧ role = role' then b'.attempt else .none)
    (hbound : ∀ handle o' role', (bound handle).attempt o' role' = .none)
    (hstep : w.bindStep p role o b ans more bound = some w') (o' : ℕ) (role' : Role) :
    Relation.ReflGen Step (w.seat o' role') (w'.seat o' role') := by
  obtain ⟨h, x, hvar, hframe, -, hobjects, hvars, hleaves⟩ := bindStep_cases hstep
  obtain ⟨hfree, hctrl, hrole⟩ := Binding.assign (w.objects o) (htmp h hvar)
  have hold : Unbound ((w.proc p).vars tmp) := by
    rw [hvar]
    rintro q ⟨⟩
    exact (htmp h hvar).bound
  generalize h.assign role (w.objects o) b = q at hfree hctrl hrole hleaves
  -- a temporary that is still unbound owns no seat
  have hsame (hx : x = q) : w'.Owns p o' role' ↔ w.Owns p o' role' := by
    rw [Owns, hvars, hx]
    refine hasBound_update (any_unbound hold) (any_unbound ?_)
    rintro q' ⟨⟩
    exact hfree
  by_cases hseat : o = o' ∧ role = role'
  · obtain ⟨rfl, rfl⟩ := hseat
    have hat : (w.seat o role).attempt p = b.attempt := (hcall o role).trans (if_pos ⟨rfl, rfl⟩)
    have hword := step_bindStep (o := w.objects o) ans hlive rfl hat
      fun e hprobed he => ⟨pos_of_live he, processAlive_of_live (hprobed ▸ hadm) he⟩
    have hkeep := bindStep_unbound role p (w.objects o) ans b
    have hpid : w'.objects o = (ShmSpsc.bindStep role p (w.objects o) ans b).1 := by
      rw [hobjects, Function.update_self]
    generalize ShmSpsc.bindStep role p (w.objects o) ans b = out at hleaves hword hkeep hpid
    obtain ⟨object, out⟩ := out
    refine .single ?_
    cases out with
    | more b' =>
      obtain rfl : object = w.objects o := hkeep (by simp)
      obtain ⟨hx, hcall'⟩ := hleaves
      rw [seat_try hframe (by rw [hpid]) (hsame hx), hcall', hmore, if_pos ⟨rfl, rfl⟩]
      exact hword
    | bound handle =>
      obtain ⟨rfl, hcall'⟩ := hleaves
      have hown : w'.Owns p o role := by
        rw [Owns, hvars]
        exact ⟨tmp, by simp [Queue.boundTo, hctrl, hrole]⟩
      rw [seat_own hframe (iff_true_intro hown) (by rw [hcall', hbound]), hpid]
      exact hword
    | threw e =>
      obtain rfl : object = w.objects o := hkeep (by simp)
      obtain ⟨hx, hcall', -⟩ := hleaves
      rw [seat_try hframe (by rw [hpid]) (hsame hx), hcall']
      exact hword
  · -- neither the slot nor the ownership of another seat
    have hpid : (w'.objects o').pid role' = (w.objects o').pid role' := by
      rw [hobjects]
      by_cases ho : o' = o
      · subst ho
        rw [Function.update_self]
        exact pid_bindStep_of_ne fun hrole => hseat ⟨rfl, hrole.symm⟩
      · rw [Function.update_of_ne ho]
    cases hout : (ShmSpsc.bindStep role p (w.objects o) ans b).2 with
    | more b' =>
      rw [hout] at hleaves
      refine seat_quiet hframe hpid (hsame hleaves.1) ?_
      rw [hleaves.2, hmore, if_neg hseat]
    | bound handle =>
      rw [hout] at hleaves
      refine seat_quiet hframe hpid ?_ (by rw [hleaves.2, hbound])
      rw [Owns, hvars, hleaves.1]
      refine hasBound_update (any_unbound hold) ?_
      have hne : (role == role' && some o == some o') = false := by
        rw [← Bool.not_eq_true]
        simpa [and_comm] using hseat
      simp only [Option.any_some, Queue.boundTo, hctrl, hrole, hne, Bool.and_false]
    | threw e =>
      rw [hout] at hleaves
      refine seat_quiet hframe hpid (hsame hleaves.1) ?_
      rw [hleaves.2.1]
      rfl

/-- The temporary after a step of `bind` that goes on. -/
theorem binding_of_more {b' : BindPc} {x : Queue} (hb : h.Binding role o b)
    (hx : x = h.assign role (w.objects o) b) : x.Binding role o b' := by
  obtain ⟨hfree, hctrl, hrole⟩ := Binding.assign (w.objects o) hb
  exact hx ▸ ⟨hfree, hctrl, .inr hrole⟩

/-- A step of `bind` in `create`. -/
theorem kept_bind_create {S : Setup} {whole : Bool}
    (hcall : (w.proc p).call = .create S whole v o (.binding b)) (hfits : w.Fits p)
    (hlive : w.live p) (hadm : w.admits ans b.probed)
    (hstep : w.createStep p S whole v o ans (.binding b) = some w') : Kept w w' p := by
  rw [Fits, hcall] at hfits
  obtain ⟨rfl, hv, ho, hstage, htmp⟩ := hfits
  obtain ⟨h, x, hvar, hframe, hnext, hobjects, hvars, hleaves⟩ := bindStep_cases hstep
  have hobject : w'.objects o = (ShmSpsc.createStep S (w.objects o) ans (.binding b)).1 := by
    rw [hobjects, Function.update_self, ShmSpsc.createStep]
    split <;> simp [*]
  have hcreated := createStep_stage ans hstage
  refine ⟨?_, hnext.ge, fun o' => ?_, fun o' ho' => .inl ?_, ?_⟩
  · rw [← hobject] at hcreated
    rw [Fits, hvars, hnext]
    simp only [ShmSpsc.createStep] at hcreated
    generalize ShmSpsc.bindStep S.role S.creator (w.objects o) ans b = out at hcreated hleaves
    obtain ⟨object, out⟩ := out
    cases out with
    | more b' =>
      obtain ⟨hx, hcall'⟩ := hleaves
      rw [hcall']
      refine ⟨rfl, hv, ho, hcreated, ?_⟩
      rw [Function.update_self]
      rintro q ⟨⟩
      exact binding_of_more (htmp h hvar) hx
    | bound handle =>
      rw [hleaves.2]
      exact ⟨rfl, hv, ho, hcreated, fun _ _ => trivial⟩
    | threw e =>
      rw [hleaves.2.1]
      rfl
  · by_cases ho' : o' = o
    · subst ho'
      exact .inr (.inl (by rw [hcall]; rfl))
    · exact .inl (by rw [hobjects, Function.update_of_ne ho'])
  · rw [hcall, ← ho']
    cases hout : (ShmSpsc.bindStep S.role S.creator (w.objects o) ans b).2 with
    | more b' =>
      rw [hout] at hleaves
      rw [hleaves.2]
      rfl
    | bound handle =>
      rw [hout] at hleaves
      rw [hleaves.2]
      rfl
    | threw e =>
      rw [hout] at hleaves
      simp [hleaves.2.1, Call.creates] at ho'
  · exact seats_bindStep hlive hadm htmp (fun _ _ => by rw [hcall]; rfl) (fun _ _ _ => rfl)
      (fun _ _ _ => rfl) hstep

/-- A step of `bind` in `attach`. -/
theorem kept_bind_attach {name : String}
    (hcall : (w.proc p).call = .attach name role v o (.binding b)) (hfits : w.Fits p)
    (hlive : w.live p) (hadm : w.admits ans b.probed)
    (hstep : w.attachStep p name role v o ans (.binding b) = some w') : Kept w w' p := by
  rw [Fits, hcall] at hfits
  obtain ⟨hv, hready, htmp⟩ := hfits
  have hready : (w.objects o).ready = 1 := hready rfl
  obtain ⟨h, x, hvar, hframe, hnext, hobjects, hvars, hleaves⟩ := bindStep_cases hstep
  have hready' : (w'.objects o).ready = 1 := by
    rw [hobjects, Function.update_self, (bindStep_frame role p (w.objects o) ans b).1, hready]
  have hseats := seats_bindStep hlive hadm htmp (fun _ _ => by rw [hcall]; rfl)
    (fun _ _ _ => rfl) (fun _ _ _ => rfl) hstep
  have htouched : ∀ o', Touched w w' p o' := by
    intro o'
    by_cases ho' : o' = o
    · subst ho'
      rw [Touched, hobjects, Function.update_self]
      rcases bindStep_object role p (w.objects o') ans b with heq | heq
      · exact .inl heq
      · exact .inr (.inr ⟨role, p, heq, .inl hready⟩)
    · exact .inl (by rw [hobjects, Function.update_of_ne ho'])
  cases hout : (ShmSpsc.bindStep role p (w.objects o) ans b).2 with
  | more b' =>
    rw [hout] at hleaves
    obtain ⟨hx, hcall'⟩ := hleaves
    refine ⟨?_, hnext.ge, htouched, by simp [hcall', Call.creates], hseats⟩
    rw [Fits, hvars, hcall']
    refine ⟨hv, fun _ => hready', ?_⟩
    rw [Function.update_self]
    rintro q ⟨⟩
    exact binding_of_more (htmp h hvar) hx
  | bound handle =>
    rw [hout] at hleaves
    refine ⟨?_, hnext.ge, htouched, by simp [hleaves.2, Call.creates], hseats⟩
    rw [Fits, hleaves.2]
    exact hv
  | threw e =>
    rw [hout] at hleaves
    refine ⟨?_, hnext.ge, htouched, by simp [hleaves.2.1, Call.creates], hseats⟩
    rw [Fits, hleaves.2.1]
    rfl

end Bind

end World

end ShmSpsc
