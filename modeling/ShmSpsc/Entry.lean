import ShmSpsc.Handles

/-!
# A call of `create`

`create(name, capacity, role)` from its arguments on : the capacity is clamped, `bytesNeeded`
computes the size that is passed to `ShmSegment::create`, and its arguments are checked before
its first system call, which unlinks the name. An exception on the way leaves through the
destructor of the local queue. `World.enter` is a step of a process that may be such a call;
from `shm_unlink` on the call is that of `World.step`.

`World.Counts` is what a step does to the slot counts in the control blocks. Along every run a
slot count that `create` has stored is there (`World.countInv_of_reachable`) and stays
(`World.fixed_of_reachable`).
-/

namespace ShmSpsc

open Transition

variable {T : Type*}

/-! ## A call of `create` -/

/-- The arguments of `create(name, capacity, role)` in a binary with the given layout, and the
answers of its system calls. -/
structure Request where
  layout : Layout
  name : String
  capacity : UInt64
  role : Role
  calls : CreateCalls

namespace Request

/-- The size of the segment over the unbounded integers. -/
def exactBytes (R : Request) : ℕ :=
  R.layout.controlBlockSize.toNat + (max 1 R.capacity.toNat + 1) * R.layout.elemSize.toNat

/-- The size that `create` passes to `ShmSegment::create`. -/
def segmentBytes (R : Request) : Except Exception UInt64 :=
  bytesNeeded R.layout (clampCapacity R.capacity)

/-- `ShmSegment::create(name, bytes)` before its first system call. -/
def checkArguments (R : Request) (bytes : UInt64) : Except Exception Unit := do
  validateName R.name
  throwIf (bytes = 0) (.invalidArgument "ShmSegment::create: bytes must be > 0")

theorem named_of_checkArguments {R : Request} {bytes : UInt64} {u : Unit}
    (h : R.checkArguments bytes = .ok u) : validateName R.name = .ok () := by
  rw [checkArguments, bind_eq_ok] at h
  obtain ⟨⟨⟩, hname, -⟩ := h
  exact hname

/-- `create` up to the first system call, in process `p`. -/
def setup (R : Request) (p : ℤ) (hp : 0 < p) : Except Exception Setup :=
  match needed : R.segmentBytes with
  | .error e => .error e
  | .ok bytes =>
    match checked : R.checkArguments bytes with
    | .error e => .error e
    | .ok () => .ok
      { layout := R.layout, name := R.name, requested := R.capacity, bytes := bytes,
        calls := R.calls, role := R.role, creator := p, needed := needed, creator_pos := hp,
        named := named_of_checkArguments checked }

end Request

/-- A call of `create` for variable `v` of process `p`, or any other action. -/
inductive EntryAct where
  | create (p : ℤ) (v : ℕ) (R : Request)
  | act (a : WorldAct)

/-- The process that takes the action. -/
def EntryAct.pid : EntryAct → ℤ
  | .create p _ _ => p
  | .act a => a.pid

/-- The action starts a call. -/
def EntryAct.begins : EntryAct → Bool
  | .act (.step ..) => false
  | .act (.die _) => false
  | _ => true

/-- The action starts no call of process `p` : its current one goes on. -/
def EntryAct.during (p : ℤ) (a : EntryAct) : Bool := !(a.pid == p && a.begins)

namespace World

/-- The local queue of `create` is constructed, and nothing has been thrown yet. -/
def beginCreate (w : World T) (p : ℤ) : World T :=
  w.setProc p { w.proc p with vars := Function.update (w.proc p).vars tmp (some .null),
                              thrown := none }

/-- Process `p` calls `create` for its variable `v`. -/
def request (w : World T) (p : ℤ) (v : ℕ) (R : Request) : Option (World T) :=
  if h : w.live p ∧ (w.proc p).call.isIdle ∧ v ≠ tmp then
    match R.setup p (pos_of_live h.1) with
    | .error e => some ((w.beginCreate p).throw p e (.destroying tmp))
    | .ok S => some ((w.beginCreate p).goto p (.unlink S true v))
  else none

/-- One step. -/
def enter (w : World T) : EntryAct → Option (World T)
  | .create p v R => w.request p v R
  | .act a => w.step a

end World

/-! ## The stored slot count -/

/-- `create` has stored the slot count. -/
def CreatePc.counted : CreatePc → Bool
  | .slotsOffset => true
  | .totalBytes => true
  | .writeIdx => true
  | .readIdx => true
  | .binding _ => true
  | .ready _ => true
  | _ => false

/-- The object whose slot count the call has still to store. -/
def Call.counting : Call → Option ℕ
  | .create _ _ _ o pc => if pc.counted then none else some o
  | _ => none

/-- The object whose slot count the call has stored, and that count. -/
def Call.counted : Call → Option (ℕ × UInt64)
  | .create S _ _ o pc => if pc.counted then some (o, clampCapacity S.requested + 1) else none
  | _ => none

theorem creates_of_counting {c : Call} {o : ℕ} (h : c.counting = some o) : c.creates = some o := by
  cases c with
  | create S whole v o' pc =>
    simp only [Call.counting] at h
    split_ifs at h
    exact h
  | _ => cases h

theorem creates_of_counted {c : Call} {o : ℕ} {n : UInt64} (h : c.counted = some (o, n)) :
    c.creates = some o ∧ c.counting ≠ some o := by
  cases c with
  | create S whole v o' pc =>
    simp only [Call.counted] at h
    split_ifs at h with hpc
    simp only [Option.some.injEq, Prod.mk.injEq] at h
    exact ⟨congrArg some h.1, by simp [Call.counting, hpc]⟩
  | _ => cases h

/-- The stores of `create` to the slot count, and the exceptions it throws. -/
theorem createStep_counts (S : Setup) (o : Object T) (ans : Answers) {pc : CreatePc}
    (hpc : ∀ b, pc ≠ .binding b) :
    (pc.counted → (createStep S o ans pc).1.geometry.capacity = o.geometry.capacity) ∧
      ∀ pc', (createStep S o ans pc).2 = .more pc' →
        (pc.counted → pc'.counted) ∧ (pc'.counted → pc.counted ∨
          (createStep S o ans pc).1.geometry.capacity = clampCapacity S.requested + 1) := by
  cases pc with
  | binding b => exact absurd rfl (hpc b)
  | ftruncate =>
    refine ⟨by simp [CreatePc.counted], fun pc' h => ?_⟩
    simp only [createStep] at h
    split at h <;> cases h
    exact ⟨fun h => h, by simp [CreatePc.counted]⟩
  | mmap =>
    refine ⟨by simp [CreatePc.counted], fun pc' h => ?_⟩
    simp only [createStep] at h
    split at h <;> cases h
    exact ⟨fun h => h, by simp [CreatePc.counted]⟩
  | capacity =>
    refine ⟨by simp [CreatePc.counted], fun pc' h => ?_⟩
    cases h
    exact ⟨fun _ => rfl, fun _ => .inr rfl⟩
  | ready handle =>
    refine ⟨fun _ => rfl, fun pc' h => ?_⟩
    cases h
  | _ =>
    refine ⟨fun h => ?_, fun pc' h => ?_⟩
    · first | rfl | cases h
    · cases h
      exact ⟨fun h => h, fun h => .inl h⟩

namespace World

/-- What a step of process `p` does to the slot counts of the objects. -/
structure Counts (w w' : World T) (p : ℤ) : Prop where
  others : ∀ q, q ≠ p → w'.proc q = w.proc q
  next : w.nextObject ≤ w'.nextObject
  creates : ∀ o, (w'.proc p).call.creates = some o →
    (w.proc p).call.creates = some o ∨ w.nextObject ≤ o ∧ o < w'.nextObject
  counting : ∀ o, (w'.proc p).call.counting = some o →
    (w.proc p).call.counting = some o ∨ w.nextObject ≤ o
  counted : ∀ o n, (w'.proc p).call.counted = some (o, n) →
    (w.proc p).call.counted = some (o, n) ∨ (w'.objects o).geometry.capacity = n
  capacity : ∀ o, (w.proc p).call.counting ≠ some o →
    (w'.objects o).geometry.capacity = (w.objects o).geometry.capacity

variable {w w' : World T} {a : WorldAct} {p q : ℤ} {v o : ℕ} {ans : Answers}

namespace Counts

/-- A step that creates nothing any more. -/
theorem quiet (hothers : ∀ q, q ≠ p → w'.proc q = w.proc q)
    (hcapacity : ∀ o, (w.proc p).call.counting ≠ some o →
      (w'.objects o).geometry.capacity = (w.objects o).geometry.capacity)
    (hnext : w'.nextObject = w.nextObject) (hcreates : (w'.proc p).call.creates = none) :
    Counts w w' p where
  others := hothers
  next := hnext.ge
  creates o h := by
    rw [h] at hcreates
    cases hcreates
  counting o h := by
    rw [creates_of_counting h] at hcreates
    cases hcreates
  counted o n h := by
    rw [(creates_of_counted h).1] at hcreates
    cases hcreates
  capacity := hcapacity

/-- A step that stores to no object, and creates nothing any more. -/
theorem still (hothers : ∀ q, q ≠ p → w'.proc q = w.proc q) (hobjects : w'.objects = w.objects)
    (hnext : w'.nextObject = w.nextObject) (hcreates : (w'.proc p).call.creates = none) :
    Counts w w' p :=
  quiet hothers (fun o _ => by rw [hobjects]) hnext hcreates

/-- A step of `create` that leaves its object as it is, and stays before or behind the store of
the slot count. -/
theorem along {S : Setup} {whole : Bool} {pc pc' : CreatePc}
    (hothers : ∀ q, q ≠ p → w'.proc q = w.proc q)
    (hcapacity : ∀ o, (w'.objects o).geometry.capacity = (w.objects o).geometry.capacity)
    (hnext : w'.nextObject = w.nextObject) (hcall : (w.proc p).call = .create S whole v o pc)
    (hcall' : (w'.proc p).call = .create S whole v o pc') (hpc : pc'.counted = pc.counted) :
    Counts w w' p where
  others := hothers
  next := hnext.ge
  creates o' h := by
    rw [hcall'] at h
    rw [hcall]
    exact .inl h
  counting o' h := by
    rw [hcall', Call.counting, hpc] at h
    rw [hcall]
    exact .inl h
  counted o' n h := by
    rw [hcall', Call.counted, hpc] at h
    rw [hcall]
    exact .inl h
  capacity o' _ := hcapacity o'

theorem release {next : Next} (h : w.release p v next = some w') : Counts w w' p := by
  have hothers : ∀ q, q ≠ p → w'.proc q = w.proc q := fun q hq => proc_release hq h
  obtain ⟨x, -, rfl⟩ := release_eq h
  refine quiet hothers (fun o _ => ?_) nextObject_clearPid (by simp [Call.creates])
  exact congrArg Geometry.capacity (clearPid_frame x o).1

theorem reset {next : Next} (hothers : ∀ q, q ≠ p → w'.proc q = w.proc q)
    (h : w.reset p v next = some w') : Counts w w' p := by
  unfold World.reset at h
  split at h
  next x _ =>
    obtain ⟨hobjects, hnext, -⟩ := resetSegment_frame w x.seg
    cases next with
    | swap u =>
      cases h
      refine still hothers hobjects hnext ?_
      rw [call_goto]
      split_ifs <;> rfl
    | _ =>
      cases h
      exact still hothers hobjects hnext (by simp [Call.creates])
  next => cases h

theorem bindStep {role : Role} {b : BindPc} {more : BindPc → Call} {bound : Handle → Call}
    (h : w.bindStep p role o b ans more bound = some w') :
    (∀ o', (w'.objects o').geometry.capacity = (w.objects o').geometry.capacity) ∧
      w'.nextObject = w.nextObject ∧ ((∃ b', (w'.proc p).call = more b') ∨
        (∃ handle, (w'.proc p).call = bound handle) ∨ (w'.proc p).call = .destroying tmp) := by
  obtain ⟨_, _, -, -, hnext, hobjects, -, hleaves⟩ := bindStep_cases h
  refine ⟨fun o' => ?_, hnext, ?_⟩
  · rw [hobjects]
    by_cases ho : o' = o
    · subst ho
      rw [Function.update_self]
      rcases bindStep_object role p (w.objects o') ans b with heq | heq <;> simp [heq]
    · rw [Function.update_of_ne ho]
  · generalize (ShmSpsc.bindStep role p (w.objects o) ans b).2 = out at hleaves
    cases out with
    | more b' => exact .inl ⟨b', hleaves.2⟩
    | bound handle => exact .inr (.inl ⟨handle, hleaves.2⟩)
    | threw e => exact .inr (.inr hleaves.2.1)

/-- A system call or a store of `create`. -/
theorem storeStep {S : Setup} {whole : Bool} {pc : CreatePc} (hpc : ∀ b, pc ≠ .binding b)
    (hcall : (w.proc p).call = .create S whole v o pc) :
    Counts w (w.storeStep p S whole v o ans pc) p := by
  obtain ⟨hkept, hmore⟩ := createStep_counts S (w.objects o) ans hpc
  unfold World.storeStep
  dsimp only
  generalize ShmSpsc.createStep S (w.objects o) ans pc = out at hkept hmore
  obtain ⟨object, out⟩ := out
  have hcapacity (x : Proc) (o' : ℕ) (ho' : (w.proc p).call.counting ≠ some o') :
      (((w.setObject o object).setProc p x).objects o').geometry.capacity =
        (w.objects o').geometry.capacity := by
    by_cases ho : o' = o
    · subst ho
      have hcounted : pc.counted := by
        by_contra hnot
        exact ho' (by rw [hcall, Call.counting, if_neg hnot])
      simpa [setObject, setProc] using hkept hcounted
    · simp [setObject, setProc, ho]
  cases out with
  | more pc' =>
    obtain ⟨hon, hstore⟩ := hmore pc' rfl
    refine ⟨fun q hq => proc_setProc_of_ne hq, le_rfl, fun o' h => ?_, fun o' h => ?_,
      fun o' n h => ?_, hcapacity _⟩
    · rw [call_goto] at h
      rw [hcall]
      exact .inl h
    · rw [call_goto, Call.counting] at h
      rw [hcall, Call.counting]
      split_ifs at h with hpc'
      exact .inl (by rw [if_neg fun hc => hpc' (hon hc), h])
    · rw [call_goto, Call.counted] at h
      rw [hcall, Call.counted]
      split_ifs at h with hpc'
      simp only [Option.some.injEq, Prod.mk.injEq] at h
      obtain ⟨rfl, rfl⟩ := h
      rcases hstore hpc' with hold | hnew
      · exact .inl (if_pos hold)
      · exact .inr (by simpa [setObject, goto, setProc] using hnew)
  | bound handle =>
    exact quiet (fun q hq => proc_setProc_of_ne hq) (hcapacity _) rfl (by simp [Call.creates])
  | threw e =>
    exact quiet (fun q hq => proc_setProc_of_ne hq) (hcapacity _) rfl (by simp [Call.creates])

end Counts

theorem counts_createStep {S : Setup} {whole : Bool} {pc : CreatePc}
    (hothers : ∀ q, q ≠ p → w'.proc q = w.proc q)
    (hcall : (w.proc p).call = .create S whole v o pc)
    (h : w.createStep p S whole v o ans pc = some w') : Counts w w' p := by
  cases pc with
  | mmap =>
    simp only [createStep] at h
    split at h
    · cases h
      exact .still hothers rfl rfl (by simp [Call.creates])
    next x _ _ =>
      cases h
      obtain ⟨hobjects, hnext, -⟩ := resetSegment_frame w x.seg
      cases whole with
      | true =>
        refine .along hothers (fun o' => ?_) hnext hcall call_goto rfl
        exact congrArg (fun f => (f o').geometry.capacity) hobjects
      | false => exact .still hothers hobjects hnext (by simp [Call.creates])
    · cases h
  | binding b =>
    obtain ⟨hcapacity, hnext, ⟨b', hcall'⟩ | ⟨handle, hcall'⟩ | hcall'⟩ := Counts.bindStep h
    · exact .along hothers hcapacity hnext hcall hcall' rfl
    · exact .along hothers hcapacity hnext hcall hcall' rfl
    · exact .quiet hothers (fun o' _ => hcapacity o') hnext (by rw [hcall']; rfl)
  | _ =>
    cases h
    exact .storeStep (by simp) hcall

theorem counts_attachStep {name : String} {role : Role} {pc : AttachPc}
    (hothers : ∀ q, q ≠ p → w'.proc q = w.proc q)
    (h : w.attachStep p name role v o ans pc = some w') : Counts w w' p := by
  cases pc with
  | opening A =>
    simp only [attachStep] at h
    split at h
    next x o' mapped _ _ =>
      cases h
      obtain ⟨hobjects, hnext, -⟩ := resetSegment_frame w x.seg
      exact .still hothers hobjects hnext (by simp [Call.creates])
    · cases h
      split_ifs at hothers ⊢ <;>
        exact .still hothers rfl rfl (by simp [Call.creates])
    · cases h
  | binding b =>
    obtain ⟨hcapacity, hnext, ⟨b', hcall'⟩ | ⟨handle, hcall'⟩ | hcall'⟩ := Counts.bindStep h
    all_goals exact .quiet hothers (fun o' _ => hcapacity o') hnext (by rw [hcall']; rfl)
  | _ =>
    cases h
    unfold checkStep at hothers ⊢
    split at hothers <;> exact .still hothers rfl rfl (by simp [Call.creates])

/-- The next step of a call. -/
theorem counts_stepCall (h : w.stepCall p ans (w.proc p).call = some w') : Counts w w' p := by
  have hothers : ∀ q, q ≠ p → w'.proc q = w.proc q := fun q hq => proc_stepCall hq h
  cases hcall : (w.proc p).call with
  | idle =>
    rw [hcall] at h
    cases h
  | unlink S whole v =>
    rw [hcall] at h
    cases h
    exact .still hothers rfl rfl (by simp [Call.creates])
  | shmOpen S whole v =>
    rw [hcall] at h
    cases h
    unfold shmOpen at hothers ⊢
    dsimp only at hothers ⊢
    split at hothers
    · exact .still hothers rfl rfl (by simp [Call.creates])
    · exact .still hothers rfl rfl (by simp [Call.creates])
    · -- a new object, and its slot count still to be stored
      refine ⟨hothers, Nat.le_succ _, fun o h => .inr ?_, fun o h => .inr ?_, fun o n h => ?_,
        fun _ _ => rfl⟩
      · rw [call_goto] at h
        obtain rfl := Option.some.inj h
        exact ⟨le_rfl, Nat.lt_succ_self _⟩
      · rw [call_goto] at h
        exact (Option.some.inj h).le
      · rw [call_goto] at h
        cases h
  | create S whole v o pc =>
    rw [hcall] at h
    exact counts_createStep hothers hcall h
  | cleanup name o =>
    rw [hcall] at h
    cases h
    exact .still hothers rfl rfl (by simp [Call.creates])
  | attach name role v o pc =>
    rw [hcall] at h
    exact counts_attachStep hothers h
  | openSegment name v =>
    rw [hcall] at h
    simp only [stepCall] at h
    split at h
    next x o size _ _ =>
      cases h
      obtain ⟨hobjects, hnext, -⟩ := resetSegment_frame w x.seg
      exact .still hothers hobjects hnext (by simp [Call.creates])
    · cases h
      exact .still hothers rfl rfl (by simp [Call.creates])
    · cases h
  | placing v =>
    rw [hcall] at h
    simp only [stepCall] at h
    split at h
    · exact .release h
    · cases h
      exact .still hothers rfl rfl (by simp [Call.creates])
  | destroying v =>
    rw [hcall] at h
    exact .release h
  | resetting v next =>
    rw [hcall] at h
    exact .reset hothers h

/-- The start of a call. -/
theorem counts_startCall (hidle : (w.proc a.pid).call = .idle) (h : w.startCall a = some w') :
    Counts w w' a.pid := by
  have hothers : ∀ q, q ≠ a.pid → w'.proc q = w.proc q := fun q hq => proc_startCall hq h
  have hnone : (w.proc a.pid).call.creates = none := by
    rw [hidle]
    rfl
  cases a with
  | detach p v => exact .release h
  | destroy p v => exact .release h
  | moveAssign p v u =>
    simp only [startCall] at h
    split at h
    · split_ifs at h
      · cases h
        exact .still hothers rfl rfl hnone
      · exact .release h
    · cases h
  | moveConstruct p v u =>
    simp only [startCall] at h
    split at h
    · split_ifs at h
      cases h
      refine .still hothers rfl rfl ?_
      simpa only [WorldAct.pid, call_setVar] using hnone
    · cases h
  | swapWith p v u =>
    simp only [startCall] at h
    split at h <;> cases h
    refine .still hothers rfl rfl ?_
    simpa only [WorldAct.pid, call_setVar] using hnone
  | construct p v =>
    simp only [startCall] at h
    split_ifs at h
    cases h
    refine .still hothers rfl rfl ?_
    simpa only [WorldAct.pid, call_setVar] using hnone
  | remove p name =>
    cases h
    exact .still hothers rfl rfl hnone
  | step p ans => cases h
  | die p => cases h
  | _ =>
    simp only [startCall] at h
    split_ifs at h
    cases h
    exact .still hothers rfl rfl (by simp [Call.creates, WorldAct.pid])

theorem request_cases {R : Request} (h : w.request p v R = some w') :
    w.live p ∧ (w.proc p).call = .idle ∧ v ≠ tmp ∧ ∃ hp : 0 < p,
      ((∃ e, R.setup p hp = .error e ∧ w' = (w.beginCreate p).throw p e (.destroying tmp)) ∨
        ∃ S, R.setup p hp = .ok S ∧ w' = (w.beginCreate p).goto p (.unlink S true v)) := by
  unfold request at h
  split at h
  next hcond =>
    have hidle : (w.proc p).call = .idle := by
      have hidle := hcond.2.1
      revert hidle
      cases (w.proc p).call <;> simp [Call.isIdle]
    refine ⟨hcond.1, hidle, hcond.2.2, pos_of_live hcond.1, ?_⟩
    split at h
    next e he => exact .inl ⟨e, he, (Option.some.inj h).symm⟩
    next S hS => exact .inr ⟨S, hS, (Option.some.inj h).symm⟩
  next => cases h

/-- A step, of whatever kind. -/
theorem counts_enter {a : EntryAct} (h : w.enter a = some w') : Counts w w' a.pid := by
  cases a with
  | create p v R =>
    obtain ⟨-, -, -, -, ⟨e, -, rfl⟩ | ⟨S, -, rfl⟩⟩ := request_cases h
    · refine .still (fun q hq => ?_) rfl rfl (by simp [Call.creates, EntryAct.pid])
      exact (proc_setProc_of_ne hq).trans (proc_setProc_of_ne hq)
    · refine .still (fun q hq => ?_) rfl rfl (by simp [Call.creates, EntryAct.pid])
      exact (proc_setProc_of_ne hq).trans (proc_setProc_of_ne hq)
  | act a =>
    obtain ⟨-, ⟨p, rfl, rfl⟩ | ⟨p, ans, rfl, -, hcall⟩ | ⟨hidle, hstart⟩⟩ := step_cases h
    · exact ⟨fun _ _ => rfl, le_rfl, fun _ h => .inl h, fun _ h => .inl h, fun _ _ h => .inl h,
        fun _ _ => rfl⟩
    · exact counts_stepCall hcall
    · exact counts_startCall hidle hstart

/-! ### In every run -/

/-- One process creates each object, and the slot counts that it has stored are there. -/
structure CountInv (w : World T) : Prop where
  lt : ∀ p o, (w.proc p).call.creates = some o → o < w.nextObject
  alone : ∀ p q o, (w.proc p).call.creates = some o → (w.proc q).call.creates = some o → p = q
  counted : ∀ p o n, (w.proc p).call.counted = some (o, n) → (w.objects o).geometry.capacity = n

/-- The slot count of object `o` is `n`, and nobody will store another one. -/
structure Fixed (w : World T) (o : ℕ) (n : UInt64) : Prop where
  lt : o < w.nextObject
  capacity : (w.objects o).geometry.capacity = n
  counting : ∀ p, (w.proc p).call.counting ≠ some o

theorem Counts.inv (hc : Counts w w' p) (hinv : w.CountInv) : w'.CountInv where
  lt q o h := by
    by_cases hq : q = p
    · subst hq
      rcases hc.creates o h with hold | hnew
      · exact (hinv.lt q o hold).trans_le hc.next
      · exact hnew.2
    · rw [hc.others q hq] at h
      exact (hinv.lt q o h).trans_le hc.next
  alone := alone_of_creates hc.others hinv.lt hinv.alone fun o ho =>
    (hc.creates o ho).imp_right And.left
  counted q o n h := by
    by_cases hq : q = p
    · subst hq
      rcases hc.counted o n h with hold | hnew
      · rw [hc.capacity o (creates_of_counted hold).2]
        exact hinv.counted q o n hold
      · exact hnew
    · rw [hc.others q hq] at h
      rw [hc.capacity o fun hp => hq (hinv.alone q p o (creates_of_counted h).1
        (creates_of_counting hp))]
      exact hinv.counted q o n h

theorem CountInv.fixed {n : UInt64} (hinv : w.CountInv)
    (h : (w.proc p).call.counted = some (o, n)) : w.Fixed o n where
  lt := hinv.lt p o (creates_of_counted h).1
  capacity := hinv.counted p o n h
  counting q hq := by
    obtain rfl := hinv.alone q p o (creates_of_counting hq) (creates_of_counted h).1
    exact (creates_of_counted h).2 hq

theorem Counts.fixed {n : UInt64} (hc : Counts w w' p) (h : w.Fixed o n) : w'.Fixed o n where
  lt := h.lt.trans_le hc.next
  capacity := (hc.capacity o (h.counting p)).trans h.capacity
  counting q hq := by
    by_cases hqp : q = p
    · subst hqp
      rcases hc.counting o hq with hold | hnew
      · exact h.counting q hold
      · exact absurd h.lt (not_lt.mpr hnew)
    · rw [hc.others q hqp] at hq
      exact h.counting q hq

theorem countInv_of_reachable {slots : ℕ → T} (run : Reachable enter (start slots) w) :
    w.CountInv := by
  refine run.invariant ⟨?_, ?_, ?_⟩ fun _ _ _ hinv _ h => (counts_enter h).inv hinv
  · intro p o h
    cases h
  · intro p q o h
    cases h
  · intro p o n h
    cases h

theorem fixed_of_reachable {n : UInt64} (h : w.Fixed o n) (run : Reachable enter w w') :
    w'.Fixed o n :=
  run.invariant (I := fun w => w.Fixed o n) h fun _ _ _ hfixed _ hstep =>
    (counts_enter hstep).fixed hfixed

end World

end ShmSpsc
