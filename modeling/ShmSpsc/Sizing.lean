import ShmSpsc.Entry

/-!
# The size of a segment

When a call of `create` throws `invalid_argument`, and what it has done by then. A call whose
size overflows unwinds through the destructor of a queue that holds nothing
(`World.Unwinding`); any other one goes on to its first system call and throws something else,
if anything (`World.Proper`). `World.create_sizing` puts both together : in every interleaving
with other processes no size and no slot count wraps.
-/

namespace ShmSpsc

open Transition

variable {T : Type*}

/-! ## Exceptions -/

/-- `std::invalid_argument` -/
def Exception.isInvalidArgument : Exception → Bool
  | .invalidArgument _ => true
  | _ => false

/-- The call is the `create` of `S`, or what is left to do behind it. -/
def Call.Of (S : Setup) : Call → Prop
  | .unlink S' _ _ => S' = S
  | .shmOpen S' _ _ => S' = S
  | .create S' _ _ _ _ => S' = S
  | .attach .. => False
  | .openSegment .. => False
  | _ => True

theorem slots_of_counted {S : Setup} {c : Call} {o : ℕ} {n : UInt64} (h : c.Of S)
    (hn : c.counted = some (o, n)) : n = clampCapacity S.requested + 1 := by
  cases c with
  | create S' whole v o' pc =>
    obtain rfl : S' = S := h
    simp only [Call.counted] at hn
    split_ifs at hn
    exact (Prod.mk.inj (Option.some.inj hn)).2.symm
  | _ => cases hn

theorem bindStep_threw {role : Role} {p : ℤ} {o : Object T} {ans : Answers} {b : BindPc}
    {e : Exception} (h : (bindStep role p o ans b).2 = .threw e) : e.isInvalidArgument = false := by
  cases b with
  | test handle expected =>
    simp only [bindStep] at h
    split_ifs at h
    cases h
    rfl
  | cas handle expected =>
    simp only [bindStep] at h
    split_ifs at h
  | _ => cases h

/-- Behind its checks `create` throws no `invalid_argument`. -/
theorem createStep_threw {S : Setup} {o : Object T} {ans : Answers} {pc : CreatePc} {e : Exception}
    (h : (createStep S o ans pc).2 = .threw e) : e.isInvalidArgument = false := by
  cases pc with
  | ftruncate =>
    simp only [createStep] at h
    split at h <;> cases h
    rfl
  | mmap =>
    simp only [createStep] at h
    split at h <;> cases h
    rfl
  | binding b =>
    simp only [createStep] at h
    split at h <;> cases h
    next hb => exact bindStep_threw (congrArg Prod.snd hb)
  | _ => cases h

namespace World

variable {w w' : World T} {p q : ℤ} {v o : ℕ} {ans : Answers} {S : Setup}

/-- Process `p` is in the `create` of `S`, or behind it, and has thrown no `invalid_argument`. -/
structure Proper (w : World T) (p : ℤ) (S : Setup) : Prop where
  call : (w.proc p).call.Of S
  thrown : (w.proc p).thrown.any Exception.isInvalidArgument = false

namespace Proper

theorem goes_on (h : w.Proper p S) (hcall : (w'.proc p).call.Of S)
    (hthrown : (w'.proc p).thrown = (w.proc p).thrown) : w'.Proper p S :=
  ⟨hcall, hthrown ▸ h.thrown⟩

theorem threw {e : Exception} (hcall : (w'.proc p).call.Of S)
    (hthrown : (w'.proc p).thrown = some e) (he : e.isInvalidArgument = false) : w'.Proper p S :=
  ⟨hcall, by rw [hthrown]; exact he⟩

theorem release {next : Next} (h : w.Proper p S) (hstep : w.release p v next = some w') :
    w'.Proper p S := by
  obtain ⟨x, -, rfl⟩ := release_eq hstep
  exact h.goes_on (by simp [Call.Of]) (by simp)

theorem reset {next : Next} (h : w.Proper p S) (hstep : w.reset p v next = some w') :
    w'.Proper p S := by
  unfold World.reset at hstep
  split at hstep
  next x _ =>
    cases next with
    | swap u =>
      cases hstep
      refine h.goes_on ?_ (by simp)
      rw [call_goto]
      split_ifs <;> trivial
    | _ =>
      cases hstep
      exact h.goes_on (by simp [Call.Of]) (by simp)
  next => cases hstep

theorem storeStep {whole : Bool} {pc : CreatePc} (h : w.Proper p S) :
    (w.storeStep p S whole v o ans pc).Proper p S := by
  unfold World.storeStep
  dsimp only
  split
  next => exact h.goes_on (by simp [Call.Of]) (by simp [setObject])
  next => exact h.goes_on (by simp [Call.Of]) (by simp [setObject])
  next e he => exact threw (by simp [Call.Of]) thrown_throw (createStep_threw he)

theorem createStep {whole : Bool} {pc : CreatePc} (h : w.Proper p S)
    (hstep : w.createStep p S whole v o ans pc = some w') : w'.Proper p S := by
  cases pc with
  | mmap =>
    simp only [World.createStep] at hstep
    split at hstep
    next e _ he =>
      cases hstep
      exact threw (by simp [Call.Of]) thrown_throw (createStep_threw he)
    next x _ _ =>
      cases hstep
      refine h.goes_on ?_ (by simp [mapTmp])
      rw [call_goto]
      split_ifs <;> simp [Call.Of]
    next => cases hstep
  | binding b =>
    simp only [World.createStep, World.bindStep] at hstep
    split at hstep
    next x _ =>
      cases hstep
      split
      next => exact h.goes_on (by simp [Call.Of]) (by simp [setObject])
      next => exact h.goes_on (by simp [Call.Of]) (by simp [setObject])
      next e he => exact threw (by simp [Call.Of]) thrown_throw (bindStep_threw he)
    next => cases hstep
  | _ =>
    cases hstep
    exact h.storeStep

/-- The next step of the call. -/
theorem stepCall (h : w.Proper p S) (hstep : w.stepCall p ans (w.proc p).call = some w') :
    w'.Proper p S := by
  have hof := h.call
  cases hcall : (w.proc p).call with
  | idle =>
    rw [hcall] at hstep
    cases hstep
  | unlink S' whole v =>
    rw [hcall] at hstep hof
    cases hstep
    exact h.goes_on (by simpa [Call.Of] using hof) (by simp [unlink])
  | shmOpen S' whole v =>
    rw [hcall] at hstep hof
    cases hstep
    unfold shmOpen
    dsimp only
    split
    next => exact threw (by simp [Call.Of]) thrown_throw rfl
    next => exact threw (by simp [Call.Of]) thrown_throw rfl
    next => exact h.goes_on (by simpa [Call.Of] using hof) (by simp)
  | create S' whole v o pc =>
    rw [hcall] at hstep hof
    obtain rfl : S' = S := hof
    exact h.createStep hstep
  | cleanup name o =>
    rw [hcall] at hstep
    cases hstep
    exact h.goes_on (by simp [Call.Of]) (by simp [unlink])
  | attach name role v o pc =>
    rw [hcall] at hof
    exact hof.elim
  | openSegment name v =>
    rw [hcall] at hof
    exact hof.elim
  | placing v =>
    rw [hcall] at hstep
    simp only [World.stepCall] at hstep
    split at hstep
    · exact h.release hstep
    · cases hstep
      exact h.goes_on (by simp [Call.Of]) (by simp)
  | destroying v =>
    rw [hcall] at hstep
    exact h.release hstep
  | resetting v next =>
    rw [hcall] at hstep
    exact h.reset hstep

end Proper

/-- An exception leaves `create` through the destructor of the local queue, which holds
nothing. -/
structure Unwinding (w : World T) (p : ℤ) (e : Exception) : Prop where
  call : ((w.proc p).call = .destroying tmp ∨ (w.proc p).call = .resetting tmp .drop) ∧
      w.var p tmp = some .null ∨ (w.proc p).call = .idle
  thrown : (w.proc p).thrown = some e

/-- The destructor of the local queue unlinks nothing. -/
theorem Unwinding.stepCall {e : Exception} (h : w.Unwinding p e)
    (hstep : w.stepCall p ans (w.proc p).call = some w') :
    w'.Unwinding p e ∧ w'.names = w.names := by
  obtain ⟨⟨hcall | hcall, hvar⟩ | hcall, hthrown⟩ := h
  · rw [hcall] at hstep
    obtain ⟨x, hx, rfl⟩ := release_eq hstep
    obtain rfl : Queue.null = x := Option.some.inj (hvar.symm.trans hx)
    refine ⟨⟨.inl ⟨.inr call_goto, ?_⟩, ?_⟩, rfl⟩
    · rw [var_goto]
      exact var_setVar_self
    · rw [thrown_goto, thrown_setVar]
      exact hthrown
  · rw [hcall] at hstep
    simp only [World.stepCall, World.reset, hvar] at hstep
    cases hstep
    exact ⟨⟨.inr call_goto, by simpa using hthrown⟩, rfl⟩
  · rw [hcall] at hstep
    cases hstep

end World

/-! ## When `create` throws -/

theorem bytesNeeded_eq_error {L : Layout} {capacity : UInt64} {e : Exception}
    (h : bytesNeeded L capacity = .error e) :
    e = .invalidArgument ("capacity " ++ toString capacity ++ " x " ++ toString L.elemSize ++
      " bytes overflows size_t") := by
  unfold bytesNeeded at h
  split_ifs at h
  exact (Except.error.inj h).symm

namespace Request

variable {R : Request} {p : ℤ}

/-- The size is passed on exactly if it fits 64 bits, and then it is exact. -/
theorem segmentBytes_eq_ok_iff {bytes : UInt64} :
    R.segmentBytes = .ok bytes ↔ bytes.toNat = R.exactBytes := by
  rw [segmentBytes, bytesNeeded_eq_ok_iff, toNat_clampCapacity, exactBytes,
    Layout.toNat_controlBlockSize]

theorem exactBytes_pos (R : Request) : 0 < R.exactBytes := by
  have := R.layout.cacheLine_ge
  rw [exactBytes, Layout.toNat_controlBlockSize]
  omega

theorem setup_of_overflow (hp : 0 < p) (h : 2 ^ 64 - 1 < R.exactBytes) :
    R.setup p hp = .error (.invalidArgument ("capacity " ++ toString (clampCapacity R.capacity) ++
      " x " ++ toString R.layout.elemSize ++ " bytes overflows size_t")) := by
  unfold setup
  split
  next e he => rw [bytesNeeded_eq_error he]
  next bytes hbytes =>
    have hlt := bytes.toNat_lt
    have hexact := segmentBytes_eq_ok_iff.mp hbytes
    omega

theorem setup_of_fits (hp : 0 < p) (hname : validateName R.name = .ok ())
    (h : R.exactBytes ≤ 2 ^ 64 - 1) :
    ∃ S, R.setup p hp = .ok S ∧ R.segmentBytes = .ok S.bytes ∧ S.bytes.toNat = R.exactBytes ∧
      S.name = R.name ∧ S.requested = R.capacity := by
  have hbytes : (UInt64.ofNat R.exactBytes).toNat = R.exactBytes :=
    UInt64.toNat_ofNat_of_lt' (by rw [UInt64.size]; omega)
  have hneeded := segmentBytes_eq_ok_iff.mpr hbytes
  have hne : UInt64.ofNat R.exactBytes ≠ 0 := by
    intro h0
    rw [h0] at hbytes
    exact absurd R.exactBytes_pos (by simp [← hbytes])
  have hchecked : R.checkArguments (UInt64.ofNat R.exactBytes) = .ok () := by
    rw [checkArguments, bind_eq_ok]
    exact ⟨(), hname, by simpa using hne⟩
  unfold setup
  split
  next e he =>
    rw [hneeded] at he
    cases he
  next bytes hb =>
    obtain rfl : _ = bytes := Except.ok.inj (hneeded.symm.trans hb)
    split
    next e he =>
      rw [hchecked] at he
      cases he
    next => exact ⟨_, rfl, hb, hbytes, rfl, rfl⟩

end Request

namespace World

variable {w w' w₁ w₂ : World T} {p : ℤ} {v : ℕ} {R : Request} {S : Setup} {e : Exception}

/-- A step during the call of `p` is a step of that call, or leaves `p` as it is. -/
theorem during_cases {a : EntryAct} (ha : a.during p) (h : w.enter a = some w') :
    w'.proc p = w.proc p ∨ ∃ ans, a = .act (.step p ans) ∧
      w.stepCall p ans (w.proc p).call = some w' := by
  by_cases hpid : p = a.pid
  · subst hpid
    have hbegins : a.begins = false := by simpa [EntryAct.during] using ha
    cases a with
    | create q v R => cases hbegins
    | act a =>
      cases a with
      | step q ans =>
        obtain ⟨-, ⟨_, heq, -⟩ | ⟨_, _, heq, -, hcall⟩ | ⟨-, hstart⟩⟩ := step_cases h
        · cases heq
        · cases heq
          exact .inr ⟨ans, rfl, hcall⟩
        · cases hstart
      | die q =>
        obtain ⟨-, ⟨_, heq, rfl⟩ | ⟨_, _, heq, -⟩ | ⟨-, hstart⟩⟩ := step_cases h
        · exact .inl rfl
        · cases heq
        · cases hstart
      | _ => cases hbegins
  · exact .inl ((counts_enter h).others p hpid)

/-- A call that goes on to its first system call throws no `invalid_argument` later. -/
theorem proper_of_reaches (h : w₁.Proper p S)
    (run : Reaches enter (fun _ a => a.during p) w₁ w₂) : w₂.Proper p S := by
  refine run.invariant (I := fun w => w.Proper p S) h fun _ _ _ hproper ha hstep => ?_
  rcases during_cases ha hstep with heq | ⟨ans, -, hcall⟩
  · exact ⟨heq ▸ hproper.call, heq ▸ hproper.thrown⟩
  · exact hproper.stepCall hcall

theorem unwinding_of_reaches (h : w₁.Unwinding p e)
    (run : Reaches enter (fun _ a => a.during p) w₁ w₂) : w₂.Unwinding p e := by
  refine run.invariant (I := fun w => w.Unwinding p e) h fun _ _ _ hunwinding ha hstep => ?_
  rcases during_cases ha hstep with heq | ⟨ans, -, hcall⟩
  · exact ⟨by simpa only [var, heq] using hunwinding.call, heq ▸ hunwinding.thrown⟩
  · exact (hunwinding.stepCall hcall).1

/-- The slot count of a size that fits does not wrap. -/
theorem toNat_slots (hfits : R.exactBytes ≤ 2 ^ 64 - 1) :
    (clampCapacity R.capacity + 1).toNat = max 1 R.capacity.toNat + 1 := by
  have hline := R.layout.cacheLine_ge
  have hmul := Nat.le_mul_of_pos_right (max 1 R.capacity.toNat + 1) R.layout.elemSize_pos
  rw [Request.exactBytes, Layout.toNat_controlBlockSize] at hfits
  rw [UInt64.toNat_add, toNat_clampCapacity]
  exact Nat.mod_eq_of_lt (by simp only [UInt64.toNat_one]; omega)

/-- Segment sizing never wraps. In every run of any processes, a call of `create` with a valid
name throws `invalid_argument` if and only if the exact size exceeds `2 ^ 64 - 1`; then neither
the call up to the exception nor any later step of it has unlinked a name. Otherwise the call
goes on to `shm_unlink` with the exact size, and once it has stored the slot count in the
control block of its object, the exact one is there for good. -/
theorem create_sizing {slots : ℕ → T} (reached : Reachable enter (start slots) w)
    (called : w.enter (.create p v R) = some w₁) (hname : validateName R.name = .ok ())
    (run : Reaches enter (fun _ a => a.during p) w₁ w₂) :
    ((∃ what, (w₂.proc p).thrown = some (.invalidArgument what)) ↔
        2 ^ 64 - 1 < R.exactBytes) ∧
      (2 ^ 64 - 1 < R.exactBytes → w₁.names = w.names ∧
        ∀ ans w₃, w₂.enter (.act (.step p ans)) = some w₃ → w₃.names = w₂.names) ∧
      (R.exactBytes ≤ 2 ^ 64 - 1 → ∃ S, R.segmentBytes = .ok S.bytes ∧
        S.bytes.toNat = R.exactBytes ∧ S.name = R.name ∧ (w₁.proc p).call = .unlink S true v ∧
        ∀ o n, (w₂.proc p).call.counted = some (o, n) → n.toNat = max 1 R.capacity.toNat + 1 ∧
          ∀ w₃, Reachable enter w₂ w₃ → (w₃.objects o).geometry.capacity = n) := by
  obtain ⟨-, -, -, hp, hcases⟩ := request_cases called
  rcases Nat.lt_or_ge (2 ^ 64 - 1) R.exactBytes with hover | hfits
  · rw [R.setup_of_overflow hp hover] at hcases
    obtain ⟨e, he, rfl⟩ | ⟨S, hS, -⟩ := hcases
    swap
    · cases hS
    have hun : ((w.beginCreate p).throw p e (.destroying tmp)).Unwinding p e :=
      ⟨.inl ⟨.inl call_throw, by simp [var, beginCreate]⟩, thrown_throw⟩
    have hun := unwinding_of_reaches hun run
    obtain rfl := Except.error.inj he
    refine ⟨⟨fun _ => hover, fun _ => ⟨_, hun.thrown⟩⟩, fun _ => ⟨rfl, fun ans w₃ h => ?_⟩,
      fun h => absurd hover (not_lt.mpr h)⟩
    obtain ⟨-, ⟨_, heq, -⟩ | ⟨_, _, heq, -, hcall⟩ | ⟨-, hstart⟩⟩ := step_cases h
    · cases heq
    · cases heq
      exact (hun.stepCall hcall).2
    · cases hstart
  · obtain ⟨S, hS, hpassed, hbytes, hSname, hrequested⟩ := R.setup_of_fits hp hname hfits
    rw [hS] at hcases
    obtain ⟨e, he, -⟩ | ⟨_, heq, rfl⟩ := hcases
    · cases he
    obtain rfl := Except.ok.inj heq
    have hproper : ((w.beginCreate p).goto p (.unlink S true v)).Proper p S :=
      ⟨by simp [Call.Of], by simp [beginCreate]⟩
    have hproper := proper_of_reaches hproper run
    have hinv : w₂.CountInv :=
      countInv_of_reachable ((reached.tail trivial called).trans (run.mono fun _ _ _ => trivial))
    refine ⟨⟨?_, fun h => absurd hfits (not_le.mpr h)⟩, fun h => absurd hfits (not_le.mpr h),
      fun _ => ⟨S, hpassed, hbytes, hSname, call_goto, fun o n hn => ⟨?_, fun w₃ rest => ?_⟩⟩⟩
    · rintro ⟨what, hwhat⟩
      have hthrown := hproper.thrown
      rw [hwhat] at hthrown
      cases hthrown
    · rw [slots_of_counted hproper.call hn, hrequested]
      exact toNat_slots hfits
    · exact (fixed_of_reachable (hinv.fixed hn) rest).capacity

/-- `create("/q", 4, Role::Producer)` of messages. -/
def messageRequest : Request := ⟨messageLayout, "/q", 4, .producer, ⟨none, none, none⟩⟩

/-- The call past the store of the slot count. -/
def countedRun : List EntryAct := List.replicate 12 (EntryAct.act (.step 1 .plain))

theorem create_sizing_countedRun :
    ∃ w₁ w₂ : World ℕ, (start fun _ => 0).enter (.create 1 1 messageRequest) = some w₁ ∧
      Reaches enter (fun _ a => a.during 1) w₁ w₂ ∧ messageRequest.exactBytes = 496 ∧
      (¬∃ what, (w₂.proc 1).thrown = some (.invalidArgument what)) ∧
      (w₂.proc 1).call.counted = some (0, 5) ∧ (w₂.objects 0).geometry.capacity = 5 := by
  have hrun : (((start fun _ => (0 : ℕ)).enter (.create 1 1 messageRequest)).bind fun w₁ =>
      (exec enter (fun _ a => a.during 1) w₁ countedRun).map fun w₂ =>
        (w₂.proc 1).call.counted) = some (some (0, 5)) := by decide +kernel
  obtain ⟨w₁, called, hrun⟩ := Option.bind_eq_some_iff.mp hrun
  obtain ⟨w₂, hw₂, hcounted⟩ := Option.map_eq_some_iff.mp hrun
  have run := Reaches.of_exec hw₂
  obtain ⟨hthrows, -, hfits⟩ := create_sizing .refl called (by decide) run
  obtain ⟨S, -, -, -, -, hstored⟩ := hfits (by decide)
  refine ⟨w₁, w₂, called, run, by decide, ?_, hcounted, (hstored 0 5 hcounted).2 w₂ .refl⟩
  rw [hthrows]
  decide

end World

end ShmSpsc
