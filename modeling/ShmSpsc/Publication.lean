import ShmSpsc.Shm

/-!
# Initialisation is published by `ready`

While `create` runs, the object goes through fixed stages (`CreatePc.Stage`) that no other
process can disturb : an `attach` does not pass its check of `ready` before the last store.
`Shm.Phase` is this, kept by every step of every process (`Shm.phase_of_reachable`) : until
`ready` is stored every other endpoint is still polling, and from then on the geometry is
the creator's.
-/

namespace ShmSpsc

open Transition

variable {T : Type*}

/-! ## The stages of `create` -/

/-- The geometry fields stored before each step of `create`. -/
def CreatePc.written (S : Setup) : CreatePc → Geometry
  | .ftruncate => .zero
  | .mmap => .zero
  | .memset => .zero
  | .magic => .zero
  | .version => { Geometry.zero with magic := kMagic }
  | .cacheLineSize => { Geometry.zero with magic := kMagic, version := kVersion }
  | .elemSize =>
    { S.geometry with elemSize := 0, elemAlign := 0, capacity := 0, slotsOffset := 0,
                      totalBytes := 0 }
  | .elemAlign =>
    { S.geometry with elemAlign := 0, capacity := 0, slotsOffset := 0, totalBytes := 0 }
  | .capacity => { S.geometry with capacity := 0, slotsOffset := 0, totalBytes := 0 }
  | .slotsOffset => { S.geometry with slotsOffset := 0, totalBytes := 0 }
  | .totalBytes => { S.geometry with totalBytes := 0 }
  | .writeIdx => S.geometry
  | .readIdx => S.geometry
  | .binding _ => S.geometry
  | .ready _ => S.geometry

/-- The handle `create` returns. -/
def Setup.handle (S : Setup) : Handle := ⟨S.geometry.capacity, 0, 0⟩

/-- What the creator's `bind` has read : the indices are `0`, and so is its pid slot. -/
def BindPc.Creators (S : Setup) : BindPc → Prop
  | .loadCapacity => True
  | .loadReadIdx capacity => capacity = S.geometry.capacity
  | .loadWriteIdx capacity r => capacity = S.geometry.capacity ∧ r = 0
  | .loadPid h => h = S.handle
  | .test h expected => h = S.handle ∧ expected = 0
  | .cas h expected => h = S.handle ∧ expected = 0

/-- The pid in the slot of the creator's role, and what its `bind` has read. -/
def CreatePc.Claim (S : Setup) (pid : ℤ) : CreatePc → Prop
  | .binding b => pid = 0 ∧ b.Creators S
  | .ready h => pid = S.creator ∧ h = S.handle
  | _ => pid = 0

/-- The object before each step of `create`. -/
structure CreatePc.Stage (S : Setup) (o : Object T) (pc : CreatePc) : Prop where
  ready : o.ready = 0
  geometry : o.geometry = pc.written S
  writeIdx : o.ring.writeIdx = 0
  readIdx : o.ring.readIdx = 0
  peer : ∀ role, role ≠ S.role → o.pid role = 0
  claim : pc.Claim S (o.pid S.role)

/-- What a step of `create` makes of it. -/
def Outcome.Created (S : Setup) (o : Object T) : Outcome CreatePc → Prop
  | .more pc => pc.Stage S o
  | .bound h => o.ready = 1 ∧ o.geometry = S.geometry ∧ h = S.handle
  | .threw _ => o.ready = 0

theorem bindStep_creators {S : Setup} {o : Object T} {ans : Answers} {b : BindPc}
    (h : (CreatePc.binding b).Stage S o) :
    (createStep S o ans (.binding b)).2.Created S (createStep S o ans (.binding b)).1 := by
  obtain ⟨hready, hgeo, hw, hr, hpeer, hpid, hb⟩ := h
  have hgeo : o.geometry = S.geometry := hgeo
  cases b with
  | loadCapacity => exact ⟨hready, hgeo, hw, hr, hpeer, hpid, by rw [hgeo]; rfl⟩
  | loadReadIdx capacity => exact ⟨hready, hgeo, hw, hr, hpeer, hpid, hb, hr⟩
  | loadWriteIdx capacity r =>
    obtain ⟨rfl, rfl⟩ := hb
    exact ⟨hready, hgeo, hw, hr, hpeer, hpid, by rw [hw]; rfl⟩
  | loadPid h => exact ⟨hready, hgeo, hw, hr, hpeer, hpid, hb, hpid⟩
  | test h expected =>
    obtain ⟨rfl, rfl⟩ := hb
    have hne : (0 : ℤ) ≠ S.creator := S.creator_pos.ne
    simp only [createStep, bindStep, if_neg hne, lt_irrefl, false_and, if_false]
    exact ⟨hready, hgeo, hw, hr, hpeer, hpid, rfl, rfl⟩
  | cas h expected =>
    obtain ⟨rfl, rfl⟩ := hb
    simp only [createStep, bindStep]
    split_ifs with hcas
    · refine ⟨by simpa using hready, (o.setPid_geometry ..).trans hgeo, by simpa using hw,
        by simpa using hr, fun role hne => ?_, by simp, rfl⟩
      rw [Object.pid_setPid_of_ne _ _ hne]
      exact hpeer role hne
    · exact ⟨hready, hgeo, hw, hr, hpeer, hpid, rfl, hpid⟩

/-- A store of `create` to a geometry field. -/
theorem CreatePc.Stage.store {S : Setup} {o : Object T} {pc pc' : CreatePc} (h : pc.Stage S o)
    (f : Geometry → Geometry) (hf : f (pc.written S) = pc'.written S)
    (hclaim : pc.Claim S (o.pid S.role) → pc'.Claim S (o.pid S.role)) :
    pc'.Stage S { o with geometry := f o.geometry } :=
  ⟨h.ready, (congrArg f h.geometry).trans hf, h.writeIdx, h.readIdx, h.peer, hclaim h.claim⟩

/-- Every step of `create` leads to its next stage. -/
theorem createStep_stage {S : Setup} {o : Object T} (ans : Answers) {pc : CreatePc}
    (h : pc.Stage S o) : (createStep S o ans pc).2.Created S (createStep S o ans pc).1 := by
  have ⟨hready, hgeo, hw, hr, hpeer, hclaim⟩ := h
  cases pc with
  | ftruncate =>
    cases htrunc : ShmSpsc.ftruncate S.calls.ftruncate S.bytes with
    | some e =>
      simp only [createStep, htrunc]
      exact hready
    | none =>
      simp only [createStep, htrunc]
      exact ⟨hready, hgeo, hw, hr, hpeer, hclaim⟩
  | mmap =>
    cases hmmap : S.calls.mmap with
    | some e =>
      simp only [createStep, hmmap]
      exact hready
    | none =>
      simp only [createStep, hmmap]
      exact ⟨hready, hgeo, hw, hr, hpeer, hclaim⟩
  | memset =>
    refine ⟨rfl, rfl, rfl, rfl, fun role _ => ?_, ?_⟩
    · cases role <;> rfl
    · cases S.role <;> rfl
  | magic => exact h.store (fun g => { g with magic := kMagic }) rfl id
  | version => exact h.store (fun g => { g with version := kVersion }) rfl id
  | cacheLineSize =>
    exact h.store (fun g => { g with cacheLineSize := S.layout.cacheLine.toUInt32 }) rfl id
  | elemSize =>
    exact h.store (fun g => { g with elemSize := S.layout.elemSize.toUInt32 }) rfl id
  | elemAlign =>
    exact h.store (fun g => { g with elemAlign := S.layout.elemAlign.toUInt32 }) rfl id
  | capacity =>
    exact h.store (fun g => { g with capacity := clampCapacity S.requested + 1 }) rfl id
  | slotsOffset =>
    exact h.store (fun g => { g with slotsOffset := S.layout.controlBlockSize.toUInt32 }) rfl id
  | totalBytes => exact h.store (fun g => { g with totalBytes := S.bytes }) rfl id
  | writeIdx => exact ⟨hready, hgeo, rfl, hr, hpeer, hclaim⟩
  | readIdx => exact ⟨hready, hgeo, hw, rfl, hpeer, hclaim, trivial⟩
  | binding b => exact bindStep_creators h
  | ready h => exact ⟨rfl, hgeo, hclaim.2⟩

/-! ## The other processes -/

/-- `bind` stores to a pid slot only. -/
theorem bindStep_frame (role : Role) (p : ℤ) (o : Object T) (ans : Answers) (b : BindPc) :
    (bindStep role p o ans b).1.ready = o.ready ∧
      (bindStep role p o ans b).1.geometry = o.geometry ∧
      (bindStep role p o ans b).1.ring = o.ring := by
  rcases bindStep_object role p o ans b with heq | heq
  · simp only [heq, and_self]
  · simp only [heq, Object.setPid_ready, Object.setPid_geometry, Object.setPid_ring, and_self]

/-- So does `attach`. -/
theorem attachStep_frame (name : String) (role : Role) (p : ℤ) (o : Object T) (ans : Answers)
    (pc : AttachPc) :
    (attachStep name role p o ans pc).1.ready = o.ready ∧
      (attachStep name role p o ans pc).1.geometry = o.geometry ∧
      (attachStep name role p o ans pc).1.ring = o.ring := by
  cases pc with
  | opening A =>
    simp only [attachStep]
    split <;> exact ⟨rfl, rfl, rfl⟩
  | readyCheck A lastAttempt mapped =>
    simp only [attachStep]
    split_ifs <;> exact ⟨rfl, rfl, rfl⟩
  | validating A mapped =>
    simp only [attachStep]
    split <;> exact ⟨rfl, rfl, rfl⟩
  | binding b =>
    have hframe := bindStep_frame role p o ans b
    simp only [attachStep]
    split <;> rename_i hb <;> simpa [hb] using hframe

/-- `create` stores `0` to indices that are `0`. -/
theorem createStep_ring {S : Setup} {o : Object T} {ans : Answers} {pc : CreatePc}
    (h : pc.Stage S o) : (createStep S o ans pc).1.ring = o.ring := by
  have hw : { o.ring with writeIdx := 0 } = o.ring := by rw [← h.writeIdx]
  have hr : { o.ring with readIdx := 0 } = o.ring := by rw [← h.readIdx]
  cases pc with
  | ftruncate =>
    simp only [createStep]
    split <;> rfl
  | mmap =>
    simp only [createStep]
    split <;> rfl
  | memset => exact (congrArg (fun r : Ring T => { r with readIdx := 0 }) hw).trans hr
  | writeIdx => exact hw
  | readIdx => exact hr
  | binding b =>
    have hframe := (bindStep_frame S.role S.creator o ans b).2.2
    simp only [createStep]
    split <;> rename_i hb <;> simpa [hb] using hframe
  | _ => rfl

/-- Where an endpoint can be. -/
def Endpoint.Phase {H : Type*} (S : Setup) (o : Object T) (role : Role) (p : ℤ) :
    Endpoint H → Prop
  | .absent _ => True
  | .creating pc => role = S.role ∧ p = S.creator ∧ pc.Stage S o
  | .attaching _ (.opening _) => True
  | .attaching _ (.readyCheck ..) => True
  | .attaching _ _ => o.ready = 1
  | .bound _ => o.ready = 1

/-- Until `ready` is stored everybody but the creator is polling, and then the geometry is
the creator's. -/
structure Shm.Phase (S : Setup) (s : Shm T) : Prop where
  ready : s.object.ready = 0 ∨ s.object.ready = 1 ∧ s.object.geometry = S.geometry
  endpoint : ∀ role p, (s.endpoint role p).Phase S s.object role p

section Phase

variable {H : Type*} {S : Setup} {o o' : Object T} {role : Role} {p : ℤ} {e : Endpoint H}

/-- After `ready`, nothing but `ready` matters. -/
theorem Endpoint.Phase.of_ready (h : e.Phase S o role p) (ho : o.ready = 1)
    (ho' : o'.ready = 1) : e.Phase S o' role p := by
  cases e with
  | absent thrown => trivial
  | creating pc => exact absurd (h.2.2.ready.symm.trans ho) (by decide)
  | attaching since pc =>
    cases pc with
    | opening A => trivial
    | readyCheck A lastAttempt mapped => trivial
    | validating A mapped => exact ho'
    | binding b => exact ho'
  | bound w => exact ho'

/-- Before `ready`, nothing matters to an endpoint but the creator's. -/
theorem Endpoint.Phase.of_unready (h : e.Phase S o role p) (ho : o.ready = 0)
    (hne : ∀ pc, e ≠ .creating pc) : e.Phase S o' role p := by
  have hready : o.ready ≠ 1 := by rw [ho]; decide
  cases e with
  | absent thrown => trivial
  | creating pc => exact absurd rfl (hne pc)
  | attaching since pc =>
    cases pc with
    | opening A => trivial
    | readyCheck A lastAttempt mapped => trivial
    | validating A mapped => exact absurd h hready
    | binding b => exact absurd h hready
  | bound w => exact absurd h hready

end Phase

namespace Shm

variable {S : Setup} {s s' : Shm T} {a : ShmAct T}

theorem phase_opened (S : Setup) (slots : ℕ → T) : Phase S (opened S slots) := by
  refine ⟨.inl rfl, fun role p => ?_⟩
  simp only [opened]
  split_ifs with h
  · obtain ⟨rfl, rfl⟩ := h
    refine ⟨rfl, rfl, rfl, rfl, rfl, rfl, fun role _ => ?_, ?_⟩
    · cases role <;> rfl
    · cases S.role <;> rfl
  · trivial

/-- A step of a process that is past the check of `ready` keeps the phase, whatever its
endpoint becomes. -/
theorem Phase.of_ready (h : Phase S s) (hready : s.object.ready = 1) {o : Object T}
    (ho : o.ready = s.object.ready) (hgeo : o.geometry = s.object.geometry) {role : Role}
    {p : ℤ} {e : Endpoint (Worker T role)} (he : ∀ pc, e ≠ .creating pc)
    {published released : List (ℤ × T)} :
    Phase S ({ s with object := o, published := published, released := released }.set
      role p e) := by
  have hgeo' : s.object.geometry = S.geometry := by
    rcases h.ready with h | h
    · exact absurd (h.symm.trans hready) (by decide)
    · exact h.2
  refine ⟨.inr ⟨ho.trans hready, hgeo.trans hgeo'⟩, forall_endpoint_set ?_ fun role' q _ => ?_⟩
  · cases e with
    | absent thrown => trivial
    | creating pc => exact absurd rfl (he pc)
    | attaching since pc =>
      cases pc with
      | opening A => trivial
      | readyCheck A lastAttempt mapped => trivial
      | validating A mapped => exact ho.trans hready
      | binding b => exact ho.trans hready
    | bound w => exact ho.trans hready
  · exact (h.endpoint role' q).of_ready hready (ho.trans hready)

theorem Phase.ready_of_bound (h : Phase S s) {role : Role} {p : ℤ} {w : Worker T role}
    (hat : s.endpoint role p = .bound w) : s.object.ready = 1 := by
  have := h.endpoint role p
  rwa [hat] at this

/-- A step of `create`. -/
theorem Phase.create (h : Phase S s) {ans : Answers} {pc : CreatePc}
    (hat : s.endpoint S.role S.creator = .creating pc) :
    Phase S (s.after S.role S.creator .creating (createStep S s.object ans pc)) := by
  have hcreator := h.endpoint S.role S.creator
  rw [hat] at hcreator
  have hstage := hcreator.2.2
  have hnext := createStep_stage ans hstage
  have hothers : ∀ o' : Object T, ∀ role p, ¬(role = S.role ∧ p = S.creator) →
      (s.endpoint role p).Phase S o' role p := by
    intro o' role p hne
    refine (h.endpoint role p).of_unready hstage.ready fun pc' hpc' => hne ?_
    have hcreating := h.endpoint role p
    rw [hpc'] at hcreating
    exact ⟨hcreating.1, hcreating.2.1⟩
  generalize createStep S s.object ans pc = step at hnext ⊢
  obtain ⟨o', out⟩ := step
  cases out with
  | more pc' =>
    exact ⟨.inl hnext.ready, forall_endpoint_set ⟨rfl, rfl, hnext⟩ (hothers o')⟩
  | bound h =>
    exact ⟨.inr ⟨hnext.1, hnext.2.1⟩, forall_endpoint_set hnext.1 (hothers o')⟩
  | threw e => exact ⟨.inl hnext, forall_endpoint_set trivial (hothers o')⟩

/-- A step of `attach`. -/
theorem Phase.attach (h : Phase S s) {ans : Answers} {role : Role} {p : ℤ} {since : ℕ}
    {pc : AttachPc} (hat : s.endpoint role p = .attaching since pc) :
    Phase S (s.after role p (.attaching since)
      (attachStep S.name role p s.object ans pc)) := by
  obtain ⟨hr, hg, -⟩ := attachStep_frame S.name role p s.object ans pc
  rcases h.ready with hunready | ⟨hready, -⟩
  · have hend := h.endpoint role p
    rw [hat] at hend
    have hne : s.object.ready ≠ 1 := by rw [hunready]; decide
    cases pc with
    | opening A =>
      simp only [attachStep]
      split
      · exact ⟨.inl hunready, forall_endpoint_set trivial fun role' q _ => h.endpoint role' q⟩
      · refine ⟨.inl hunready, forall_endpoint_set ?_ fun role' q _ => h.endpoint role' q⟩
        split_ifs <;> trivial
    | readyCheck A lastAttempt mapped =>
      simp only [attachStep, if_neg hne]
      split_ifs
      · exact ⟨.inl hunready, forall_endpoint_set trivial fun role' q _ => h.endpoint role' q⟩
      · exact ⟨.inl hunready, forall_endpoint_set trivial fun role' q _ => h.endpoint role' q⟩
    | validating A mapped => exact absurd hend hne
    | binding b => exact absurd hend hne
  · refine h.of_ready hready hr hg ?_
    intro pc' hpc'
    revert hpc'
    cases (attachStep S.name role p s.object ans pc).2 <;> simp [Outcome.endpoint]

/-- Every step keeps the phase. -/
theorem phase_step (h : Phase S s) (hstep : step S s a = some s') : Phase S s' := by
  cases steps_of_step hstep with
  | create at_ alive answers => exact h.create at_
  | attach at_ alive =>
    exact ⟨h.ready, forall_endpoint_set trivial fun role' q _ => h.endpoint role' q⟩
  | attachStep at_ alive answers => exact h.attach at_
  | @produce p a w out at_ alive act =>
    refine h.of_ready (o := { s.object with ring := out.1 }) (h.ready_of_bound at_) rfl rfl ?_
    simp
  | @consume p a w out at_ alive act =>
    refine h.of_ready (o := { s.object with ring := out.1 }) (h.ready_of_bound at_) rfl rfl ?_
    simp
  | detach at_ alive idle =>
    refine h.of_ready (h.ready_of_bound at_) ?_ ?_ (by simp)
    · split_ifs <;> simp
    · split_ifs <;> simp
  | die alive => exact ⟨h.ready, h.endpoint⟩

theorem phase_of_reachable {slots : ℕ → T}
    (run : Reachable (step S) (opened S slots) s) : Phase S s :=
  run.invariant (phase_opened S slots) fun _ _ _ h _ hstep => phase_step h hstep

/-! ## The store to `ready` -/

/-- Only `create` stores to the geometry or to `ready`. -/
theorem frame_of_step (ha : ∀ ans, a ≠ .create ans) (h : step S s a = some s') :
    s'.object.ready = s.object.ready ∧ s'.object.geometry = s.object.geometry := by
  cases steps_of_step h with
  | create at_ alive answers => exact absurd rfl (ha _)
  | attach at_ alive => exact ⟨rfl, rfl⟩
  | attachStep at_ alive answers =>
    obtain ⟨hr, hg, -⟩ := attachStep_frame ..
    exact ⟨hr, hg⟩
  | produce at_ alive act => exact ⟨rfl, rfl⟩
  | consume at_ alive act => exact ⟨rfl, rfl⟩
  | detach at_ alive idle =>
    simp only [detached, set_object]
    split_ifs <;> simp
  | die alive => exact ⟨rfl, rfl⟩

theorem Phase.stage (h : Phase S s) {role : Role} {p : ℤ} {pc : CreatePc}
    (hat : s.endpoint role p = .creating pc) :
    role = S.role ∧ p = S.creator ∧ pc.Stage S s.object := by
  have := h.endpoint role p
  rwa [hat] at this

/-- Nothing changes the geometry once `ready` is stored. -/
theorem geometry_of_step (hphase : Phase S s) (hready : s.object.ready = 1)
    (h : step S s a = some s') :
    s'.object.ready = 1 ∧ s'.object.geometry = s.object.geometry := by
  by_cases ha : ∃ ans, a = .create ans
  · obtain ⟨ans, rfl⟩ := ha
    cases steps_of_step h with
    | create at_ alive answers =>
      exact absurd ((hphase.stage at_).2.2.ready.symm.trans hready) (by decide)
  · obtain ⟨hr, hg⟩ := frame_of_step (fun ans hans => ha ⟨ans, hans⟩) h
    exact ⟨hr.trans hready, hg⟩

/-- `create` stores `1` to `ready` in its last step only. -/
theorem createStep_unready {o : Object T} (ans : Answers) {pc : CreatePc} (ho : o.ready = 0)
    (hpc : ∀ h, pc ≠ .ready h) : (createStep S o ans pc).1.ready = 0 := by
  cases pc with
  | ftruncate =>
    simp only [createStep]
    split <;> exact ho
  | mmap =>
    simp only [createStep]
    split <;> exact ho
  | memset => rfl
  | binding b =>
    have hframe := (bindStep_frame S.role S.creator o ans b).1.trans ho
    simp only [createStep]
    split <;> rename_i hb <;> simpa [hb] using hframe
  | ready h => exact absurd rfl (hpc h)
  | _ => exact ho

/-- When `ready` is stored, the geometry is final and the creator has claimed its role. -/
theorem Phase.published_of_step (hphase : Phase S s) (hunready : s.object.ready = 0)
    (hready : s'.object.ready = 1) (h : step S s a = some s') :
    (∃ ans, a = .create ans) ∧ s.object.geometry = S.geometry ∧
      s.object.pid S.role = S.creator ∧
      ∃ w, s'.endpoint S.role S.creator = .bound w := by
  have hne : s.object.ready ≠ 1 := by rw [hunready]; decide
  by_cases ha : ∃ ans, a = .create ans
  · obtain ⟨ans, rfl⟩ := ha
    cases steps_of_step h with
    | @create _ pc at_ alive answers =>
      by_cases hpc : ∃ h, pc = .ready h
      · obtain ⟨h, rfl⟩ := hpc
        have hstage := (hphase.stage at_).2.2
        exact ⟨⟨ans, rfl⟩, hstage.geometry, hstage.claim.1, _, endpoint_set_self⟩
      · have := createStep_unready (S := S) ans hunready fun h hh => hpc ⟨h, hh⟩
        exact absurd (this.symm.trans hready) (by decide)
  · exact absurd ((frame_of_step (fun ans hans => ha ⟨ans, hans⟩) h).1.symm.trans hready) hne

end Shm

end ShmSpsc
