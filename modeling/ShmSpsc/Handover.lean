import ShmSpsc.Ownership

/-!
# Handing a role over

`bind` samples the two indices before it claims the pid slot. A handle that claims with a
sample that still errs on the safe side (`Shm.safeClaim`) has a cache like any other, and the
ring goes on holding the log over any number of owners of each role : `Shm.Intact` is kept by
every step (`Shm.intact_step`). `bind` itself does not check it, and a run in which the old
producer stores between the sample and the claim loses an element (`Shm.staleRun`).
-/

namespace ShmSpsc

open Transition OwnerWord

variable {T : Type*}

/-! ## Samples -/

/-- The cell of a total that the released elements have reached. -/
def ReadSample (c : Capacity) (log : Log T) (r : UInt64) : Prop :=
  ∃ R ≤ log.released.length, r.toNat = R % c.slots.toNat

/-- The cell of a total that the published elements have reached. -/
def WriteSample (c : Capacity) (log : Log T) (w : UInt64) : Prop :=
  ∃ W ≤ log.published.length, w.toNat = W % c.slots.toNat

/-- The sampled peer index shows no more room, or no more elements, than there are. -/
def Ring.sampledSafely (ring : Ring T) (role : Role) (h : Handle) : Bool :=
  match role with
  | .producer =>
    freeSlots h.capacity ring.writeIdx h.readIdxCache ≤
      freeSlots h.capacity ring.writeIdx ring.readIdx
  | .consumer =>
    usedSlots h.capacity h.writeIdxCache ring.readIdx ≤
      usedSlots h.capacity ring.writeIdx ring.readIdx

section Samples

variable {c : Capacity} {ring : Ring T} {log : Log T} {h : Handle}

/-- A producer's sample that shows no more room than there is makes a cache. -/
theorem ReadCache.of_sample (hring : ring.Holds c log) (hcap : h.capacity = c.slots)
    (hr : ReadSample c log h.readIdxCache) (hsafe : ring.sampledSafely .producer h) :
    ReadCache c log h.readIdxCache 0 := by
  obtain ⟨R, hR, hcell⟩ := hr
  obtain ⟨C, hC, hnear, hmod⟩ := Circular.exists_mod_eq c.pos hR
  have hcache : h.readIdxCache.toNat = C % c.slots.toNat := hcell.trans hmod.symm
  refine ⟨C, hcache, hC, ?_⟩
  -- a sample a full turn behind would show the room of one turn less
  by_contra hfar
  have hle := hring.le
  have hroom := hring.room
  have hwrite : ring.writeIdx.toNat =
      (log.published.length - c.slots.toNat) % c.slots.toNat := by
    rw [hring.write, Nat.mod_eq_sub_mod (by omega)]
  simp only [Ring.sampledSafely, hcap, decide_eq_true_eq, UInt64.le_iff_toNat_le] at hsafe
  rw [toNat_freeSlots c hring.write hring.read hle hroom,
    toNat_freeSlots c hwrite hcache (by omega) (by omega)] at hsafe
  omega

/-- A consumer's sample that shows no more elements than there are makes a cache. -/
theorem WriteCache.of_sample (hring : ring.Holds c log) (hcap : h.capacity = c.slots)
    (hw : WriteSample c log h.writeIdxCache) (hsafe : ring.sampledSafely .consumer h) :
    WriteCache c log h.writeIdxCache 0 := by
  obtain ⟨W, hW, hcell⟩ := hw
  obtain ⟨D, hD, hnear, hmod⟩ := Circular.exists_mod_eq c.pos hW
  have hcache : h.writeIdxCache.toNat = D % c.slots.toNat := hcell.trans hmod.symm
  refine ⟨D, hcache, ?_, hD⟩
  by_contra hfar
  have hle := hring.le
  have hroom := hring.room
  have hnext : h.writeIdxCache.toNat = (D + c.slots.toNat) % c.slots.toNat := by
    rw [hcache, Nat.add_mod_right]
  simp only [Ring.sampledSafely, hcap, decide_eq_true_eq, UInt64.le_iff_toNat_le] at hsafe
  rw [toNat_usedSlots c hring.write hring.read hle hroom,
    toNat_usedSlots c hnext hring.read (by omega) (by omega)] at hsafe
  omega

end Samples

/-! ## The invariant -/

/-- What `bind` has sampled. -/
def BindPc.Sampled (c : Capacity) (log : Log T) : BindPc → Prop
  | .loadCapacity => True
  | .loadReadIdx capacity => capacity = c.slots
  | .loadWriteIdx capacity r => capacity = c.slots ∧ ReadSample c log r
  | .loadPid h =>
    h.capacity = c.slots ∧ ReadSample c log h.readIdxCache ∧ WriteSample c log h.writeIdxCache
  | .test h _ =>
    h.capacity = c.slots ∧ ReadSample c log h.readIdxCache ∧ WriteSample c log h.writeIdxCache
  | .cas h _ =>
    h.capacity = c.slots ∧ ReadSample c log h.readIdxCache ∧ WriteSample c log h.writeIdxCache

/-- What a handle knows. -/
def Worker.Inv (c : Capacity) (ring : Ring T) (log : Log T) : (role : Role) → Worker T role → Prop
  | .producer, w => Producer.Inv c ring log w
  | .consumer, w => Consumer.Inv c ring log w

/-- What an endpoint knows. -/
def Endpoint.Knows (c : Capacity) (ring : Ring T) (log : Log T) (role : Role) :
    Endpoint (Worker T role) → Prop
  | .bound w => Worker.Inv c ring log role w
  | .attaching _ (.binding b) => b.Sampled c log
  | _ => True

namespace Shm

variable {S : Setup} {c : Capacity} {s s' : Shm T} {a : ShmAct T} {role : Role} {p : ℤ}

/-- The ring holds the log, every live endpoint knows what it knows, and nothing was
published before `ready`. -/
structure Intact (c : Capacity) (s : Shm T) : Prop where
  ring : s.object.ring.Holds c s.log
  endpoint : ∀ role p, s.live p → (s.endpoint role p).Knows c s.object.ring s.log role
  empty : s.object.ready = 0 → s.log = ⟨[], []⟩

/-- The claim that a step of `attach` makes : its role, when the attach started, and the
handle. -/
def claiming (s : Shm T) : ShmAct T → Option (Role × ℕ × Handle)
  | .attachStep role p ans =>
    match s.endpoint role p with
    | .attaching since (.binding (.cas h expected)) =>
      if s.object.pid role = expected ∧ ans.spurious = false then some (role, since, h) else none
    | _ => none
  | _ => none

/-- If the step claims a role, the sampled peer index still errs on the safe side. -/
def safeClaim (s : Shm T) (a : ShmAct T) : Bool :=
  match s.claiming a with
  | some (role, _, h) => s.object.ring.sampledSafely role h
  | none => true

theorem log_produced (out : Ring T × Producer T × List T) :
    (s.produced p out).log = s.log.publish out.2.2 := by
  simp [log, produced, Log.publish, Function.comp_def]

theorem log_consumed (out : Ring T × Consumer T × List T) :
    (s.consumed p out).log = s.log.release out.2.2 := by
  simp [log, consumed, Log.release, Function.comp_def]

end Shm

/-! ## Endpoints over a store of the peer -/

section Frames

variable {c : Capacity} {ring ring' : Ring T} {log : Log T} {h : Handle}

theorem BindPc.Sampled.mono {b : BindPc} {log' : Log T} (h : b.Sampled c log)
    (hr : log.released.length ≤ log'.released.length)
    (hw : log.published.length ≤ log'.published.length) : b.Sampled c log' := by
  have read {r : UInt64} (hs : ReadSample c log r) : ReadSample c log' r := by
    obtain ⟨R, hR, hcell⟩ := hs
    exact ⟨R, hR.trans hr, hcell⟩
  have write {w : UInt64} (hs : WriteSample c log w) : WriteSample c log' w := by
    obtain ⟨W, hW, hcell⟩ := hs
    exact ⟨W, hW.trans hw, hcell⟩
  cases b with
  | loadCapacity => trivial
  | loadReadIdx capacity => exact h
  | loadWriteIdx capacity r => exact ⟨h.1, read h.2⟩
  | loadPid handle => exact ⟨h.1, read h.2.1, write h.2.2⟩
  | test handle expected => exact ⟨h.1, read h.2.1, write h.2.2⟩
  | cas handle expected => exact ⟨h.1, read h.2.1, write h.2.2⟩

/-- A handle that claims its role with a safe sample knows what it has to know. -/
theorem Worker.inv_fresh (hring : ring.Holds c log) (hcap : h.capacity = c.slots)
    (hr : ReadSample c log h.readIdxCache) (hw : WriteSample c log h.writeIdxCache) :
    (role : Role) → ring.sampledSafely role h → Worker.Inv c ring log role (Worker.fresh role h)
  | .producer, hsafe => ⟨hcap, ReadCache.of_sample hring hcap hr hsafe⟩
  | .consumer, hsafe =>
    ⟨hcap, WriteCache.of_sample hring hcap hw hsafe, by simp [fresh, Consumer.fresh],
      by simp [fresh, Consumer.fresh]⟩

end Frames

/-! ## Every step keeps it -/

namespace Shm

variable {S : Setup} {c : Capacity} {s s' : Shm T} {a : ShmAct T} {role : Role} {p : ℤ}

theorem intact_opened (S : Setup) (c : Capacity) (slots : ℕ → T) : Intact c (opened S slots) := by
  have hzero : (0 : UInt64).toNat = 0 % c.slots.toNat := by simp
  refine ⟨⟨hzero, hzero, List.prefix_rfl, by simpa [opened, log] using c.pos,
    by simp [opened, log]⟩, fun role p _ => ?_, fun _ => rfl⟩
  simp only [opened]
  split_ifs <;> trivial

/-- A step that stores to neither index nor slot, and publishes and releases nothing. -/
theorem Intact.quiet (h : Intact c s) {o : Object T} (hring : o.ring = s.object.ring)
    (hready : o.ready = 0 → s.object.ready = 0) {e : Endpoint (Worker T role)}
    (he : s.live p → e.Knows c s.object.ring s.log role) :
    Intact c ({ s with object := o }.set role p e) := by
  have hlog : ({ s with object := o }.set role p e).log = s.log := rfl
  refine ⟨?_, ?_, fun h0 => h.empty (hready h0)⟩
  · rw [set_object, hlog, hring]
    exact h.ring
  · rw [set_object, hlog, hring]
    exact forall_endpoint_set (Q := fun role p e => s.live p → e.Knows c s.object.ring s.log role)
      he fun role' q _ => h.endpoint role' q

/-- A step of `create`. -/
theorem Intact.create (h : Intact c s) (hphase : Phase S s) (hc : S.geometry.capacity = c.slots)
    {ans : Answers} {pc : CreatePc} (hat : s.endpoint S.role S.creator = .creating pc) :
    Intact c (s.after S.role S.creator .creating (createStep S s.object ans pc)) := by
  have hstage := (hphase.stage hat).2.2
  refine h.quiet (createStep_ring hstage) (fun _ => hstage.ready) fun _ => ?_
  have hnext := createStep_stage ans hstage
  generalize (createStep S s.object ans pc).1 = o at hnext
  cases hout : (createStep S s.object ans pc).2 with
  | more pc' => trivial
  | threw e => trivial
  | bound handle =>
    rw [hout] at hnext
    obtain rfl := hnext.2.2
    have hlog := h.empty hstage.ready
    have hzero : (0 : UInt64).toNat = 0 % c.slots.toNat := by simp
    refine Worker.inv_fresh h.ring hc ⟨0, Nat.zero_le _, hzero⟩ ⟨0, Nat.zero_le _, hzero⟩ _ ?_
    cases S.role <;>
      simp [Ring.sampledSafely, Setup.handle, hstage.writeIdx, hstage.readIdx]

/-- What `bind` knows after its next step, if a claim is safe. -/
theorem Intact.knows_bind (h : Intact c s) (hphase : Phase S s) (hexcl : Exclusive (s.seat role))
    (hc : S.geometry.capacity = c.slots) {ans : Answers} {since : ℕ} {b : BindPc}
    (hat : s.endpoint role p = .attaching since (.binding b)) (alive : s.live p)
    (hsafe : s.safeClaim (.attachStep role p ans)) :
    ((attachStep S.name role p s.object ans (.binding b)).2.endpoint role
      (.attaching since)).Knows c s.object.ring s.log role := by
  have hend := h.endpoint role p alive
  rw [hat] at hend
  cases b with
  | loadCapacity =>
    have hready := hphase.endpoint role p
    rw [hat] at hready
    have hgeo : s.object.geometry = S.geometry := by
      rcases hphase.ready with h0 | h1
      · exact absurd (h0.symm.trans hready) (by decide)
      · exact h1.2
    exact (congrArg Geometry.capacity hgeo).trans hc
  | loadReadIdx capacity => exact ⟨hend, _, le_rfl, h.ring.read⟩
  | loadWriteIdx capacity r => exact ⟨hend.1, hend.2, _, le_rfl, h.ring.write⟩
  | loadPid handle => exact hend
  | test handle expected =>
    have hself : expected ≠ p := by
      intro heq
      have hown := (hexcl.testing p expected alive (by simp only [seat, hat]; rfl)).mp heq
      simp only [seat, hat] at hown
      exact absurd hown (by simp [Endpoint.holds])
    simp only [attachStep, bindStep, if_neg hself]
    split_ifs
    · trivial
    · exact hend
  | cas handle expected =>
    simp only [safeClaim, claiming, hat] at hsafe
    simp only [attachStep, bindStep]
    split_ifs at hsafe ⊢ with hcas
    · exact Worker.inv_fresh h.ring hend.1 hend.2.1 hend.2.2 role hsafe
    · exact hend

/-- A step of `attach`. -/
theorem Intact.attach (h : Intact c s) (hphase : Phase S s) (hexcl : Exclusive (s.seat role))
    (hc : S.geometry.capacity = c.slots) {ans : Answers} {since : ℕ} {pc : AttachPc}
    (hat : s.endpoint role p = .attaching since pc) (alive : s.live p)
    (hsafe : s.safeClaim (.attachStep role p ans)) :
    Intact c (s.after role p (.attaching since) (attachStep S.name role p s.object ans pc)) := by
  obtain ⟨hready, -, hring⟩ := attachStep_frame S.name role p s.object ans pc
  refine h.quiet hring (fun h0 => hready.symm.trans h0) fun _ => ?_
  cases pc with
  | opening A =>
    simp only [attachStep]
    split
    · trivial
    · split_ifs <;> trivial
  | readyCheck A lastAttempt mapped =>
    simp only [attachStep]
    split_ifs <;> trivial
  | validating A mapped =>
    simp only [attachStep]
    split <;> trivial
  | binding b => exact h.knows_bind hphase hexcl hc hat alive hsafe

/-- A step of the live producer. -/
theorem Intact.produce (h : Intact c s) (hphase : Phase S s)
    (hexcl : Exclusive (s.seat .producer)) {a : PushAct T} {w : Producer T}
    {out : Ring T × Producer T × List T} (hat : s.endpoint .producer p = .bound w)
    (alive : s.live p) (hact : w.act s.object.ring a = some out) :
    Intact c (s.produced p out) := by
  obtain ⟨ring, w', xs⟩ := out
  have hw := h.endpoint .producer p alive
  rw [hat] at hw
  obtain ⟨hring, hw'⟩ := Producer.act_inv h.ring hw hact
  have hread := Producer.act_readIdx hact
  have hlog := log_produced (s := s) (p := p) (ring, w', xs)
  refine ⟨by rw [hlog]; exact hring, ?_, fun h0 => ?_⟩
  · rw [hlog]
    refine forall_endpoint_set
      (Q := fun role p e => s.live p → e.Knows c ring (s.log.publish xs) role)
      (fun _ => hw') fun role q hne hq => ?_
    have hend := h.endpoint role q hq
    cases hat' : s.endpoint role q with
    | absent thrown => trivial
    | creating pc => trivial
    | attaching since pc =>
      rw [hat'] at hend
      cases pc with
      | binding b => exact BindPc.Sampled.mono hend le_rfl (by simp)
      | _ => trivial
    | bound v =>
      rw [hat'] at hend
      cases role with
      | producer =>
        have hqp : q = p := hexcl.unique hq alive (congrArg Endpoint.holds hat')
          (congrArg Endpoint.holds hat)
        exact absurd ⟨rfl, hqp⟩ hne
      | consumer => exact Consumer.Inv.publish hend xs hread
  · exact absurd ((hphase.ready_of_bound hat).symm.trans h0) (by decide)

/-- A step of the live consumer. -/
theorem Intact.consume (h : Intact c s) (hphase : Phase S s)
    (hexcl : Exclusive (s.seat .consumer)) {a : PopAct} {w : Consumer T}
    {out : Ring T × Consumer T × List T} (hat : s.endpoint .consumer p = .bound w)
    (alive : s.live p) (hact : w.act s.object.ring a = some out) :
    Intact c (s.consumed p out) := by
  obtain ⟨ring, w', xs⟩ := out
  have hw := h.endpoint .consumer p alive
  rw [hat] at hw
  obtain ⟨hring, hw'⟩ := Consumer.act_inv h.ring hw hact
  obtain ⟨hwrite, hslots⟩ := Consumer.act_frame hact
  have hlog := log_consumed (s := s) (p := p) (ring, w', xs)
  refine ⟨by rw [hlog]; exact hring, ?_, fun h0 => ?_⟩
  · rw [hlog]
    refine forall_endpoint_set
      (Q := fun role p e => s.live p → e.Knows c ring (s.log.release xs) role)
      (fun _ => hw') fun role q hne hq => ?_
    have hend := h.endpoint role q hq
    cases hat' : s.endpoint role q with
    | absent thrown => trivial
    | creating pc => trivial
    | attaching since pc =>
      rw [hat'] at hend
      cases pc with
      | binding b => exact BindPc.Sampled.mono hend (by simp) le_rfl
      | _ => trivial
    | bound v =>
      rw [hat'] at hend
      cases role with
      | producer => exact Producer.Inv.release hend xs hwrite hslots
      | consumer =>
        have hqp : q = p := hexcl.unique hq alive (congrArg Endpoint.holds hat')
          (congrArg Endpoint.holds hat)
        exact absurd ⟨rfl, hqp⟩ hne
  · exact absurd ((hphase.ready_of_bound hat).symm.trans h0) (by decide)

/-- Every step that claims safely, if it claims, keeps the queue intact. -/
theorem intact_step (hphase : Phase S s) (hexcl : ∀ role, Exclusive (s.seat role))
    (hc : S.geometry.capacity = c.slots) (h : Intact c s) (hsafe : s.safeClaim a)
    (hstep : step S s a = some s') : Intact c s' := by
  cases steps_of_step hstep with
  | create at_ alive answers => exact h.create hphase hc at_
  | attach at_ alive => exact h.quiet rfl id fun _ => trivial
  | attachStep at_ alive answers => exact h.attach hphase (hexcl _) hc at_ alive hsafe
  | produce at_ alive act => exact h.produce hphase (hexcl _) at_ alive act
  | consume at_ alive act => exact h.consume hphase (hexcl _) at_ alive act
  | detach at_ alive idle =>
    refine h.quiet ?_ ?_ fun _ => trivial
    · split_ifs <;> simp
    · split_ifs <;> simp
  | die alive => exact ⟨h.ring, fun role q hq => h.endpoint role q (live_died.mp hq).1, h.empty⟩

/-- What holds along the runs whose claims are safe. -/
structure Sound (S : Setup) (c : Capacity) (s : Shm T) : Prop where
  phase : Phase S s
  exclusive : ∀ role, Exclusive (s.seat role)
  intact : Intact c s

theorem sound_opened (S : Setup) (c : Capacity) (slots : ℕ → T) : Sound S c (opened S slots) :=
  ⟨phase_opened S slots, exclusive_opened S slots, intact_opened S c slots⟩

theorem sound_step (hc : S.geometry.capacity = c.slots) (h : Sound S c s) (hsafe : s.safeClaim a)
    (hstep : step S s a = some s') : Sound S c s' :=
  ⟨phase_step h.phase hstep, fun role => exclusive_step h.phase (h.exclusive role) hstep,
    intact_step h.phase h.exclusive hc h.intact hsafe hstep⟩

/-- Endpoint hand-over keeps the queue intact in every run whose claims are safe : any number
of processes may start to attach in a role while its holder is still pushing or popping, and
the elements released by the successive consumers are a prefix of the elements published by
the successive producers, with the rest in the slots. -/
theorem handover (S : Setup)
    (hcreate : create S.layout S.name S.requested S.calls = .ok S.geometry) (slots : ℕ → T)
    {s : Shm T} (run : Reaches (step S) (fun s a => s.safeClaim a) (opened S slots) s) :
    s.released.map Prod.snd <+: s.published.map Prod.snd ∧
      s.published.map Prod.snd =
        s.released.map Prod.snd ++ s.object.ring.contents S.geometry.capacity := by
  have hsound : Sound S (.ofCreate hcreate) s :=
    run.invariant (sound_opened S _ slots) fun _ _ _ h hsafe hstep => sound_step rfl h hsafe hstep
  exact ⟨hsound.intact.ring.fifo, hsound.intact.ring.published_eq⟩

/-- On a ring of two slots process `2` samples the indices, then process `1` pushes `10`,
process `3` pops it, process `1` pushes `11` and detaches. -/
def sampledRun : List (ShmAct ℕ) :=
  List.replicate 20 (ShmAct.create .plain) ++
    ShmAct.attach .consumer 3 messageLayout ::
      List.replicate 9 (ShmAct.attachStep .consumer 3 .plain) ++
    ShmAct.attach .producer 2 messageLayout ::
      List.replicate 6 (ShmAct.attachStep .producer 2 .plain) ++
    ShmAct.produce 1 (.tryPush 10) :: List.replicate 4 (ShmAct.produce 1 .step) ++
    ShmAct.consume 3 .tryPop :: List.replicate 7 (ShmAct.consume 3 .step) ++
    ShmAct.produce 1 (.tryPush 11) :: List.replicate 5 (ShmAct.produce 1 .step) ++
    [ShmAct.detach .producer 1]

/-- Process `2` claims the role with its sample from before and pushes `12` and `13` into a
full ring. -/
def staleRun : List (ShmAct ℕ) :=
  sampledRun ++ List.replicate 3 (ShmAct.attachStep .producer 2 .plain) ++
    ShmAct.produce 2 (.tryPush 12) :: List.replicate 4 (ShmAct.produce 2 .step) ++
    ShmAct.produce 2 (.tryPush 13) :: List.replicate 5 (ShmAct.produce 2 .step) ++
    ShmAct.consume 3 .tryPop :: List.replicate 7 (ShmAct.consume 3 .step)

theorem handover_staleRun :
    ∃ s : Shm ℕ, Reachable (step messageSetup) (opened messageSetup fun _ => 0) s ∧
      s.released = [(3, 10), (3, 13)] ∧
      s.published = [(1, 10), (1, 11), (2, 12), (2, 13)] ∧
      ¬s.released.map Prod.snd <+: s.published.map Prod.snd := by
  have hrun : (exec (step messageSetup) (fun _ _ => True) (opened messageSetup fun _ => 0)
      staleRun).map (fun s => (s.released, s.published)) =
      some ([(3, 10), (3, 13)], [(1, 10), (1, 11), (2, 12), (2, 13)]) := by decide +kernel
  obtain ⟨s, hs, hview⟩ := Option.map_eq_some_iff.mp hrun
  simp only [Prod.mk.injEq] at hview
  obtain ⟨hreleased, hpublished⟩ := hview
  refine ⟨s, Reaches.of_exec hs, hreleased, hpublished, ?_⟩
  rw [hreleased, hpublished]
  decide

/-- Process `2` samples an empty ring, then process `1` fills it and detaches : the sample
still shows no more room than there is. -/
def successorRun : List (ShmAct ℕ) :=
  List.replicate 20 (ShmAct.create .plain) ++
    ShmAct.attach .producer 2 messageLayout ::
      List.replicate 6 (ShmAct.attachStep .producer 2 .plain) ++
    ShmAct.produce 1 (.tryPush 10) :: List.replicate 4 (ShmAct.produce 1 .step) ++
    ShmAct.detach .producer 1 :: List.replicate 3 (ShmAct.attachStep .producer 2 .plain)

theorem handover_successorRun :
    ∃ s : Shm ℕ, Reaches (step messageSetup) (fun s a => s.safeClaim a)
        (opened messageSetup fun _ => 0) s ∧
      (s.endpoint .producer 2).holds ∧ s.published = [(1, 10)] ∧
      s.published.map Prod.snd = s.released.map Prod.snd ++ s.object.ring.contents 2 := by
  have hrun : (exec (step messageSetup) (fun s a => s.safeClaim a)
      (opened messageSetup fun _ => 0) successorRun).map (fun s =>
        ((s.endpoint .producer 2).holds, s.published)) = some (true, [(1, 10)]) := by
    decide +kernel
  obtain ⟨s, hs, hview⟩ := Option.map_eq_some_iff.mp hrun
  simp only [Prod.mk.injEq] at hview
  have run := Reaches.of_exec hs
  exact ⟨s, run, hview.1, hview.2, (handover messageSetup (by decide) _ run).2⟩

end Shm

end ShmSpsc
