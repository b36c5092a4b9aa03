import ShmSpsc.ControlBlock
import ShmSpsc.Race
import ShmSpsc.Transition

/-!
# Initialisation under its memory orders

The geometry is plain memory : `create` writes it once, and the other processes read it after
a load of `ready` that shows `1`. `Startup.step` has every access to the control block, the cells
of `Race.Memory` being its members : those of `create` in the order of the source, the polls of
`attach`, which may read any message of `ready`, and what a process does past its check, any
reads of the geometry and any atomic accesses in any order. An atomic access conflicts with plain
writes only, as a read does.

`Startup.unraced_iff` : the store to `ready` must release and its load acquire, and then nothing
races but a poll of `ready` with the `memset` of `create`, which clears the atomic members with
plain writes; that one can race under any orders (`Startup.memset_races`).
-/

namespace ShmSpsc

open Transition

/-- The memory orders of the store to `ready` and of the load of it. -/
structure ReadyOrders where
  store : Race.StoreOrder
  load : Race.LoadOrder
  deriving DecidableEq, Repr

/-- The orders in the source. -/
def ReadyOrders.code : ReadyOrders := ⟨.release, .acquire⟩

/-- An access of `create` : a plain write, a plain read or an atomic access, or the store to
`ready`. -/
inductive CreateAccess where
  | write (f : Field)
  | use (f : Field)
  | publish
  deriving DecidableEq, Repr

/-- The pid slot of a role. -/
def Role.pidField : Role → Field
  | .producer => .producerPid
  | .consumer => .consumerPid

/-- The accesses of `create` before the store to `ready` : `memset`, the geometry, the indices,
and `bind`, whose compare-exchange may fail `retries` times. -/
def initAccesses (role : Role) (retries : ℕ) : List CreateAccess :=
  Field.all.map .write ++
    [.write .magic, .write .version, .write .cacheLineSize, .write .elemSize, .write .elemAlign,
      .write .capacity, .write .slotsOffset, .write .totalBytes, .use .writeIdx, .use .readIdx,
      .use .capacity, .use .slotsOffset, .use .readIdx, .use .writeIdx, .use role.pidField] ++
    List.replicate (retries + 1) (.use role.pidField)

/-- The memory, what `create` has still to do, and who is past its check of `ready`, the creator
being so when it has stored it. -/
structure Startup where
  memory : Race.Memory ℤ Unit Field UInt32
  creating : List CreateAccess
  inside : ℤ → Bool

/-- A step of `create`, a poll of `attach` that reads the `i`-th message of `ready`, or an access
of a process that is past its check. -/
inductive StartupAct where
  | create
  | poll (p : ℤ) (i : ℕ)
  | access (p : ℤ) (f : Field)
  deriving DecidableEq, Repr

namespace Startup

/-- One step. -/
def step (o : ReadyOrders) (creator : ℤ) (s : Startup) : StartupAct → Option Startup
  | .create =>
    match s.creating with
    | [] => none
    | .write f :: rest =>
      some { s with memory := s.memory.touch creator .write f, creating := rest }
    | .use f :: rest => some { s with memory := s.memory.touch creator .read f, creating := rest }
    | .publish :: rest =>
      some
        { memory := (s.memory.touch creator .read .ready).store creator () o.store 1
          creating := rest
          inside := Function.update s.inside creator true }
  | .poll p i =>
    if p = creator ∧ s.creating ≠ [] then none
    else
      ((s.memory.touch p .read .ready).load p () o.load i).map fun memory =>
        { s with
          memory := memory
          inside := if (memory.shown p ()).value = 1 then Function.update s.inside p true
                    else s.inside }
  | .access p f => if s.inside p then some { s with memory := s.memory.touch p .read f } else none

/-- The object as `ftruncate` leaves it, zero-filled. -/
def opened (role : Role) (retries : ℕ) : Startup where
  memory := .start fun _ => 0
  creating := initAccesses role retries ++ [.publish]
  inside := fun _ => false

/-- Who accesses which member with a step, and how. -/
def accessOf (creator : ℤ) (s : Startup) : StartupAct → Option (ℤ × Race.Access × Field)
  | .create =>
    match s.creating with
    | [] => none
    | .write f :: _ => some (creator, .write, f)
    | .use f :: _ => some (creator, .read, f)
    | .publish :: _ => some (creator, .read, .ready)
  | .poll p _ => some (p, .read, .ready)
  | .access p f => some (p, .read, f)

/-- A step can be taken, and its access to `f` races. -/
def Races (o : ReadyOrders) (creator : ℤ) (s : Startup) (a : StartupAct) (f : Field) : Prop :=
  (s.step o creator a).isSome ∧
    ∃ p kind, s.accessOf creator a = some (p, kind, f) ∧ s.memory.races p kind f

/-! ## What happens before the store to `ready` -/

/-- What holds along every run under the orders of the source. Nobody else writes, nobody reads
the geometry before `ready` is stored, and all that `create` has written happens before that store
and before what follows a check of it. -/
structure Inv (creator : ℤ) (s : Startup) : Prop where
  counted : s.memory.Counted
  last : s.creating = [] ∨ ∃ pre, s.creating = pre ++ [.publish] ∧ CreateAccess.publish ∉ pre
  writes : ∀ f u, u ≠ creator → s.memory.cells f .write u = 0
  reads : s.creating ≠ [] → ∀ f u, f ≠ .ready → u ≠ creator → s.memory.cells f .read u = 0
  sent : ∀ msg ∈ s.memory.messages (), msg.value = 1 →
    s.creating = [] ∧ ∀ f, s.memory.cells f .write creator ≤ msg.clock creator
  inside : ∀ p, s.inside p = true →
    s.creating = [] ∧ ∀ f, s.memory.cells f .write creator ≤ s.memory.clock p creator

variable {creator : ℤ} {s s' : Startup} {o : ReadyOrders}

theorem inv_opened (creator : ℤ) (role : Role) (retries : ℕ) :
    Inv creator (opened role retries) := by
  refine ⟨Race.Memory.counted_start _, .inr ⟨_, rfl, ?_⟩, fun _ _ _ => rfl,
    fun _ _ _ _ _ => rfl, ?_, by rintro p ⟨⟩⟩
  · simp [initAccesses]
  · intro msg hmsg hone
    obtain rfl := List.mem_singleton.mp hmsg
    cases hone

/-- Nothing races but polls of `ready`. -/
theorem Inv.unraced (h : Inv creator s) {a : StartupAct} {f : Field}
    (hraces : s.Races o creator a f) : f = .ready := by
  obtain ⟨henabled, p, kind, haccess, u, hu, kind', hconflict, hlt⟩ := hraces
  by_contra hf
  cases a with
  | create =>
    simp only [accessOf] at haccess
    split at haccess
    · cases haccess
    · rename_i g rest hat
      cases haccess
      -- nobody else has touched the geometry yet
      rcases kind' with _ | _
      · rw [h.reads (by simp [hat]) f u hf hu] at hlt
        exact Nat.not_lt_zero _ hlt
      · rw [h.writes f u hu] at hlt
        exact Nat.not_lt_zero _ hlt
    · rename_i g rest hat
      cases haccess
      rcases kind' with _ | _
      · cases hconflict
      · rw [h.writes f u hu] at hlt
        exact Nat.not_lt_zero _ hlt
    · cases haccess
      exact hf rfl
  | poll q i =>
    cases haccess
    exact hf rfl
  | access q g =>
    cases haccess
    simp only [step] at henabled
    split_ifs at henabled with hinside
    swap
    · cases henabled
    rcases kind' with _ | _
    · cases hconflict
    · by_cases hcreator : u = creator
      · subst hcreator
        exact absurd ((h.inside p hinside).2 f) (Nat.not_le.mpr hlt)
      · rw [h.writes f u hcreator] at hlt
        exact Nat.not_lt_zero _ hlt

/-! ## Every step keeps it -/

/-- An access of `create` that is not the store to `ready`. -/
theorem Inv.touch (h : Inv creator s) {b : CreateAccess} {rest : List CreateAccess}
    (hat : s.creating = b :: rest) (hb : b ≠ .publish) (kind : Race.Access) (f : Field) :
    Inv creator { s with memory := s.memory.touch creator kind f, creating := rest } := by
  have hnot : s.creating ≠ [] := by simp [hat]
  refine ⟨h.counted.touch, ?_, ?_, ?_, ?_, ?_⟩
  · obtain hnil | ⟨pre, hpre, hmem⟩ := h.last
    · exact absurd hnil hnot
    · rw [hat] at hpre
      rcases pre with _ | ⟨b', pre⟩
      · exact absurd (List.cons.inj hpre).1 hb
      · exact .inr ⟨pre, (List.cons.inj hpre).2, fun hin => hmem (.tail _ hin)⟩
  · intro g u hu
    rw [Race.Memory.cells_touch fun heq => hu heq.2.2]
    exact h.writes g u hu
  · intro _ g u hg hu
    rw [Race.Memory.cells_touch fun heq => hu heq.2.2]
    exact h.reads hnot g u hg hu
  · intro msg hmsg hone
    exact absurd (h.sent msg hmsg hone).1 hnot
  · intro p hp
    exact absurd (h.inside p hp).1 hnot

/-- The store to `ready`. -/
theorem Inv.publish (h : Inv creator s) {rest : List CreateAccess}
    (hat : s.creating = .publish :: rest) :
    Inv creator
      { memory := (s.memory.touch creator .read .ready).store creator () .release 1
        creating := rest
        inside := Function.update s.inside creator true } := by
  have hnot : s.creating ≠ [] := by simp [hat]
  have hcounted : (s.memory.touch creator .read .ready).Counted := h.counted.touch
  obtain rfl : rest = [] := by
    obtain hnil | ⟨pre, hpre, hmem⟩ := h.last
    · exact absurd hnil hnot
    · rw [hat] at hpre
      rcases pre with _ | ⟨b', pre⟩
      · exact (List.cons.inj hpre).2
      · obtain ⟨rfl, -⟩ := List.cons.inj hpre
        exact absurd List.mem_cons_self hmem
  refine ⟨hcounted, .inl rfl, ?_, fun hne => absurd rfl hne, ?_, ?_⟩
  · intro g u hu
    rw [Race.Memory.store, Race.Memory.cells_touch fun heq => hu heq.2.2]
    exact h.writes g u hu
  · intro msg hmsg hone
    refine ⟨rfl, fun f => ?_⟩
    rcases Race.Memory.mem_messages_store.mp hmsg with hold | ⟨-, rfl⟩
    · exact absurd (h.sent msg hold hone).1 hnot
    · exact hcounted f .write creator
  · intro p hp
    refine ⟨rfl, fun f => ?_⟩
    by_cases hcreator : p = creator
    · subst hcreator
      exact hcounted f .write p
    · simp only [Function.update_of_ne hcreator] at hp
      exact absurd (h.inside p hp).1 hnot

/-- A read of `p`, of `ready` or past its check. -/
theorem Inv.read (h : Inv creator s) (p : ℤ) {f : Field} (hf : f = .ready ∨ s.creating = []) :
    Inv creator { s with memory := s.memory.touch p .read f } := by
  have hwrites : ∀ g u, (s.memory.touch p .read f).cells g .write u = s.memory.cells g .write u :=
    fun g u => Race.Memory.cells_touch (by rintro ⟨-, ⟨⟩, -⟩)
  refine ⟨h.counted.touch, h.last, ?_, ?_, ?_, ?_⟩
  · intro g u hu
    rw [hwrites]
    exact h.writes g u hu
  · intro hne g u hg hu
    obtain rfl : f = .ready := hf.resolve_right hne
    rw [Race.Memory.cells_touch fun heq => hg heq.1]
    exact h.reads hne g u hg hu
  · intro msg hmsg hone
    refine ⟨(h.sent msg hmsg hone).1, fun g => ?_⟩
    rw [hwrites]
    exact (h.sent msg hmsg hone).2 g
  · intro q hq
    refine ⟨(h.inside q hq).1, fun g => ?_⟩
    rw [hwrites]
    exact ((h.inside q hq).2 g).trans (Race.Memory.clock_le_touch _ _ _ _ q creator)

/-- An acquire load of `ready`, and what its process then knows. -/
theorem Inv.load (h : Inv creator s) {p : ℤ} {i : ℕ} {memory : Race.Memory ℤ Unit Field UInt32}
    (hload : s.memory.load p () .acquire i = some memory) :
    Inv creator
      { s with
        memory := memory
        inside := if (memory.shown p ()).value = 1 then Function.update s.inside p true
                  else s.inside } := by
  obtain ⟨-, hmessages, hcells, -, hclock⟩ := Race.Memory.load_eq_some hload
  have hold : ∀ q, s.inside q = true → s.creating = [] ∧
      ∀ f, memory.cells f .write creator ≤ memory.clock q creator := by
    intro q hq
    refine ⟨(h.inside q hq).1, fun f => ?_⟩
    rw [hcells]
    exact ((h.inside q hq).2 f).trans (Race.Memory.clock_le_load hload q creator)
  refine ⟨h.counted.load hload, h.last, by rw [hcells]; exact h.writes,
    by rw [hcells]; exact h.reads, ?_, ?_⟩
  · rw [hmessages, hcells]
    exact h.sent
  · intro q hq
    simp only at hq
    split_ifs at hq with hone
    · by_cases hqp : q = p
      · subst hqp
        have hmem : memory.shown q () ∈ s.memory.messages () := by
          rw [← hmessages]
          exact Race.Memory.shown_mem memory q ()
        obtain ⟨hnil, hsent⟩ := h.sent _ hmem hone
        refine ⟨hnil, fun f => ?_⟩
        rw [hcells, hclock, Function.update_self]
        exact (hsent f).trans (le_sup_right (a := s.memory.clock q creator))
      · rw [Function.update_of_ne hqp] at hq
        exact hold q hq
    · exact hold q hq

/-- Every step under the orders of the source keeps the invariant. -/
theorem inv_step {a : StartupAct} (h : Inv creator s) (hstep : s.step .code creator a = some s') :
    Inv creator s' := by
  cases a with
  | create =>
    simp only [step] at hstep
    split at hstep
    next => cases hstep
    next f rest hat =>
      cases hstep
      exact h.touch hat (by rintro ⟨⟩) .write f
    next f rest hat =>
      cases hstep
      exact h.touch hat (by rintro ⟨⟩) .read f
    next rest hat =>
      cases hstep
      exact h.publish hat
  | poll p i =>
    simp only [step] at hstep
    split_ifs at hstep
    obtain ⟨memory, hload, rfl⟩ := Option.map_eq_some_iff.mp hstep
    exact (h.read p (.inl rfl)).load hload
  | access p f =>
    simp only [step] at hstep
    split_ifs at hstep with hinside
    cases hstep
    exact h.read p (.inr (h.inside p hinside).1)

theorem inv_of_reachable {role : Role} {retries : ℕ}
    (run : Reachable (step .code creator) (opened role retries) s) : Inv creator s :=
  run.invariant (inv_opened creator role retries) fun _ _ _ h _ hstep => inv_step h hstep

/-! ## No order can be weakened -/

/-- All of `create`, and a check of `ready` that passes. -/
def readyRun : List StartupAct := List.replicate 34 .create ++ [.poll 2 1]

/-- After the run process `2` is past its check, with what it knows of the creator's accesses and
the creator's last write to `magic`. -/
def known (o : ReadyOrders) : Option (Bool × ℕ × ℕ) :=
  (exec (step o 1) (fun _ _ => True) (opened .producer 0) readyRun).map fun s =>
    (s.inside 2, s.memory.clock 2 1, s.memory.cells .magic .write 1)

theorem races_of_known (h : known o = some (true, 0, 18)) :
    ∃ s, Reachable (step o 1) (opened .producer 0) s ∧ s.Races o 1 (.access 2 .magic) .magic := by
  obtain ⟨s, hs, hview⟩ := Option.map_eq_some_iff.mp h
  simp only [Prod.mk.injEq] at hview
  obtain ⟨hinside, hclock, hcell⟩ := hview
  refine ⟨s, Reaches.of_exec hs, by simp [step, hinside], 2, .read, rfl, 1, by decide, .write,
    rfl, ?_⟩
  rw [hclock, hcell]
  decide

/-- Under any orders but those of the source an access to the geometry can race; under these,
whoever creates and whoever polls or uses the block in whatever order, an access that races is one
to `ready`. -/
theorem unraced_iff (o : ReadyOrders) :
    (∀ creator role retries s a f, Reachable (step o creator) (opened role retries) s →
      s.Races o creator a f → f = .ready) ↔ o = .code := by
  constructor
  · intro hsafe
    by_contra hne
    have hknown : known o = some (true, 0, 18) := by
      obtain ⟨store, load⟩ := o
      rcases store with _ | _ <;> rcases load with _ | _
      · decide +kernel
      · decide +kernel
      · decide +kernel
      · exact absurd rfl hne
    obtain ⟨s, run, hraces⟩ := races_of_known hknown
    cases hsafe 1 .producer 0 s _ _ run hraces
  · rintro rfl creator role retries s a f run hraces
    exact (inv_of_reachable run).unraced hraces

/-- `memset` clears `ready` with a plain write, and a poll in between races with it. -/
theorem memset_races (o : ReadyOrders) :
    ∃ s, Reachable (step o 1) (opened .producer 0) s ∧ s.Races o 1 (.poll 2 0) .ready := by
  have hview : (exec (step o 1) (fun _ _ => True) (opened .producer 0)
      (List.replicate 11 .create)).map (fun s => ((s.step o 1 (.poll 2 0)).isSome,
        s.memory.clock 2 1, s.memory.cells .ready .write 1)) = some (true, 0, 11) := by
    obtain ⟨store, load⟩ := o
    rcases store with _ | _ <;> rcases load with _ | _ <;> decide +kernel
  obtain ⟨s, hs, hview⟩ := Option.map_eq_some_iff.mp hview
  simp only [Prod.mk.injEq] at hview
  obtain ⟨henabled, hclock, hcell⟩ := hview
  refine ⟨s, Reaches.of_exec hs, henabled, 2, .read, rfl, 1, by decide, .write, rfl, ?_⟩
  rw [hclock, hcell]
  decide

end Startup

end ShmSpsc
