import ShmSpsc.Spsc

/-!
# `size()` and `empty()`

The two queries load the two indices one after the other, `size()` the `writeIdx` first and
`empty()` in either order, as the operands of `==` may be evaluated. Here an endpoint of the
system may call them between two of its operations, and the peer goes on between the two
loads. With each query goes the number of elements in the queue at the moment it loaded the
peer's index (`seen`), which is history and read by no step.

The endpoint's own index stands still during its query, so the other load alone decides.
`Asked.queries_exact` : `size()` returns that number, and `empty()` tells whether it is `0`.
-/

namespace ShmSpsc

open Transition

variable {T : Type*}

/-- A call of `size()`, or of `empty()` with the order its operands are evaluated in. -/
inductive Query where
  | size
  | empty (writeFirst : Bool)
  deriving DecidableEq, Repr

/-- What a query returned. -/
inductive QueryResult where
  | size (n : UInt64)
  | empty (b : Bool)
  deriving DecidableEq, Repr

/-- The query loads `writeIdx` before `readIdx`. -/
def Query.writeFirst : Query → Bool
  | .size => true
  | .empty writeFirst => writeFirst

/-- `usedSlots(w, r)`, or `w == r` -/
def Query.result (capacity w r : UInt64) : Query → QueryResult
  | .size => .size (usedSlots capacity w r)
  | .empty _ => .empty (w == r)

/-- Where an endpoint is in its query : in none, before the first load, before the second
one, or back with its result. -/
inductive QueryPc where
  | idle
  | first (k : Query) (capacity : UInt64)
  | second (k : Query) (capacity x : UInt64) (seen : Option ℕ)
  | returned (ret : QueryResult) (seen : ℕ)
  deriving DecidableEq, Repr

/-- The query is under way. -/
def QueryPc.busy : QueryPc → Bool
  | .first _ _ => true
  | .second _ _ _ _ => true
  | _ => false

/-- The endpoint that takes a step. -/
def SpscAct.role : SpscAct T → Role
  | .attachProducer => .producer
  | .attachConsumer => .consumer
  | .produce _ => .producer
  | .consume _ => .consumer

/-- The `capacity_` of an endpoint between two of its operations. -/
def Spsc.between (s : Spsc T) : Role → Option UInt64
  | .producer =>
    match s.producer with
    | .up ⟨h, .ready _⟩ => some h.capacity
    | _ => none
  | .consumer =>
    match s.consumer with
    | .up ⟨h, _, _, .ready _⟩ => some h.capacity
    | _ => none

/-- The two sides, and their queries. -/
structure Asked (T : Type*) where
  base : Spsc T
  query : Role → QueryPc

/-- A step of one of the sides, a call of a query, or the next load of one. -/
inductive AskedAct (T : Type*) where
  | run (a : SpscAct T)
  | call (role : Role) (k : Query)
  | load (role : Role)

/-- The index that the peer of `role` stores : `readIdx` for the producer. -/
def Role.peersWrite : Role → Bool
  | .producer => false
  | .consumer => true

/-- A load of `writeIdx` if `write`, else of `readIdx`. -/
def Ring.idx (ring : Ring T) (write : Bool) : UInt64 :=
  if write then ring.writeIdx else ring.readIdx

namespace Asked

/-- The query of `role` is at `pc`. -/
def ask (s : Asked T) (role : Role) (pc : QueryPc) : Asked T :=
  { s with query := Function.update s.query role pc }

/-- One step. An endpoint takes no other step during its query. -/
def step (capacity : UInt64) (s : Asked T) : AskedAct T → Option (Asked T)
  | .run a =>
    if (s.query a.role).busy then none
    else (s.base.step capacity a).map fun base => { s with base := base }
  | .call role k =>
    if (s.query role).busy then none
    else (s.base.between role).map fun own => s.ask role (.first k own)
  | .load role =>
    match s.query role with
    | .first k own =>
      let x := s.base.ring.idx k.writeFirst
      let seen := if k.writeFirst = role.peersWrite then some s.base.log.held else none
      some (s.ask role (.second k own x seen))
    | .second k own x seen =>
      let y := s.base.ring.idx !k.writeFirst
      let ret := if k.writeFirst then k.result own x y else k.result own y x
      some (s.ask role (.returned ret (seen.getD s.base.log.held)))
    | _ => none

/-- A created segment, with no query under way. -/
def created (capacity : UInt64) (role : Role) (slots : ℕ → T) : Asked T where
  base := .created capacity role slots
  query := fun _ => .idle

end Asked

/-! ## What a query knows -/

/-- The queries on the indices `w` and `r` count `n` elements. -/
structure Counts (c : Capacity) (w r : UInt64) (n : ℕ) : Prop where
  size : (usedSlots c.slots w r).toNat = n
  empty : w = r ↔ n = 0
  le : n ≤ (capacityOf c.slots).toNat

theorem Ring.Holds.counts {c : Capacity} {ring : Ring T} {log : Log T} (h : ring.Holds c log) :
    Counts c ring.writeIdx ring.readIdx log.held := by
  have hle := h.le
  have hroom := h.room
  refine ⟨toNat_usedSlots c h.write h.read hle hroom, ?_, ?_⟩
  · rw [eq_comm, cell_eq_iff c h.write h.read hle hroom, Log.held]
    omega
  · rw [toNat_capacityOf, Log.held]
    omega

/-- The same, for what an endpoint of `role` loaded of its peer's index and of its own. -/
def Role.Sees (role : Role) (c : Capacity) (peer own : UInt64) (n : ℕ) : Prop :=
  match role with
  | .producer => Counts c own peer n
  | .consumer => Counts c peer own n

/-- The result is the exact one for `n` elements. -/
def QueryResult.Exact (c : Capacity) (n : ℕ) : QueryResult → Prop
  | .size m => m.toNat = n ∧ n ≤ (capacityOf c.slots).toNat
  | .empty b => b = true ↔ n = 0

/-- What holds at each place of a query of `role`. With the peer's index loaded first, it
and the endpoint's own index, which stands still, count what was seen; with the own index
loaded first, it is still the current one. -/
def QueryPc.Inv (c : Capacity) (ring : Ring T) (role : Role) : QueryPc → Prop
  | .idle => True
  | .first _ own => own = c.slots
  | .second k own x seen =>
    own = c.slots ∧
      if k.writeFirst = role.peersWrite then
        ∃ n, seen = some n ∧ role.Sees c x (ring.idx !role.peersWrite) n
      else seen = none ∧ x = ring.idx !role.peersWrite
  | .returned ret n => ret.Exact c n

theorem Query.exact_result {c : Capacity} {w r : UInt64} {n : ℕ} (h : Counts c w r n)
    (k : Query) : (k.result c.slots w r).Exact c n := by
  cases k with
  | size => exact ⟨h.size, h.le⟩
  | empty writeFirst =>
    rw [Query.result, QueryResult.Exact, beq_iff_eq]
    exact h.empty

/-- The result of a query, from its two loads in whatever order. -/
theorem Query.exact_loads {c : Capacity} {role : Role} {peer own : UInt64} {n : ℕ}
    (h : role.Sees c peer own n) (k : Query) :
    (if role.peersWrite then k.result c.slots peer own
      else k.result c.slots own peer).Exact c n := by
  cases role with
  | producer => exact Query.exact_result h k
  | consumer => exact Query.exact_result h k

theorem Ring.Holds.sees {c : Capacity} {ring : Ring T} {log : Log T} (h : ring.Holds c log)
    (role : Role) :
    role.Sees c (ring.idx role.peersWrite) (ring.idx !role.peersWrite) log.held := by
  cases role with
  | producer => exact h.counts
  | consumer => exact h.counts

/-- A step of the peer leaves an endpoint's own index as it is. -/
theorem Spsc.step_own {capacity : UInt64} {s s' : Spsc T} {a : SpscAct T} {role : Role}
    (h : s.step capacity a = some s') (hrole : a.role ≠ role) :
    s'.ring.idx (!role.peersWrite) = s.ring.idx (!role.peersWrite) := by
  cases a with
  | attachProducer =>
    cases hp : s.producer <;> simp only [step, hp, Option.some.injEq, reduceCtorEq] at h
    all_goals subst h
    all_goals rfl
  | attachConsumer =>
    cases hc : s.consumer <;> simp only [step, hc, Option.some.injEq, reduceCtorEq] at h
    all_goals subst h
    all_goals rfl
  | produce a =>
    cases hp : s.producer <;> simp only [step, hp, reduceCtorEq] at h
    obtain ⟨⟨ring, p', xs⟩, hact, rfl⟩ := Option.map_eq_some_iff.mp h
    cases role with
    | producer => exact absurd rfl hrole
    | consumer => exact Producer.act_readIdx hact
  | consume a =>
    cases hc : s.consumer <;> simp only [step, hc, reduceCtorEq] at h
    obtain ⟨⟨ring, q', xs⟩, hact, rfl⟩ := Option.map_eq_some_iff.mp h
    cases role with
    | producer => exact (Consumer.act_frame hact).1
    | consumer => exact absurd rfl hrole

theorem Spsc.Inv.between {c : Capacity} {s : Spsc T} (hinv : s.Inv c) {role : Role}
    {own : UInt64} (h : s.between role = some own) : own = c.slots := by
  cases role with
  | producer =>
    simp only [Spsc.between] at h
    split at h
    · rename_i hp
      exact (Option.some.inj h).symm.trans (hinv.producer _ hp).capacity
    · cases h
  | consumer =>
    simp only [Spsc.between] at h
    split at h
    · rename_i hq
      exact (Option.some.inj h).symm.trans (hinv.consumer _ hq).capacity
    · cases h

namespace Asked

/-- The two sides keep their invariant, and each query knows what it knows. -/
structure Inv (c : Capacity) (s : Asked T) : Prop where
  base : s.base.Inv c
  query : ∀ role, (s.query role).Inv c s.base.ring role

theorem Inv.ask {c : Capacity} {s : Asked T} (hinv : s.Inv c) {role : Role} {pc : QueryPc}
    (hpc : pc.Inv c s.base.ring role) : (s.ask role pc).Inv c := by
  refine ⟨hinv.base, fun role' => ?_⟩
  by_cases heq : role' = role
  · subst heq
    simpa [Asked.ask] using hpc
  · simpa [Asked.ask, heq] using hinv.query role'

/-- A step of a side, its endpoint not in a query. -/
theorem inv_run {c : Capacity} {s : Asked T} {a : SpscAct T} {base : Spsc T} (hinv : s.Inv c)
    (hquiet : ¬(s.query a.role).busy) (h : s.base.step c.slots a = some base) :
    Inv c { s with base := base } := by
  refine ⟨Spsc.inv_step hinv.base h, fun role => ?_⟩
  have hq := hinv.query role
  cases hpc : s.query role with
  | idle => trivial
  | first k own =>
    rw [hpc] at hq
    exact hq
  | second k own x seen =>
    have hrole : a.role ≠ role := by
      rintro rfl
      simp [hpc, QueryPc.busy] at hquiet
    rw [hpc] at hq
    simpa only [QueryPc.Inv, Spsc.step_own h hrole] using hq
  | returned ret n =>
    rw [hpc] at hq
    exact hq

/-- A load of a query. -/
theorem inv_load {c : Capacity} {s s' : Asked T} {role : Role} (hinv : s.Inv c)
    (h : s.step c.slots (.load role) = some s') : s'.Inv c := by
  have hq := hinv.query role
  have hsees := hinv.base.ring.sees role
  cases hpc : s.query role with
  | idle => simp [step, hpc] at h
  | returned ret n => simp [step, hpc] at h
  | first k own =>
    simp only [step, hpc, Option.some.injEq] at h
    subst h
    rw [hpc] at hq
    refine hinv.ask ⟨hq, ?_⟩
    split_ifs with hfirst
    · exact ⟨_, rfl, hfirst ▸ hsees⟩
    · refine ⟨rfl, ?_⟩
      rw [Bool.eq_not_of_ne hfirst]
  | second k own x seen =>
    simp only [step, hpc, Option.some.injEq] at h
    subst h
    rw [hpc] at hq
    obtain ⟨rfl, hx⟩ := hq
    refine hinv.ask ?_
    split_ifs at hx with hfirst
    · obtain ⟨n, rfl, hn⟩ := hx
      rw [hfirst]
      exact Query.exact_loads hn k
    · obtain ⟨rfl, rfl⟩ := hx
      have hloads := Query.exact_loads hsees k
      rw [Bool.eq_not_of_ne hfirst, Bool.not_not]
      cases role with
      | producer => exact hloads
      | consumer => exact hloads

/-- Every step keeps the invariant. -/
theorem inv_step {c : Capacity} {s s' : Asked T} {a : AskedAct T} (hinv : s.Inv c)
    (h : s.step c.slots a = some s') : s'.Inv c := by
  cases a with
  | run a =>
    simp only [step] at h
    split_ifs at h with hquiet
    obtain ⟨base, hbase, rfl⟩ := Option.map_eq_some_iff.mp h
    exact inv_run hinv hquiet hbase
  | call role k =>
    simp only [step] at h
    split_ifs at h with hquiet
    obtain ⟨own, hown, rfl⟩ := Option.map_eq_some_iff.mp h
    exact hinv.ask (hinv.base.between hown)
  | load role => exact inv_load hinv h

theorem inv_created (c : Capacity) (role : Role) (slots : ℕ → T) :
    (created c.slots role slots).Inv c :=
  ⟨Spsc.inv_created c role slots, fun _ => trivial⟩

end Asked

end ShmSpsc
