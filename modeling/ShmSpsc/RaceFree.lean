import ShmSpsc.Blocking
import ShmSpsc.Weak

/-!
# No slot is raced for

The cells that an index leaves to the side that loads it : to the producer those from the
published elements on, up to a lap behind what the index says was released, and to the consumer
those of the elements that the index says were published. What the other side has done to them
happens before the index was stored, and from then on the other side leaves them alone
(`Weak.Synced`). An acquire load of a release store brings that knowledge over, and the slots
a side accesses are among those its cached index leaves to it, so no access is a race
(`Weak.exactly_once_unraced`). With any of the orders weaker one is (`Weak.race_free_iff`).
-/

namespace ShmSpsc

open Transition Race

variable {T : Type*}

/-! ## The slots of a step -/

/-- The slot of a step is one that the operation has chosen to write. -/
theorem Producer.Inv.mem_writeSlots {c : Capacity} {ring : Ring T} {log : Log T} {p : Producer T}
    {a : PushAct T} {k : ℕ} (hp : p.Inv c ring log) (hk : p.access a = some k) :
    k ∈ p.writeSlots := by
  obtain ⟨handle, pc⟩ := p
  rcases a with _ | _ | _ <;> simp only [Producer.access, reduceCtorEq] at hk
  split at hk
  next v w next =>
    simpa [Producer.writeSlots, PushPc.writeSlots] using (Option.some.inj hk).symm
  next src w count i =>
    exact List.mem_map.mpr ⟨i, List.mem_range.mpr hp.pc.2.1, Option.some.inj hk⟩
  next => cases hk

/-- The slot of a step is one that the operation reads, or that a `front` pointer refers to. -/
theorem Consumer.Inv.mem_readSlots {c : Capacity} {ring : Ring T} {log : Log T} {q : Consumer T}
    {a : PopAct} {k : ℕ} (hq : q.Inv c ring log) (hk : q.access a = some k) :
    k ∈ q.readSlots := by
  obtain ⟨handle, held, peeked, pc⟩ := q
  rcases a with _ | _ | _ | _ | _ | _ <;> simp only [Consumer.access, reduceCtorEq] at hk
  · obtain ⟨r, rfl, rfl⟩ := Option.map_eq_some_iff.mp hk
    simp [Consumer.readSlots]
  · split at hk
    next r =>
      simp only [Consumer.readSlots, PopPc.readSlots, List.mem_append, List.mem_singleton]
      exact .inr (Option.some.inj hk).symm
    next r count dst =>
      exact List.mem_append_right _
        (List.mem_map.mpr ⟨_, List.mem_range.mpr hq.pc.2.1, Option.some.inj hk⟩)
    next => cases hk

/-- The side that stores what the other one loads. -/
theorem Role.eq_of_peerIdx {role u u' : Role} (hu : u ≠ role) (hx : role.peerIdx = u'.ownIdx) :
    u = u' := by
  rcases role with _ | _ <;> rcases u with _ | _ <;> rcases u' with _ | _
  all_goals first | rfl | exact absurd rfl hu | cases hx

namespace Weak

variable {c : Capacity} {o : Orders} {s s' : Weak T} {a : WeakAct T}

/-- The cells that an index of total `n` leaves to `role`. -/
def left (c : Capacity) (log : Log T) (role : Role) (n : ℕ) : Set ℕ :=
  match role with
  | .producer => {k | ∃ j, log.published.length ≤ j ∧ j < n + c.slots.toNat ∧
      k = j % c.slots.toNat}
  | .consumer => {k | ∃ i, log.released.length ≤ i ∧ i < n ∧ k = i % c.slots.toNat}

/-- What the other side has done to the cells that an index leaves to `role` happens before
the index was stored, and before the next step of `role` if it has seen the index. -/
structure Synced (c : Capacity) (s : Weak T) : Prop where
  counted : s.memory.Counted
  sent : ∀ role u, u ≠ role → ∀ m ∈ s.memory.messages role.peerIdx,
    s.memory.Before u (left c s.base.log role m.value.total) m.clock
  seen : ∀ role u, u ≠ role →
    s.memory.Before u (left c s.base.log role (s.memory.shown role role.peerIdx).value.total)
      (s.memory.clock role)

theorem synced_created (c : Capacity) (role : Role) (slots : ℕ → T) :
    Synced c (created c.slots role slots) :=
  ⟨Memory.counted_start _, fun _ u _ _ _ => Memory.before_start _ u _ _,
    fun _ u _ => Memory.before_start _ u _ _⟩

/-- An index leaves fewer cells the further the own side has gone. -/
theorem left_anti {log log' : Log T} (hpublished : log.published.length ≤ log'.published.length)
    (hreleased : log.released.length ≤ log'.released.length) (role : Role) (n : ℕ) :
    left c log' role n ⊆ left c log role n := by
  rcases role with _ | _
  · rintro k ⟨j, hj, hlt, rfl⟩
    exact ⟨j, hpublished.trans hj, hlt, rfl⟩
  · rintro k ⟨i, hi, hlt, rfl⟩
    exact ⟨i, hreleased.trans hi, hlt, rfl⟩

/-- No cell is left to both sides : the free cells and the full ones lie in one lap. -/
theorem left_disjoint (hinv : Inv c s) {role role' : Role} (hne : role ≠ role') {n n' k : ℕ}
    (hn : n ≤ s.total role.peerIdx) (hn' : n' ≤ s.total role'.peerIdx)
    (hk : k ∈ left c s.base.log role n) : k ∉ left c s.base.log role' n' := by
  have hle := hinv.ring.le
  have apart : ∀ {n n' : ℕ}, n ≤ s.total .readIdx → n' ≤ s.total .writeIdx →
      k ∈ left c s.base.log .producer n → k ∉ left c s.base.log .consumer n' := by
    rintro n n' hn hn' ⟨j, hj, hlt, rfl⟩ ⟨i, hi, hi', heq⟩
    simp only [total] at hn hn'
    have := Circular.eq_of_mod_eq (by omega) (by omega) hi (by omega) heq
    omega
  rcases role with _ | _ <;> rcases role' with _ | _
  · exact absurd rfl hne
  · exact apart hn hn' hk
  · exact fun hk' => apart hn' hn hk' hk
  · exact absurd rfl hne

/-! ## The slots a side accesses are left to it -/

/-- The slot of a step is one that the operation has chosen. -/
theorem access_mem {role : Role} {b : SpscAct T} {k : ℕ} (hinv : Inv c s) (hrole : b.role = role)
    (hk : s.base.access b = some k) :
    k ∈ left c s.base.log role (s.memory.shown role role.peerIdx).value.total := by
  rcases b with _ | _ | b | b
  · cases hk
  · cases hk
  · obtain rfl : role = .producer := hrole.symm
    simp only [Spsc.access] at hk
    split at hk
    next p hp =>
      have hview := hinv.view .producer
      have hknows := hview.producer p hp
      obtain ⟨i, hi, hlt, rfl⟩ := hknows.writeSlots_free hview.ring (hknows.mem_writeSlots hk)
      refine ⟨i, hi, hlt.trans_le ?_, rfl⟩
      simp [sideView, Role.peerIdx, List.length_take]
    next => cases hk
  · obtain rfl : role = .consumer := hrole.symm
    simp only [Spsc.access] at hk
    split at hk
    next q hq =>
      have hview := hinv.view .consumer
      have hknows := hview.consumer q hq
      obtain ⟨i, hi, hlt, rfl⟩ := hknows.readSlots_occupied hview.ring (hknows.mem_readSlots hk)
      refine ⟨i, hi, hlt.trans_le ?_, rfl⟩
      simp [sideView, Role.peerIdx, List.length_take]
    next => cases hk

/-- A step that touches a slot does not race for it. -/
theorem Synced.not_races (hinv : Inv c s) (h : Synced c s) (b : SpscAct T) : ¬s.Races b := by
  rintro ⟨k, hk, hraces⟩
  have hmem := access_mem hinv rfl hk
  refine Memory.not_races (fun u hu => ?_) _ hraces
  exact (h.seen b.role u hu).mono (Set.singleton_subset_iff.mpr hmem) le_rfl

/-! ## Every step keeps it -/

/-- The loads of the source acquire. -/
theorem load_code (site : LoadSite) : Orders.code.load site = .acquire := by
  rcases site with _ | _ | _ | _ | _ | _ | _ <;> rfl

/-- The stores of the source release. -/
theorem store_code (site : StoreSite) : Orders.code.store site = .release := by
  rcases site with _ | _ | _ | _ <;> rfl

theorem synced_load (h : Synced c s) (hload : s.load .code a = some s') : Synced c s' := by
  obtain ⟨hbase, rfl | ⟨site, hload⟩⟩ := load_eq_some hload
  · exact h
  rw [load_code] at hload
  obtain ⟨base, memory⟩ := s'
  obtain rfl : base = s.base := hbase
  obtain ⟨-, hmessages, hcells, -, hclock⟩ := Memory.load_eq_some hload
  simp only at hmessages hcells hclock
  refine ⟨h.counted.load hload, fun role u hu m hm => ?_, fun role u hu => ?_⟩
  · rw [hmessages] at hm
    exact (h.sent role u hu m hm).congr hcells
  · by_cases hrole : role = a.act.role
    · subst hrole
      -- the side joins the clock of the message that it sees now
      have hsent := h.sent a.act.role u hu _
        (hmessages ▸ memory.shown_mem a.act.role a.act.role.peerIdx)
      refine (hsent.congr hcells).mono subset_rfl ?_
      simp only [hclock, Function.update_self]
      exact le_sup_right
    · have hshown := Memory.shown_load (y := role.peerIdx) hload (.inl hrole)
      refine Memory.Before.mono ?_ subset_rfl (Memory.clock_le_load hload role u)
      rw [hshown]
      exact (h.seen role u hu).congr hcells

/-- An access to a slot that is left to its side. -/
theorem synced_touch {b : SpscAct T} (hinv : Inv c s) (h : Synced c s) :
    Synced c { s with memory := s.touch b } := by
  unfold touch
  split
  next k hk =>
    have hmem := access_mem hinv rfl hk
    have hbound := hinv.shown_le b.role b.role.peerIdx
    refine ⟨h.counted.touch, fun role u hu m hm => ?_, fun role u hu => ?_⟩
    · refine (h.sent role u hu m hm).touch fun heq => ?_
      exact left_disjoint hinv (heq ▸ hu) hbound (hinv.le _ m hm) hmem
    · refine Memory.Before.mono (c := s.memory.clock role) ?_ subset_rfl
        (Memory.clock_le_touch _ _ _ _ _ _)
      refine (h.seen role u hu).touch fun heq => ?_
      exact left_disjoint hinv (heq ▸ hu) hbound (hinv.shown_le role role.peerIdx) hmem
  next => exact h

/-- A message of a step is an old one, or that of a release store. -/
theorem mem_messages_code {b : SpscAct T} {base : Spsc T} {x : IndexVar}
    {m : Race.Message Role Stamp} (hm : m ∈ (s.settle .code b base).messages x) :
    m ∈ (s.touch b).messages x ∨ x = b.role.ownIdx ∧ m.clock = (s.touch b).clock b.role := by
  unfold settle at hm
  split at hm
  next site _ =>
    rw [store_code] at hm
    rcases Memory.mem_messages_store.mp hm with hm | ⟨hx, rfl⟩
    · exact .inl hm
    · exact .inr ⟨hx, rfl⟩
  next => exact .inl hm

/-- A step of a side on what it sees, with its access and its store. -/
theorem synced_acted {b : SpscAct T} {v : Spsc T} (hinv : Inv c s) (h : Synced c s)
    (htotal : ∀ x, s.total x ≤ (s.acted .code b v).total x) : Synced c (s.acted .code b v) := by
  have htouch := synced_touch (b := b) hinv h
  have hanti : ∀ role n, left c (s.merge b.role v).log role n ⊆ left c s.base.log role n :=
    left_anti (htotal .writeIdx) (htotal .readIdx)
  have hcells : (s.acted .code b v).memory.cells = (s.touch b).cells := by
    simp only [acted, settle]
    split <;> rfl
  have hclock : (s.acted .code b v).memory.clock = (s.touch b).clock := by
    simp only [acted, settle]
    split <;> rfl
  refine ⟨fun k kind u => ?_, fun role u hu m hm => ?_, fun role u hu => ?_⟩
  · rw [hcells, hclock]
    exact htouch.counted k kind u
  · rcases mem_messages_code hm with hm | ⟨hx, hsent⟩
    · exact ((htouch.sent role u hu m hm).mono (hanti _ _) le_rfl).congr hcells
    · -- the message of a release store carries the clock of its side
      obtain rfl : u = b.role := Role.eq_of_peerIdx hu hx
      rw [hsent]
      exact (Memory.Before.own htouch.counted _).congr hcells
  · have hshown : (s.acted .code b v).memory.shown role role.peerIdx =
        (s.touch b).shown role role.peerIdx := by
      rw [shown_touch]
      exact s.shown_settle b _ role
    rw [hshown, hclock]
    exact ((htouch.seen role u hu).mono (hanti _ _) le_rfl).congr hcells

/-- Every step keeps both. -/
theorem synced_step (hinv : Inv c s) (h : Synced c s) (hstep : s.step .code c.slots a = some s') :
    Synced c s' := by
  obtain ⟨t, v, hload, hview, rfl⟩ := step_eq_some hstep
  have ht := inv_load hinv hload
  exact synced_acted ht (synced_load h hload) (total_le_acted hview)

theorem inv_of_reachable {role : Role} {slots : ℕ → T}
    (run : Reachable (step .code c.slots) (created c.slots role slots) s) :
    Inv c s ∧ Synced c s :=
  run.invariant (I := fun s => Inv c s ∧ Synced c s)
    ⟨inv_created c role slots, synced_created c role slots⟩
    fun _ _ _ h _ hstep => ⟨inv_step h.1 hstep, synced_step h.1 h.2 hstep⟩

/-- The queue under its memory orders. On every segment that `create` makes and along every
run, whichever messages the loads of the peer's index read : the next slot access of either
side is no data race, so the copies of `memcpy` are what the other side wrote; the assertion of
`pop()` has not failed; what was released is a prefix of what was published, and the rest is
in the slots. -/
theorem exactly_once_unraced {L : Layout} {name : String} {requested : UInt64}
    {calls : CreateCalls} {g : Geometry} (hcreate : create L name requested calls = .ok g)
    (role : Role) (slots : ℕ → T) {s : Weak T}
    (run : Reachable (step .code g.capacity) (created g.capacity role slots) s) :
    (∀ b, ¬s.Races b) ∧ (∀ q, s.base.consumer = .up q → q.pc ≠ .aborted) ∧
      s.base.log.released <+: s.base.log.published ∧
      s.base.log.published = s.base.log.released ++ s.base.ring.contents g.capacity := by
  obtain ⟨hinv, hsynced⟩ := inv_of_reachable (c := .ofCreate hcreate) run
  refine ⟨hsynced.not_races hinv, ?_, hinv.fifo, hinv.ring.published_eq⟩
  intro q hq haborted
  have hpc := ((hinv.view .consumer).consumer q hq).pc
  rw [haborted] at hpc
  exact hpc

/-- `n` steps of a call of the producer, its loads reading the `i`-th message. -/
def pushSteps (a : PushAct ℕ) (n i : ℕ) : List (WeakAct ℕ) :=
  ⟨.produce a, i⟩ :: List.replicate n ⟨.produce .step, i⟩

/-- `n` steps of a call of the consumer. -/
def popSteps (a : PopAct) (n i : ℕ) : List (WeakAct ℕ) :=
  ⟨.consume a, i⟩ :: List.replicate n ⟨.consume .step, i⟩

/-- A pop that reads the first message of `writeIdx` finds nothing although an element was
published; the next one, which reads the second, takes it. -/
def lateRun : List (WeakAct ℕ) :=
  pushSteps (.tryPush 7) 4 0 ++ [⟨.attachConsumer, 0⟩, ⟨.attachConsumer, 0⟩] ++
    popSteps .tryPop 3 0 ++ popSteps .tryPop 7 1

theorem exactly_once_unraced_lateRun :
    ∃ s : Weak ℕ, Reachable (step .code 2) (created 2 .producer fun _ => 0) s ∧
      s.base.log.released = [7] ∧ (∀ b, ¬s.Races b) ∧
      s.base.log.published = s.base.log.released ++ s.base.ring.contents 2 := by
  have hlog : (exec (step .code 2) (fun _ _ => True) (created 2 .producer fun _ => 0)
      lateRun).map (fun s => s.base.log.released) = some [7] := by decide +kernel
  obtain ⟨s, hs, hlog⟩ := Option.map_eq_some_iff.mp hlog
  have run := Reaches.of_exec hs
  have hcreate : create messageLayout "/q" 1 ⟨none, none, none⟩ =
      .ok (createdGeometry messageLayout 2 352) := by decide
  obtain ⟨hraces, -, -, hpublished⟩ := exactly_once_unraced hcreate _ _ run
  exact ⟨s, run, hlog, hraces, hpublished⟩

end Weak

/-! ## No order can be weakened -/

/-- `o'` synchronizes wherever `o` does. -/
structure Orders.Weaker (o o' : Orders) : Prop where
  load : ∀ site, o.load site = .acquire → o'.load site = .acquire
  store : ∀ site, o.store site = .release → o'.store site = .release

namespace Weak

variable {o o' : Orders} {s t t' : Weak T} {a : WeakAct T} {capacity : UInt64}

/-- The same state, with less known of what happens before what. -/
structure Weaker (s t : Weak T) : Prop where
  base : s.base = t.base
  memory : s.memory.Weaker t.memory

theorem Weaker.sideView_eq (h : Weaker s t) (role : Role) : s.sideView role = t.sideView role := by
  have hshown : ∀ x, (s.memory.shown role x).value = (t.memory.shown role x).value := fun x =>
    (Memory.shown_forall₂ h.memory.seen (h.memory.messages x) role).1
  rcases role with _ | _ <;> simp only [sideView, hshown, h.base]

theorem Weaker.load (ho : o.Weaker o') (h : Weaker s t) (hload : t.load o' a = some t') :
    ∃ s', s.load o a = some s' ∧ Weaker s' t' := by
  rw [Weak.load] at hload
  split at hload
  next site hsite =>
    obtain ⟨memory, hmemory, rfl⟩ := Option.map_eq_some_iff.mp hload
    obtain ⟨memory₂, hload₂, hweaker⟩ := h.memory.load (ho.load site) hmemory
    simp only [Weak.load, h.base, hsite, hload₂, Option.map_some]
    exact ⟨_, rfl, rfl, hweaker⟩
  next hsite =>
    obtain rfl := Option.some.inj hload
    simp only [Weak.load, h.base, hsite]
    exact ⟨s, rfl, h⟩

theorem Weaker.settle (ho : o.Weaker o') (h : Weaker s t) (b : SpscAct T) (base : Spsc T) :
    (s.settle o b base).Weaker (t.settle o' b base) := by
  have htouch : (s.touch b).Weaker (t.touch b) := by
    unfold touch
    rw [h.base]
    split
    · exact h.memory.touch _ _ _
    · exact h.memory
  unfold Weak.settle
  rw [h.base]
  split
  next site hsite => exact htouch.store (ho.store site) _ _ _
  next => exact htouch

/-- The same step, under weaker orders. -/
theorem Weaker.step (ho : o.Weaker o') (h : Weaker s t) (hstep : t.step o' capacity a = some t') :
    ∃ s', s.step o capacity a = some s' ∧ Weaker s' t' := by
  obtain ⟨t₁, hload, hstep⟩ := Option.bind_eq_some_iff.mp hstep
  obtain ⟨v, hview, rfl⟩ := Option.map_eq_some_iff.mp hstep
  obtain ⟨s₁, hload₁, h₁⟩ := Weaker.load ho h hload
  have hmerge : s₁.merge a.act.role v = t₁.merge a.act.role v := by
    rcases hrole : a.act.role with _ | _ <;> simp only [merge, h₁.base]
  rw [Weak.step, hload₁, Option.bind_some, h₁.sideView_eq, hview, Option.map_some]
  refine ⟨_, rfl, hmerge, ?_⟩
  rw [hmerge]
  exact h₁.settle ho _ _

/-- What races under some orders races under weaker ones. -/
theorem races_of_weaker (ho : o.Weaker o') {role : Role} {slots : ℕ → T} {b : SpscAct T}
    (run : Reachable (step o' capacity) (created capacity role slots) t) (hraces : t.Races b) :
    ∃ s, Reachable (step o capacity) (created capacity role slots) s ∧ s.Races b := by
  have hstart : Weaker (created capacity role slots) (created capacity role slots) :=
    ⟨rfl, Memory.weaker_start _⟩
  have follow : ∀ (t s : Weak T) (a : WeakAct T) (t' : Weak T), Weaker s t →
      t.step o' capacity a = some t' → ∃ s', s.step o capacity a = some s' ∧ Weaker s' t' :=
    fun _ _ _ _ h hstep => h.step ho hstep
  obtain ⟨s, run', h⟩ := run.simulate (R := fun t s => Weaker s t) hstart follow
  obtain ⟨k, hk, hraces⟩ := hraces
  exact ⟨s, run', k, by rw [h.base]; exact hk, h.memory.races hraces⟩

/-- A push into slot `0`, an attach whose `writeIdxCache_` is the `i`-th message, and a pop up
to its copy. -/
def firstRun (push : PushAct ℕ) (i : ℕ) (popping : PopAct) (n : ℕ) : List (WeakAct ℕ) :=
  pushSteps push 4 0 ++ [⟨.attachConsumer, 0⟩, ⟨.attachConsumer, i⟩] ++ popSteps popping n 1

/-- Once around a ring of two slots, up to the next copy into slot `0`. -/
def lapRun (push : PushAct ℕ) (popping : PopAct) (n : ℕ) : List (WeakAct ℕ) :=
  firstRun push 0 popping n ++ pushSteps push 5 1 ++ popSteps popping n 2 ++ pushSteps push 3 2

/-- The next step of a side. -/
def nextStep : Role → SpscAct ℕ
  | .producer => .produce .step
  | .consumer => .consume .step

/-- The slot that `role` accesses after `run`, how many accesses of its peer it knows of, and
which of them was the last one to slot `0`. -/
def meeting (o : Orders) (role : Role) (run : List (WeakAct ℕ)) : Option (Option ℕ × ℕ × ℕ) :=
  (exec (step o 2) (fun _ _ => True) (created 2 .producer fun _ => 0) run).map fun s =>
    (s.base.access (nextStep role), s.memory.clock role role.peer,
      s.memory.cells 0 role.peer.kind role.peer)

theorem races_of_meeting {role : Role} {run : List (WeakAct ℕ)}
    (h : meeting o role run = some (some 0, 0, 1)) :
    ∃ s, Reachable (step o 2) (created 2 .producer fun _ => 0) s ∧ s.Races (nextStep role) := by
  obtain ⟨s, hs, hmeet⟩ := Option.map_eq_some_iff.mp h
  obtain ⟨hk, hmeet⟩ := Prod.mk.inj hmeet
  obtain ⟨hclock, hcell⟩ := Prod.mk.inj hmeet
  have hrole : (nextStep role).role = role := by rcases role with _ | _ <;> rfl
  refine ⟨s, Reaches.of_exec hs, 0, hk, role.peer, ?_, role.peer.kind, ?_, ?_⟩
  · rcases role with _ | _ <;> simp [Role.peer, hrole]
  · rcases role with _ | _ <;> rfl
  · rw [hrole, hclock, hcell]
    exact Nat.one_pos

end Weak

namespace Orders

/-- The source's orders with the load at `site` relaxed. -/
def relaxLoad (site : LoadSite) : Orders :=
  { code with
    tryPushLoad := if site = .tryPush then .relaxed else .acquire
    pushNLoad := if site = .pushN then .relaxed else .acquire
    frontLoad := if site = .front then .relaxed else .acquire
    popNLoad := if site = .popN then .relaxed else .acquire
    bindWriteIdx := if site = .bindWriteIdx then .relaxed else .acquire }

/-- The source's orders with the store at `site` relaxed. -/
def relaxStore (site : StoreSite) : Orders :=
  { code with
    tryPushStore := if site = .tryPush then .relaxed else .release
    pushNStore := if site = .pushN then .relaxed else .release
    popStore := if site = .pop then .relaxed else .release
    popNStore := if site = .popN then .relaxed else .release }

variable {o : Orders}

theorem weaker_relaxLoad {site : LoadSite} (h : o.load site = .relaxed) :
    o.Weaker (relaxLoad site) := by
  refine ⟨fun site' hacquire => ?_, fun site' _ => ?_⟩
  · have hne : site ≠ site' := by
      rintro rfl
      rw [h] at hacquire
      cases hacquire
    rcases site' with _ | _ | _ | _ | _ | _ | _ <;> simp [load, relaxLoad, hne]
  · rcases site' with _ | _ | _ | _ <;> rfl

theorem weaker_relaxStore {site : StoreSite} (h : o.store site = .relaxed) :
    o.Weaker (relaxStore site) := by
  refine ⟨fun site' _ => ?_, fun site' hrelease => ?_⟩
  · rcases site' with _ | _ | _ | _ | _ | _ | _ <;> rfl
  · have hne : site ≠ site' := by
      rintro rfl
      rw [h] at hrelease
      cases hrelease
    rcases site' with _ | _ | _ | _ <;> simp [store, relaxStore, hne]

end Orders

namespace Weak

/-- The side that races for slot `0` if the load at `site` is relaxed, and the run up to
there. -/
def loadMeeting : LoadSite → Role × List (WeakAct ℕ)
  | .tryPush => (.producer, lapRun (.tryPush 0) .tryPop 7)
  | .pushN => (.producer, lapRun (.pushN (fun _ => 0) 1) .tryPop 7)
  | .front => (.consumer, firstRun (.tryPush 0) 0 .tryPop 3)
  | .popN => (.consumer, firstRun (.tryPush 0) 0 (.popN 1) 3)
  | .bindWriteIdx => (.consumer, firstRun (.tryPush 0) 1 .tryPop 2)
  | _ => (.consumer, [])

/-- The same for a relaxed store. -/
def storeMeeting : StoreSite → Role × List (WeakAct ℕ)
  | .tryPush => (.consumer, firstRun (.tryPush 0) 0 .tryPop 3)
  | .pushN => (.consumer, firstRun (.pushN (fun _ => 0) 1) 0 .tryPop 3)
  | .pop => (.producer, lapRun (.tryPush 0) .tryPop 7)
  | .popN => (.producer, lapRun (.tryPush 0) (.popN 1) 5)

theorem meeting_relaxLoad (site : LoadSite) (hassert : site ≠ .popAssert)
    (hbind : site ≠ .bindReadIdx) :
    meeting (.relaxLoad site) (loadMeeting site).1 (loadMeeting site).2 = some (some 0, 0, 1) := by
  rcases site with _ | _ | _ | _ | _ | _ | _
  · decide +kernel
  · decide +kernel
  · decide +kernel
  · decide +kernel
  · decide +kernel
  · exact absurd rfl hassert
  · exact absurd rfl hbind

theorem meeting_relaxStore (site : StoreSite) :
    meeting (.relaxStore site) (storeMeeting site).1 (storeMeeting site).2 =
      some (some 0, 0, 1) := by
  rcases site with _ | _ | _ | _
  · decide +kernel
  · decide +kernel
  · decide +kernel
  · decide +kernel

/-- No order can be weakened. The slots are never raced for, in no queue of no element type,
exactly with the orders of the source : each of the four loads that an operation decides on, and
the load of `writeIdx` in `bind`, has to acquire, and each of the four stores to an index has to
release. -/
theorem race_free_iff (o : Orders) :
    (∀ (T : Type) (c : Capacity) (role : Role) (slots : ℕ → T) (s : Weak T),
      Reachable (step o c.slots) (created c.slots role slots) s → ∀ b, ¬s.Races b) ↔
      o = .code := by
  constructor
  · intro hfree
    have fail : ∀ {o' : Orders} {role : Role} {run : List (WeakAct ℕ)}, o.Weaker o' →
        meeting o' role run = some (some 0, 0, 1) → False := by
      intro o' role run hweaker hmeeting
      obtain ⟨t, run', hraces⟩ := races_of_meeting hmeeting
      obtain ⟨s, run'', hraces⟩ := races_of_weaker hweaker run' hraces
      exact hfree ℕ ⟨2, by decide, by decide⟩ _ _ s run'' _ hraces
    have hload : ∀ site, o.load site = .acquire := by
      intro site
      rcases hsite : o.load site with _ | _
      · refine (fail (Orders.weaker_relaxLoad hsite) (meeting_relaxLoad site ?_ ?_)).elim
        · rintro rfl
          cases hsite
        · rintro rfl
          cases hsite
      · rfl
    have hstore : ∀ site, o.store site = .release := by
      intro site
      rcases hsite : o.store site with _ | _
      · exact (fail (Orders.weaker_relaxStore hsite) (meeting_relaxStore site)).elim
      · rfl
    rcases o with ⟨tryPushLoad, pushNLoad, frontLoad, popNLoad, bindWriteIdx, tryPushStore,
      pushNStore, popStore, popNStore⟩
    rw [Orders.code, Orders.mk.injEq]
    exact ⟨hload .tryPush, hload .pushN, hload .front, hload .popN, hload .bindWriteIdx,
      hstore .tryPush, hstore .pushN, hstore .pop, hstore .popN⟩
  · rintro rfl T c role slots s run
    obtain ⟨hinv, hsynced⟩ := inv_of_reachable run
    exact hsynced.not_races hinv

end Weak

end ShmSpsc
