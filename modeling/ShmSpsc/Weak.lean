import ShmSpsc.Accepted
import ShmSpsc.Exclusion
import ShmSpsc.Query
import ShmSpsc.Race

/-!
# The queue under its memory orders

One producer and one consumer whose loads of the other's index may be late. The stores to
`writeIdx` and to `readIdx` are messages, the slots plain cells, and each access of the source
carries the memory order that `Orders` gives it (`Orders.code` for the source's own). A side
runs on what it sees (`Weak.sideView`) : the slots, its own index, which nobody else stores,
and the peer's index as of some message that it has not passed yet.

`Weak.Inv` says that each side knows what it knows of the log it sees. Every step keeps it,
whichever message it reads and whatever the orders are (`Weak.inv_step`) : a late index is an
earlier one, and the log that goes with it an earlier log.
-/

namespace ShmSpsc

open Transition Race

variable {T : Type*}

/-- The indices, each stored by one side and loaded by the other. -/
inductive IndexVar where
  | writeIdx
  | readIdx
  deriving DecidableEq, Repr

/-- A stored index, and how many elements had been published or released with it : history,
read by no operation. -/
structure Stamp where
  idx : UInt64
  total : ℕ
  deriving DecidableEq, Repr

/-- The loads of the peer's index : in `try_push`, `push_n`, `front` and `pop_n`, which decide on
them, the load of `writeIdx` in `bind`, and the two that no slot access rests on, the assertion
of `pop()` and the load of `readIdx` in `bind`. -/
inductive LoadSite where
  | tryPush
  | pushN
  | front
  | popN
  | bindWriteIdx
  | popAssert
  | bindReadIdx
  deriving DecidableEq, Repr

/-- The stores to the own index. -/
inductive StoreSite where
  | tryPush
  | pushN
  | pop
  | popN
  deriving DecidableEq, Repr

/-- The memory orders of the loads and stores that the slot accesses rest on. -/
structure Orders where
  tryPushLoad : LoadOrder
  pushNLoad : LoadOrder
  frontLoad : LoadOrder
  popNLoad : LoadOrder
  bindWriteIdx : LoadOrder
  tryPushStore : StoreOrder
  pushNStore : StoreOrder
  popStore : StoreOrder
  popNStore : StoreOrder
  deriving DecidableEq, Repr

namespace Orders

/-- The orders in the source. -/
def code : Orders :=
  ⟨.acquire, .acquire, .acquire, .acquire, .acquire, .release, .release, .release, .release⟩

/-- The order of a load; the other two acquire, as in the source. -/
def load (o : Orders) : LoadSite → LoadOrder
  | .tryPush => o.tryPushLoad
  | .pushN => o.pushNLoad
  | .front => o.frontLoad
  | .popN => o.popNLoad
  | .bindWriteIdx => o.bindWriteIdx
  | .popAssert => .acquire
  | .bindReadIdx => .acquire

/-- The order of a store. -/
def store (o : Orders) : StoreSite → StoreOrder
  | .tryPush => o.tryPushStore
  | .pushN => o.pushNStore
  | .pop => o.popStore
  | .popN => o.popNStore

end Orders

/-- The index that a side stores. -/
def Role.ownIdx : Role → IndexVar
  | .producer => .writeIdx
  | .consumer => .readIdx

/-- The index that a side loads to see the other. -/
def Role.peerIdx : Role → IndexVar
  | .producer => .readIdx
  | .consumer => .writeIdx

/-- What a side does to a slot. -/
def Role.kind : Role → Access
  | .producer => .write
  | .consumer => .read

/-! ## The accesses of a step -/

/-- The producer's load of `readIdx`. -/
def Producer.loadSite (p : Producer T) : PushAct T → Option LoadSite
  | .step =>
    match p.pc with
    | .tryPushRefresh .. => some .tryPush
    | .pushNRefresh .. => some .pushN
    | _ => none
  | _ => none

/-- The producer's store to `writeIdx`. -/
def Producer.storeSite (p : Producer T) : PushAct T → Option StoreSite
  | .step =>
    match p.pc with
    | .tryPushStore .. => some .tryPush
    | .pushNStore .. => some .pushN
    | _ => none
  | _ => none

/-- The consumer's load of `writeIdx`. -/
def Consumer.loadSite (q : Consumer T) : PopAct → Option LoadSite
  | .step =>
    match q.pc with
    | .frontRefresh .. => some .front
    | .popAssert .. => some .popAssert
    | .popNRefresh .. => some .popN
    | _ => none
  | _ => none

/-- The consumer's store to `readIdx`. -/
def Consumer.storeSite (q : Consumer T) : PopAct → Option StoreSite
  | .step =>
    match q.pc with
    | .popStore .. => some .pop
    | .popNStore .. => some .popN
    | _ => none
  | _ => none

namespace Spsc

/-- The load of the peer's index in a step. -/
def loadSite (s : Spsc T) : SpscAct T → Option LoadSite
  | .attachProducer =>
    match s.producer with
    | .absent => some .bindReadIdx
    | _ => none
  | .attachConsumer =>
    match s.consumer with
    | .loading _ => some .bindWriteIdx
    | _ => none
  | .produce a =>
    match s.producer with
    | .up p => p.loadSite a
    | _ => none
  | .consume a =>
    match s.consumer with
    | .up q => q.loadSite a
    | _ => none

/-- The store to the own index in a step. -/
def storeSite (s : Spsc T) : SpscAct T → Option StoreSite
  | .produce a =>
    match s.producer with
    | .up p => p.storeSite a
    | _ => none
  | .consume a =>
    match s.consumer with
    | .up q => q.storeSite a
    | _ => none
  | _ => none

/-- The slot that a step writes or reads. -/
def access (s : Spsc T) : SpscAct T → Option ℕ
  | .produce a =>
    match s.producer with
    | .up p => p.access a
    | _ => none
  | .consume a =>
    match s.consumer with
    | .up q => q.access a
    | _ => none
  | _ => none

/-- The index that `role` stores, with its total. -/
def stamp (s : Spsc T) : Role → Stamp
  | .producer => ⟨s.ring.writeIdx, s.log.published.length⟩
  | .consumer => ⟨s.ring.readIdx, s.log.released.length⟩

end Spsc

/-! ## The machine -/

/-- The two sides, and the memory between them. -/
structure Weak (T : Type*) where
  base : Spsc T
  memory : Memory Role IndexVar ℕ Stamp

/-- A step of a side; `message` is the one that its load of the peer's index reads, if it
makes one. -/
structure WeakAct (T : Type*) where
  act : SpscAct T
  message : ℕ

namespace Weak

/-- What `role` sees : the slots, its own index, and the peer's as far as it has seen it. -/
def sideView (s : Weak T) : Role → Spsc T
  | .producer =>
    let seen := (s.memory.shown .producer .readIdx).value
    { ring := { s.base.ring with readIdx := seen.idx }
      log := ⟨s.base.log.published, s.base.log.released.take seen.total⟩
      producer := s.base.producer
      consumer := .absent }
  | .consumer =>
    let seen := (s.memory.shown .consumer .writeIdx).value
    { ring := { s.base.ring with writeIdx := seen.idx }
      log := ⟨s.base.log.published.take seen.total, s.base.log.released⟩
      producer := .absent
      consumer := s.base.consumer }

/-- The two sides after `role` has taken a step on what it sees, to `v`. -/
def merge (s : Weak T) (role : Role) (v : Spsc T) : Spsc T :=
  match role with
  | .producer =>
    { ring := { v.ring with readIdx := s.base.ring.readIdx }
      log := ⟨v.log.published, s.base.log.released⟩
      producer := v.producer
      consumer := s.base.consumer }
  | .consumer =>
    { ring := { v.ring with writeIdx := s.base.ring.writeIdx }
      log := ⟨s.base.log.published, v.log.released⟩
      producer := s.base.producer
      consumer := v.consumer }

/-- The load of a step. -/
def load (o : Orders) (s : Weak T) (a : WeakAct T) : Option (Weak T) :=
  match s.base.loadSite a.act with
  | some site =>
    (s.memory.load a.act.role a.act.role.peerIdx (o.load site) a.message).map fun memory =>
      { s with memory := memory }
  | none => some s

/-- The slot access of a step. -/
def touch (s : Weak T) (a : SpscAct T) : Memory Role IndexVar ℕ Stamp :=
  match s.base.access a with
  | some k => s.memory.touch a.role a.role.kind k
  | none => s.memory

/-- The memory after a step that leaves `base`, with the access and the store it makes. -/
def settle (o : Orders) (s : Weak T) (a : SpscAct T) (base : Spsc T) :
    Memory Role IndexVar ℕ Stamp :=
  match s.base.storeSite a with
  | some site => (s.touch a).store a.role a.role.ownIdx (o.store site) (base.stamp a.role)
  | none => s.touch a

/-- One step : its load, then the step on what the side sees, with its access and its
store. -/
def step (o : Orders) (capacity : UInt64) (s : Weak T) (a : WeakAct T) : Option (Weak T) :=
  (s.load o a).bind fun s =>
    ((s.sideView a.act.role).step capacity a.act).map fun v =>
      let base := s.merge a.act.role v
      ⟨base, s.settle o a.act base⟩

/-- A segment as `create` returns it to its creator in `role`. -/
def created (capacity : UInt64) (role : Role) (slots : ℕ → T) : Weak T where
  base := .created capacity role slots
  memory := .start fun _ => ⟨0, 0⟩

/-- The slot access of the step `a` is a data race. -/
def Races (s : Weak T) (a : SpscAct T) : Prop :=
  ∃ k, s.base.access a = some k ∧ s.memory.races a.role a.role.kind k

end Weak

/-! ## What a step leaves of the other side -/

namespace Spsc

variable {capacity : UInt64} {s s' : Spsc T} {a : SpscAct T}

/-- A step of the producer's side publishes. -/
theorem step_produces (h : s.step capacity a = some s') (hrole : a.role = .producer) :
    s'.ring.readIdx = s.ring.readIdx ∧ s'.consumer = s.consumer ∧
      ∃ xs, s'.log = s.log.publish xs := by
  have hne : a.role ≠ .consumer := by simp [hrole]
  refine ⟨step_own h hne, ?_⟩
  rcases a with _ | _ | a | a
  · simp only [step] at h
    split at h <;> cases h
    · exact ⟨rfl, [], s.log.publish_nil.symm⟩
    · exact ⟨rfl, [], s.log.publish_nil.symm⟩
  · cases hrole
  · simp only [step] at h
    split at h
    · obtain ⟨⟨ring, p', xs⟩, -, rfl⟩ := Option.map_eq_some_iff.mp h
      exact ⟨rfl, xs, rfl⟩
    · cases h
  · cases hrole

/-- A step of the consumer's side releases, and leaves the slots. -/
theorem step_consumes (h : s.step capacity a = some s') (hrole : a.role = .consumer) :
    s'.ring.writeIdx = s.ring.writeIdx ∧ s'.ring.slots = s.ring.slots ∧
      s'.producer = s.producer ∧ ∃ xs, s'.log = s.log.release xs := by
  have hne : a.role ≠ .producer := by simp [hrole]
  refine ⟨step_own h hne, ?_⟩
  rcases a with _ | _ | a | a
  · cases hrole
  · simp only [step] at h
    split at h <;> cases h
    · exact ⟨rfl, rfl, [], s.log.release_nil.symm⟩
    · exact ⟨rfl, rfl, [], s.log.release_nil.symm⟩
  · cases hrole
  · simp only [step] at h
    split at h
    · obtain ⟨⟨ring, q', xs⟩, hact, rfl⟩ := Option.map_eq_some_iff.mp h
      exact ⟨(Consumer.act_frame hact).2, rfl, xs, rfl⟩
    · cases h

/-- The producer's side sees more of what was released. -/
theorem Inv.seeReleased {c : Capacity} {ring : Ring T} {published released : List T}
    {side : Side (Producer T)} {n n' : ℕ} {r : UInt64}
    (hinv : Inv c ⟨ring, ⟨published, released.take n⟩, side, .absent⟩) (hle : n ≤ n')
    (hlen : n' ≤ released.length) (hfifo : released <+: published)
    (hr : r.toNat = n' % c.slots.toNat) :
    Inv c ⟨{ ring with readIdx := r }, ⟨published, released.take n'⟩, side, .absent⟩ := by
  obtain ⟨ys, hys⟩ : ∃ ys, released.take n' = released.take n ++ ys := by
    refine ⟨(released.take n').drop n, ?_⟩
    have htake : (released.take n').take n = released.take n := by
      rw [List.take_take, min_eq_left hle]
    rw [← htake, List.take_append_drop]
  have hlog : (⟨published, released.take n'⟩ : Log T) =
      Log.release ⟨published, released.take n⟩ ys := by
    rw [Log.release, hys]
  have htotal : (released.take n).length + ys.length = n' := by
    rw [← List.length_append, ← hys, List.length_take, min_eq_left hlen]
  rw [hlog]
  refine ⟨hinv.ring.release (by rw [htotal, hr]) ?_, ?_, ?_, by simp⟩
  · rw [← hys]
    exact (List.take_prefix n' released).trans hfifo
  · intro x hx
    exact (hinv.loading x hx).release ys
  · intro p hp
    exact (hinv.producer p hp).release ys rfl rfl

/-- The consumer's side sees what is published, as far as its index shows it. -/
theorem Inv.seePublished {c : Capacity} {ring ring' : Ring T} {log : Log T}
    {side : Side (Consumer T)} {n n' : ℕ} {w : UInt64} (hring : ring.Holds c log)
    (hinv : Inv c ⟨ring', ⟨log.published.take n, log.released⟩, .absent, side⟩) (hle : n ≤ n')
    (hlen : n' ≤ log.published.length) (hw : w.toNat = n' % c.slots.toNat)
    (hread : ring'.readIdx = ring.readIdx) :
    Inv c ⟨{ ring with writeIdx := w }, ⟨log.published.take n', log.released⟩, .absent, side⟩ := by
  have htake : log.published.take n <+: log.published.take n' :=
    List.take_prefix_take_left hle
  obtain ⟨ys, hys⟩ := htake
  refine ⟨hring.seen ?_ (List.take_prefix _ _) (hinv.ring.fifo.trans ⟨ys, hys⟩), by simp, by simp,
    ?_⟩
  · rw [hw, List.length_take, min_eq_left hlen]
  · intro q hq
    have hknows : q.Inv c { ring with writeIdx := w }
        (Log.publish ⟨log.published.take n, log.released⟩ ys) :=
      (hinv.consumer q hq).publish ys hread.symm
    rwa [Log.publish, hys] at hknows

end Spsc

namespace Weak

variable {c : Capacity} {o : Orders} {s s' : Weak T} {a : WeakAct T}

/-! ## What each side knows -/

/-- How many elements have been published, or released. -/
def total (s : Weak T) : IndexVar → ℕ
  | .writeIdx => s.base.log.published.length
  | .readIdx => s.base.log.released.length

/-- Each side knows what it knows of what it sees, and the messages are the indices of the
totals so far, in their order. -/
structure Inv (c : Capacity) (s : Weak T) : Prop where
  view : ∀ role, (s.sideView role).Inv c
  cell : ∀ x, ∀ m ∈ s.memory.messages x, m.value.idx.toNat = m.value.total % c.slots.toNat
  le : ∀ x, ∀ m ∈ s.memory.messages x, m.value.total ≤ s.total x
  sorted : ∀ x, (s.memory.messages x).Pairwise fun m m' => m.value.total ≤ m'.value.total

theorem inv_created (c : Capacity) (role : Role) (slots : ℕ → T) :
    Inv c (created c.slots role slots) := by
  have hcreated := Spsc.inv_created c role slots
  refine ⟨fun side => ?_, fun x m hm => ?_, fun x m hm => ?_, fun x => List.pairwise_singleton _ _⟩
  · rcases side with _ | _
    · exact ⟨hcreated.ring, hcreated.loading, hcreated.producer, by simp [sideView]⟩
    · exact ⟨hcreated.ring, by simp [sideView], by simp [sideView], hcreated.consumer⟩
  · obtain rfl := List.mem_singleton.mp hm
    simp
  · obtain rfl := List.mem_singleton.mp hm
    exact Nat.zero_le _

theorem Inv.shown_le (h : Inv c s) (t : Role) (x : IndexVar) :
    (s.memory.shown t x).value.total ≤ s.total x :=
  h.le x _ (s.memory.shown_mem t x)

/-- What was released is a prefix of what was published. -/
theorem Inv.fifo (h : Inv c s) : s.base.log.released <+: s.base.log.published :=
  (h.view .consumer).ring.fifo.trans (List.take_prefix _ _)

/-- The segment holds the log. -/
theorem Inv.ring (h : Inv c s) : s.base.ring.Holds c s.base.log := by
  have hview := (h.view .producer).seeReleased (h.shown_le .producer .readIdx) le_rfl h.fifo
    (h.view .consumer).ring.read
  simpa [sideView, total] using hview.ring

/-- A load leaves the sides as they are, and moves what its own side sees of the other. -/
theorem load_eq_some (h : s.load o a = some s') :
    s'.base = s.base ∧ (s' = s ∨ ∃ site,
      s.memory.load a.act.role a.act.role.peerIdx (o.load site) a.message = some s'.memory) := by
  rw [load] at h
  split at h
  next site _ =>
    obtain ⟨memory, hload, rfl⟩ := Option.map_eq_some_iff.mp h
    exact ⟨rfl, .inr ⟨site, hload⟩⟩
  next =>
    obtain rfl := Option.some.inj h
    exact ⟨rfl, .inl rfl⟩

theorem inv_load (hinv : Inv c s) (h : s.load o a = some s') : Inv c s' := by
  obtain ⟨hbase, rfl | ⟨site, hload⟩⟩ := load_eq_some h
  · exact hinv
  obtain ⟨base, memory⟩ := s'
  obtain rfl : base = s.base := hbase
  have hmessages : memory.messages = s.memory.messages := (Memory.load_eq_some hload).2.1
  have hcell : ∀ t x, (memory.shown t x).value.idx.toNat =
      (memory.shown t x).value.total % c.slots.toNat := fun t x =>
    hinv.cell x _ (hmessages ▸ memory.shown_mem t x)
  have hle : ∀ t x, (memory.shown t x).value.total ≤ s.total x := fun t x =>
    hinv.le x _ (hmessages ▸ memory.shown_mem t x)
  have hgrows := Memory.shown_le (f := Stamp.total) (hinv.sorted _) hload
  refine ⟨fun role => ?_, ?_, ?_, ?_⟩
  · by_cases hrole : role = a.act.role
    · rw [← hrole] at hgrows
      rcases role with _ | _
      · exact (hinv.view .producer).seeReleased hgrows (hle _ _) hinv.fifo (hcell _ _)
      · exact Spsc.Inv.seePublished hinv.ring (hinv.view .consumer) hgrows (hle _ _) (hcell _ _) rfl
    · have hshown : ∀ x, memory.shown role x = s.memory.shown role x := fun x =>
        Memory.shown_load hload (.inl hrole)
      have hview : sideView ⟨s.base, memory⟩ role = s.sideView role := by
        rcases role with _ | _ <;> simp only [sideView, hshown]
      rw [hview]
      exact hinv.view role
  all_goals rw [hmessages]
  · exact hinv.cell
  · exact hinv.le
  · exact hinv.sorted

/-- The access of a step is not seen by a load. -/
theorem touch_messages (s : Weak T) (a : SpscAct T) :
    (s.touch a).messages = s.memory.messages ∧ (s.touch a).seen = s.memory.seen := by
  unfold touch
  split <;> exact ⟨rfl, rfl⟩

theorem shown_touch (s : Weak T) (a : SpscAct T) (t : Role) (x : IndexVar) :
    (s.touch a).shown t x = s.memory.shown t x := by
  obtain ⟨hmessages, hseen⟩ := s.touch_messages a
  simp only [Memory.shown, List.get_eq_getElem, hmessages, hseen]

/-- A step shows neither side more of the other's index than its load did. -/
theorem shown_settle (s : Weak T) (a : SpscAct T) (base : Spsc T) (role : Role) :
    (s.settle o a base).shown role role.peerIdx = s.memory.shown role role.peerIdx := by
  unfold settle
  split
  · rw [Memory.shown_store, shown_touch]
    by_cases hrole : role = a.role
    · subst hrole
      rcases a.role with _ | _ <;> exact .inr (by simp [Role.peerIdx, Role.ownIdx])
    · exact .inl hrole
  · exact s.shown_touch a _ _

theorem mem_messages_settle {base : Spsc T} {b : SpscAct T} {x : IndexVar}
    {m : Race.Message Role Stamp} (hm : m ∈ (s.settle o b base).messages x) :
    m ∈ s.memory.messages x ∨ x = b.role.ownIdx ∧ m.value = base.stamp b.role := by
  unfold settle at hm
  split at hm
  · rcases Memory.mem_messages_store.mp hm with hm | ⟨hx, rfl⟩
    · rw [(s.touch_messages b).1] at hm
      exact .inl hm
    · exact .inr ⟨hx, rfl⟩
  · rw [(s.touch_messages b).1] at hm
    exact .inl hm

/-- The new index is that of the total it was stored with. -/
theorem stamp_eq {base : Spsc T} (hring : base.ring.Holds c base.log) (role : Role) :
    (base.stamp role).idx.toNat = (base.stamp role).total % c.slots.toNat := by
  rcases role with _ | _
  · exact hring.write
  · exact hring.read

theorem sorted_settle {base : Spsc T} {b : SpscAct T}
    (hsorted : ∀ x, (s.memory.messages x).Pairwise fun m m' => m.value.total ≤ m'.value.total)
    (hlast : ∀ m ∈ s.memory.messages b.role.ownIdx, m.value.total ≤ (base.stamp b.role).total)
    (x : IndexVar) :
    ((s.settle o b base).messages x).Pairwise fun m m' => m.value.total ≤ m'.value.total := by
  unfold settle
  split
  · by_cases hx : x = b.role.ownIdx
    · subst hx
      simp only [Memory.store, Function.update_self, (s.touch_messages b).1]
      refine List.pairwise_append.mpr ⟨hsorted _, List.pairwise_singleton _ _, ?_⟩
      intro m hm m' hm'
      obtain rfl := List.mem_singleton.mp hm'
      exact hlast m hm
    · simpa [Memory.store, hx, (s.touch_messages b).1] using hsorted x
  · rw [(s.touch_messages b).1]
    exact hsorted x

/-- The state after a step of `b`'s side to `v`, on what it sees. -/
def acted (o : Orders) (s : Weak T) (b : SpscAct T) (v : Spsc T) : Weak T :=
  ⟨s.merge b.role v, s.settle o b (s.merge b.role v)⟩

theorem total_ownIdx (s : Weak T) (role : Role) :
    s.total role.ownIdx = (s.base.stamp role).total := by
  rcases role with _ | _ <;> rfl

/-- Steps only add to what was published and released. -/
theorem total_le_acted {capacity : UInt64} {b : SpscAct T} {v : Spsc T}
    (h : (s.sideView b.role).step capacity b = some v) (x : IndexVar) :
    s.total x ≤ (s.acted o b v).total x := by
  rcases hrole : b.role with _ | _
  · rw [hrole] at h
    obtain ⟨-, -, xs, hlog⟩ := Spsc.step_produces h hrole
    rcases x with _ | _
    · simp [total, acted, merge, hrole, hlog, sideView]
    · simp [total, acted, merge, hrole]
  · rw [hrole] at h
    obtain ⟨-, -, -, xs, hlog⟩ := Spsc.step_consumes h hrole
    rcases x with _ | _
    · simp [total, acted, merge, hrole]
    · simp [total, acted, merge, hrole, hlog, sideView]

/-- The messages after a step, given that the segment holds the log. -/
theorem inv_acted {b : SpscAct T} {v : Spsc T} (hinv : Inv c s)
    (h : (s.sideView b.role).step c.slots b = some v)
    (hring : (s.merge b.role v).ring.Holds c (s.merge b.role v).log)
    (hview : ∀ role, ((s.acted o b v).sideView role).Inv c) : Inv c (s.acted o b v) := by
  have htotal := total_le_acted (o := o) h
  have hstamp : (s.acted o b v).total b.role.ownIdx =
      ((s.merge b.role v).stamp b.role).total := total_ownIdx _ _
  refine ⟨hview, fun x m hm => ?_, fun x m hm => ?_, sorted_settle hinv.sorted fun m hm => ?_⟩
  · rcases mem_messages_settle hm with hm | ⟨-, hvalue⟩
    · exact hinv.cell x m hm
    · rw [hvalue]
      exact stamp_eq hring _
  · rcases mem_messages_settle hm with hm | ⟨rfl, hvalue⟩
    · exact (hinv.le x m hm).trans (htotal x)
    · rw [hvalue, hstamp]
  · rw [← hstamp]
    exact (hinv.le _ m hm).trans (htotal _)

theorem inv_produces {b : SpscAct T} {v : Spsc T} (hinv : Inv c s) (hrole : b.role = .producer)
    (h : (s.sideView .producer).step c.slots b = some v) : Inv c (s.acted o b v) := by
  obtain ⟨hread, hconsumer, xs, hlog⟩ := Spsc.step_produces h hrole
  have hv := Spsc.inv_step (hinv.view .producer) h
  have hshown : ∀ role, (s.acted o b v).memory.shown role role.peerIdx =
      s.memory.shown role role.peerIdx := s.shown_settle b _
  have hpublished : v.log.published = s.base.log.published ++ xs := by
    rw [hlog]
    rfl
  have hreleased : v.log.released =
      s.base.log.released.take (s.memory.shown .producer .readIdx).value.total := by
    rw [hlog]
    rfl
  have hprefix : s.base.log.published <+: v.log.published := by
    rw [hpublished]
    exact List.prefix_append _ _
  have hmerge : s.merge b.role v = ⟨{ v.ring with readIdx := s.base.ring.readIdx },
      ⟨v.log.published, s.base.log.released⟩, v.producer, s.base.consumer⟩ := by
    rw [hrole]
    rfl
  -- the producer's side sees what its step has left
  have hown : (s.acted o b v).sideView .producer = v := by
    have := hshown .producer
    simp only [Role.peerIdx] at this
    simp only [sideView, acted, hmerge] at this ⊢
    rw [this, ← hreleased]
    obtain ⟨ring, log, producer, consumer⟩ := v
    simp only [sideView] at hread hconsumer
    simp [← hread, hconsumer]
  -- the segment holds the log, with everything that was released
  have hring : (s.merge b.role v).ring.Holds c (s.merge b.role v).log := by
    obtain ⟨ring, log, producer, consumer⟩ := v
    simp only [sideView] at hconsumer
    subst hconsumer
    obtain ⟨published, released⟩ := log
    simp only at hreleased
    subst hreleased
    have hall := hv.seeReleased (hinv.shown_le .producer .readIdx) le_rfl
      (hinv.fifo.trans hprefix) (hinv.view .consumer).ring.read
    rw [hmerge]
    simpa [total, sideView] using hall.ring
  refine inv_acted hinv (by rwa [hrole]) hring fun role => ?_
  rcases role with _ | _
  · rw [hown]
    exact hv
  · have hle := hinv.shown_le .consumer .writeIdx
    have htake : v.log.published.take (s.memory.shown .consumer .writeIdx).value.total =
        s.base.log.published.take (s.memory.shown .consumer .writeIdx).value.total := by
      rw [hpublished, List.take_append_of_le_length hle]
    have hseen := hinv.view .consumer
    have := hshown .consumer
    simp only [Role.peerIdx] at this
    simp only [sideView, acted, hmerge] at this hring hseen ⊢
    rw [this]
    rw [← htake] at hseen
    exact Spsc.Inv.seePublished hring hseen le_rfl
      (hle.trans hprefix.length_le) (hinv.cell _ _ (s.memory.shown_mem _ _)) rfl

theorem inv_consumes {b : SpscAct T} {v : Spsc T} (hinv : Inv c s) (hrole : b.role = .consumer)
    (h : (s.sideView .consumer).step c.slots b = some v) : Inv c (s.acted o b v) := by
  obtain ⟨hwrite, hslots, hproducer, xs, hlog⟩ := Spsc.step_consumes h hrole
  have hv := Spsc.inv_step (hinv.view .consumer) h
  have hshown : ∀ role, (s.acted o b v).memory.shown role role.peerIdx =
      s.memory.shown role role.peerIdx := s.shown_settle b _
  have hpublished : v.log.published =
      s.base.log.published.take (s.memory.shown .consumer .writeIdx).value.total := by
    rw [hlog]
    rfl
  have hreleased : v.log.released = s.base.log.released ++ xs := by
    rw [hlog]
    rfl
  have hmerge : s.merge b.role v = ⟨{ v.ring with writeIdx := s.base.ring.writeIdx },
      ⟨s.base.log.published, v.log.released⟩, s.base.producer, v.consumer⟩ := by
    rw [hrole]
    rfl
  have hown : (s.acted o b v).sideView .consumer = v := by
    have := hshown .consumer
    simp only [Role.peerIdx] at this
    simp only [sideView, acted, hmerge] at this ⊢
    rw [this, ← hpublished]
    obtain ⟨ring, log, producer, consumer⟩ := v
    simp only [sideView] at hwrite hproducer
    simp [← hwrite, hproducer]
  -- the slots are as they were, so the segment holds what is left
  have hring : (s.merge b.role v).ring.Holds c (s.merge b.role v).log := by
    have hfifo : s.base.log.released ++ xs <+: s.base.log.published := by
      rw [← hreleased]
      refine hv.ring.fifo.trans ?_
      rw [hpublished]
      exact List.take_prefix _ _
    have hread : v.ring.readIdx.toNat =
        (s.base.log.released.length + xs.length) % c.slots.toNat := by
      rw [hv.ring.read, hreleased, List.length_append]
    have hrel := hinv.ring.release hread hfifo
    simp only [sideView] at hslots
    simp only [hmerge, hreleased, hslots]
    exact hrel
  refine inv_acted hinv (by rwa [hrole]) hring fun role => ?_
  rcases role with _ | _
  · have hle := hinv.shown_le .producer .readIdx
    have htake : v.log.released.take (s.memory.shown .producer .readIdx).value.total =
        s.base.log.released.take (s.memory.shown .producer .readIdx).value.total := by
      rw [hreleased, List.take_append_of_le_length hle]
    have hsame : (s.acted o b v).sideView .producer = s.sideView .producer := by
      have := hshown .producer
      simp only [Role.peerIdx] at this
      simp only [sideView, acted, hmerge] at this hslots ⊢
      rw [this, htake, hslots]
    rw [hsame]
    exact hinv.view .producer
  · rw [hown]
    exact hv

/-- A step is its load, then a step of its side on what it sees. -/
theorem step_eq_some (h : s.step o c.slots a = some s') :
    ∃ t v, s.load o a = some t ∧
      (t.sideView a.act.role).step c.slots a.act = some v ∧ s' = t.acted o a.act v := by
  obtain ⟨t, hload, h⟩ := Option.bind_eq_some_iff.mp h
  obtain ⟨v, hstep, rfl⟩ := Option.map_eq_some_iff.mp h
  exact ⟨t, v, hload, hstep, rfl⟩

/-- Every step keeps what each side knows, whatever message it reads and in whatever
order. -/
theorem inv_step (hinv : Inv c s) (h : s.step o c.slots a = some s') : Inv c s' := by
  obtain ⟨t, v, hload, hstep, rfl⟩ := step_eq_some h
  have ht := inv_load hinv hload
  rcases hrole : a.act.role with _ | _
  · exact inv_produces ht hrole (by rwa [hrole] at hstep)
  · exact inv_consumes ht hrole (by rwa [hrole] at hstep)

end Weak

end ShmSpsc
