import ShmSpsc.Spsc

/-!
# Slot access exclusion

The slots an operation in progress has chosen : the producer's from its decision to the
store that publishes them, the consumer's from its decision to the store that releases them,
and the slot of a `front` pointer that is still held. The producer's are free and the
consumer's are occupied, so they are disjoint (`Spsc.exclusion`), and the steps access no
other slots (`Producer.act_slots`, `Consumer.act_slots`).
-/

namespace ShmSpsc

open Transition

variable {T : Type*}

/-! ## The chosen slots -/

/-- The slots the operation in progress writes. -/
def PushPc.writeSlots (capacity : UInt64) : PushPc T → List ℕ
  | .tryPushCopy _ w _ => [w.toNat]
  | .tryPushStore _ w _ => [w.toNat]
  | .pushNCopy _ w count _ => batchSlots capacity w count
  | .pushNStore _ w count => batchSlots capacity w count
  | _ => []

/-- The slots the operation in progress reads. -/
def PopPc.readSlots (capacity : UInt64) : PopPc T → List ℕ
  | .tryPopCopy r => [r.toNat]
  | .popAssert _ r => [r.toNat]
  | .popStore _ r => [r.toNat]
  | .popNCopy r count _ => batchSlots capacity r count
  | .popNStore r count _ => batchSlots capacity r count
  | _ => []

/-- The slots the producer writes. -/
def Producer.writeSlots (p : Producer T) : List ℕ := p.pc.writeSlots p.handle.capacity

/-- The slots the consumer reads, or may read through a `front` pointer. -/
def Consumer.readSlots (q : Consumer T) : List ℕ :=
  q.held.toList.map UInt64.toNat ++ q.pc.readSlots q.handle.capacity

/-- The producer writes no other slot. -/
theorem Producer.act_slots {ring ring' : Ring T} {p p' : Producer T} {a : PushAct T}
    {xs : List T} (h : p.act ring a = some (ring', p', xs))
    (hbound : ∀ src w count i, p.pc = .pushNCopy src w count i → i < count.toNat) {k : ℕ}
    (hk : k ∉ p.writeSlots) : ring'.slots k = ring.slots k := by
  obtain ⟨handle, pc⟩ := p
  by_cases hcopy : (∃ v w next, pc = .tryPushCopy v w next) ∨
      ∃ src w count i, pc = .pushNCopy src w count i
  · cases a <;> rcases hcopy with ⟨v, w, next, rfl⟩ | ⟨src, w, count, i, rfl⟩ <;> cases h
    · exact ring.setSlot_of_ne v (by simpa [writeSlots, PushPc.writeSlots] using hk)
    · refine ring.setSlot_of_ne (src i) fun heq => hk ?_
      exact List.mem_map.mpr ⟨i, List.mem_range.mpr (hbound src w count i rfl), heq.symm⟩
  · -- no other place has a copy before it
    cases a <;> cases pc <;> simp only [act, reduceCtorEq] at h
    all_goals try split_ifs at h
    all_goals cases h
    all_goals first | rfl | exact absurd hcopy (by simp)

/-- The consumer reads no other slot : its step is the same whatever they hold. -/
theorem Consumer.act_slots {ring : Ring T} {q : Consumer T} (a : PopAct) {slots : ℕ → T}
    (hbound : ∀ r count dst, q.pc = .popNCopy r count dst → dst.length < count.toNat)
    (hagree : ∀ k ∈ q.readSlots, slots k = ring.slots k) :
    (q.act { ring with slots := slots } a).map Prod.snd = (q.act ring a).map Prod.snd := by
  obtain ⟨handle, held, peeked, pc⟩ := q
  cases a with
  | copyFront =>
    cases pc <;> cases held <;> try rfl
    rename_i ret r
    have := hagree r.toNat (by simp [readSlots])
    simp only [act, Option.map_some, this]
  | step =>
    cases pc with
    | tryPopCopy r =>
      have := hagree r.toNat (by simp [readSlots, PopPc.readSlots])
      simp only [act, Option.map_some, this]
    | popStore b r =>
      have := hagree r.toNat (by simp [readSlots, PopPc.readSlots])
      simp only [act, Option.map_some, this]
    | popNCopy r count dst =>
      have := hagree (batchSlot handle.capacity r count dst.length) (List.mem_append_right _
        (List.mem_map.mpr ⟨_, List.mem_range.mpr (hbound r count dst rfl), rfl⟩))
      simp only [act, Option.map_some, this]
    | frontTest k r => simp only [act]; split_ifs <;> rfl
    | frontRefresh k r => simp only [act]; split_ifs <;> rfl
    | popAssert b r => simp only [act]; split_ifs <;> rfl
    | popNTest n r => simp only [act]; split_ifs <;> rfl
    | popNRefresh n r => simp only [act]; split_ifs <;> rfl
    | _ => rfl
  | popN n =>
    cases pc <;> try rfl
    simp only [act]
    split_ifs <;> rfl
  | _ => cases pc <;> cases held <;> rfl

/-! ## Free and occupied cells -/

theorem mem_batchSlots {c : Capacity} {w count : UInt64} {W k : ℕ}
    (hw : w.toNat = W % c.slots.toNat) (hcount : count.toNat < c.slots.toNat)
    (hk : k ∈ batchSlots c.slots w count) : ∃ j < count.toNat, k = (W + j) % c.slots.toNat := by
  obtain ⟨j, hj, rfl⟩ := List.mem_map.mp hk
  have hj := List.mem_range.mp hj
  exact ⟨j, hj, batchSlot_eq c hw hcount hj⟩

section Cells

variable {c : Capacity} {ring : Ring T} {log : Log T}

/-- The slots the producer writes are cells behind the published elements. -/
theorem Producer.Inv.writeSlots_free {p : Producer T} (hring : ring.Holds c log)
    (hp : p.Inv c ring log) {k : ℕ} (hk : k ∈ p.writeSlots) :
    ∃ i, log.published.length ≤ i ∧ i < log.released.length + c.slots.toNat ∧
      k = i % c.slots.toNat := by
  obtain ⟨handle, pc⟩ := p
  obtain ⟨hcap, hpc⟩ := hp
  have hle := hring.le
  rw [Producer.writeSlots, hcap] at hk
  have one : ∀ {w cache : UInt64}, w = ring.writeIdx → ReadCache c log cache 1 → k = w.toNat →
      ∃ i, log.published.length ≤ i ∧ i < log.released.length + c.slots.toNat ∧
        k = i % c.slots.toNat := by
    rintro w cache rfl hcache rfl
    have := hcache.room
    exact ⟨log.published.length, le_rfl, by omega, hring.write⟩
  have batch : ∀ {w count cache : UInt64}, w = ring.writeIdx →
      ReadCache c log cache count.toNat → k ∈ batchSlots c.slots w count →
      ∃ i, log.published.length ≤ i ∧ i < log.released.length + c.slots.toNat ∧
        k = i % c.slots.toNat := by
    rintro w count cache rfl hcache hk
    have := hcache.room
    obtain ⟨j, hj, rfl⟩ := mem_batchSlots hring.write (by omega) hk
    exact ⟨log.published.length + j, by omega, by omega, rfl⟩
  cases pc with
  | tryPushCopy v w next => exact one hpc.1 hpc.2.2 (List.mem_singleton.mp hk)
  | tryPushStore v w next => exact one hpc.1 hpc.2.2.1 (List.mem_singleton.mp hk)
  | pushNCopy src w count i => exact batch hpc.1 hpc.2.2.1 hk
  | pushNStore src w count => exact batch hpc.1 hpc.2.1 hk
  | _ => cases hk

/-- The slots the consumer reads are cells of unreleased elements. -/
theorem Consumer.Inv.readSlots_occupied {q : Consumer T} (hring : ring.Holds c log)
    (hq : q.Inv c ring log) {k : ℕ} (hk : k ∈ q.readSlots) :
    ∃ i, log.released.length ≤ i ∧ i < log.published.length ∧ k = i % c.slots.toNat := by
  obtain ⟨handle, held, peeked, pc⟩ := q
  obtain ⟨hcap, hpc, hheld, -⟩ := hq
  have hroom := hring.room
  rw [Consumer.readSlots, hcap] at hk
  have one : ∀ {r cache : UInt64}, r = ring.readIdx → WriteCache c log cache 1 → k = r.toNat →
      ∃ i, log.released.length ≤ i ∧ i < log.published.length ∧ k = i % c.slots.toNat := by
    rintro r cache rfl hcache rfl
    exact ⟨log.released.length, le_rfl, hcache.le, hring.read⟩
  have batch : ∀ {r count cache : UInt64}, r = ring.readIdx →
      WriteCache c log cache count.toNat → k ∈ batchSlots c.slots r count →
      ∃ i, log.released.length ≤ i ∧ i < log.published.length ∧ k = i % c.slots.toNat := by
    rintro r count cache rfl hcache hk
    have := hcache.le
    obtain ⟨j, hj, rfl⟩ := mem_batchSlots hring.read (by omega) hk
    exact ⟨log.released.length + j, by omega, by omega, rfl⟩
  rcases List.mem_append.mp hk with hk | hk
  · obtain ⟨r, hr, rfl⟩ := List.mem_map.mp hk
    obtain ⟨hr, hcache⟩ := hheld r (Option.mem_toList.mp hr)
    exact one hr hcache rfl
  · cases pc with
    | tryPopCopy r => exact one hpc.1 hpc.2 (List.mem_singleton.mp hk)
    | popAssert b r => exact one hpc.1 hpc.2.1 (List.mem_singleton.mp hk)
    | popStore b r => exact one hpc.1 hpc.2.1 (List.mem_singleton.mp hk)
    | popNCopy r count dst => exact batch hpc.1 hpc.2.2.1 hk
    | popNStore r count dst => exact batch hpc.1 hpc.2.2.1 hk
    | _ => cases hk

/-- The occupied slots are the cells of the unreleased elements. -/
theorem Ring.Holds.mem_occupied (hring : ring.Holds c log) {k : ℕ} :
    k ∈ ring.occupied c.slots ↔
      ∃ i, log.released.length ≤ i ∧ i < log.published.length ∧ k = i % c.slots.toNat := by
  rw [hring.occupied_eq, List.mem_map, Log.held]
  constructor
  · rintro ⟨j, hj, rfl⟩
    rw [List.mem_range] at hj
    exact ⟨_, Nat.le_add_right _ j, by omega, rfl⟩
  · rintro ⟨i, hle, hlt, rfl⟩
    exact ⟨i - log.released.length, List.mem_range.mpr (by omega),
      by rw [Nat.add_sub_cancel' hle]⟩

end Cells

/-! ## Exclusion -/

namespace Spsc

/-- The slots the producer's operation in progress has chosen to write. -/
def writeSlots (s : Spsc T) : List ℕ :=
  match s.producer with
  | .up p => p.writeSlots
  | _ => []

/-- The slots the consumer's operation in progress reads, or a `front` pointer refers to. -/
def readSlots (s : Spsc T) : List ℕ :=
  match s.consumer with
  | .up q => q.readSlots
  | _ => []

theorem Inv.writeSlots_free {c : Capacity} {s : Spsc T} (hinv : Inv c s) {k : ℕ}
    (hk : k ∈ s.writeSlots) : k ∉ s.ring.occupied c.slots := by
  unfold writeSlots at hk
  split at hk
  · rename_i p hp
    obtain ⟨i, hi, hi', rfl⟩ := (hinv.producer p hp).writeSlots_free hinv.ring hk
    rw [hinv.ring.mem_occupied]
    rintro ⟨j, hj, hj', heq⟩
    have hle := hinv.ring.le
    have := Circular.eq_of_mod_eq (by omega) hi' hj (by omega) heq
    omega
  · cases hk

theorem Inv.readSlots_occupied {c : Capacity} {s : Spsc T} (hinv : Inv c s) {k : ℕ}
    (hk : k ∈ s.readSlots) : k ∈ s.ring.occupied c.slots := by
  unfold readSlots at hk
  split at hk
  · rename_i q hq
    exact hinv.ring.mem_occupied.mpr ((hinv.consumer q hq).readSlots_occupied hinv.ring hk)
  · cases hk

/-- Slot access exclusion. In every reachable state the slots the producer has chosen to
write are disjoint from those the consumer is reading or points to, they are outside the
circular range from `readIdx` to `writeIdx` and the consumer's are inside; a step of the
producer changes no slot but its own, and a step of the consumer depends on none but
its own. -/
theorem exclusion {L : Layout} {name : String} {requested : UInt64} {calls : CreateCalls}
    {g : Geometry} (hcreate : create L name requested calls = .ok g) (role : Role)
    (slots : ℕ → T) {s : Spsc T}
    (run : Reachable (step g.capacity) (created g.capacity role slots) s) :
    s.writeSlots.Disjoint s.readSlots ∧
    (∀ k ∈ s.writeSlots, k ∉ s.ring.occupied g.capacity) ∧
    (∀ k ∈ s.readSlots, k ∈ s.ring.occupied g.capacity) ∧
    (∀ p, s.producer = .up p → ∀ a ring' p' xs, p.act s.ring a = some (ring', p', xs) →
      ∀ k ∉ s.writeSlots, ring'.slots k = s.ring.slots k) ∧
    (∀ q, s.consumer = .up q → ∀ a slots', (∀ k ∈ s.readSlots, slots' k = s.ring.slots k) →
      (q.act { s.ring with slots := slots' } a).map Prod.snd =
        (q.act s.ring a).map Prod.snd) := by
  have hinv := inv_of_reachable (c := .ofCreate hcreate) run
  refine ⟨fun k hw hr => hinv.writeSlots_free hw (hinv.readSlots_occupied hr),
    fun k => hinv.writeSlots_free, fun k => hinv.readSlots_occupied, ?_, ?_⟩
  · intro p hp a ring' p' xs hact k hk
    refine Producer.act_slots hact (fun src w count i hpc => ?_)
      (by simpa [writeSlots, hp] using hk)
    have := (hinv.producer p hp).pc
    rw [hpc] at this
    exact this.2.1
  · intro q hq a slots' hagree
    refine Consumer.act_slots a (fun r count dst hpc => ?_) (by simpa [readSlots, hq] using hagree)
    have := (hinv.consumer q hq).pc
    rw [hpc] at this
    exact this.2.1

/-- A `front` pointer is held while the next push is under way, in a ring of three slots. -/
def peekRun : List (SpscAct ℕ) :=
  SpscAct.produce (.tryPush 7) :: List.replicate 4 (SpscAct.produce .step) ++
    List.replicate 2 SpscAct.attachConsumer ++
    SpscAct.consume .front :: List.replicate 2 (SpscAct.consume .step) ++
    SpscAct.produce (.tryPush 8) :: List.replicate 2 (SpscAct.produce .step)

theorem exclusion_peekRun :
    ∃ s : Spsc ℕ, Reachable (step 3) (created 3 .producer fun _ => 0) s ∧
      s.writeSlots = [1] ∧ s.readSlots = [0] ∧ s.writeSlots.Disjoint s.readSlots := by
  have hsets : (exec (step 3) (fun _ _ => True) (created 3 .producer fun _ => 0) peekRun).map
      (fun s => (s.writeSlots, s.readSlots)) = some ([1], [0]) := by decide
  obtain ⟨s, hs, hsets⟩ := Option.map_eq_some_iff.mp hsets
  have run := Reaches.of_exec hs
  have hcreate : create messageLayout "/q" 2 ⟨none, none, none⟩ =
      .ok (createdGeometry messageLayout 3 400) := by decide
  exact ⟨s, run, congrArg Prod.fst hsets, congrArg Prod.snd hsets,
    (exclusion hcreate _ _ run).1⟩

end Spsc

end ShmSpsc
