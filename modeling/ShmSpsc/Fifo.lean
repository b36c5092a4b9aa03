import ShmSpsc.Ring
import Mathlib.Data.List.Infix

/-!
# The ring as a FIFO

`Log` is what the queue is for : the elements published so far and the elements released
so far, both in order. It is history, kept beside the segment and read by no operation.
`Ring.Holds c ring log` says that the segment holds the log's difference : the indices are
the cells of the two totals, what was released is a prefix of what was published, at most
`capacity()` elements are in between, and each of them is in its cell.

An operation changes the segment in three ways : a copy into a free cell (`Holds.copy`), a
store to `writeIdx` that publishes copied elements (`Holds.publish`), and a store to
`readIdx` that releases the oldest ones (`Holds.release`).
-/

namespace ShmSpsc

variable {T : Type*}

/-- The elements published with a `writeIdx` store, and those released with a `readIdx`
store. -/
structure Log (T : Type*) where
  published : List T
  released : List T

/-- `xs` published. -/
def Log.publish (log : Log T) (xs : List T) : Log T :=
  { log with published := log.published ++ xs }

/-- `xs` released. -/
def Log.release (log : Log T) (xs : List T) : Log T :=
  { log with released := log.released ++ xs }

@[simp] theorem Log.publish_published (log : Log T) (xs : List T) :
    (log.publish xs).published = log.published ++ xs := rfl

@[simp] theorem Log.publish_released (log : Log T) (xs : List T) :
    (log.publish xs).released = log.released := rfl

@[simp] theorem Log.release_published (log : Log T) (xs : List T) :
    (log.release xs).published = log.published := rfl

@[simp] theorem Log.release_released (log : Log T) (xs : List T) :
    (log.release xs).released = log.released ++ xs := rfl

@[simp] theorem Log.publish_nil (log : Log T) : log.publish [] = log := by
  simp [Log.publish]

@[simp] theorem Log.release_nil (log : Log T) : log.release [] = log := by
  simp [Log.release]

/-- The number of published, unreleased elements. -/
def Log.held (log : Log T) : ℕ := log.published.length - log.released.length

/-- The published, unreleased elements, oldest first. -/
def Log.waiting (log : Log T) : List T := log.published.drop log.released.length

theorem Log.length_waiting (log : Log T) : log.waiting.length = log.held := by
  simp [Log.waiting, Log.held]

theorem Log.waiting_eq_nil (log : Log T) (hempty : log.held = 0) : log.waiting = [] :=
  List.drop_eq_nil_of_le (Nat.sub_eq_zero_iff_le.mp hempty)

theorem Log.take_waiting (log : Log T) (k : ℕ) :
    log.waiting.take (min k log.held) = log.waiting.take k := by
  rw [← log.length_waiting, ← List.take_eq_take_min]

/-- The segment holds the elements between the log's totals. -/
structure Ring.Holds (c : Capacity) (ring : Ring T) (log : Log T) : Prop where
  write : ring.writeIdx.toNat = log.published.length % c.slots.toNat
  read : ring.readIdx.toNat = log.released.length % c.slots.toNat
  fifo : log.released <+: log.published
  room : log.published.length < log.released.length + c.slots.toNat
  cell : ∀ i, log.released.length ≤ i → i < log.published.length →
    log.published[i]? = some (ring.slots (i % c.slots.toNat))

namespace Ring.Holds

variable {c : Capacity} {ring : Ring T} {log : Log T}

theorem le (h : ring.Holds c log) : log.released.length ≤ log.published.length :=
  h.fifo.length_le

/-- The occupied slots are the cells of the unreleased elements. -/
theorem occupied_eq (h : ring.Holds c log) :
    ring.occupied c.slots =
      (List.range log.held).map fun i => (log.released.length + i) % c.slots.toNat := by
  simp only [Ring.occupied, toNat_usedSlots c h.write h.read h.le h.room, h.read,
    Nat.mod_add_mod, Log.held]

/-- The published elements are the released ones, then the contents of the occupied
slots. -/
theorem published_eq (h : ring.Holds c log) :
    log.published = log.released ++ ring.contents c.slots := by
  obtain ⟨rest, hrest⟩ := h.fifo
  have hlen : rest.length = log.held := by
    rw [Log.held, ← hrest, List.length_append]
    omega
  rw [Ring.contents, h.occupied_eq, ← hlen, ← hrest, List.map_map]
  congr 1
  refine List.ext_getElem? fun i => ?_
  rcases Nat.lt_or_ge i rest.length with hi | hi
  · have hcell := h.cell (log.released.length + i) (by omega)
      (by rw [← hrest, List.length_append]; omega)
    rw [← hrest, List.getElem?_append_right (by omega), Nat.add_sub_cancel_left] at hcell
    rw [List.getElem?_map, List.getElem?_range hi, hcell, Option.map_some]
    rfl
  · rw [List.getElem?_eq_none hi, List.getElem?_eq_none (by simpa using hi)]

/-- The occupied slots hold what is waiting. -/
theorem contents_eq (h : ring.Holds c log) : ring.contents c.slots = log.waiting := by
  rw [Log.waiting, h.published_eq, List.drop_left]

/-- A copy into a cell behind the published elements, before the oldest one. -/
theorem copy (h : ring.Holds c log) {k : ℕ} (v : T)
    (hk : log.published.length + k < log.released.length + c.slots.toNat) :
    (ring.setSlot ((log.published.length + k) % c.slots.toNat) v).Holds c log where
  write := h.write
  read := h.read
  fifo := h.fifo
  room := h.room
  cell i hi hi' := by
    have hne : i % c.slots.toNat ≠ (log.published.length + k) % c.slots.toNat := by
      intro heq
      have hroom := h.room
      have := Circular.eq_of_mod_eq hi (by omega) (by omega) hk heq
      omega
    rw [Ring.setSlot_of_ne _ _ hne]
    exact h.cell i hi hi'

/-- The store to `writeIdx` publishes the elements copied behind the published ones. -/
theorem publish (h : ring.Holds c log) {xs : List T} {next : UInt64}
    (hnext : next.toNat = (log.published.length + xs.length) % c.slots.toNat)
    (hroom : log.published.length + xs.length < log.released.length + c.slots.toNat)
    (hcopied : ∀ j < xs.length,
      xs[j]? = some (ring.slots ((log.published.length + j) % c.slots.toNat))) :
    Holds c { ring with writeIdx := next } (log.publish xs) where
  write := by simpa using hnext
  read := h.read
  fifo := h.fifo.trans (List.prefix_append _ _)
  room := by simpa [Nat.add_assoc] using hroom
  cell i hi hi' := by
    simp only [Log.publish_published, List.length_append] at hi' ⊢
    rcases Nat.lt_or_ge i log.published.length with hlt | hge
    · rw [List.getElem?_append_left hlt]
      exact h.cell i hi hlt
    · obtain ⟨j, rfl⟩ := Nat.exists_eq_add_of_le hge
      rw [List.getElem?_append_right hge, Nat.add_sub_cancel_left]
      exact hcopied j (by omega)

/-- The store to `readIdx` releases the oldest elements. -/
theorem release (h : ring.Holds c log) {xs : List T} {next : UInt64}
    (hnext : next.toNat = (log.released.length + xs.length) % c.slots.toNat)
    (hxs : log.released ++ xs <+: log.published) :
    Holds c { ring with readIdx := next } (log.release xs) where
  write := h.write
  read := by simpa using hnext
  fifo := hxs
  room := by
    have := h.room
    simp only [Log.release_published, Log.release_released, List.length_append]
    omega
  cell i hi hi' := by
    simp only [Log.release_released, List.length_append] at hi
    exact h.cell i (by omega) hi'

/-- A segment whose `writeIdx` shows only some of the published elements holds these. -/
theorem seen (h : ring.Holds c log) {w : UInt64} {published : List T}
    (hw : w.toNat = published.length % c.slots.toNat) (hpublished : published <+: log.published)
    (hreleased : log.released <+: published) :
    Holds c { ring with writeIdx := w } ⟨published, log.released⟩ where
  write := hw
  read := h.read
  fifo := hreleased
  room := hpublished.length_le.trans_lt h.room
  cell i hi hlt := by
    rw [← h.cell i hi (hlt.trans_le hpublished.length_le)]
    obtain ⟨rest, hrest⟩ := hpublished
    rw [← hrest]
    exact (List.getElem?_append_left hlt).symm

/-- The cell of the oldest unreleased element, and of those behind it. -/
theorem released_append (h : ring.Holds c log) (xs : List T)
    (hxs : log.released ++ xs <+: log.published)
    (hlt : log.released.length + xs.length < log.published.length) :
    log.released ++ (xs ++ [ring.slots ((log.released.length + xs.length) % c.slots.toNat)]) <+:
      log.published := by
  have hcell := h.cell (log.released.length + xs.length) (by omega) hlt
  obtain ⟨rest, hrest⟩ := hxs
  rw [← hrest, List.getElem?_append_right (by simp)] at hcell
  cases rest with
  | nil => simp at hcell
  | cons x rest =>
    have hx : x = ring.slots ((log.released.length + xs.length) % c.slots.toNat) := by
      simpa using hcell
    refine ⟨rest, ?_⟩
    rw [← hx, ← hrest]
    simp

end Ring.Holds

end ShmSpsc
