import Mathlib.Data.List.Forall2
import Mathlib.Data.Set.Basic
import Mathlib.Logic.Function.Basic
import Mathlib.Order.Lattice

/-!
# Release, acquire and data races

Threads `ι` share atomic variables `ℓ` and plain cells `κ`. The stores to an atomic variable
are its messages, in order; a load may read any message that is not before the last one its
thread has read or stored there. A clock says how many of each thread's accesses to plain
cells happen before a point of a run. A release store puts its thread's clock into the
message, an acquire load joins the clock of the message it reads, and relaxed ones do
neither.

A cell remembers, for each thread, its last read and its last write. An access is a race if
a conflicting access of another thread does not happen before it (`Memory.races`).
`Memory.Before` is how race freedom is proved : what `u` has done to the cells `K` happens
before the point with clock `c`. It holds of every cell for the clock of `u` itself
(`Before.own`), so a release store hands it on with its message, and an access of `u` to a
cell outside `K` keeps it (`Before.touch`). `Memory.Weaker` compares two memories of one run
under different orders : with weaker ones less is known, and what races stays a race.
-/

set_option linter.unusedSectionVars false

namespace Race

variable {ι ℓ κ α : Type*}

/-- The memory order of a load. -/
inductive LoadOrder where
  | relaxed
  | acquire
  deriving DecidableEq, Repr

/-- The memory order of a store. -/
inductive StoreOrder where
  | relaxed
  | release
  deriving DecidableEq, Repr

/-- How many plain accesses of each thread happen before a point. -/
abbrev Clock (ι : Type*) := ι → ℕ

/-- A store to an atomic variable, with the clock that an acquire load of it joins. -/
structure Message (ι α : Type*) where
  value : α
  clock : Clock ι

/-- What a plain access does. -/
inductive Access where
  | read
  | write
  deriving DecidableEq, Repr

/-- The last access of each kind of each thread, by that thread's own count. -/
abbrev Cell (ι : Type*) := Access → Clock ι

/-- The messages of each variable, the last one that each thread has seen, the last accesses
to each cell, and what happens before the next step of each thread. -/
structure Memory (ι ℓ κ α : Type*) where
  messages : ℓ → List (Message ι α)
  seen : ι → ℓ → ℕ
  cells : κ → Cell ι
  clock : ι → Clock ι
  seen_lt : ∀ t x, seen t x < (messages x).length

namespace Memory

/-- The message that `t` has seen last at `x`. -/
def shown (m : Memory ι ℓ κ α) (t : ι) (x : ℓ) : Message ι α :=
  (m.messages x).get ⟨m.seen t x, m.seen_lt t x⟩

/-- One message for each variable, no access yet. -/
def start (init : ℓ → α) : Memory ι ℓ κ α where
  messages x := [⟨init x, fun _ => 0⟩]
  seen _ _ := 0
  cells _ _ _ := 0
  clock _ _ := 0
  seen_lt _ _ := Nat.one_pos

/-- What a load of `x` adds to the clock. -/
def joined (order : LoadOrder) (c : Clock ι) : Clock ι :=
  match order with
  | .relaxed => fun _ => 0
  | .acquire => c

/-- The clock that a store puts into its message. -/
def sent (order : StoreOrder) (c : Clock ι) : Clock ι :=
  match order with
  | .relaxed => fun _ => 0
  | .release => c

section Steps

variable [DecidableEq ι] [DecidableEq ℓ] [DecidableEq κ]

/-- `t` loads the `i`-th message of `x`, if it has seen no later one. -/
def load (m : Memory ι ℓ κ α) (t : ι) (x : ℓ) (order : LoadOrder) (i : ℕ) :
    Option (Memory ι ℓ κ α) :=
  if h : m.seen t x ≤ i ∧ i < (m.messages x).length then
    some { m with
      seen := Function.update m.seen t (Function.update (m.seen t) x i)
      clock := Function.update m.clock t
        (m.clock t ⊔ joined order ((m.messages x).get ⟨i, h.2⟩).clock)
      seen_lt := fun u y => by
        by_cases hu : u = t
        · subst hu
          by_cases hy : y = x
          · subst hy
            simpa using h.2
          · simpa [hy] using m.seen_lt u y
        · simpa [hu] using m.seen_lt u y }
  else none

/-- `t` stores `v` to `x`. -/
def store (m : Memory ι ℓ κ α) (t : ι) (x : ℓ) (order : StoreOrder) (v : α) :
    Memory ι ℓ κ α where
  messages := Function.update m.messages x (m.messages x ++ [⟨v, sent order (m.clock t)⟩])
  seen := Function.update m.seen t (Function.update (m.seen t) x (m.messages x).length)
  cells := m.cells
  clock := m.clock
  seen_lt u y := by
    by_cases hy : y = x
    · subst hy
      by_cases hu : u = t
      · subst hu
        simp
      · simpa [hu] using (m.seen_lt u y).trans (Nat.lt_succ_self _)
    · by_cases hu : u = t
      · subst hu
        simpa [hy] using m.seen_lt u y
      · simpa [hu, hy] using m.seen_lt u y

/-- `t` reads or writes the cell `k`. -/
def touch (m : Memory ι ℓ κ α) (t : ι) (kind : Access) (k : κ) : Memory ι ℓ κ α where
  messages := m.messages
  seen := m.seen
  cells := Function.update m.cells k (Function.update (m.cells k) kind
    (Function.update (m.cells k kind) t (m.clock t t + 1)))
  clock := Function.update m.clock t (Function.update (m.clock t) t (m.clock t t + 1))
  seen_lt := m.seen_lt

end Steps

/-- Two accesses to one cell conflict unless both are reads. -/
def conflicts : Access → Access → Bool
  | .read, .read => false
  | _, _ => true

/-- An access of `t` to `k` races : another thread's conflicting access does not happen
before it. -/
def races (m : Memory ι ℓ κ α) (t : ι) (kind : Access) (k : κ) : Prop :=
  ∃ u, u ≠ t ∧ ∃ kind', conflicts kind kind' = true ∧ m.clock t u < m.cells k kind' u

/-! ## What happens before -/

/-- What `u` has done to the cells `K` happens before a point with clock `c`. -/
def Before (m : Memory ι ℓ κ α) (u : ι) (K : Set κ) (c : Clock ι) : Prop :=
  ∀ k ∈ K, ∀ kind, m.cells k kind u ≤ c u

/-- A thread's accesses are counted by its own clock. -/
def Counted (m : Memory ι ℓ κ α) : Prop :=
  ∀ k kind u, m.cells k kind u ≤ m.clock u u

variable {m m' : Memory ι ℓ κ α} {t u : ι} {K K' : Set κ} {c c' : Clock ι}

theorem Before.mono (h : m.Before u K c) (hK : K' ⊆ K) (hc : c u ≤ c' u) : m.Before u K' c' :=
  fun k hk kind => (h k (hK hk) kind).trans hc

/-- What a thread has done happens before its own next step. -/
theorem Before.own (h : m.Counted) (K : Set κ) : m.Before u K (m.clock u) :=
  fun k _ kind => h k kind u

/-- An access does not race if all that the others did to the cell happens before it. -/
theorem not_races {k : κ} (h : ∀ u, u ≠ t → m.Before u {k} (m.clock t)) (kind : Access) :
    ¬m.races t kind k := by
  rintro ⟨u, hu, kind', -, hlt⟩
  exact absurd (h u hu k rfl kind') (Nat.not_le.mpr hlt)

theorem counted_start (init : ℓ → α) : (start init : Memory ι ℓ κ α).Counted :=
  fun _ _ _ => le_rfl

theorem before_start (init : ℓ → α) (u : ι) (K : Set κ) (c : Clock ι) :
    (start init : Memory ι ℓ κ α).Before u K c :=
  fun _ _ _ => Nat.zero_le _

theorem Before.congr (h : m.Before u K c) (hcells : m'.cells = m.cells) : m'.Before u K c := by
  intro k hk kind
  rw [hcells]
  exact h k hk kind

section Steps

variable [DecidableEq ι] [DecidableEq ℓ] [DecidableEq κ] {x y : ℓ} {kind : Access} {k : κ}
  {order : LoadOrder} {i : ℕ} {v : α}

/-- The steps of a thread only add to its clock. -/
theorem clock_le_touch (m : Memory ι ℓ κ α) (t : ι) (kind : Access) (k : κ) (u : ι) :
    m.clock u ≤ (m.touch t kind k).clock u := by
  by_cases hu : u = t
  · subst hu
    simp only [touch, Function.update_self]
    intro w
    by_cases hw : w = u
    · subst hw
      simp
    · simp [hw]
  · simp [touch, hu]

/-- An access of `t` leaves the other cells, the accesses of the other kind and those of the other
threads. -/
theorem cells_touch {k' : κ} {kind' : Access} (h : ¬(k' = k ∧ kind' = kind ∧ u = t)) :
    (m.touch t kind k).cells k' kind' u = m.cells k' kind' u := by
  simp only [Memory.touch]
  by_cases hk : k' = k
  · subst hk
    by_cases hkind : kind' = kind
    · subst hkind
      have hu : u ≠ t := fun hu => h ⟨rfl, rfl, hu⟩
      simp [hu]
    · simp [hkind]
  · simp [hk]

/-- An access of `t` keeps what is known of the cells it does not touch, and of the others'
accesses. -/
theorem Before.touch (h : m.Before u K c) (hk : u = t → k ∉ K) :
    (m.touch t kind k).Before u K c := by
  intro k' hk' kind'
  rw [cells_touch]
  · exact h k' hk' kind'
  · rintro ⟨rfl, -, hu⟩
    exact hk hu hk'

theorem Counted.touch (h : m.Counted) : (m.touch t kind k).Counted := by
  intro k' kind' u
  by_cases hu : u = t
  · subst hu
    by_cases hkk : k' = k
    · subst hkk
      by_cases hkind : kind' = kind
      · subst hkind
        simp [Memory.touch]
      · simpa [Memory.touch, hkind] using (h k' kind' u).trans (Nat.le_succ _)
    · simpa [Memory.touch, hkk] using (h k' kind' u).trans (Nat.le_succ _)
  · have hbefore : m.Before u Set.univ (m.clock u) := Before.own h _
    have htouch : (m.touch t kind k).Before u Set.univ (m.clock u) :=
      hbefore.touch fun heq => absurd heq hu
    exact (htouch k' trivial kind').trans (clock_le_touch m t kind k u u)

/-! ## Loads -/

/-- What a load leaves. -/
theorem load_eq_some (h : m.load t x order i = some m') :
    m.seen t x ≤ i ∧ m'.messages = m.messages ∧ m'.cells = m.cells ∧
      m'.seen = Function.update m.seen t (Function.update (m.seen t) x i) ∧
      m'.clock = Function.update m.clock t (m.clock t ⊔ joined order (m'.shown t x).clock) := by
  rw [load] at h
  split_ifs at h with hi
  obtain rfl := Option.some.inj h
  refine ⟨hi.1, rfl, rfl, rfl, ?_⟩
  simp [shown]

/-- A load can always read again what was seen last. -/
theorem load_seen (m : Memory ι ℓ κ α) (t : ι) (x : ℓ) (order : LoadOrder) :
    ∃ m', m.load t x order (m.seen t x) = some m' := by
  rw [load, dif_pos ⟨le_rfl, m.seen_lt t x⟩]
  exact ⟨_, rfl⟩

theorem shown_mem (m : Memory ι ℓ κ α) (t : ι) (x : ℓ) : m.shown t x ∈ m.messages x :=
  List.get_mem _ _

/-- A load changes what is shown of its variable to its thread, and nothing else. -/
theorem shown_load (h : m.load t x order i = some m') (hne : u ≠ t ∨ y ≠ x) :
    m'.shown u y = m.shown u y := by
  obtain ⟨-, hmessages, -, hseen, -⟩ := load_eq_some h
  have heq : m'.seen u y = m.seen u y := by
    rw [hseen]
    rcases hne with hu | hy
    · simp [hu]
    · by_cases hu : u = t
      · subst hu
        simp [hy]
      · simp [hu]
  simp only [shown, List.get_eq_getElem, heq, hmessages]

theorem clock_le_load (h : m.load t x order i = some m') (u : ι) : m.clock u ≤ m'.clock u := by
  obtain ⟨-, -, -, -, hclock⟩ := load_eq_some h
  rw [hclock]
  by_cases hu : u = t
  · subst hu
    simp
  · simp [hu]

theorem Counted.load (hcount : m.Counted) (h : m.load t x order i = some m') : m'.Counted := by
  intro k kind u
  obtain ⟨-, -, hcells, -, -⟩ := load_eq_some h
  rw [hcells]
  exact (hcount k kind u).trans (clock_le_load h u u)

/-- Messages in an order that grows along the list : a load shows no smaller one. -/
theorem shown_le {f : α → ℕ} (hsorted : (m.messages x).Pairwise fun a b => f a.value ≤ f b.value)
    (h : m.load t x order i = some m') : f (m.shown t x).value ≤ f (m'.shown t x).value := by
  obtain ⟨hi, hmessages, -, hseen, -⟩ := load_eq_some h
  have hlt := m'.seen_lt t x
  have hat : m'.seen t x = i := by simp [hseen]
  simp only [shown, List.get_eq_getElem, hmessages, hat] at hlt ⊢
  rcases Nat.eq_or_lt_of_le hi with rfl | hi
  · exact le_rfl
  · exact List.pairwise_iff_getElem.mp hsorted _ _ (m.seen_lt t x) hlt hi

/-! ## Stores -/

theorem shown_store {order : StoreOrder} (hne : u ≠ t ∨ y ≠ x) :
    (m.store t x order v).shown u y = m.shown u y := by
  have hlt := m.seen_lt u y
  by_cases hy : y = x
  · subst hy
    have hu : u ≠ t := hne.resolve_right fun h => h rfl
    simp [shown, store, hu, List.getElem_append_left hlt]
  · by_cases hu : u = t
    · subst hu
      simp [shown, store, hy]
    · simp [shown, store, hu, hy]

theorem mem_messages_store {order : StoreOrder} {msg : Message ι α} :
    msg ∈ (m.store t x order v).messages y ↔
      msg ∈ m.messages y ∨ y = x ∧ msg = ⟨v, sent order (m.clock t)⟩ := by
  by_cases hy : y = x
  · subst hy
    simp [store]
  · simp [store, hy]

end Steps

/-! ## Weaker orders -/

/-- Nobody knows of more accesses of a thread than it has made. -/
structure Bounded (m : Memory ι ℓ κ α) : Prop where
  clock : ∀ t u, m.clock t u ≤ m.clock u u
  sent : ∀ x, ∀ msg ∈ m.messages x, ∀ u, msg.clock u ≤ m.clock u u

/-- `m` is `m'` with less known of what happens before what. -/
structure Weaker (m m' : Memory ι ℓ κ α) : Prop where
  seen : m.seen = m'.seen
  cells : m.cells = m'.cells
  messages : ∀ x, List.Forall₂ (fun msg msg' => msg.value = msg'.value ∧ msg.clock ≤ msg'.clock)
    (m.messages x) (m'.messages x)
  clock : ∀ t, m.clock t ≤ m'.clock t
  own : ∀ t, m.clock t t = m'.clock t t
  bounded : m'.Bounded

theorem weaker_start (init : ℓ → α) :
    (start init : Memory ι ℓ κ α).Weaker (start init) where
  seen := rfl
  cells := rfl
  messages _ := .cons ⟨rfl, le_rfl⟩ .nil
  clock _ := le_rfl
  own _ := rfl
  bounded := by
    refine ⟨fun _ _ => le_rfl, fun x msg hmsg u => ?_⟩
    obtain rfl := List.mem_singleton.mp hmsg
    exact le_rfl

/-- Equally far along messages that are related, what is shown is related. -/
theorem shown_forall₂ {R : Message ι α → Message ι α → Prop} (hseen : m.seen = m'.seen) {x : ℓ}
    (hmessages : List.Forall₂ R (m.messages x) (m'.messages x)) (t : ι) :
    R (m.shown t x) (m'.shown t x) := by
  have hlt := m.seen_lt t x
  have hlt' := m'.seen_lt t x
  simp only [shown, List.get_eq_getElem, ← hseen] at hlt' ⊢
  exact hmessages.get hlt hlt'

/-- Nobody knows more with less known. -/
theorem Weaker.lower (h : m.Weaker m') : m.Bounded := by
  refine ⟨fun t u => ?_, fun x msg hmsg u => ?_⟩
  · rw [h.own]
    exact (h.clock t u).trans (h.bounded.clock t u)
  · obtain ⟨i, hi, rfl⟩ := List.getElem_of_mem hmsg
    have hi' : i < (m'.messages x).length := (h.messages x).length_eq ▸ hi
    have hle := ((h.messages x).get hi hi').2 u
    rw [h.own]
    exact hle.trans (h.bounded.sent x _ (List.getElem_mem hi') u)

/-- A race stays one when less is known. -/
theorem Weaker.races (h : m.Weaker m') {kind : Access} {k : κ} (hraces : m'.races t kind k) :
    m.races t kind k := by
  obtain ⟨u, hu, kind', hconflict, hlt⟩ := hraces
  refine ⟨u, hu, kind', hconflict, ?_⟩
  rw [h.cells]
  exact (h.clock t u).trans_lt hlt

section Steps

variable [DecidableEq ι] [DecidableEq ℓ] [DecidableEq κ]

theorem joined_mono {order order' : LoadOrder} (horder : order = .acquire → order' = .acquire)
    (hc : c ≤ c') : joined order c ≤ joined order' c' := by
  rcases order with _ | _
  · exact Pi.le_def.mpr fun _ => Nat.zero_le _
  · rw [horder rfl]
    exact hc

theorem sent_mono {order order' : StoreOrder} (horder : order = .release → order' = .release)
    (hc : c ≤ c') : sent order c ≤ sent order' c' := by
  rcases order with _ | _
  · exact Pi.le_def.mpr fun _ => Nat.zero_le _
  · rw [horder rfl]
    exact hc

theorem joined_le (order : LoadOrder) (c : Clock ι) : joined order c ≤ c := by
  rcases order with _ | _
  · exact Pi.le_def.mpr fun _ => Nat.zero_le _
  · exact le_rfl

theorem sent_le (order : StoreOrder) (c : Clock ι) : sent order c ≤ c := by
  rcases order with _ | _
  · exact Pi.le_def.mpr fun _ => Nat.zero_le _
  · exact le_rfl

/-- Joining a clock adds nothing to what a thread knows of itself. -/
theorem Bounded.own_load (h : m.Bounded) {x : ℓ} {order : LoadOrder} {i : ℕ}
    (hload : m.load t x order i = some m') (u : ι) : m'.clock u u = m.clock u u := by
  obtain ⟨-, hmessages, -, -, hclock⟩ := load_eq_some hload
  by_cases hu : u = t
  · subst hu
    have hmem := m'.shown_mem u x
    rw [hmessages] at hmem
    have hle := (joined_le order (m'.shown u x).clock u).trans (h.sent x _ hmem u)
    simpa [hclock] using hle
  · simp [hclock, hu]

theorem Bounded.load (h : m.Bounded) {x : ℓ} {order : LoadOrder} {i : ℕ}
    (hload : m.load t x order i = some m') : m'.Bounded := by
  have hown := h.own_load hload
  obtain ⟨-, hmessages, -, -, hclock⟩ := load_eq_some hload
  refine ⟨fun t' u => ?_, fun y msg hmsg u => ?_⟩
  · rw [hown]
    by_cases ht : t' = t
    · subst ht
      have hmem := m'.shown_mem t' x
      rw [hmessages] at hmem
      simp only [hclock, Function.update_self, Pi.sup_apply]
      exact max_le (h.clock t' u) ((joined_le order _ u).trans (h.sent x _ hmem u))
    · simpa [hclock, ht] using h.clock t' u
  · rw [hown]
    rw [hmessages] at hmsg
    exact h.sent y msg hmsg u

theorem Bounded.touch (h : m.Bounded) (kind : Access) (k : κ) : (m.touch t kind k).Bounded := by
  have hle : ∀ u, m.clock u u ≤ (m.touch t kind k).clock u u := fun u =>
    clock_le_touch m t kind k u u
  refine ⟨fun t' u => ?_, fun x msg hmsg u => (h.sent x msg hmsg u).trans (hle u)⟩
  by_cases ht : t' = t
  · subst ht
    by_cases hu : u = t'
    · subst hu
      exact le_rfl
    · refine le_trans ?_ (hle u)
      simpa [Memory.touch, hu] using h.clock t' u
  · refine le_trans ?_ (hle u)
    simpa [Memory.touch, ht] using h.clock t' u

theorem Bounded.store (h : m.Bounded) (x : ℓ) (order : StoreOrder) (v : α) :
    (m.store t x order v).Bounded := by
  refine ⟨h.clock, fun y msg hmsg u => ?_⟩
  rcases mem_messages_store.mp hmsg with hmsg | ⟨-, rfl⟩
  · exact h.sent y msg hmsg u
  · exact (sent_le order _ u).trans (h.clock t u)

theorem Weaker.load (h : m.Weaker m') {m₁ : Memory ι ℓ κ α} {x : ℓ} {order order' : LoadOrder}
    {i : ℕ} (horder : order = .acquire → order' = .acquire)
    (hload : m'.load t x order' i = some m₁) :
    ∃ m₂, m.load t x order i = some m₂ ∧ m₂.Weaker m₁ := by
  obtain ⟨hi, hmessages₁, hcells₁, hseen₁, hclock₁⟩ := load_eq_some hload
  have hlt : i < (m.messages x).length := by
    have := m₁.seen_lt t x
    rw [(h.messages x).length_eq]
    simpa [hseen₁, hmessages₁] using this
  have hguard : m.seen t x ≤ i ∧ i < (m.messages x).length := ⟨h.seen ▸ hi, hlt⟩
  obtain ⟨m₂, hload₂⟩ : ∃ m₂, m.load t x order i = some m₂ := by
    rw [Memory.load, dif_pos hguard]
    exact ⟨_, rfl⟩
  refine ⟨m₂, hload₂, ?_⟩
  obtain ⟨-, hmessages₂, hcells₂, hseen₂, hclock₂⟩ := load_eq_some hload₂
  have hbounded₁ := h.bounded.load hload
  have hseen : m₂.seen = m₁.seen := by rw [hseen₁, hseen₂, h.seen]
  have hmessages : ∀ y, List.Forall₂ (fun msg msg' => msg.value = msg'.value ∧
      msg.clock ≤ msg'.clock) (m₂.messages y) (m₁.messages y) := by
    rw [hmessages₁, hmessages₂]
    exact h.messages
  have hshown := (shown_forall₂ hseen (hmessages x) t).2
  refine ⟨hseen, ?_, hmessages, fun u => ?_, fun u => ?_, hbounded₁⟩
  · rw [hcells₁, hcells₂, h.cells]
  · by_cases hu : u = t
    · subst hu
      simp only [hclock₁, hclock₂, Function.update_self]
      exact sup_le_sup (h.clock u) (joined_mono horder hshown)
    · simpa [hclock₁, hclock₂, hu] using h.clock u
  · rw [h.bounded.own_load hload, h.lower.own_load hload₂, h.own]

theorem Weaker.touch (h : m.Weaker m') (t : ι) (kind : Access) (k : κ) :
    (m.touch t kind k).Weaker (m'.touch t kind k) where
  seen := h.seen
  cells := by simp only [Memory.touch, h.cells, h.own]
  messages := h.messages
  clock u := by
    by_cases hu : u = t
    · subst hu
      intro w
      by_cases hw : w = u
      · subst hw
        simp [Memory.touch, h.own]
      · simpa [Memory.touch, hw] using h.clock u w
    · simpa [Memory.touch, hu] using h.clock u
  own u := by
    by_cases hu : u = t
    · subst hu
      simp [Memory.touch, h.own]
    · simpa [Memory.touch, hu] using h.own u
  bounded := h.bounded.touch kind k

theorem Weaker.store (h : m.Weaker m') {order order' : StoreOrder}
    (horder : order = .release → order' = .release) (t : ι) (x : ℓ) (v : α) :
    (m.store t x order v).Weaker (m'.store t x order' v) where
  seen := by simp only [Memory.store, h.seen, (h.messages x).length_eq]
  cells := h.cells
  messages y := by
    by_cases hy : y = x
    · subst hy
      simp only [Memory.store, Function.update_self]
      exact List.rel_append (h.messages y)
        (.cons ⟨rfl, sent_mono horder (h.clock t)⟩ .nil)
    · simpa [Memory.store, hy] using h.messages y
  clock := h.clock
  own := h.own
  bounded := h.bounded.store x order' v

end Steps

end Memory

end Race
