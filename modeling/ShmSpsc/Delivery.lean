import Mathlib.Data.Nat.Basic
import Mathlib.Logic.Function.Basic
import Mathlib.Order.MinMax
import Mathlib.Tactic.SplitIfs

/-!
# Stores that arrive late

One writer, one reader. The writer's stores are a list, in program order, each with what its
variables hold from then on. The reader has its own front in that list for each variable :
it sees a variable as the stores before the front left it. Fronts move forward on their own,
so the stores to one variable arrive in order, and those to different variables in any
order. An acquire load that reads a release store moves every front past that store; a
relaxed load moves none.

`Memory.Later` is what a delivery or a load can do. `Memory.Monotone` and `Memory.Frames` are
facts about the list that `Memory.store` keeps, and `Memory.get_shown` turns the second one
into the current value of a variable that has nothing under way.
-/

namespace Delivery

variable {ι σ α : Type*}

/-- The memory order of a load. -/
inductive Order where
  | relaxed
  | acquire
  deriving DecidableEq, Repr

/-- A store to `var`, and what the writer's variables hold after it. -/
structure Store (ι σ : Type*) where
  var : ι
  release : Bool
  after : σ

/-- The stores, and how many of them the reader has seen the effect of on each variable. -/
structure Memory (ι σ : Type*) where
  init : σ
  stores : List (Store ι σ)
  front : ι → ℕ
  front_le : ∀ x, front x ≤ stores.length

namespace Memory

/-- The writer's variables after the first `n` stores. -/
def after (m : Memory ι σ) : ℕ → σ
  | 0 => m.init
  | n + 1 => (m.stores[n]?).elim (m.after n) Store.after

/-- The writer's variables. -/
def latest (m : Memory ι σ) : σ := m.after m.stores.length

/-- The variables as a load of `x` finds `x`. -/
def shown (m : Memory ι σ) (x : ι) : σ := m.after (m.front x)

/-- A memory with no store yet. -/
def start (v : σ) : Memory ι σ := ⟨v, [], fun _ => 0, fun _ => le_rfl⟩

/-- A store to `x` that leaves `v`. -/
def store (m : Memory ι σ) (x : ι) (release : Bool) (v : σ) : Memory ι σ where
  init := m.init
  stores := m.stores ++ [⟨x, release, v⟩]
  front := m.front
  front_le y := (m.front_le y).trans (by simp)

/-! ## What a store leaves -/

section Store

variable (m : Memory ι σ) (x : ι) (release : Bool) (v : σ)

@[simp] theorem length_store :
    (m.store x release v).stores.length = m.stores.length + 1 := by
  simp [store]

theorem after_store : ∀ {n : ℕ}, n ≤ m.stores.length → (m.store x release v).after n = m.after n
  | 0, _ => rfl
  | n + 1, h => by
    have hn : n < m.stores.length := h
    rw [after, after, after_store (by omega)]
    simp only [store, List.getElem?_append_left hn]

theorem after_of_le : ∀ {n : ℕ}, m.stores.length ≤ n → m.after n = m.latest
  | 0, h => by
    rw [latest, Nat.le_zero.mp h]
  | n + 1, h => by
    rcases Nat.lt_or_ge n m.stores.length with hlt | hge
    · rw [latest, show m.stores.length = n + 1 by omega]
    · rw [after, List.getElem?_eq_none hge]
      exact after_of_le hge

@[simp] theorem latest_store : (m.store x release v).latest = v := by
  simp [latest, store, after]

@[simp] theorem shown_store (y : ι) : (m.store x release v).shown y = m.shown y :=
  m.after_store x release v (m.front_le y)

/-- What holds of every state so far and of the next one. -/
theorem forall_after_store {Q : σ → Prop} (h : ∀ n, Q (m.after n)) (hv : Q v) (n : ℕ) :
    Q ((m.store x release v).after n) := by
  rcases Nat.lt_or_ge m.stores.length n with hlt | hle
  · rw [after_of_le _ (by rwa [length_store]), latest_store]
    exact hv
  · rw [m.after_store x release v hle]
    exact h n

end Store

/-- Each state is related to the later ones. -/
def Monotone (R : σ → σ → Prop) (m : Memory ι σ) : Prop :=
  ∀ n k, n ≤ k → R (m.after n) (m.after k)

theorem Monotone.store {R : σ → σ → Prop} {m : Memory ι σ} (h : m.Monotone R) {x : ι}
    {release : Bool} {v : σ} (hv : ∀ n, R (m.after n) v) (hrefl : R v v) :
    (m.store x release v).Monotone R := by
  intro n k hnk
  rcases Nat.lt_or_ge m.stores.length k with hlt | hle
  · rw [after_of_le (m.store x release v) (n := k) (by rwa [length_store]), latest_store]
    exact forall_after_store (Q := fun a => R a v) m x release v hv hrefl n
  · rw [m.after_store x release v hle, m.after_store x release v (hnk.trans hle)]
    exact h n k hnk

/-- Stores to other variables than `x` leave `get`. -/
def Frames (x : ι) (get : σ → α) (m : Memory ι σ) : Prop :=
  ∀ n st, m.stores[n]? = some st → st.var ≠ x → get st.after = get (m.after n)

theorem Frames.store {x y : ι} {get : σ → α} {m : Memory ι σ} (h : m.Frames x get)
    {release : Bool} {v : σ} (hv : y ≠ x → get v = get m.latest) :
    (m.store y release v).Frames x get := by
  intro n st hst hne
  rcases Nat.lt_or_ge n m.stores.length with hlt | hge
  · rw [m.after_store y release v hlt.le]
    rw [Memory.store, List.getElem?_append_left hlt] at hst
    exact h n st hst hne
  · rw [Memory.store, List.getElem?_append_right hge] at hst
    obtain ⟨hn, rfl⟩ := List.getElem?_eq_some_iff.mp hst
    obtain rfl : n = m.stores.length := by
      simp only [List.length_singleton] at hn
      omega
    rw [m.after_store y release v le_rfl]
    have hyx : y ≠ x := by simpa using hne
    simpa [latest] using hv hyx

/-- More of the same stores has arrived. -/
structure Later (m m' : Memory ι σ) : Prop where
  init : m'.init = m.init
  stores : m'.stores = m.stores
  front : ∀ x, m.front x ≤ m'.front x

theorem Later.after {m m' : Memory ι σ} (h : m.Later m') : ∀ n, m'.after n = m.after n
  | 0 => h.init
  | n + 1 => by
    rw [Memory.after, Memory.after, h.stores, Later.after h n]

theorem Later.latest {m m' : Memory ι σ} (h : m.Later m') : m'.latest = m.latest := by
  rw [Memory.latest, h.after, h.stores]
  rfl

/-! ## Deliveries and loads -/

variable [DecidableEq ι]

/-- The stores to `x` before the `n`-th one arrive. -/
def deliver (m : Memory ι σ) (x : ι) (n : ℕ) : Option (Memory ι σ) :=
  if h : m.front x ≤ n ∧ n ≤ m.stores.length then
    some { m with
      front := Function.update m.front x n
      front_le := fun y => by
        by_cases hy : y = x
        · subst hy
          simpa using h.2
        · simpa [hy] using m.front_le y }
  else none

/-- Every front moves past the first `n` stores. -/
def raise (m : Memory ι σ) (n : ℕ) (h : n ≤ m.stores.length) : Memory ι σ where
  init := m.init
  stores := m.stores
  front y := max (m.front y) n
  front_le y := max_le (m.front_le y) h

/-- How many stores there are up to the last one to `x`, among the first `n`. -/
def source (m : Memory ι σ) (x : ι) : ℕ → ℕ
  | 0 => 0
  | n + 1 => if (m.stores[n]?).any (·.var = x) then n + 1 else m.source x n

theorem source_le (m : Memory ι σ) (x : ι) : ∀ n, m.source x n ≤ n
  | 0 => le_rfl
  | n + 1 => by
    rw [source]
    split_ifs
    · exact le_rfl
    · exact (m.source_le x n).trans (Nat.le_succ n)

/-- An acquire load of `x`. -/
def acquire (m : Memory ι σ) (x : ι) : Memory ι σ :=
  let n := m.source x (m.front x)
  if (m.stores[n - 1]?).any (·.release) then
    m.raise n ((m.source_le x _).trans (m.front_le x))
  else m

/-- A load of `x`. -/
def load (m : Memory ι σ) (order : Order) (x : ι) : Memory ι σ :=
  match order with
  | .relaxed => m
  | .acquire => m.acquire x

/-- A store to `x` has not arrived. -/
def pending (m : Memory ι σ) (x : ι) : Bool := (m.stores.drop (m.front x)).any (·.var = x)

/-- With nothing to `x` under way, `x` is what the writer has stored last. -/
theorem get_shown {x : ι} {get : σ → α} {m : Memory ι σ} (h : m.Frames x get)
    (hnone : m.pending x = false) : get (m.shown x) = get m.latest := by
  have upto : ∀ k, m.front x + k ≤ m.stores.length →
      get (m.after (m.front x + k)) = get (m.shown x) := by
    intro k
    induction k with
    | zero => exact fun _ => rfl
    | succ k ih =>
      intro hk
      have hlt : m.front x + k < m.stores.length := hk
      have hst := List.getElem?_eq_getElem hlt
      have hne : (m.stores[m.front x + k]).var ≠ x := by
        intro heq
        simp only [pending, List.any_eq_false, List.mem_drop_iff_getElem,
          decide_eq_true_eq] at hnone
        refine hnone _ ⟨k, by omega, rfl⟩ ?_
        exact heq
      rw [← Nat.add_assoc, after, hst]
      exact (h _ _ hst hne).trans (ih (by omega))
  have hend := upto (m.stores.length - m.front x) (by have := m.front_le x; omega)
  rw [Nat.add_sub_cancel' (m.front_le x)] at hend
  exact hend.symm

theorem later_of_deliver {m m' : Memory ι σ} {x : ι} {n : ℕ} (h : m.deliver x n = some m') :
    m.Later m' := by
  rw [deliver] at h
  split_ifs at h with hn
  cases h
  refine ⟨rfl, rfl, fun y => ?_⟩
  by_cases hy : y = x
  · subst hy
    simpa using hn.1
  · simp [hy]

theorem later_load (m : Memory ι σ) (order : Order) (x : ι) : m.Later (m.load order x) := by
  cases order with
  | relaxed => exact ⟨rfl, rfl, fun _ => le_rfl⟩
  | acquire =>
    simp only [load, acquire]
    split_ifs
    · exact ⟨rfl, rfl, fun y => le_max_left _ _⟩
    · exact ⟨rfl, rfl, fun _ => le_rfl⟩

/-- An acquire load that reads the last store, a release store, leaves nothing under way. -/
theorem pending_acquire {m : Memory ι σ} {x y : ι} {st : Store ι σ}
    (hlast : m.stores.getLast? = some st) (hvar : st.var = x) (hrelease : st.release = true)
    (hfront : m.front x = m.stores.length) : (m.load .acquire x).pending y = false := by
  obtain ⟨n, hn⟩ : ∃ n, m.stores.length = n + 1 := by
    refine Nat.exists_eq_succ_of_ne_zero fun hnil => ?_
    rw [List.length_eq_zero_iff.mp hnil] at hlast
    cases hlast
  rw [List.getLast?_eq_getElem?, hn, Nat.add_sub_cancel] at hlast
  have hsource : m.source x (m.front x) = n + 1 := by
    rw [hfront, hn, source, hlast]
    simp [hvar]
  have hraised : (m.load .acquire x).stores.length ≤ (m.load .acquire x).front y := by
    simp only [load, acquire, hsource, Nat.add_sub_cancel, hlast, Option.any_some, hrelease,
      if_true, raise, hn]
    exact le_max_right _ _
  rw [pending, List.drop_eq_nil_of_le hraised]
  rfl

end Memory

end Delivery
