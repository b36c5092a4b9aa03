import Mathlib.Data.List.Nodup
import Mathlib.Logic.Equiv.Basic
import Mathlib.Logic.Relation

/-!
# Linear resources

Tokens that are made once, passed from holder to holder, and spent. A holder has at most one
token; a step makes a new token in an empty holder, spends what a holder has, or swaps two
holders. `Linear` is the invariant : a token that has been made is with exactly one holder, or
has been spent exactly once (`Linear.account`), and `Linear.steps` keeps it along any steps.
-/

namespace Tokens

variable {ι τ : Type*}

/-- The tokens made so far, those spent, and what every holder has. -/
structure State (ι τ : Type*) where
  made : List τ
  spent : List τ
  held : ι → Option τ

/-- A holder may make nothing, or spend nothing. -/
inductive Step [DecidableEq ι] : State ι τ → State ι τ → Prop
  | make {s : State ι τ} (i : ι) (x : Option τ) (fresh : ∀ t ∈ x, t ∉ s.made)
      (free : s.held i = none) :
      Step s ⟨s.made ++ x.toList, s.spent, Function.update s.held i x⟩
  | spend {s : State ι τ} (i : ι) :
      Step s ⟨s.made, s.spent ++ (s.held i).toList, Function.update s.held i none⟩
  | swap {s : State ι τ} (i j : ι) : Step s ⟨s.made, s.spent, s.held ∘ Equiv.swap i j⟩

/-- Every token is with one holder, or spent once. -/
structure Linear (s : State ι τ) : Prop where
  holder : ∀ i t, s.held i = some t → t ∈ s.made ∧ t ∉ s.spent
  unique : ∀ i j t, s.held i = some t → s.held j = some t → i = j
  once : s.spent.Nodup
  spent_made : ∀ t ∈ s.spent, t ∈ s.made
  kept : ∀ t ∈ s.made, t ∈ s.spent ∨ ∃ i, s.held i = some t

namespace Linear

variable {s s' : State ι τ}

/-- Nothing has been made. -/
theorem start : Linear (⟨[], [], fun _ => none⟩ : State ι τ) where
  holder i t h := by cases h
  unique i j t h := by cases h
  once := List.nodup_nil
  spent_made t h := by cases h
  kept t h := by cases h

section Steps

variable [DecidableEq ι]

theorem make {i : ι} {x : Option τ} (h : Linear s) (fresh : ∀ t ∈ x, t ∉ s.made)
    (free : s.held i = none) :
    Linear ⟨s.made ++ x.toList, s.spent, Function.update s.held i x⟩ where
  holder j t hj := by
    by_cases hji : j = i
    · subst hji
      have hx : x = some t := by simpa using hj
      refine ⟨List.mem_append_right _ (by simp [hx]), fun hspent => ?_⟩
      exact fresh t hx (h.spent_made t hspent)
    · have hold : s.held j = some t := by simpa [hji] using hj
      exact ⟨List.mem_append_left _ (h.holder j t hold).1, (h.holder j t hold).2⟩
  unique j k t hj hk := by
    -- a holder other than `i` has no token that is new
    have old {j : ι} (hji : j ≠ i) (hj : Function.update s.held i x j = some t) (hx : x = some t) :
        False := by
      rw [Function.update_of_ne hji] at hj
      exact fresh t hx (h.holder j t hj).1
    by_cases hji : j = i
    · by_cases hki : k = i
      · rw [hji, hki]
      · exact (old hki hk (by simpa [hji] using hj)).elim
    · by_cases hki : k = i
      · exact (old hji hj (by simpa [hki] using hk)).elim
      · simp only [Function.update_of_ne hji, Function.update_of_ne hki] at hj hk
        exact h.unique j k t hj hk
  once := h.once
  spent_made t ht := List.mem_append_left _ (h.spent_made t ht)
  kept t ht := by
    rcases List.mem_append.mp ht with ht | ht
    · rcases h.kept t ht with hspent | ⟨j, hj⟩
      · exact .inl hspent
      · have hji : j ≠ i := by
          rintro rfl
          rw [free] at hj
          cases hj
        exact .inr ⟨j, by simpa [hji] using hj⟩
    · exact .inr ⟨i, by simpa using ht⟩

theorem spend (h : Linear s) (i : ι) :
    Linear ⟨s.made, s.spent ++ (s.held i).toList, Function.update s.held i none⟩ where
  holder j t hj := by
    have hji : j ≠ i := by
      rintro rfl
      simp at hj
    have hold : s.held j = some t := by simpa [hji] using hj
    refine ⟨(h.holder j t hold).1, fun ht => ?_⟩
    rcases List.mem_append.mp ht with ht | ht
    · exact (h.holder j t hold).2 ht
    · exact hji (h.unique j i t hold (by simpa using ht))
  unique j k t hj hk := by
    have hold {j : ι} (hj : Function.update s.held i none j = some t) : s.held j = some t := by
      by_cases hji : j = i
      · simp [hji] at hj
      · simpa [hji] using hj
    exact h.unique j k t (hold hj) (hold hk)
  once := by
    refine List.nodup_append.mpr ⟨h.once, by cases s.held i <;> simp, fun t ht u hu => ?_⟩
    rintro rfl
    exact (h.holder i t (by simpa using hu)).2 ht
  spent_made t ht := by
    rcases List.mem_append.mp ht with ht | ht
    · exact h.spent_made t ht
    · exact (h.holder i t (by simpa using ht)).1
  kept t ht := by
    rcases h.kept t ht with hspent | ⟨j, hj⟩
    · exact .inl (List.mem_append_left _ hspent)
    · by_cases hji : j = i
      · subst hji
        exact .inl (List.mem_append_right _ (by simp [hj]))
      · exact .inr ⟨j, by simpa [hji] using hj⟩

theorem swap (h : Linear s) (i j : ι) : Linear ⟨s.made, s.spent, s.held ∘ Equiv.swap i j⟩ where
  holder k t hk := h.holder _ t hk
  unique k k' t hk hk' := (Equiv.swap i j).injective (h.unique _ _ t hk hk')
  once := h.once
  spent_made := h.spent_made
  kept t ht := by
    rcases h.kept t ht with hspent | ⟨k, hk⟩
    · exact .inl hspent
    · exact .inr ⟨Equiv.swap i j k, by simpa using hk⟩

theorem step (h : Linear s) (hstep : Step s s') : Linear s' := by
  cases hstep with
  | make i x fresh free => exact h.make fresh free
  | spend i => exact h.spend i
  | swap i j => exact h.swap i j

/-- Any steps keep the invariant. -/
theorem steps (h : Linear s) (hsteps : Relation.ReflTransGen Step s s') : Linear s' := by
  induction hsteps with
  | refl => exact h
  | tail _ hstep ih => exact ih.step hstep

end Steps

/-- A token that has been made is with exactly one holder, or has been spent exactly once. -/
theorem account [DecidableEq τ] (h : Linear s) {t : τ} (ht : t ∈ s.made) :
    (t ∉ s.spent ∧ ∃! i, s.held i = some t) ∨
      (s.spent.count t = 1 ∧ ∀ i, s.held i ≠ some t) := by
  rcases h.kept t ht with hspent | ⟨i, hi⟩
  · exact .inr ⟨List.count_eq_one_of_mem h.once hspent, fun i hi => (h.holder i t hi).2 hspent⟩
  · exact .inl ⟨(h.holder i t hi).2, i, hi, fun j hj => h.unique j i t hj hi⟩

end Linear

end Tokens
