import Mathlib.Data.Option.Basic
import Mathlib.Tactic.SplitIfs

/-!
# Runs of a labelled step function

A system is a partial step function `step : σ → α → Option σ` : the action `a` is enabled
in `s` when `step s a` is a state. `Reaches step ok s₀` are the states of the runs from
`s₀` whose steps all meet `ok` in the state before them, and `Reachable step s₀` those of
all runs. `Reaches.invariant` is the induction over a run, `Reaches.simulate` the one over
two related runs, `Reaches.of_exec` turns the evaluation of a list of actions into a run, and
`exec_filter` takes actions out of such a list that a related system does not see.
-/

namespace Transition

variable {σ α : Type*} {step : σ → α → Option σ} {ok : σ → α → Prop} {s₀ s s' : σ}

/-- The states of the runs from `s₀` whose steps all meet `ok`. -/
inductive Reaches (step : σ → α → Option σ) (ok : σ → α → Prop) (s₀ : σ) : σ → Prop
  | refl : Reaches step ok s₀ s₀
  | tail {s s' : σ} {a : α} (run : Reaches step ok s₀ s) (met : ok s a)
      (next : step s a = some s') : Reaches step ok s₀ s'

/-- The states of all runs from `s₀`. -/
abbrev Reachable (step : σ → α → Option σ) (s₀ : σ) : σ → Prop :=
  Reaches step (fun _ _ => True) s₀

/-- What holds at the start and is kept by every step holds along the run. -/
theorem Reaches.invariant {I : σ → Prop} (start : I s₀)
    (keep : ∀ s a s', I s → ok s a → step s a = some s' → I s')
    (run : Reaches step ok s₀ s) : I s := by
  induction run with
  | refl => exact start
  | tail _ met next ih => exact keep _ _ _ ih met next

theorem Reaches.trans (run : Reaches step ok s₀ s) (rest : Reaches step ok s s') :
    Reaches step ok s₀ s' := by
  induction rest with
  | refl => exact run
  | tail _ met next ih => exact ih.tail met next

/-- A run under a condition is a run under a weaker one. -/
theorem Reaches.mono {ok' : σ → α → Prop} (weaker : ∀ s a, ok s a → ok' s a)
    (run : Reaches step ok s₀ s) : Reaches step ok' s₀ s := by
  induction run with
  | refl => exact .refl
  | tail _ met next ih => exact ih.tail (weaker _ _ met) next

/-- A system that follows every step of another one from related states follows its runs. -/
theorem Reaches.simulate {τ : Type*} {step' : τ → α → Option τ} {t₀ : τ} {R : σ → τ → Prop}
    (start : R s₀ t₀)
    (follow : ∀ s t a s', R s t → step s a = some s' → ∃ t', step' t a = some t' ∧ R s' t')
    (run : Reaches step ok s₀ s) : ∃ t, Reachable step' t₀ t ∧ R s t := by
  induction run with
  | refl => exact ⟨t₀, .refl, start⟩
  | tail _ _ next ih =>
    obtain ⟨t, run', hR⟩ := ih
    obtain ⟨t', next', hR'⟩ := follow _ _ _ _ hR next
    exact ⟨t', run'.tail trivial next', hR'⟩

/-- Take the actions in order, each one meeting `ok`. -/
def exec (step : σ → α → Option σ) (ok : σ → α → Prop) [∀ s a, Decidable (ok s a)] :
    σ → List α → Option σ
  | s, [] => some s
  | s, a :: as => if ok s a then (step s a).bind fun s' => exec step ok s' as else none

theorem Reaches.of_exec [∀ s a, Decidable (ok s a)] :
    ∀ {s : σ} {as : List α}, exec step ok s as = some s' → Reaches step ok s s'
  | s, [], h => by
    obtain rfl := Option.some.inj h
    exact .refl
  | s, a :: as, h => by
    rw [exec] at h
    split_ifs at h with met
    obtain ⟨s₁, next, rest⟩ := Option.bind_eq_some_iff.mp h
    exact (Reaches.refl.tail met next).trans (of_exec rest)

/-- Actions in a row, one half after the other. -/
theorem exec_append [∀ s a, Decidable (ok s a)] :
    ∀ (s : σ) (as bs : List α),
      exec step ok s (as ++ bs) = (exec step ok s as).bind fun s' => exec step ok s' bs
  | s, [], bs => rfl
  | s, a :: as, bs => by
    rw [List.cons_append, exec, exec]
    split_ifs with met
    · rw [Option.bind_assoc]
      exact congrArg _ (funext fun s' => exec_append s' as bs)
    · rfl

/-- Steps that only one of two related systems takes. If the other one follows every step
that is not hidden, and a hidden step keeps the relation, the other one follows the run
without its hidden steps. -/
theorem exec_filter [∀ s a, Decidable (ok s a)] {R : σ → σ → Prop} (hidden : α → Bool)
    (follow : ∀ s t a s', R s t → hidden a = false → step s a = some s' →
      ∃ t', step t a = some t' ∧ R s' t')
    (hide : ∀ s t a s', R s t → hidden a = true → ok s a → step s a = some s' → R s' t) :
    ∀ {s t : σ} {as : List α}, R s t → exec step ok s as = some s' →
      ∃ t', exec step (fun _ _ => True) t (as.filter fun a => !hidden a) = some t' ∧ R s' t'
  | s, t, [], hR, h => by
    obtain rfl := Option.some.inj h
    exact ⟨t, rfl, hR⟩
  | s, t, a :: as, hR, h => by
    rw [exec] at h
    split_ifs at h with met
    obtain ⟨s₁, next, rest⟩ := Option.bind_eq_some_iff.mp h
    cases ha : hidden a with
    | false =>
      obtain ⟨t₁, hstep, hR₁⟩ := follow _ _ _ _ hR ha next
      obtain ⟨t', ht', hR'⟩ := exec_filter hidden follow hide hR₁ rest
      refine ⟨t', ?_, hR'⟩
      rw [List.filter_cons_of_pos (by simp [ha]), exec, if_pos trivial, hstep]
      exact ht'
    | true =>
      rw [List.filter_cons_of_neg (by simp [ha])]
      exact exec_filter hidden follow hide (hide _ _ _ _ hR ha met next) rest

end Transition
