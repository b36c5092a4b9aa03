import Mathlib.Logic.Function.Basic
import Mathlib.Logic.Relation

/-!
# A word that names its owner

A lock without a queue : a shared word holds the identity of its owner or a value that is
nobody's. A participant loads the word, judges whether the one it names is gone, and only
then tries to replace exactly that value by its own identity; a failed replacement loads
the word again. Owners release the word, or die and leave it behind. Participants and the
values of the word have the arbitrary type `ι`, any number of them take steps in any order.

`Exclusive.step` : with judgements that never take a living owner for gone, at most one
living participant owns, and the word names it (`Exclusive.unique`, `Exclusive.slot`).
-/

namespace OwnerWord

variable {ι : Type*}

/-- Where a participant is : not trying, about to judge the value `e` it has loaded, or about
to replace the value `e` it has judged. -/
inductive Attempt (ι : Type*) where
  | none
  | testing (e : ι)
  | claiming (e : ι)

/-- The word, who is alive, who owns, and who is trying. -/
structure State (ι : Type*) where
  word : ι
  alive : ι → Prop
  owns : ι → Prop
  attempt : ι → Attempt ι

variable {σ σ' : State ι}

/-- The word names the living owner, and nobody's judgement is wrong. -/
structure Exclusive (σ : State ι) : Prop where
  slot : ∀ p, σ.alive p → σ.owns p → σ.word = p
  owner : ∀ p, σ.alive p → σ.word = p → σ.owns p
  testing : ∀ p e, σ.alive p → σ.attempt p = .testing e → (e = p ↔ σ.owns p)
  claiming : ∀ p e, σ.alive p → σ.attempt p = .claiming e → ¬σ.owns p ∧ ¬σ.alive e

namespace Exclusive

/-- A word that is nobody's, and nobody trying. -/
theorem of_free (free : ¬σ.alive σ.word) (owns : ∀ p, ¬σ.owns p)
    (attempt : ∀ p, σ.attempt p = .none) : Exclusive σ where
  slot p _ hp := absurd hp (owns p)
  owner p halive hp := absurd (hp ▸ halive) free
  testing p e _ hp := by simp [attempt] at hp
  claiming p e _ hp := by simp [attempt] at hp

/-- At most one living participant owns. -/
theorem unique (h : Exclusive σ) {p q : ι} (hp : σ.alive p) (hq : σ.alive q)
    (hp' : σ.owns p) (hq' : σ.owns q) : p = q :=
  (h.slot p hp hp').symm.trans (h.slot q hq hq')

theorem word_eq_iff (h : Exclusive σ) {p : ι} (hp : σ.alive p) : σ.word = p ↔ σ.owns p :=
  ⟨h.owner p hp, h.slot p hp⟩

end Exclusive

/-! ## The steps -/

variable [DecidableEq ι]

/-- The attempt of `p` moves to `a`. -/
def State.try (σ : State ι) (p : ι) (a : Attempt ι) : State ι :=
  { σ with attempt := Function.update σ.attempt p a }

/-- `p` owns from now on, or no more, and is not trying. -/
def State.own (σ : State ι) (p : ι) (b : Prop) : State ι :=
  { σ.try p .none with owns := Function.update σ.owns p b }

/-- The steps. -/
inductive Step : State ι → State ι → Prop
  /-- `p` loads the word. -/
  | load {σ p} (alive : σ.alive p) : Step σ (σ.try p (.testing σ.word))
  /-- `p` finds that `e` is gone. -/
  | judge {σ p e} (alive : σ.alive p) (at_ : σ.attempt p = .testing e) (other : e ≠ p)
      (gone : ¬σ.alive e) : Step σ (σ.try p (.claiming e))
  /-- `p` finds its own name. -/
  | resume {σ p} (alive : σ.alive p) (at_ : σ.attempt p = .testing p) : Step σ (σ.own p True)
  /-- `p` replaces the value it has judged. -/
  | claim {σ p} (alive : σ.alive p) (at_ : σ.attempt p = .claiming σ.word) :
      Step σ ({ σ with word := p }.own p True)
  /-- `p` gives up. -/
  | abandon {σ p} : Step σ (σ.try p .none)
  /-- `p` owns no more, and leaves `v` if the word named it. -/
  | release {σ p v} (free : ¬σ.alive v) :
      Step σ ({ σ with word := if σ.word = p then v else σ.word }.own p False)
  /-- `p` dies. -/
  | die {σ p} : Step σ { σ with alive := fun q => σ.alive q ∧ q ≠ p }

namespace Exclusive

/-- An attempt moves to a place it may be at. -/
theorem move (h : Exclusive σ) {p : ι} {a : Attempt ι}
    (testing : ∀ e, a = .testing e → (e = p ↔ σ.owns p))
    (claiming : ∀ e, a = .claiming e → ¬σ.owns p ∧ ¬σ.alive e) : Exclusive (σ.try p a) where
  slot := h.slot
  owner := h.owner
  testing q e hq hat := by
    by_cases hqp : q = p
    · subst hqp
      exact testing e (by simpa [State.try] using hat)
    · exact h.testing q e hq (by simpa [State.try, hqp] using hat)
  claiming q e hq hat := by
    by_cases hqp : q = p
    · subst hqp
      exact claiming e (by simpa [State.try] using hat)
    · exact h.claiming q e hq (by simpa [State.try, hqp] using hat)

/-- Whoever is trying after a change of ownership is another one, and was trying before. -/
theorem attempt_own {p q : ι} {b : Prop} {a : Attempt ι} (ha : a ≠ .none)
    (hat : (σ.own p b).attempt q = a) : q ≠ p ∧ σ.attempt q = a := by
  by_cases hqp : q = p
  · subst hqp
    exact absurd (by simpa [State.own, State.try] using hat.symm) ha
  · exact ⟨hqp, by simpa [State.own, State.try, hqp] using hat⟩

/-- `p` comes to own, with the word naming it, when no other living participant does. -/
theorem take (h : Exclusive σ) {p : ι} (others : ∀ q, σ.alive q → q ≠ p → ¬σ.owns q) :
    Exclusive ({ σ with word := p }.own p True) where
  slot q hq hown := by
    by_contra hne
    have hne : q ≠ p := fun h => hne h.symm
    exact others q hq hne (by simpa [State.own, hne] using hown)
  owner q _ hword := by
    obtain rfl : p = q := hword
    simp [State.own]
  testing q e hq hat := by
    obtain ⟨hqp, hat⟩ := attempt_own (by simp) hat
    simpa [State.own, hqp] using h.testing q e hq hat
  claiming q e hq hat := by
    obtain ⟨hqp, hat⟩ := attempt_own (by simp) hat
    simpa [State.own, State.try, hqp] using h.claiming q e hq hat

/-- `p` owns no more. -/
theorem leave (h : Exclusive σ) {p v : ι} (free : ¬σ.alive v) :
    Exclusive ({ σ with word := if σ.word = p then v else σ.word }.own p False) where
  slot q hq hown := by
    by_cases hqp : q = p
    · simp [State.own, hqp] at hown
    · have hword := h.slot q hq (by simpa [State.own, hqp] using hown)
      have hne : σ.word ≠ p := hword ▸ hqp
      simpa [State.own, State.try, hne] using hword
  owner q hq hword := by
    by_cases hσ : σ.word = p
    · have hv : v = q := by simpa [State.own, State.try, hσ] using hword
      exact absurd (hv ▸ hq) free
    · have hword : σ.word = q := by simpa [State.own, State.try, hσ] using hword
      have hqp : q ≠ p := hword ▸ hσ
      simpa [State.own, hqp] using h.owner q hq hword
  testing q e hq hat := by
    obtain ⟨hqp, hat⟩ := attempt_own (by simp) hat
    simpa [State.own, hqp] using h.testing q e hq hat
  claiming q e hq hat := by
    obtain ⟨hqp, hat⟩ := attempt_own (by simp) hat
    simpa [State.own, State.try, hqp] using h.claiming q e hq hat

/-- Every step keeps exclusion. -/
theorem step (h : Exclusive σ) (hstep : Step σ σ') : Exclusive σ' := by
  cases hstep with
  | load alive =>
    refine h.move (fun e he => ?_) (by simp)
    cases he
    exact h.word_eq_iff alive
  | judge alive at_ other gone =>
    refine h.move (by simp) fun e' he => ?_
    cases he
    exact ⟨fun hown => other ((h.testing _ _ alive at_).mpr hown), gone⟩
  | @resume p alive at_ =>
    have hown := (h.testing p p alive at_).mp rfl
    have htake := h.take (p := p) fun q hq hne hq' => hne (h.unique hq alive hq' hown)
    have hσ : { σ with word := p } = σ := by rw [← h.slot p alive hown]
    rwa [hσ] at htake
  | claim alive at_ =>
    have gone := (h.claiming _ _ alive at_).2
    exact h.take fun q hq _ hown => gone (h.slot q hq hown ▸ hq)
  | abandon => exact h.move (by simp) (by simp)
  | release free => exact h.leave free
  | die =>
    exact ⟨fun p hp => h.slot p hp.1, fun p hp => h.owner p hp.1,
      fun p e hp => h.testing p e hp.1, fun p e hp hat =>
        ⟨(h.claiming p e hp.1 hat).1, fun he => (h.claiming p e hp.1 hat).2 he.1⟩⟩

end Exclusive

/-! ## An owner that stays -/

/-- Nobody but `p` owns, and whoever is trying has found the name of `p`. -/
def Undisputed (σ : State ι) (p : ι) : Prop :=
  ∀ q, q ≠ p → ¬σ.owns q ∧ (σ.attempt q = .none ∨ σ.attempt q = .testing p)

/-- A living owner stays undisputed. -/
theorem Undisputed.step {p : ι} (h : Undisputed σ p) (hexcl : Exclusive σ) (halive : σ.alive p)
    (hown : σ.owns p) (hstep : Step σ σ') : Undisputed σ' p := by
  have hword := hexcl.slot p halive hown
  have move {r : ι} {a : Attempt ι} (ha : r ≠ p → a = .none ∨ a = .testing p) :
      Undisputed (σ.try r a) p := by
    intro q hq
    refine ⟨(h q hq).1, ?_⟩
    by_cases hqr : q = r
    · subst hqr
      simpa [State.try] using ha hq
    · simpa [State.try, hqr] using (h q hq).2
  have own {r v : ι} {b : Prop} (hb : r ≠ p → ¬b) :
      Undisputed ({ σ with word := v }.own r b) p := by
    intro q hq
    by_cases hqr : q = r
    · subst hqr
      simpa [State.own, State.try] using hb hq
    · simpa [State.own, State.try, hqr] using h q hq
  cases hstep with
  | load _ => exact move fun _ => .inr (by rw [hword])
  | judge alive at_ other gone =>
    refine move fun hr => ?_
    rcases (h _ hr).2 with hat | hat
    · rw [hat] at at_
      cases at_
    · rw [hat] at at_
      cases at_
      exact absurd halive gone
  | @resume r alive at_ =>
    have hr : r = p := by
      by_contra hr
      rcases (h r hr).2 with hat | hat <;> rw [hat] at at_ <;> cases at_
      exact hr rfl
    exact own fun hne => absurd hr hne
  | @claim r alive at_ =>
    have hr : r = p := by
      by_contra hr
      rcases (h r hr).2 with hat | hat <;> rw [hat] at at_ <;> cases at_
    exact own fun hne => absurd hr hne
  | abandon => exact move fun _ => .inl rfl
  | release free => exact own fun _ => not_false
  | die => exact h

end OwnerWord
