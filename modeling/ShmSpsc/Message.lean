import ShmSpsc.Layout
import Mathlib.Data.List.Basic
import Mathlib.Tactic.IntervalCases

/-!
# The messages of the demo

`Message` with its checksum, as the demo and the benchmarks send it, and the count that the
demo's consumer keeps of what it receives. On the wire a message is twelve words. Each step of
the checksum is injective in both its arguments, since `16777619` is odd (`mix_left_inj`,
`mix_right_inj`), so one wrong word among those it covers always shows :
`Message.detects_iff`.
-/

namespace ShmSpsc

/-- `struct Message` -/
structure Message where
  seq : UInt64
  sentNs : UInt64
  payload : Vector UInt32 6
  checksum : UInt32
  reserved : UInt32
  deriving DecidableEq, Repr

/-- The step of the checksum. -/
def mix (h v : UInt32) : UInt32 := (h ^^^ v) * 16777619

/-- The low word. -/
def loWord (x : UInt64) : UInt32 := x.toUInt32

/-- The high word. -/
def hiWord (x : UInt64) : UInt32 := (x >>> 32).toUInt32

/-- `checksumOf` -/
def checksumOf (m : Message) : UInt32 :=
  m.payload.toList.foldl mix (mix (mix 2166136261 (loWord m.seq)) (hiWord m.seq))

/-- `makeMessage` -/
def makeMessage (seq sentNs : UInt64) : Message :=
  let m : Message :=
    { seq := seq
      sentNs := sentNs
      payload := Vector.ofFn fun i : Fin 6 => (seq * 31 + UInt64.ofNat i).toUInt32
      checksum := 0
      reserved := 0 }
  { m with checksum := checksumOf m }

theorem checksum_makeMessage (seq sentNs : UInt64) :
    (makeMessage seq sentNs).checksum = checksumOf (makeMessage seq sentNs) := by
  simp only [makeMessage, checksumOf]

/-! ## The checksum -/

/-- The factor of `mix` has an inverse. -/
theorem mul_mix_inj {a b : UInt32} (h : a * 16777619 = b * 16777619) : a = b := by
  have hinv : (16777619 * 899433627 : UInt32) = 1 := by decide
  calc a = a * (16777619 * 899433627) := by rw [hinv, UInt32.mul_one]
    _ = b * (16777619 * 899433627) := by rw [← UInt32.mul_assoc, h, UInt32.mul_assoc]
    _ = b := by rw [hinv, UInt32.mul_one]

theorem mix_left_inj {h h' v : UInt32} (heq : mix h v = mix h' v) : h = h' :=
  (UInt32.xor_left_inj v).mp (mul_mix_inj heq)

theorem mix_right_inj {h v v' : UInt32} (heq : mix h v = mix h v') : v = v' :=
  (UInt32.xor_right_inj h).mp (mul_mix_inj heq)

/-- Other words in front, or another start. -/
theorem foldl_mix_inj {l : List UInt32} {h h' : UInt32} (heq : l.foldl mix h = l.foldl mix h') :
    h = h' := by
  induction l generalizing h h' with
  | nil => exact heq
  | cons v l ih => exact mix_left_inj (ih heq)

/-- One changed word shows. -/
theorem foldl_mix_set_ne {l : List UInt32} {j : ℕ} {w h : UInt32} (hj : j < l.length)
    (hw : l[j] ≠ w) : (l.set j w).foldl mix h ≠ l.foldl mix h := by
  induction l generalizing j h with
  | nil => simp at hj
  | cons v l ih =>
    rcases j with _ | j
    · intro heq
      exact hw (mix_right_inj (foldl_mix_inj heq)).symm
    · exact ih (by simpa using hj) (by simpa using hw)

/-! ## The words of a message -/

namespace Message

/-- The forty-eight bytes, as twelve words in their order. -/
def words (m : Message) : List UInt32 :=
  [loWord m.seq, hiWord m.seq, loWord m.sentNs, hiWord m.sentNs] ++ m.payload.toList ++
    [m.checksum, m.reserved]

/-- The words that the checksum covers. -/
def covered (l : List UInt32) : List UInt32 := l.take 2 ++ (l.drop 4).take 6

variable {m m' : Message}

theorem length_words (m : Message) : m.words.length = 12 := by simp [words]

theorem checksumOf_eq (m : Message) : checksumOf m = (covered m.words).foldl mix 2166136261 := by
  have hlen : m.payload.toList.length = 6 := by simp
  have htake : (m.payload.toList ++ [m.checksum, m.reserved]).take 6 = m.payload.toList := by
    rw [List.take_append_of_le_length hlen.ge, List.take_of_length_le hlen.le]
  rw [checksumOf, covered, words, List.append_assoc]
  simp only [List.cons_append, List.nil_append, List.take_succ_cons, List.take_zero,
    List.drop_succ_cons, List.drop_zero, htake, List.foldl_cons]

theorem checksum_eq (m : Message) : m.words[10]? = some m.checksum := by
  simp [words]

/-- What the checksum sees of one changed word. -/
theorem covered_set (w : UInt32) {k : ℕ} (hk : k < 12) :
    ∀ l : List UInt32, l.length = 12 → covered (l.set k w) =
      if k < 2 then (covered l).set k w
      else if 4 ≤ k ∧ k < 10 then (covered l).set (k - 2) w
      else covered l
  | [_, _, _, _, _, _, _, _, _, _, _, _], _ => by interval_cases k <;> rfl

theorem getElem?_covered {k : ℕ} (hk : k < 12) :
    ∀ l : List UInt32, l.length = 12 →
      (k < 2 → (covered l)[k]? = l[k]?) ∧ (4 ≤ k ∧ k < 10 → (covered l)[k - 2]? = l[k]?)
  | [_, _, _, _, _, _, _, _, _, _, _, _], _ => by interval_cases k <;> simp [covered]

/-- One wrong word. A message whose checksum is right reaches the consumer with its `k`-th word
changed : the check of the checksum fails exactly if the word is neither of `sentNs` nor
`reserved`. -/
theorem detects_iff (hm : m.checksum = checksumOf m) {k : ℕ} (hk : k < 12) {w : UInt32}
    (hw : m.words[k]? ≠ some w) (hm' : m'.words = m.words.set k w) :
    m'.checksum ≠ checksumOf m' ↔ k ≠ 2 ∧ k ≠ 3 ∧ k ≠ 11 := by
  have hlen := m.length_words
  have hcover := covered_set w hk m.words hlen
  obtain ⟨hfront, hback⟩ := getElem?_covered hk m.words hlen
  have hcoverlen : (covered m.words).length = 8 := by simp [covered, hlen]
  have hchecksum := m'.checksum_eq
  rw [hm', List.getElem?_set] at hchecksum
  rw [checksumOf_eq m', hm', hcover]
  rw [checksumOf_eq m] at hm
  have changed : ∀ {j : ℕ}, j < 8 → (covered m.words)[j]? = m.words[k]? →
      ((covered m.words).set j w).foldl mix 2166136261 ≠ m.checksum := by
    intro j hj heq
    rw [hm]
    refine foldl_mix_set_ne (by omega) fun h => hw ?_
    rw [← heq, List.getElem?_eq_getElem (by omega), h]
  by_cases hten : k = 10
  · -- the checksum itself
    have hother : m'.checksum ≠ m.checksum := by
      intro heq
      rw [hten, m.checksum_eq, ← heq] at hw
      simp [hten, hlen] at hchecksum
      exact hw (congrArg some hchecksum.symm)
    simp [hten, ← hm, hother]
  · have hsame : m'.checksum = m.checksum := by
      rw [if_neg hten, m.checksum_eq] at hchecksum
      exact (Option.some.inj hchecksum).symm
    rw [hsame]
    split_ifs with hlow hhigh
    · have hne := changed (by omega) (hfront hlow)
      exact ⟨fun _ => by omega, fun _ => hne.symm⟩
    · have hne := changed (by omega) (hback hhigh)
      exact ⟨fun _ => by omega, fun _ => hne.symm⟩
    · rw [← hm]
      exact ⟨fun h => absurd rfl h, fun h => by omega⟩

theorem detects_iff_flipped :
    ∃ m : Message, m.words = (makeMessage 5 9).words.set 4 0 ∧ m.checksum ≠ checksumOf m := by
  let m : Message := { makeMessage 5 9 with payload := #v[0, 156, 157, 158, 159, 160] }
  have hm : m.words = (makeMessage 5 9).words.set 4 0 := by decide +kernel
  refine ⟨m, hm, ?_⟩
  exact (detects_iff (checksum_makeMessage 5 9) (by decide) (by decide +kernel) hm).mpr (by decide)

end Message

end ShmSpsc
