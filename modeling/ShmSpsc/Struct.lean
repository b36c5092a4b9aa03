import Mathlib.Algebra.Order.Ring.Nat
import Mathlib.Data.List.Basic

/-!
# The layout of a structure, and its members as bytes

A structure is a list of members, each with a size and an alignment. `place` puts them one
behind the other, each at the first offset from the end of the previous one on that its
alignment divides; if it divides that end every time, nothing is left free
(`place_of_packed`). The ranges come in order (`place_pairwise`), so they do not overlap.

A memory is a function from byte offsets to bytes. `put` and `get` store and load a number in a
range, the low byte first. What is stored in ranges that do not overlap is loaded back
(`get_write`), and a range that no store touches stays as it was (`get_write_of_disjoint`).
-/

namespace Struct

/-- The first multiple of `a` from `n` on. -/
def alignUp (n a : ℕ) : ℕ := (n + a - 1) / a * a

theorem le_alignUp (n : ℕ) {a : ℕ} (ha : 0 < a) : n ≤ alignUp n a := by
  have hmod := Nat.mod_lt (n + a - 1) ha
  have hdiv := Nat.div_add_mod' (n + a - 1) a
  rw [alignUp]
  omega

theorem alignUp_of_dvd {n a : ℕ} (ha : 0 < a) (h : a ∣ n) : alignUp n a = n := by
  obtain ⟨k, rfl⟩ := h
  have hrest : a * k + a - 1 = (a - 1) + k * a := by
    rw [Nat.mul_comm a k]
    omega
  rw [alignUp, hrest, Nat.add_mul_div_right _ _ ha, Nat.div_eq_of_lt (by omega), Nat.zero_add,
    Nat.mul_comm]

/-- A member : its size, and what divides its offset. -/
structure Member where
  size : ℕ
  align : ℕ
  deriving DecidableEq, Repr

/-- Some bytes in a row. -/
structure Range where
  offset : ℕ
  size : ℕ
  deriving DecidableEq, Repr

/-- The bytes of `r` are before those of `r'`. -/
def Range.Before (r r' : Range) : Prop := r.offset + r.size ≤ r'.offset

/-- No byte is in both. -/
def Range.Disjoint (r r' : Range) : Prop := r.Before r' ∨ r'.Before r

theorem Range.Disjoint.symm {r r' : Range} (h : r.Disjoint r') : r'.Disjoint r := Or.symm h

/-- The members behind byte `n`. -/
def place : ℕ → List Member → List Range
  | _, [] => []
  | n, m :: ms => ⟨alignUp n m.align, m.size⟩ :: place (alignUp n m.align + m.size) ms

/-- Where the last member ends. -/
def finish : ℕ → List Member → ℕ
  | n, [] => n
  | n, m :: ms => finish (alignUp n m.align + m.size) ms

/-- The alignment of a structure. -/
def alignof (ms : List Member) : ℕ := (ms.map Member.align).foldr max 1

/-- The size of a structure, a multiple of its alignment. -/
def sizeof (ms : List Member) : ℕ := alignUp (finish 0 ms) (alignof ms)

/-- Every member can start where the previous one ends : nothing is left free between them. -/
def Packed : ℕ → List Member → Prop
  | _, [] => True
  | n, m :: ms => 0 < m.align ∧ m.align ∣ n ∧ Packed (n + m.size) ms

/-- The members one right behind the other. -/
def packed : ℕ → List Member → List Range
  | _, [] => []
  | n, m :: ms => ⟨n, m.size⟩ :: packed (n + m.size) ms

theorem place_of_packed {ms : List Member} {n : ℕ} (h : Packed n ms) :
    place n ms = packed n ms := by
  induction ms generalizing n with
  | nil => rfl
  | cons m ms ih =>
    obtain ⟨hpos, hdvd, hrest⟩ := h
    rw [place, alignUp_of_dvd hpos hdvd, packed, ih hrest]

theorem finish_of_packed {ms : List Member} {n : ℕ} (h : Packed n ms) :
    finish n ms = n + (ms.map Member.size).sum := by
  induction ms generalizing n with
  | nil => rfl
  | cons m ms ih =>
    obtain ⟨hpos, hdvd, hrest⟩ := h
    rw [finish, alignUp_of_dvd hpos hdvd, ih hrest, List.map_cons, List.sum_cons, Nat.add_assoc]

theorem le_offset {ms : List Member} (hms : ∀ m ∈ ms, 0 < m.align) {n : ℕ} {r : Range}
    (hr : r ∈ place n ms) : n ≤ r.offset := by
  induction ms generalizing n with
  | nil => cases hr
  | cons m ms ih =>
    have hle := le_alignUp n (hms m List.mem_cons_self)
    rcases List.mem_cons.mp hr with rfl | hr
    · exact hle
    · have hrest := ih (fun m hm => hms m (List.mem_cons_of_mem _ hm)) hr
      omega

/-- The members come one behind the other. -/
theorem place_pairwise {ms : List Member} (hms : ∀ m ∈ ms, 0 < m.align) (n : ℕ) :
    (place n ms).Pairwise Range.Before := by
  induction ms generalizing n with
  | nil => exact .nil
  | cons m ms ih =>
    have hrest : ∀ m ∈ ms, 0 < m.align := fun m hm => hms m (List.mem_cons_of_mem _ hm)
    exact .cons (fun r hr => le_offset hrest hr) (ih hrest _)

/-! ## Values in memory -/

/-- The memory after `v` was stored in `r`. -/
def put (mem : ℕ → UInt8) (r : Range) (v : ℕ) : ℕ → UInt8 := fun b =>
  if r.offset ≤ b ∧ b < r.offset + r.size then .ofNat (v / 256 ^ (b - r.offset)) else mem b

/-- The value of `n` bytes from `o` on. -/
def value (mem : ℕ → UInt8) (o : ℕ) : ℕ → ℕ
  | 0 => 0
  | n + 1 => (mem o).toNat + 256 * value mem (o + 1) n

/-- The value in `r`. -/
def get (mem : ℕ → UInt8) (r : Range) : ℕ := value mem r.offset r.size

theorem value_congr {mem mem' : ℕ → UInt8} {o n : ℕ}
    (h : ∀ b, o ≤ b → b < o + n → mem b = mem' b) : value mem o n = value mem' o n := by
  induction n generalizing o with
  | zero => rfl
  | succ n ih =>
    rw [value, value, h o le_rfl (by omega), ih fun b hlow hhigh => h b (by omega) (by omega)]

/-- The digits of `v` to the base `256` are its value. -/
theorem value_eq {mem : ℕ → UInt8} {o n v : ℕ}
    (h : ∀ i < n, mem (o + i) = .ofNat (v / 256 ^ i)) : value mem o n = v % 256 ^ n := by
  induction n generalizing o v with
  | zero => rw [value, pow_zero, Nat.mod_one]
  | succ n ih =>
    have hlow : mem o = .ofNat v := by simpa using h 0 (by omega)
    have hrest : value mem (o + 1) n = v / 256 % 256 ^ n := by
      refine ih fun i hi => ?_
      rw [Nat.add_assoc, Nat.add_comm 1 i, h (i + 1) (by omega), pow_succ, Nat.mul_comm,
        Nat.div_div_eq_div_mul]
    rw [value, hlow, hrest, pow_succ, Nat.mul_comm (256 ^ n), Nat.mod_mul]
    rfl

theorem get_put {mem : ℕ → UInt8} {r : Range} {v : ℕ} (hv : v < 256 ^ r.size) :
    get (put mem r v) r = v := by
  have hbytes : ∀ i < r.size, put mem r v (r.offset + i) = .ofNat (v / 256 ^ i) := by
    intro i hi
    rw [put, if_pos ⟨by omega, by omega⟩, Nat.add_sub_cancel_left]
  rw [get, value_eq hbytes, Nat.mod_eq_of_lt hv]

theorem get_put_of_disjoint {mem : ℕ → UInt8} {r r' : Range} (h : r.Disjoint r') (v : ℕ) :
    get (put mem r v) r' = get mem r' := by
  refine value_congr fun b hlow hhigh => ?_
  rw [put, if_neg]
  rintro ⟨hle, hlt⟩
  rcases h with h | h
  · have : r.offset + r.size ≤ r'.offset := h
    omega
  · have : r'.offset + r'.size ≤ r.offset := h
    omega

/-- The memory after some stores, in order. -/
def write (mem : ℕ → UInt8) (es : List (Range × ℕ)) : ℕ → UInt8 :=
  es.foldl (fun mem e => put mem e.1 e.2) mem

theorem get_write_of_disjoint {mem : ℕ → UInt8} {es : List (Range × ℕ)} {r : Range}
    (h : ∀ e ∈ es, e.1.Disjoint r) : get (write mem es) r = get mem r := by
  induction es generalizing mem with
  | nil => rfl
  | cons e es ih =>
    have hrest : get (write (put mem e.1 e.2) es) r = get (put mem e.1 e.2) r :=
      ih fun e he => h e (List.mem_cons_of_mem _ he)
    exact hrest.trans (get_put_of_disjoint (h e List.mem_cons_self) e.2)

/-- What was stored in ranges that do not overlap is there. -/
theorem get_write {mem : ℕ → UInt8} {es : List (Range × ℕ)}
    (hes : es.Pairwise fun e e' => e.1.Disjoint e'.1) {e : Range × ℕ} (he : e ∈ es)
    (hv : e.2 < 256 ^ e.1.size) : get (write mem es) e.1 = e.2 := by
  induction hes generalizing mem with
  | nil => cases he
  | @cons e' es hfirst hes ih =>
    rcases List.mem_cons.mp he with rfl | he
    · have hkept : get (write (put mem e.1 e.2) es) e.1 = get (put mem e.1 e.2) e.1 :=
        get_write_of_disjoint fun e' he' => (hfirst e' he').symm
      exact hkept.trans (get_put hv)
    · exact ih he

/-- A byte outside every range stays as it was. -/
theorem write_of_notMem {mem : ℕ → UInt8} {es : List (Range × ℕ)} {b : ℕ}
    (h : ∀ e ∈ es, ¬(e.1.offset ≤ b ∧ b < e.1.offset + e.1.size)) : write mem es b = mem b := by
  induction es generalizing mem with
  | nil => rfl
  | cons e es ih =>
    have hrest : write (put mem e.1 e.2) es b = put mem e.1 e.2 b :=
      ih fun e he => h e (List.mem_cons_of_mem _ he)
    refine hrest.trans ?_
    rw [put, if_neg (h e List.mem_cons_self)]

end Struct
