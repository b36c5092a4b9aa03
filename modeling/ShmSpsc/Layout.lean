import Mathlib.Data.UInt
import Mathlib.Tactic.SplitIfs

/-!
# The control block's geometry

Line 0 of the control block is written by `create` and read by `attach`, each binary with
its own `sizeof(T)`, `alignof(T)` and cache line (`Layout`). `create` here is the value it
leaves in the geometry fields, `validate` the checks of an attacher over a mapping of
`mapped` bytes. Machine words are `UInt64` and `UInt32`, so sums and products wrap as in
the source.

`create_eq_ok` is what a successful `create` has written, with every size computed exactly,
and `Capacity` the slot counts it can produce.
-/

namespace ShmSpsc

/-- `enum class Role` -/
inductive Role where
  | producer
  | consumer
  deriving DecidableEq, Repr

/-! ## Exceptions and system calls -/

/-- The exceptions thrown, with their text; `code` is the `errno` of a `system_error`. -/
inductive Exception where
  | invalidArgument (what : String)
  | runtimeError (what : String)
  | systemError (code : ℕ) (what : String)
  deriving DecidableEq, Repr

/-- `if (c) throw e;` -/
def throwIf (c : Prop) [Decidable c] (e : Exception) : Except Exception Unit :=
  if c then .error e else .ok ()

@[simp] theorem throwIf_eq_ok {c : Prop} [Decidable c] {e : Exception} {u : Unit} :
    throwIf c e = .ok u ↔ ¬c := by
  unfold throwIf
  split_ifs with h <;> simp [h]

/-- `throwErrno(what, errno)` if the system call failed. -/
def throwErrno (answer : Option ℕ) (what : String) : Except Exception Unit :=
  match answer with
  | some e => .error (.systemError e what)
  | none => .ok ()

@[simp] theorem throwErrno_eq_ok {answer : Option ℕ} {what : String} {u : Unit} :
    throwErrno answer what = .ok u ↔ answer = none := by
  cases answer <;> simp [throwErrno]

/-- A sequence returns only if both its parts do. -/
theorem bind_eq_ok {α β : Type} {x : Except Exception α} {f : α → Except Exception β} {b : β} :
    (x >>= f) = .ok b ↔ ∃ a, x = .ok a ∧ f a = .ok b := by
  cases x with
  | error e => simp [bind, Except.bind]
  | ok a => simp [bind, Except.bind]

/-- `EINVAL` -/
def einval : ℕ := 22

/-- `numeric_limits<size_t>::max()` -/
def kMax : UInt64 := 0xffffffffffffffff

/-- `kMaxShmNameLen` -/
def kMaxShmNameLen : ℕ := 31

/-- What the system calls of one `ShmSegment::create` answer : `none` for success, else
the `errno`. -/
structure CreateCalls where
  shmOpen : Option ℕ
  ftruncate : Option ℕ
  mmap : Option ℕ

/-- `ftruncate(fd, static_cast<off_t>(bytes))` : the cast makes a size from `2 ^ 63` on
negative, which the call refuses with `EINVAL`. -/
def ftruncate (answer : Option ℕ) (bytes : UInt64) : Option ℕ :=
  if 2 ^ 63 ≤ bytes.toNat then some einval else answer

/-- `ShmSegment::validateName` -/
def validateName (name : String) : Except Exception Unit := do
  throwIf (name.utf8ByteSize < 2 ∨ name.toList.head? ≠ some '/')
    (.invalidArgument ("shm name must start with '/': " ++ name))
  throwIf (name.utf8ByteSize > kMaxShmNameLen)
    (.invalidArgument ("shm name exceeds 31 chars: " ++ name))
  throwIf ('/' ∈ name.toList.tail)
    (.invalidArgument ("shm name may only contain a leading '/': " ++ name))

/-- `ShmSegment::create` : the `size()` of the segment it returns. -/
def segmentCreate (name : String) (bytes : UInt64) (calls : CreateCalls) :
    Except Exception UInt64 := do
  validateName name
  throwIf (bytes = 0) (.invalidArgument "ShmSegment::create: bytes must be > 0")
  throwErrno calls.shmOpen ("shm_open(O_CREAT) " ++ name)
  throwErrno (ftruncate calls.ftruncate bytes) ("ftruncate " ++ name)
  throwErrno calls.mmap ("mmap " ++ name)
  return bytes

/-! ## Geometry -/

/-- What one binary compiles in : `kCacheLine`, `sizeof(T)` and `alignof(T)`, with what
the language and the static assertions promise of them. -/
structure Layout where
  cacheLine : UInt64
  elemSize : UInt64
  elemAlign : UInt64
  /-- `pad0_` has `kCacheLine - 56` bytes -/
  cacheLine_ge : 56 ≤ cacheLine.toNat
  /-- a type's size fits `ptrdiff_t` -/
  cacheLine_lt : 4 * cacheLine.toNat < 2 ^ 63
  elemSize_pos : 0 < elemSize.toNat
  elemAlign_le : elemAlign.toNat ≤ cacheLine.toNat

/-- `sizeof(ControlBlock)`, four lines by the static assertion. -/
def Layout.controlBlockSize (L : Layout) : UInt64 := 4 * L.cacheLine

/-- The geometry fields of `ControlBlock`. -/
@[ext]
structure Geometry where
  magic : UInt64
  capacity : UInt64
  totalBytes : UInt64
  version : UInt32
  cacheLineSize : UInt32
  elemSize : UInt32
  elemAlign : UInt32
  slotsOffset : UInt32
  deriving DecidableEq, Repr

/-- `kMagic`, "SHMSPSC1" -/
def kMagic : UInt64 := 0x53484d5350534331

/-- `kVersion` -/
def kVersion : UInt32 := 1

/-- `bytesNeeded` -/
def bytesNeeded (L : Layout) (capacity : UInt64) : Except Exception UInt64 :=
  if capacity = kMax ∨ capacity + 1 > (kMax - L.controlBlockSize) / L.elemSize then
    .error (.invalidArgument ("capacity " ++ toString capacity ++ " x " ++
      toString L.elemSize ++ " bytes overflows size_t"))
  else .ok (L.controlBlockSize + (capacity + 1) * L.elemSize)

/-- The capacity `create` goes on with : at least `1`. -/
def clampCapacity (capacity : UInt64) : UInt64 := if capacity < 1 then 1 else capacity

/-- The geometry fields `create` stores into a segment of `size` bytes with `slots` slots. -/
def createdGeometry (L : Layout) (slots size : UInt64) : Geometry where
  magic := kMagic
  version := kVersion
  cacheLineSize := L.cacheLine.toUInt32
  elemSize := L.elemSize.toUInt32
  elemAlign := L.elemAlign.toUInt32
  capacity := slots
  slotsOffset := L.controlBlockSize.toUInt32
  totalBytes := size

/-- `create`, up to the geometry it leaves in the control block. -/
def create (L : Layout) (name : String) (requested : UInt64) (calls : CreateCalls) :
    Except Exception Geometry := do
  let capacity := clampCapacity requested
  let slots := capacity + 1
  let bytes ← bytesNeeded L capacity
  let size ← segmentCreate name bytes calls
  return createdGeometry L slots size

/-- `validate` of an attacher with layout `L` over a mapping of `mapped` bytes. -/
def validate (L : Layout) (g : Geometry) (mapped : UInt64) : Except Exception Unit := do
  throwIf (g.magic ≠ kMagic) (.runtimeError "bad magic: not a shmspsc segment")
  throwIf (g.version ≠ kVersion)
    (.runtimeError ("version mismatch: segment v" ++ toString g.version ++
      ", binary v" ++ toString kVersion))
  throwIf (g.cacheLineSize.toUInt64 ≠ L.cacheLine)
    (.runtimeError ("cache line mismatch: segment " ++ toString g.cacheLineSize ++
      ", binary " ++ toString L.cacheLine))
  throwIf (g.elemSize.toUInt64 ≠ L.elemSize ∨ g.elemAlign.toUInt64 ≠ L.elemAlign)
    (.runtimeError ("element layout mismatch: segment " ++ toString g.elemSize ++ "/" ++
      toString g.elemAlign ++ ", binary " ++ toString L.elemSize ++ "/" ++
      toString L.elemAlign))
  let needed := g.slotsOffset.toUInt64 + g.capacity * L.elemSize
  throwIf (needed > g.totalBytes ∨ g.totalBytes > mapped)
    (.runtimeError ("segment too small: needs " ++ toString needed ++ ", declared " ++
      toString g.totalBytes ++ ", mapped " ++ toString mapped))

/-! ## Exact sizes -/

@[simp] theorem Layout.toNat_controlBlockSize (L : Layout) :
    L.controlBlockSize.toNat = 4 * L.cacheLine.toNat := by
  have h := L.cacheLine_lt
  rw [Layout.controlBlockSize, UInt64.toNat_mul]
  exact Nat.mod_eq_of_lt (by simp; omega)

theorem toNat_clampCapacity (capacity : UInt64) :
    (clampCapacity capacity).toNat = max 1 capacity.toNat := by
  unfold clampCapacity
  split_ifs with h
  · have : capacity.toNat < 1 := h
    simp; omega
  · have : ¬capacity.toNat < 1 := h
    omega

/-- `bytesNeeded` answers exactly when the size over the unbounded integers fits 64 bits,
and then with that size. -/
theorem bytesNeeded_eq_ok_iff (L : Layout) (capacity bytes : UInt64) :
    bytesNeeded L capacity = .ok bytes ↔
      bytes.toNat = 4 * L.cacheLine.toNat + (capacity.toNat + 1) * L.elemSize.toNat := by
  have hline := L.cacheLine_lt
  have hsize := L.elemSize_pos
  have hcap := capacity.toNat_lt
  have hroom : (kMax - L.controlBlockSize).toNat = 2 ^ 64 - 1 - 4 * L.cacheLine.toNat := by
    rw [UInt64.toNat_sub_of_le _ _ (by rw [UInt64.le_iff_toNat_le]; simp [kMax]; omega)]
    simp [kMax]
  have hbytes := bytes.toNat_lt
  unfold bytesNeeded
  by_cases hmax : capacity = kMax
  · have hle : 2 ^ 64 ≤ (capacity.toNat + 1) * L.elemSize.toNat := by
      rw [hmax]
      exact Nat.le_mul_of_pos_right (2 ^ 64) hsize
    simp only [hmax, true_or, if_true, reduceCtorEq, false_iff]
    rw [hmax] at hle
    omega
  have hne : capacity.toNat ≠ kMax.toNat := fun h => hmax (UInt64.toNat_inj.mp h)
  have hmaxNat : kMax.toNat = 2 ^ 64 - 1 := rfl
  have hsucc : (capacity + 1).toNat = capacity.toNat + 1 := by
    rw [UInt64.toNat_add]
    exact Nat.mod_eq_of_lt (by simp; omega)
  have hgt : capacity + 1 > (kMax - L.controlBlockSize) / L.elemSize ↔
      2 ^ 64 - 1 - 4 * L.cacheLine.toNat < (capacity.toNat + 1) * L.elemSize.toNat := by
    rw [gt_iff_lt, UInt64.lt_iff_toNat_lt, UInt64.toNat_div, hroom, hsucc,
      Nat.div_lt_iff_lt_mul hsize]
  simp only [hmax, false_or, hgt]
  split_ifs with h
  · simp only [false_iff]
    omega
  · have hmul : ((capacity + 1) * L.elemSize).toNat =
        (capacity.toNat + 1) * L.elemSize.toNat := by
      rw [UInt64.toNat_mul, hsucc]
      exact Nat.mod_eq_of_lt (by omega)
    have hadd : (L.controlBlockSize + (capacity + 1) * L.elemSize).toNat =
        4 * L.cacheLine.toNat + (capacity.toNat + 1) * L.elemSize.toNat := by
      rw [UInt64.toNat_add, hmul, L.toNat_controlBlockSize]
      exact Nat.mod_eq_of_lt (by omega)
    rw [Except.ok.injEq, ← UInt64.toNat_inj, hadd, eq_comm]

/-- A segment is made only of a size that `ftruncate` takes, and has that size. -/
theorem segmentCreate_eq_ok {name : String} {bytes size : UInt64} {calls : CreateCalls}
    (h : segmentCreate name bytes calls = .ok size) :
    size = bytes ∧ bytes.toNat < 2 ^ 63 := by
  unfold segmentCreate ftruncate at h
  simp only [bind_eq_ok, throwErrno_eq_ok] at h
  obtain ⟨-, -, -, -, -, -, -, htrunc, -, -, hsize⟩ := h
  refine ⟨(Except.ok.inj hsize).symm, ?_⟩
  by_contra hge
  rw [if_pos (by omega)] at htrunc
  cases htrunc

/-- The slot counts of the segments `create` makes. -/
structure Capacity where
  slots : UInt64
  two_le : 2 ≤ slots.toNat
  lt : slots.toNat < 2 ^ 63

/-- What a successful `create` has written, its sizes computed without a wrap. -/
theorem create_eq_ok {L : Layout} {name : String} {requested : UInt64} {calls : CreateCalls}
    {g : Geometry} (h : create L name requested calls = .ok g) :
    ∃ bytes, bytesNeeded L (clampCapacity requested) = .ok bytes ∧
      g = createdGeometry L (clampCapacity requested + 1) bytes ∧
      bytes.toNat = 4 * L.cacheLine.toNat + (max 1 requested.toNat + 1) * L.elemSize.toNat ∧
      bytes.toNat < 2 ^ 63 ∧ g.capacity.toNat = max 1 requested.toNat + 1 := by
  simp only [create, bind_eq_ok] at h
  obtain ⟨bytes, hbytes, size, hsize, hg⟩ := h
  obtain ⟨rfl, hlt⟩ := segmentCreate_eq_ok hsize
  obtain rfl := Except.ok.inj hg
  have hexact := (bytesNeeded_eq_ok_iff ..).mp hbytes
  rw [toNat_clampCapacity] at hexact
  have hmul := Nat.le_mul_of_pos_right (max 1 requested.toNat + 1) L.elemSize_pos
  refine ⟨size, hbytes, rfl, hexact, hlt, ?_⟩
  simp only [createdGeometry]
  rw [UInt64.toNat_add, toNat_clampCapacity]
  exact Nat.mod_eq_of_lt (by simp only [UInt64.toNat_one]; omega)

/-- The slot count of a created segment. -/
def Capacity.ofCreate {L : Layout} {name : String} {requested : UInt64} {calls : CreateCalls}
    {g : Geometry} (h : create L name requested calls = .ok g) : Capacity where
  slots := g.capacity
  two_le := by
    obtain ⟨-, -, -, -, -, hcap⟩ := create_eq_ok h
    omega
  lt := by
    obtain ⟨bytes, -, -, hexact, hlt, hcap⟩ := create_eq_ok h
    have := Nat.le_mul_of_pos_right (max 1 requested.toNat + 1) L.elemSize_pos
    omega

/-! ## What `attach` accepts -/

/-- The offset of `slots_[i]` in the mapping, `slots_` as `bind` derives it. -/
def slotOffset (L : Layout) (g : Geometry) (i : ℕ) : ℕ :=
  g.slotsOffset.toNat + i * L.elemSize.toNat

theorem validate_eq_ok_iff (L : Layout) (g : Geometry) (mapped : UInt64) :
    validate L g mapped = .ok () ↔
      g.magic = kMagic ∧ g.version = kVersion ∧ g.cacheLineSize.toUInt64 = L.cacheLine ∧
        (g.elemSize.toUInt64 = L.elemSize ∧ g.elemAlign.toUInt64 = L.elemAlign) ∧
        g.slotsOffset.toUInt64 + g.capacity * L.elemSize ≤ g.totalBytes ∧
        g.totalBytes ≤ mapped := by
  simp only [validate, bind_eq_ok, throwIf_eq_ok, exists_const, ne_eq, not_not, not_or,
    gt_iff_lt, UInt64.not_lt]

/-- The slots begin at the end of the block, as long as the 32-bit field holds its size. -/
theorem toNat_slotsOffset (L : Layout) (slots size : UInt64)
    (h32 : 4 * L.cacheLine.toNat < 2 ^ 32) :
    (createdGeometry L slots size).slotsOffset.toNat = 4 * L.cacheLine.toNat := by
  rw [createdGeometry, UInt64.toNat_toUInt32, L.toNat_controlBlockSize]
  exact Nat.mod_eq_of_lt h32

/-- The sizes recorded for a layout in 32-bit fields lose nothing. -/
structure Layout.Below32 (L : Layout) : Prop where
  cacheLine : L.cacheLine.toNat < 2 ^ 32
  elemSize : L.elemSize.toNat < 2 ^ 32
  elemAlign : L.elemAlign.toNat < 2 ^ 32

theorem toUInt64_toUInt32_eq_iff {a b : UInt64} (ha : a.toNat < 2 ^ 32) :
    a.toUInt32.toUInt64 = b ↔ a = b := by
  have h : a.toUInt32.toUInt64.toNat = a.toNat := by
    simp only [UInt32.toNat_toUInt64, UInt64.toNat_toUInt32]
    exact Nat.mod_eq_of_lt ha
  rw [UInt64.toNat_inj.mp h]

/-- The slots of a created segment end where the segment ends. -/
theorem createdGeometry_needed_le {L : Layout} {requested bytes : UInt64}
    (hbytes : bytesNeeded L (clampCapacity requested) = .ok bytes) :
    L.controlBlockSize.toUInt32.toUInt64 + (clampCapacity requested + 1) * L.elemSize ≤ bytes ∧
      L.controlBlockSize.toUInt32.toNat +
        (clampCapacity requested).toNat.succ * L.elemSize.toNat ≤ bytes.toNat := by
  have hexact := (bytesNeeded_eq_ok_iff ..).mp hbytes
  have hlt := bytes.toNat_lt
  have hoff : L.controlBlockSize.toUInt32.toNat ≤ 4 * L.cacheLine.toNat := by
    rw [UInt64.toNat_toUInt32, L.toNat_controlBlockSize]
    exact Nat.mod_le _ _
  refine ⟨?_, by simp only [Nat.succ_eq_add_one]; omega⟩
  have hmod := Nat.mod_le ((clampCapacity requested).toNat + 1) (2 ^ 64)
  have hmul := Nat.mul_le_mul_right L.elemSize.toNat hmod
  rw [UInt64.le_iff_toNat_le, UInt64.toNat_add, UInt64.toNat_mul, UInt64.toNat_add,
    UInt32.toNat_toUInt64, UInt64.toNat_one, Nat.mod_eq_of_lt (b := 2 ^ 64) (by omega)]
  omega

/-- `create` and `attach` agree on the wire format. The block a successful `create` of a
binary `C` has written passes `validate` of a binary `A` exactly when they agree on the
cache line and on the element's size and alignment. Then `bind` finds the creator's slots :
their number, all of them inside the mapping, and, as long as the 32-bit `slotsOffset` holds
the block's size, right behind the control block. -/
theorem validate_create_iff (C A : Layout) (hC : C.Below32) {name : String}
    {requested : UInt64} {calls : CreateCalls} {g : Geometry}
    (hcreate : create C name requested calls = .ok g) {bytes mapped : UInt64}
    (hbytes : bytesNeeded C (clampCapacity requested) = .ok bytes) (hmapped : bytes ≤ mapped) :
    (validate A g mapped = .ok () ↔
      C.cacheLine = A.cacheLine ∧ C.elemSize = A.elemSize ∧ C.elemAlign = A.elemAlign) ∧
    (validate A g mapped = .ok () →
      g.capacity.toNat = max 1 requested.toNat + 1 ∧
      (∀ i < g.capacity.toNat, slotOffset A g i + A.elemSize.toNat ≤ mapped.toNat) ∧
      (4 * C.cacheLine.toNat < 2 ^ 32 →
        slotOffset A g 0 = 4 * A.cacheLine.toNat ∧
          ∀ i, A.controlBlockSize.toNat ≤ slotOffset A g i)) := by
  obtain ⟨bytes', hbytes', rfl, -, -, hcap⟩ := create_eq_ok hcreate
  obtain rfl : bytes = bytes' := Except.ok.inj (hbytes.symm.trans hbytes')
  obtain ⟨hneeded, hinside⟩ := createdGeometry_needed_le hbytes
  have hiff : validate A (createdGeometry C (clampCapacity requested + 1) bytes) mapped = .ok () ↔
      C.cacheLine = A.cacheLine ∧ C.elemSize = A.elemSize ∧ C.elemAlign = A.elemAlign := by
    rw [validate_eq_ok_iff]
    simp only [createdGeometry, toUInt64_toUInt32_eq_iff hC.cacheLine,
      toUInt64_toUInt32_eq_iff hC.elemSize, toUInt64_toUInt32_eq_iff hC.elemAlign, true_and]
    constructor
    · rintro ⟨hline, hlayout, -⟩
      exact ⟨hline, hlayout⟩
    · rintro ⟨hline, hlayout⟩
      exact ⟨hline, hlayout, hlayout.1 ▸ hneeded, hmapped⟩
  refine ⟨hiff, fun hval => ?_⟩
  obtain ⟨hline, hsize, -⟩ := hiff.mp hval
  refine ⟨hcap, fun i hi => ?_, fun h32 => ?_⟩
  · have hlast : (i + 1) * C.elemSize.toNat ≤
        (clampCapacity requested).toNat.succ * C.elemSize.toNat := by
      apply Nat.mul_le_mul_right
      rw [toNat_clampCapacity]
      omega
    have hm := UInt64.le_iff_toNat_le.mp hmapped
    simp only [slotOffset, createdGeometry, ← hsize]
    rw [Nat.succ_mul] at hlast
    omega
  · simp only [slotOffset, toNat_slotsOffset C _ _ h32, A.toNat_controlBlockSize, hline]
    exact ⟨by simp, fun i => Nat.le_add_right _ _⟩

/-- The demo's `Message` on a 64-byte line. -/
def messageLayout : Layout where
  cacheLine := 64
  elemSize := 48
  elemAlign := 8
  cacheLine_ge := by decide
  cacheLine_lt := by decide
  elemSize_pos := by decide
  elemAlign_le := by decide

/-- A queue of four messages, attached through a mapping rounded up to one page. -/
theorem validate_create_message :
    validate messageLayout (createdGeometry messageLayout 5 496) 4096 = .ok () ∧
      slotOffset messageLayout (createdGeometry messageLayout 5 496) 0 = 256 := by
  have h := @validate_create_iff messageLayout messageLayout ⟨by decide, by decide, by decide⟩
    "/q" 4 ⟨none, none, none⟩ (createdGeometry messageLayout 5 496) (by decide) 496 4096
    (by decide) (by decide)
  have hval := h.1.mpr ⟨rfl, rfl, rfl⟩
  exact ⟨hval, ((h.2 hval).2.2 (by decide)).1⟩

/-- A binary compiled for a line of `2 ^ 30` bytes. -/
def hugeLineLayout : Layout where
  cacheLine := 1073741824
  elemSize := 8
  elemAlign := 8
  cacheLine_ge := by decide
  cacheLine_lt := by decide
  elemSize_pos := by decide
  elemAlign_le := by decide

/-- The control block of such a binary is `2 ^ 32` bytes long, `slotsOffset` is stored
as `0`, and an attacher of the same binary accepts the segment and puts slot `0` over the
control block. -/
theorem slotsOffset_truncates :
    hugeLineLayout.Below32 ∧
      create hugeLineLayout "/q" 1 ⟨none, none, none⟩ =
        .ok (createdGeometry hugeLineLayout 2 4294967312) ∧
      bytesNeeded hugeLineLayout (clampCapacity 1) = .ok 4294967312 ∧
      validate hugeLineLayout (createdGeometry hugeLineLayout 2 4294967312) 4294967312 = .ok () ∧
      slotOffset hugeLineLayout (createdGeometry hugeLineLayout 2 4294967312) 0 = 0 ∧
      4 * hugeLineLayout.cacheLine.toNat = 4294967296 :=
  ⟨⟨by decide, by decide, by decide⟩, by decide, by decide, by decide, by decide, by decide⟩

/-! ## The size check of `validate` -/

/-- Where the slots end, over the unbounded integers. -/
def slotsEnd (L : Layout) (g : Geometry) : ℕ :=
  g.slotsOffset.toNat + g.capacity.toNat * L.elemSize.toNat

/-- Every slot of `bind` lies wholly inside a mapping of `mapped` bytes. -/
def SlotsInside (L : Layout) (g : Geometry) (mapped : UInt64) : Prop :=
  slotsEnd L g ≤ mapped.toNat ∧
    ∀ i < g.capacity.toNat, slotOffset L g i + L.elemSize.toNat ≤ mapped.toNat

/-- `needed`, as `validate` computes it. -/
theorem toNat_needed (L : Layout) (g : Geometry) :
    (g.slotsOffset.toUInt64 + g.capacity * L.elemSize).toNat = slotsEnd L g % 2 ^ 64 := by
  rw [UInt64.toNat_add, UInt64.toNat_mul, UInt32.toNat_toUInt64, Nat.add_mod_mod, slotsEnd]

theorem slotOffset_add_le (L : Layout) (g : Geometry) {i : ℕ} (hi : i < g.capacity.toNat) :
    slotOffset L g i + L.elemSize.toNat ≤ slotsEnd L g := by
  have h := Nat.mul_le_mul_right L.elemSize.toNat (Nat.succ_le_of_lt hi)
  rw [Nat.succ_mul] at h
  rw [slotOffset, slotsEnd]
  omega

/-- The size check is sound exactly where `needed` does not wrap. `validate` lets no block
through whose slots reach beyond the mapping if and only if the block fails one of its
comparisons, or the end of its slots fits 64 bits. -/
theorem slotsInside_iff (L : Layout) (g : Geometry) (mapped : UInt64) :
    (validate L g mapped = .ok () → SlotsInside L g mapped) ↔
      g.magic ≠ kMagic ∨ g.version ≠ kVersion ∨ g.cacheLineSize.toUInt64 ≠ L.cacheLine ∨
        g.elemSize.toUInt64 ≠ L.elemSize ∨ g.elemAlign.toUInt64 ≠ L.elemAlign ∨
        g.totalBytes.toNat < slotsEnd L g % 2 ^ 64 ∨ mapped < g.totalBytes ∨
        slotsEnd L g < 2 ^ 64 := by
  rw [validate_eq_ok_iff]
  constructor
  · intro h
    by_contra hnot
    simp only [not_or, ne_eq, not_not, not_lt] at hnot
    obtain ⟨hmagic, hversion, hline, hsize, halign, hneeded, hmapped, hwrap⟩ := hnot
    rw [← toNat_needed] at hneeded
    obtain ⟨hend, -⟩ := h ⟨hmagic, hversion, hline, ⟨hsize, halign⟩,
      UInt64.le_iff_toNat_le.mpr hneeded, UInt64.not_lt.mp hmapped⟩
    have := mapped.toNat_lt
    omega
  · rintro hcond ⟨hmagic, hversion, hline, ⟨hsize, halign⟩, hneeded, hmapped⟩
    rw [UInt64.le_iff_toNat_le, toNat_needed] at hneeded
    have hle := UInt64.le_iff_toNat_le.mp hmapped
    have hfits : slotsEnd L g < 2 ^ 64 := by
      rcases hcond with h | h | h | h | h | h | h | h
      · exact absurd hmagic h
      · exact absurd hversion h
      · exact absurd hline h
      · exact absurd hsize h
      · exact absurd halign h
      · omega
      · exact absurd h (UInt64.not_lt.mpr hmapped)
      · exact h
    rw [Nat.mod_eq_of_lt hfits] at hneeded
    refine ⟨hneeded.trans hle, fun i hi => ?_⟩
    exact (slotOffset_add_le L g hi).trans (hneeded.trans hle)

/-- A block of `2 ^ 60` messages of 48 bytes, in one page. -/
def wrappedGeometry : Geometry :=
  { createdGeometry messageLayout 5 4096 with capacity := 1152921504606846976 }

/-- Its `needed` is `256`, so it is accepted, and its slots end beyond every mapping. -/
theorem validate_wraps :
    validate messageLayout wrappedGeometry 4096 = .ok () ∧
      slotsEnd messageLayout wrappedGeometry = 256 + 3 * 2 ^ 64 ∧
      ¬SlotsInside messageLayout wrappedGeometry 4096 :=
  ⟨by decide, by decide, fun h => absurd h.1 (by decide)⟩

end ShmSpsc
