import ShmSpsc.Layout
import ShmSpsc.Struct
import Mathlib.Data.List.Pairwise

/-!
# The control block as bytes

`ControlBlock` is part of the wire format : each process compiles it for its own cache line and
reads the bytes that the other one has written. Its members are placed as the compiler places
them (`Struct.place`), for every line that is a power of two and has room for line 0.

`ControlBlock.wire_format` : the members fill four lines without a gap, the indices are on lines
of their own, a store to a member leaves the other ones and every byte from the end of the block
on, what was stored is loaded, and `slotsOffset` is the end of the block where the field is wide
enough for it. Line 0 has the same offsets for every line size, so an attacher reads the geometry
right before it knows that its line is the creator's. `ControlBlock.attach_reads` : one that
`validate` accepts reads the whole block as it was written.
-/

namespace ShmSpsc

open Struct

/-- `struct ControlBlock`, without its padding. -/
@[ext]
structure ControlBlock where
  geometry : Geometry
  producerPid : Int32
  consumerPid : Int32
  ready : UInt32
  writeIdx : UInt64
  readIdx : UInt64

/-- The members, in the order of the source. -/
inductive Field where
  | magic
  | capacity
  | totalBytes
  | version
  | cacheLineSize
  | elemSize
  | elemAlign
  | slotsOffset
  | producerPid
  | consumerPid
  | ready
  | pad0
  | writeIdx
  | pad1
  | readIdx
  | pad2
  | pad3
  deriving DecidableEq, Repr

namespace Field

/-- All of them. -/
def all : List Field :=
  [.magic, .capacity, .totalBytes, .version, .cacheLineSize, .elemSize, .elemAlign, .slotsOffset,
    .producerPid, .consumerPid, .ready, .pad0, .writeIdx, .pad1, .readIdx, .pad2, .pad3]

/-- The size and the alignment of a member, for a line of `line` bytes. -/
def member (line : ℕ) : Field → Member
  | .magic => ⟨8, 8⟩
  | .capacity => ⟨8, 8⟩
  | .totalBytes => ⟨8, 8⟩
  | .version => ⟨4, 4⟩
  | .cacheLineSize => ⟨4, 4⟩
  | .elemSize => ⟨4, 4⟩
  | .elemAlign => ⟨4, 4⟩
  | .slotsOffset => ⟨4, 4⟩
  | .producerPid => ⟨4, 4⟩
  | .consumerPid => ⟨4, 4⟩
  | .ready => ⟨4, 4⟩
  | .pad0 => ⟨line - 56, 1⟩
  | .writeIdx => ⟨8, line⟩
  | .pad1 => ⟨line - 8, 1⟩
  | .readIdx => ⟨8, line⟩
  | .pad2 => ⟨line - 8, 1⟩
  | .pad3 => ⟨line, line⟩

/-- `ControlBlock` for a line of `line` bytes. -/
def members (line : ℕ) : List Member := all.map (member line)

/-- The bytes of a member. -/
def range (line : ℕ) (f : Field) : Range :=
  ((place 0 (members line))[all.idxOf f]?).getD ⟨0, 0⟩

/-- The line that a member is on. -/
def lineOf : Field → ℕ
  | .writeIdx => 1
  | .pad1 => 1
  | .readIdx => 2
  | .pad2 => 2
  | .pad3 => 3
  | _ => 0

end Field

namespace ControlBlock

/-- The members that are not padding, with their values. -/
def words (b : ControlBlock) : List (Field × ℕ) :=
  [(.magic, b.geometry.magic.toNat), (.capacity, b.geometry.capacity.toNat),
    (.totalBytes, b.geometry.totalBytes.toNat), (.version, b.geometry.version.toNat),
    (.cacheLineSize, b.geometry.cacheLineSize.toNat), (.elemSize, b.geometry.elemSize.toNat),
    (.elemAlign, b.geometry.elemAlign.toNat), (.slotsOffset, b.geometry.slotsOffset.toNat),
    (.producerPid, b.producerPid.toUInt32.toNat), (.consumerPid, b.consumerPid.toUInt32.toNat),
    (.ready, b.ready.toNat), (.writeIdx, b.writeIdx.toNat), (.readIdx, b.readIdx.toNat)]

/-- The memory after a binary with lines of `line` bytes has stored `b`. -/
def store (line : ℕ) (b : ControlBlock) (mem : ℕ → UInt8) : ℕ → UInt8 :=
  write mem (b.words.map fun e => (e.1.range line, e.2))

/-- The geometry that a binary with lines of `line` bytes loads. -/
def loadGeometry (line : ℕ) (mem : ℕ → UInt8) : Geometry where
  magic := .ofNat (get mem (Field.magic.range line))
  capacity := .ofNat (get mem (Field.capacity.range line))
  totalBytes := .ofNat (get mem (Field.totalBytes.range line))
  version := .ofNat (get mem (Field.version.range line))
  cacheLineSize := .ofNat (get mem (Field.cacheLineSize.range line))
  elemSize := .ofNat (get mem (Field.elemSize.range line))
  elemAlign := .ofNat (get mem (Field.elemAlign.range line))
  slotsOffset := .ofNat (get mem (Field.slotsOffset.range line))

/-- The block that it loads. -/
def load (line : ℕ) (mem : ℕ → UInt8) : ControlBlock where
  geometry := loadGeometry line mem
  producerPid := (UInt32.ofNat (get mem (Field.producerPid.range line))).toInt32
  consumerPid := (UInt32.ofNat (get mem (Field.consumerPid.range line))).toInt32
  ready := .ofNat (get mem (Field.ready.range line))
  writeIdx := .ofNat (get mem (Field.writeIdx.range line))
  readIdx := .ofNat (get mem (Field.readIdx.range line))

end ControlBlock

/-! ## Where the members are -/

/-- A line that the language takes : a power of two, with room for the `56` bytes of line 0. -/
structure LineSize (line : ℕ) : Prop where
  pow : ∃ k, line = 2 ^ k
  ge : 56 ≤ line

theorem LineSize.dvd {line : ℕ} (h : LineSize line) : 64 ∣ line := by
  obtain ⟨⟨k, rfl⟩, hge⟩ := h
  have hk : 6 ≤ k := by
    by_contra hlt
    have hpow : 2 ^ k ≤ 2 ^ 5 := Nat.pow_le_pow_right (by omega) (by omega)
    omega
  exact pow_dvd_pow 2 hk

theorem LineSize.le {line : ℕ} (h : LineSize line) : 64 ≤ line :=
  Nat.le_of_dvd (by have := h.ge; omega) h.dvd

namespace Field

variable {line : ℕ}

/-- The offsets of the members. -/
def offset (line : ℕ) : Field → ℕ
  | .magic => 0
  | .capacity => 8
  | .totalBytes => 16
  | .version => 24
  | .cacheLineSize => 28
  | .elemSize => 32
  | .elemAlign => 36
  | .slotsOffset => 40
  | .producerPid => 44
  | .consumerPid => 48
  | .ready => 52
  | .pad0 => 56
  | .writeIdx => line
  | .pad1 => line + 8
  | .readIdx => 2 * line
  | .pad2 => 2 * line + 8
  | .pad3 => 3 * line

/-- The compiler inserts no padding. -/
theorem packed_members (h : LineSize line) : Packed 0 (members line) := by
  have hge := h.le
  have hwrite : 56 + (line - 56) = line := by omega
  have hread : line + 8 + (line - 8) = line * 2 := by omega
  have hguard : line * 2 + 8 + (line - 8) = line * 3 := by omega
  have hpos : 0 < line := by omega
  simp only [members, all, List.map_cons, List.map_nil, member, Packed, Nat.zero_add, Nat.reduceAdd,
    hwrite, hread, hguard, dvd_mul_right, dvd_refl, one_dvd, Nat.reduceDvd, and_true,
    Nat.zero_lt_succ, dvd_zero, hpos]

theorem place_members (h : LineSize line) :
    place 0 (members line) = all.map fun f => ⟨f.offset line, (f.member line).size⟩ := by
  have hge := h.le
  have hwrite : 56 + (line - 56) = line := by omega
  have hread : line + 8 + (line - 8) = 2 * line := by omega
  have hguard : 2 * line + 8 + (line - 8) = 3 * line := by omega
  rw [place_of_packed (packed_members h)]
  simp only [members, all, List.map_cons, List.map_nil, member, packed, Nat.zero_add,
    Nat.reduceAdd, offset, hwrite, hread, hguard]

theorem getElem?_all (f : Field) : all[all.idxOf f]? = some f := by
  rcases f with _ | _ | _ | _ | _ | _ | _ | _ | _ | _ | _ | _ | _ | _ | _ | _ | _ <;> rfl

theorem range_eq (h : LineSize line) (f : Field) :
    f.range line = ⟨f.offset line, (f.member line).size⟩ := by
  rw [range, place_members h, List.getElem?_map, getElem?_all]
  rfl

theorem alignof_members (h : LineSize line) : alignof (members line) = line := by
  have hge := h.le
  have h8 : max 8 line = line := by omega
  have h4 : max 4 line = line := by omega
  have h1 : max 1 line = line := by omega
  simp only [alignof, members, all, List.map_cons, List.map_nil, member, List.foldr_cons,
    List.foldr_nil, Nat.max_comm line 1, Nat.max_self, h8, h4, h1]

theorem sizeof_members (h : LineSize line) : sizeof (members line) = 4 * line := by
  have hge := h.le
  have hpos : 0 < line := by omega
  have hsum : ((members line).map Member.size).sum = 4 * line := by
    simp only [members, all, List.map_cons, List.map_nil, member, List.sum_cons, List.sum_nil]
    omega
  rw [sizeof, finish_of_packed (packed_members h), alignof_members h, hsum, Nat.zero_add]
  exact alignUp_of_dvd hpos (Dvd.intro_left 4 rfl)

/-- Two members have no byte in common. -/
theorem range_disjoint (h : LineSize line) {f f' : Field} (hne : f ≠ f') :
    (f.range line).Disjoint (f'.range line) := by
  have hpos : ∀ m ∈ members line, 0 < m.align := by
    have hge := h.le
    intro m hm
    obtain ⟨f, -, rfl⟩ := List.mem_map.mp hm
    rcases f with _ | _ | _ | _ | _ | _ | _ | _ | _ | _ | _ | _ | _ | _ | _ | _ | _ <;>
      simp only [member] <;> omega
  have hplace := place_pairwise hpos 0
  rw [place_members h, List.pairwise_map] at hplace
  have hpair : all.Pairwise fun f f' => (f.range line).Disjoint (f'.range line) := by
    refine hplace.imp fun hbefore => .inl ?_
    rwa [range_eq h, range_eq h]
  have hsymm : Std.Symm fun f f' : Field => (f.range line).Disjoint (f'.range line) :=
    ⟨fun _ _ hdis => hdis.symm⟩
  exact hpair.forall (List.mem_of_getElem? (getElem?_all f))
    (List.mem_of_getElem? (getElem?_all f')) hne

/-- A member is inside its line. -/
theorem div_of_mem (h : LineSize line) (f : Field) {b : ℕ} (hlow : (f.range line).offset ≤ b)
    (hhigh : b < (f.range line).offset + (f.range line).size) : b / line = f.lineOf := by
  have hge := h.le
  rw [range_eq h] at hlow hhigh
  rw [Nat.div_eq_iff (by omega)]
  rcases f with _ | _ | _ | _ | _ | _ | _ | _ | _ | _ | _ | _ | _ | _ | _ | _ | _ <;>
    simp only [offset, member, lineOf] at hlow hhigh ⊢ <;> omega

/-- The members of line 0 are at the same offsets for every line. -/
theorem range_of_line0 {line' : ℕ} (h : LineSize line) (h' : LineSize line') {f : Field}
    (hf : f.lineOf = 0) (hpad : f ≠ .pad0) : f.range line = f.range line' := by
  rw [range_eq h, range_eq h']
  rcases f with _ | _ | _ | _ | _ | _ | _ | _ | _ | _ | _ | _ | _ | _ | _ | _ | _ <;>
    first | rfl | exact absurd rfl hpad | cases hf

end Field

/-! ## What is stored and loaded -/

namespace ControlBlock

variable {line line' : ℕ} {b : ControlBlock} {mem : ℕ → UInt8}

/-- Every value fits its member. -/
theorem words_fit (b : ControlBlock) (line : ℕ) :
    ∀ e ∈ b.words, e.2 < 256 ^ (e.1.member line).size := by
  have h64 (x : UInt64) : x.toNat < 256 ^ 8 := x.toNat_lt
  have h32 (x : UInt32) : x.toNat < 256 ^ 4 := x.toNat_lt
  simp only [words, List.forall_mem_cons, Field.member, h64, h32, true_and]
  simp

theorem words_disjoint (h : LineSize line) (b : ControlBlock) :
    (b.words.map fun e => (e.1.range line, e.2)).Pairwise fun e e' => e.1.Disjoint e'.1 := by
  have hnodup : (b.words.map Prod.fst).Nodup := by
    simp [words]
  rw [List.pairwise_map]
  exact (List.pairwise_map.mp hnodup).imp fun hne => Field.range_disjoint h hne

/-- What the members hold after a store of the block. -/
theorem get_store (h : LineSize line) {f : Field} {v : ℕ} (hv : (f, v) ∈ b.words) :
    get (store line b mem) (f.range line) = v := by
  refine get_write (e := (f.range line, v)) (words_disjoint h b) (List.mem_map_of_mem hv) ?_
  rw [Field.range_eq h]
  exact words_fit b line _ hv

/-- A word of line 0 is loaded right with any line. -/
theorem get_line0 (h : LineSize line) (h' : LineSize line') {f : Field} {v : ℕ}
    (hv : (f, v) ∈ b.words) (hf : f.lineOf = 0) (hpad : f ≠ .pad0) :
    get (store line b mem) (f.range line') = v := by
  rw [← Field.range_of_line0 h h' hf hpad]
  exact get_store h hv

/-- An attacher loads line 0 as it was stored, whatever its line is. -/
theorem load_line0 (h : LineSize line) (h' : LineSize line') (b : ControlBlock)
    (mem : ℕ → UInt8) :
    loadGeometry line' (store line b mem) = b.geometry ∧
      (load line' (store line b mem)).ready = b.ready ∧
      (load line' (store line b mem)).producerPid = b.producerPid ∧
      (load line' (store line b mem)).consumerPid = b.consumerPid := by
  have word64 {f : Field} {x : UInt64} (hv : (f, x.toNat) ∈ b.words) (hf : f.lineOf = 0)
      (hpad : f ≠ .pad0) : UInt64.ofNat (get (store line b mem) (f.range line')) = x := by
    rw [get_line0 h h' hv hf hpad, UInt64.ofNat_toNat]
  have word32 {f : Field} {x : UInt32} (hv : (f, x.toNat) ∈ b.words) (hf : f.lineOf = 0)
      (hpad : f ≠ .pad0) : UInt32.ofNat (get (store line b mem) (f.range line')) = x := by
    rw [get_line0 h h' hv hf hpad, UInt32.ofNat_toNat]
  have pid {f : Field} {x : Int32} (hv : (f, x.toUInt32.toNat) ∈ b.words) (hf : f.lineOf = 0)
      (hpad : f ≠ .pad0) :
      (UInt32.ofNat (get (store line b mem) (f.range line'))).toInt32 = x := by
    rw [word32 hv hf hpad, Int32.toInt32_toUInt32]
  refine ⟨?_, ?_, ?_, ?_⟩
  · refine Geometry.ext ?_ ?_ ?_ ?_ ?_ ?_ ?_ ?_
    · exact word64 (by simp [words]) rfl (by simp)
    · exact word64 (by simp [words]) rfl (by simp)
    · exact word64 (by simp [words]) rfl (by simp)
    · exact word32 (by simp [words]) rfl (by simp)
    · exact word32 (by simp [words]) rfl (by simp)
    · exact word32 (by simp [words]) rfl (by simp)
    · exact word32 (by simp [words]) rfl (by simp)
    · exact word32 (by simp [words]) rfl (by simp)
  · exact word32 (by simp [words]) rfl (by simp)
  · exact pid (by simp [words]) rfl (by simp)
  · exact pid (by simp [words]) rfl (by simp)

/-- What was stored is loaded. -/
theorem load_store (h : LineSize line) (b : ControlBlock) (mem : ℕ → UInt8) :
    load line (store line b mem) = b := by
  obtain ⟨hgeometry, hready, hproducer, hconsumer⟩ := load_line0 h h b mem
  refine ControlBlock.ext hgeometry hproducer hconsumer hready ?_ ?_
  · have hword : get (store line b mem) (Field.writeIdx.range line) = b.writeIdx.toNat :=
      get_store h (by simp [words])
    rw [load, hword, UInt64.ofNat_toNat]
  · have hword : get (store line b mem) (Field.readIdx.range line) = b.readIdx.toNat :=
      get_store h (by simp [words])
    rw [load, hword, UInt64.ofNat_toNat]

/-- A store of the block leaves the bytes from its end on. -/
theorem store_of_le (h : LineSize line) (b : ControlBlock) (mem : ℕ → UInt8) {x : ℕ}
    (hx : 4 * line ≤ x) : store line b mem x = mem x := by
  refine write_of_notMem fun e he => ?_
  obtain ⟨⟨f, v⟩, -, rfl⟩ := List.mem_map.mp he
  rintro ⟨hlow, hhigh⟩
  have hline := Field.div_of_mem h f hlow hhigh
  have hle : 4 ≤ x / line := (Nat.le_div_iff_mul_le (by have := h.ge; omega)).mpr hx
  rw [hline] at hle
  rcases f with _ | _ | _ | _ | _ | _ | _ | _ | _ | _ | _ | _ | _ | _ | _ | _ | _ <;>
    simp only [Field.lineOf] at hle <;> omega

/-- The wire format, for every line that the language takes. The static assertions hold, the
compiler inserts no padding, no member crosses a line, and each index has a line without any
other word. A store to one member leaves every other one, what was stored is loaded, and a store
of the block leaves the bytes from its end on. As long as the 32-bit `slotsOffset` holds the size
of the block, slot `0` of a created segment begins there and no slot before it. -/
theorem wire_format (h : LineSize line) (b : ControlBlock) (mem : ℕ → UInt8) :
    (sizeof (Field.members line) = 4 * line ∧ alignof (Field.members line) = line ∧
      (Field.writeIdx.range line).offset = line ∧ (Field.readIdx.range line).offset = 2 * line) ∧
    Packed 0 (Field.members line) ∧
    (∀ (f : Field) (x : ℕ), (f.range line).offset ≤ x →
      x < (f.range line).offset + (f.range line).size → x / line = f.lineOf) ∧
    (∀ (f f' : Field) (v : ℕ), f ≠ f' →
      get (put mem (f.range line) v) (f'.range line) = get mem (f'.range line)) ∧
    load line (store line b mem) = b ∧ (∀ x, 4 * line ≤ x → store line b mem x = mem x) ∧
    (4 * line < 2 ^ 32 → ∀ (L : Layout) (slots bytes : UInt64), L.cacheLine.toNat = line →
      slotOffset L (createdGeometry L slots bytes) 0 = 4 * line ∧
        ∀ i, 4 * line ≤ slotOffset L (createdGeometry L slots bytes) i) := by
  refine ⟨⟨Field.sizeof_members h, Field.alignof_members h, ?_, ?_⟩, Field.packed_members h,
    fun f x hlow hhigh => Field.div_of_mem h f hlow hhigh, fun f f' v hne => ?_,
    load_store h b mem, fun x hx => store_of_le h b mem hx, ?_⟩
  · rw [Field.range_eq h]
    rfl
  · rw [Field.range_eq h]
    rfl
  · exact get_put_of_disjoint (Field.range_disjoint h hne) v
  · rintro h32 L slots bytes rfl
    simp only [slotOffset, toNat_slotsOffset L slots bytes h32]
    exact ⟨by simp, fun i => Nat.le_add_right _ _⟩

/-- The block of a queue of two slots, with one element in it. -/
def messageBlock : ControlBlock := ⟨createdGeometry messageLayout 2 352, 7, -1, 1, 1, 0⟩

theorem lineSize_of_le {k : ℕ} (hk : 6 ≤ k) : LineSize (2 ^ k) :=
  ⟨⟨k, rfl⟩, le_trans (by omega) (Nat.pow_le_pow_right (by omega) hk)⟩

theorem wire_format_messageBlock :
    load 64 (store 64 messageBlock fun _ => 255) = messageBlock ∧
      (Field.readIdx.range 64).offset = 128 ∧
      slotOffset messageLayout messageBlock.geometry 0 = 256 := by
  obtain ⟨⟨-, -, -, hread⟩, -, -, -, hload, -, hslots⟩ :=
    wire_format (lineSize_of_le (k := 6) le_rfl) messageBlock fun _ => 255
  exact ⟨hload, hread, (hslots (by decide) messageLayout 2 352 rfl).1⟩

/-- The line that a created geometry names. -/
theorem cacheLineSize_of_create {C : Layout} {name : String} {requested : UInt64}
    {calls : CreateCalls} {g : Geometry} (hcreate : create C name requested calls = .ok g) :
    g.magic = kMagic ∧ g.version = kVersion ∧ g.cacheLineSize = C.cacheLine.toUInt32 := by
  obtain ⟨bytes, -, rfl, -⟩ := create_eq_ok hcreate
  exact ⟨rfl, rfl, rfl⟩

/-- The 32-bit field tells the lines apart : one that is too long for it is stored as `0`. -/
theorem line_eq_of_stored {C A : Layout} (hC : LineSize C.cacheLine.toNat)
    (hA : LineSize A.cacheLine.toNat) (h : C.cacheLine.toUInt32.toUInt64 = A.cacheLine) :
    C.cacheLine = A.cacheLine := by
  by_cases h32 : C.cacheLine.toNat < 2 ^ 32
  · exact (toUInt64_toUInt32_eq_iff h32).mp h
  obtain ⟨k, hk⟩ := hC.pow
  rw [hk, not_lt, Nat.pow_le_pow_iff_right (by omega)] at h32
  have hzero : C.cacheLine.toUInt32.toUInt64.toNat = 0 := by
    rw [UInt32.toNat_toUInt64, UInt64.toNat_toUInt32, hk]
    exact Nat.mod_eq_zero_of_dvd (pow_dvd_pow 2 h32)
  have hge := hA.ge
  rw [h] at hzero
  omega

/-- A binary of another line is refused by `validate`. -/
theorem validate_of_line_ne {C A : Layout} (hC : LineSize C.cacheLine.toNat)
    (hA : LineSize A.cacheLine.toNat) {g : Geometry} {mapped : UInt64}
    (hmagic : g.magic = kMagic) (hversion : g.version = kVersion)
    (hline : g.cacheLineSize = C.cacheLine.toUInt32) (hne : C.cacheLine ≠ A.cacheLine) :
    validate A g mapped = .error (.runtimeError ("cache line mismatch: segment " ++
      toString g.cacheLineSize ++ ", binary " ++ toString A.cacheLine)) := by
  have hother : g.cacheLineSize.toUInt64 ≠ A.cacheLine := by
    rw [hline]
    exact fun heq => hne (line_eq_of_stored hC hA heq)
  simp only [validate, throwIf, hmagic, hversion, ne_eq, not_true_eq_false, if_false, hother,
    not_false_eq_true, if_true]
  rfl

/-- An attacher reads the bytes of the creator through its own `ControlBlock`. Whatever its line
is, it loads line 0 as the creator has stored it : the geometry, the pids and `ready`. With
another line `validate` throws the mismatch, and if `validate` accepts, the attacher loads the
whole block, indices included, as the creator has stored it. -/
theorem attach_reads {C A : Layout} (hC : LineSize C.cacheLine.toNat)
    (hA : LineSize A.cacheLine.toNat) {name : String} {requested : UInt64}
    {calls : CreateCalls} {b : ControlBlock}
    (hcreate : create C name requested calls = .ok b.geometry) (mem : ℕ → UInt8)
    (mapped : UInt64) {seen : ControlBlock}
    (hseen : load A.cacheLine.toNat (store C.cacheLine.toNat b mem) = seen) :
    (seen.geometry = b.geometry ∧ seen.ready = b.ready ∧ seen.producerPid = b.producerPid ∧
      seen.consumerPid = b.consumerPid) ∧
    (C.cacheLine ≠ A.cacheLine →
      validate A seen.geometry mapped = .error (.runtimeError ("cache line mismatch: segment " ++
        toString b.geometry.cacheLineSize ++ ", binary " ++ toString A.cacheLine))) ∧
    (validate A seen.geometry mapped = .ok () → seen = b) := by
  obtain ⟨hmagic, hversion, hline⟩ := cacheLineSize_of_create hcreate
  have hline0 := load_line0 hC hA b mem
  have hgeometry : seen.geometry = b.geometry := by
    rw [← hseen]
    exact hline0.1
  refine ⟨⟨hgeometry, hseen ▸ hline0.2⟩, fun hne => ?_, fun hok => ?_⟩
  · rw [hgeometry]
    exact validate_of_line_ne hC hA hmagic hversion hline hne
  · rw [hgeometry, validate_eq_ok_iff, hline] at hok
    rw [← hseen, ← line_eq_of_stored hC hA hok.2.2.1]
    exact load_store hC b mem

/-- A binary for lines of `128` bytes. -/
def appleLayout : Layout :=
  { messageLayout with
    cacheLine := 128
    cacheLine_ge := by decide
    cacheLine_lt := by decide
    elemAlign_le := by decide }

theorem attach_reads_appleLayout :
    validate appleLayout (load 128 (store 64 messageBlock fun _ => 0)).geometry 4096 =
      .error (.runtimeError "cache line mismatch: segment 64, binary 128") := by
  have hC : LineSize messageLayout.cacheLine.toNat := lineSize_of_le (k := 6) le_rfl
  have hA : LineSize appleLayout.cacheLine.toNat := lineSize_of_le (k := 7) (by decide)
  have hcreate : create messageLayout "/q" 1 ⟨none, none, none⟩ = .ok messageBlock.geometry := by
    decide
  have hreads := attach_reads hC hA hcreate (fun _ => 0) 4096 rfl
  exact hreads.2.1 (by decide)

end ControlBlock

end ShmSpsc
