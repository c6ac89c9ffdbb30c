import PgTre.Util.SparsemapBytes
import Mathlib.Algebra.Ring.Divisibility.Basic
import Mathlib.Data.Nat.Bitwise

/-!
# The chunks of a sparsemap

`src/util/sparsemap.c` stores a set of numbers as a list of chunks. A sparse chunk has 2048 numbers,
in 32 vectors of 64, and its descriptor says with two bits whether a vector is empty, full or stored.
A chunk in the run-length form has the numbers from its start on, as many as its descriptor says.
-/

namespace PgTre.Sparsemap

/-! ## Descriptors -/

/-- `SM_CHUNK_GET_FLAGS`: 0 for `SM_PAYLOAD_ZEROS`, 1 for `SM_PAYLOAD_NONE`, 2 for
`SM_PAYLOAD_MIXED` and 3 for `SM_PAYLOAD_ONES`. -/
def flagsAt (desc i : ℕ) : ℕ := desc / 4 ^ i % 4

/-- `__sm_chunk_rle_get_capacity`. -/
def rleCapacity (desc : ℕ) : ℕ := desc / 2 ^ 31 % 2 ^ 31

/-- `__sm_chunk_rle_get_length`. -/
def rleLength (desc : ℕ) : ℕ := desc % 2 ^ 31

/-- The descriptor after `__sm_chunk_set_rle`, `__sm_chunk_rle_set_capacity` and
`__sm_chunk_rle_set_length`. -/
def rleDesc (capacity length : ℕ) : ℕ := 2 ^ 62 + capacity % 2 ^ 31 * 2 ^ 31 + length % 2 ^ 31

/-- The descriptor of some flags. -/
def packFlags : List ℕ → ℕ
  | [] => 0
  | f :: fs => f + 4 * packFlags fs

/-- The vectors stored before the one with some number. -/
def mixedBefore (desc bv : ℕ) : ℕ := (List.range bv).countP fun i => flagsAt desc i == 2

/-- A flag is one of four. -/
theorem flagsAt_lt (desc i : ℕ) : flagsAt desc i < 4 := Nat.mod_lt _ (by decide)

/-- Packed flags are read back. -/
theorem flagsAt_packFlags {fs : List ℕ} (h : ∀ f ∈ fs, f < 4) (i : ℕ) :
    flagsAt (packFlags fs) i = fs.getD i 0 := by
  induction fs generalizing i with
  | nil => simp [packFlags, flagsAt]
  | cons f fs ih =>
    have hf := h f List.mem_cons_self
    have hrest := ih fun g hg => h g (List.mem_cons_of_mem _ hg)
    cases i with
    | zero =>
      simp only [flagsAt, packFlags, pow_zero, Nat.div_one, List.getD_cons_zero]
      omega
    | succ i =>
      have hdiv : (f + 4 * packFlags fs) / 4 = packFlags fs := by omega
      rw [List.getD_cons_succ, ← hrest i, flagsAt, flagsAt, packFlags, pow_succ',
        ← Nat.div_div_eq_div_mul, hdiv]

/-- Packed flags fit in their room. -/
theorem packFlags_lt {fs : List ℕ} (h : ∀ f ∈ fs, f < 4) : packFlags fs < 4 ^ fs.length := by
  induction fs with
  | nil => decide
  | cons f fs ih =>
    have hf := h f List.mem_cons_self
    have hrest := ih fun g hg => h g (List.mem_cons_of_mem _ hg)
    rw [packFlags, List.length_cons, pow_succ]
    omega

/-- The flags of a word determine it. -/
theorem packFlags_flagsAt {desc : ℕ} (k : ℕ) (h : desc < 4 ^ k) :
    packFlags ((List.range k).map (flagsAt desc)) = desc := by
  induction k generalizing desc with
  | zero =>
    rw [pow_zero] at h
    simp only [List.range_zero, List.map_nil, packFlags]
    omega
  | succ k ih =>
    have hlt : desc / 4 < 4 ^ k := by
      rw [pow_succ] at h
      omega
    have hshift : (List.range k).map (flagsAt (desc / 4)) =
        (List.range k).map (flagsAt desc ∘ Nat.succ) := by
      apply List.map_congr_left
      intro i _
      rw [Function.comp_apply, flagsAt, flagsAt, Nat.div_div_eq_div_mul, Nat.succ_eq_add_one,
        pow_succ']
    rw [List.range_succ_eq_map, List.map_cons, packFlags, List.map_map, ← hshift, ih hlt, flagsAt,
      pow_zero, Nat.div_one]
    omega

/-- The capacity of a run is read back. -/
theorem rleCapacity_rleDesc {capacity : ℕ} (length : ℕ) (h : capacity < 2 ^ 31) :
    rleCapacity (rleDesc capacity length) = capacity := by
  unfold rleCapacity rleDesc
  omega

/-- The length of a run is read back. -/
theorem rleLength_rleDesc (capacity : ℕ) {length : ℕ} (h : length < 2 ^ 31) :
    rleLength (rleDesc capacity length) = length := by
  unfold rleLength rleDesc
  omega

/-- The marker flag of a run stands in the last slot. -/
theorem flagsAt_rleDesc (capacity length : ℕ) : flagsAt (rleDesc capacity length) 31 = 1 := by
  unfold flagsAt rleDesc
  omega

/-- The descriptor of a run fits in 64 bits. -/
theorem rleDesc_lt (capacity length : ℕ) : rleDesc capacity length < 2 ^ 64 := by
  unfold rleDesc
  omega

/-- The table of `__sm_chunk_calc_vector_size`. -/
def vectorSizes : List ℕ :=
  [0, 0, 1, 0, 0, 0, 1, 0, 1, 1, 2, 1, 0, 0, 1, 0,
   0, 0, 1, 0, 0, 0, 1, 0, 1, 1, 2, 1, 0, 0, 1, 0,
   1, 1, 2, 1, 1, 1, 2, 1, 2, 2, 3, 2, 1, 1, 2, 1,
   0, 0, 1, 0, 0, 0, 1, 0, 1, 1, 2, 1, 0, 0, 1, 0,
   0, 0, 1, 0, 0, 0, 1, 0, 1, 1, 2, 1, 0, 0, 1, 0,
   0, 0, 1, 0, 0, 0, 1, 0, 1, 1, 2, 1, 0, 0, 1, 0,
   1, 1, 2, 1, 1, 1, 2, 1, 2, 2, 3, 2, 1, 1, 2, 1,
   0, 0, 1, 0, 0, 0, 1, 0, 1, 1, 2, 1, 0, 0, 1, 0,
   1, 1, 2, 1, 1, 1, 2, 1, 2, 2, 3, 2, 1, 1, 2, 1,
   1, 1, 2, 1, 1, 1, 2, 1, 2, 2, 3, 2, 1, 1, 2, 1,
   2, 2, 3, 2, 2, 2, 3, 2, 3, 3, 4, 3, 2, 2, 3, 2,
   1, 1, 2, 1, 1, 1, 2, 1, 2, 2, 3, 2, 1, 1, 2, 1,
   0, 0, 1, 0, 0, 0, 1, 0, 1, 1, 2, 1, 0, 0, 1, 0,
   0, 0, 1, 0, 0, 0, 1, 0, 1, 1, 2, 1, 0, 0, 1, 0,
   1, 1, 2, 1, 1, 1, 2, 1, 2, 2, 3, 2, 1, 1, 2, 1,
   0, 0, 1, 0, 0, 0, 1, 0, 1, 1, 2, 1, 0, 0, 1, 0]

/-- `__sm_chunk_calc_vector_size`. -/
def calcVectorSize (b : ℕ) : ℕ := vectorSizes.getD b 0

/-- `__sm_desc_flag_byte`. -/
def descFlagByte (desc n : ℕ) : ℕ := desc / 256 ^ n % 256

/-- `__sm_chunk_get_size`, in words: the descriptor and the stored vectors. -/
def sizeWords (desc : ℕ) : ℕ :=
  if flagsAt desc 31 = 1 then 1
  else 1 + ((List.range 8).map fun i => calcVectorSize (descFlagByte desc i)).sum

/-- The table counts the stored vectors of a byte. -/
theorem calcVectorSize_eq : ∀ b < 256,
    calcVectorSize b = (if b % 4 = 2 then 1 else 0) + (if b / 4 % 4 = 2 then 1 else 0) +
      (if b / 16 % 4 = 2 then 1 else 0) + (if b / 64 % 4 = 2 then 1 else 0) := by
  decide +kernel

/-- One more slot counts when it is mixed. -/
theorem mixedBefore_succ (desc bv : ℕ) :
    mixedBefore desc (bv + 1) = mixedBefore desc bv + if flagsAt desc bv = 2 then 1 else 0 := by
  unfold mixedBefore
  rw [List.range_succ, List.countP_append, List.countP_singleton]
  simp only [beq_iff_eq]

/-- Four slots count as their flag byte does. -/
theorem mixedBefore_byte (desc k : ℕ) :
    mixedBefore desc (4 * (k + 1)) =
      mixedBefore desc (4 * k) + calcVectorSize (descFlagByte desc k) := by
  have hflag : ∀ j < 4, flagsAt desc (4 * k + j) = descFlagByte desc k / 4 ^ j % 4 := by
    intro j hj
    have hpow : 4 ^ (4 * k + j) = 256 ^ k * 4 ^ j := by
      rw [pow_add, pow_mul, show 4 ^ 4 = 256 from rfl]
    have hj' : j = 0 ∨ j = 1 ∨ j = 2 ∨ j = 3 := by omega
    rw [flagsAt, descFlagByte, hpow, ← Nat.div_div_eq_div_mul]
    rcases hj' with rfl | rfl | rfl | rfl <;> omega
  have h0 := hflag 0 (by decide)
  have h1 := hflag 1 (by decide)
  have h2 := hflag 2 (by decide)
  have h3 := hflag 3 (by decide)
  have heq : 4 * (k + 1) = 4 * k + 0 + 1 + 1 + 1 + 1 := by omega
  have hlt : descFlagByte desc k < 256 := Nat.mod_lt _ (by decide)
  rw [calcVectorSize_eq _ hlt, heq, mixedBefore_succ, mixedBefore_succ,
    mixedBefore_succ, mixedBefore_succ]
  simp only [add_zero] at h0
  simp only [Nat.add_assoc, h0, h1, h2, h3, pow_zero, Nat.div_one, pow_one, Nat.reducePow]

/-- The size of a sparse chunk counts its stored vectors. -/
theorem sizeWords_of_sparse {desc : ℕ} (h : flagsAt desc 31 ≠ 1) :
    sizeWords desc = 1 + mixedBefore desc 32 := by
  have hsum : ∀ k, ((List.range k).map fun i => calcVectorSize (descFlagByte desc i)).sum =
      mixedBefore desc (4 * k) := by
    intro k
    induction k with
    | zero => rfl
    | succ k ih =>
      rw [List.range_succ, List.map_append, List.sum_append, ih, mixedBefore_byte]
      rfl
  rw [sizeWords, if_neg h, hsum]

/-! ## Chunks -/

/-- A chunk: its first number, its descriptor and its stored vectors. -/
structure Chunk where
  start : ℕ
  desc : ℕ
  vecs : List ℕ
  deriving DecidableEq

namespace Chunk

/-- `__sm_chunk_is_rle`. -/
def isRle (c : Chunk) : Prop := flagsAt c.desc 31 = 1

instance (c : Chunk) : Decidable c.isRle := inferInstanceAs (Decidable (_ = _))

/-- `__sm_chunk_get_position`. The vectors before are counted one by one: the table is for the
bytes before, and `num_bytes` is zero for every vector of a chunk. -/
def position (c : Chunk) (bv : ℕ) : ℕ :=
  if 32 ≤ bv then 0 else if c.isRle then 0 else mixedBefore c.desc bv

/-- `__sm_chunk_get_capacity`. -/
def capacity (c : Chunk) : ℕ :=
  if c.isRle then rleCapacity c.desc
  else 2048 - 64 * (List.range 32).countP fun i => flagsAt c.desc i == 1

/-- One past the last number a chunk has room for. -/
def stop (c : Chunk) : ℕ := c.start + c.capacity

/-- The vector with some number: `__sm_expand_sparse_chunk`, without the flags. -/
def words (c : Chunk) (i : ℕ) : ℕ :=
  if flagsAt c.desc i = 2 then c.vecs.getD (mixedBefore c.desc i) 0
  else if flagsAt c.desc i = 3 then onesVector else 0

/-- The flags of `__sm_expand_sparse_chunk`. -/
def capFlags (c : Chunk) (i : ℕ) : Bool := flagsAt c.desc i != 1

/-- `__sm_chunk_is_set`. -/
def isSet (c : Chunk) (idx : ℕ) : Bool :=
  if c.isRle then decide (idx < rleLength c.desc)
  else if 2048 ≤ idx then false
  else if flagsAt c.desc (idx / 64) < 2 then false
  else if flagsAt c.desc (idx / 64) = 3 then true
  else (c.vecs.getD (c.position (idx / 64)) 0).testBit (idx % 64)

/-- A number is in a chunk. -/
def Holds (c : Chunk) (n : ℕ) : Prop := c.start ≤ n ∧ n < c.stop ∧ c.isSet (n - c.start) = true

instance (c : Chunk) (n : ℕ) : Decidable (c.Holds n) := inferInstanceAs (Decidable (_ ∧ _ ∧ _))

/-- The chunks that the library makes. A descriptor never has a vector without room, and a chunk is
never empty. The last room is left before the end of the numbers, where its stop would be zero. -/
structure Ok (c : Chunk) : Prop where
  aligned : 2048 ∣ c.start
  stop_lt : c.stop < 2 ^ 64
  desc_lt : c.desc < 2 ^ 64
  rle : c.isRle → 2048 ∣ rleCapacity c.desc ∧ rleLength c.desc ≤ rleCapacity c.desc ∧ c.vecs = []
  sparse : ¬c.isRle → ∀ i < 32, flagsAt c.desc i ≠ 1
  length : ¬c.isRle → c.vecs.length = mixedBefore c.desc 32
  vecs_lt : ∀ v ∈ c.vecs, v < 2 ^ 64
  nonempty : ∃ n, c.Holds n

section

variable {c : Chunk} {n i : ℕ}

/-- A run's capacity is its descriptor's. -/
theorem capacity_of_rle (h : c.isRle) : c.capacity = rleCapacity c.desc := if_pos h

/-- A sparse chunk has room for 2048 numbers. -/
theorem Ok.capacity_of_sparse (hc : c.Ok) (h : ¬c.isRle) : c.capacity = 2048 := by
  have hcount : (List.range 32).countP (fun i => flagsAt c.desc i == 1) = 0 := by
    rw [List.countP_eq_zero]
    intro i hi
    rw [beq_iff_eq]
    exact hc.sparse h i (List.mem_range.mp hi)
  rw [capacity, if_neg h, hcount]

/-- A capacity is a number of whole blocks. -/
theorem Ok.dvd_capacity (hc : c.Ok) : 2048 ∣ c.capacity := by
  by_cases h : c.isRle
  · rw [capacity_of_rle h]
    exact (hc.rle h).1
  · rw [hc.capacity_of_sparse h]

/-- A chunk ends at a block. -/
theorem Ok.dvd_stop (hc : c.Ok) : 2048 ∣ c.stop := dvd_add hc.aligned hc.dvd_capacity

/-- A chunk is not empty of room. -/
theorem Ok.start_lt_stop (hc : c.Ok) : c.start < c.stop := by
  obtain ⟨n, hstart, hstop, -⟩ := hc.nonempty
  omega

/-- A chunk has room for one vector of vectors. -/
theorem Ok.start_add_le_stop (hc : c.Ok) : c.start + 2048 ≤ c.stop := by
  have hlt := hc.start_lt_stop
  have hstart := hc.aligned
  have hstop := hc.dvd_stop
  omega

/-- The numbers of a run. -/
theorem Ok.holds_of_rle (hc : c.Ok) (h : c.isRle) :
    c.Holds n ↔ c.start ≤ n ∧ n < c.start + rleLength c.desc := by
  have hle := (hc.rle h).2.1
  rw [Holds, stop, capacity_of_rle h, isSet, if_pos h, decide_eq_true_eq]
  omega

/-- A word of a chunk fits in 64 bits. -/
theorem words_lt (hv : ∀ v ∈ c.vecs, v < 2 ^ 64) (i : ℕ) : c.words i < 2 ^ 64 := by
  unfold words
  by_cases hmixed : flagsAt c.desc i = 2
  · rw [if_pos hmixed, List.getD_eq_getElem?_getD]
    cases hget : c.vecs[mixedBefore c.desc i]? with
    | none => decide
    | some v => exact hv v (List.mem_of_getElem? hget)
  · rw [if_neg hmixed]
    by_cases hones : flagsAt c.desc i = 3
    · rw [if_pos hones]
      decide
    · rw [if_neg hones]
      decide

/-- In a sparse chunk a number is a bit of its word. -/
theorem isSet_of_sparse (h : ¬c.isRle) {idx : ℕ} (hidx : idx < 2048) :
    c.isSet idx = (c.words (idx / 64)).testBit (idx % 64) := by
  have hbv : ¬32 ≤ idx / 64 := by omega
  have hflags := flagsAt_lt c.desc (idx / 64)
  rw [isSet, if_neg h, if_neg (by omega), words, position, if_neg hbv, if_neg h]
  by_cases hlow : flagsAt c.desc (idx / 64) < 2
  · rw [if_pos hlow, if_neg (by omega), if_neg (by omega), Nat.zero_testBit]
  · rw [if_neg hlow]
    by_cases hones : flagsAt c.desc (idx / 64) = 3
    · have hbit : onesVector.testBit (idx % 64) = true := by
        rw [onesVector, Nat.testBit_two_pow_sub_one, decide_eq_true_eq]
        omega
      rw [if_pos hones, if_neg (by omega), if_pos hones, hbit]
    · rw [if_neg hones, if_pos (by omega)]

end

end Chunk

/-! ## Windows -/

/-- A number is in the window of 32 vectors at some start. -/
def InWindow (words : ℕ → ℕ) (start n : ℕ) : Prop :=
  start ≤ n ∧ n < start + 2048 ∧ (words ((n - start) / 64)).testBit ((n - start) % 64) = true

namespace Chunk

variable {c : Chunk} {n : ℕ}

/-- The numbers of a sparse chunk. -/
theorem Ok.holds_of_sparse (hc : c.Ok) (h : ¬c.isRle) :
    c.Holds n ↔ InWindow c.words c.start n := by
  rw [Holds, InWindow, stop, hc.capacity_of_sparse h]
  constructor
  · rintro ⟨hstart, hstop, hset⟩
    rw [isSet_of_sparse h (by omega)] at hset
    exact ⟨hstart, hstop, hset⟩
  · rintro ⟨hstart, hstop, hbit⟩
    refine ⟨hstart, hstop, ?_⟩
    rw [isSet_of_sparse h (by omega)]
    exact hbit

end Chunk

end PgTre.Sparsemap
