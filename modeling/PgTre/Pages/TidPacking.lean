import PgTre.Pages.RunCatalog
import Mathlib.Data.Nat.Bitwise

/-!
# Packed TIDs

Every TID an index stores is one 64-bit number, packed in one of the two ways of
`include/pg_tre/page.h`. The packing is chosen when the index is built and recorded on its meta
page. Reading a stored TID and packing it again changes nothing.
-/

namespace PgTre

/-- `MaxHeapTuplesPerPage` for pages of 8192 bytes: a tuple takes a header of 24 bytes and a line
pointer of 4 on a page whose own header has 24. -/
def maxHeapTuplesPerPage : ℕ := (8192 - 24) / (24 + 4)

/-- `PG_TRE_DENSE_STRIDE`. -/
def denseStride : ℕ := maxHeapTuplesPerPage + 1

/-- `ItemPointerData`: a heap block and an offset in it. -/
@[ext] structure ItemPointer where
  blkid : ℕ
  posid : ℕ
  /-- A block number has 32 bits. -/
  blkidLt : blkid < 2 ^ 32
  /-- An offset has 16 bits. -/
  posidLt : posid < 2 ^ 16
  deriving DecidableEq

/-- A block number of the packing fits in 32 bits. -/
theorem blkid_mod_lt (n : ℕ) : n % 2 ^ 32 < 2 ^ 32 := Nat.mod_lt _ (by decide)

/-- An offset of the packing fits in 16 bits. -/
theorem posid_mod_lt (n : ℕ) : n % 2 ^ 16 < 2 ^ 16 := Nat.mod_lt _ (by decide)

/-- Block 0 fits. -/
theorem zero_lt_blkid : 0 < 2 ^ 32 := by decide

/-- So does block 1. -/
theorem one_lt_blkid : 1 < 2 ^ 32 := by decide

/-- Offset 1 fits. -/
theorem one_lt_posid : 1 < 2 ^ 16 := by decide

/-- So does offset 2. -/
theorem two_lt_posid : 2 < 2 ^ 16 := by decide

/-- So does offset 3. -/
theorem three_lt_posid : 3 < 2 ^ 16 := by decide

/-- `PgTreTidPacking`. -/
inductive TidPacking
  | legacy
  | dense
  deriving DecidableEq

/-- `pg_tre_pack_tid`. An offset past the stride would alias the next block's TIDs. -/
def packTid (pk : TidPacking) (tid : ItemPointer) : Except PgError ℕ :=
  match pk with
  | .dense =>
      if denseStride ≤ tid.posid then
        let off := tid.posid
        .error ⟨s!"pg_tre: heap TID offset {off} exceeds MaxHeapTuplesPerPage"⟩
      else .ok (tid.blkid * denseStride + tid.posid)
  | .legacy => .ok (tid.blkid <<< 16 ||| tid.posid)

/-- `pg_tre_unpack_tid`. The casts keep the low 32 and 16 bits. -/
def unpackTid (pk : TidPacking) (packed : ℕ) : ItemPointer :=
  match pk with
  | .dense =>
      ⟨packed / denseStride % 2 ^ 32, packed % denseStride % 2 ^ 16,
        Nat.mod_lt _ (by decide), Nat.mod_lt _ (by decide)⟩
  | .legacy =>
      ⟨(packed >>> 16) % 2 ^ 32, packed % 2 ^ 16, Nat.mod_lt _ (by decide), Nat.mod_lt _ (by decide)⟩

/-- The number is a TID packed for the index. -/
def Packed (pk : TidPacking) (packed : ℕ) : Prop :=
  ∃ tid, packTid pk tid = .ok packed

/-- The shift and the or put block and offset side by side. -/
private theorem legacy_eq (tid : ItemPointer) :
    tid.blkid <<< 16 ||| tid.posid = tid.blkid * 2 ^ 16 + tid.posid := by
  rw [Nat.shiftLeft_eq, Nat.mul_comm]
  exact (Nat.two_pow_add_eq_or_of_lt tid.posidLt tid.blkid).symm

/-- The legacy packing never fails. -/
theorem packTid_legacy (tid : ItemPointer) :
    packTid .legacy tid = .ok (tid.blkid * 2 ^ 16 + tid.posid) := by
  rw [packTid, legacy_eq]

/-- Unpacking inverts packing. -/
theorem unpackTid_packTid {pk : TidPacking} {tid : ItemPointer} {packed : ℕ}
    (h : packTid pk tid = .ok packed) : unpackTid pk packed = tid := by
  have hblk := tid.blkidLt
  have hpos := tid.posidLt
  cases pk with
  | legacy =>
    simp only [packTid, legacy_eq, Except.ok.injEq] at h
    ext
    · simp only [unpackTid, Nat.shiftRight_eq_div_pow]
      omega
    · simp only [unpackTid]
      omega
  | dense =>
    unfold packTid at h
    dsimp only at h
    split_ifs at h with hlarge
    rw [Except.ok.injEq] at h
    simp only [denseStride, maxHeapTuplesPerPage] at h hlarge
    ext
    · simp only [unpackTid, denseStride, maxHeapTuplesPerPage]
      omega
    · simp only [unpackTid, denseStride, maxHeapTuplesPerPage]
      omega

/-- Packing inverts unpacking on what the index stores. -/
theorem packTid_unpackTid {pk : TidPacking} {packed : ℕ} (h : Packed pk packed) :
    packTid pk (unpackTid pk packed) = .ok packed := by
  obtain ⟨tid, htid⟩ := h
  rw [unpackTid_packTid htid]
  exact htid

/-- An offset that a page can hold is packed either way. -/
theorem packTid_ok {tid : ItemPointer} (h : tid.posid ≤ maxHeapTuplesPerPage) (pk : TidPacking) :
    ∃ packed, packTid pk tid = .ok packed := by
  cases pk with
  | legacy => exact ⟨_, rfl⟩
  | dense =>
    have hsmall : ¬ denseStride ≤ tid.posid := by
      rw [denseStride]
      omega
    exact ⟨tid.blkid * denseStride + tid.posid, by simp [packTid, hsmall]⟩

/-- Different TIDs are packed differently. -/
theorem packTid_inj {pk : TidPacking} {tid tid' : ItemPointer} {packed : ℕ}
    (h : packTid pk tid = .ok packed) (h' : packTid pk tid' = .ok packed) : tid = tid' := by
  rw [← unpackTid_packTid h, ← unpackTid_packTid h']

/-- `ItemPointerCompare` finds the first TID less than the second. -/
def ItemPointer.Before (tid tid' : ItemPointer) : Prop :=
  tid.blkid < tid'.blkid ∨ tid.blkid = tid'.blkid ∧ tid.posid < tid'.posid

instance (tid tid' : ItemPointer) : Decidable (tid.Before tid') := inferInstanceAs (Decidable (_ ∨ _))

/-- Packing keeps the order of the TIDs. -/
theorem packTid_lt {pk : TidPacking} {tid tid' : ItemPointer} {packed packed' : ℕ}
    (h : packTid pk tid = .ok packed) (h' : packTid pk tid' = .ok packed')
    (hbefore : tid.Before tid') : packed < packed' := by
  have hpos := tid.posidLt
  unfold ItemPointer.Before at hbefore
  cases pk with
  | legacy =>
    simp only [packTid, legacy_eq, Except.ok.injEq] at h h'
    omega
  | dense =>
    simp only [packTid] at h h'
    split_ifs at h h' with hlarge hlarge'
    simp only [denseStride, maxHeapTuplesPerPage, Except.ok.injEq] at h h' hlarge hlarge'
    omega

/-- A packed TID has 64 bits. -/
theorem packTid_lt_two_pow {pk : TidPacking} {tid : ItemPointer} {packed : ℕ}
    (h : packTid pk tid = .ok packed) : packed < 2 ^ 64 := by
  have hblk := tid.blkidLt
  have hpos := tid.posidLt
  cases pk with
  | legacy =>
    simp only [packTid, legacy_eq, Except.ok.injEq] at h
    omega
  | dense =>
    simp only [packTid] at h
    split_ifs at h with hlarge
    simp only [denseStride, maxHeapTuplesPerPage, Except.ok.injEq] at h hlarge
    omega

/-- `PgTrePendingEntry`. -/
structure PgTrePendingEntry where
  trigramHash : UInt64
  tid : ℕ
  position : ℕ

/-- No entry is left unpacked in an empty list. -/
theorem noEntries_packed (pk : TidPacking) :
    ∀ e ∈ ([] : List PgTrePendingEntry), Packed pk e.tid := by
  simp

end PgTre
