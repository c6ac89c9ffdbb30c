import PgTre.Pages.PostingBytes
import PgTre.Sparsemap.Format

/-!
# The library that postings are stored with

The sparsemap library as `src/util/sparsemap.c` has it: a map is filled with `sm_add_many_grow` and
takes the form with fewer bytes, and its bytes are read with `sm_open_copy` or `sm_open`. What
VACUUM and the round trip of a posting ask of a library holds of this one.
-/

namespace PgTre

open Sparsemap
open Bytes (SparsemapLibrary Storable)

/-! ## The library -/

/-- The map of some TIDs, filled with `sm_add_many_grow`. -/
def filledMap (tids : Finset ℕ) : SparseMap := addMany (.chunked []) (tids.sort (· ≤ ·))

/-- The library of `src/util/sparsemap.c`. A copy has 64 bytes of slack. -/
def sparsemapLibrary : SparsemapLibrary where
  encode tids := (filledMap tids).bytes
  smOpen bytes := ((openWrapped bytes).members, (openWrapped bytes).bytes.length)
  smOpenCopy bytes := (openCopy bytes 64).map fun m => (m.members, m.bytes.length)

section

variable {s tids : Finset ℕ} {tid : ℕ}

/-- A filled map has the TIDs. -/
theorem filledMap_spec (h : Storable s) : (filledMap s).Ok ∧ (filledMap s).members = s := by
  have hiff : ∀ n, SparseMap.Has (.chunked []) n ∨ n ∈ s.sort (· ≤ ·) ↔ n ∈ s := fun n =>
    (or_iff_right (not_has_nil n)).trans (Finset.mem_sort _)
  have hshort : Short (· ∈ s) := h.short
  have hroom : ∀ n ∈ s.sort (· ≤ ·), n + 2048 < 2 ^ 64 := by
    intro n hn
    have hlt := h.packed n ((Finset.mem_sort _).mp hn)
    omega
  obtain ⟨hok, hhas⟩ := @addMany_spec (.chunked []) (s.sort (· ≤ ·)) laid_nil hroom (hshort.congr hiff)
  exact ⟨hok, Finset.ext fun n => mem_membersOf.trans ((hhas n).trans (hiff n))⟩

/-- A copy of the bytes of a map is the map, whatever stands behind them. -/
theorem smOpenCopy_bytes {m : SparseMap} (h : m.Ok) (rest : List UInt8) :
    sparsemapLibrary.smOpenCopy (m.bytes ++ rest) = some (m.members, m.bytes.length) := by
  change (openCopy (m.bytes ++ rest) 64).map _ = _
  rw [openCopy_bytes h rest 64]
  rfl

/-- Every map has its header. -/
theorem header_le_length (m : SparseMap) : 8 ≤ m.bytes.length := by
  have hpos : 0 < (mapWords m).length := by cases m <;> exact Nat.succ_pos _
  rw [length_bytes]
  omega

/-- The library reads what it wrote. -/
theorem sparsemapLibrary_lawful : sparsemapLibrary.Lawful := by
  refine ⟨fun s hs => ?_, fun s rest hs => ?_, fun s _ => header_le_length _⟩
  · obtain ⟨hok, hmembers⟩ := filledMap_spec hs
    change ((openWrapped (filledMap s).bytes).members,
      (openWrapped (filledMap s).bytes).bytes.length) = _
    rw [openWrapped_bytes hok, hmembers]
    rfl
  · obtain ⟨hok, hmembers⟩ := filledMap_spec hs
    have hcopy := smOpenCopy_bytes hok rest
    rw [hmembers] at hcopy
    exact hcopy

/-! ## The bytes of a map -/

/-- A map is filled from a sorted list without sorting it again. -/
theorem filledMap_toFinset {ns : List ℕ} (hns : ns.Pairwise (· < ·)) (htwo : 2 ≤ ns.length) :
    filledMap ns.toFinset = tryDemote (unionRuns [] (coalesceSorted ns)) := by
  have hle : ns.Pairwise (· ≤ ·) := hns.imp Nat.le_of_lt
  have hsort : ns.toFinset.sort (· ≤ ·) = ns :=
    (List.toFinset_sort (· ≤ ·) (hns.imp Nat.ne_of_lt)).mpr hle
  rw [filledMap, hsort]
  cases ns with
  | nil => exact absurd htwo (by decide)
  | cons a ns =>
    cases ns with
    | nil => simp at htwo
    | cons b ns =>
      have hmerge : (a :: b :: ns).mergeSort (fun m n => m ≤ n) = a :: b :: ns :=
        List.mergeSort_of_pairwise (by simpa using hle)
      rw [addMany, addManyCore, hmerge]
      · rfl
      · simp
      · simp

/-- The number of bytes of the map, from the number of its words. -/
theorem length_encode_toFinset {ns : List ℕ} (hns : ns.Pairwise (· < ·)) (htwo : 2 ≤ ns.length) {k : ℕ}
    (hk : (mapWords (tryDemote (unionRuns [] (coalesceSorted ns)))).length = k) :
    (sparsemapLibrary.encode ns.toFinset).length = 8 * k := by
  change (filledMap ns.toFinset).bytes.length = 8 * k
  rw [length_bytes, filledMap_toFinset hns htwo, hk]

/-! ## A map of one TID -/

/-- The first number gets a fresh chunk. -/
theorem mapSet_nil (tid : ℕ) : mapSet [] tid = [freshChunk tid] := by
  unfold mapSet coalesceChunk setPlace
  dsimp only [locate]
  split_ifs <;> rfl

/-- A fresh chunk has at most one vector. -/
theorem length_vecs_freshChunk (tid : ℕ) : (freshChunk tid).vecs.length ≤ 1 := by
  have hstore : (Chunk.storeBit ⟨tid / 2048 * 2048, 0, []⟩ (tid % 2048)).vecs.length ≤ 1 := by
    unfold Chunk.storeBit
    split_ifs
    · exact Nat.zero_le _
    · exact List.length_insertIdx_le_succ
  unfold freshChunk Chunk.setBit Chunk.dropFull
  dsimp only
  split_ifs
  · exact Nat.zero_le _
  · exact (List.length_eraseIdx_le _ _).trans hstore
  · exact hstore

/-- A chunk stays as it is, or its map becomes a small one. -/
theorem tryDemote_single (c : Chunk) : tryDemote [c] = .chunked [c] ∨ tryDemote [c] = .chunked [] ∨
    ∃ (k : ℕ) (f : ℕ → ℕ), k ≤ 16 ∧ tryDemote [c] = .small ((List.range k).map f) := by
  unfold tryDemote
  dsimp only
  split_ifs with hstart hrle hlength hbytes
  · exact Or.inl rfl
  · exact Or.inl rfl
  · exact Or.inl rfl
  · have hmax : smallMaxBits = 1024 := rfl
    exact Or.inr (Or.inr ⟨_, _, by omega, rfl⟩)
  · cases hhi : hiWord c 32 with
    | none => exact Or.inr (Or.inl rfl)
    | some hi =>
      dsimp only
      split_ifs with hbits hbytes
      · exact Or.inl rfl
      · exact Or.inl rfl
      · have hmax : smallMaxBits = 1024 := rfl
        exact Or.inr (Or.inr ⟨_, _, by omega, rfl⟩)

/-- The bits of a small map of one number. -/
theorem smallBits_smallAdd (htid : tid < smallMaxBits) : smallBits (smallAdd [] tid) = [tid] := by
  obtain ⟨-, hhas⟩ := smallAdd_spec smallOk_nil htid
  have hnodup : (smallBits (smallAdd [] tid)).Nodup := (smallBits_sorted _).imp Nat.ne_of_lt
  refine List.perm_singleton.mp ((List.perm_ext_iff_of_nodup hnodup (List.nodup_singleton tid)).mpr ?_)
  intro n
  rw [mem_smallBits, hhas, List.mem_singleton]
  exact or_iff_right fun hn => absurd hn.lt_length (Nat.not_lt_zero _)

/-- The map of one TID has few words. -/
theorem length_mapWords_add (tid : ℕ) : (mapWords (add (.chunked []) tid)).length ≤ 17 := by
  have hfresh : (mapWords (.chunked [freshChunk tid])).length ≤ 17 := by
    have hvecs := length_vecs_freshChunk tid
    simp only [mapWords, chunkStream, chunkWords, List.flatMap_cons, List.flatMap_nil,
      List.append_nil, List.length_cons]
    omega
  unfold add
  dsimp only
  split_ifs with hsmall
  · unfold keepSmaller
    split_ifs
    · have hlen := (smallAdd_spec smallOk_nil hsmall).1.length_le
      exact Nat.succ_le_succ hlen
    · have heach : [tid].foldl mapSet [] = [freshChunk tid] := mapSet_nil tid
      unfold promote
      rw [smallBits_smallAdd hsmall]
      dsimp only
      rw [heach]
      cases runFromZero 0 false (smallAdd [] tid) with
      | none => exact hfresh
      | some len =>
        dsimp only
        rcases ite_eq_or_eq (len ≤ rleMax ∧ 24 < 24 + (if len % 64 ≠ 0 then 8 else 0))
          [(⟨0, rleDesc 2048 len, []⟩ : Chunk)] [freshChunk tid] with hrun | heach
        · rw [hrun]
          exact Nat.le_of_ble_eq_true rfl
        · rw [heach]
          exact hfresh
  · rw [mapSet_nil]
    rcases tryDemote_single (freshChunk tid) with hone | hnone | ⟨k, f, hk, hsmall⟩
    · rw [hone]
      exact hfresh
    · rw [hnone]
      exact Nat.le_of_ble_eq_true rfl
    · rw [hsmall, mapWords, List.length_cons, List.length_map, List.length_range]
      omega

/-- A single number is stored in 136 bytes at most. -/
theorem length_encode_single (tid : ℕ) : (sparsemapLibrary.encode {tid}).length ≤ 136 := by
  have hfilled : filledMap {tid} = add (.chunked []) tid := by
    rw [filledMap, Finset.sort_singleton]
    rfl
  have hlen := length_mapWords_add tid
  change (filledMap {tid}).bytes.length ≤ 136
  rw [length_bytes, hfilled]
  omega

end

end PgTre
