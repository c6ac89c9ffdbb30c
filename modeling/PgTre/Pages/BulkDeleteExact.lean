import PgTre.Pages.BulkDeleteIndex
import PgTre.Pages.SparsemapLibrary

/-!
# VACUUM removes the dead TIDs

When memory does not run out, the bulk delete ends with exactly the live TIDs in every posting that it
may rewrite. There is one posting that it leaves alone although it is neither coalesced nor on a leaf:
an inline one whose live TIDs would take more bytes than a leaf has. And a chain that several runs refer
to is counted once among the removed TIDs, but for each of them among the remaining ones.
-/

namespace PgTre.Bytes

open Allocating Procedure

/-! ## Lookup -/

/-- The search of `pg_tre_upper_lookup_root` in an upper leaf: the entry of a trigram, and the bytes
behind the blobs of the entries before it. -/
def upperLeafLookup (trigramHash : UInt64) (region : List UInt8) :
    List UpperLeafEntry → ℕ → Option (UpperLeafEntry × List UInt8)
  | [], _ => none
  | e :: entries, inlineOffset =>
      if e.trigramHash = trigramHash then
        some (e, (region.drop inlineOffset).take e.blobLength)
      else upperLeafLookup trigramHash region entries (inlineOffset + e.blobLength)

section

variable {lib : SparsemapLibrary} {leaves : BlockNumber → PostingLeafPage}

/-- A lookup finds the posting of the trigram. -/
theorem EntriesHold.lookup {entries : List UpperLeafEntry} {region : List UInt8} {offset : ℕ}
    {contents : List (UInt64 × Stored)}
    (h : EntriesHold lib leaves entries (region.drop offset) contents) {hash : UInt64}
    {stored : Stored} (hstored : contents.lookup hash = some stored) :
    ∃ e blob, upperLeafLookup hash region entries offset = some (e, blob) ∧
      EntryHolds lib leaves e blob stored := by
  induction entries generalizing offset contents with
  | nil =>
    cases contents with
    | nil => cases hstored
    | cons c contents => exact h.elim
  | cons e entries ih =>
    cases contents with
    | nil => exact h.elim
    | cons c contents =>
      obtain ⟨hash', stored'⟩ := c
      obtain ⟨hhash, -, hentry, hrest⟩ := entriesHold_cons.mp h
      unfold upperLeafLookup
      by_cases heq : e.trigramHash = hash
      · rw [if_pos heq]
        have hkey : (hash == hash') = true := by rw [← heq, hhash]; exact beq_self_eq_true _
        rw [List.lookup_cons, hkey, Option.some.injEq] at hstored
        rw [← hstored]
        exact ⟨e, _, rfl, hentry⟩
      · rw [if_neg heq]
        have hkey : (hash == hash') = false :=
          beq_eq_false_iff_ne.mpr fun hsame => heq (hhash.trans hsame.symm)
        rw [List.lookup_cons, hkey] at hstored
        rw [List.drop_drop] at hrest
        exact ih hrest hstored

end

/-! ## Every run -/

/-- The TIDs whose heap rows are dead. -/
def deadTids (pk : TidPacking) (callback : ItemPointer → Bool) (member : ℕ) : Bool :=
  callback (unpackTid pk member)

/-- When no request fails, VACUUM ends. Every entry of the index resolves to what is left of its own
posting. The TIDs that are removed are counted once, and those that remain once for every entry. -/
theorem postingBulkDelete_exact {lib : SparsemapLibrary} (hlib : lib.Lawful) (pk : TidPacking)
    (callback : ItemPointer → Bool) (trees : BlockNumber → UpperNode)
    (runs : List (Option BlockNumber)) {s : Store} {contents : BlockNumber → List (UInt64 × Stored)}
    (hnodup : (leavesOfRuns trees runs []).Nodup)
    (h : IndexHolds lib s (leavesOfRuns trees runs []) contents) {fails : ℕ → Bool}
    (hmet : ∀ n, fails n = false) :
    ∃ counts t contents',
      (((postingBulkDelete lib pk callback trees runs).exec s).run fails 0).1 = (.ok counts, t) ∧
      IndexHolds lib t (leavesOfRuns trees runs []) contents' ∧
      (∀ b ∈ leavesOfRuns trees runs [],
        List.Forall₂ (EntryAfter lib (deadTids pk callback) (Kept lib (deadTids pk callback)))
          (contents b) (contents' b) ∧
        ∀ hash stored, (contents' b).lookup hash = some stored →
          ∃ e blob, upperLeafLookup hash (t.upperLeaves b).region (t.upperLeaves b).entries 0 =
            some (e, blob) ∧ EntryHolds lib t.postingLeaves e blob stored) ∧
      counts.removed + storedSize contents' (leavesOfRuns trees runs []) =
        storedSize contents (leavesOfRuns trees runs []) ∧
      counts.remaining = indexSize contents' (leavesOfRuns trees runs []) := by
  have hmeets := @meets_deleteFromRuns lib (deadTids pk callback) false s _ contents hlib trees runs
    [] ⟨0, 0, 0, 0⟩ (List.Subset.refl _) hnodup h
  obtain ⟨counts, t, hresult, contents', hindex, hafter, -, hremoved, hremaining⟩ :=
    hmeets.run_met hmet (fun e t he => by cases he.1) 0
  rw [Nat.zero_add] at hremoved hremaining
  refine ⟨counts, t, contents', hresult, hindex, fun b hb => ⟨hafter b hb, ?_⟩, hremoved, hremaining⟩
  exact fun hash stored hstored => EntriesHold.lookup (hindex.entries b hb) hstored

/-! ## Two runs that share a chain -/

/-- The items without payload. -/
def bareItems (tids : Finset ℕ) : Items := (tids.sort (· ≤ ·)).map fun tid => (tid, [])

/-- The bare items of a set carry its numbers in ascending order. -/
theorem map_fst_bareItems (tids : Finset ℕ) :
    (bareItems tids).map Prod.fst = tids.sort (· ≤ ·) := by
  rw [bareItems, List.map_map]
  exact List.map_id _

/-- The bare items of a set hold it. -/
theorem tids_bareItems (tids : Finset ℕ) : (bareItems tids).tids = tids := by
  rw [Items.tids, map_fst_bareItems, Finset.sort_toFinset]

/-- The bare items of a storable set are well formed. -/
theorem bareItems_wf {tids : Finset ℕ} (h : Storable tids) : (bareItems tids).Wf := by
  refine ⟨?_, ?_, Or.inl fun item hitem => ?_⟩
  · rw [map_fst_bareItems]
    exact tids.sortedLT_sort.pairwise
  · rw [tids_bareItems]
    exact h
  · obtain ⟨tid, -, rfl⟩ := List.mem_map.mp hitem
    rfl

/-- Bare items carry no payload. -/
theorem payload_bareItems (tids : Finset ℕ) : (bareItems tids).payload = [] := by
  refine List.flatMap_eq_nil_iff.mpr fun item hitem => ?_
  obtain ⟨tid, -, rfl⟩ := List.mem_map.mp hitem
  rfl

/-- There are as many bare items as numbers. -/
theorem length_bareItems (tids : Finset ℕ) : (bareItems tids).length = tids.card := by
  rw [bareItems, List.length_map, Finset.length_sort]

/-- The live items are those of the live TIDs. -/
theorem live_bareItems (tids : Finset ℕ) (dead : ℕ → Bool) :
    (bareItems tids).live dead = bareItems (tids.filter fun tid => dead tid = false) := by
  have hsort : (tids.sort (· ≤ ·)).filter (fun tid => !dead tid) =
      (tids.filter fun tid => dead tid = false).sort (· ≤ ·) := by
    refine List.Perm.eq_of_pairwise (fun a b _ _ hab hba => Nat.le_antisymm hab hba)
      ((tids.pairwise_sort (· ≤ ·)).sublist List.filter_sublist) (Finset.pairwise_sort _ _) ?_
    refine (List.perm_ext_iff_of_nodup ((tids.sort_nodup (· ≤ ·)).sublist List.filter_sublist)
      (Finset.sort_nodup _ _)).mpr fun tid => ?_
    simp
  rw [Items.live, bareItems, List.filter_map, bareItems, ← hsort]
  rfl

/-- Without payload the bytes are those of the map. -/
theorem freshBytes_bareItems (lib : SparsemapLibrary) (tids : Finset ℕ) :
    freshBytes lib (bareItems tids) = lib.encode tids := by
  rw [freshBytes, payload_bareItems, tids_bareItems, List.append_nil]

/-- A posting leaf with the bytes of a map. -/
def mapLeaf (tids : Finset ℕ) (rightLink : Option BlockNumber) : PostingLeafPage :=
  ⟨rightLink, (tids.sort (· ≤ ·)).headD 0, (tids.sort (· ≤ ·)).getLastD 0, sparsemapLibrary.encode tids,
    [], 0, tids.card, false⟩

/-- A leaf that stores the bytes of a set holds its bare items. -/
theorem mapLeaf_holds {tids : Finset ℕ} (h : Storable tids)
    (hfits : (sparsemapLibrary.encode tids).length ≤ postingLeafBudget)
    (rightLink : Option BlockNumber) :
    LeafHolds sparsemapLibrary (mapLeaf tids rightLink) (bareItems tids) := by
  refine .fresh sparsemapLibrary_lawful (bareItems_wf h) ?_ ?_ (payload_bareItems tids).symm rfl
  · rw [freshBytes_bareItems]
    exact hfits
  · rw [tids_bareItems]
    rfl

/-- The number of bytes of the maps of two numbers. -/
theorem length_encode_pairs : (sparsemapLibrary.encode {5, 6}).length = 16 ∧
    (sparsemapLibrary.encode {5, 8}).length = 16 := by
  constructor
  · exact @length_encode_toFinset [5, 6] (by decide) (by decide) 2 (by decide +kernel)
  · exact @length_encode_toFinset [5, 8] (by decide) (by decide) 2 (by decide +kernel)

/-- A registered run and the base tree that a merge has built since. The first has an inline posting,
and both refer to a chain of two leaves. -/
def sharedStore : Store where
  upperLeaves b :=
    if b = 1 then ⟨[⟨7, none, 16⟩, ⟨8, some 3, 0⟩], sparsemapLibrary.encode {5, 6}⟩
    else ⟨[⟨8, some 3, 0⟩], []⟩
  postingLeaves b := if b = 3 then mapLeaf {5, 8} (some 4) else mapLeaf {11} none
  freePages := []
  nBlocks := 5

/-- The chain. -/
def sharedChain : Chain := [(3, bareItems {5, 8}), (4, bareItems {11})]

/-- What the index holds. -/
def sharedContents (b : BlockNumber) : List (UInt64 × Stored) :=
  if b = 1 then [(7, .inline 16 (bareItems {5, 6})), (8, .chain sharedChain)]
  else [(8, .chain sharedChain)]

/-- The shared chain is stored at block 3. -/
theorem sharedChain_holds : ChainHolds sparsemapLibrary sharedStore.postingLeaves (some 3)
    sharedChain := by
  have hfits := length_encode_single 11
  have hpair := length_encode_pairs.2
  refine ⟨rfl, mapLeaf_holds (storable_of_card (by decide) (by decide)) ?_ _, rfl,
    mapLeaf_holds (storable_of_card (by decide) (by decide)) ?_ _, rfl⟩
  · rw [hpair]
    decide
  · exact hfits.trans (by decide)

/-- The store holds the two runs that share the chain. -/
theorem sharedStore_holds : IndexHolds sparsemapLibrary sharedStore [1, 2] sharedContents := by
  have hwf : (bareItems {5, 6}).Wf := bareItems_wf (storable_of_card (by decide) (by decide))
  have hblob := BlobHolds.fresh sparsemapLibrary_lawful hwf
  rw [freshBytes_bareItems] at hblob
  have hlength := length_encode_pairs.1
  have hchain := sharedChain_holds
  have hblocks : ∀ b ∈ [1, 2], chainsOf (sharedContents b) = [sharedChain] := by
    intro b hb
    rcases List.mem_cons.mp hb with rfl | hb
    · rfl
    · rw [List.mem_singleton.mp hb]
      rfl
  refine ⟨fun b hb => ?_, fun b hb => ?_, fun b hb b' hb' _ c hc c' hc' => ?_, List.nodup_nil,
    fun b hb => (by cases hb)⟩
  · rcases List.mem_cons.mp hb with rfl | hb
    · refine ⟨rfl, ?_, ⟨rfl, by decide, rfl, ?_⟩, rfl, Nat.zero_le _, ⟨rfl, rfl, hchain⟩, trivial⟩
      · exact hlength.ge
      · change BlobHolds _ ((sparsemapLibrary.encode {5, 6}).take 16) _
        rw [← hlength, List.take_length]
        exact hblob
    · rw [List.mem_singleton.mp hb]
      exact ⟨rfl, Nat.zero_le _, ⟨rfl, rfl, hchain⟩, trivial⟩
  · have hbs : chainBlocks (sharedContents b) = [3, 4] := by
      rw [← blocksOf_chainsOf, hblocks b hb]
      rfl
    constructor
    · rw [hbs]
      decide
    · intro k hk
      rw [hbs] at hk
      refine ⟨?_, List.not_mem_nil⟩
      have hlt : ∀ k ∈ [3, 4], k < 5 := by decide
      exact hlt k hk
  · rw [hblocks b hb] at hc
    rw [hblocks b' hb'] at hc'
    exact Or.inl ((List.mem_singleton.mp hc).trans (List.mem_singleton.mp hc').symm)

/-- The upper trees are two upper leaves. -/
def twoLeafTrees (root : BlockNumber) : UpperNode := .leaf root

/-- Rows with offset 5 or 11 are dead. -/
def sharedCallback (tid : ItemPointer) : Bool := decide (tid.posid = 5 ∨ tid.posid = 11)

/-- Of the five TIDs three are dead, one of them inline and two on the chain. -/
theorem postingBulkDelete_exact_shared :
    ∃ counts t contents',
      (((postingBulkDelete sparsemapLibrary .dense sharedCallback twoLeafTrees
        [some 1, some 2]).exec sharedStore).run (fun _ => false) 0).1 = (.ok counts, t) ∧
      IndexHolds sparsemapLibrary t [1, 2] contents' ∧
      counts.removed + storedSize contents' [1, 2] = storedSize sharedContents [1, 2] ∧
      counts.remaining = indexSize contents' [1, 2] := by
  obtain ⟨counts, t, contents', hresult, hindex, -, hremoved, hremaining⟩ :=
    @postingBulkDelete_exact _ sparsemapLibrary_lawful .dense sharedCallback twoLeafTrees
      [some 1, some 2] _ _ (by decide) sharedStore_holds (fun _ => false) fun _ => rfl
  exact ⟨counts, t, contents', hresult, hindex, hremoved, hremaining⟩

/-! ## A posting that is left alone -/

/-- A vector none of whose numbers has offset 0 in the dense packing. -/
def wideVector (i : ℕ) : Bool := decide (0 < 64 * i % 292 ∧ 64 * i % 292 + 63 < 292)

/-- The flags of a chunk all of whose wide vectors are full. -/
def wideFlags (c : ℕ) : List ℕ :=
  (List.range 32).map fun i => if wideVector (32 * c + i) = true then 3 else 0

def wideChunk (c : ℕ) : Sparsemap.Chunk := ⟨2048 * c, Sparsemap.packFlags (wideFlags c), []⟩

/-- A map of 38 such chunks. -/
def wideMap : Sparsemap.SparseMap := .chunked ((List.range 38).map wideChunk)

/-- Its TIDs. -/
def wideTids : Finset ℕ := (Finset.range (38 * 2048)).filter fun tid => wideVector (tid / 64) = true

/-- One row of each vector is not dead. -/
def wideCallback (tid : ItemPointer) : Bool := decide ((292 * tid.blkid + tid.posid) % 64 ≠ 1)

/-- The TIDs that are not dead. -/
def liveList : List ℕ := ((List.range (38 * 32)).filter wideVector).map (64 * · + 1)

/-- A slot of the wide chunk is mixed where a wide number lies and empty elsewhere. -/
theorem flagsAt_wideChunk (c : ℕ) {i : ℕ} (hi : i < 32) : Sparsemap.flagsAt (wideChunk c).desc i =
    if wideVector (32 * c + i) = true then 3 else 0 := by
  have hlt : ∀ f ∈ wideFlags c, f < 4 := by
    intro f hf
    obtain ⟨i, -, rfl⟩ := List.mem_map.mp hf
    split_ifs <;> decide
  rw [wideChunk, Sparsemap.flagsAt_packFlags hlt, wideFlags, List.getD_eq_getElem?_getD,
    List.getElem?_map, List.getElem?_range hi]
  rfl

/-- The first 38 wide chunks are sparse. -/
theorem sparse_wideChunk {c : ℕ} (hc : c < 38) : (wideChunk c).Sparse := by
  have hlt : ∀ f ∈ wideFlags c, f < 4 := by
    intro f hf
    obtain ⟨i, -, rfl⟩ := List.mem_map.mp hf
    split_ifs <;> decide
  have hflags := Sparsemap.packFlags_lt hlt
  rw [wideFlags, List.length_map, List.length_range] at hflags
  refine ⟨⟨c, rfl⟩, ?_, hflags, fun i hi => ?_, ?_, fun v hv => (by cases hv)⟩
  · change 2048 * c + 2048 < 2 ^ 64
    omega
  · rw [flagsAt_wideChunk c hi]
    split_ifs <;> decide
  · refine (List.countP_eq_zero.mpr fun i hi => ?_).symm
    rw [flagsAt_wideChunk c (List.mem_range.mp hi)]
    split_ifs <;> decide

/-- The numbers of a chunk are those of its wide vectors. -/
theorem holds_wideChunk {c n : ℕ} (hc : c < 38) :
    (wideChunk c).Holds n ↔ n / 2048 = c ∧ wideVector (n / 64) = true := by
  rw [(sparse_wideChunk hc).holds, Sparsemap.InWindow]
  change 2048 * c ≤ n ∧ n < 2048 * c + 2048 ∧ _ ↔ _
  have hbit (hlo : 2048 * c ≤ n) (hhi : n < 2048 * c + 2048) :
      ((wideChunk c).words ((n - 2048 * c) / 64)).testBit ((n - 2048 * c) % 64) =
        wideVector (n / 64) := by
    have hi : (n - 2048 * c) / 64 < 32 := by omega
    have hplace : 32 * c + (n - 2048 * c) / 64 = n / 64 := by omega
    have hmod : (n - 2048 * c) % 64 < 64 := Nat.mod_lt _ (by decide)
    rw [Sparsemap.Chunk.words, flagsAt_wideChunk c hi, hplace]
    by_cases hwide : wideVector (n / 64) = true
    · rw [if_pos hwide, if_neg (by decide), if_pos rfl, hwide, Sparsemap.onesVector,
        Nat.testBit_two_pow_sub_one]
      exact decide_eq_true hmod
    · rw [if_neg hwide, if_neg (by decide), if_neg (by decide), Nat.zero_testBit]
      exact ((Bool.not_eq_true _).mp hwide).symm
  constructor
  · rintro ⟨hlo, hhi, hset⟩
    rw [← hbit hlo hhi]
    exact ⟨by omega, hset⟩
  · rintro ⟨hdiv, hwide⟩
    have hlo : 2048 * c ≤ n := by omega
    have hhi : n < 2048 * c + 2048 := by omega
    exact ⟨hlo, hhi, (hbit hlo hhi).trans hwide⟩

/-- The wide map is well formed. -/
theorem ok_wideMap : wideMap.Ok := by
  have hsome : ∀ c < 38, ∃ i < 32, wideVector (32 * c + i) = true := by decide +kernel
  refine ⟨fun d hd => ?_, ?_⟩
  · obtain ⟨c, hc, rfl⟩ := List.mem_map.mp hd
    have hlt := List.mem_range.mp hc
    obtain ⟨i, hi, hwide⟩ := hsome c hlt
    refine (sparse_wideChunk hlt).ok ⟨2048 * c + 64 * i, (holds_wideChunk hlt).mpr ⟨by omega, ?_⟩⟩
    have hplace : (2048 * c + 64 * i) / 64 = 32 * c + i := by omega
    rw [hplace]
    exact hwide
  · rw [List.pairwise_map]
    refine List.pairwise_lt_range.imp_of_mem fun {c d} hc _ hlt => ?_
    rw [(sparse_wideChunk (List.mem_range.mp hc)).stop_eq]
    change 2048 * c + 2048 ≤ 2048 * d
    omega

/-- The wide map's members are the wide TIDs. -/
theorem members_wideMap : wideMap.members = wideTids := by
  ext n
  rw [Sparsemap.mem_membersOf, wideTids, Finset.mem_filter, Finset.mem_range]
  change (∃ d ∈ (List.range 38).map wideChunk, d.Holds n) ↔ _
  constructor
  · rintro ⟨d, hd, hholds⟩
    obtain ⟨c, hc, rfl⟩ := List.mem_map.mp hd
    have hlt := List.mem_range.mp hc
    obtain ⟨hdiv, hwide⟩ := (holds_wideChunk hlt).mp hholds
    exact ⟨by omega, hwide⟩
  · rintro ⟨hlt, hwide⟩
    have hchunk : n / 2048 < 38 := by omega
    exact ⟨_, List.mem_map_of_mem (List.mem_range.mpr hchunk),
      (holds_wideChunk hchunk).mpr ⟨rfl, hwide⟩⟩

/-- No run of the TIDs is long. -/
theorem storable_wideTids : Storable wideTids := by
  refine storable_of_card (fun tid htid => ?_) ?_
  · have hlt := Finset.mem_range.mp (Finset.mem_filter.mp htid).1
    omega
  · refine (Finset.card_filter_le _ _).trans ?_
    rw [Finset.card_range]
    decide

/-- Where all vectors are full the map is short, and with one number in each of them it is not. -/
theorem length_wideMap : wideMap.bytes.length = 616 ∧
    (sparsemapLibrary.encode liveList.toFinset).length = 8208 := by
  constructor
  · rw [Sparsemap.length_bytes]
    decide +kernel
  · refine @length_encode_toFinset liveList ?_ ?_ 1026 ?_
    · rw [liveList, List.pairwise_map]
      exact (List.pairwise_lt_range.sublist List.filter_sublist).imp fun hlt => by omega
    · decide +kernel
    · decide +kernel

/-- What is left of the TIDs. -/
theorem live_wideTids : wideTids.filter (fun tid => deadTids .dense wideCallback tid = false) =
    liveList.toFinset := by
  ext tid
  have hback : 292 * (unpackTid .dense tid).blkid + (unpackTid .dense tid).posid = tid ∨
      38 * 2048 ≤ tid := by
    by_cases hlt : tid < 38 * 2048
    · left
      simp only [unpackTid, denseStride, maxHeapTuplesPerPage]
      omega
    · exact Or.inr (Nat.not_lt.mp hlt)
  simp only [wideTids, liveList, Finset.mem_filter, Finset.mem_range, List.mem_toFinset, List.mem_map,
    List.mem_filter, List.mem_range, deadTids, wideCallback, decide_eq_false_iff_not, not_not]
  constructor
  · rintro ⟨⟨hlt, hwide⟩, hmod⟩
    rw [hback.resolve_right (by omega)] at hmod
    exact ⟨tid / 64, ⟨by omega, hwide⟩, by omega⟩
  · rintro ⟨i, ⟨hi, hwide⟩, rfl⟩
    have hdiv : (64 * i + 1) / 64 = i := by omega
    rw [hback.resolve_right (by omega), hdiv]
    exact ⟨⟨by omega, hwide⟩, by omega⟩

/-- An index whose only posting is inline, in the bytes of this map. -/
def wideStore : Store where
  upperLeaves _ := ⟨[⟨7, none, 616⟩], wideMap.bytes⟩
  postingLeaves _ := ⟨none, 0, 0, [], [], 0, 0, false⟩
  freePages := []
  nBlocks := 2

/-- What it holds. -/
def wideContents : List (UInt64 × Stored) := [(7, .inline 616 (bareItems wideTids))]

/-- The store holds the run with the wide posting. -/
theorem wideStore_holds : IndexHolds sparsemapLibrary wideStore [1] fun _ => wideContents := by
  have hlength := length_wideMap.1
  have hopen := smOpenCopy_bytes ok_wideMap []
  rw [List.append_nil, members_wideMap] at hopen
  have hblob : BlobHolds sparsemapLibrary wideMap.bytes (bareItems wideTids) := by
    refine ⟨⟨_, ?_, le_rfl, ?_⟩, ?_, bareItems_wf storable_wideTids⟩
    · rw [tids_bareItems]
      exact hopen
    · rw [payload_bareItems, List.drop_length]
    · intro hnil
      rw [hnil] at hlength
      cases hlength
  have hentries : EntriesHold sparsemapLibrary wideStore.postingLeaves [⟨7, none, 616⟩] wideMap.bytes
      wideContents := by
    refine ⟨rfl, hlength.ge, ⟨rfl, by decide, rfl, ?_⟩, trivial⟩
    change BlobHolds _ (wideMap.bytes.take 616) _
    rw [← hlength, List.take_length]
    exact hblob
  exact ⟨fun _ _ => hentries, fun _ _ => ⟨List.nodup_nil, fun b hb => (by cases hb)⟩,
    fun _ _ _ _ _ c hc => (by cases hc), List.nodup_nil, fun b hb => (by cases hb)⟩

/-- VACUUM of an index with one upper leaf. -/
theorem bulkDelete_oneLeaf {lib : SparsemapLibrary} (hlib : lib.Lawful) (callback : ItemPointer → Bool)
    {s : Store} {contents : List (UInt64 × Stored)} (h : IndexHolds lib s [1] fun _ => contents) :
    ∃ counts t contents',
      (((postingBulkDelete lib .dense callback twoLeafTrees [some 1]).exec s).run
        (fun _ => false) 0).1 = (.ok counts, t) ∧ IndexHolds lib t [1] contents' ∧
      List.Forall₂ (EntryAfter lib (deadTids .dense callback) (Kept lib (deadTids .dense callback)))
        contents (contents' 1) := by
  have hmeets := @meets_deleteFromRuns lib (deadTids .dense callback) false s _ (fun _ => contents) hlib
    twoLeafTrees [some 1] [] ⟨0, 0, 0, 0⟩ (List.Subset.refl _) (by decide) h
  obtain ⟨counts, t, hresult, contents', hindex, hafter, -⟩ :=
    hmeets.run_met (fun _ => rfl : ∀ n, (fun _ => false) n = false) (fun e t he => by cases he.1) 0
  exact ⟨counts, t, contents', hresult, hindex, hafter 1 List.mem_cons_self⟩

/-- VACUUM keeps the dead TIDs of the inline posting: its 616 bytes would become 8208. -/
theorem wideStore_keeps : ∃ counts t e blob,
    (((postingBulkDelete sparsemapLibrary .dense wideCallback twoLeafTrees [some 1]).exec
      wideStore).run (fun _ => false) 0).1 = (.ok counts, t) ∧
    upperLeafLookup 7 (t.upperLeaves 1).region (t.upperLeaves 1).entries 0 = some (e, blob) ∧
    e.coalesced = false ∧ e.postingRoot = none ∧
    BlobHolds sparsemapLibrary blob (bareItems wideTids) := by
  obtain ⟨counts, t, contents', hresult, hindex, hafter⟩ :=
    bulkDelete_oneLeaf sparsemapLibrary_lawful wideCallback wideStore_holds
  have hfresh : freshBytes sparsemapLibrary ((bareItems wideTids).live (deadTids .dense wideCallback)) =
      sparsemapLibrary.encode liveList.toFinset := by
    rw [live_bareItems, live_wideTids, freshBytes_bareItems]
  have hlength := length_wideMap.2
  have hbudget : postingLeafBudget = 8120 := rfl
  rw [← hfresh] at hlength
  have hlost : (bareItems wideTids).live (deadTids .dense wideCallback) ≠ bareItems wideTids := by
    intro hsame
    have hmem : 64 ∈ (bareItems wideTids).tids := by
      rw [tids_bareItems, wideTids, Finset.mem_filter, Finset.mem_range]
      decide
    rw [← hsame, live_bareItems, tids_bareItems, live_wideTids] at hmem
    simp only [liveList, List.mem_toFinset, List.mem_map] at hmem
    obtain ⟨i, -, hi⟩ := hmem
    omega
  have hposting : contents' 1 = wideContents := by
    obtain ⟨⟨hash, stored⟩, rest, ⟨hhash, hstored⟩, hrest, heq⟩ :=
      List.forall₂_cons_left_iff.mp hafter
    have hdeferred := hstored.eq_of_deferred hlost (by omega) (by omega)
    simp only at hhash hdeferred
    rw [heq, List.forall₂_nil_left_iff.mp hrest, hhash, hdeferred]
    rfl
  have hstored : (contents' 1).lookup 7 = some (.inline 616 (bareItems wideTids)) := by
    rw [hposting]
    rfl
  obtain ⟨e, blob, hlookup, hbytes, hsmall, hroot, hblob⟩ :=
    @EntriesHold.lookup _ _ _ _ 0 _ (hindex.entries 1 List.mem_cons_self) 7 _ hstored
  exact ⟨counts, t, e, blob, hresult, hlookup,
    UpperLeafEntry.coalesced_eq_false (hbytes ▸ hsmall), hroot,
    hblob⟩

/-! ## A chain that is counted twice -/

/-- Of the chain the leaf with the live TID stays. -/
theorem keptChain_sharedChain :
    keptChain sparsemapLibrary (deadTids .dense sharedCallback) sharedChain =
      [(3, bareItems {8})] := by
  have hlive : ∀ (tids live : Finset ℕ),
      tids.filter (fun tid => deadTids .dense sharedCallback tid = false) = live →
      (sparsemapLibrary.encode live).length ≤ postingLeafBudget →
      keptItems sparsemapLibrary (deadTids .dense sharedCallback) (bareItems tids) =
        bareItems live := by
    intro tids live heq hfits
    rw [keptItems, live_bareItems, heq, freshBytes_bareItems, if_neg (Nat.not_lt.mpr hfits)]
  have hhead := hlive {5, 8} {8} (by decide) ((length_encode_single 8).trans (by decide))
  have hempty : (sparsemapLibrary.encode ∅).length ≤ postingLeafBudget := by
    change (filledMap ∅).bytes.length ≤ _
    rw [filledMap, Finset.sort_empty]
    decide
  have htail := hlive {11} ∅ (by decide) hempty
  have hnil : bareItems ∅ = [] := by rw [bareItems, Finset.sort_empty, List.map_nil]
  rw [hnil] at htail
  rw [sharedChain, keptChain, hhead, keptTail, List.map_cons, htail]
  rfl

/-- Two TIDs remain, and three are counted. -/
theorem sharedStore_counts : ∃ counts t contents',
    (((postingBulkDelete sparsemapLibrary .dense sharedCallback twoLeafTrees
      [some 1, some 2]).exec sharedStore).run (fun _ => false) 0).1 = (.ok counts, t) ∧
    IndexHolds sparsemapLibrary t [1, 2] contents' ∧
    counts.remaining = 3 ∧ storedSize contents' [1, 2] = 2 := by
  have hmeets := @meets_deleteFromRuns sparsemapLibrary (deadTids .dense sharedCallback) false _ _ _
    sparsemapLibrary_lawful twoLeafTrees [some 1, some 2] [] ⟨0, 0, 0, 0⟩ (List.Subset.refl _)
    (by decide) sharedStore_holds
  obtain ⟨counts, t, hresult, contents', hindex, hafter, -, -, hremaining⟩ :=
    hmeets.run_met (fun _ => rfl : ∀ n, (fun _ => false) n = false) (fun e t he => by cases he.1) 0
  have hlive : (bareItems {5, 6}).live (deadTids .dense sharedCallback) = bareItems {6} := by
    rw [live_bareItems]
    rfl
  have hsix : (sparsemapLibrary.encode {6}).length = 16 := by
    change (filledMap {6}).bytes.length = 16
    rw [Sparsemap.length_bytes, filledMap, Finset.sort_singleton]
    decide +kernel
  have hchain {stored : Stored} (h : StoredAfter sparsemapLibrary (deadTids .dense sharedCallback)
      (Kept sparsemapLibrary (deadTids .dense sharedCallback)) (.chain sharedChain) stored) :
      stored = .chain [(3, bareItems {8})] := by
    cases h with
    | chain hlinks => rw [hlinks, keptChain_sharedChain]
  have hinline {stored : Stored} (h : StoredAfter sparsemapLibrary (deadTids .dense sharedCallback)
      (Kept sparsemapLibrary (deadTids .dense sharedCallback)) (.inline 16 (bareItems {5, 6})) stored) :
      ∃ bytes, stored = .inline bytes (bareItems {6}) := by
    cases h with
    | kept hbytes hfits => exact ⟨_, by rw [hlive]⟩
    | migrated b hgrows hfits =>
      rw [hlive, freshBytes_bareItems, hsix] at hgrows
      exact absurd hgrows (by decide)
    | deferred hgrows hover =>
      rw [hlive, freshBytes_bareItems, hsix] at hgrows
      exact absurd hgrows (by decide)
  obtain ⟨bytes, hfirst⟩ : ∃ bytes, contents' 1 =
      [(7, .inline bytes (bareItems {6})), (8, .chain [(3, bareItems {8})])] := by
    obtain ⟨⟨hash, stored⟩, rest, ⟨hhash, hstored⟩, hrest, heq⟩ :=
      List.forall₂_cons_left_iff.mp (hafter 1 List.mem_cons_self)
    obtain ⟨⟨hash', stored'⟩, rest', ⟨hhash', hstored'⟩, hrest', rfl⟩ :=
      List.forall₂_cons_left_iff.mp hrest
    obtain ⟨bytes, rfl⟩ := hinline hstored
    obtain rfl := hchain hstored'
    simp only at hhash hhash'
    exact ⟨bytes, by rw [heq, List.forall₂_nil_left_iff.mp hrest', hhash, hhash']⟩
  have hsecond : contents' 2 = [(8, .chain [(3, bareItems {8})])] := by
    obtain ⟨⟨hash, stored⟩, rest, ⟨hhash, hstored⟩, hrest, heq⟩ :=
      List.forall₂_cons_left_iff.mp (hafter 2 (List.mem_cons_of_mem _ List.mem_cons_self))
    obtain rfl := hchain hstored
    simp only at hhash
    rw [heq, List.forall₂_nil_left_iff.mp hrest, hhash]
  refine ⟨counts, t, contents', hresult, hindex, ?_, ?_⟩
  · have hsize : indexSize contents' [1, 2] = 3 := by
      simp [indexSize, hfirst, hsecond, contentsSize, Stored.size, chainSize, length_bareItems]
    exact hremaining.trans ((Nat.zero_add _).trans hsize)
  · have hlinks : linksOf (contents' 1) = linksOf (contents' 2) := by
      rw [hfirst, hsecond]
      rfl
    have hone : linksOf (contents' 2) = {(3, bareItems {8})} := by
      rw [hsecond]
      rfl
    have hleaves : (([1, 2] : List BlockNumber).toFinset.biUnion fun b => linksOf (contents' b)) =
        {(3, bareItems {8})} := by
      have hset : ([1, 2] : List BlockNumber).toFinset = {1, 2} := rfl
      rw [hset, Finset.biUnion_insert, Finset.singleton_biUnion, hlinks, hone, Finset.union_self]
    rw [storedSize, hleaves, Finset.sum_singleton]
    simp [hfirst, hsecond, contentsInlineSize, Stored.size, Stored.leafSize, length_bareItems]

/-- VACUUM keeps dead TIDs of an inline posting that is not coalesced, and it counts more TIDs as
remaining than the postings have. -/
theorem postingBulkDelete_exceptions :
    (IndexHolds sparsemapLibrary wideStore (leavesOfRuns twoLeafTrees [some 1] [])
      (fun _ => wideContents) ∧
      ∃ counts t e blob, (((postingBulkDelete sparsemapLibrary .dense wideCallback twoLeafTrees
          [some 1]).exec wideStore).run (fun _ => false) 0).1 = (.ok counts, t) ∧
        upperLeafLookup 7 (t.upperLeaves 1).region (t.upperLeaves 1).entries 0 = some (e, blob) ∧
        e.coalesced = false ∧ e.postingRoot = none ∧
        BlobHolds sparsemapLibrary blob (bareItems wideTids) ∧ 64 ∈ (bareItems wideTids).tids ∧
        deadTids .dense wideCallback 64 = true) ∧
    IndexHolds sparsemapLibrary sharedStore (leavesOfRuns twoLeafTrees [some 1, some 2] [])
        sharedContents ∧
      ∃ counts t contents', (((postingBulkDelete sparsemapLibrary .dense sharedCallback twoLeafTrees
          [some 1, some 2]).exec sharedStore).run (fun _ => false) 0).1 = (.ok counts, t) ∧
        IndexHolds sparsemapLibrary t [1, 2] contents' ∧
        counts.remaining = 3 ∧ storedSize contents' [1, 2] = 2 := by
  obtain ⟨counts, t, e, blob, hresult, hlookup, hflag, hroot, hblob⟩ := wideStore_keeps
  refine ⟨⟨wideStore_holds, counts, t, e, blob, hresult, hlookup, hflag, hroot, hblob, ?_, by decide⟩,
    sharedStore_holds, sharedStore_counts⟩
  rw [tids_bareItems, wideTids, Finset.mem_filter, Finset.mem_range]
  decide

end PgTre.Bytes
