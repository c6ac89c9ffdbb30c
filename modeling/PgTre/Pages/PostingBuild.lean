import PgTre.Pages.BulkDelete
import PgTre.Pages.PostingRead
import PgTre.Pages.UpperPage

/-!
# Building and reading a posting

`src/pages/posting.c` stores the TIDs of a trigram in one of four ways: inline in the upper leaf, in a
slot of a coalesced page, on a posting leaf, or on a chain of posting leaves. A probe that fills a map
of the size of a page decides first whether the TIDs are cut into slices, and then the size of their
map decides among the other three. The reader has the four ways back.

There is memory for every map. What a build does without it is an error.
-/

namespace PgTre

open Layout Sparsemap
open Bytes (SparsemapLibrary postingLeafBudget)

/-! ## The builder -/

/-- `INT_MAX`. -/
def intMax : ℕ := 2 ^ 31 - 1

/-- `PgTrePostingBuilder`: the packed TIDs, and the number of slots of their array. -/
structure PostingBuilder where
  trigramHash : UInt64
  packing : TidPacking
  tids : List ℕ
  tidsAlloced : ℕ
  minTid : ℕ
  maxTid : ℕ

/-- `pg_tre_posting_build_begin_sized`. The number of slots is cast to an `int`. -/
def pgTrePostingBuildBeginSized (pk : TidPacking) (trigramHash : UInt64) (expectedBytes : ℕ) :
    PostingBuilder where
  trigramHash := trigramHash
  packing := pk
  tids := []
  tidsAlloced := max (Int.bmod (expectedBytes / 8 : ℕ) (2 ^ 32)).toNat 64
  minTid := 2 ^ 64 - 1
  maxTid := 0

/-- `pg_tre_posting_build_add`. -/
def pgTrePostingBuildAdd (b : PostingBuilder) (tid : ItemPointer) : Except PgError PostingBuilder := do
  let packed ← packTid b.packing tid
  if b.tidsAlloced ≤ b.tids.length ∧ intMax / 2 < b.tidsAlloced then
    throw ⟨"pg_tre: posting builder TID array too large"⟩
  return { b with
    tids := b.tids ++ [packed]
    tidsAlloced := if b.tidsAlloced ≤ b.tids.length then b.tidsAlloced * 2 else b.tidsAlloced
    minTid := min packed b.minTid
    maxTid := max packed b.maxTid }

/-- A builder that was given some TIDs one after the other. -/
def postingBuilderOf (pk : TidPacking) (trigramHash : UInt64) (expectedBytes : ℕ)
    (tids : List ItemPointer) : Except PgError PostingBuilder :=
  tids.foldlM pgTrePostingBuildAdd (pgTrePostingBuildBeginSized pk trigramHash expectedBytes)

/-! ## The probe -/

/-- The sparsemap library as far as the probe uses it: `sm_create`, `sm_add_grow_cursor` and
`sm_get_capacity`. -/
structure GrowingMap where
  Map : Type
  create : ℕ → Map
  addGrow : Map → ℕ → Map
  capacity : Map → ℕ

/-- The loop of `leaf_fill_count`: the TIDs that are added before the map outgrows its capacity. -/
def fillWhile (g : GrowingMap) (cap₀ : ℕ) : g.Map → List ℕ → ℕ
  | _, [] => 0
  | fill, tid :: tids =>
      let fill := g.addGrow fill tid
      if cap₀ < g.capacity fill then 0 else fillWhile g cap₀ fill tids + 1

/-- `leaf_fill_count`. -/
def leafFillCount (g : GrowingMap) (tids : List ℕ) (budget : ℕ) : ℕ :=
  let fill := g.create budget
  let n := fillWhile g (g.capacity fill) fill tids
  if 0 < n then n else 1

/-! ## Leaves -/

/-- `sizeof(PgTrePostingLeafHeader)`. -/
def postingLeafHeaderBytes : ℕ := 40

/-- The page `write_single_leaf` writes for a posting without payload. -/
def postingLeafPage (data : List UInt8) (minTid maxTid nTids : ℕ) (rightLink : Option BlockNumber) :
    StoredPage where
  kind := .pagePostingL
  flags := 0
  pdLower := maxAlign sizeOfPageHeaderData + maxAlign postingLeafHeaderBytes + data.length
  contents := encodeBlock rightLink ++ (wordBytes 4 0 ++ (wordBytes 8 minTid ++ (wordBytes 8 maxTid ++
    (wordBytes 4 data.length ++ (wordBytes 4 0 ++ (wordBytes 4 0 ++
      (wordBytes 2 (min nTids (2 ^ 16 - 1)) ++ (wordBytes 2 0 ++ data))))))))

/-- `write_single_leaf` for a posting without payload, by a backend that holds some blocks. -/
def writeSingleLeaf (st : PageStore) (held : List BlockNumber) (trigramHash : UInt64)
    (data : List UInt8) (minTid maxTid nTids : ℕ) (rightLink : Option BlockNumber) :
    Except PgError (BlockNumber × PageStore) :=
  if postingLeafBudget < data.length then
    let hash := hexDigits 16 trigramHash.toNat
    let sz := data.length
    .error ⟨s!"pg_tre: posting leaf for trigram {hash} would hold {sz} bytes (sparsemap {sz} + " ++
      s!"payload 0), over the {postingLeafBudget}-byte page budget"⟩
  else
    let (blkno, st) := st.extend held .pagePostingL
    .ok (blkno, st.write blkno (postingLeafPage data minTid maxTid nTids rightLink))

/-- The loop that encodes the map of a leaf. When it has too many bytes, the leaf gets fewer TIDs. -/
def exactSlice (lib : SparsemapLibrary) (tids : List ℕ) (tidsInLeaf : ℕ) : ℕ × List UInt8 :=
  let slice := lib.encode (tids.take tidsInLeaf).toFinset
  if slice.length ≤ postingLeafBudget ∨ tidsInLeaf ≤ 1 then (tidsInLeaf, slice)
  else exactSlice lib tids (max (tidsInLeaf - (tidsInLeaf + 7) / 8) 1)
termination_by tidsInLeaf

/-- A probe finds room for one TID at least. -/
theorem leafFillCount_pos (g : GrowingMap) (tids : List ℕ) (budget : ℕ) :
    0 < leafFillCount g tids budget := by
  unfold leafFillCount
  simp only
  split_ifs with hn
  · exact hn
  · exact Nat.one_pos

/-- What a leaf is given: at least one TID, no more than the probe found room for, and the bytes of
their map. -/
theorem exactSlice_spec (lib : SparsemapLibrary) (tids : List ℕ) {n : ℕ} (hn : 0 < n) :
    0 < (exactSlice lib tids n).1 ∧ (exactSlice lib tids n).1 ≤ n ∧
      (exactSlice lib tids n).2 = lib.encode (tids.take (exactSlice lib tids n).1).toFinset ∧
      ((exactSlice lib tids n).2.length ≤ postingLeafBudget ∨ (exactSlice lib tids n).1 = 1) := by
  induction n using Nat.strong_induction_on with
  | _ n ih =>
    unfold exactSlice
    simp only
    split_ifs with hfits
    · refine ⟨hn, le_rfl, rfl, ?_⟩
      rcases hfits with hfits | hone
      · exact Or.inl hfits
      · exact Or.inr (by omega)
    · have hless : max (n - (n + 7) / 8) 1 < n := by omega
      obtain ⟨hpos, hle, hbytes, hlast⟩ := ih _ hless (by omega)
      exact ⟨hpos, by omega, hbytes, hlast⟩

/-- The loop over the leaves, from the first TIDs to the last. Each leaf links to the one before it;
the last one is the leftmost of the chain. -/
def writeLeaves (lib : SparsemapLibrary) (g : GrowingMap) (held : List BlockNumber)
    (trigramHash : UInt64) (st : PageStore) (tids : List ℕ) (rightLink : Option BlockNumber) :
    Except PgError (Option BlockNumber × PageStore) :=
  if tids = [] then .ok (rightLink, st)
  else
    let slice := exactSlice lib tids (leafFillCount g tids postingLeafBudget)
    let sliceSz := slice.2.length
    if postingLeafBudget < sliceSz then
      .error ⟨s!"pg_tre: multi-leaf slice exceeds budget ({sliceSz} > {postingLeafBudget})"⟩
    else
      match writeSingleLeaf st held trigramHash slice.2 (tids.headD 0)
          ((tids.take slice.1).getLastD 0) slice.1 rightLink with
      | .error e => .error e
      | .ok (blkno, st) =>
          writeLeaves lib g held trigramHash st (tids.drop slice.1) (some blkno)
termination_by tids.length
decreasing_by
  have hpos := (exactSlice_spec lib tids (leafFillCount_pos g tids postingLeafBudget)).1
  have hne : 0 < tids.length := List.length_pos_iff.mpr ‹_›
  rw [List.length_drop]
  omega

/-! ## The end of a build -/

/-- `PG_TRE_COALESCE_MAX`. -/
def pgTreCoalesceMax : ℕ := alignDown (pgTreCoalescedBudget / 2 - coalescedSlotBytes)

/-- What `pg_tre_posting_build_finish_ex` returns: the root, the inline bytes with their length, and
the block and the slot of a coalesced posting. -/
structure BuiltPosting where
  root : Option BlockNumber
  inlineData : Option (List UInt8)
  inlineBytes : ℕ
  coalesced : Option (BlockNumber × ℕ)
  deriving DecidableEq

/-- The block of the page that a coalescing writer holds. -/
def heldBlocks (cw : Option CoalescedWriter) : List BlockNumber :=
  match cw with
  | some (some page) => [page.blkno]
  | _ => []

/-- The posting without its payload, as a coalescing writer is given it. -/
def coalescedBlobOf (trigramHash : UInt64) (bytes : List UInt8) : CoalescedBlob :=
  ⟨trigramHash, bytes, 0, none, by simp⟩

/-- `multi`: the probe found no room for all TIDs on a page. -/
def PostingBuilder.multi (g : GrowingMap) (b : PostingBuilder) : Bool :=
  decide (b.tids ≠ []) && decide (leafFillCount g b.tids postingLeafBudget < b.tids.length)

/-- `pg_tre_posting_build_finish_ex`. The writer is `NULL` when postings are not coalesced. -/
def pgTrePostingBuildFinishEx (lib : SparsemapLibrary) (g : GrowingMap) (cw : Option CoalescedWriter)
    (st : PageStore) (b : PostingBuilder) :
    Except PgError (BuiltPosting × Option CoalescedWriter × PageStore) := do
  let multi := b.multi g
  let bytes := lib.encode b.tids.toFinset
  let sz := bytes.length
  if !multi ∧ sz ≤ pgTreInlinePostingMax then
    return (⟨none, some bytes, sz, none⟩, cw, st)
  match cw with
  | some w =>
      if !multi ∧ pgTreInlinePostingMax < sz ∧ sz ≤ pgTreCoalesceMax then
        let (place, w, st) ← pgTreCoalescedAdd w st (coalescedBlobOf b.trigramHash bytes)
        return (⟨none, none, 0, some place⟩, some w, st)
  | none => pure ()
  if !multi ∧ sz ≤ postingLeafBudget then
    let (blkno, st) ← writeSingleLeaf st (heldBlocks cw) b.trigramHash bytes b.minTid b.maxTid
      b.tids.length none
    return (⟨some blkno, none, 0, none⟩, cw, st)
  let (root, st) ← writeLeaves lib g (heldBlocks cw) b.trigramHash st b.tids none
  return (⟨root, none, 0, none⟩, cw, st)

/-! ## The reader -/

/-- The fields of `PgTrePostingLeafHeader` that a reader uses. -/
structure PostingLeafHeader where
  rightLink : Option BlockNumber
  sparsemapBytes : ℕ
  payloadBytes : ℕ
  payloadOffset : ℕ

/-- The header of a leaf in its page. -/
def readLeafHeader (page : StoredPage) : PostingLeafHeader where
  rightLink := decodeBlock (numberAt page.contents 0 4)
  sparsemapBytes := numberAt page.contents 24 4
  payloadBytes := numberAt page.contents 28 4
  payloadOffset := numberAt page.contents 32 4

/-- `posting_leaf_header_valid`. -/
def postingLeafHeaderValid (hdr : PostingLeafHeader) : Bool :=
  let headerEnd := maxAlign sizeOfPageHeaderData + maxAlign postingLeafHeaderBytes
  let usableEnd := blcksz - maxAlign sizeOfOpaque
  if postingLeafBudget < hdr.sparsemapBytes then false
  else if 0 < hdr.payloadBytes ∨ hdr.payloadOffset ≠ 0 then
    if hdr.payloadOffset < headerEnd then false
    else if usableEnd < hdr.payloadOffset then false
    else if usableEnd - hdr.payloadOffset < hdr.payloadBytes then false
    else true
  else true

/-- A leaf as `pg_tre_posting_materialize` reads it: its map and its right link. -/
def readPostingLeaf (lib : SparsemapLibrary) (st : PageStore) (blkno : BlockNumber) :
    Except MergeStop (Finset ℕ × Option BlockNumber) :=
  match st.read blkno .pagePostingL with
  | .error e => .error (.error e)
  | .ok page =>
      let hdr := readLeafHeader page
      if postingLeafHeaderValid hdr = false then
        .error (.error ⟨s!"pg_tre: corrupt posting leaf at block {blkno}"⟩)
      else
        match lib.smOpenCopy (page.region (maxAlign postingLeafHeaderBytes) hdr.sparsemapBytes) with
        | none => .error .null
        | some (sm, _) => .ok (sm, hdr.rightLink)

/-- The loop over the leaves of a chain, or nothing when the fuel runs out. -/
def mergeLeaves (lib : SparsemapLibrary) (st : PageStore) (root : BlockNumber) :
    ℕ → List Sm → Option BlockNumber → Option (Except MergeStop (List Sm))
  | _, slots, none => some (.ok slots)
  | 0, _, some _ => none
  | fuel + 1, slots, some blkno =>
      match readPostingLeaf lib st blkno with
      | .error stop => some (.error stop)
      | .ok (sm, next) =>
          match carryLeaf root slots sm with
          | .error stop => some (.error stop)
          | .ok slots => mergeLeaves lib st root fuel slots next

/-- `pg_tre_posting_materialize`. -/
def pgTrePostingMaterialize (lib : SparsemapLibrary) (st : PageStore) (fuel : ℕ)
    (root : Option BlockNumber) (inlineData : Option (List UInt8)) (inlineBytes : ℕ) :
    Option (Except PgError Sm) :=
  match inlineData with
  | some data => some (.ok ((lib.smOpenCopy (data.take inlineBytes)).map Prod.fst))
  | none =>
      match root with
      | none => some (.ok (some ∅))
      | some blkno =>
          if inlineBytes.testBit 31 then
            match pgTreCoalescedResolveSlot st blkno (inlineBytes % 2 ^ 16)
                (UInt64.ofNat coalescedHashAny) with
            | .error e => some (.error e)
            | .ok none => some (.ok none)
            | .ok (some blob) =>
                if blob = [] then some (.ok none)
                else some (.ok ((lib.smOpenCopy blob).map Prod.fst))
          else (mergeLeaves lib st blkno fuel emptySlots (some blkno)).map mergeReturn

/-- A posting read back as its upper leaf refers to it: a coalesced one has its slot with
`PG_TRE_COALESCED_FLAG`. -/
def BuiltPosting.materialize (lib : SparsemapLibrary) (st : PageStore) (fuel : ℕ)
    (out : BuiltPosting) : Option (Except PgError Sm) :=
  match out.coalesced with
  | some (blkno, slot) =>
      pgTrePostingMaterialize lib st fuel (some blkno) none (pgTreCoalescedFlag + slot)
  | none => pgTrePostingMaterialize lib st fuel out.root out.inlineData out.inlineBytes

end PgTre
