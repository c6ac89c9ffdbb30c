import PgTre.Pages.PostingBytes
import PgTre.Util.LinkedChain

/-!
# VACUUM of the postings

`pg_tre_posting_bulk_delete` of `src/pages/posting.c` visits every upper leaf of every run once. It
repacks the inline postings of the leaf, whose blobs stand one after the other behind the entries and
are found only by the sum of the lengths before them. Then it walks the leaf chains of the other
postings, repacks their leaves and unlinks those that become empty. Coalesced postings are left
alone.

A map with fewer TIDs may take more bytes. An inline posting that outgrows its slot moves to a leaf of
its own, and what does not fit a leaf stays as it was.
-/

namespace PgTre.Bytes

open Allocating Procedure

/-! ## Pages -/

/-- `posting_leaf_budget` for pages of 8192 bytes: the page header takes 24 of them, the header of
the leaf 40 and the opaque area 8. -/
def postingLeafBudget : ℕ := 8192 - 24 - 40 - 8

/-- A posting leaf. -/
structure PostingLeafPage where
  rightLink : Option BlockNumber
  minTid : ℕ
  maxTid : ℕ
  /-- The bytes of the map; `sparsemap_bytes` is their number. -/
  smBytes : List UInt8
  /-- The payload region; `payload_bytes` is its length. -/
  payload : List UInt8
  payloadOffset : ℕ
  nEntries : ℕ
  /-- `PG_TRE_LEAF_DELETED`. -/
  deleted : Bool

/-- `PgTreUpperLeafEntry`. -/
structure UpperLeafEntry where
  trigramHash : UInt64
  postingRoot : Option BlockNumber
  /-- The length of the inline blob, or `PG_TRE_COALESCED_FLAG` and a slot. -/
  inlineBytes : ℕ

/-- The entry has `PG_TRE_COALESCED_FLAG`. -/
def UpperLeafEntry.coalesced (e : UpperLeafEntry) : Bool := e.inlineBytes.testBit 31

/-- An upper leaf: its entries and the bytes behind them, up to `pd_lower`. -/
structure UpperLeafPage where
  entries : List UpperLeafEntry
  region : List UInt8

/-- The number of bytes the entry takes of the region. -/
def UpperLeafEntry.blobLength (e : UpperLeafEntry) : ℕ := if e.coalesced then 0 else e.inlineBytes

/-- The pages VACUUM changes, the blank pages the free-space map has on offer, and the number of
blocks. -/
structure Store where
  upperLeaves : BlockNumber → UpperLeafPage
  postingLeaves : BlockNumber → PostingLeafPage
  freePages : List BlockNumber
  nBlocks : BlockNumber

/-- The block `pg_tre_extend` takes: a blank page, or else a new one. -/
def Store.nextBlock (s : Store) : BlockNumber := s.freePages.headD s.nBlocks

/-- `pg_tre_extend`. -/
def Store.extend (s : Store) : Store :=
  { s with
    freePages := s.freePages.tail
    nBlocks := if s.freePages = [] then s.nBlocks + 1 else s.nBlocks }

/-- How a walk ends early. -/
inductive Stop where
  | error (e : PgError)
  /-- The links go round for ever. -/
  | endless

/-- A part of VACUUM. -/
abbrev Vacuuming (α : Type) := Procedure Store Stop α

/-- `ereport(ERROR)`. -/
def raise {α : Type} (message : String) : Vacuuming α := throw (.error ⟨message⟩)

/-! ## Inline postings -/

/-- What becomes of an inline posting: a blob for its slot, or one for a leaf of its own. -/
inductive InlineRepack where
  | inPlace (blob : List UInt8) (removed remaining : ℕ)
  | migrates (blob : List UInt8) (minTid maxTid nTids removed : ℕ)

/-- `repack_inline_posting`. -/
def repackInlinePosting (lib : SparsemapLibrary) (dead : ℕ → Bool) (blob : List UInt8) :
    Vacuuming InlineRepack := do
  match ← liftM (requestOpenCopy true lib blob) with
  | none => raise "pg_tre: corrupt inline posting (sparsemap open failed)"
  | some (smap, smSize) =>
      if blob.length < smSize then raise "pg_tre: corrupt inline posting (sparsemap > blob)"
      else
        match repackMembers (decide (smSize < blob.length)) dead (smap.sort (· ≤ ·))
            (blob.drop smSize) with
        | none => raise "pg_tre: corrupt inline posting payload"
        | some (keep, newPayload, removed) =>
            if removed = 0 then pure (.inPlace blob 0 keep.length)
            else do
              match ← liftM (obtain? true (lib.encode keep.toFinset)) with
              | none => raise "pg_tre: failed to allocate sparsemap for inline vacuum repack"
              | some fresh =>
                  if blob.length < fresh.length + newPayload.length then
                    if postingLeafBudget < fresh.length + newPayload.length then
                      pure (.inPlace blob 0 (keep.length + removed))
                    else
                      pure (.migrates (fresh ++ newPayload) (keep.headD 0) (keep.getLastD 0)
                        keep.length removed)
                  else pure (.inPlace (fresh ++ newPayload) removed keep.length)

/-- A hash in 16 hexadecimal digits. -/
def hex16 (h : UInt64) : String :=
  let digits := Nat.toDigits 16 h.toNat
  String.ofList (List.replicate (16 - digits.length) '0' ++ digits)

/-- `write_single_leaf`: the block of the new leaf. -/
def writeSingleLeaf (trigramHash : UInt64) (smBytes payload : List UInt8)
    (minTid maxTid nTids : ℕ) (rightLink : Option BlockNumber) : Vacuuming BlockNumber := do
  let sz := smBytes.length
  let payloadSz := payload.length
  if postingLeafBudget < sz + payloadSz then
    let hash := hex16 trigramHash
    let total := sz + payloadSz
    raise (s!"pg_tre: posting leaf for trigram {hash} would hold {total} bytes (sparsemap {sz} + " ++
      s!"payload {payloadSz}), over the {postingLeafBudget}-byte page budget")
  else do
    let blkno := (← get).nextBlock
    modify fun st => { st.extend with
      postingLeaves := Function.update st.postingLeaves blkno
        { rightLink := rightLink
          minTid := minTid
          maxTid := maxTid
          smBytes := smBytes
          payload := payload
          payloadOffset := if payload = [] then 0 else 8192 - 8 - payload.length
          nEntries := min nTids (2 ^ 16 - 1)
          deleted := false } }
    pure blkno

/-- The numbers VACUUM reports. -/
structure VacuumCounts where
  removed : ℕ
  remaining : ℕ
  pages : ℕ
  deleted : ℕ

/-- The loop of `posting_leaf_inline_delete` over the entries, with what is left of the old region:
the new entries, the new region, and the counts. The probe that splits a blob for its leaf takes all
of it for the map when it gets no memory. -/
def repackEntries (lib : SparsemapLibrary) (dead : ℕ → Bool) :
    List UpperLeafEntry → List UInt8 → Vacuuming (List UpperLeafEntry × List UInt8 × ℕ × ℕ)
  | [], _ => pure ([], [], 0, 0)
  | e :: entries, region => do
      if e.coalesced ∨ e.inlineBytes = 0 then
        let (entries', region', removed', remaining') ← repackEntries lib dead entries region
        pure (e :: entries', region', removed', remaining')
      else do
        let repacked ← repackInlinePosting lib dead (region.take e.inlineBytes)
        match repacked with
        | .migrates blob minTid maxTid nTids removed => do
            -- Without payload behind the map, a probe that fails changes nothing.
            let harmless := decide ((lib.smOpenCopy blob).map Prod.snd = some blob.length)
            let probe ← liftM (requestOpenCopy harmless lib blob)
            let smOnly := (probe.map Prod.snd).getD blob.length
            let blkno ← writeSingleLeaf e.trigramHash (blob.take smOnly) (blob.drop smOnly) minTid
              maxTid nTids none
            let (entries', region', removed', remaining') ←
              repackEntries lib dead entries (region.drop e.inlineBytes)
            pure ({ e with postingRoot := some blkno, inlineBytes := 0 } :: entries', region',
              removed + removed', nTids + remaining')
        | .inPlace blob removed remaining => do
            let (entries', region', removed', remaining') ←
              repackEntries lib dead entries (region.drop e.inlineBytes)
            pure ({ e with inlineBytes := blob.length } :: entries', blob ++ region',
              removed + removed', remaining + remaining')

/-- The number of bytes the inline blobs of some entries take. -/
def regionUsed (entries : List UpperLeafEntry) : ℕ :=
  (entries.map UpperLeafEntry.blobLength).sum

/-- `posting_leaf_inline_delete`: the numbers of TIDs removed and remaining. -/
def postingLeafInlineDelete (lib : SparsemapLibrary) (dead : ℕ → Bool) (blkno : BlockNumber) :
    Vacuuming (ℕ × ℕ) := do
  let page := (← get).upperLeaves blkno
  if regionUsed page.entries = 0 then pure (0, 0)
  else if page.region.length < regionUsed page.entries then
    raise s!"pg_tre: corrupt upper leaf inline region at block {blkno}"
  else do
    let (entries, region, removed, remaining) ← repackEntries lib dead page.entries page.region
    if removed = 0 then pure (0, remaining)
    else do
      modify fun st => { st with
        upperLeaves := Function.update st.upperLeaves blkno ⟨entries, region⟩ }
      pure (removed, remaining)

/-! ## Leaf chains -/

/-- `posting_leaf_header_valid`. -/
def postingLeafHeaderValid (leaf : PostingLeafPage) : Bool :=
  decide (leaf.smBytes.length ≤ postingLeafBudget) &&
    (decide (leaf.payload.length = 0 ∧ leaf.payloadOffset = 0) ||
      decide (24 + 40 ≤ leaf.payloadOffset ∧ leaf.payloadOffset ≤ 8192 - 8 ∧
        leaf.payload.length ≤ 8192 - 8 - leaf.payloadOffset))

/-- `PG_TRE_SM_MIN_BYTES`. -/
def smMinBytes : ℕ := 8

/-- `posting_leaf_delete`: the numbers of TIDs removed from the leaf and remaining in it. When
`sm_wrap` gets no memory, the loop over the members is skipped. -/
def postingLeafDelete (lib : SparsemapLibrary) (dead : ℕ → Bool) (blkno : BlockNumber) :
    Vacuuming (ℕ × ℕ) := do
  let leaf := (← get).postingLeaves blkno
  if postingLeafHeaderValid leaf = false then
    raise s!"pg_tre: corrupt posting leaf at block {blkno}"
  else if leaf.smBytes.length < smMinBytes then
    let n := leaf.smBytes.length
    raise s!"pg_tre: corrupt leaf sparsemap length {n}"
  else do
    match ← liftM (obtain? false (lib.smOpen leaf.smBytes)) with
    | none => pure (0, 0)
    | some (smap, smSize) =>
        if smSize ≠ leaf.smBytes.length then
          raise s!"pg_tre: corrupt sparsemap in posting leaf at block {blkno} during vacuum"
        else
          match repackMembers (decide (leaf.payload ≠ [] ∧ leaf.payloadOffset ≠ 0)) dead
              (smap.sort (· ≤ ·)) leaf.payload with
          | none => raise s!"pg_tre: corrupt posting payload at block {blkno}"
          | some (keep, newPayload, removed) =>
              if removed = 0 then pure (0, keep.length)
              else do
                match ← liftM (obtain? true (lib.encode keep.toFinset)) with
                | none =>
                    raise (if keep = [] then
                      "pg_tre: failed to allocate empty sparsemap for vacuum repack"
                      else "pg_tre: failed to allocate sparsemap for vacuum repack")
                | some fresh =>
                    if postingLeafBudget < fresh.length + newPayload.length then
                      pure (0, keep.length + removed)
                    else do
                      modify fun st => { st with
                        postingLeaves := Function.update st.postingLeaves blkno
                          { leaf with
                            minTid := keep.headD 0
                            maxTid := keep.getLastD 0
                            smBytes := fresh
                            payload := newPayload
                            payloadOffset :=
                              if newPayload = [] then 0 else 8192 - 8 - newPayload.length
                            nEntries := min keep.length (2 ^ 16 - 1) } }
                      pure (removed, keep.length)

/-- `posting_leaf_unlink`. -/
def postingLeafUnlink (lib : SparsemapLibrary) (prev cur : BlockNumber) : Vacuuming Unit := do
  match ← liftM (obtain? true (lib.encode ∅)) with
  | none => raise "pg_tre: failed to allocate empty sparsemap"
  | some empty =>
      modify fun st =>
        let right := (st.postingLeaves cur).rightLink
        { st with
          postingLeaves := Function.update
            (Function.update st.postingLeaves prev
              { st.postingLeaves prev with rightLink := right })
            cur
            { rightLink := right
              minTid := 0
              maxTid := 0
              smBytes := empty
              payload := []
              payloadOffset := 0
              nEntries := 0
              deleted := true } }

/-- The loop of `posting_tree_delete`, with the predecessor it keeps locked. -/
def postingTreeDelete (lib : SparsemapLibrary) (dead : ℕ → Bool) :
    ℕ → Option BlockNumber → Option BlockNumber → VacuumCounts → Vacuuming VacuumCounts
  | _, _, none, counts => pure counts
  | 0, _, some _, _ => throw .endless
  | fuel + 1, prev, some cur, counts => do
      let leaf := (← get).postingLeaves cur
      if postingLeafHeaderValid leaf = false then
        raise s!"pg_tre: corrupt posting leaf at block {cur}"
      else do
        let (removed, remaining) ← postingLeafDelete lib dead cur
        let counts := { counts with
          removed := counts.removed + removed
          remaining := counts.remaining + remaining
          pages := counts.pages + 1 }
        match prev with
        | some p =>
            if remaining = 0 then do
              postingLeafUnlink lib p cur
              postingTreeDelete lib dead fuel prev leaf.rightLink
                { counts with deleted := counts.deleted + 1 }
            else postingTreeDelete lib dead fuel (some cur) leaf.rightLink counts
        | none => postingTreeDelete lib dead fuel (some cur) leaf.rightLink counts

/-! ## The walk -/

/-- The upper tree of a run: internal pages do not change during VACUUM. -/
inductive UpperNode where
  | leaf (blkno : BlockNumber)
  | internal (children : List UpperNode)

/-- The chains of an upper leaf, one after the other. A chain has fewer leaves than there are
blocks. -/
def deleteFromTrees (lib : SparsemapLibrary) (dead : ℕ → Bool) :
    List BlockNumber → VacuumCounts → Vacuuming VacuumCounts
  | [], counts => pure counts
  | root :: roots, counts => do
      let counts ← postingTreeDelete lib dead (← get).nBlocks none (some root) counts
      deleteFromTrees lib dead roots counts

/-- The roots of the posting chains of some entries. -/
def postingRoots (entries : List UpperLeafEntry) : List BlockNumber :=
  (entries.filter fun e => !e.coalesced).filterMap (·.postingRoot)

/-- `posting_upper_walk` on a leaf: the roots are collected before inline postings may move to leaves
of their own. -/
def walkUpperLeaf (lib : SparsemapLibrary) (dead : ℕ → Bool) (blkno : BlockNumber)
    (counts : VacuumCounts) : Vacuuming VacuumCounts := do
  let roots := postingRoots ((← get).upperLeaves blkno).entries
  let (removed, remaining) ← postingLeafInlineDelete lib dead blkno
  deleteFromTrees lib dead roots { counts with
    removed := counts.removed + removed
    remaining := counts.remaining + remaining }

mutual

/-- `posting_upper_walk`. -/
def postingUpperWalk (lib : SparsemapLibrary) (dead : ℕ → Bool) :
    UpperNode → VacuumCounts → Vacuuming VacuumCounts
  | .leaf blkno, counts => walkUpperLeaf lib dead blkno counts
  | .internal children, counts => walkChildren lib dead children counts

/-- The children of an internal page, in order. -/
def walkChildren (lib : SparsemapLibrary) (dead : ℕ → Bool) :
    List UpperNode → VacuumCounts → Vacuuming VacuumCounts
  | [], counts => pure counts
  | child :: children, counts => do
      let counts ← postingUpperWalk lib dead child counts
      walkChildren lib dead children counts

end

/-- The loop of `pg_tre_posting_bulk_delete` over the live runs, with the roots it has seen. -/
def deleteFromRuns (lib : SparsemapLibrary) (dead : ℕ → Bool) (trees : BlockNumber → UpperNode) :
    List (Option BlockNumber) → List BlockNumber → VacuumCounts → Vacuuming VacuumCounts
  | [], _, counts => pure counts
  | none :: runs, seen, counts => deleteFromRuns lib dead trees runs seen counts
  | some root :: runs, seen, counts => do
      if root ∈ seen then deleteFromRuns lib dead trees runs seen counts
      else do
        let counts ← postingUpperWalk lib dead (trees root) counts
        deleteFromRuns lib dead trees runs (seen ++ [root]) counts

/-- `pg_tre_posting_bulk_delete` over the upper roots of the live runs, with a callback on heap
TIDs. -/
def postingBulkDelete (lib : SparsemapLibrary) (pk : TidPacking) (callback : ItemPointer → Bool)
    (trees : BlockNumber → UpperNode) (runs : List (Option BlockNumber)) : Vacuuming VacuumCounts :=
  deleteFromRuns lib (fun member => callback (unpackTid pk member)) trees runs [] ⟨0, 0, 0, 0⟩

end PgTre.Bytes
