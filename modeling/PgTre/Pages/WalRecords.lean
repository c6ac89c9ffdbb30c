import PgTre.Pages.FreeLog
import PgTre.Pages.Pending
import PgTre.Pages.PostingBuild
import PgTre.Pages.SurfPage
import PgTre.Pages.UpperPage
import PgTre.Util.ImageDelta

/-!
# Pages and their log records

A writer of pages takes a block from `pg_tre_extend`, which initializes the page in its buffer,
registers the buffer with a generic WAL record, and writes into the copy that it is given. The
record has the whole page if the writer asks for it with `GENERIC_XLOG_FULL_IMAGE`, and else the
bytes that differ from the buffer when it was registered. LSNs and checksums are left out.
-/

namespace PgTre

open Sparsemap ImageDelta Bytes

/-! ## Pages as bytes -/

/-- The bytes of a page. -/
abbrev PageImage := Fin blcksz → UInt8

/-- A page that was never written. -/
def zeroImage : PageImage := fun _ => 0

/-- `PageHeaderData` as `PageInit` and the writers leave it, from `pd_lsn` to `pd_prune_xid`. -/
def pageHeader (pdLower pdUpper : ℕ) : List UInt8 :=
  wordBytes 8 0 ++ (wordBytes 2 0 ++ (wordBytes 2 0 ++ (wordBytes 2 pdLower ++
    (wordBytes 2 pdUpper ++ (wordBytes 2 (blcksz - maxAlign sizeOfOpaque) ++
      (wordBytes 2 (blcksz + 4) ++ wordBytes 4 0))))))

/-- `PageTreOpaqueData`. -/
def pageTrailer (kind : PageTreKind) (flags : ℕ) : List UInt8 :=
  wordBytes 2 kind.number ++ (wordBytes 2 flags ++ wordBytes 4 formatVersionLatest)

/-- The bytes of a page with the given `pd_upper`. -/
def StoredPage.image (page : StoredPage) (pdUpper : ℕ) : PageImage := fun i =>
  if i.val < sizeOfPageHeaderData then (pageHeader page.pdLower pdUpper).getD i 0
  else if i.val < coalescedUsableEnd then page.contents.getD (i - sizeOfPageHeaderData) 0
  else (pageTrailer page.kind page.flags).getD (i - coalescedUsableEnd) 0

/-- The bytes of a page that `pg_tre_page_init` has made. -/
def initImage (kind : PageTreKind) : PageImage := (pgTrePageInit kind).image coalescedUsableEnd

/-- A number on a page. -/
def PageImage.number (image : PageImage) (off k : ℕ) : ℕ :=
  ofBytes ((List.range k).map fun j => if h : off + j < blcksz then image ⟨off + j, h⟩ else 0)

/-- Bytes written at an offset. -/
def PageImage.put (image : PageImage) (off : ℕ) (bytes : List UInt8) : PageImage := fun i =>
  if off ≤ i.val then (bytes[i.val - off]?).getD (image i) else image i

/-- Several pieces written at their offsets. -/
def PageImage.putAll (image : PageImage) (pieces : List (ℕ × List UInt8)) : PageImage :=
  pieces.foldl (fun image piece => image.put piece.1 piece.2) image

/-! ## Buffers and the log -/

/-- The buffers of the primary, with zeros past the end of the index, and what it has logged. -/
structure WalState where
  buffers : BlockNumber → PageImage
  nblocks : ℕ
  log : List (Record BlockNumber (Fin blcksz) UInt8)

/-- The test of `pg_tre_extend` for a page that nobody has claimed: `PageIsNew`, or nothing behind
the page header. -/
def PageImage.unclaimed (image : PageImage) : Bool :=
  image.number 14 2 == 0 || image.number 12 2 ≤ sizeOfPageHeaderData

/-- The loop of `pg_tre_extend` over the blocks on offer, each with whether a peer holds it. -/
def WalState.takeOffer (st : WalState) (held : List BlockNumber) :
    List (BlockNumber × Bool) → Option BlockNumber
  | [] => none
  | (b, peer) :: offers =>
      if peer ∨ b ∈ held ∨ st.nblocks ≤ b then st.takeOffer held offers
      else if (st.buffers b).unclaimed then some b
      else st.takeOffer held offers

/-- The block that `pg_tre_extend` takes. -/
def WalState.taken (st : WalState) (held : List BlockNumber) (offers : List (BlockNumber × Bool)) :
    BlockNumber :=
  (st.takeOffer held offers).getD st.nblocks

/-- `pg_tre_extend`: the page is initialized in its buffer, and nothing is logged. -/
def WalState.extend (st : WalState) (held : List BlockNumber) (kind : PageTreKind)
    (offers : List (BlockNumber × Bool)) : WalState where
  buffers := Function.update st.buffers (st.taken held offers) (initImage kind)
  nblocks := max st.nblocks (st.taken held offers + 1)
  log := st.log

/-- `GenericXLogFinish` for the registered buffers. -/
def WalState.finish (st : WalState)
    (regs : List (BlockNumber × Registered (Fin blcksz) UInt8)) : WalState where
  buffers := newBuffers st.buffers (regs.lookup ·)
  nblocks := st.nblocks
  log := st.log ++ [recordOf st.buffers (regs.lookup ·)]

/-- A buffer registered without `GENERIC_XLOG_FULL_IMAGE`. -/
def deltaOf (b : BlockNumber) (new : PageImage) :
    BlockNumber × Registered (Fin blcksz) UInt8 := (b, ⟨false, new⟩)

/-- A buffer registered with `GENERIC_XLOG_FULL_IMAGE`. -/
def fullImageOf (b : BlockNumber) (new : PageImage) :
    BlockNumber × Registered (Fin blcksz) UInt8 := (b, ⟨true, new⟩)

/-- `pg_tre_read`: a page that was written has the kind and a known format. -/
def WalState.readable (st : WalState) (b : BlockNumber) (kind : PageTreKind) : Bool :=
  decide (b < st.nblocks) && ((st.buffers b).number 14 2 == 0 ||
    (decide (formatVersionMin ≤ (st.buffers b).number 8188 4) &&
      decide ((st.buffers b).number 8188 4 ≤ formatVersionLatest) &&
      (st.buffers b).number 8184 2 == kind.number))

/-- A record with a fresh page, by itself. -/
def WalState.writeNew (st : WalState) (held : List BlockNumber)
    (offers : List (BlockNumber × Bool)) (page : StoredPage) (pdUpper : ℕ) : WalState :=
  (st.extend held page.kind offers).finish
    [deltaOf (st.taken held offers) (page.image pdUpper)]

/-! ## Writers of trees and filters -/

/-- What `write_single_leaf` is given. -/
structure LeafInput where
  data : List UInt8
  payload : List UInt8
  minTid : ℕ
  maxTid : ℕ
  nTids : ℕ
  rightLink : Option BlockNumber

/-- Where the payload of a leaf begins. -/
def LeafInput.payloadStart (leaf : LeafInput) : ℕ := coalescedUsableEnd - leaf.payload.length

/-- The page of `write_single_leaf`, with its `pd_upper`. The payload ends at the trailer. -/
def LeafInput.page (leaf : LeafInput) : StoredPage × ℕ :=
  let page := postingLeafPage leaf.data leaf.minTid leaf.maxTid leaf.nTids leaf.rightLink
  if leaf.payload = [] then (page, coalescedUsableEnd)
  else
    let header := Layout.putBytes page.contents 28
      (wordBytes 4 leaf.payload.length ++ wordBytes 4 leaf.payloadStart)
    let hole := List.replicate (leaf.payloadStart - page.pdLower) 0
    ({ page with contents := header ++ (hole ++ leaf.payload) }, leaf.payloadStart)

/-- `write_single_leaf`. A leaf over the budget raises an error before it takes a block. -/
def WalState.writeSingleLeaf (st : WalState) (held : List BlockNumber)
    (offers : List (BlockNumber × Bool))
    (leaf : LeafInput) : WalState :=
  if postingLeafBudget < leaf.data.length + leaf.payload.length then st
  else st.writeNew held offers leaf.page.1 leaf.page.2

/-- `upper_flush_leaf`. -/
def WalState.upperFlushLeaf (st : WalState) (held : List BlockNumber)
    (offers : List (BlockNumber × Bool))
    (entries : List UpperLeafEntry) (inlineData : List UInt8) : WalState :=
  if entries = [] then st
  else st.writeNew held offers (upperLeafPage entries inlineData) coalescedUsableEnd

/-- A turn of the loop of `upper_build_internal_level`. There is an entry on each page. -/
def WalState.upperInternal (st : WalState) (held : List BlockNumber)
    (offers : List (BlockNumber × Bool))
    (entries : List (ℕ × BlockNumber)) : WalState :=
  if entries = [] then st
  else st.writeNew held offers (upperInternalPage entries) coalescedUsableEnd

/-- The first part of a turn of `pg_tre_surf_write_image`, which holds the page before. -/
def WalState.surfChunk (st : WalState) (held : List BlockNumber)
    (offers : List (BlockNumber × Bool))
    (prev : Option BlockNumber) (totalBytes : ℕ) (chunk : List UInt8) : WalState :=
  st.writeNew (prev.toList ++ held) offers (surfPage totalBytes chunk) coalescedUsableEnd

/-- The second part: the page before, which is one of the index, gets its link. -/
def WalState.surfLink (st : WalState) (prev thisBlk : BlockNumber) : WalState :=
  if st.nblocks ≤ prev then st
  else st.finish [deltaOf prev ((st.buffers prev).put sizeOfPageHeaderData (wordBytes 4 thisBlk))]

/-! ## The writer of coalesced pages -/

/-- The content of an open page in its buffer. -/
def CoalescedPage.contents (page : CoalescedPage) : List UInt8 :=
  Layout.putBytes page.bytes 0
    (wordBytes 2 page.nSlots ++ (wordBytes 2 page.freeOffset ++ wordBytes 4 0))

/-- The page as it is written into the shared buffer, slot by slot. -/
def CoalescedPage.open (page : CoalescedPage) : StoredPage :=
  ⟨.pagePostingCoalesced, 0, sizeOfPageHeaderData, page.contents⟩

/-- The page with the `pd_lower` that `flush_page` sets. -/
def CoalescedPage.flushed (page : CoalescedPage) : StoredPage :=
  { page.open with pdLower := coalescedContentStart + page.nSlots * coalescedSlotBytes }

/-- An open page, empty. -/
def emptyCoalescedPage (blkno : BlockNumber) : CoalescedPage :=
  ⟨blkno, 0, coalescedUsableEnd, List.replicate (coalescedUsableEnd - sizeOfPageHeaderData) 0⟩

/-- The blobs that `pg_tre_coalesced_add` puts on an open page, up to one that raises an error or
goes to the next page; and whether none raised an error. -/
def CoalescedPage.fill : CoalescedPage → List CoalescedBlob → CoalescedPage × Bool
  | page, [] => (page, true)
  | page, blob :: blobs =>
      match coalescedCheck blob with
      | .error _ => (page, false)
      | .ok () => if page.Full blob then (page, true) else (page.put blob).fill blobs

/-- The blobs of one page: `open_page`, `pg_tre_coalesced_add` until the page is full or there are
no more, and `flush_page`. All but `pd_lower` and `pd_upper` is in the shared buffer before it is
registered. A blob that raises an error leaves the page as it is there. -/
def WalState.coalescedPage (st : WalState) (held : List BlockNumber)
    (offers : List (BlockNumber × Bool)) : List CoalescedBlob → WalState
  | [] => st
  | blob :: blobs =>
      match coalescedCheck blob with
      | .error _ => st
      | .ok () =>
          let b := st.taken held offers
          let filled := ((emptyCoalescedPage b).put blob).fill blobs
          let st := st.extend held .pagePostingCoalesced offers
          let st := { st with
            buffers := Function.update st.buffers b (filled.1.open.image coalescedUsableEnd) }
          if filled.2 then
            st.finish [deltaOf b (filled.1.flushed.image filled.1.freeOffset)]
          else st

/-! ## Writers that change the meta page -/

/-- The offsets of fields of the meta page. -/
def metaPendingHead : ℕ := sizeOfPageHeaderData + 36
def metaPendingTail : ℕ := sizeOfPageHeaderData + 40
def metaPendingNEntries : ℕ := sizeOfPageHeaderData + 48
def metaNextRunId : ℕ := sizeOfPageHeaderData + 128
def metaRunCatalogHead : ℕ := sizeOfPageHeaderData + 136
def metaNRuns : ℕ := sizeOfPageHeaderData + 140
def metaMaxLevels : ℕ := sizeOfPageHeaderData + 144
def metaFreeLogHead : ℕ := sizeOfPageHeaderData + 148

/-- An `int` in an unsigned field. -/
def asInt (n : ℕ) : ℤ := if n < 2 ^ 31 then n else n - 2 ^ 32

/-- `PgTreFreeLogEntry` in its 16 bytes. -/
def freeLogEntryBytes (delXid : ℕ) (block : BlockNumber) : List UInt8 :=
  wordBytes 4 block ++ (wordBytes 4 0 ++ wordBytes 8 delXid)

/-- A page of the free log. -/
def freeLogPage (rightLink : ℕ) (blocks : List BlockNumber) (delXid : ℕ) : StoredPage where
  kind := .pageFreeLog
  flags := 0
  pdLower := 40 + 16 * blocks.length
  contents := wordBytes 4 rightLink ++ (wordBytes 4 blocks.length ++ (wordBytes 8 0 ++
    blocks.flatMap (freeLogEntryBytes delXid)))

/-- `free_log_append_chunk` with a new head page. -/
def WalState.freeLogNew (st : WalState) (held : List BlockNumber)
    (offers : List (BlockNumber × Bool)) (rightLink : ℕ)
    (blocks : List BlockNumber) (delXid : ℕ) : WalState :=
  let b := st.taken (0 :: held) offers
  let page := freeLogPage rightLink (blocks.take freeLogCap) delXid
  (st.extend (0 :: held) .pageFreeLog offers).finish
    [deltaOf 0 ((st.buffers 0).put metaFreeLogHead (wordBytes 4 b)),
      deltaOf b (page.image coalescedUsableEnd)]

/-- `free_log_append_chunk` on the head page. -/
def WalState.freeLogAdd (st : WalState) (head : BlockNumber) (blocks : List BlockNumber)
    (delXid : ℕ) : WalState :=
  let n := (st.buffers head).number 28 4
  let take := (min (blocks.length : ℤ) (freeLogCap - asInt n)).toNat
  let page := (st.buffers head).putAll
    [(40 + 16 * n, (blocks.take take).flatMap (freeLogEntryBytes delXid)),
      (28, wordBytes 4 (n + take)), (12, wordBytes 2 (40 + 16 * (n + take)))]
  st.finish [deltaOf 0 ((st.buffers 0).put metaFreeLogHead (wordBytes 4 head)), deltaOf head page]

/-- The right link of the head page that `free_log_append_chunk` has to make, or `none` when it has
one with room; an error if a page cannot be read. -/
def WalState.freeLogHead (st : WalState) : Option (Option ℕ × BlockNumber) :=
  if st.readable 0 .pageMeta = false then none
  else
    let head := (st.buffers 0).number metaFreeLogHead 4
    if head = 0 ∨ head = invalidBlockNumber then some (some invalidBlockNumber, 0)
    else if st.readable head .pageFreeLog = false then none
    else if (freeLogCap : ℤ) ≤ asInt ((st.buffers head).number 28 4) then some (some head, 0)
    else some (none, head)

/-- `free_log_append_chunk` for the blocks from `base` on. -/
def WalState.freeLogAppendChunk (st : WalState) (held : List BlockNumber)
    (offers : List (BlockNumber × Bool))
    (blocks : List BlockNumber) (delXid : ℕ) : WalState :=
  match st.freeLogHead with
  | none => st
  | some (some rightLink, _) => st.freeLogNew held offers rightLink blocks delXid
  | some (none, head) => st.freeLogAdd head blocks delXid

/-- `PgTreRun` in its 64 bytes. -/
def runBytes (run : PgTreRun) : List UInt8 :=
  wordBytes 8 run.runId ++ (wordBytes 4 run.level ++ (wordBytes 4 run.flags ++
    (encodeBlock run.rootUpper ++ (encodeBlock run.rootRange ++ (wordBytes 8 0 ++
      (wordBytes 8 run.nTuples ++ (wordBytes 8 run.nTrigrams ++
        (wordBytes 8 run.minTrigramHash.toNat ++ wordBytes 8 run.maxTrigramHash.toNat))))))))

/-- A page of the run catalog. -/
def runCatalogPage (rightLink : ℕ) (runs : List PgTreRun) : StoredPage where
  kind := .pageRunCatalog
  flags := 0
  pdLower := 40 + 64 * runs.length
  contents := wordBytes 4 rightLink ++ (wordBytes 4 runs.length ++ (wordBytes 8 0 ++
    runs.flatMap runBytes))

/-- The meta page after a run has been appended, with the ID of the run. -/
def runCatalogMeta (metapage : PageImage) (b : BlockNumber) : PageImage × ℕ :=
  let nextRunId := metapage.number metaNextRunId 8
  let runId := if nextRunId = 0 then 1 else nextRunId
  let maxLevels := metapage.number metaMaxLevels 4
  let nRuns := metapage.number metaNRuns 4
  (metapage.putAll
    [(metaMaxLevels, wordBytes 4 (if maxLevels = 0 then 7 else maxLevels)),
      (metaNextRunId, wordBytes 8 (runId + 1)), (metaRunCatalogHead, wordBytes 4 b),
      (metaNRuns, wordBytes 4 (if nRuns = 0 then 2 else nRuns + 1))], runId)

/-- `pg_tre_run_catalog_append` with a new head page. -/
def WalState.runCatalogNew (st : WalState) (held : List BlockNumber)
    (offers : List (BlockNumber × Bool)) (rightLink : ℕ)
    (run : PgTreRun) : WalState :=
  let b := st.taken (0 :: held) offers
  let meta' := runCatalogMeta (st.buffers 0) b
  let page := runCatalogPage rightLink [{ run with runId := meta'.2 }]
  (st.extend (0 :: held) .pageRunCatalog offers).finish
    [deltaOf 0 meta'.1, fullImageOf b (page.image coalescedUsableEnd)]

/-- `pg_tre_run_catalog_append` on the head page. -/
def WalState.runCatalogAdd (st : WalState) (head : BlockNumber) (run : PgTreRun) : WalState :=
  let n := (st.buffers head).number 28 4
  let meta' := runCatalogMeta (st.buffers 0) head
  let page := (st.buffers head).putAll
    [(40 + 64 * n, runBytes { run with runId := meta'.2 }), (28, wordBytes 4 (n + 1)),
      (12, wordBytes 2 (40 + 64 * (n + 1)))]
  st.finish [deltaOf 0 meta'.1, deltaOf head page]

/-- `pg_tre_run_catalog_append`. -/
def WalState.runCatalogAppend (st : WalState) (held : List BlockNumber)
    (offers : List (BlockNumber × Bool))
    (run : PgTreRun) : WalState :=
  if st.readable 0 .pageMeta = false then st
  else
    let head := (st.buffers 0).number metaRunCatalogHead 4
    let nRuns := (st.buffers 0).number metaNRuns 4
    if (nRuns = 0 ∧ head = 0) ∨ head = invalidBlockNumber then
      st.runCatalogNew held offers invalidBlockNumber run
    else if st.readable head .pageRunCatalog = false then st
    else if runCatalogCap ≤ (st.buffers head).number 28 4 then st.runCatalogNew held offers head run
    else st.runCatalogAdd head run

/-- `pg_tre_run_catalog_rewrite`. -/
def WalState.runCatalogRewrite (st : WalState) (held : List BlockNumber)
    (offers : List (BlockNumber × Bool))
    (runs : List PgTreRun) : WalState :=
  if runCatalogCap < runs.length ∨ st.readable 0 .pageMeta = false then st
  else if runs = [] then
    let meta' := (st.buffers 0).putAll
      [(metaRunCatalogHead, wordBytes 4 invalidBlockNumber), (metaNRuns, wordBytes 4 0)]
    st.finish [deltaOf 0 meta']
  else
    let b := st.taken (0 :: held) offers
    let meta' := (st.buffers 0).putAll
      [(metaRunCatalogHead, wordBytes 4 b), (metaNRuns, wordBytes 4 (runs.length + 1))]
    let page := runCatalogPage invalidBlockNumber runs
    (st.extend (0 :: held) .pageRunCatalog offers).finish
      [deltaOf 0 meta', fullImageOf b (page.image coalescedUsableEnd)]

/-- `PgTrePendingEntry` in its 24 bytes. -/
def pendingEntryBytes (e : PgTrePendingEntry) : List UInt8 :=
  wordBytes 8 e.trigramHash.toNat ++
    (wordBytes 8 e.tid ++ (wordBytes 4 e.position ++ wordBytes 4 0))

/-- A page of the pending list. -/
def pendingListPage (entries : List PgTrePendingEntry) : StoredPage where
  kind := .pagePending
  flags := 0
  pdLower := 40 + 24 * entries.length
  contents := wordBytes 4 invalidBlockNumber ++ (wordBytes 4 entries.length ++
    (wordBytes 4 (24 * entries.length) ++ (wordBytes 4 0 ++ entries.flatMap pendingEntryBytes)))

/-- A turn of `pg_tre_pending_append_batch` with a new tail page, behind the tail `prev`. -/
def WalState.pendingNew (st : WalState) (held : List BlockNumber)
    (offers : List (BlockNumber × Bool))
    (prev : Option BlockNumber) (entries : List PgTrePendingEntry) : WalState :=
  let b := st.taken (0 :: (prev.toList ++ held)) offers
  let entries := entries.take pendingCapacity
  let count := (st.buffers 0).number metaPendingNEntries 8
  let head := match prev with
    | none => [(metaPendingHead, wordBytes 4 b)]
    | some _ => []
  let link := match prev with
    | none => []
    | some p => [deltaOf p ((st.buffers p).put sizeOfPageHeaderData (wordBytes 4 b))]
  let meta' := (st.buffers 0).putAll ((metaPendingTail, wordBytes 4 b) ::
    (head ++ [(metaPendingNEntries, wordBytes 8 (count + entries.length))]))
  (st.extend (0 :: (prev.toList ++ held)) .pagePending offers).finish (deltaOf 0 meta' ::
    fullImageOf b ((pendingListPage entries).image coalescedUsableEnd) :: link)

/-- A turn of `pg_tre_pending_append_batch` on the tail page. -/
def WalState.pendingAdd (st : WalState) (tail : BlockNumber) (entries : List PgTrePendingEntry) :
    WalState :=
  let n := (st.buffers tail).number 28 4
  let entries := entries.take (pendingCapacity - n)
  let count := (st.buffers 0).number metaPendingNEntries 8
  let meta' := (st.buffers 0).put metaPendingNEntries (wordBytes 8 (count + entries.length))
  let page := (st.buffers tail).putAll
    [(40 + 24 * n, entries.flatMap pendingEntryBytes), (28, wordBytes 4 (n + entries.length)),
      (32, wordBytes 4 (24 * (n + entries.length))),
      (12, wordBytes 2 (40 + 24 * (n + entries.length)))]
  st.finish [deltaOf 0 meta', deltaOf tail page]

/-- A turn of the loop of `pg_tre_pending_append_batch`. -/
def WalState.pendingAppend (st : WalState) (held : List BlockNumber)
    (offers : List (BlockNumber × Bool))
    (entries : List PgTrePendingEntry) : WalState :=
  if entries = [] ∨ st.readable 0 .pageMeta = false then st
  else
    let tail := (st.buffers 0).number metaPendingTail 4
    if tail = invalidBlockNumber then st.pendingNew held offers none entries
    else if st.readable tail .pagePending = false then st
    else if pendingCapacity ≤ (st.buffers tail).number 28 4 then
      st.pendingNew held offers (some tail) entries
    else st.pendingAdd tail entries

/-! ## Runs of writers -/

/-- A call of a page writer, one for each record that it writes. -/
inductive PageWriter where
  | writeSingleLeaf (leaf : LeafInput)
  | coalescedPage (blobs : List CoalescedBlob)
  | upperFlushLeaf (entries : List UpperLeafEntry) (inlineData : List UInt8)
  | upperInternal (entries : List (ℕ × BlockNumber))
  | surfChunk (prev : Option BlockNumber) (totalBytes : ℕ) (chunk : List UInt8)
  | surfLink (prev thisBlk : BlockNumber)
  | freeLogAppendChunk (blocks : List BlockNumber) (delXid : ℕ)
  | runCatalogAppend (run : PgTreRun)
  | runCatalogRewrite (runs : List PgTreRun)
  | pendingAppend (entries : List PgTrePendingEntry)

/-- A call by a backend that holds some blocks, when the free-space map offers some. -/
def PageWriter.run (writer : PageWriter) (held : List BlockNumber)
    (offers : List (BlockNumber × Bool)) (st : WalState) : WalState :=
  match writer with
  | .writeSingleLeaf leaf => st.writeSingleLeaf held offers leaf
  | .coalescedPage blobs => st.coalescedPage held offers blobs
  | .upperFlushLeaf entries inlineData => st.upperFlushLeaf held offers entries inlineData
  | .upperInternal entries => st.upperInternal held offers entries
  | .surfChunk prev totalBytes chunk => st.surfChunk held offers prev totalBytes chunk
  | .surfLink prev thisBlk => st.surfLink prev thisBlk
  | .freeLogAppendChunk blocks delXid => st.freeLogAppendChunk held offers blocks delXid
  | .runCatalogAppend run => st.runCatalogAppend held offers run
  | .runCatalogRewrite runs => st.runCatalogRewrite held offers runs
  | .pendingAppend entries => st.pendingAppend held offers entries

end PgTre
