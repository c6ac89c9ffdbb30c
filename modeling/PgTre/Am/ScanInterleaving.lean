import PgTre.Pages.Pending
import PgTre.Pages.CatalogPages
import PgTre.Am.IndexLife

/-!
# A scan among writers

A scan walks the pending list page by page and afterwards looks up one trigram after the other in
the base tree and the runs. Between any two of its reads others may append entries, merge the list
into the base tree or into a run, fold runs of one level, or collapse all runs into the base tree.
An entry leaves a place only when the place it goes to can be found already, and the scan reads
the places in the order in which entries move. So an entry that was appended before the scan began
is in what the scan walked, or in what every later lookup of its trigram finds.
-/

namespace PgTre

/-! ## The writers and the scan -/

/-- The promoted run of a Hanoi pass, as it is before the rewrite of the catalog. -/
def hanoiAppend (idx : RunIndex) (target : ℕ) : RunIndex :=
  let merged := (hanoiCollect idx).filter (fun run => decide (run.level = target))
  runCatalogAppend (hanoiWrite idx merged) (promotedRun idx merged target)
    (promotedRun_allocated idx merged target)

/-- The record the last append has put into the catalog. -/
def hanoiRecord (idx : RunIndex) (target : ℕ) : PgTreRun :=
  let merged := (hanoiCollect idx).filter (fun run => decide (run.level = target))
  { promotedRun idx merged target with runId := (hanoiWrite idx merged).assignedId }

/-- A writer's run is in the catalog and its next record is not written. -/
inductive WriterPhase where
  | none
  /-- `pg_tre_pending_merge` has appended a run and has not finalized. -/
  | flushed
  /-- `pg_tre_hanoi_merge` has appended the promoted run and has not rewritten the catalog. The
  index was `before`. -/
  | promoting (before : RunIndex) (target : ℕ)

/-- `resolve_trigram_runs` between two reads. -/
structure RunLookup where
  hash : UInt64
  iter : RunIter
  /-- The root of the run the iterator yielded, until the run is looked up. -/
  root : Option (Option BlockNumber)
  tids : Finset ℕ

/-- The next read of a lookup. -/
def RunLookup.read (c : CatalogStore) (idx : RunIndex) (l : RunLookup) : RunLookup :=
  match l.root with
  | some root => { l with root := none, tids := l.tids ∪ (idx.treeAt root).postings l.hash }
  | none => { l with iter := (l.iter.next c l.hash).1, root := (l.iter.next c l.hash).2 }

/-- Where the scan is. -/
inductive ScanPhase where
  | idle
  /-- `pg_tre_pending_scan` is about to read a page and has passed on some entries. -/
  | walking (blk : Option BlockNumber) (walked : List PgTrePendingEntry)
  /-- The walk is over; some trigrams have been looked up, and another may be. -/
  | looking (walked : List PgTrePendingEntry) (lookup : Option RunLookup)
      (found : List (UInt64 × Finset ℕ))

/-- The index with its writers and one scan. -/
structure ScanWorld where
  pending : PendingState
  idx : RunIndex
  catalog : CatalogStore
  writer : WriterPhase
  scan : ScanPhase
  /-- The entries that had been appended when the scan began. -/
  before : List PgTrePendingEntry
  /-- The pages that were in the free log then and have not been given out again. -/
  recyclable : List BlockNumber

/-- A step of a writer or a read of the scan. -/
inductive ScanStep : ScanWorld → ScanWorld → Prop
  /-- An append, or the merge up to its building of a tree, or its work after the finalizing. While
  the scan runs the XID gate keeps pages that were not logged before it. -/
  | list (s : ScanWorld) (p : PendingState) (hstep : PendingStep s.pending p)
      (hconsumed : p.consumed = s.pending.consumed)
      (hwriter : s.writer = .none ∨ p.merge = s.pending.merge)
      (hgate : s.scan = .idle ∨
        ∀ b ∈ s.pending.allocated, b ∉ s.recyclable → b ∈ p.allocated) :
      ScanStep s { s with
        pending := p
        recyclable := s.recyclable.filter fun b => decide (b ∈ p.allocated) }
  /-- A flush appends its run. -/
  | flush (s : ScanWorld) (wmTail : Option BlockNumber) (wmTailN : ℕ)
      (collected : List PgTrePendingEntry) (consumedPages : List BlockNumber) (new : BlockNumber)
      (hmerge : s.pending.merge = .building wmTail wmTailN collected consumedPages)
      (hcollected : collected ≠ []) (hwriter : s.writer = .none)
      (hnew : new ∉ s.catalog.allocated) (run : PgTreRun)
      (hrun : run = { pendingRun (collectPending collected) collected.length s.idx.nBlocks with
        runId := s.idx.assignedId }) :
      ScanStep s { s with
        idx := flushRun s.idx collected
        catalog := s.catalog.append run new
        writer := .flushed }
  /-- A flush finalizes. -/
  | finalize_flush (s : ScanWorld) (wmTail : Option BlockNumber) (wmTailN : ℕ)
      (collected : List PgTrePendingEntry) (consumedPages : List BlockNumber) (p : PendingState)
      (hmerge : s.pending.merge = .building wmTail wmTailN collected consumedPages)
      (hwriter : s.writer = .flushed) (hstep : PendingStep s.pending p)
      (hconsumed : p.consumed = s.pending.consumed ++ [collected]) :
      ScanStep s { s with pending := p, writer := .none }
  /-- A merge into the base tree finalizes: one record swaps the tree and truncates the list. -/
  | finalize_base (s : ScanWorld) (wmTail : Option BlockNumber) (wmTailN : ℕ)
      (collected : List PgTrePendingEntry) (consumedPages : List BlockNumber) (p : PendingState)
      (hmerge : s.pending.merge = .building wmTail wmTailN collected consumedPages)
      (hwriter : s.writer = .none) (hstep : PendingStep s.pending p)
      (hconsumed : p.consumed = s.pending.consumed ++ [collected]) :
      ScanStep s { s with pending := p, idx := mergeBase s.idx collected }
  /-- A pass of the Hanoi merge appends the promoted run. The catalog fits one page. -/
  | promote (s : ScanWorld) (target : ℕ) (new : BlockNumber) (hmerge : s.pending.merge = .idle)
      (hwriter : s.writer = .none) (hnew : new ∉ s.catalog.allocated)
      (hpage : s.idx.catalog.length ≤ 1)
      (htarget : targetLevel s.idx.levelLimit (hanoiCollect s.idx) = some target) :
      ScanStep s { s with
        idx := hanoiAppend s.idx target
        catalog := s.catalog.append (hanoiRecord s.idx target) new
        writer := .promoting s.idx target }
  /-- It rewrites the catalog. -/
  | rewrite (s : ScanWorld) (before idx' : RunIndex) (target : ℕ) (new : BlockNumber)
      (hwriter : s.writer = .promoting before target) (hnew : new ∉ s.catalog.allocated)
      (hpass : hanoiPass before target = (none, idx')) :
      ScanStep s { s with
        idx := idx'
        catalog := s.catalog.rewrite (hanoiSurvivors before target) new
        writer := .none }
  /-- All runs are collapsed into the base tree. -/
  | collapse (s : ScanWorld) (hmerge : s.pending.merge = .idle) (hwriter : s.writer = .none) :
      ScanStep s { s with
        idx := collapseRuns s.idx
        catalog := if s.idx.runCount ≤ 1 then s.catalog else s.catalog.reset }
  /-- An error ends a merge, and leaves what it has written. -/
  | abort (s : ScanWorld) :
      ScanStep s { s with pending := { s.pending with merge := .idle }, writer := .none }
  /-- The scan reads the head of the pending list from the meta page. -/
  | start (s : ScanWorld) (hidle : s.scan = .idle) :
      ScanStep s { s with
        scan := .walking s.pending.list.pendingHead []
        before := s.pending.appended
        recyclable := s.pending.freeLog }
  /-- It reads a page of the list. -/
  | walk (s : ScanWorld) (b : BlockNumber) (walked : List PgTrePendingEntry)
      (hscan : s.scan = .walking (some b) walked) :
      ScanStep s { s with
        scan := .walking (s.pending.list.next b) (walked ++ (s.pending.list.pages b).entries) }
  | walked (s : ScanWorld) (walked : List PgTrePendingEntry)
      (hscan : s.scan = .walking none walked) :
      ScanStep s { s with scan := .looking walked none [] }
  /-- It opens the run catalog to look up a trigram. -/
  | open_catalog (s : ScanWorld) (walked : List PgTrePendingEntry) (found : List (UInt64 × Finset ℕ))
      (h : UInt64) (hscan : s.scan = .looking walked none found) :
      ScanStep s { s with
        scan := .looking walked
          (some ⟨h, .opened s.idx.rootUpper s.catalog.head, none, ∅⟩) found }
  | read (s : ScanWorld) (walked : List PgTrePendingEntry) (l : RunLookup)
      (found : List (UInt64 × Finset ℕ)) (hscan : s.scan = .looking walked (some l) found) :
      ScanStep s { s with scan := .looking walked (some (l.read s.catalog s.idx)) found }
  | close (s : ScanWorld) (walked : List PgTrePendingEntry) (h : UInt64) (tids : Finset ℕ)
      (found : List (UInt64 × Finset ℕ))
      (hscan : s.scan = .looking walked (some ⟨h, .done, none, tids⟩) found) :
      ScanStep s { s with scan := .looking walked none ((h, tids) :: found) }
  | finish (s : ScanWorld) : ScanStep s { s with scan := .idle }

/-- An index that was just built, with nobody at it. -/
def ScanWorld.initial (tree : UpperTree) (nTuples : ℕ) (pk : TidPacking)
    (pages : BlockNumber → PendingPage) (catalogPages : BlockNumber → CatalogPage) : ScanWorld where
  pending := .initial pages
  idx := (builtIndex pk tree nTuples).toRunIndex
  catalog := ⟨none, catalogPages, []⟩
  writer := .none
  scan := .idle
  before := []
  recyclable := []

/-! ## What the writers keep -/

/-- Trees that are there stay as they are, and nothing that was held is lost. -/
structure RunIndex.Extends (idx idx' : RunIndex) : Prop where
  blocks : idx.nBlocks ≤ idx'.nBlocks
  trees : ∀ b < idx.nBlocks, idx'.upperTrees b = idx.upperTrees b
  holds : ∀ {h : UInt64} {tid : ℕ}, idx.Holds h tid → idx'.Holds h tid

section

variable {idx idx' idx'' : RunIndex}

/-- An index extends itself. -/
theorem RunIndex.Extends.refl (idx : RunIndex) : idx.Extends idx where
  blocks := le_rfl
  trees := fun _ _ => rfl
  holds := id

/-- Extensions compose. -/
theorem RunIndex.Extends.trans (h : idx.Extends idx') (h' : idx'.Extends idx'') :
    idx.Extends idx'' where
  blocks := h.blocks.trans h'.blocks
  trees := by
    intro b hb
    rw [h'.trees b (hb.trans_le h.blocks), h.trees b hb]
  holds := fun hold => h'.holds (h.holds hold)

/-- A root written before is read the same afterwards. -/
theorem RunIndex.Extends.treeAt (h : idx.Extends idx') {root : Option BlockNumber}
    (hroot : ∀ b, root = some b → b < idx.nBlocks) : idx'.treeAt root = idx.treeAt root := by
  cases root with
  | none => rfl
  | some b => exact h.trees b (hroot b rfl)

/-- Writing a tree on new blocks extends the index. -/
theorem RunIndex.extends_writeTree (idx : RunIndex) (tree : UpperTree) :
    idx.Extends (idx.writeTree tree) where
  blocks := Nat.le_succ _
  trees := fun b hb => Function.update_of_ne hb.ne _ _
  holds := by
    intro h tid
    rw [RunIndex.holds_iff, RunIndex.holds_iff]
    rintro (hbase | ⟨run, hrun, hmem⟩)
    · left
      have htree := @treeAt_writeTree idx tree idx.rootUpper idx.baseAllocated
      exact htree.symm ▸ hbase
    · right
      have htree := @treeAt_writeTree idx tree run.rootUpper (RunIndex.allocated_of_mem_liveRuns hrun)
      exact ⟨run, hrun, htree.symm ▸ hmem⟩

/-- Appending a live run extends the index. -/
theorem extends_runCatalogAppend {run : PgTreRun}
    (hroot : ∀ b, run.rootUpper = some b → b < idx.nBlocks) (hlive : run.live = true) :
    idx.Extends (runCatalogAppend idx run hroot) where
  blocks := le_rfl
  trees := fun _ _ => rfl
  holds := fun hold => (holds_runCatalogAppend hroot hlive).mpr (Or.inl hold)

/-- A run flushed from the pending list is live. -/
theorem pendingRun_live (mc : MergeCtx) (n : ℕ) (root : BlockNumber) :
    (pendingRun mc n root).live = true := by
  simp [PgTreRun.live, pendingRun, runLive]

/-- A flush adds what the collected entries have. -/
theorem extends_flushRun (idx : RunIndex) (collected : List PgTrePendingEntry) :
    idx.Extends (flushRun idx collected) ∧
      ∀ e ∈ collected, (flushRun idx collected).Holds e.trigramHash e.tid := by
  have hlive := pendingRun_live (collectPending collected) collected.length idx.nBlocks
  have hroot := pendingRun_allocated idx (mergedTree (idx.treeAt idx.rootUpper) true
    (collectPending collected)) (collectPending collected) collected.length
  constructor
  · exact (idx.extends_writeTree _).trans (extends_runCatalogAppend hroot hlive)
  · intro e he
    apply (holds_runCatalogAppend hroot hlive).mpr
    right
    have htree : (idx.writeTree (mergedTree (idx.treeAt idx.rootUpper) true
        (collectPending collected))).treeAt
          (pendingRun (collectPending collected) collected.length idx.nBlocks).rootUpper =
        mergedTree (idx.treeAt idx.rootUpper) true (collectPending collected) :=
      treeAt_writeTree_self
    rw [htree, mem_postings_mergedTree_run, has_collectPending]
    exact ⟨e, he, rfl, rfl⟩

/-- A merge into the base tree adds it too. -/
theorem extends_mergeBase (idx : RunIndex) (collected : List PgTrePendingEntry) :
    idx.Extends (mergeBase idx collected) ∧
      ∀ e ∈ collected, (mergeBase idx collected).Holds e.trigramHash e.tid := by
  have hbase {h : UInt64} {tid : ℕ} : tid ∈ ((mergeBase idx collected).treeAt
      (mergeBase idx collected).rootUpper).postings h ↔
      tid ∈ (idx.treeAt idx.rootUpper).postings h ∨ (collectPending collected).Has h tid := by
    have htree : (mergeBase idx collected).treeAt (mergeBase idx collected).rootUpper =
        mergedTree (idx.treeAt idx.rootUpper) false (collectPending collected) :=
      treeAt_writeTree_self
    rw [htree, mem_postings_mergedTree_base]
  refine ⟨⟨Nat.le_succ _, fun b hb => Function.update_of_ne hb.ne _ _, ?_⟩, ?_⟩
  · intro h tid
    rw [RunIndex.holds_iff, RunIndex.holds_iff]
    rintro (hold | ⟨run, hrun, hmem⟩)
    · exact Or.inl (hbase.mpr (Or.inl hold))
    · right
      refine ⟨run, hrun, ?_⟩
      have htree := @treeAt_writeTree idx (mergedTree (idx.treeAt idx.rootUpper) false
        (collectPending collected)) run.rootUpper (RunIndex.allocated_of_mem_liveRuns hrun)
      exact htree.symm ▸ hmem
  · intro e he
    apply RunIndex.holds_iff.mpr
    left
    apply hbase.mpr
    exact Or.inr (has_collectPending.mpr ⟨e, he, rfl, rfl⟩)

/-- Writing the merged tree extends the index. -/
theorem extends_hanoiWrite (idx : RunIndex) (merged : List PgTreRun) :
    idx.Extends (hanoiWrite idx merged) := by
  unfold hanoiWrite
  split_ifs
  · exact RunIndex.Extends.refl idx
  · exact idx.extends_writeTree _

/-- Appending the merged run extends the index. -/
theorem extends_hanoiAppend (idx : RunIndex) (target : ℕ) :
    idx.Extends (hanoiAppend idx target) :=
  (extends_hanoiWrite idx _).trans
    (extends_runCatalogAppend (promotedRun_allocated idx _ target) (promotedRun_live _ _ _))

/-- The promoted run has nothing new. -/
theorem holds_of_holds_hanoiAppend {target : ℕ} {h : UInt64} {tid : ℕ}
    (hold : (hanoiAppend idx target).Holds h tid) : idx.Holds h tid := by
  rcases (holds_runCatalogAppend (promotedRun_allocated idx _ target)
    (promotedRun_live _ _ _)).mp hold with hold | hold
  · rw [RunIndex.holds_iff] at hold ⊢
    simp only [rootUpper_hanoiWrite, treeAt_hanoiWrite idx.baseAllocated] at hold
    rcases hold with hbase | ⟨run, hrun, hmem⟩
    · exact Or.inl hbase
    · right
      have hmem' : run ∈ idx.liveRuns := by
        unfold hanoiWrite at hrun
        split_ifs at hrun
        · exact hrun
        · exact hrun
      rw [treeAt_hanoiWrite (RunIndex.allocated_of_mem_liveRuns hmem')] at hmem
      exact ⟨run, hmem', hmem⟩
  · rw [mem_postings_promotedRun] at hold
    obtain ⟨run, hrun, hmem⟩ := hold
    exact RunIndex.holds_iff.mpr (Or.inr ⟨run,
      mem_liveRuns_of_mem_hanoiCollect (List.mem_filter.mp hrun).1, hmem⟩)

/-- A rewrite of a catalog that fitted one page loses nothing. -/
theorem extends_hanoiPass {target : ℕ} (hpage : idx.catalog.length ≤ 1)
    (hpass : hanoiPass idx target = (none, idx')) : (hanoiAppend idx target).Extends idx' := by
  obtain ⟨-, -, hholds⟩ := hanoiPass_ok hpass
  unfold hanoiPass at hpass
  dsimp only at hpass
  split at hpass
  next => simp at hpass
  next written hrewrite =>
    obtain ⟨-, htrees, -, -⟩ := catalogRuns_rewrite hrewrite
    have hidx := (Prod.mk.inj hpass).2
    have hblocks : written.nBlocks = (hanoiAppend idx target).nBlocks := by
      unfold runCatalogRewrite at hrewrite
      split at hrewrite
      · rw [← Except.ok.inj hrewrite]
        rfl
      · cases hrewrite
    refine ⟨?_, fun b _ => ?_, fun {h tid} hold => ?_⟩
    · rw [← hidx]
      exact hblocks.ge
    · rw [← hidx]
      exact congrFun htrees b
    · have hfits : idx.liveRuns.length ≤ runCatalogCap := by
        refine (List.length_filter_le _ _).trans ?_
        cases hcat : idx.catalog with
        | nil => simp [catalogRuns]
        | cons page rest =>
          rw [hcat] at hpage
          obtain rfl : rest = [] := List.length_eq_zero_iff.mp (by simpa using hpage)
          simpa [catalogRuns] using page.fits
      apply (hholds h tid).mpr
      have hbefore := RunIndex.holds_iff_take.mp (holds_of_holds_hanoiAppend hold)
      rw [List.drop_eq_nil_of_le hfits] at hbefore
      rcases hbefore with hkept | ⟨run, hrun, -⟩
      · exact hkept
      · cases hrun

/-- The catalog a pass leaves. -/
theorem catalog_hanoiPass {target : ℕ} (hpass : hanoiPass idx target = (none, idx')) :
    ∃ page : RunCatalogPage, page.runs = hanoiSurvivors idx target ∧
      idx'.catalog = if hanoiSurvivors idx target = [] then [] else [page] := by
  unfold hanoiPass at hpass
  dsimp only at hpass
  split at hpass
  next => simp at hpass
  next written hrewrite =>
    have hidx := (Prod.mk.inj hpass).2
    unfold runCatalogRewrite at hrewrite
    split at hrewrite
    next hfits =>
      refine ⟨⟨_, hfits, ?_⟩, rfl, ?_⟩
      · intro run hrun
        rcases List.mem_append.mp hrun with hrun | hrun
        · have hlive := mem_liveRuns_of_mem_hanoiCollect (List.mem_filter.mp hrun).1
          exact runId_pos (RunIndex.mem_liveRuns.mp hlive).1
        · rw [List.mem_singleton.mp hrun]
          exact RunIndex.assignedId_pos _
      · rw [← hidx, ← Except.ok.inj hrewrite]
    next => cases hrewrite

/-- A collapse loses nothing. -/
theorem extends_collapseRuns (idx : RunIndex) : idx.Extends (collapseRuns idx) := by
  unfold collapseRuns
  by_cases hone : idx.runCount ≤ 1
  · rw [if_pos hone]
    exact RunIndex.Extends.refl idx
  · rw [if_neg hone]
    have hheld {h : UInt64} {tid : ℕ} (hold : idx.Holds h tid) :
        (hanoiFold idx idx.iterate).Has h tid := has_hanoiFold.mpr hold
    by_cases hempty : (hanoiFold idx idx.iterate).entries = []
    · refine ⟨?_, fun b hb => ?_, fun hold => ?_⟩
      · simp [hempty]
      · simp [hempty]
      · obtain ⟨tids, hmem, -⟩ := hheld hold
        rw [hempty] at hmem
        cases hmem
    · refine ⟨?_, fun b hb => ?_, fun {h tid} hold => ?_⟩
      · simp only [hempty, if_false]
        exact Nat.le_succ _
      · simp only [hempty, if_false]
        exact Function.update_of_ne hb.ne _ _
      · apply RunIndex.holds_iff.mpr
        left
        have htree := @treeAt_writeTree_self idx (hanoiFold idx idx.iterate).bulkload
        simp only [hempty, if_false]
        exact htree.symm ▸ MergeCtx.mem_postings_bulkload.mpr (hheld hold)

end

/-! ## Lookups -/

/-- The iterator will yield a run that holds the TID. -/
def RunIter.WillFind (c : CatalogStore) (idx : RunIndex) (h : UInt64) (tid : ℕ) (iter : RunIter) :
    Prop :=
  (∃ root head, iter = .opened root head ∧ (∀ b, root = some b → b < idx.nBlocks) ∧
    tid ∈ (idx.treeAt root).postings h) ∨
  ∃ p j run, p ∈ c.allocated ∧ (c.pages p).runs[j]? = some run ∧ iter.Ahead c p j ∧
    run.live = true ∧ (run.minTrigramHash ≤ h ∧ h ≤ run.maxTrigramHash) ∧
    (∀ b, run.rootUpper = some b → b < idx.nBlocks) ∧
    tid ∈ (idx.treeAt run.rootUpper).postings h

/-- The lookup has found the TID or will find it. -/
def RunLookup.Finds (c : CatalogStore) (idx : RunIndex) (tid : ℕ) (l : RunLookup) : Prop :=
  tid ∈ l.tids ∨
  (∃ root, l.root = some root ∧ (∀ b, root = some b → b < idx.nBlocks) ∧
    tid ∈ (idx.treeAt root).postings l.hash) ∨
  l.iter.WillFind c idx l.hash tid

section

variable {c c' : CatalogStore} {idx idx' : RunIndex} {h : UInt64} {tid : ℕ} {l : RunLookup}

/-- A lookup that is opened will find what the index holds. -/
theorem RunLookup.finds_open (hc : c.Represents idx.catalog) (hranges : idx.RangesCover)
    (hold : idx.Holds h tid) :
    RunLookup.Finds c idx tid ⟨h, .opened idx.rootUpper c.head, none, ∅⟩ := by
  refine Or.inr (Or.inr ?_)
  rcases RunIndex.holds_iff.mp hold with hbase | ⟨run, hrun, hmem⟩
  · exact Or.inl ⟨idx.rootUpper, c.head, rfl, idx.baseAllocated, hbase⟩
  · right
    obtain ⟨hin, hlive⟩ := RunIndex.mem_liveRuns.mp hrun
    obtain ⟨p, j, hp, hj, hahead⟩ := hc.ahead hin idx.rootUpper
    obtain ⟨tids, hentry, -⟩ := UpperTree.mem_postings.mp hmem
    have hrange := hranges run hrun h (List.mem_map_of_mem hentry)
    exact ⟨p, j, run, hp, hj, hahead, hlive, hrange, RunIndex.allocated_of_mem_liveRuns hrun, hmem⟩

/-- The writers do not keep a lookup from finding it. -/
theorem RunLookup.Finds.grows (hfinds : l.Finds c idx tid) (hgrows : c.Grows c')
    (hclosed : ∀ b ∈ c.allocated, ∀ b', c.right b = some b' → b' ∈ c.allocated)
    (hidx : idx.Extends idx') : l.Finds c' idx' tid := by
  have hroots {root : Option BlockNumber} (hroot : ∀ b, root = some b → b < idx.nBlocks) :
      ∀ b, root = some b → b < idx'.nBlocks := fun b hb => (hroot b hb).trans_le hidx.blocks
  rcases hfinds with hfound | ⟨root, hl, hroot, hmem⟩ | hwill
  · exact Or.inl hfound
  · refine Or.inr (Or.inl ⟨root, hl, hroots hroot, ?_⟩)
    rw [hidx.treeAt hroot]
    exact hmem
  · refine Or.inr (Or.inr ?_)
    rcases hwill with ⟨root, head, heq, hroot, hmem⟩ |
      ⟨p, j, run, hp, hj, hahead, hlive, hrange, hroot, hmem⟩
    · refine Or.inl ⟨root, head, heq, hroots hroot, ?_⟩
      rw [hidx.treeAt hroot]
      exact hmem
    · obtain ⟨hp', -, hprefix⟩ := hgrows p hp
      refine Or.inr ⟨p, j, run, hp', ?_, hahead.grows hgrows hclosed, hlive, hrange, hroots hroot, ?_⟩
      · obtain ⟨more, hmore⟩ := hprefix
        rw [← hmore, List.getElem?_append_left (List.getElem?_eq_some_iff.mp hj).1]
        exact hj
      · rw [hidx.treeAt hroot]
        exact hmem

/-- A read brings the lookup nearer. -/
theorem RunLookup.Finds.read (hfinds : l.Finds c idx tid)
    (hclosed : ∀ b ∈ c.allocated, ∀ b', c.right b = some b' → b' ∈ c.allocated) :
    (l.read c idx).Finds c idx tid := by
  obtain ⟨h, iter, root, tids⟩ := l
  cases root with
  | some root =>
    rcases hfinds with hfound | ⟨root', heq, -, hmem⟩ | hwill
    · exact Or.inl (Finset.mem_union_left _ hfound)
    · obtain rfl := Option.some.inj heq
      exact Or.inl (Finset.mem_union_right _ hmem)
    · exact Or.inr (Or.inr hwill)
  | none =>
    rcases hfinds with hfound | ⟨root', heq, -⟩ | hwill
    · exact Or.inl hfound
    · cases heq
    · rcases hwill with ⟨root, head, heq, hroot, hmem⟩ |
        ⟨p, j, run, hp, hj, hahead, hlive, hrange, hroot, hmem⟩
      · cases heq
        exact Or.inr (Or.inl ⟨root, rfl, hroot, hmem⟩)
      · rcases hahead.next hclosed hj hlive hrange with hyield | hnext
        · exact Or.inr (Or.inl ⟨run.rootUpper, hyield, hroot, hmem⟩)
        · exact Or.inr (Or.inr (Or.inr
            ⟨p, j, run, hp, hj, hnext, hlive, hrange, hroot, hmem⟩))

end

/-- The pages the iterator has still to load. -/
def RunIter.rest (c : CatalogStore) : RunIter → Option BlockNumber
  | .opened _ head => head
  | .load b => b
  | .at b _ _ => c.right b
  | .done => none

/-- The chain of catalog pages before the iterator comes to an end. -/
def RunIter.Ends (c : CatalogStore) (iter : RunIter) : Prop :=
  (∀ b i n, iter = .at b i n → b ∈ c.allocated) ∧
    ∃ blocks, ChainFrom c.right (iter.rest c) blocks ∧ ∀ b ∈ blocks, b ∈ c.allocated

section

variable {c c' : CatalogStore} {idx : RunIndex} {h : UInt64}

/-- It does so also when the catalog grows. -/
theorem RunIter.Ends.grows {iter : RunIter} (hends : iter.Ends c) (hgrows : c.Grows c') :
    iter.Ends c' := by
  obtain ⟨hat, blocks, hchain, halloc⟩ := hends
  have hrest : iter.rest c' = iter.rest c := by
    cases iter with
    | «at» b i n => exact (hgrows b (hat b i n rfl)).2.1
    | opened rootUpper head => rfl
    | load b => rfl
    | done => rfl
  refine ⟨fun b i n heq => (hgrows b (hat b i n heq)).1, blocks, ?_,
    fun b hb => (hgrows b (halloc b hb)).1⟩
  rw [hrest]
  exact hchain.congr fun b hb => (hgrows b (halloc b hb)).2.1

/-- An iterator at a page that is loaded. -/
theorem RunIter.ends_load {page : Option BlockNumber} {blocks : List BlockNumber}
    (hchain : ChainFrom c.right page blocks) (halloc : ∀ b ∈ blocks, b ∈ c.allocated) :
    RunIter.Ends c (.load page) :=
  ⟨fun _ _ _ heq => absurd heq nofun, blocks, hchain, halloc⟩

/-- An iterator that is done ends. -/
theorem RunIter.ends_done : RunIter.Ends c .done :=
  ⟨fun _ _ _ heq => absurd heq nofun, [], rfl, nofun⟩

/-- A read keeps the iterator on such a chain. -/
theorem RunIter.Ends.next {iter : RunIter} (hends : iter.Ends c) : (iter.next c h).1.Ends c := by
  obtain ⟨hat, blocks, hchain, halloc⟩ := hends
  cases iter with
  | opened rootUpper head => exact RunIter.ends_load hchain halloc
  | load page =>
    cases blocks with
    | nil =>
      obtain rfl : page = none := hchain
      exact RunIter.ends_done
    | cons b blocks =>
      obtain rfl : page = some b := hchain.1
      have hrest : ∀ x ∈ blocks, x ∈ c.allocated :=
        fun x hx => halloc x (List.mem_cons_of_mem _ hx)
      rw [RunIter.next]
      split_ifs
      · exact RunIter.ends_load hchain.2 hrest
      · refine ⟨fun b' i n heq => ?_, blocks, hchain.2, hrest⟩
        cases heq
        exact halloc b List.mem_cons_self
  | «at» b i n =>
    have hstay : RunIter.Ends c (.at b (i + 1) n) := by
      refine ⟨fun b' i' n' heq => ?_, blocks, hchain, halloc⟩
      cases heq
      exact hat b i n rfl
    rw [RunIter.next]
    split_ifs
    · split
      · exact hstay
      · split_ifs
        · exact hstay
        · exact hstay
    · exact RunIter.ends_load hchain halloc
  | done => exact RunIter.ends_done

/-- The reads of a lookup, with nobody in between. -/
def RunLookup.Reads (c : CatalogStore) (idx : RunIndex) : RunLookup → RunLookup → Prop :=
  Relation.ReflTransGen fun l l' => l' = l.read c idx

/-- A lookup whose iterator can come to its end from any later position comes to its end. -/
theorem RunLookup.reads_of_next {iter : RunIter}
    (hnext : ∀ root tids, ∃ tids', RunLookup.Reads c idx
      ⟨h, (iter.next c h).1, root, tids⟩ ⟨h, .done, none, tids'⟩)
    (root : Option (Option BlockNumber)) (tids : Finset ℕ) :
    ∃ tids', RunLookup.Reads c idx ⟨h, iter, root, tids⟩ ⟨h, .done, none, tids'⟩ := by
  have hnone (tids : Finset ℕ) :
      ∃ tids', RunLookup.Reads c idx ⟨h, iter, none, tids⟩ ⟨h, .done, none, tids'⟩ := by
    obtain ⟨tids', hreads⟩ := hnext (iter.next c h).2 tids
    exact ⟨tids', Relation.ReflTransGen.head rfl hreads⟩
  cases root with
  | none => exact hnone tids
  | some root =>
    obtain ⟨tids', hreads⟩ := hnone (tids ∪ (idx.treeAt root).postings h)
    exact ⟨tids', Relation.ReflTransGen.head rfl hreads⟩

/-- From a record of a page on, by induction on the records that are left. -/
theorem RunLookup.reads_at {b : BlockNumber}
    (hload : ∀ root tids, ∃ tids', RunLookup.Reads c idx
      ⟨h, .load (c.right b), root, tids⟩ ⟨h, .done, none, tids'⟩)
    (i n : ℕ) (root : Option (Option BlockNumber)) (tids : Finset ℕ) :
    ∃ tids', RunLookup.Reads c idx ⟨h, .at b i n, root, tids⟩ ⟨h, .done, none, tids'⟩ := by
  induction hk : n - i generalizing i root tids with
  | zero =>
    refine RunLookup.reads_of_next (fun root tids => ?_) root tids
    rw [RunIter.next, if_neg (by omega)]
    exact hload root tids
  | succ k ih =>
    refine RunLookup.reads_of_next (fun root tids => ?_) root tids
    have hnext := ih (i + 1) root tids (by omega)
    rw [RunIter.next, if_pos (by omega)]
    split
    · exact hnext
    · split_ifs
      · exact hnext
      · exact hnext

/-- From the load of a page on, by induction on the chain. -/
theorem RunLookup.reads_load {page : Option BlockNumber} {blocks : List BlockNumber}
    (hchain : ChainFrom c.right page blocks) (root : Option (Option BlockNumber))
    (tids : Finset ℕ) :
    ∃ tids', RunLookup.Reads c idx ⟨h, .load page, root, tids⟩ ⟨h, .done, none, tids'⟩ := by
  induction blocks generalizing page root tids with
  | nil =>
    obtain rfl : page = none := hchain
    refine RunLookup.reads_of_next (fun root tids => ?_) root tids
    cases root with
    | none => exact ⟨tids, Relation.ReflTransGen.refl⟩
    | some root => exact ⟨_, Relation.ReflTransGen.single rfl⟩
  | cons b blocks ih =>
    obtain rfl : page = some b := hchain.1
    refine RunLookup.reads_of_next (fun root tids => ?_) root tids
    rw [RunIter.next]
    split_ifs
    · exact ih hchain.2 root tids
    · exact RunLookup.reads_at (fun root tids => ih hchain.2 root tids) 0 _ root tids

/-- A lookup comes to its end when nobody writes. -/
theorem RunLookup.reads_of_ends {iter : RunIter} (hends : iter.Ends c)
    (root : Option (Option BlockNumber)) (tids : Finset ℕ) :
    ∃ tids', RunLookup.Reads c idx ⟨h, iter, root, tids⟩ ⟨h, .done, none, tids'⟩ := by
  obtain ⟨-, blocks, hchain, -⟩ := hends
  have hload := fun root tids => @RunLookup.reads_load c idx h _ blocks hchain root tids
  cases iter with
  | opened rootUpper head => exact RunLookup.reads_of_next hload root tids
  | load page => exact hload root tids
  | «at» b i n => exact RunLookup.reads_at hload i n root tids
  | done =>
    cases root with
    | none => exact ⟨tids, Relation.ReflTransGen.refl⟩
    | some root => exact ⟨_, Relation.ReflTransGen.single rfl⟩

end

/-! ## The invariant -/

/-- What a writer has put into the catalog. -/
def WriterPhase.Agrees (pending : PendingState) (idx : RunIndex) : WriterPhase → Prop
  | none => True
  | flushed => ∃ wmTail wmTailN collected consumedPages,
      pending.merge = .building wmTail wmTailN collected consumedPages ∧
        ∀ e ∈ collected, idx.Holds e.trigramHash e.tid
  | promoting before target => idx = hanoiAppend before target ∧ before.RangesCover ∧
      before.catalog.length ≤ 1

/-- An entry was walked or is held by the index. -/
def Seen (idx : RunIndex) (walked : List PgTrePendingEntry) (e : PgTrePendingEntry) : Prop :=
  e ∈ walked ∨ idx.Holds e.trigramHash e.tid

/-- Where the entries are that the scan has to find. -/
def ScanPhase.Agrees (pending : PendingState) (blocks recyclable : List BlockNumber)
    (idx : RunIndex) (c : CatalogStore) (before : List PgTrePendingEntry) : ScanPhase → Prop
  | idle => True
  | walking blk walked =>
      ∃ path, ChainFrom pending.list.next blk path ∧
        (∀ b ∈ path, b ∈ pending.allocated ∧ b ∉ recyclable) ∧
        ∀ e ∈ before, Seen idx walked e ∨
          ∃ b ∈ path, b ∈ blocks ∧ e ∈ (pending.list.pages b).entries
  | looking walked lookup found =>
      (∀ e ∈ before, Seen idx walked e) ∧
      (∀ l ∈ lookup, l.iter.Ends c ∧
        ∀ e ∈ before, e.trigramHash = l.hash → e ∈ walked ∨ l.Finds c idx e.tid) ∧
      ∀ f ∈ found, ∀ e ∈ before, e.trigramHash = f.1 → e ∈ walked ∨ e.tid ∈ f.2

/-- The invariant, for the blocks of the pending list. -/
structure ScanWorld.WfOn (s : ScanWorld) (blocks : List BlockNumber) : Prop where
  list : s.pending.WfOn blocks
  consumed : ∀ e ∈ s.pending.consumed.flatten, s.idx.Holds e.trigramHash e.tid
  catalog : s.catalog.Represents s.idx.catalog
  ranges : s.idx.RangesCover
  writer : s.writer.Agrees s.pending s.idx
  scan : s.scan.Agrees s.pending blocks s.recyclable s.idx s.catalog s.before
  recyclable : ∀ b ∈ s.recyclable, b ∈ s.pending.allocated

section

variable {pending p : PendingState} {blocks blocks' recyclable : List BlockNumber}
  {idx idx' : RunIndex} {c c' : CatalogStore} {before : List PgTrePendingEntry} {scan : ScanPhase}

/-- Writers of trees and of the catalog. -/
theorem ScanPhase.Agrees.index (h : scan.Agrees pending blocks recyclable idx c before)
    (hidx : idx.Extends idx') (hgrows : c.Grows c')
    (hclosed : ∀ b ∈ c.allocated, ∀ b', c.right b = some b' → b' ∈ c.allocated) :
    scan.Agrees pending blocks recyclable idx' c' before := by
  cases scan with
  | idle => trivial
  | walking blk walked =>
    obtain ⟨path, hpath, halloc, hbefore⟩ := h
    exact ⟨path, hpath, halloc, fun e he => (hbefore e he).imp_left (Or.imp_right hidx.holds)⟩
  | looking walked lookup found =>
    obtain ⟨hseen, hlookup, hfound⟩ := h
    refine ⟨fun e he => (hseen e he).imp_right hidx.holds, fun l hl => ?_, hfound⟩
    obtain ⟨hends, hfinds⟩ := hlookup l hl
    exact ⟨hends.grows hgrows, fun e he hhash => (hfinds e he hhash).imp_right fun hf =>
      hf.grows hgrows hclosed hidx⟩

/-- A step of the pending list, which takes entries out only after the index holds them. -/
theorem ScanPhase.Agrees.list (h : scan.Agrees pending blocks recyclable idx c before)
    (hlist : pending.WfOn blocks) (hstep : PendingStep pending p)
    (hsurvives : pending.Survives p blocks blocks')
    (hheld : ∀ collected, p.consumed = pending.consumed ++ [collected] →
      ∀ e ∈ collected, idx.Holds e.trigramHash e.tid)
    (hgate : scan = .idle ∨ ∀ b ∈ pending.allocated, b ∉ recyclable → b ∈ p.allocated)
    (hrecyclable : ∀ b ∈ recyclable, b ∈ pending.allocated) {recyclable' : List BlockNumber}
    (hsub : recyclable' ⊆ recyclable) : scan.Agrees p blocks' recyclable' idx c before := by
  cases scan with
  | idle => trivial
  | walking blk walked =>
    obtain ⟨path, hpath, halloc, hbefore⟩ := h
    obtain ⟨more, hmore, hnew⟩ := hstep.chainFrom hlist hpath fun b hb => (halloc b hb).1
    have hkeep := hgate.resolve_left nofun
    refine ⟨path ++ more, hmore, fun b hb => ?_, fun e he => ?_⟩
    · rcases List.mem_append.mp hb with hb | hb
      · obtain ⟨hin, hout⟩ := halloc b hb
        exact ⟨hkeep b hin hout, fun hmem => hout (hsub hmem)⟩
      · obtain ⟨hin, hout⟩ := hnew b hb
        exact ⟨hin, fun hmem => hout (hrecyclable b (hsub hmem))⟩
    · rcases hbefore e he with hseen | ⟨b, hb, hblocks, hmem⟩
      · exact Or.inl hseen
      · rcases hsurvives b hblocks e hmem with ⟨hblocks', hmem'⟩ | ⟨collected, hconsumed, hin⟩
        · exact Or.inr ⟨b, List.mem_append_left _ hb, hblocks', hmem'⟩
        · exact Or.inl (Or.inr (hheld collected hconsumed e hin))
  | looking walked lookup found => exact h

end

/-- A step that makes a merge consume entries gives no page out. -/
theorem PendingStep.allocated_eq {s s' : PendingState} (hstep : PendingStep s s')
    {collected : List PgTrePendingEntry} (h : s'.consumed = s.consumed ++ [collected]) :
    s'.allocated = s.allocated := by
  have hsame (heq : s.consumed = s.consumed ++ [collected]) : False := by
    simp at heq
  cases hstep with
  | finalize wmTail wmTailN trailing collected' consumedPages hmerge htally => rfl
  | begin_batch backend batch hidle hmax => exact absurd h hsame
  | append backend new hbatch hnew => exact absurd h hsame
  | begin_merge hidle hlist => exact absurd h hsame
  | read_meta hmerge => exact absurd h hsame
  | read_empty wmTail hmerge => exact absurd h hsame
  | read_tail head wmTail hmerge => exact absurd h hsame
  | read_page blk wmTail wmTailN collected' consumedPages hmerge => exact absurd h hsame
  | free b pages hmerge => exact absurd h hsame
  | end_merge => exact absurd h hsame
  | recycle b hb => exact absurd h hsame

section

variable {s : ScanWorld} {blocks : List BlockNumber}

/-- A merge finalizes: its entries are held before the list loses them. -/
theorem ScanWorld.WfOn.finalize (h : s.WfOn blocks) {p : PendingState} {idx' : RunIndex}
    {collected : List PgTrePendingEntry} (hstep : PendingStep s.pending p)
    (hconsumed : p.consumed = s.pending.consumed ++ [collected]) (hidx : s.idx.Extends idx')
    (hheld : ∀ e ∈ collected, idx'.Holds e.trigramHash e.tid) (hranges : idx'.RangesCover)
    (hcatalog : s.catalog.Represents idx'.catalog) :
    ∃ blocks', ScanWorld.WfOn { s with pending := p, idx := idx', writer := .none } blocks' := by
  obtain ⟨blocks', hlist, hsurvives⟩ := hstep.wf h.list
  have halloc := hstep.allocated_eq hconsumed
  have hscan := h.scan.index hidx (CatalogStore.Grows.refl s.catalog) h.catalog.closed
  refine ⟨blocks', hlist, fun e he => ?_, hcatalog, hranges, trivial, ?_, fun b hb => ?_⟩
  · dsimp only at he
    rw [hconsumed, List.flatten_append, List.mem_append] at he
    rcases he with he | he
    · exact hidx.holds (h.consumed e he)
    · exact hheld e (by simpa using he)
  · refine hscan.list h.list hstep hsurvives (fun collected' heq => ?_) (Or.inr fun b hb _ => ?_)
      h.recyclable (List.Subset.refl _)
    · rw [hconsumed] at heq
      obtain rfl : collected = collected' := by simpa using heq
      exact hheld
    · rw [halloc]
      exact hb
  · dsimp only
    rw [halloc]
    exact h.recyclable b hb

/-- A writer that leaves the list alone. -/
theorem ScanWorld.WfOn.index (h : s.WfOn blocks) {idx' : RunIndex} {c' : CatalogStore}
    {writer' : WriterPhase} (hidx : s.idx.Extends idx') (hgrows : s.catalog.Grows c')
    (hcatalog : c'.Represents idx'.catalog) (hranges : idx'.RangesCover)
    (hwriter : writer'.Agrees s.pending idx') :
    ScanWorld.WfOn { s with idx := idx', catalog := c', writer := writer' } blocks where
  list := h.list
  consumed := fun e he => hidx.holds (h.consumed e he)
  catalog := hcatalog
  ranges := hranges
  writer := hwriter
  scan := h.scan.index hidx hgrows h.catalog.closed
  recyclable := h.recyclable

/-- A read of the scan. -/
theorem ScanWorld.WfOn.setScan (h : s.WfOn blocks) {scan' : ScanPhase}
    (hscan : scan'.Agrees s.pending blocks s.recyclable s.idx s.catalog s.before) :
    ScanWorld.WfOn { s with scan := scan' } blocks :=
  ⟨h.list, h.consumed, h.catalog, h.ranges, h.writer, hscan, h.recyclable⟩

/-- A step of the pending list that consumes nothing. -/
theorem ScanWorld.WfOn.list_step (h : s.WfOn blocks) {p : PendingState}
    (hstep : PendingStep s.pending p) (hconsumed : p.consumed = s.pending.consumed)
    (hwriter : s.writer = .none ∨ p.merge = s.pending.merge)
    (hgate : s.scan = .idle ∨ ∀ b ∈ s.pending.allocated, b ∉ s.recyclable → b ∈ p.allocated) :
    ∃ blocks', ScanWorld.WfOn { s with
      pending := p
      recyclable := s.recyclable.filter fun b => decide (b ∈ p.allocated) } blocks' := by
  obtain ⟨blocks', hlist, hsurvives⟩ := hstep.wf h.list
  refine ⟨blocks', hlist, ?_, h.catalog, h.ranges, ?_, ?_, fun b hb => ?_⟩
  · dsimp only
    rw [hconsumed]
    exact h.consumed
  · rcases hwriter with hnone | hmerge
    · dsimp only
      rw [hnone]
      trivial
    · have hagrees := h.writer
      dsimp only
      cases hphase : s.writer with
      | none => trivial
      | flushed =>
        rw [hphase] at hagrees
        obtain ⟨wmTail, wmTailN, collected, consumedPages, hbuilding, hheld⟩ := hagrees
        exact ⟨wmTail, wmTailN, collected, consumedPages, hmerge.trans hbuilding, hheld⟩
      | promoting before target =>
        rw [hphase] at hagrees
        exact hagrees
  · refine h.scan.list h.list hstep hsurvives (fun collected heq => ?_) hgate h.recyclable
      List.filter_sublist.subset
    rw [hconsumed] at heq
    simp at heq
  · exact of_decide_eq_true (List.mem_filter.mp hb).2

/-- A pass of the Hanoi merge appends its run. -/
theorem ScanWorld.WfOn.promote (h : s.WfOn blocks) (target : ℕ) {new : BlockNumber}
    (hnew : new ∉ s.catalog.allocated) (hpage : s.idx.catalog.length ≤ 1) :
    ScanWorld.WfOn { s with
      idx := hanoiAppend s.idx target
      catalog := s.catalog.append (hanoiRecord s.idx target) new
      writer := .promoting s.idx target } blocks := by
  obtain ⟨hrep, hgrows⟩ := h.catalog.append hnew (hanoiRecord s.idx target)
    (RunIndex.assignedId_pos _)
  have hwritten : (hanoiWrite s.idx ((hanoiCollect s.idx).filter
      (fun run => decide (run.level = target)))).catalog = s.idx.catalog := by
    unfold hanoiWrite
    split_ifs
    · rfl
    · rfl
  have hcat : (hanoiAppend s.idx target).catalog =
      catalogPush (hanoiRecord s.idx target) (RunIndex.assignedId_pos _) s.idx.catalog := by
    rw [← hwritten]
    rfl
  have hranges : (hanoiAppend s.idx target).RangesCover :=
    (h.ranges.writeMerged _).append (promotedRun_allocated s.idx _ target)
      (promotedRun_covers (h.ranges.merged target))
  refine h.index (extends_hanoiAppend s.idx target) hgrows ?_ hranges ⟨rfl, h.ranges, hpage⟩
  rw [hcat]
  exact hrep

/-- Its pass rewrites the catalog. -/
theorem ScanWorld.WfOn.rewrite (h : s.WfOn blocks) {before idx' : RunIndex} {target : ℕ}
    {new : BlockNumber} (hwriter : s.writer = .promoting before target)
    (hnew : new ∉ s.catalog.allocated) (hpass : hanoiPass before target = (none, idx')) :
    ScanWorld.WfOn { s with
      idx := idx'
      catalog := s.catalog.rewrite (hanoiSurvivors before target) new
      writer := .none } blocks := by
  have hagrees := h.writer
  rw [hwriter] at hagrees
  obtain ⟨hidx, hranges, hpage⟩ := hagrees
  have hextends := extends_hanoiPass hpage hpass
  rw [← hidx] at hextends
  have hranges' := hranges.hanoiPass target
  rw [hpass] at hranges'
  obtain ⟨page, hpageRuns, hcat⟩ := catalog_hanoiPass hpass
  obtain ⟨hrep, hgrows⟩ := h.catalog.rewrite hnew hpageRuns
  rw [← hcat] at hrep
  exact h.index hextends hgrows hrep hranges' trivial

/-- The runs are collapsed. -/
theorem ScanWorld.WfOn.collapse (h : s.WfOn blocks) (hwriter : s.writer = .none) :
    ScanWorld.WfOn { s with
      idx := collapseRuns s.idx
      catalog := if s.idx.runCount ≤ 1 then s.catalog else s.catalog.reset } blocks := by
  have hextends := extends_collapseRuns s.idx
  have hwf : ∀ c', s.catalog.Grows c' → c'.Represents (collapseRuns s.idx).catalog →
      ScanWorld.WfOn { s with idx := collapseRuns s.idx, catalog := c' } blocks := by
    intro c' hgrows hrep
    refine h.index hextends hgrows hrep h.ranges.collapseRuns ?_
    rw [hwriter]
    trivial
  by_cases hone : s.idx.runCount ≤ 1
  · have hsame : collapseRuns s.idx = s.idx := if_pos hone
    have hrep := h.catalog
    rw [← hsame] at hrep
    rw [if_pos hone]
    exact hwf s.catalog (CatalogStore.Grows.refl _) hrep
  · obtain ⟨hrep, hgrows⟩ := h.catalog.reset
    have hempty : (collapseRuns s.idx).catalog = [] := by
      rw [collapseRuns, if_neg hone]
    rw [← hempty] at hrep
    rw [if_neg hone]
    exact hwf s.catalog.reset hgrows hrep

/-- A scan starts at the head of the list: what was appended is held or on a page ahead. -/
theorem ScanWorld.WfOn.start (h : s.WfOn blocks) :
    ScanWorld.WfOn { s with
      scan := .walking s.pending.list.pendingHead []
      before := s.pending.appended
      recyclable := s.pending.freeLog } blocks := by
  have hfree : ∀ b ∈ s.pending.freeLog, b ∈ s.pending.allocated :=
    fun b hb => h.list.alloc b (List.mem_append_right _ hb)
  refine ⟨h.list, h.consumed, h.catalog, h.ranges, h.writer, ?_, hfree⟩
  refine ⟨blocks, h.list.chain.linked, fun b hb => ⟨?_, fun hmem => ?_⟩, fun e he => ?_⟩
  · exact h.list.alloc b (List.mem_append_left _ (List.mem_append_left _ hb))
  · exact (List.nodup_append.mp h.list.distinct).2.2 b (List.mem_append_left _ hb) b hmem rfl
  · dsimp only at he
    rw [h.list.history, List.mem_append] at he
    rcases he with he | he
    · exact Or.inl (Or.inr (h.consumed e he))
    · obtain ⟨b, hb, hmem⟩ := List.mem_flatMap.mp he
      exact Or.inr ⟨b, hb, hb, hmem⟩

/-- It takes the entries of a page and moves on. -/
theorem ScanWorld.WfOn.walk (h : s.WfOn blocks) {b : BlockNumber}
    {walked : List PgTrePendingEntry} (hscan : s.scan = .walking (some b) walked) :
    ScanWorld.WfOn { s with
      scan := .walking (s.pending.list.next b) (walked ++ (s.pending.list.pages b).entries) }
      blocks := by
  have hagrees := h.scan
  rw [hscan] at hagrees
  obtain ⟨path, hpath, halloc, hbefore⟩ := hagrees
  cases path with
  | nil => cases hpath
  | cons b' path =>
    obtain rfl : b = b' := Option.some.inj hpath.1
    refine h.setScan ⟨path, hpath.2, fun x hx => ?_, fun e he => ?_⟩
    · exact halloc x (List.mem_cons_of_mem _ hx)
    · rcases hbefore e he with (hwalked | hheld) | ⟨x, hx, hblocks, hmem⟩
      · exact Or.inl (Or.inl (List.mem_append_left _ hwalked))
      · exact Or.inl (Or.inr hheld)
      · rcases List.mem_cons.mp hx with rfl | hx
        · exact Or.inl (Or.inl (List.mem_append_right _ hmem))
        · exact Or.inr ⟨x, hx, hblocks, hmem⟩

section

variable {walked : List PgTrePendingEntry} {found : List (UInt64 × Finset ℕ)}

/-- The catalog is opened: what was held is found by the lookup that begins. -/
theorem ScanWorld.WfOn.open_catalog (h : s.WfOn blocks) (hash : UInt64)
    (hscan : s.scan = .looking walked none found) :
    ScanWorld.WfOn { s with
      scan := .looking walked (some ⟨hash, .opened s.idx.rootUpper s.catalog.head, none, ∅⟩) found }
      blocks := by
  have hagrees := h.scan
  rw [hscan] at hagrees
  obtain ⟨hseen, -, hfound⟩ := hagrees
  obtain ⟨chain, hchain, -, halloc, -⟩ := h.catalog.chain
  refine h.setScan ⟨hseen, fun l hl => ?_, hfound⟩
  obtain rfl := Option.some.inj hl
  refine ⟨⟨nofun, chain, hchain, halloc⟩, fun e he hhash => ?_⟩
  rcases hseen e he with hwalked | hheld
  · exact Or.inl hwalked
  · rw [hhash] at hheld
    exact Or.inr (RunLookup.finds_open h.catalog h.ranges hheld)

/-- A read of the lookup. -/
theorem ScanWorld.WfOn.read (h : s.WfOn blocks) {l : RunLookup}
    (hscan : s.scan = .looking walked (some l) found) :
    ScanWorld.WfOn { s with scan := .looking walked (some (l.read s.catalog s.idx)) found }
      blocks := by
  have hagrees := h.scan
  rw [hscan] at hagrees
  obtain ⟨hseen, hlookup, hfound⟩ := hagrees
  obtain ⟨hends, hfinds⟩ := hlookup l rfl
  refine h.setScan ⟨hseen, fun l' hl' => ?_, hfound⟩
  obtain rfl := Option.some.inj hl'
  have hhash : (l.read s.catalog s.idx).hash = l.hash := by
    unfold RunLookup.read
    split
    · rfl
    · rfl
  refine ⟨?_, fun e he heq => ?_⟩
  · unfold RunLookup.read
    split
    · exact hends
    · exact hends.next
  · rw [hhash] at heq
    exact (hfinds e he heq).imp_right fun hf => hf.read h.catalog.closed

/-- A lookup that is done has found what was held. -/
theorem ScanWorld.WfOn.close (h : s.WfOn blocks) {hash : UInt64} {tids : Finset ℕ}
    (hscan : s.scan = .looking walked (some ⟨hash, .done, none, tids⟩) found) :
    ScanWorld.WfOn { s with scan := .looking walked none ((hash, tids) :: found) } blocks := by
  have hagrees := h.scan
  rw [hscan] at hagrees
  obtain ⟨hseen, hlookup, hfound⟩ := hagrees
  refine h.setScan ⟨hseen, nofun, fun f hf e he heq => ?_⟩
  rcases List.mem_cons.mp hf with rfl | hf
  · rcases (hlookup _ rfl).2 e he heq with hwalked | hin | ⟨root, hroot, -⟩ | hwill
    · exact Or.inl hwalked
    · exact Or.inr hin
    · cases hroot
    · rcases hwill with ⟨root, head, hiter, -⟩ | ⟨p, j, run, -, -, hahead, -⟩
      · cases hiter
      · exact absurd hahead id
  · exact hfound f hf e he heq

end

end

/-- Every step keeps the invariant. -/
theorem ScanStep.wf {s s' : ScanWorld} (hstep : ScanStep s s') {blocks : List BlockNumber}
    (h : s.WfOn blocks) : ∃ blocks', s'.WfOn blocks' := by
  cases hstep with
  | list p hstep hconsumed hwriter hgate => exact h.list_step hstep hconsumed hwriter hgate
  | flush wmTail wmTailN collected consumedPages new hmerge hcollected hwriter hnew run hrun =>
    obtain ⟨hidx, hheld⟩ := extends_flushRun s.idx collected
    obtain ⟨hrep, hgrows⟩ := h.catalog.append hnew run (by
      rw [hrun]
      exact s.idx.assignedId_pos)
    subst hrun
    exact ⟨blocks, h.index hidx hgrows hrep (h.ranges.flushRun collected)
      ⟨wmTail, wmTailN, collected, consumedPages, hmerge, hheld⟩⟩
  | finalize_flush wmTail wmTailN collected consumedPages p hmerge hwriter hstep hconsumed =>
    have hagrees := h.writer
    rw [hwriter] at hagrees
    obtain ⟨wmTail', wmTailN', collected', consumedPages', hbuilding, hheld⟩ := hagrees
    rw [hmerge] at hbuilding
    cases hbuilding
    exact h.finalize hstep hconsumed (RunIndex.Extends.refl s.idx) hheld h.ranges h.catalog
  | finalize_base wmTail wmTailN collected consumedPages p hmerge hwriter hstep hconsumed =>
    obtain ⟨hidx, hheld⟩ := extends_mergeBase s.idx collected
    obtain ⟨blocks', hwf⟩ := h.finalize hstep hconsumed hidx hheld (h.ranges.swapBase _ _) h.catalog
    rw [← hwriter] at hwf
    exact ⟨blocks', hwf⟩
  | promote target new hmerge hwriter hnew hpage htarget =>
    exact ⟨blocks, h.promote target hnew hpage⟩
  | rewrite before idx' target new hwriter hnew hpass =>
    exact ⟨blocks, h.rewrite hwriter hnew hpass⟩
  | collapse hmerge hwriter => exact ⟨blocks, h.collapse hwriter⟩
  | abort =>
    obtain ⟨blocks', hlist, hsurvives⟩ := (PendingStep.end_merge s.pending).wf h.list
    refine ⟨blocks', hlist, h.consumed, h.catalog, h.ranges, trivial, ?_, h.recyclable⟩
    refine h.scan.list h.list (PendingStep.end_merge s.pending) hsurvives (fun collected heq => ?_)
      (Or.inr fun b hb _ => hb) h.recyclable (List.Subset.refl _)
    simp at heq
  | start hidle => exact ⟨blocks, h.start⟩
  | walk b walked hscan => exact ⟨blocks, h.walk hscan⟩
  | walked walked hscan =>
    have hagrees := h.scan
    rw [hscan] at hagrees
    obtain ⟨path, hpath, -, hbefore⟩ := hagrees
    have hnil : path = [] := List.head?_eq_none_iff.mp hpath.head?_eq.symm
    refine ⟨blocks, h.setScan ⟨fun e he => ?_, nofun, nofun⟩⟩
    rcases hbefore e he with hseen | ⟨x, hx, -⟩
    · exact hseen
    · rw [hnil] at hx
      cases hx
  | open_catalog walked found hash hscan => exact ⟨blocks, h.open_catalog hash hscan⟩
  | read walked l found hscan => exact ⟨blocks, h.read hscan⟩
  | close walked hash tids found hscan => exact ⟨blocks, h.close hscan⟩
  | finish => exact ⟨blocks, h.setScan trivial⟩

/-- Every run keeps the invariant. -/
theorem wf_of_scanRun {tree : UpperTree} {nTuples : ℕ} {pk : TidPacking}
    {pages : BlockNumber → PendingPage} {catalogPages : BlockNumber → CatalogPage} {s : ScanWorld}
    (hrun : Relation.ReflTransGen ScanStep (.initial tree nTuples pk pages catalogPages) s) :
    ∃ blocks, s.WfOn blocks := by
  induction hrun with
  | refl =>
    obtain ⟨blocks, hlist⟩ := @wf_of_pendingRun pages _ Relation.ReflTransGen.refl
    refine ⟨blocks, hlist, nofun, ⟨⟨[], rfl, List.nodup_nil, nofun, rfl⟩, nofun⟩, ?_, trivial,
      trivial, nofun⟩
    exact (IndexReachable.build pk tree nTuples).rangesCover
  | tail _ hstep ih =>
    obtain ⟨blocks, hwf⟩ := ih
    exact hstep.wf hwf

/-! ## The scan by itself -/

/-- The reads of the scan, with nobody in between. -/
def ScanWorld.Reads (s : ScanWorld) (scan : ScanPhase) : Prop :=
  Relation.ReflTransGen ScanStep s { s with scan := scan }

section

variable {s : ScanWorld} {walked : List PgTrePendingEntry} {found : List (UInt64 × Finset ℕ)}

/-- One read and then others. -/
theorem ScanWorld.Reads.head {scan scan' : ScanPhase} (hstep : ScanStep s { s with scan := scan' })
    (h : ScanWorld.Reads { s with scan := scan' } scan) : s.Reads scan :=
  Relation.ReflTransGen.head hstep h

/-- Two stretches of a scan make one. -/
theorem ScanWorld.Reads.trans {scan scan' : ScanPhase} (h : s.Reads scan')
    (h' : ScanWorld.Reads { s with scan := scan' } scan) : s.Reads scan :=
  Relation.ReflTransGen.trans h h'

/-- The reads of a lookup are reads of the scan. -/
theorem RunLookup.Reads.scan {l l' : RunLookup} (h : RunLookup.Reads s.catalog s.idx l l')
    (hscan : s.scan = .looking walked (some l) found) :
    s.Reads (.looking walked (some l') found) := by
  induction h with
  | refl =>
    rw [← hscan]
    exact Relation.ReflTransGen.refl
  | tail _ hread ih =>
    subst hread
    exact ih.trans (Relation.ReflTransGen.single (.read _ walked _ found rfl))

/-- A lookup that is under way is closed. -/
theorem ScanWorld.reads_close {l : RunLookup} (hscan : s.scan = .looking walked (some l) found)
    (hends : l.iter.Ends s.catalog) :
    ∃ tids, s.Reads (.looking walked none ((l.hash, tids) :: found)) := by
  obtain ⟨tids, hreads⟩ :=
    @RunLookup.reads_of_ends s.catalog s.idx l.hash l.iter hends l.root l.tids
  exact ⟨tids, (hreads.scan hscan).trans (Relation.ReflTransGen.single (.close _ _ _ _ _ rfl))⟩

/-- A trigram is looked up. -/
theorem ScanWorld.reads_lookup (hcatalog : ∃ blocks, ChainFrom s.catalog.right s.catalog.head blocks ∧
      ∀ b ∈ blocks, b ∈ s.catalog.allocated)
    (hscan : s.scan = .looking walked none found) (h : UInt64) :
    ∃ tids, s.Reads (.looking walked none ((h, tids) :: found)) := by
  obtain ⟨blocks, hchain, halloc⟩ := hcatalog
  have hends : RunIter.Ends s.catalog (.opened s.idx.rootUpper s.catalog.head) :=
    ⟨nofun, blocks, hchain, halloc⟩
  obtain ⟨tids, hreads⟩ := @ScanWorld.reads_close
    { s with
      scan := .looking walked
        (some ⟨h, .opened s.idx.rootUpper s.catalog.head, none, ∅⟩) found } walked found _ rfl hends
  exact ⟨tids, ScanWorld.Reads.head (.open_catalog s walked found h hscan) hreads⟩

/-- A walk comes to its end. -/
theorem ScanWorld.reads_walk {path : List BlockNumber} {blk : Option BlockNumber}
    (hpath : ChainFrom s.pending.list.next blk path) (hscan : s.scan = .walking blk walked) :
    ∃ walked', s.Reads (.looking walked' none []) := by
  induction path generalizing s blk walked with
  | nil =>
    obtain rfl : blk = none := hpath
    exact ⟨walked, Relation.ReflTransGen.single (.walked s walked hscan)⟩
  | cons b path ih =>
    obtain rfl : blk = some b := hpath.1
    obtain ⟨walked', hreads⟩ := @ih { s with
      scan := .walking (s.pending.list.next b) (walked ++ (s.pending.list.pages b).entries) } _ _
      hpath.2 rfl
    exact ⟨walked', ScanWorld.Reads.head (.walk s b walked hscan) hreads⟩

/-- A scan that has begun can look up any trigram. -/
theorem ScanWorld.WfOn.reads {blocks : List BlockNumber} (hwf : s.WfOn blocks)
    (hscan : s.scan ≠ .idle) (h : UInt64) :
    ∃ walked found tids, s.Reads (.looking walked none ((h, tids) :: found)) := by
  have hcatalog : ∃ blocks, ChainFrom s.catalog.right s.catalog.head blocks ∧
      ∀ b ∈ blocks, b ∈ s.catalog.allocated := by
    obtain ⟨chain, hchain, -, halloc, -⟩ := hwf.catalog.chain
    exact ⟨chain, hchain, halloc⟩
  have hlook {walked : List PgTrePendingEntry} {found : List (UInt64 × Finset ℕ)}
      (hreads : s.Reads (.looking walked none found)) :
      ∃ walked found tids, s.Reads (.looking walked none ((h, tids) :: found)) := by
    obtain ⟨tids, hmore⟩ := @ScanWorld.reads_lookup { s with scan := .looking walked none found }
      walked found hcatalog rfl h
    exact ⟨walked, found, tids, hreads.trans hmore⟩
  have hagrees := hwf.scan
  cases hphase : s.scan with
  | idle => exact absurd hphase hscan
  | walking blk walked =>
    rw [hphase] at hagrees
    obtain ⟨path, hpath, -, -⟩ := hagrees
    obtain ⟨walked', hreads⟩ := ScanWorld.reads_walk hpath hphase
    exact hlook hreads
  | looking walked lookup found =>
    rw [hphase] at hagrees
    cases lookup with
    | none =>
      apply hlook
      rw [← hphase]
      exact Relation.ReflTransGen.refl
    | some l =>
      obtain ⟨tids, hreads⟩ := ScanWorld.reads_close hphase (hagrees.2.1 l rfl).1
      exact hlook hreads

end

/-- Whatever writers do between the reads of a scan, an entry that was appended before the scan
began was walked, or every lookup of its trigram that is over has found its TID. A scan that has
begun can finish its walk and look up any trigram. -/
theorem scan_finds_appended {tree : UpperTree} {nTuples : ℕ} {pk : TidPacking}
    {pages : BlockNumber → PendingPage} {catalogPages : BlockNumber → CatalogPage} {s : ScanWorld}
    (hrun : Relation.ReflTransGen ScanStep (.initial tree nTuples pk pages catalogPages) s) :
    (∀ walked lookup found, s.scan = .looking walked lookup found →
      ∀ e ∈ s.before, ∀ tids, (e.trigramHash, tids) ∈ found → e ∈ walked ∨ e.tid ∈ tids) ∧
    (s.scan ≠ .idle → ∀ h, ∃ walked found tids,
      s.Reads (.looking walked none ((h, tids) :: found))) := by
  obtain ⟨blocks, hwf⟩ := wf_of_scanRun hrun
  constructor
  · intro walked lookup found hscan e he tids hf
    have hagrees := hwf.scan
    rw [hscan] at hagrees
    exact hagrees.2.2 _ hf e he rfl
  · exact hwf.reads

/-- An entry is merged into a run before a scan begins, the runs are collapsed before the lookup,
and the lookup finds the entry's TID in the new base tree. -/
theorem scan_finds_appended_collapsed :
    ∃ s, Relation.ReflTransGen ScanStep
        (.initial .empty 0 .dense (fun _ => ⟨none, []⟩) (fun _ => ⟨none, []⟩)) s ∧
      s.before = [⟨1, 1, 0⟩] ∧ s.idx.catalog = [] ∧
      ∃ tids, s.scan = .looking [] none [(1, tids)] ∧ 1 ∈ tids := by
  have hrun : Relation.ReflTransGen ScanStep
      (.initial .empty 0 .dense (fun _ => ⟨none, []⟩) (fun _ => ⟨none, []⟩)) _ :=
    ((((((((((((Relation.ReflTransGen.refl.tail
      (.list _ _ (.begin_batch _ 0 [⟨1, 1, 0⟩] rfl (by decide)) rfl (.inl rfl) (.inl rfl))).tail
      (.list _ _ (.append _ 0 5 (by simp) (by simp [ScanWorld.initial, PendingState.initial]))
        rfl (.inl rfl) (.inl rfl))).tail
      (.list _ _ (.begin_merge _ rfl (by decide)) rfl (.inl rfl) (.inl rfl))).tail
      (.list _ _ (.read_meta _ rfl) rfl (.inl rfl) (.inl rfl))).tail
      (.list _ _ (.read_tail _ 5 5 rfl) rfl (.inl rfl) (.inl rfl))).tail
      (.list _ _ (.read_page _ 5 _ _ _ _ rfl) rfl (.inl rfl) (.inl rfl))).tail
      (.flush _ _ _ [⟨1, 1, 0⟩] _ 7 rfl (by simp) rfl (by simp [ScanWorld.initial]) _ rfl)).tail
      (.finalize_flush _ _ _ [⟨1, 1, 0⟩] _ _ rfl rfl
        (.finalize _ _ _ 0 _ _ rfl (by rintro t ⟨⟩; exact Tally.done)) rfl)).tail
      (.abort _)).tail
      (.start _ rfl)).tail
      (.walked _ [] rfl)).tail
      (.collapse _ rfl rfl))
  obtain ⟨blocks, hwf⟩ := wf_of_scanRun hrun
  obtain ⟨chain, hchain, -, halloc, -⟩ := hwf.catalog.chain
  obtain ⟨tids, hreads⟩ := ScanWorld.reads_lookup ⟨chain, hchain, halloc⟩ rfl 1
  have hrun' := hrun.trans hreads
  have hfound := (scan_finds_appended hrun').1 _ _ _ rfl ⟨1, 1, 0⟩ List.mem_cons_self tids
    List.mem_cons_self
  refine ⟨_, hrun', rfl, rfl, tids, rfl, ?_⟩
  exact hfound.resolve_left (by rintro ⟨⟩)

end PgTre
