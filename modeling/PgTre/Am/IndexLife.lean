import PgTre.Am.CandidateSet
import PgTre.Pages.PendingMerge

/-!
# The life of an index

An index is built, takes inserts into its pending list, and is merged and vacuumed: pending
entries go into the base tree or into a new run, the Hanoi merge and the collapse fold runs, and
`pg_tre_ambulkdelete` strips dead TIDs from the postings. A posting that loses all its TIDs stays
in its tree. In every state the hash range of a live run covers the trigrams of the run's tree,
so that a scan may skip the run by its range.
-/

namespace PgTre

/-! ## Operations -/

/-- The run of a flush: `lo_hash` and `hi_hash` are the first and the last of the sorted hashes,
and the number of tuples is estimated from the number of consumed entries. -/
def pendingRun (mc : MergeCtx) (nConsumed : ℕ) (root : BlockNumber) : PgTreRun where
  runId := 0
  level := 1
  flags := runLive
  rootUpper := some root
  rootRange := none
  nTuples := if nConsumed / 5 = 0 ∧ 0 < nConsumed then 1 else nConsumed / 5
  nTrigrams := mc.entries.length
  minTrigramHash := (mc.sorted.head?.map Prod.fst).getD 0
  maxTrigramHash := (mc.sorted.getLast?.map Prod.fst).getD 0

/-- Its root is that of the tree written for it. -/
theorem pendingRun_allocated (idx : RunIndex) (tree : UpperTree) (mc : MergeCtx) (n : ℕ) :
    ∀ b, (pendingRun mc n idx.nBlocks).rootUpper = some b → b < (idx.writeTree tree).nBlocks := by
  intro b hb
  obtain rfl := Option.some.inj hb
  exact Nat.lt_succ_self idx.nBlocks

/-- The index with the tree of a merge as its base tree. The old tree's pages are logged as free
unless a catalogued run has them too. -/
def RunIndex.swapBase (idx : RunIndex) (tree : UpperTree) (nTrigrams nTuplesIndexed : ℕ) : RunIndex :=
  { idx.writeTree tree with
    rootUpper := some idx.nBlocks
    nTrigrams := nTrigrams
    nTuplesIndexed := nTuplesIndexed
    freeLog := idx.freeLog ++
      (if idx.liveRuns.any (fun run => decide (run.rootUpper = idx.rootUpper)) then []
        else idx.rootUpper.toList)
    baseAllocated := fun b hb => by
      obtain rfl := Option.some.inj hb
      exact Nat.lt_succ_self idx.nBlocks }

/-- `pg_tre_pending_merge` on the whole pending list, without its truncation. -/
def mergePending (flushToRun : Bool) (idx : ScanIndex) : RunIndex :=
  let mc := collectPending idx.pending
  let tree := mergedTree (idx.treeAt idx.rootUpper) flushToRun mc
  if flushToRun then
    runCatalogAppend (idx.writeTree tree) (pendingRun mc idx.pending.length idx.nBlocks)
      (pendingRun_allocated idx.toRunIndex tree mc idx.pending.length)
  else idx.swapBase tree mc.entries.length (idx.nTuplesIndexed + idx.pending.length / 5)

/-- The index with the run that a flush builds of the collected entries. -/
def flushRun (idx : RunIndex) (collected : List PgTrePendingEntry) : RunIndex :=
  let mc := collectPending collected
  let tree := mergedTree (idx.treeAt idx.rootUpper) true mc
  runCatalogAppend (idx.writeTree tree) (pendingRun mc collected.length idx.nBlocks)
    (pendingRun_allocated idx tree mc collected.length)

/-- The index with the collected entries in its base tree. -/
def mergeBase (idx : RunIndex) (collected : List PgTrePendingEntry) : RunIndex :=
  let mc := collectPending collected
  idx.swapBase (mergedTree (idx.treeAt idx.rootUpper) false mc) mc.entries.length
    (idx.nTuplesIndexed + collected.length / 5)

/-- A merge of the whole list does one of the two. -/
theorem mergePending_eq (flushToRun : Bool) (idx : ScanIndex) :
    mergePending flushToRun idx =
      if flushToRun then flushRun idx.toRunIndex idx.pending
      else mergeBase idx.toRunIndex idx.pending := by
  cases flushToRun with
  | false => rfl
  | true => rfl

/-- `pg_tre_pending_merge`. -/
def pendingMerge (flushToRun : Bool) (idx : ScanIndex) : ScanIndex :=
  if idx.pending = [] then idx
  else
    { idx with
      toRunIndex := mergePending flushToRun idx
      pending := []
      pendingPacked := idx.noPending_packed }

/-- `pg_tre_run_count`. -/
def RunIndex.runCount (idx : RunIndex) : ℕ := if idx.nRuns = 0 then 1 else idx.nRuns

/-- `pg_tre_collapse_runs`: all runs folded into one new base tree. -/
def collapseRuns (idx : RunIndex) : RunIndex :=
  if idx.runCount ≤ 1 then idx
  else
    let mc := hanoiFold idx idx.iterate
    { (if mc.entries = [] then idx else idx.writeTree mc.bulkload) with
      rootUpper := if mc.entries = [] then none else some idx.nBlocks
      nTrigrams := mc.entries.length
      nRuns := 0
      catalog := []
      freeLog := idx.freeLog ++ idx.iterate.filterMap (·.rootUpper)
      baseAllocated := fun b hb => by
        split_ifs at hb ⊢
        obtain rfl := Option.some.inj hb
        exact Nat.lt_succ_self idx.nBlocks
      runsAllocated := by simp [catalogRuns] }

/-- A tree without its dead TIDs. An emptied posting stays. -/
def UpperTree.deleteDead (tree : UpperTree) (dead : ℕ → Bool) : UpperTree where
  entries := tree.entries.map fun e => (e.1, e.2.filter fun tid => dead tid = false)
  ascending := by
    rw [List.pairwise_map]
    exact tree.ascending

/-- `pg_tre_posting_bulk_delete`: every tree of the base and of a live run. -/
def postingBulkDelete (dead : ℕ → Bool) (idx : RunIndex) : RunIndex :=
  { idx with
    upperTrees := fun b =>
      if idx.iterate.any (fun run => decide (run.rootUpper = some b)) then
        (idx.upperTrees b).deleteDead dead
      else idx.upperTrees b }

/-- `pg_tre_ambulkdelete`: the pending list is merged first. -/
def ambulkdelete (flushToRun : Bool) (dead : ℕ → Bool) (idx : ScanIndex) : ScanIndex :=
  { pendingMerge flushToRun idx with
    toRunIndex := postingBulkDelete dead (pendingMerge flushToRun idx).toRunIndex }

/-- The tree a build writes starts at block 1, which is allocated. -/
theorem builtRoot_allocated (tree : UpperTree) (b : BlockNumber)
    (hb : (if tree.entries = [] then none else some 1) = some b) : b < 2 := by
  split_ifs at hb
  obtain rfl := Option.some.inj hb
  exact Nat.one_lt_two

/-- An empty catalog names no unallocated root. -/
theorem noRuns_allocated :
    ∀ run ∈ catalogRuns [], ∀ b : BlockNumber, run.rootUpper = some b → b < 2 := by
  simp [catalogRuns]

/-- The index after `CREATE INDEX`: one tree and no runs. -/
def builtIndex (pk : TidPacking) (tree : UpperTree) (nTuples : ℕ) : ScanIndex where
  rootUpper := if tree.entries = [] then none else some 1
  rootRange := none
  nTuplesIndexed := nTuples
  nTrigrams := tree.entries.length
  nextRunId := 1
  maxLevels := 7
  nRuns := 0
  catalog := []
  upperTrees := fun _ => tree
  nBlocks := 2
  freeLog := []
  levels := default_levels
  baseAllocated := builtRoot_allocated tree
  runsAllocated := noRuns_allocated
  tidPacking := pk
  pending := []
  pendingPacked := noEntries_packed pk

/-- The states of an index. A flush may stop between the append of its run and the truncation of
the pending list. -/
inductive IndexReachable : ScanIndex → Prop
  | build (pk : TidPacking) (tree : UpperTree) (nTuples : ℕ) :
      IndexReachable (builtIndex pk tree nTuples)
  | insert {idx : ScanIndex} (entries : List PgTrePendingEntry)
      (hpacked : ∀ e ∈ entries, Packed idx.tidPacking e.tid) : IndexReachable idx →
      IndexReachable { idx with
        pending := idx.pending ++ entries
        pendingPacked := fun e he => (List.mem_append.mp he).elim (idx.pendingPacked e) (hpacked e) }
  | merge {idx : ScanIndex} (flushToRun : Bool) : IndexReachable idx →
      IndexReachable (pendingMerge flushToRun idx)
  | flushAppend {idx : ScanIndex} : IndexReachable idx → idx.pending ≠ [] →
      IndexReachable { idx with toRunIndex := mergePending true idx }
  | hanoi {idx : ScanIndex} : IndexReachable idx →
      IndexReachable { idx with toRunIndex := (hanoiMerge idx.toRunIndex).2 }
  | collapse {idx : ScanIndex} : IndexReachable idx →
      IndexReachable { idx with toRunIndex := collapseRuns idx.toRunIndex }
  | vacuum {idx : ScanIndex} (flushToRun : Bool) (dead : ℕ → Bool) : IndexReachable idx →
      IndexReachable (ambulkdelete flushToRun dead idx)

/-! ## Hash ranges -/

/-- The hash range of a run covers a tree. -/
def PgTreRun.Covers (run : PgTreRun) (tree : UpperTree) : Prop :=
  ∀ h ∈ tree.entries.map Prod.fst, run.minTrigramHash ≤ h ∧ h ≤ run.maxTrigramHash

/-- The range of every live run covers the run's tree. -/
def RunIndex.RangesCover (idx : RunIndex) : Prop :=
  ∀ run ∈ idx.liveRuns, run.Covers (idx.treeAt run.rootUpper)

section

variable {idx : RunIndex} {tree : UpperTree}

/-- Writing a tree at a fresh root leaves the others. -/
theorem treeAt_writeTree {root : Option BlockNumber} (hroot : ∀ b, root = some b → b < idx.nBlocks) :
    (idx.writeTree tree).treeAt root = idx.treeAt root := by
  cases root with
  | none => rfl
  | some b =>
    have hne : b ≠ idx.nBlocks := (hroot b rfl).ne
    simp only [RunIndex.treeAt, RunIndex.writeTree, Function.update_of_ne hne]

/-- The tree at the fresh root. -/
theorem treeAt_writeTree_self : (idx.writeTree tree).treeAt (some idx.nBlocks) = tree := by
  simp [RunIndex.treeAt, RunIndex.writeTree]

/-- Writing a tree keeps the ranges. -/
theorem RunIndex.RangesCover.writeTree (h : idx.RangesCover) : (idx.writeTree tree).RangesCover := by
  intro run hrun
  have hold : run ∈ idx.liveRuns := hrun
  rw [treeAt_writeTree (RunIndex.allocated_of_mem_liveRuns hold)]
  exact h run hold

/-- So does appending a run whose range covers its tree. -/
theorem RunIndex.RangesCover.append (h : idx.RangesCover) {run : PgTreRun}
    (hroot : ∀ b, run.rootUpper = some b → b < idx.nBlocks)
    (hrun : run.Covers (idx.treeAt run.rootUpper)) : (runCatalogAppend idx run hroot).RangesCover := by
  intro r hr
  have htree : (runCatalogAppend idx run hroot).treeAt r.rootUpper = idx.treeAt r.rootUpper :=
    treeAt_congr rfl r.rootUpper
  rw [htree]
  obtain ⟨hmem, hlive⟩ := RunIndex.mem_liveRuns.mp hr
  rw [runCatalogAppend, mem_catalogPush] at hmem
  rcases hmem with rfl | hold
  · exact hrun
  · exact h r (RunIndex.mem_liveRuns.mpr ⟨hold, hlive⟩)

/-- The first and the last of ascending hashes enclose them. -/
theorem pendingRun_covers (mc : MergeCtx) (n : ℕ) (root : BlockNumber) {tree : UpperTree}
    (htree : ∀ h ∈ tree.entries.map Prod.fst, h ∈ mc.entries.map Prod.fst) :
    (pendingRun mc n root).Covers tree := by
  intro h hh
  have hsorted : h ∈ mc.sorted.map Prod.fst := by
    have hperm := (List.mergeSort_perm mc.entries (fun e e' => decide (e.1 ≤ e'.1))).map Prod.fst
    exact hperm.mem_iff.mpr (htree h hh)
  obtain ⟨e, he, rfl⟩ := List.mem_map.mp hsorted
  have hasc := mc.sorted_ascending
  simp only [pendingRun]
  constructor
  · cases hlist : mc.sorted with
    | nil => simp [hlist] at he
    | cons first rest =>
      rw [hlist] at he hasc
      rcases List.mem_cons.mp he with rfl | he
      · exact UInt64.le_refl _
      · exact UInt64.le_of_lt ((List.pairwise_cons.mp hasc).1 e he)
  · rcases List.eq_nil_or_concat mc.sorted with hlist | ⟨rest, last, hlist⟩
    · simp [hlist] at he
    · rw [hlist] at he hasc ⊢
      rw [List.concat_eq_append] at he hasc ⊢
      simp only [List.getLast?_concat, Option.map_some, Option.getD_some]
      rcases List.mem_append.mp he with he | he
      · exact UInt64.le_of_lt ((List.pairwise_append.mp hasc).2.2 e he last
          (List.mem_singleton_self last))
      · rw [List.mem_singleton.mp he]
        exact UInt64.le_refl _

/-- The loop over the merged runs ends at or below each of their lower ends. -/
theorem foldl_min_le {merged : List PgTreRun} {run : PgTreRun} (hrun : run ∈ merged) (start : UInt64) :
    merged.foldl (fun lo run => if run.minTrigramHash < lo then run.minTrigramHash else lo) start ≤
      run.minTrigramHash := by
  have hstart (l : List PgTreRun) (lo : UInt64) :
      l.foldl (fun lo run => if run.minTrigramHash < lo then run.minTrigramHash else lo) lo ≤ lo := by
    induction l generalizing lo with
    | nil => exact UInt64.le_refl lo
    | cons r l ih =>
      rw [List.foldl_cons]
      split_ifs with hless
      · exact UInt64.le_trans (ih _) (UInt64.le_of_lt hless)
      · exact ih lo
  induction merged generalizing start with
  | nil => cases hrun
  | cons r merged ih =>
    rw [List.foldl_cons]
    rcases List.mem_cons.mp hrun with rfl | hrun
    · refine UInt64.le_trans (hstart merged _) ?_
      split_ifs with hless
      · exact UInt64.le_refl _
      · exact UInt64.not_lt.mp hless
    · exact ih hrun _

/-- It ends at or above each of their upper ends. -/
theorem le_foldl_max {merged : List PgTreRun} {run : PgTreRun} (hrun : run ∈ merged) (start : UInt64) :
    run.maxTrigramHash ≤
      merged.foldl (fun hi run => if hi < run.maxTrigramHash then run.maxTrigramHash
        else hi) start := by
  have hstart (l : List PgTreRun) (hi : UInt64) :
      hi ≤ l.foldl (fun hi run => if hi < run.maxTrigramHash then run.maxTrigramHash else hi) hi := by
    induction l generalizing hi with
    | nil => exact UInt64.le_refl hi
    | cons r l ih =>
      rw [List.foldl_cons]
      split_ifs with hless
      · exact UInt64.le_trans (UInt64.le_of_lt hless) (ih _)
      · exact ih hi
  induction merged generalizing start with
  | nil => cases hrun
  | cons r merged ih =>
    rw [List.foldl_cons]
    rcases List.mem_cons.mp hrun with rfl | hrun
    · refine UInt64.le_trans ?_ (hstart merged _)
      split_ifs with hless
      · exact UInt64.le_refl _
      · exact UInt64.not_lt.mp hless
    · exact ih hrun _

/-- The range of a promoted run encloses those of the merged runs. -/
theorem promotedRun_covers {merged : List PgTreRun} {target : ℕ}
    (h : ∀ run ∈ merged, run.Covers (idx.treeAt run.rootUpper)) :
    (promotedRun idx merged target).Covers
      ((hanoiWrite idx merged).treeAt (promotedRun idx merged target).rootUpper) := by
  intro x hx
  by_cases hempty : (hanoiFold idx merged).entries = []
  · have hnone : (promotedRun idx merged target).rootUpper = none := by
      simp [promotedRun, hempty]
    rw [hnone] at hx
    cases hx
  have hroot : (promotedRun idx merged target).rootUpper = some idx.nBlocks := by
    simp [promotedRun, hempty]
  have hwrite : hanoiWrite idx merged = idx.writeTree (hanoiFold idx merged).bulkload := by
    rw [hanoiWrite, if_neg hempty]
  rw [hroot, hwrite, treeAt_writeTree_self] at hx
  have hhash : x ∈ (hanoiFold idx merged).entries.map Prod.fst := by
    have hperm := (List.mergeSort_perm (hanoiFold idx merged).entries
      (fun e e' => decide (e.1 ≤ e'.1))).map Prod.fst
    exact hperm.mem_iff.mp hx
  obtain ⟨run, hrun, hin⟩ := mem_hashes_hanoiFold.mp hhash
  obtain ⟨hlo, hhi⟩ := h run hrun x hin
  simp only [promotedRun, if_neg hempty]
  exact ⟨UInt64.le_trans (foldl_min_le hrun _) hlo, UInt64.le_trans hhi (le_foldl_max hrun _)⟩

/-- Writing the tree of a Hanoi pass keeps the ranges. -/
theorem RunIndex.RangesCover.writeMerged (h : idx.RangesCover) (merged : List PgTreRun) :
    (hanoiWrite idx merged).RangesCover := by
  unfold hanoiWrite
  split_ifs
  · exact h
  · exact h.writeTree

/-- The runs that a pass folds are covered by their ranges. -/
theorem RunIndex.RangesCover.merged (h : idx.RangesCover) (target : ℕ) :
    ∀ run ∈ (hanoiCollect idx).filter (fun run => decide (run.level = target)),
      run.Covers (idx.treeAt run.rootUpper) :=
  fun run hrun => h run (mem_liveRuns_of_mem_hanoiCollect (List.mem_filter.mp hrun).1)

/-- A pass of the Hanoi merge keeps the ranges. -/
theorem RunIndex.RangesCover.hanoiPass (h : idx.RangesCover) (target : ℕ) :
    (PgTre.hanoiPass idx target).2.RangesCover := by
  have hmerged := h.merged target
  cases hpass : PgTre.hanoiPass idx target with
  | mk err idx' =>
    unfold PgTre.hanoiPass at hpass
    dsimp only at hpass
    split at hpass
    next e hrewrite =>
      rw [← (Prod.mk.inj hpass).2]
      exact (h.writeMerged _).append (promotedRun_allocated idx _ target) (promotedRun_covers hmerged)
    next written hrewrite =>
      obtain ⟨hcatalog, htrees, -, -⟩ := catalogRuns_rewrite hrewrite
      have hidx := (Prod.mk.inj hpass).2
      have htree := treeAt_congr (show idx'.upperTrees = (hanoiWrite idx
        ((hanoiCollect idx).filter (fun run => decide (run.level = target)))).upperTrees by
          rw [← hidx]; exact htrees)
      intro run hrun
      have hmem : run ∈ hanoiSurvivors idx target := by
        have hin := (RunIndex.mem_liveRuns.mp hrun).1
        rw [← hidx] at hin
        rwa [hcatalog] at hin
      dsimp only
      rw [htree]
      rcases List.mem_append.mp hmem with hold | hnew
      · have hlive := mem_liveRuns_of_mem_hanoiCollect (List.mem_filter.mp hold).1
        rw [treeAt_hanoiWrite (RunIndex.allocated_of_mem_liveRuns hlive)]
        exact h run hlive
      · have hpromoted := @promotedRun_covers idx _ target hmerged
        rw [List.mem_singleton.mp hnew]
        exact hpromoted

/-- So does the whole merge. -/
theorem RunIndex.RangesCover.hanoiLoop (h : idx.RangesCover) (maxLevels guard passes : ℕ) :
    (PgTre.hanoiLoop maxLevels guard passes idx).2.RangesCover := by
  induction guard generalizing idx passes with
  | zero => exact h
  | succ guard ih =>
    rw [PgTre.hanoiLoop]
    cases targetLevel maxLevels (hanoiCollect idx) with
    | none => exact h
    | some target =>
      have hstep := h.hanoiPass target
      dsimp only
      cases hpass : PgTre.hanoiPass idx target with
      | mk err idx' =>
        rw [hpass] at hstep
        cases err with
        | some e => exact hstep
        | none => exact ih hstep (passes + 1)

/-- Deleting dead TIDs keeps the hashes of a tree. -/
theorem hashes_deleteDead (tree : UpperTree) (dead : ℕ → Bool) :
    (tree.deleteDead dead).entries.map Prod.fst = tree.entries.map Prod.fst := by
  simp [UpperTree.deleteDead, Function.comp_def]

/-- Deleting dead TIDs keeps the ranges. -/
theorem RunIndex.RangesCover.postingBulkDelete (h : idx.RangesCover) (dead : ℕ → Bool) :
    (PgTre.postingBulkDelete dead idx).RangesCover := by
  intro run hrun
  have hold : run ∈ idx.liveRuns := hrun
  have hcov := h run hold
  have hhashes : ((PgTre.postingBulkDelete dead idx).treeAt run.rootUpper).entries.map Prod.fst =
      (idx.treeAt run.rootUpper).entries.map Prod.fst := by
    cases run.rootUpper with
    | none => rfl
    | some b =>
      simp only [RunIndex.treeAt, PgTre.postingBulkDelete]
      split_ifs
      · exact hashes_deleteDead _ dead
      · rfl
  rw [PgTreRun.Covers, hhashes]
  exact hcov

/-- Swapping the base tree keeps the ranges. -/
theorem RunIndex.RangesCover.swapBase (h : idx.RangesCover) (n m : ℕ) :
    (idx.swapBase tree n m).RangesCover := by
  intro run hrun
  have htree : (idx.swapBase tree n m).treeAt run.rootUpper =
      (idx.writeTree tree).treeAt run.rootUpper :=
    treeAt_congr rfl run.rootUpper
  rw [htree]
  exact h.writeTree run hrun

/-- A flush keeps the ranges. -/
theorem RunIndex.RangesCover.flushRun (h : idx.RangesCover) (collected : List PgTrePendingEntry) :
    (PgTre.flushRun idx collected).RangesCover := by
  refine h.writeTree.append (pendingRun_allocated _ _ _ _) (pendingRun_covers _ _ _ ?_)
  intro x hx
  have hroot : (pendingRun (collectPending collected) collected.length idx.nBlocks).rootUpper =
      some idx.nBlocks := rfl
  rw [hroot, treeAt_writeTree_self, mem_hashes_mergedTree] at hx
  simpa using hx

/-- So does a collapse, which leaves no run. -/
theorem RunIndex.RangesCover.collapseRuns (h : idx.RangesCover) :
    (PgTre.collapseRuns idx).RangesCover := by
  unfold PgTre.collapseRuns
  split_ifs
  · exact h
  · intro run hrun
    simp [RunIndex.liveRuns, catalogRuns] at hrun

end

/-- A merge of the pending list keeps the ranges. -/
theorem mergePending_rangesCover {idx : ScanIndex} (h : idx.RangesCover) (flushToRun : Bool) :
    (mergePending flushToRun idx).RangesCover := by
  rw [mergePending_eq]
  split_ifs
  · exact h.flushRun idx.pending
  · exact h.swapBase _ _

/-- In every state of an index the range of a live run covers its tree. -/
theorem IndexReachable.rangesCover {idx : ScanIndex} (h : IndexReachable idx) : idx.RangesCover := by
  have hmerge {idx : ScanIndex} (ih : idx.RangesCover) (flushToRun : Bool) :
      (pendingMerge flushToRun idx).RangesCover := by
    unfold pendingMerge
    split_ifs
    · exact ih
    · exact mergePending_rangesCover ih flushToRun
  induction h with
  | build pk tree nTuples =>
    intro run hrun
    simp [RunIndex.liveRuns, builtIndex, catalogRuns] at hrun
  | insert entries hpacked _ ih => exact ih
  | merge flushToRun _ ih => exact hmerge ih flushToRun
  | flushAppend _ _ ih => exact mergePending_rangesCover ih true
  | @hanoi idx _ ih => exact ih.hanoiLoop idx.levelLimit 64 0
  | collapse _ ih => exact ih.collapseRuns
  | vacuum flushToRun dead _ ih => exact (hmerge ih flushToRun).postingBulkDelete dead

end PgTre
