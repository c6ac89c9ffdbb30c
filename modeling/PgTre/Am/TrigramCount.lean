import PgTre.Am.IndexLife

/-!
# The count of trigrams on the meta page

The planner reads `n_trigrams` from the meta page as the number of trigrams in the base tree. A build
and a collapse write the number of entries of the tree they load. A merge into the base tree writes the
number of trigrams it merged, and the tree keeps those of the old one beside them.
-/

namespace PgTre

/-- The trigrams of a tree. -/
def UpperTree.hashes (tree : UpperTree) : Finset UInt64 := (tree.entries.map Prod.fst).toFinset

/-- The base tree. -/
def RunIndex.baseTree (idx : RunIndex) : UpperTree := idx.treeAt idx.rootUpper

/-- `n_trigrams` is the number of trigrams of the base tree. -/
def RunIndex.CountsTrigrams (idx : RunIndex) : Prop := idx.nTrigrams = idx.baseTree.hashes.card

/-- The trigrams of some pending entries. -/
def pendingHashes (entries : List PgTrePendingEntry) : Finset UInt64 :=
  (entries.map (·.trigramHash)).toFinset

/-- The states of an index of which every merge into the base tree meets a condition on the index and
the entries it consumes. Entries may be inserted while a merge runs, and stay behind it. -/
inductive ReachedBy (P : RunIndex → List PgTrePendingEntry → Prop) : ScanIndex → Prop
  | build (pk : TidPacking) (tree : UpperTree) (nTuples : ℕ) : ReachedBy P (builtIndex pk tree nTuples)
  | insert {idx : ScanIndex} (entries : List PgTrePendingEntry)
      (hpacked : ∀ e ∈ entries, Packed idx.tidPacking e.tid) : ReachedBy P idx →
      ReachedBy P { idx with
        pending := idx.pending ++ entries
        pendingPacked := fun e he => (List.mem_append.mp he).elim (idx.pendingPacked e) (hpacked e) }
  | mergeBase {idx : ScanIndex} (collected rest : List PgTrePendingEntry)
      (hpending : idx.pending = collected ++ rest) : ReachedBy P idx → collected ≠ [] →
      P idx.toRunIndex collected →
      ReachedBy P { idx with
        toRunIndex := mergeBase idx.toRunIndex collected
        pending := rest
        pendingPacked := fun e he => idx.pendingPacked e
          (hpending ▸ List.mem_append_right collected he) }
  | flushAppend {idx : ScanIndex} (collected rest : List PgTrePendingEntry) :
      idx.pending = collected ++ rest → ReachedBy P idx → collected ≠ [] →
      ReachedBy P { idx with toRunIndex := flushRun idx.toRunIndex collected }
  | flush {idx : ScanIndex} (collected rest : List PgTrePendingEntry)
      (hpending : idx.pending = collected ++ rest) : ReachedBy P idx → collected ≠ [] →
      ReachedBy P { idx with
        toRunIndex := flushRun idx.toRunIndex collected
        pending := rest
        pendingPacked := fun e he => idx.pendingPacked e
          (hpending ▸ List.mem_append_right collected he) }
  | hanoi {idx : ScanIndex} : ReachedBy P idx →
      ReachedBy P { idx with toRunIndex := (hanoiMerge idx.toRunIndex).2 }
  | collapse {idx : ScanIndex} : ReachedBy P idx →
      ReachedBy P { idx with toRunIndex := collapseRuns idx.toRunIndex }
  | bulkDelete {idx : ScanIndex} (dead : ℕ → Bool) : ReachedBy P idx →
      ReachedBy P { idx with toRunIndex := postingBulkDelete dead idx.toRunIndex }

/-- The entries of a merge have every trigram of the base tree. -/
def CoversBase (idx : RunIndex) (collected : List PgTrePendingEntry) : Prop :=
  idx.baseTree.hashes ⊆ pendingHashes collected

instance (idx : RunIndex) (collected : List PgTrePendingEntry) : Decidable (CoversBase idx collected) :=
  inferInstanceAs (Decidable (idx.baseTree.hashes ⊆ pendingHashes collected))

/-! ## Counting -/

section

variable {idx idx' : RunIndex} {tree : UpperTree} {collected : List PgTrePendingEntry}

/-- A tree has one entry for each of its trigrams. -/
theorem UpperTree.card_hashes (tree : UpperTree) : tree.hashes.card = tree.entries.length := by
  have hnodup : (tree.entries.map Prod.fst).Nodup := by
    refine List.pairwise_map.mpr (tree.ascending.imp ?_)
    intro e e' hlt
    exact UInt64.ne_of_lt hlt
  rw [hashes, List.toFinset_card_of_nodup hnodup, List.length_map]

/-- The hashes of a tree are those of its entries. -/
theorem UpperTree.mem_hashes {h : UInt64} : h ∈ tree.hashes ↔ h ∈ tree.entries.map Prod.fst :=
  List.mem_toFinset

/-- A merge counts the trigrams it consumed. -/
theorem length_collectPending (collected : List PgTrePendingEntry) :
    (collectPending collected).entries.length = (pendingHashes collected).card := by
  have hsame : ((collectPending collected).entries.map Prod.fst).toFinset =
      pendingHashes collected := by
    ext h
    rw [List.mem_toFinset, mem_hashes_collectPending, pendingHashes, List.mem_toFinset, List.mem_map]
  rw [← hsame, List.toFinset_card_of_nodup (collectPending collected).distinct, List.length_map]

/-- The tree of a merge has the trigrams of both sides. -/
theorem hashes_mergedTree (base : UpperTree) (collected : List PgTrePendingEntry) :
    (mergedTree base false (collectPending collected)).hashes =
      base.hashes ∪ pendingHashes collected := by
  ext h
  rw [UpperTree.mem_hashes, mem_hashes_mergedTree, Finset.mem_union, UpperTree.mem_hashes,
    mem_hashes_collectPending, pendingHashes, List.mem_toFinset, List.mem_map]
  simp [or_comm]

/-- A merge into the base tree leaves the right count exactly when it consumes every trigram of the
old tree. -/
theorem countsTrigrams_mergeBase_iff :
    (mergeBase idx collected).CountsTrigrams ↔ CoversBase idx collected := by
  have hbase : (mergeBase idx collected).baseTree =
      mergedTree idx.baseTree false (collectPending collected) := treeAt_writeTree_self
  have hcount : (mergeBase idx collected).nTrigrams = (pendingHashes collected).card :=
    length_collectPending collected
  rw [RunIndex.CountsTrigrams, hbase, hcount, hashes_mergedTree, CoversBase]
  constructor
  · intro hcard
    have hsub := Finset.eq_of_subset_of_card_le
      (@Finset.subset_union_right _ _ idx.baseTree.hashes (pendingHashes collected)) hcard.ge
    rw [hsub]
    exact Finset.subset_union_left
  · intro hsub
    rw [Finset.union_eq_right.mpr hsub]

/-- A step that leaves the base tree and the count alone. -/
structure SameBase (idx idx' : RunIndex) : Prop where
  nTrigrams : idx'.nTrigrams = idx.nTrigrams
  rootUpper : idx'.rootUpper = idx.rootUpper
  baseTree : idx'.baseTree = idx.baseTree

/-- Steps that leave the base alone compose. -/
theorem SameBase.trans {idx'' : RunIndex} (h : SameBase idx idx') (h' : SameBase idx' idx'') :
    SameBase idx idx'' :=
  ⟨h'.nTrigrams.trans h.nTrigrams, h'.rootUpper.trans h.rootUpper, h'.baseTree.trans h.baseTree⟩

/-- A step that leaves the base alone keeps the counter exact. -/
theorem SameBase.countsTrigrams (h : SameBase idx idx') (hcounts : idx.CountsTrigrams) :
    idx'.CountsTrigrams := by
  rw [RunIndex.CountsTrigrams, h.nTrigrams, h.baseTree]
  exact hcounts

/-- Writing a tree leaves the base alone. -/
theorem sameBase_writeTree (idx : RunIndex) (tree : UpperTree) : SameBase idx (idx.writeTree tree) :=
  ⟨rfl, rfl, treeAt_writeTree idx.baseAllocated⟩

/-- Appending a run leaves the base alone. -/
theorem sameBase_runCatalogAppend (idx : RunIndex) (run : PgTreRun)
    (hroot : ∀ b, run.rootUpper = some b → b < idx.nBlocks) :
    SameBase idx (runCatalogAppend idx run hroot) :=
  ⟨rfl, rfl, treeAt_congr rfl idx.rootUpper⟩

/-- Flushing the pending list to a run leaves the base alone. -/
theorem sameBase_flushRun (idx : RunIndex) (collected : List PgTrePendingEntry) :
    SameBase idx (flushRun idx collected) :=
  (sameBase_writeTree idx _).trans
    (sameBase_runCatalogAppend _ _ (pendingRun_allocated idx _ _ collected.length))

/-- Writing a merged tree leaves the base alone. -/
theorem sameBase_hanoiWrite (idx : RunIndex) (merged : List PgTreRun) :
    SameBase idx (hanoiWrite idx merged) := by
  unfold hanoiWrite
  split_ifs
  · exact ⟨rfl, rfl, rfl⟩
  · exact sameBase_writeTree idx _

/-- Rewriting the catalog leaves the base alone. -/
theorem sameBase_rewrite {runs : List PgTreRun} {hids : _} {halloc : _}
    (h : runCatalogRewrite idx runs hids halloc = .ok idx') : SameBase idx idx' := by
  unfold runCatalogRewrite at h
  by_cases hfits : runs.length ≤ runCatalogCap
  · rw [dif_pos hfits] at h
    obtain rfl := Except.ok.inj h
    exact ⟨rfl, rfl, treeAt_congr rfl idx.rootUpper⟩
  · rw [dif_neg hfits] at h
    cases h

/-- A pass of the Hanoi merge folds runs of the catalog. -/
theorem sameBase_hanoiPass (idx : RunIndex) (target : ℕ) : SameBase idx (hanoiPass idx target).2 := by
  have happend := (sameBase_hanoiWrite idx
    ((hanoiCollect idx).filter (fun run => decide (run.level = target)))).trans
      (sameBase_runCatalogAppend _ _ (promotedRun_allocated idx _ target))
  cases hpass : hanoiPass idx target with
  | mk err idx' =>
    unfold hanoiPass at hpass
    dsimp only at hpass
    split at hpass
    next e hrewrite =>
      rw [← (Prod.mk.inj hpass).2]
      exact happend
    next written hrewrite =>
      rw [← (Prod.mk.inj hpass).2]
      exact happend.trans ((sameBase_rewrite hrewrite).trans
        ⟨rfl, rfl, treeAt_congr rfl written.rootUpper⟩)

/-- The level merge leaves the base alone. -/
theorem sameBase_hanoiLoop (maxLevels guard passes : ℕ) (idx : RunIndex) :
    SameBase idx (hanoiLoop maxLevels guard passes idx).2 := by
  induction guard generalizing idx passes with
  | zero => exact ⟨rfl, rfl, rfl⟩
  | succ guard ih =>
    rw [hanoiLoop]
    cases targetLevel maxLevels (hanoiCollect idx) with
    | none => exact ⟨rfl, rfl, rfl⟩
    | some target =>
      have hstep := sameBase_hanoiPass idx target
      dsimp only
      cases hpass : hanoiPass idx target with
      | mk err idx' =>
        rw [hpass] at hstep
        cases err with
        | some e => exact hstep
        | none => exact hstep.trans (ih (passes + 1) idx')

/-- The tree of a table has the trigrams it counts. -/
theorem card_hashes_bulkload (mc : MergeCtx) : mc.bulkload.hashes.card = mc.entries.length := by
  rw [UpperTree.card_hashes]
  exact List.length_mergeSort _

/-- A collapse counts the entries it loads. -/
theorem countsTrigrams_collapseRuns (h : idx.CountsTrigrams) : (collapseRuns idx).CountsTrigrams := by
  unfold collapseRuns
  by_cases hcount : idx.runCount ≤ 1
  · rw [if_pos hcount]
    exact h
  · rw [if_neg hcount]
    by_cases hempty : (hanoiFold idx idx.iterate).entries = []
    · simp [RunIndex.CountsTrigrams, RunIndex.baseTree, RunIndex.treeAt, hempty, UpperTree.hashes,
        UpperTree.empty]
    · have htree : (idx.writeTree (hanoiFold idx idx.iterate).bulkload).treeAt (some idx.nBlocks) =
          (hanoiFold idx idx.iterate).bulkload := treeAt_writeTree_self
      simp only [RunIndex.CountsTrigrams, RunIndex.baseTree, if_neg hempty]
      exact (congrArg (fun tree => tree.hashes.card) htree).trans (card_hashes_bulkload _) |>.symm

/-- Deleting dead TIDs keeps the hashes of the tree. -/
theorem hashes_deleted (tree : UpperTree) (dead : ℕ → Bool) :
    (tree.deleteDead dead).hashes = tree.hashes := by
  rw [UpperTree.hashes, hashes_deleteDead, UpperTree.hashes]

/-- Deleting TIDs keeps the trigrams. -/
theorem countsTrigrams_postingBulkDelete (h : idx.CountsTrigrams) (dead : ℕ → Bool) :
    (postingBulkDelete dead idx).CountsTrigrams := by
  have hhashes : (postingBulkDelete dead idx).baseTree.hashes = idx.baseTree.hashes := by
    cases hroot : idx.rootUpper with
    | none => simp [RunIndex.baseTree, RunIndex.treeAt, postingBulkDelete, hroot]
    | some b =>
      simp only [RunIndex.baseTree, RunIndex.treeAt, postingBulkDelete, hroot]
      split_ifs
      · exact hashes_deleted _ dead
      · rfl
  rw [RunIndex.CountsTrigrams, hhashes]
  exact h

/-- In every state that is reached by merges into the base tree each of which consumes every trigram of
the old tree, `n_trigrams` is the number of trigrams of the base tree. -/
theorem ReachedBy.counts_baseTree {idx : ScanIndex} (h : ReachedBy CoversBase idx) :
    idx.CountsTrigrams := by
  induction h with
  | build pk tree nTuples =>
    have hroot : (builtIndex pk tree nTuples).baseTree.entries = tree.entries := by
      by_cases hempty : tree.entries = []
      · simp [RunIndex.baseTree, RunIndex.treeAt, builtIndex, hempty, UpperTree.empty]
      · simp [RunIndex.baseTree, RunIndex.treeAt, builtIndex, hempty]
    rw [RunIndex.CountsTrigrams, UpperTree.card_hashes, hroot]
    rfl
  | insert entries hpacked _ ih => exact ih
  | mergeBase collected rest hpending _ hne hcovers ih => exact countsTrigrams_mergeBase_iff.mpr hcovers
  | flushAppend collected rest hpending _ hne ih =>
    exact (sameBase_flushRun _ collected).countsTrigrams ih
  | flush collected rest hpending _ hne ih => exact (sameBase_flushRun _ collected).countsTrigrams ih
  | @hanoi idx _ ih => exact (sameBase_hanoiLoop idx.levelLimit 64 0 idx.toRunIndex).countsTrigrams ih
  | collapse _ ih => exact countsTrigrams_collapseRuns ih
  | bulkDelete dead _ ih => exact countsTrigrams_postingBulkDelete ih dead

end

/-! ## Two lives of an index -/

/-- A TID on the first heap page. -/
theorem packed_one : Packed .dense 1 :=
  ⟨⟨0, 1, by decide, by decide⟩, by simp [packTid, denseStride, maxHeapTuplesPerPage]⟩

/-- An index that is built over the postings of a tree and takes entries of one TID, which are
merged. -/
theorem reachedBy_oneMerge {P : RunIndex → List PgTrePendingEntry → Prop} (tree : UpperTree)
    {entries : List PgTrePendingEntry} (hne : entries ≠ []) (htid : ∀ e ∈ entries, e.tid = 1)
    (hP : P (builtIndex .dense tree 1).toRunIndex entries) :
    ∃ idx : ScanIndex, ReachedBy P idx ∧
      idx.toRunIndex = mergeBase (builtIndex .dense tree 1).toRunIndex entries := by
  have hpacked : ∀ e ∈ entries, Packed .dense e.tid := by
    intro e he
    rw [htid e he]
    exact packed_one
  have hinserted := ReachedBy.insert entries hpacked (@ReachedBy.build P .dense tree 1)
  exact ⟨_, ReachedBy.mergeBase entries [] (List.append_nil entries).symm hinserted hne hP, rfl⟩

/-- One entry ascends. -/
theorem ascending_sevenTree :
    [((7 : UInt64), ({1} : Finset ℕ))].Pairwise fun e e' => e.1 < e'.1 :=
  List.pairwise_singleton _ _

/-- A tree with one trigram. -/
def sevenTree : UpperTree := ⟨[(7, {1})], ascending_sevenTree⟩

/-- A merge that takes the trigram of the tree again, and a new one, counts both. -/
theorem ReachedBy.counts_baseTree_twoTrigrams :
    ∃ idx : ScanIndex, idx.CountsTrigrams ∧ idx.nTrigrams = 2 := by
  obtain ⟨idx, hreached, hidx⟩ := @reachedBy_oneMerge CoversBase sevenTree [⟨7, 1, 0⟩, ⟨8, 1, 0⟩]
    (List.cons_ne_nil _ _) (by decide) (by decide)
  exact ⟨idx, ReachedBy.counts_baseTree hreached, by rw [hidx]; rfl⟩

/-- The tree keeps the trigram it was built with, and the merge of another one counts only that. -/
theorem ReachedBy.not_counts_baseTree :
    ∃ idx : ScanIndex, ReachedBy (fun _ _ => True) idx ∧ ¬idx.CountsTrigrams := by
  obtain ⟨idx, hreached, hidx⟩ := @reachedBy_oneMerge (fun _ _ => True) sevenTree [⟨8, 1, 0⟩]
    (List.cons_ne_nil _ _) (by decide) trivial
  refine ⟨idx, hreached, ?_⟩
  rw [hidx, countsTrigrams_mergeBase_iff]
  decide

end PgTre
