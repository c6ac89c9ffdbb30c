import PgTre.Am.ScanInterleaving

/-!
# The completeness flag of the SuRF filter

The SuRF filter has the trigrams of the rows that `CREATE INDEX` saw, and nothing is added to it
later. A scan may be rejected by it only while it covers the index: `surf_complete` is still set,
and the pending list is empty. A merge clears the flag in the record that finalizes it, when one of
its trigrams is not in the base tree. A flush does so always, but the run it appends is in the
catalog one record earlier, and a crash between the two leaves the run. The entries of such a run
are still pending, and the next merge takes them. `pg_tre_collapse_runs` moves trigrams of runs into
the base tree without looking at the flag; `pg_tre_amvacuumcleanup`, its one caller, has merged the
pending list under the same lock.
-/

namespace PgTre

/-! ## The records -/

/-- The index as its WAL records leave it, and who holds the merge lock. -/
structure SurfWorld where
  pending : PendingState
  idx : RunIndex
  writer : WriterPhase
  /-- `root_surf` of the meta page. -/
  rootSurf : Option BlockNumber
  surfComplete : Bool
  /-- `pg_tre_amvacuumcleanup` has the lock and its merge of the pending list is over. -/
  drained : Bool

/-- A WAL record, or a step that writes none. -/
inductive SurfStep : SurfWorld → SurfWorld → Prop
  /-- A step of an insert, or of a merge before or after its own records. -/
  | list (s : SurfWorld) (p : PendingState) (hstep : PendingStep s.pending p)
      (hconsumed : p.consumed = s.pending.consumed)
      (hlock : s.writer = .none ∧ s.drained = false ∨ p.merge = s.pending.merge) :
      SurfStep s { s with pending := p }
  /-- A flush appends its run to the catalog. -/
  | flush (s : SurfWorld) (wmTail : Option BlockNumber) (wmTailN : ℕ)
      (collected : List PgTrePendingEntry) (consumedPages : List BlockNumber)
      (hmerge : s.pending.merge = .building wmTail wmTailN collected consumedPages)
      (hcollected : collected ≠ []) (hwriter : s.writer = .none) :
      SurfStep s { s with idx := flushRun s.idx collected, writer := .flushed }
  /-- `finalize_merge` of a flush. -/
  | finalize_flush (s : SurfWorld) (wmTail : Option BlockNumber) (wmTailN : ℕ)
      (collected : List PgTrePendingEntry) (consumedPages : List BlockNumber) (p : PendingState)
      (hmerge : s.pending.merge = .building wmTail wmTailN collected consumedPages)
      (hwriter : s.writer = .flushed) (hstep : PendingStep s.pending p)
      (hconsumed : p.consumed = s.pending.consumed ++ [collected]) :
      SurfStep s { s with
        pending := p
        writer := .none
        surfComplete := s.surfComplete && !addsTrigram (s.idx.treeAt s.idx.rootUpper) true
          (collectPending collected) }
  /-- `finalize_merge` of a merge into the base tree. -/
  | finalize_base (s : SurfWorld) (wmTail : Option BlockNumber) (wmTailN : ℕ)
      (collected : List PgTrePendingEntry) (consumedPages : List BlockNumber) (p : PendingState)
      (hmerge : s.pending.merge = .building wmTail wmTailN collected consumedPages)
      (hwriter : s.writer = .none) (hstep : PendingStep s.pending p)
      (hconsumed : p.consumed = s.pending.consumed ++ [collected]) :
      SurfStep s { s with
        pending := p
        idx := mergeBase s.idx collected
        surfComplete := s.surfComplete && !addsTrigram (s.idx.treeAt s.idx.rootUpper) false
          (collectPending collected) }
  /-- VACUUM's cleanup takes the lock and finds nothing pending. -/
  | drain_empty (s : SurfWorld) (hmerge : s.pending.merge = .idle) (hwriter : s.writer = .none)
      (hhead : s.pending.list.pendingHead = none) : SurfStep s { s with drained := true }
  /-- Its merge returns. -/
  | drain_merged (s : SurfWorld) (hmerge : s.pending.merge = .freeing [])
      (hwriter : s.writer = .none) :
      SurfStep s { s with pending := { s.pending with merge := .idle }, drained := true }
  /-- A pass of the Hanoi merge appends the promoted run. -/
  | promote (s : SurfWorld) (target : ℕ) (hmerge : s.pending.merge = .idle)
      (hwriter : s.writer = .none)
      (htarget : targetLevel s.idx.levelLimit (hanoiCollect s.idx) = some target) :
      SurfStep s { s with idx := hanoiAppend s.idx target, writer := .promoting s.idx target }
  /-- It rewrites the catalog. -/
  | rewrite (s : SurfWorld) (before idx' : RunIndex) (target : ℕ)
      (hwriter : s.writer = .promoting before target)
      (hpass : hanoiPass before target = (none, idx')) :
      SurfStep s { s with idx := idx', writer := .none }
  /-- The runs are collapsed. -/
  | collapse (s : SurfWorld) (hdrained : s.drained = true) (hwriter : s.writer = .none) :
      SurfStep s { s with idx := collapseRuns s.idx }
  /-- `pg_tre_ambulkdelete` strips dead TIDs. -/
  | bulk_delete (s : SurfWorld) (dead : ℕ → Bool) (hmerge : s.pending.merge = .idle)
      (hwriter : s.writer = .none) : SurfStep s { s with idx := postingBulkDelete dead s.idx }
  | unlock (s : SurfWorld) (hwriter : s.writer = .none) : SurfStep s { s with drained := false }
  /-- An error ends what the holder of the lock does. -/
  | abort (s : SurfWorld) :
      SurfStep s { s with
        pending := { s.pending with merge := .idle }
        writer := .none
        drained := false }
  /-- A crash also ends the inserts. -/
  | crash (s : SurfWorld) :
      SurfStep s { s with
        pending := { s.pending with merge := .idle, batches := fun _ => [] }
        writer := .none
        drained := false }

/-- An index that was just built: the flag is set if there is a filter. -/
def SurfWorld.initial (tree : UpperTree) (nTuples : ℕ) (pk : TidPacking)
    (pages : BlockNumber → PendingPage) (rootSurf : Option BlockNumber) : SurfWorld where
  pending := .initial pages
  idx := (builtIndex pk tree nTuples).toRunIndex
  writer := .none
  rootSurf := rootSurf
  surfComplete := rootSurf.isSome
  drained := false

/-- `pg_tre_surf_prefilter_rejects`. The filter is read through its range query, if it can be
read. -/
def SurfWorld.surfPrefilterRejects (s : SurfWorld) (q : TrigramQuery)
    (surfRead : BlockNumber → Option (ℕ → ℕ → Bool)) : Bool :=
  match q.surfRange with
  | none => false
  | some (lo, hi) =>
      if q.alwaysTrue then false
      else
        match s.rootSurf with
        | none => false
        | some root =>
            if !s.surfComplete || s.pending.list.pendingHead.isSome then false
            else
              match surfRead root with
              | none => false
              | some overlaps => !overlaps lo hi

/-! ## The trigrams of an index -/

/-- The base tree has the trigram. -/
def RunIndex.BaseHas (idx : RunIndex) (h : UInt64) : Prop :=
  h ∈ (idx.treeAt idx.rootUpper).entries.map Prod.fst

/-- A live run has the trigram. -/
def RunIndex.RunHas (idx : RunIndex) (h : UInt64) : Prop :=
  ∃ run ∈ idx.liveRuns, h ∈ (idx.treeAt run.rootUpper).entries.map Prod.fst

section

variable {idx idx' : RunIndex} {h : UInt64} {collected : List PgTrePendingEntry}

/-- The table of a merge has the trigrams of its entries. -/
theorem mem_hashes_mergedTree_collected {base : UpperTree} {pendingOnly : Bool} :
    h ∈ (mergedTree base pendingOnly (collectPending collected)).entries.map Prod.fst ↔
      (∃ e ∈ collected, e.trigramHash = h) ∨
        pendingOnly = false ∧ h ∈ base.entries.map Prod.fst := by
  rw [mem_hashes_mergedTree, mem_hashes_collectPending]

/-- Appending a run adds its trigrams. -/
theorem runHas_runCatalogAppend {run : PgTreRun}
    (hroot : ∀ b, run.rootUpper = some b → b < idx.nBlocks)
    (hhas : (runCatalogAppend idx run hroot).RunHas h) :
    idx.RunHas h ∨ h ∈ (idx.treeAt run.rootUpper).entries.map Prod.fst := by
  obtain ⟨r, hr, hmem⟩ := hhas
  have htree : (runCatalogAppend idx run hroot).treeAt r.rootUpper = idx.treeAt r.rootUpper :=
    treeAt_congr rfl r.rootUpper
  rw [htree] at hmem
  obtain ⟨hin, hlive⟩ := RunIndex.mem_liveRuns.mp hr
  rw [runCatalogAppend, mem_catalogPush] at hin
  rcases hin with rfl | hold
  · exact Or.inr hmem
  · exact Or.inl ⟨r, RunIndex.mem_liveRuns.mpr ⟨hold, hlive⟩, hmem⟩

/-- A tree written at a fresh root adds nothing to the base tree or the runs. -/
theorem baseHas_writeTree {tree : UpperTree} : (idx.writeTree tree).BaseHas h ↔ idx.BaseHas h := by
  have htree := @treeAt_writeTree idx tree idx.rootUpper idx.baseAllocated
  unfold RunIndex.BaseHas
  exact htree ▸ Iff.rfl

/-- Writing a tree adds no hash to a run. -/
theorem runHas_writeTree {tree : UpperTree} (hhas : (idx.writeTree tree).RunHas h) :
    idx.RunHas h := by
  obtain ⟨run, hrun, hmem⟩ := hhas
  have hold : run ∈ idx.liveRuns := hrun
  rw [treeAt_writeTree (RunIndex.allocated_of_mem_liveRuns hold)] at hmem
  exact ⟨run, hold, hmem⟩

/-- A flush adds the trigrams of its entries to the runs. -/
theorem baseHas_flushRun : (flushRun idx collected).BaseHas h ↔ idx.BaseHas h :=
  @baseHas_writeTree idx h (mergedTree (idx.treeAt idx.rootUpper) true (collectPending collected))

/-- A flush adds only the collected hashes to the runs. -/
theorem runHas_flushRun (hhas : (flushRun idx collected).RunHas h) :
    idx.RunHas h ∨ ∃ e ∈ collected, e.trigramHash = h := by
  have hroot := pendingRun_allocated idx (mergedTree (idx.treeAt idx.rootUpper) true
    (collectPending collected)) (collectPending collected) collected.length
  rcases runHas_runCatalogAppend hroot hhas with hold | hnew
  · exact Or.inl (runHas_writeTree hold)
  · right
    have hblock : (pendingRun (collectPending collected) collected.length idx.nBlocks).rootUpper =
        some idx.nBlocks := rfl
    rw [hblock, treeAt_writeTree_self, mem_hashes_mergedTree_collected] at hnew
    rcases hnew with hnew | ⟨hfalse, -⟩
    · exact hnew
    · cases hfalse

/-- A merge into the base tree adds them to it. -/
theorem baseHas_mergeBase (hhas : (mergeBase idx collected).BaseHas h) :
    idx.BaseHas h ∨ ∃ e ∈ collected, e.trigramHash = h := by
  have htree : (mergeBase idx collected).treeAt (mergeBase idx collected).rootUpper =
      mergedTree (idx.treeAt idx.rootUpper) false (collectPending collected) :=
    treeAt_writeTree_self
  unfold RunIndex.BaseHas at hhas
  rw [htree, mem_hashes_mergedTree_collected] at hhas
  rcases hhas with hnew | ⟨-, hold⟩
  · exact Or.inr hnew
  · exact Or.inl hold

/-- A base merge adds no hash to a run. -/
theorem runHas_mergeBase (hhas : (mergeBase idx collected).RunHas h) : idx.RunHas h :=
  runHas_writeTree hhas

/-- Where `adds_trigram` is not set the base tree has the trigrams of the merge. -/
theorem baseHas_of_addsTrigram
    (hadds : addsTrigram (idx.treeAt idx.rootUpper) false (collectPending collected) = false)
    {e : PgTrePendingEntry} (he : e ∈ collected) : idx.BaseHas e.trigramHash := by
  have hin := mem_hashes_collectPending.mpr ⟨e, he, rfl⟩
  obtain ⟨x, hx, hhash⟩ := List.mem_map.mp hin
  have hlook := List.any_eq_false.mp hadds x hx
  rw [← hhash]
  cases hfound : (idx.treeAt idx.rootUpper).lookup x.1 with
  | none => simp [hfound] at hlook
  | some s => exact List.mem_map.mpr ⟨(x.1, s), UpperTree.lookup_eq_some.mp hfound, rfl⟩

/-- With all trigrams of the entries in the base tree it is not set. -/
theorem addsTrigram_of_baseHas (hhas : ∀ e ∈ collected, idx.BaseHas e.trigramHash) :
    addsTrigram (idx.treeAt idx.rootUpper) false (collectPending collected) = false := by
  refine List.any_eq_false.mpr fun x hx => ?_
  obtain ⟨e, he, hhash⟩ := mem_hashes_collectPending.mp (List.mem_map_of_mem hx)
  have hbase := hhas e he
  rw [hhash] at hbase
  obtain ⟨entry, hentry, heq⟩ := List.mem_map.mp hbase
  simp [← heq, UpperTree.lookup_eq_some.mpr hentry]

/-- A flush that has entries sets it. -/
theorem addsTrigram_flush {base : UpperTree} (hcollected : collected ≠ []) :
    addsTrigram base true (collectPending collected) = true := by
  obtain ⟨e, he⟩ := List.exists_mem_of_ne_nil collected hcollected
  obtain ⟨x, hx, -⟩ := List.mem_map.mp (mem_hashes_collectPending.mpr ⟨e, he, rfl⟩)
  exact List.any_eq_true.mpr ⟨x, hx, rfl⟩

/-- The tree of a promoted run has trigrams of the merged runs. -/
theorem runHas_of_mem_promotedRun {target : ℕ}
    (hmem : h ∈ ((hanoiWrite idx ((hanoiCollect idx).filter
      (fun run => decide (run.level = target)))).treeAt (promotedRun idx ((hanoiCollect idx).filter
        (fun run => decide (run.level = target))) target).rootUpper).entries.map Prod.fst) :
    idx.RunHas h := by
  by_cases hempty : (hanoiFold idx ((hanoiCollect idx).filter
      (fun run => decide (run.level = target)))).entries = []
  · simp [promotedRun, hempty, RunIndex.treeAt, UpperTree.empty] at hmem
  · simp only [promotedRun, hempty, if_false, hanoiWrite] at hmem
    rw [treeAt_writeTree_self] at hmem
    have hperm := (List.mergeSort_perm (hanoiFold idx ((hanoiCollect idx).filter
      (fun run => decide (run.level = target)))).entries
      (fun e e' => decide (e.1 ≤ e'.1))).map Prod.fst
    obtain ⟨run, hrun, hin⟩ := mem_hashes_hanoiFold.mp (hperm.mem_iff.mp hmem)
    exact ⟨run, mem_liveRuns_of_mem_hanoiCollect (List.mem_filter.mp hrun).1, hin⟩

/-- Writing a merged tree adds no hash to a run. -/
theorem runHas_hanoiWrite {merged : List PgTreRun} (hhas : (hanoiWrite idx merged).RunHas h) :
    idx.RunHas h := by
  unfold hanoiWrite at hhas
  split_ifs at hhas
  · exact hhas
  · exact runHas_writeTree hhas

/-- Writing a merged tree leaves the base alone. -/
theorem baseHas_hanoiWrite {merged : List PgTreRun} :
    (hanoiWrite idx merged).BaseHas h ↔ idx.BaseHas h := by
  unfold hanoiWrite
  split_ifs
  · exact Iff.rfl
  · exact baseHas_writeTree

/-- A promoted run adds no trigram. -/
theorem runHas_hanoiAppend {target : ℕ} (hhas : (hanoiAppend idx target).RunHas h) :
    idx.RunHas h := by
  rcases runHas_runCatalogAppend (promotedRun_allocated idx _ target) hhas with hold | hnew
  · exact runHas_hanoiWrite hold
  · exact runHas_of_mem_promotedRun hnew

/-- Appending a merged run leaves the base alone. -/
theorem baseHas_hanoiAppend {target : ℕ} : (hanoiAppend idx target).BaseHas h ↔ idx.BaseHas h :=
  @baseHas_hanoiWrite idx h ((hanoiCollect idx).filter (fun run => decide (run.level = target)))

/-- The append of a promoted run leaves the other runs. -/
theorem runHas_hanoiAppend_of_runHas {target : ℕ} (hhas : idx.RunHas h) :
    (hanoiAppend idx target).RunHas h := by
  obtain ⟨run, hrun, hmem⟩ := hhas
  have hold : run ∈ (hanoiAppend idx target).liveRuns := by
    obtain ⟨hin, hlive⟩ := RunIndex.mem_liveRuns.mp hrun
    refine RunIndex.mem_liveRuns.mpr ⟨?_, hlive⟩
    rw [hanoiAppend, runCatalogAppend, mem_catalogPush]
    right
    unfold hanoiWrite
    split_ifs
    · exact hin
    · exact hin
  refine ⟨run, hold, ?_⟩
  rw [(extends_hanoiAppend idx target).treeAt (RunIndex.allocated_of_mem_liveRuns hrun)]
  exact hmem

/-- A pass adds no trigram. -/
theorem runHas_hanoiPass {target : ℕ} (hpass : hanoiPass idx target = (none, idx')) :
    (idx'.RunHas h → idx.RunHas h) ∧ (idx'.BaseHas h ↔ idx.BaseHas h) := by
  obtain ⟨hlive, -, -⟩ := hanoiPass_ok hpass
  unfold hanoiPass at hpass
  dsimp only at hpass
  split at hpass
  next => simp at hpass
  next written hrewrite =>
    obtain ⟨-, htrees, hbase, -⟩ := catalogRuns_rewrite hrewrite
    have hidx := (Prod.mk.inj hpass).2
    have htree := treeAt_congr (show idx'.upperTrees = (hanoiWrite idx
      ((hanoiCollect idx).filter (fun run => decide (run.level = target)))).upperTrees by
        rw [← hidx]; exact htrees)
    have hroot : idx'.rootUpper = idx.rootUpper := by
      rw [← hidx]
      exact hbase.trans (rootUpper_hanoiWrite idx _)
    constructor
    · rintro ⟨run, hrun, hmem⟩
      rw [hlive] at hrun
      rw [htree] at hmem
      rcases List.mem_append.mp hrun with hold | hnew
      · have hin := mem_liveRuns_of_mem_hanoiCollect (List.mem_filter.mp hold).1
        rw [treeAt_hanoiWrite (RunIndex.allocated_of_mem_liveRuns hin)] at hmem
        exact ⟨run, hin, hmem⟩
      · rw [List.mem_singleton.mp hnew] at hmem
        exact runHas_of_mem_promotedRun hmem
    · unfold RunIndex.BaseHas
      rw [htree, hroot, treeAt_hanoiWrite idx.baseAllocated]

/-- A collapse leaves the trigrams of the base tree and the runs. -/
theorem has_collapseRuns :
    ((collapseRuns idx).BaseHas h → idx.BaseHas h ∨ idx.RunHas h) ∧
      ((collapseRuns idx).RunHas h → idx.RunHas h) := by
  unfold collapseRuns
  by_cases hone : idx.runCount ≤ 1
  · rw [if_pos hone]
    exact ⟨Or.inl, id⟩
  · rw [if_neg hone]
    constructor
    · intro hhas
      by_cases hempty : (hanoiFold idx idx.iterate).entries = []
      · simp [RunIndex.BaseHas, hempty, RunIndex.treeAt, UpperTree.empty] at hhas
      · have htree := @treeAt_writeTree_self idx (hanoiFold idx idx.iterate).bulkload
        simp only [RunIndex.BaseHas, hempty, if_false] at hhas
        have hmem : h ∈ (hanoiFold idx idx.iterate).bulkload.entries.map Prod.fst := htree ▸ hhas
        have hperm := (List.mergeSort_perm (hanoiFold idx idx.iterate).entries
          (fun e e' => decide (e.1 ≤ e'.1))).map Prod.fst
        obtain ⟨run, hrun, hin⟩ := mem_hashes_hanoiFold.mp (hperm.mem_iff.mp hmem)
        rcases List.mem_cons.mp hrun with rfl | hrun
        · exact Or.inl hin
        · exact Or.inr ⟨run, hrun, hin⟩
    · rintro ⟨run, hrun, -⟩
      simp [RunIndex.liveRuns, catalogRuns] at hrun

/-- Stripping dead TIDs leaves all trigrams. -/
theorem hashes_postingBulkDelete (dead : ℕ → Bool) (root : Option BlockNumber) :
    ((postingBulkDelete dead idx).treeAt root).entries.map Prod.fst =
      (idx.treeAt root).entries.map Prod.fst := by
  cases root with
  | none => rfl
  | some b =>
    simp only [RunIndex.treeAt, postingBulkDelete]
    split_ifs
    · exact hashes_deleteDead _ dead
    · rfl

end

/-! ## What a merge will take -/

/-- The merge takes the entry if it gets as far as its finalizing. Between its finalizing and its
end there is no such entry, for there the trigrams of all earlier entries are accounted for. -/
def MergePhase.Takes (l : PendingList) (blocks : List BlockNumber) (e : PgTrePendingEntry) :
    MergePhase → Prop
  | idle => e ∈ l.entriesOn blocks
  | locked => e ∈ l.entriesOn blocks
  | metaRead _ wmTail => ∃ pre t rest, blocks = pre ++ t :: rest ∧ wmTail = some t ∧
      e ∈ l.entriesOn pre ++ (l.pages t).entries
  | walking _ wmTail wmTailN _ _ => ∃ pre t rest, blocks = pre ++ t :: rest ∧ wmTail = some t ∧
      e ∈ l.entriesOn pre ++ (l.pages t).entries.take wmTailN
  | building _ _ collected _ => e ∈ collected
  | freeing _ => False

section

variable {l l' : PendingList} {blocks blocks' : List BlockNumber} {e : PgTrePendingEntry}
  {merge : MergePhase}

/-- The entries of a chain are those before a page, on it and after it. -/
theorem PendingList.entriesOn_mid (l : PendingList) (pre rest : List BlockNumber) (t : BlockNumber) :
    l.entriesOn (pre ++ t :: rest) = l.entriesOn pre ++ (l.pages t).entries ++ l.entriesOn rest := by
  simp [PendingList.entriesOn]

/-- What a merge will take is in the list. -/
theorem MergePhase.Takes.mem (h : merge.Takes l blocks e) (hagrees : merge.Agrees l blocks) :
    e ∈ l.entriesOn blocks := by
  cases merge with
  | idle => exact h
  | locked => exact h
  | metaRead head wmTail =>
    obtain ⟨pre, t, rest, rfl, -, hmem⟩ := h
    rw [PendingList.entriesOn_mid]
    exact List.mem_append_left _ hmem
  | walking blk wmTail wmTailN collected consumedPages =>
    obtain ⟨pre, t, rest, rfl, -, hmem⟩ := h
    rw [PendingList.entriesOn_mid]
    refine List.mem_append_left _ ((List.mem_append.mp hmem).elim (List.mem_append_left _) ?_)
    exact fun hin => List.mem_append_right _ (List.mem_of_mem_take hin)
  | building wmTail wmTailN collected consumedPages =>
    obtain ⟨t, rest, rfl, rfl, rfl, -⟩ := hagrees
    rw [PendingList.entriesOn_mid]
    refine List.mem_append_left _ ((List.mem_append.mp h).elim (List.mem_append_left _) ?_)
    exact fun hin => List.mem_append_right _ (List.mem_of_mem_take hin)
  | freeing pages => exact absurd h id

/-- Entries stay on pages that grow. -/
theorem PendingList.Grows.mem_entriesOn (hgrows : l.Grows l' blocks blocks')
    {some' : List BlockNumber} (hsub : some' ⊆ blocks) (h : e ∈ l.entriesOn some') :
    e ∈ l'.entriesOn some' := by
  obtain ⟨b, hb, hmem⟩ := List.mem_flatMap.mp h
  exact List.mem_flatMap.mpr ⟨b, hb, (hgrows.entries b (hsub hb)).subset hmem⟩

/-- Appends change nothing of what a merge will take. -/
theorem MergePhase.Takes.grows (h : merge.Takes l blocks e) (hgrows : l.Grows l' blocks blocks') :
    merge.Takes l' blocks' e := by
  obtain ⟨more, rfl⟩ := hgrows.chain
  have hall (hmem : e ∈ l.entriesOn blocks) : e ∈ l'.entriesOn (blocks ++ more) := by
    rw [PendingList.entriesOn_append]
    exact List.mem_append_left _ (hgrows.mem_entriesOn (List.Subset.refl _) hmem)
  cases merge with
  | idle => exact hall h
  | locked => exact hall h
  | metaRead head wmTail =>
    obtain ⟨pre, t, rest, rfl, rfl, hmem⟩ := h
    refine ⟨pre, t, rest ++ more, by simp, rfl, ?_⟩
    have ht : t ∈ pre ++ t :: rest := List.mem_append_right _ List.mem_cons_self
    rcases List.mem_append.mp hmem with hmem | hmem
    · exact List.mem_append_left _ (hgrows.mem_entriesOn (List.subset_append_left _ _) hmem)
    · exact List.mem_append_right _ ((hgrows.entries t ht).subset hmem)
  | walking blk wmTail wmTailN collected consumedPages =>
    obtain ⟨pre, t, rest, rfl, rfl, hmem⟩ := h
    refine ⟨pre, t, rest ++ more, by simp, rfl, ?_⟩
    have ht : t ∈ pre ++ t :: rest := List.mem_append_right _ List.mem_cons_self
    rcases List.mem_append.mp hmem with hmem | hmem
    · exact List.mem_append_left _ (hgrows.mem_entriesOn (List.subset_append_left _ _) hmem)
    · exact List.mem_append_right _ (((hgrows.entries t ht).take wmTailN).subset hmem)
  | building wmTail wmTailN collected consumedPages => exact h
  | freeing pages => exact h

/-- A scan that ends at its watermark has taken what it was to take. -/
theorem MergePhase.Takes.building {blk : BlockNumber} {wmTail : Option BlockNumber} {wmTailN : ℕ}
    {collected collected' : List PgTrePendingEntry} {consumedPages consumedPages' : List BlockNumber}
    (h : (MergePhase.walking blk wmTail wmTailN collected consumedPages).Takes l blocks e)
    (hnodup : blocks.Nodup)
    (hagrees : (MergePhase.building wmTail wmTailN collected' consumedPages').Agrees l blocks) :
    e ∈ collected' := by
  obtain ⟨pre, t, rest, hblocks, rfl, hmem⟩ := h
  obtain ⟨t', rest', ht', hblocks', rfl, -⟩ := hagrees
  obtain rfl := Option.some.inj ht'
  rw [hblocks] at hnodup hblocks'
  obtain ⟨-, hcons, hdisjoint⟩ := List.nodup_append.mp hnodup
  have hpre : t ∉ pre := fun hin => hdisjoint t hin t List.mem_cons_self rfl
  have hrest : t ∉ rest := (List.nodup_cons.mp hcons).1
  obtain ⟨rfl, -, -⟩ := (List.append_cons_inj_of_notMem hpre hrest).mp hblocks'
  exact hmem

end

/-- A step that consumes nothing does not lose an entry that the merge will take. -/
theorem PendingStep.takes {s s' : PendingState} (hstep : PendingStep s s')
    {blocks blocks' : List BlockNumber} (hs : s.WfOn blocks) (hs' : s'.WfOn blocks')
    (hconsumed : s'.consumed = s.consumed) {e : PgTrePendingEntry}
    (h : s.merge.Takes s.list blocks e) : s'.merge.Takes s'.list blocks' e := by
  have hsame (hlist : s'.list = s.list) : blocks' = blocks := by
    have hlinked := hs'.chain.linked
    rw [hlist] at hlinked
    exact hlinked.unique hs.chain.linked
  have hmem := h.mem hs.merge
  cases hstep with
  | append backend new hbatch hnew =>
    have hnotin : new ∉ blocks := fun hin =>
      hnew (hs.alloc new (List.mem_append_left _ (List.mem_append_left _ hin)))
    obtain ⟨blocks'', -, hchain, hgrows, -⟩ := appendTurn_spec hs.chain hnotin (s.batches backend)
    obtain rfl : blocks' = blocks'' := hs'.chain.linked.unique hchain.linked
    exact h.grows hgrows
  | begin_batch backend batch hidle hmax =>
    obtain rfl := hsame rfl
    exact h
  | begin_merge hidle hlist =>
    obtain rfl := hsame rfl
    exact hmem
  | read_meta hmerge =>
    obtain rfl := hsame rfl
    have hagrees := hs.merge
    rw [hmerge] at hagrees
    obtain ⟨t, ht⟩ := Option.ne_none_iff_exists'.mp (mt List.getLast?_eq_none_iff.mp hagrees)
    obtain ⟨pre, hpre⟩ := List.getLast?_eq_some_iff.mp ht
    refine ⟨pre, t, [], hpre, hs.chain.tail.trans ht, ?_⟩
    rw [hpre, PendingList.entriesOn_mid] at hmem
    simpa [PendingList.entriesOn] using hmem
  | read_empty wmTail hmerge =>
    have hagrees := hs.merge
    rw [hmerge] at hagrees
    obtain ⟨hhead, t, ht, -⟩ := hagrees
    rw [List.head?_eq_none_iff.mp hhead.symm] at ht
    cases ht
  | read_tail head wmTail hmerge =>
    obtain rfl := hsame rfl
    rw [hmerge] at h
    obtain ⟨pre, t, rest, hblocks, htail, hin⟩ := h
    obtain rfl := Option.some.inj htail
    refine ⟨pre, wmTail, rest, hblocks, rfl, ?_⟩
    rw [List.take_length]
    exact hin
  | read_page blk wmTail wmTailN collected consumedPages hmerge =>
    obtain rfl := hsame rfl
    rw [hmerge] at h
    have hagrees := hs'.merge
    dsimp only at hagrees ⊢
    unfold scanPage at hagrees ⊢
    split_ifs at hagrees ⊢
    · exact h.building hs.chain.nodup hagrees
    · split at hagrees
      next => exact h
      next => exact h.building hs.chain.nodup hagrees
  | finalize wmTail wmTailN trailing collected consumedPages hmerge htally =>
    simp at hconsumed
  | free b pages hmerge =>
    rw [hmerge] at h
    exact absurd h id
  | end_merge =>
    obtain rfl := hsame rfl
    exact hmem
  | recycle b hb =>
    obtain rfl := hsame rfl
    exact h

/-! ## The invariant -/

/-- What a writer has put into the catalog. -/
def WriterPhase.Sound (pending : PendingState) (idx : RunIndex) : WriterPhase → Prop
  | none => True
  | flushed => ∃ wmTail wmTailN collected consumedPages,
      pending.merge = .building wmTail wmTailN collected consumedPages ∧ collected ≠ []
  | promoting before target => idx = hanoiAppend before target

/-- While the flag is set, a trigram that is new since the build is in no tree but that of a run
whose entries the next merge takes. After VACUUM's merge there is no such run. -/
structure SurfWorld.WfOn (built : List UInt64) (s : SurfWorld) (blocks : List BlockNumber) :
    Prop where
  list : s.pending.WfOn blocks
  writer : s.writer.Sound s.pending s.idx
  drained : s.drained = true → s.pending.merge = .idle
  base : s.surfComplete = true → ∀ h, s.idx.BaseHas h → h ∈ built
  runs : s.surfComplete = true → ∀ h, s.idx.RunHas h → h ∈ built ∨ s.drained = false ∧
    ∃ e : PgTrePendingEntry, e.trigramHash = h ∧ s.pending.merge.Takes s.pending.list blocks e

section

variable {built : List UInt64} {s : SurfWorld} {blocks : List BlockNumber}

/-- While a merge is under way VACUUM's cleanup is not past its own. -/
theorem SurfWorld.WfOn.not_drained (h : s.WfOn built blocks) (hmerge : s.pending.merge ≠ .idle) :
    s.drained = false := by
  cases hdrained : s.drained with
  | false => rfl
  | true => exact absurd (h.drained hdrained) hmerge

/-- A writer of trees that brings no new trigram. -/
theorem SurfWorld.WfOn.index (h : s.WfOn built blocks) {idx' : RunIndex} {writer' : WriterPhase}
    (hwriter : writer'.Sound s.pending idx')
    (hbase : s.surfComplete = true → ∀ x, idx'.BaseHas x → x ∈ built)
    (hruns : ∀ x, idx'.RunHas x → s.idx.RunHas x) :
    SurfWorld.WfOn built { s with idx := idx', writer := writer' } blocks where
  list := h.list
  writer := hwriter
  drained := h.drained
  base := hbase
  runs := fun hflag x hx => h.runs hflag x (hruns x hx)

/-- An end of what the holder of the lock does. -/
theorem SurfWorld.WfOn.release (h : s.WfOn built blocks) {p : PendingState} (hp : p.WfOn blocks)
    (hidle : p.merge = .idle) (hlist : p.list = s.pending.list) :
    SurfWorld.WfOn built { s with pending := p, writer := .none, drained := false } blocks where
  list := hp
  writer := trivial
  drained := fun _ => hidle
  base := h.base
  runs := by
    intro hflag x hx
    refine (h.runs hflag x hx).imp_right ?_
    rintro ⟨-, e, hhash, htakes⟩
    refine ⟨rfl, e, hhash, ?_⟩
    have hmem := htakes.mem h.list.merge
    rw [← hlist] at hmem
    rw [hidle]
    exact hmem

/-- A step of the pending list that consumes nothing. -/
theorem SurfWorld.WfOn.list_step (h : s.WfOn built blocks) {p : PendingState}
    (hstep : PendingStep s.pending p) (hconsumed : p.consumed = s.pending.consumed)
    (hlock : s.writer = .none ∧ s.drained = false ∨ p.merge = s.pending.merge) :
    ∃ blocks', SurfWorld.WfOn built { s with pending := p } blocks' := by
  obtain ⟨blocks', hlist, -⟩ := hstep.wf h.list
  refine ⟨blocks', hlist, ?_, fun hdrained => ?_, h.base, fun hflag x hx => ?_⟩
  · have hsound := h.writer
    dsimp only
    cases hphase : s.writer with
    | none => trivial
    | flushed =>
      rw [hphase] at hsound
      obtain ⟨wmTail, wmTailN, collected, consumedPages, hbuilding, hne⟩ := hsound
      rcases hlock with ⟨hnone, -⟩ | hmerge
      · rw [hphase] at hnone
        cases hnone
      · exact ⟨wmTail, wmTailN, collected, consumedPages, hmerge.trans hbuilding, hne⟩
    | promoting before target =>
      rw [hphase] at hsound
      exact hsound
  · rcases hlock with ⟨-, hfalse⟩ | hmerge
    · have htrue : s.drained = true := hdrained
      rw [hfalse] at htrue
      cases htrue
    · exact hmerge.trans (h.drained hdrained)
  · refine (h.runs hflag x hx).imp_right ?_
    rintro ⟨hfalse, e, hhash, htakes⟩
    exact ⟨hfalse, e, hhash, hstep.takes h.list hlist hconsumed htakes⟩

section

variable {p : PendingState} {wmTail : Option BlockNumber} {wmTailN : ℕ}
  {collected : List PgTrePendingEntry} {consumedPages : List BlockNumber}

/-- A flush that brings a trigram clears the flag. -/
theorem SurfWorld.WfOn.finalize_flush (h : s.WfOn built blocks)
    (hmerge : s.pending.merge = .building wmTail wmTailN collected consumedPages)
    (hwriter : s.writer = .flushed) (hstep : PendingStep s.pending p) :
    ∃ blocks', SurfWorld.WfOn built { s with
      pending := p
      writer := .none
      surfComplete := s.surfComplete && !addsTrigram (s.idx.treeAt s.idx.rootUpper) true
        (collectPending collected) } blocks' := by
  obtain ⟨blocks', hlist, -⟩ := hstep.wf h.list
  have hsound := h.writer
  rw [hwriter] at hsound
  obtain ⟨wmTail', wmTailN', collected', consumedPages', hbuilding, hne⟩ := hsound
  rw [hmerge] at hbuilding
  cases hbuilding
  have hfalse : s.drained = false := h.not_drained (by rw [hmerge]; nofun)
  have hcleared : (s.surfComplete && !addsTrigram (s.idx.treeAt s.idx.rootUpper) true
      (collectPending collected)) = false := by
    rw [addsTrigram_flush hne]
    simp
  refine ⟨blocks', hlist, trivial, fun hdrained => ?_, fun hflag => ?_, fun hflag => ?_⟩
  · have htrue : s.drained = true := hdrained
    rw [hfalse] at htrue
    cases htrue
  · exact absurd (hcleared.symm.trans hflag) nofun
  · exact absurd (hcleared.symm.trans hflag) nofun

/-- A merge into the base tree keeps the flag only when every trigram it brings is an old one. -/
theorem SurfWorld.WfOn.finalize_base (h : s.WfOn built blocks)
    (hmerge : s.pending.merge = .building wmTail wmTailN collected consumedPages)
    (hwriter : s.writer = .none) (hstep : PendingStep s.pending p) :
    ∃ blocks', SurfWorld.WfOn built { s with
      pending := p
      idx := mergeBase s.idx collected
      surfComplete := s.surfComplete && !addsTrigram (s.idx.treeAt s.idx.rootUpper) false
        (collectPending collected) } blocks' := by
  obtain ⟨blocks', hlist, -⟩ := hstep.wf h.list
  have hfalse : s.drained = false := h.not_drained (by rw [hmerge]; nofun)
  have hkept : (s.surfComplete && !addsTrigram (s.idx.treeAt s.idx.rootUpper) false
      (collectPending collected)) = true → s.surfComplete = true ∧
        ∀ e ∈ collected, e.trigramHash ∈ built := by
    intro hflag
    obtain ⟨hset, hadds⟩ := Bool.and_eq_true_iff.mp hflag
    refine ⟨hset, fun e he => h.base hset _ (baseHas_of_addsTrigram ?_ he)⟩
    simpa using hadds
  refine ⟨blocks', hlist, ?_, fun hdrained => ?_, fun hflag x hx => ?_, fun hflag x hx => ?_⟩
  · dsimp only
    rw [hwriter]
    trivial
  · have htrue : s.drained = true := hdrained
    rw [hfalse] at htrue
    cases htrue
  · obtain ⟨hset, hin⟩ := hkept hflag
    rcases baseHas_mergeBase hx with hold | ⟨e, he, rfl⟩
    · exact h.base hset x hold
    · exact hin e he
  · obtain ⟨hset, hin⟩ := hkept hflag
    left
    rcases h.runs hset x (runHas_mergeBase hx) with hold | ⟨-, e, rfl, htakes⟩
    · exact hold
    · rw [hmerge] at htakes
      exact hin e htakes

end

/-- Every record keeps the invariant. -/
theorem SurfStep.wf {s' : SurfWorld} (hstep : SurfStep s s') (h : s.WfOn built blocks) :
    ∃ blocks', s'.WfOn built blocks' := by
  cases hstep with
  | list p hstep hconsumed hlock => exact h.list_step hstep hconsumed hlock
  | flush wmTail wmTailN collected consumedPages hmerge hcollected hwriter =>
    have hfalse : s.drained = false := h.not_drained (by rw [hmerge]; nofun)
    refine ⟨blocks, h.list, ⟨wmTail, wmTailN, collected, consumedPages, hmerge, hcollected⟩,
      h.drained, fun hflag x hx => h.base hflag x (baseHas_flushRun.mp hx), fun hflag x hx => ?_⟩
    rcases runHas_flushRun hx with hold | ⟨e, he, hhash⟩
    · exact h.runs hflag x hold
    · refine Or.inr ⟨hfalse, e, hhash, ?_⟩
      dsimp only
      rw [hmerge]
      exact he
  | finalize_flush wmTail wmTailN collected consumedPages p hmerge hwriter hstep hconsumed =>
    exact h.finalize_flush hmerge hwriter hstep
  | finalize_base wmTail wmTailN collected consumedPages p hmerge hwriter hstep hconsumed =>
    exact h.finalize_base hmerge hwriter hstep
  | drain_empty hmerge hwriter hhead =>
    obtain rfl : blocks = [] :=
      List.head?_eq_none_iff.mp (h.list.chain.linked.head?_eq.symm.trans hhead)
    refine ⟨[], h.list, h.writer, fun _ => hmerge, h.base, fun hflag x hx => Or.inl ?_⟩
    rcases h.runs hflag x hx with hold | ⟨-, e, -, htakes⟩
    · exact hold
    · exact absurd (htakes.mem h.list.merge) nofun
  | drain_merged hmerge hwriter =>
    refine ⟨blocks, h.list.setMerge trivial rfl, ?_, fun _ => rfl, h.base,
      fun hflag x hx => Or.inl ?_⟩
    · dsimp only
      rw [hwriter]
      trivial
    · rcases h.runs hflag x hx with hold | ⟨-, e, -, htakes⟩
      · exact hold
      · rw [hmerge] at htakes
        exact absurd htakes id
  | promote target hmerge hwriter htarget =>
    exact ⟨blocks, h.index rfl (fun hflag x hx => h.base hflag x (baseHas_hanoiAppend.mp hx))
      fun x hx => runHas_hanoiAppend hx⟩
  | rewrite before idx' target hwriter hpass =>
    have hsound := h.writer
    rw [hwriter] at hsound
    have hidx : s.idx = hanoiAppend before target := hsound
    refine ⟨blocks, h.index trivial (fun hflag x hx => h.base hflag x ?_) fun x hx => ?_⟩
    · rw [hidx]
      exact baseHas_hanoiAppend.mpr ((runHas_hanoiPass hpass).2.mp hx)
    · rw [hidx]
      exact runHas_hanoiAppend_of_runHas ((runHas_hanoiPass hpass).1 hx)
  | collapse hdrained hwriter =>
    refine ⟨blocks, h.index ?_ (fun hflag x hx => ?_) fun x hx => has_collapseRuns.2 hx⟩
    · rw [hwriter]
      trivial
    · rcases has_collapseRuns.1 hx with hbase | hrun
      · exact h.base hflag x hbase
      · rcases h.runs hflag x hrun with hold | ⟨hfalse, -⟩
        · exact hold
        · rw [hdrained] at hfalse
          cases hfalse
  | bulk_delete dead hmerge hwriter =>
    refine ⟨blocks, h.index ?_ (fun hflag x hx => h.base hflag x ?_) fun x hx => ?_⟩
    · rw [hwriter]
      trivial
    · unfold RunIndex.BaseHas at hx ⊢
      rwa [hashes_postingBulkDelete] at hx
    · obtain ⟨run, hrun, hmem⟩ := hx
      rw [hashes_postingBulkDelete] at hmem
      exact ⟨run, hrun, hmem⟩
  | unlock hwriter =>
    refine ⟨blocks, h.list, h.writer, nofun, h.base, fun hflag x hx => ?_⟩
    exact (h.runs hflag x hx).imp_right fun htakes => ⟨rfl, htakes.2⟩
  | abort => exact ⟨blocks, h.release (h.list.setMerge trivial rfl) rfl rfl⟩
  | crash =>
    have hlist := @PendingState.WfOn.setMerge s.pending blocks h.list .idle trivial rfl
    exact ⟨blocks, h.release ⟨hlist.chain, hlist.history, trivial, hlist.distinct, hlist.alloc⟩
      rfl rfl⟩

end

/-- Every run keeps the invariant. -/
theorem wf_of_surfRun {tree : UpperTree} {nTuples : ℕ} {pk : TidPacking}
    {pages : BlockNumber → PendingPage} {rootSurf : Option BlockNumber} {s : SurfWorld}
    (hrun : Relation.ReflTransGen SurfStep (.initial tree nTuples pk pages rootSurf) s) :
    ∃ blocks, s.WfOn (tree.entries.map Prod.fst) blocks := by
  induction hrun with
  | refl =>
    obtain ⟨blocks, hlist⟩ := @wf_of_pendingRun pages _ Relation.ReflTransGen.refl
    refine ⟨blocks, hlist, trivial, ?_, fun _ x hx => ?_, fun _ x hx => ?_⟩
    · rintro ⟨⟩
    · unfold RunIndex.BaseHas at hx
      simp only [SurfWorld.initial, builtIndex] at hx
      split_ifs at hx
      · cases hx
      · exact hx
    · obtain ⟨run, hrun, -⟩ := hx
      simp [SurfWorld.initial, builtIndex, RunIndex.liveRuns, catalogRuns] at hrun
  | tail _ hstep ih =>
    obtain ⟨blocks, hwf⟩ := ih
    exact hstep.wf hwf

/-- A scan that the filter rejects read the flag as set and the list as empty. -/
theorem SurfWorld.trusts_of_rejects {s : SurfWorld} {q : TrigramQuery}
    {surfRead : BlockNumber → Option (ℕ → ℕ → Bool)}
    (h : s.surfPrefilterRejects q surfRead = true) :
    s.surfComplete = true ∧ s.pending.list.pendingHead = none := by
  by_cases hblocked : (!s.surfComplete || s.pending.list.pendingHead.isSome) = true
  · simp only [SurfWorld.surfPrefilterRejects, hblocked, if_true] at h
    split at h
    · cases h
    · split_ifs at h
      split at h
      · cases h
      · cases h
  · simpa using hblocked

/-- In every state that builds, inserts, merges, compactions, collapses and crashes lead to, a set
flag and an empty list mean that each trigram of the base tree and of a live run was there at the
build. So the filter rejects a scan only while it covers every trigram of the index. -/
theorem surfComplete_covers {tree : UpperTree} {nTuples : ℕ} {pk : TidPacking}
    {pages : BlockNumber → PendingPage} {rootSurf : Option BlockNumber} {s : SurfWorld}
    (hrun : Relation.ReflTransGen SurfStep (.initial tree nTuples pk pages rootSurf) s) :
    (s.surfComplete = true → s.pending.list.pendingHead = none →
      ∀ run ∈ s.idx.iterate, ∀ h ∈ (s.idx.treeAt run.rootUpper).entries.map Prod.fst,
        h ∈ tree.entries.map Prod.fst) ∧
    ∀ q surfRead, s.surfPrefilterRejects q surfRead = true →
      ∀ run ∈ s.idx.iterate, ∀ h ∈ (s.idx.treeAt run.rootUpper).entries.map Prod.fst,
        h ∈ tree.entries.map Prod.fst := by
  obtain ⟨blocks, hwf⟩ := wf_of_surfRun hrun
  have hcovers (hflag : s.surfComplete = true) (hhead : s.pending.list.pendingHead = none) :
      ∀ run ∈ s.idx.iterate, ∀ h ∈ (s.idx.treeAt run.rootUpper).entries.map Prod.fst,
        h ∈ tree.entries.map Prod.fst := by
    intro run hrun h hh
    rcases List.mem_cons.mp hrun with rfl | hrun
    · exact hwf.base hflag h hh
    · rcases hwf.runs hflag h ⟨run, hrun, hh⟩ with hold | ⟨-, e, -, htakes⟩
      · exact hold
      · have hmem := htakes.mem hwf.list.merge
        have hnil : blocks = [] :=
          List.head?_eq_none_iff.mp (hwf.list.chain.linked.head?_eq.symm.trans hhead)
        rw [hnil] at hmem
        cases hmem
  refine ⟨hcovers, fun q surfRead hrejects => ?_⟩
  obtain ⟨hflag, hhead⟩ := SurfWorld.trusts_of_rejects hrejects
  exact hcovers hflag hhead

/-- The tree of an index over one row. -/
def oneTrigramTree : UpperTree := ⟨[(7, {1})], List.pairwise_singleton _ _⟩

/-- A row with a trigram of the build is inserted and merged into the base tree: the flag stays
set, the list is empty, and a query for a prefix the filter lacks is rejected. -/
theorem surfComplete_covers_merged :
    ∃ s, Relation.ReflTransGen SurfStep
        (.initial oneTrigramTree 1 .dense (fun _ => ⟨none, []⟩) (some 9)) s ∧
      s.surfComplete = true ∧ s.pending.list.pendingHead = none ∧
      s.pending.appended = [⟨7, 2, 0⟩] ∧
      (∀ run ∈ s.idx.iterate, ∀ h ∈ (s.idx.treeAt run.rootUpper).entries.map Prod.fst,
        h ∈ oneTrigramTree.entries.map Prod.fst) := by
  have hrun : Relation.ReflTransGen SurfStep
      (.initial oneTrigramTree 1 .dense (fun _ => ⟨none, []⟩) (some 9)) _ :=
    (((((((Relation.ReflTransGen.refl.tail
      (.list _ _ (.begin_batch _ 0 [⟨7, 2, 0⟩] rfl (by decide)) rfl (.inl ⟨rfl, rfl⟩))).tail
      (.list _ _ (.append _ 0 5 (by simp) (by simp [SurfWorld.initial, PendingState.initial]))
        rfl (.inl ⟨rfl, rfl⟩))).tail
      (.list _ _ (.begin_merge _ rfl (by decide)) rfl (.inl ⟨rfl, rfl⟩))).tail
      (.list _ _ (.read_meta _ rfl) rfl (.inl ⟨rfl, rfl⟩))).tail
      (.list _ _ (.read_tail _ 5 5 rfl) rfl (.inl ⟨rfl, rfl⟩))).tail
      (.list _ _ (.read_page _ 5 _ _ _ _ rfl) rfl (.inl ⟨rfl, rfl⟩))).tail
      (.finalize_base _ _ _ [⟨7, 2, 0⟩] _ _ rfl rfl
        (.finalize _ _ _ 0 _ _ rfl (by rintro t ⟨⟩; exact Tally.done)) rfl))
  exact ⟨_, hrun, by decide, by decide, rfl, (surfComplete_covers hrun).1 (by decide) (by decide)⟩

end PgTre
