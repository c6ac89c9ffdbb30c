import PgTre.Am.MergeMemory

/-!
# What a Hanoi merge leaves

`collapse_fold_run` passes over a posting that `pg_tre_posting_materialize` returns as `NULL`, and the
run it stands in is dropped. So a merge loses TIDs in two ways: with the runs its array has no room for,
and with the postings it does not read.

The levels of the collected runs alone decide which levels the passes fold. What is left is what the
base tree has, what the runs on the other levels have, and what is read of the runs that are folded.
What a pass writes itself is read in full by the passes after it.
-/

namespace PgTre

open Allocating Procedure

/-! ## The levels of a merge -/

/-- A run of which only the level matters. -/
def runOfLevel (level : ℕ) : PgTreRun where
  runId := 0
  level := level
  flags := runLive
  rootUpper := none
  rootRange := none
  nTuples := 0
  nTrigrams := 0
  minTrigramHash := 0
  maxTrigramHash := 0

/-- The levels that the passes fold, one after the other, from the levels of the collected runs. The
last pass is the one after which no level has too many, or before one whose survivors do not fit a
page. -/
def foldedLevels (maxLevels : ℕ) : ℕ → List ℕ → List ℕ
  | 0, _ => []
  | guard + 1, levels =>
      match targetLevel maxLevels (levels.map runOfLevel) with
      | none => []
      | some target =>
          let kept := levels.filter fun level => decide (level ≠ target)
          if kept.length < runCatalogCap then
            target :: foldedLevels maxLevels guard (kept ++ [target + 1])
          else []

/-- The levels that a merge of the index folds. -/
def RunIndex.foldedLevels (idx : RunIndex) : List ℕ :=
  PgTre.foldedLevels idx.levelLimit 64 ((hanoiCollect idx).map (·.level))

section

variable {maxLevels guard target : ℕ} {idx : RunIndex}

/-- A level is chosen by the levels of the runs. -/
theorem targetLevel_map_level (maxLevels : ℕ) (runs : List PgTreRun) :
    targetLevel maxLevels ((runs.map (·.level)).map runOfLevel) = targetLevel maxLevels runs := by
  have hcount : ∀ lv, ((runs.map (·.level)).map runOfLevel).countP (fun run => levelSlot run = lv) =
      runs.countP (fun run => levelSlot run = lv) := by
    intro lv
    rw [List.map_map, List.countP_map]
    rfl
  simp only [targetLevel, hcount]

/-- No level is folded when none is over its quota. -/
theorem foldedLevels_of_none (htarget : targetLevel maxLevels (hanoiCollect idx) = none) :
    foldedLevels maxLevels (guard + 1) ((hanoiCollect idx).map (·.level)) = [] := by
  rw [foldedLevels, targetLevel_map_level, htarget]

/-- A pass folds its target level and the next ones work on what is left. -/
theorem foldedLevels_of_some (htarget : targetLevel maxLevels (hanoiCollect idx) = some target) :
    foldedLevels maxLevels (guard + 1) ((hanoiCollect idx).map (·.level)) =
      if (hanoiKept idx target).length < runCatalogCap then
        target :: foldedLevels maxLevels guard ((hanoiKept idx target).map (·.level) ++ [target + 1])
      else [] := by
  have hkept : ((hanoiCollect idx).map (·.level)).filter (fun level => decide (level ≠ target)) =
      (hanoiKept idx target).map (·.level) := by
    rw [List.filter_map]
    rfl
  rw [foldedLevels, targetLevel_map_level, htarget]
  simp only [hkept, List.length_map]

end

/-! ## What is read of the runs -/

/-- No posting that is written from a block on makes the counter unite two empty leaves. -/
def PostingLayout.BuildsWhole (lay : PostingLayout) (nBlocks : ℕ) : Prop :=
  ∀ b, nBlocks ≤ b → ∀ h tids, ¬EmptyPair (lay.store b h tids).leaves

/-- The base tree has the TID, or one of the runs does, and if its level is one of the given ones, in a
posting that is read. -/
def PostingLayout.LeftBy (lay : PostingLayout) (idx : RunIndex) (runs : List PgTreRun) (levels : List ℕ)
    (h : UInt64) (tid : ℕ) : Prop :=
  tid ∈ (idx.treeAt idx.rootUpper).postings h ∨ ∃ run ∈ runs,
    tid ∈ (idx.treeAt run.rootUpper).postings h ∧ (run.level ∈ levels →
      ¬EmptyPair (lay.posting run.rootUpper h ((idx.treeAt run.rootUpper).postings h)).leaves)

section

variable {lay : PostingLayout} {idx : RunIndex} {runs : List PgTreRun} {levels : List ℕ} {h : UInt64}
  {tid : ℕ}

/-- A tree is read without the hashes whose chain unites two empty leaves. -/
theorem mem_postings_readTree {root : Option BlockNumber} {tree : UpperTree} :
    tid ∈ (lay.readTree root tree).postings h ↔
      tid ∈ tree.postings h ∧ ¬EmptyPair (lay.posting root h (tree.postings h)).leaves := by
  have hpostings : ∀ s, (h, s) ∈ tree.entries → tree.postings h = s := by
    intro s hs
    rw [UpperTree.postings, UpperTree.lookup_eq_some.mpr hs]
    rfl
  rw [UpperTree.mem_postings, UpperTree.mem_postings]
  constructor
  · rintro ⟨s, hs, hmem⟩
    obtain ⟨hentry, hread⟩ := List.mem_filter.mp hs
    refine ⟨⟨s, hentry, hmem⟩, ?_⟩
    rw [hpostings s hentry]
    simpa using hread
  · rintro ⟨⟨s, hs, hmem⟩, hread⟩
    rw [hpostings s hs] at hread
    exact ⟨s, List.mem_filter.mpr ⟨hs, by simpa using hread⟩, hmem⟩

/-- The table has what is read of the runs. -/
theorem has_readFold : (lay.readFold idx runs).Has h tid ↔ ∃ run ∈ runs,
    tid ∈ (idx.treeAt run.rootUpper).postings h ∧
      ¬EmptyPair (lay.posting run.rootUpper h ((idx.treeAt run.rootUpper).postings h)).leaves := by
  have hfold := foldl_adds (P := fun mc : MergeCtx => mc.Has h tid)
    (Q := fun run : PgTreRun => tid ∈ (idx.treeAt run.rootUpper).postings h ∧
      ¬EmptyPair (lay.posting run.rootUpper h ((idx.treeAt run.rootUpper).postings h)).leaves)
    (f := fun mc run => collapseFoldRun (lay.readTree run.rootUpper (idx.treeAt run.rootUpper)) mc)
    (fun mc run => has_collapseFoldRun.trans (or_congr_right mem_postings_readTree)) runs .empty
  rw [PostingLayout.readFold, hfold]
  simp [MergeCtx.Has, MergeCtx.empty]

/-- With no levels to fold all live runs count. -/
theorem leftBy_nil : lay.LeftBy idx idx.liveRuns [] h tid ↔ idx.Holds h tid := by
  rw [RunIndex.holds_iff, PostingLayout.LeftBy]
  refine or_congr_right (exists_congr fun run => and_congr_right fun _ => and_iff_left ?_)
  exact fun hmem => absurd hmem List.not_mem_nil

/-- What a fold leaves of live runs was held by the index. -/
theorem PostingLayout.LeftBy.holds (hruns : ∀ run ∈ runs, run ∈ idx.liveRuns)
    (hleft : lay.LeftBy idx runs levels h tid) : idx.Holds h tid := by
  refine RunIndex.holds_iff.mpr (hleft.imp_right fun ⟨run, hrun, hmem, _⟩ => ?_)
  exact ⟨run, hruns run hrun, hmem⟩

/-- Runs that are not folded by a level, and those that are. -/
theorem leftBy_cons {target : ℕ} : lay.LeftBy idx (hanoiCollect idx) (target :: levels) h tid ↔
    lay.LeftBy idx (hanoiKept idx target) levels h tid ∨
      (lay.readFold idx (hanoiMerged idx target)).Has h tid := by
  rw [has_readFold, PostingLayout.LeftBy, PostingLayout.LeftBy, or_assoc]
  refine or_congr_right ?_
  constructor
  · rintro ⟨run, hrun, hmem, hread⟩
    by_cases hlevel : run.level = target
    · refine Or.inr ⟨run, List.mem_filter.mpr ⟨hrun, decide_eq_true hlevel⟩, hmem, hread ?_⟩
      exact List.mem_cons.mpr (Or.inl hlevel)
    · refine Or.inl ⟨run, List.mem_filter.mpr ⟨hrun, decide_eq_true hlevel⟩, hmem, fun hin => hread ?_⟩
      exact List.mem_cons_of_mem _ hin
  · rintro (⟨run, hrun, hmem, hread⟩ | ⟨run, hrun, hmem, hread⟩)
    · obtain ⟨hcollect, hlevel⟩ := List.mem_filter.mp hrun
      refine ⟨run, hcollect, hmem, fun hin => hread ((List.mem_cons.mp hin).resolve_left ?_)⟩
      exact of_decide_eq_true hlevel
    · exact ⟨run, (List.mem_filter.mp hrun).1, hmem, fun _ => hread⟩

end

/-! ## Passes -/

section

variable {lay : PostingLayout} {idx idx' : RunIndex} {levels : List ℕ} {target : ℕ}
  {h : UInt64} {tid : ℕ}

/-- After a pass the levels that follow leave what they leave before it with the level of the pass. -/
theorem leftBy_pass (hbuilt : lay.BuildsWhole idx.nBlocks)
    (hpass : hanoiPassWith (lay.readFold idx (hanoiMerged idx target)) idx target = (none, idx')) :
    lay.LeftBy idx' idx'.liveRuns levels h tid ↔
      lay.LeftBy idx (hanoiCollect idx) (target :: levels) h tid := by
  obtain ⟨hlive, -, hroot, -, htrees⟩ := hanoiPassWith_spec hpass
  have htree := treeAt_congr htrees
  have hkeep {run : PgTreRun} (hrun : run ∈ hanoiKept idx target) :
      idx'.treeAt run.rootUpper = idx.treeAt run.rootUpper := by
    rw [htree, treeAt_hanoiWriteWith
      (RunIndex.allocated_of_mem_liveRuns (mem_liveRuns_of_mem_hanoiKept hrun))]
  have hbase : idx'.treeAt idx'.rootUpper = idx.treeAt idx.rootUpper := by
    rw [hroot, htree, treeAt_hanoiWriteWith idx.baseAllocated]
  let promoted := promotedRunWith (lay.readFold idx (hanoiMerged idx target)) idx
    (hanoiMerged idx target) target
  -- The postings of the promoted run are new.
  have hwhole : ∀ tids, ¬EmptyPair (lay.posting promoted.rootUpper h tids).leaves := by
    intro tids
    cases hpromoted : promoted.rootUpper with
    | none => exact id
    | some b =>
      refine hbuilt b ?_ h tids
      change (if _ then none else some idx.nBlocks) = some b at hpromoted
      split_ifs at hpromoted
      exact (Option.some.inj hpromoted).le
  have hhas : tid ∈ (idx'.treeAt promoted.rootUpper).postings h ↔
      (lay.readFold idx (hanoiMerged idx target)).Has h tid := by
    rw [htree]
    exact mem_postings_promotedRunWith
  rw [leftBy_cons, PostingLayout.LeftBy, PostingLayout.LeftBy, hbase, or_assoc, hlive]
  refine or_congr_right ?_
  constructor
  · rintro ⟨run, hrun, hmem, hread⟩
    rcases List.mem_append.mp hrun with hrun | hrun
    · rw [hkeep hrun] at hmem hread
      exact Or.inl ⟨run, hrun, hmem, hread⟩
    · rw [List.mem_singleton.mp hrun] at hmem
      exact Or.inr (hhas.mp hmem)
  · rintro (⟨run, hrun, hmem, hread⟩ | hin)
    · refine ⟨run, List.mem_append_left _ hrun, ?_⟩
      rw [hkeep hrun]
      exact ⟨hmem, hread⟩
    · exact ⟨_, List.mem_append_right _ (List.mem_singleton_self _), hhas.mpr hin, fun _ => hwhole _⟩

/-- What a merge that folds the given levels leaves: without a pass everything. -/
def PostingLayout.Leaves (lay : PostingLayout) (idx : RunIndex) (levels : List ℕ)
    (t : RunIndex) : Prop :=
  ∀ h tid, t.Holds h tid ↔
    if levels = [] then idx.Holds h tid else lay.LeftBy idx (hanoiCollect idx) levels h tid

/-- A pass is followed by what the others leave. -/
theorem leaves_pass (hbuilt : lay.BuildsWhole idx.nBlocks)
    (hpass : hanoiPassWith (lay.readFold idx (hanoiMerged idx target)) idx target = (none, idx'))
    {t : RunIndex} (hleaves : lay.Leaves idx' levels t) : lay.Leaves idx (target :: levels) t := by
  obtain ⟨-, hfits, -⟩ := hanoiPassWith_spec hpass
  have hcollect : hanoiCollect idx' = idx'.liveRuns := by
    rw [hanoiCollect_eq, List.take_of_length_le hfits]
  intro h tid
  rw [hleaves, if_neg (List.cons_ne_nil _ _), ← leftBy_pass hbuilt hpass, hcollect]
  split_ifs with hnil
  · rw [hnil, leftBy_nil]
  · rfl

/-- A pass whose rewrite fails leaves everything. -/
theorem leaves_error {e : PgError}
    (hpass : hanoiPassWith (lay.readFold idx (hanoiMerged idx target)) idx target = (some e, idx')) :
    lay.Leaves idx [] idx' := by
  obtain ⟨-, hnone, hholds⟩ := hanoiPassWith_error hpass
  intro h tid
  rw [hholds, if_pos rfl, or_iff_left]
  rw [has_readFold]
  rintro ⟨run, hrun, -⟩
  obtain ⟨hcollect, hlevel⟩ := List.mem_filter.mp hrun
  exact hnone run hcollect (of_decide_eq_true hlevel)

end

/-- The loop of passes with all its memory leaves what its levels leave, also when it ends with an
error. -/
theorem meets_hanoiLoop {lay : PostingLayout} {maxLevels guard passes : ℕ} {idx : ScanIndex}
    (hbuilt : lay.BuildsWhole idx.nBlocks) :
    (hanoiLoopRequesting lay maxLevels guard passes).Meets false
      (fun _ t => lay.Leaves idx.toRunIndex
        (foldedLevels maxLevels guard ((hanoiCollect idx.toRunIndex).map (·.level))) t.toRunIndex)
      (fun _ t => lay.Leaves idx.toRunIndex
        (foldedLevels maxLevels guard ((hanoiCollect idx.toRunIndex).map (·.level))) t.toRunIndex)
      idx := by
  induction guard generalizing passes idx with
  | zero => exact meets_pure fun h tid => (by rw [foldedLevels, if_pos rfl])
  | succ guard ih =>
    unfold hanoiLoopRequesting
    refine meets_get_bind ?_
    cases htarget : targetLevel maxLevels (hanoiCollect idx.toRunIndex) with
    | none =>
      rw [foldedLevels_of_none htarget]
      exact meets_pure fun h tid => (by rw [if_pos rfl])
    | some target =>
      rw [foldedLevels_of_some htarget]
      have hroom := @hanoiPassWith_eq_none_iff
        (lay.readFold idx.toRunIndex (hanoiMerged idx.toRunIndex target)) idx.toRunIndex target
      refine Meets.bind ((@meets_hanoiPassRequesting false lay target idx).mono (fun _ _ h => h)
        fun e t he => ?_) fun _ t ht => ?_
      · obtain ⟨-, ⟨hmay, -⟩ | ⟨⟨err, hpass⟩, -⟩⟩ := he
        · cases hmay
        · have hfull : ¬(hanoiKept idx.toRunIndex target).length < runCatalogCap := by
            rw [← hroom, hpass]
            exact Option.some_ne_none err
          rw [if_neg hfull]
          exact leaves_error hpass
      · obtain ⟨hpass, -⟩ := ht
        obtain ⟨hlive, hfits, -, hblocks, -⟩ := hanoiPassWith_spec hpass
        have hless : idx.nBlocks ≤ t.nBlocks := by
          rw [hblocks]
          exact nBlocks_le_hanoiWriteWith _ _
        have hlevels : (hanoiCollect t.toRunIndex).map (·.level) =
            (hanoiKept idx.toRunIndex target).map (·.level) ++ [target + 1] := by
          rw [hanoiCollect_eq, List.take_of_length_le hfits, hlive, hanoiSurvivorsWith, List.map_append]
          rfl
        rw [if_pos (hroom.mp (by rw [hpass]))]
        have hrest := @ih (passes + 1) t fun b hb => hbuilt b (hless.trans hb)
        rw [hlevels] at hrest
        exact hrest.mono (fun _ u hu => leaves_pass hbuilt hpass hu)
          fun _ u hu => leaves_pass hbuilt hpass hu

/-- What the whole merge leaves. -/
theorem leaves_hanoiMerge {lay : PostingLayout} {idx : ScanIndex}
    (hbuilt : lay.BuildsWhole idx.nBlocks) :
    lay.Leaves idx.toRunIndex idx.foldedLevels
      (((hanoiMergeRequesting lay).exec idx).run (fun _ => false) 0).1.2.toRunIndex := by
  have hmeets : (hanoiMergeRequesting lay).Meets false
      (fun _ t => lay.Leaves idx.toRunIndex idx.foldedLevels t.toRunIndex)
      (fun _ t => lay.Leaves idx.toRunIndex idx.foldedLevels t.toRunIndex) idx := by
    unfold hanoiMergeRequesting
    exact meets_get_bind (meets_hanoiLoop hbuilt)
  have hrun := @Ensures.run_met _ false _ _ (fun _ => false) (fun _ => rfl) 0 hmeets
  rcases hresult : (((hanoiMergeRequesting lay).exec idx).run (fun _ => false) 0).1 with ⟨_ | _, t⟩
  · rw [hresult] at hrun
    exact hrun
  · rw [hresult] at hrun
    exact hrun

/-- Run compaction keeps, for every hash, the union of the postings of the base tree and of all live
runs, exactly when no pass goes through, or the base tree or one of the first `RUN_CATALOG_CAP` runs
has each TID of it, and that run is on a level that no pass folds or its posting is read. -/
theorem hanoiMergeRequesting_preserves_iff (lay : PostingLayout) (idx : ScanIndex)
    (hbuilt : lay.BuildsWhole idx.nBlocks) :
    (∀ h tid, (((hanoiMergeRequesting lay).exec idx).run (fun _ => false) 0).1.2.Holds h tid ↔
        idx.Holds h tid) ↔
      (idx.foldedLevels ≠ [] → ∀ h tid, idx.Holds h tid →
        lay.LeftBy idx.toRunIndex (idx.liveRuns.take runCatalogCap) idx.foldedLevels h tid) := by
  have hleaves := leaves_hanoiMerge hbuilt
  have hcollect := hanoiCollect_eq idx.toRunIndex
  constructor
  · intro hkeeps hsome h tid hholds
    have hleft := (hleaves h tid).mp ((hkeeps h tid).mpr hholds)
    rwa [if_neg hsome, hcollect] at hleft
  · intro hleft h tid
    refine (hleaves h tid).trans ?_
    split_ifs with hnil
    · rfl
    · rw [hcollect]
      exact ⟨PostingLayout.LeftBy.holds fun run hrun => List.mem_of_mem_take hrun, hleft hnil h tid⟩

/-- Two runs of level 1 with a posting each. -/
def flushedTwice : ScanIndex where
  rootUpper := none
  rootRange := none
  nTuplesIndexed := 0
  nTrigrams := 0
  nextRunId := 3
  maxLevels := 7
  nRuns := 3
  catalog := [⟨[flushedRun 1, flushedRun 2], by simp [runCatalogCap], by simp [flushedRun]⟩]
  upperTrees := fun b => ⟨[(0, {b})], by simp⟩
  nBlocks := 3
  freeLog := []
  levels := default_levels
  baseAllocated := by simp
  runsAllocated := by
    intro run hrun b hb
    simp only [catalogRuns, List.flatMap_cons, List.flatMap_nil, List.append_nil, List.mem_cons,
      List.not_mem_nil, or_false] at hrun
    rcases hrun with rfl | rfl
    · obtain rfl := Option.some.inj hb
      decide
    · obtain rfl := Option.some.inj hb
      decide
  tidPacking := .dense
  pending := []
  pendingPacked := noEntries_packed .dense

/-- One leaf is few. -/
theorem oneLeaf_few (tids : Finset ℕ) : [tids].length < 2 ^ 32 := by simp

/-- So is a leaf behind an empty one. -/
theorem emptyHead_few (tids : Finset ℕ) : [∅, tids].length < 2 ^ 32 := by simp

/-- VACUUM has emptied the first leaf of every posting in the first three blocks. -/
def emptyHeadLayout : PostingLayout where
  store b _ tids := if b < 3 then ⟨b, [∅, tids], emptyHead_few tids⟩ else ⟨b, [tids], oneLeaf_few tids⟩
  tids_store b _ tids := by
    split_ifs
    · simp [StoredPosting.tids]
    · simp [StoredPosting.tids]
  builderMaps _ := 1

/-- A merge that folds the two runs keeps both TIDs. -/
theorem hanoiMergeRequesting_preserves_flushedTwice : flushedTwice.foldedLevels = [1] ∧
    ∀ h tid,
      (((hanoiMergeRequesting emptyHeadLayout).exec flushedTwice).run (fun _ => false) 0).1.2.Holds
        h tid ↔ flushedTwice.Holds h tid := by
  have hbuilt : emptyHeadLayout.BuildsWhole flushedTwice.nBlocks := by
    intro b hb h tids
    have hnot : ¬b < 3 := not_lt.mpr hb
    simp [emptyHeadLayout, hnot, EmptyPair]
  refine ⟨by decide +kernel,
    (hanoiMergeRequesting_preserves_iff emptyHeadLayout flushedTwice hbuilt).mpr ?_⟩
  intro _ h tid hholds
  have hall : flushedTwice.liveRuns.take runCatalogCap = flushedTwice.liveRuns := by decide +kernel
  rw [hall]
  refine (RunIndex.holds_iff.mp hholds).imp_right fun ⟨run, hrun, hmem⟩ =>
    ⟨run, hrun, hmem, fun _ hpair => ?_⟩
  -- A chain of two leaves of which one is the posting.
  have htids : (flushedTwice.treeAt run.rootUpper).postings h = ∅ := by
    cases hroot : run.rootUpper with
    | none => rfl
    | some b =>
      rw [hroot] at hpair
      simp only [PostingLayout.posting, emptyHeadLayout] at hpair
      split_ifs at hpair
      · rcases hpair with ⟨-, hempty⟩ | hpair
        · exact hempty
        · exact hpair.elim
      · exact hpair.elim
  rw [htids] at hmem
  exact Finset.notMem_empty tid hmem

/-- An index with 128 flushed runs: a full page of them and one on a fresh page in front. Only
the last run of the full page has a posting, the TID 7 for the hash 0. -/
def crowdedIndex : ScanIndex where
  rootUpper := none
  rootRange := none
  nTuplesIndexed := 0
  nTrigrams := 0
  nextRunId := 129
  maxLevels := 7
  nRuns := 129
  catalog :=
    [⟨[flushedRun 128], by simp [runCatalogCap], by simp [flushedRun]⟩,
      ⟨(List.range' 1 127).map flushedRun, by simp [runCatalogCap], by
        intro run hrun
        obtain ⟨id, hid, rfl⟩ := List.mem_map.mp hrun
        exact (List.mem_range'_1.mp hid).1⟩]
  upperTrees := fun b => if b = 127 then ⟨[(0, {7})], by simp⟩ else .empty
  nBlocks := 129
  freeLog := []
  levels := default_levels
  baseAllocated := by simp
  runsAllocated := by
    intro run hrun b hb
    simp only [catalogRuns, List.flatMap_cons, List.flatMap_nil, List.append_nil, List.mem_append,
      List.mem_singleton, List.mem_map, List.mem_range'_1] at hrun
    rcases hrun with rfl | ⟨id, hid, rfl⟩
    · obtain rfl := Option.some.inj hb
      decide
    · obtain rfl := Option.some.inj hb
      exact hid.2.trans (by decide)
  tidPacking := .dense
  pending := []
  pendingPacked := noEntries_packed .dense

/-- With 128 live runs of level 1 the merge folds the first 127 of them, and the posting of the
last is lost. -/
theorem crowdedIndex_loses_posting :
    crowdedIndex.Holds 0 7 ∧
      ¬(((hanoiMergeRequesting oneLeafLayout).exec crowdedIndex).run (fun _ => false)
        0).1.2.Holds 0 7 := by
  constructor
  · rw [RunIndex.holds_iff]
    refine Or.inr ⟨flushedRun 127, by decide +kernel, ?_⟩
    decide +kernel
  · have hbuilt : oneLeafLayout.BuildsWhole crowdedIndex.nBlocks := fun b _ h tids => id
    rw [leaves_hanoiMerge hbuilt, if_neg (by decide +kernel)]
    have hothers : ∀ run ∈ hanoiCollect crowdedIndex.toRunIndex,
        run.rootUpper ≠ none ∧ run.rootUpper ≠ some 127 := by
      decide +kernel
    rintro (hbase | ⟨run, hrun, hmem, -⟩)
    · simp [crowdedIndex, RunIndex.treeAt] at hbase
    · obtain ⟨hvalid, hother⟩ := hothers run hrun
      cases hroot : run.rootUpper with
      | none => exact hvalid hroot
      | some b =>
        have hne : b ≠ 127 := fun hb => hother (by rw [hroot, hb])
        simp [hroot, RunIndex.treeAt, crowdedIndex, hne] at hmem

end PgTre
