import PgTre.Pages.RunCatalog

/-!
# The Hanoi merge of runs

`pg_tre_hanoi_merge` folds all runs of one level that has too many into a single run of the
next level and rewrites the catalog, until no level has too many. It collects the catalog into
an array of `RUN_CATALOG_CAP` runs and rewrites the catalog from this array, so that runs
beyond it are dropped when a merge takes place. While the live runs fit the array and their postings are
all read, a merge preserves the postings.
-/

namespace PgTre

/-! ## Folding runs -/

/-- `MergeCtx`: the TIDs collected for each hash. The hash table has one entry for a hash, and
the sparsemap built from an entry's array holds each TID once. -/
structure MergeCtx where
  entries : List (UInt64 × Finset ℕ)
  /-- One entry for a hash. -/
  distinct : (entries.map Prod.fst).Nodup

/-- The table `pg_tre_hanoi_merge` starts from. -/
def MergeCtx.empty : MergeCtx := ⟨[], List.nodup_nil⟩

/-- The entry of a hash, found or created, with more TIDs. -/
def mergeInsert (h : UInt64) (tids : Finset ℕ) :
    List (UInt64 × Finset ℕ) → List (UInt64 × Finset ℕ)
  | [] => [(h, tids)]
  | e :: rest => if e.1 = h then (h, e.2 ∪ tids) :: rest else e :: mergeInsert h tids rest

/-- An insertion adds its own hash to the list. -/
theorem mem_map_fst_mergeInsert {h h' : UInt64} {tids : Finset ℕ} {l : List (UInt64 × Finset ℕ)} :
    h' ∈ (mergeInsert h tids l).map Prod.fst ↔ h' = h ∨ h' ∈ l.map Prod.fst := by
  induction l with
  | nil => simp [mergeInsert]
  | cons e l ih =>
    simp only [mergeInsert]
    split_ifs with heq
    · simp [heq]
    · simp only [List.map_cons, List.mem_cons, ih]
      constructor
      · rintro (hh | hh | hh)
        · exact Or.inr (Or.inl hh)
        · exact Or.inl hh
        · exact Or.inr (Or.inr hh)
      · rintro (hh | hh | hh)
        · exact Or.inr (Or.inl hh)
        · exact Or.inl hh
        · exact Or.inr (Or.inr hh)

/-- An insertion keeps the hashes distinct. -/
theorem nodup_mergeInsert {h : UInt64} {tids : Finset ℕ} {l : List (UInt64 × Finset ℕ)}
    (hl : (l.map Prod.fst).Nodup) : ((mergeInsert h tids l).map Prod.fst).Nodup := by
  induction l with
  | nil => simp [mergeInsert]
  | cons e l ih =>
    obtain ⟨hnew, hrest⟩ := List.nodup_cons.mp hl
    simp only [mergeInsert]
    split_ifs with heq
    · rw [← heq]
      exact hl
    · refine List.nodup_cons.mpr ⟨fun hmem => ?_, ih hrest⟩
      rcases mem_map_fst_mergeInsert.mp hmem with hh | hh
      · exact heq hh
      · exact hnew hh

/-- `merge_find` and the loop over a posting's members. -/
def MergeCtx.add (mc : MergeCtx) (h : UInt64) (tids : Finset ℕ) : MergeCtx :=
  ⟨mergeInsert h tids mc.entries, nodup_mergeInsert mc.distinct⟩

/-- The table has a TID for a hash. -/
def MergeCtx.Has (mc : MergeCtx) (h : UInt64) (tid : ℕ) : Prop :=
  ∃ s, (h, s) ∈ mc.entries ∧ tid ∈ s

/-- Adding TIDs for a hash adds exactly these. -/
theorem MergeCtx.has_add {mc : MergeCtx} {h h' : UInt64} {tids : Finset ℕ} {tid : ℕ} :
    (mc.add h tids).Has h' tid ↔ mc.Has h' tid ∨ (h' = h ∧ tid ∈ tids) := by
  obtain ⟨entries, hdistinct⟩ := mc
  simp only [Has, add]
  clear hdistinct
  induction entries with
  | nil =>
    simp only [mergeInsert, List.mem_singleton, Prod.mk.injEq, List.not_mem_nil, false_and,
      exists_false, false_or]
    constructor
    · rintro ⟨s, ⟨rfl, rfl⟩, hmem⟩
      exact ⟨rfl, hmem⟩
    · rintro ⟨rfl, hmem⟩
      exact ⟨tids, ⟨rfl, rfl⟩, hmem⟩
  | cons e entries ih =>
    simp only [mergeInsert]
    split_ifs with heq
    · simp only [List.mem_cons, Prod.mk.injEq]
      constructor
      · rintro ⟨s, ⟨rfl, rfl⟩ | hs, hmem⟩
        · rcases Finset.mem_union.mp hmem with hmem | hmem
          · exact Or.inl ⟨e.2, Or.inl (by rw [← heq]), hmem⟩
          · exact Or.inr ⟨rfl, hmem⟩
        · exact Or.inl ⟨s, Or.inr hs, hmem⟩
      · rintro (⟨s, rfl | hs, hmem⟩ | ⟨rfl, hmem⟩)
        · exact ⟨_, Or.inl ⟨heq, rfl⟩, Finset.mem_union_left _ hmem⟩
        · exact ⟨s, Or.inr hs, hmem⟩
        · exact ⟨_, Or.inl ⟨rfl, rfl⟩, Finset.mem_union_right _ hmem⟩
    · simp only [List.mem_cons]
      constructor
      · rintro ⟨s, rfl | hs, hmem⟩
        · exact Or.inl ⟨_, Or.inl rfl, hmem⟩
        · rcases ih.mp ⟨s, hs, hmem⟩ with ⟨s', hs', hmem'⟩ | hnew
          · exact Or.inl ⟨s', Or.inr hs', hmem'⟩
          · exact Or.inr hnew
      · rintro (⟨s, rfl | hs, hmem⟩ | hnew)
        · exact ⟨_, Or.inl rfl, hmem⟩
        · obtain ⟨s', hs', hmem'⟩ := ih.mpr (Or.inl ⟨s, hs, hmem⟩)
          exact ⟨s', Or.inr hs', hmem'⟩
        · obtain ⟨s', hs', hmem'⟩ := ih.mpr (Or.inr hnew)
          exact ⟨s', Or.inr hs', hmem'⟩

/-- A fold in which every element adds something to a predicate. -/
theorem foldl_adds {α σ : Type*} {P : σ → Prop} {Q : α → Prop} {f : σ → α → σ}
    (hstep : ∀ st a, P (f st a) ↔ P st ∨ Q a) (l : List α) (st : σ) :
    P (l.foldl f st) ↔ P st ∨ ∃ a ∈ l, Q a := by
  induction l generalizing st with
  | nil => simp
  | cons a l ih => rw [List.foldl_cons, ih, hstep, or_assoc, List.exists_mem_cons_iff]

/-- `collapse_fold_run` of a run whose postings are all read: each goes into the table. The one that
leaves out what `pg_tre_posting_materialize` returns as `NULL` is `foldEntries`. -/
def collapseFoldRun (tree : UpperTree) (mc : MergeCtx) : MergeCtx :=
  tree.entries.foldl (fun mc e => mc.add e.1 e.2) mc

/-- Folding a run adds exactly the run's postings. -/
theorem has_collapseFoldRun {tree : UpperTree} {mc : MergeCtx} {h : UInt64} {tid : ℕ} :
    (collapseFoldRun tree mc).Has h tid ↔ mc.Has h tid ∨ tid ∈ tree.postings h := by
  rw [UpperTree.mem_postings]
  unfold collapseFoldRun
  generalize tree.entries = entries
  induction entries generalizing mc with
  | nil => simp
  | cons e entries ih =>
    rw [List.foldl_cons, ih, MergeCtx.has_add]
    constructor
    · rintro ((hold | ⟨rfl, hmem⟩) | ⟨s, hs, hmem⟩)
      · exact Or.inl hold
      · exact Or.inr ⟨e.2, List.mem_cons_self, hmem⟩
      · exact Or.inr ⟨s, List.mem_cons_of_mem e hs, hmem⟩
    · rintro (hold | ⟨s, hs, hmem⟩)
      · exact Or.inl (Or.inl hold)
      · rcases List.mem_cons.mp hs with rfl | hs
        · exact Or.inl (Or.inr ⟨rfl, hmem⟩)
        · exact Or.inr ⟨s, hs, hmem⟩

/-- Folding a run adds exactly the run's hashes. -/
theorem mem_hashes_collapseFoldRun {tree : UpperTree} {mc : MergeCtx} {h : UInt64} :
    h ∈ (collapseFoldRun tree mc).entries.map Prod.fst ↔
      h ∈ mc.entries.map Prod.fst ∨ h ∈ tree.entries.map Prod.fst := by
  have hfold := foldl_adds (P := fun mc : MergeCtx => h ∈ mc.entries.map Prod.fst)
    (Q := fun e : UInt64 × Finset ℕ => e.1 = h) (f := fun mc e => mc.add e.1 e.2) (by
      intro mc e
      rw [MergeCtx.add, mem_map_fst_mergeInsert, or_comm, eq_comm]) tree.entries mc
  rw [collapseFoldRun, hfold, List.mem_map (b := h) (l := tree.entries)]

/-- `materialize_merged_postings` and the sort by hash of the entries `rebuild_iter` serves. -/
def MergeCtx.sorted (mc : MergeCtx) : List (UInt64 × Finset ℕ) :=
  mc.entries.mergeSort (fun e e' => decide (e.1 ≤ e'.1))

/-- The sorted postings ascend strictly. -/
theorem MergeCtx.sorted_ascending (mc : MergeCtx) : mc.sorted.Pairwise (fun e e' => e.1 < e'.1) := by
  have hle : mc.sorted.Pairwise (fun e e' => decide (e.1 ≤ e'.1) = true) := by
    refine List.pairwise_mergeSort (fun a b c hab hbc => ?_) (fun a b => ?_) mc.entries
    · exact decide_eq_true (UInt64.le_trans (of_decide_eq_true hab) (of_decide_eq_true hbc))
    · simpa using UInt64.le_total a.1 b.1
  have hne : (mc.sorted.map Prod.fst).Nodup :=
    (((List.mergeSort_perm mc.entries _).map Prod.fst).nodup_iff).mpr mc.distinct
  have hne : mc.sorted.Pairwise (fun e e' => e.1 ≠ e'.1) := List.pairwise_map.mp hne
  exact List.Pairwise.imp₂ (fun e e' hle hne =>
    UInt64.lt_of_le_of_ne (of_decide_eq_true hle) hne) hle hne

/-- The tree `pg_tre_upper_bulkload` builds from the table. -/
def MergeCtx.bulkload (mc : MergeCtx) : UpperTree := ⟨mc.sorted, mc.sorted_ascending⟩

/-- The tree holds what the table has. -/
theorem MergeCtx.mem_postings_bulkload {mc : MergeCtx} {h : UInt64} {tid : ℕ} :
    tid ∈ mc.bulkload.postings h ↔ mc.Has h tid := by
  rw [UpperTree.mem_postings]
  simp [bulkload, sorted, Has]

/-! ## One pass -/

/-- The runs a pass collects: the live runs of the catalog, up to the size of the array. The
iterator's base run has id 0 and is passed over. -/
def hanoiCollect (idx : RunIndex) : List PgTreRun :=
  (idx.iterate.filter (fun run => decide (run.runId ≠ 0))).take runCatalogCap

/-- The slot of `per_level` a run is counted in. -/
def levelSlot (run : PgTreRun) : ℕ := if 1 ≤ run.level ∧ run.level < 64 then run.level else 1

/-- The shallowest level below the limit with more runs than its capacity `1 << (lv - 1)`. -/
def targetLevel (maxLevels : ℕ) (runs : List PgTreRun) : Option ℕ :=
  (List.range' 1 63).find? (fun lv => decide (lv < maxLevels) &&
    decide (2 ^ (lv - 1) < runs.countP (fun run => levelSlot run = lv)))

/-- `root_is_shared`. -/
def rootIsShared (root base : Option BlockNumber) (runs : List PgTreRun) (droppedLevel : ℕ) : Bool :=
  decide (root = none) || decide (root = base) ||
    runs.any (fun run => decide (run.rootUpper = root ∧ run.level ≠ droppedLevel))

/-- The index with the tree of a merge written at a fresh root. A block the free space map
offers is reachable from nowhere, so it is as good as one past the end. -/
def RunIndex.writeTree (idx : RunIndex) (tree : UpperTree) : RunIndex :=
  { idx with
    upperTrees := Function.update idx.upperTrees idx.nBlocks tree
    nBlocks := idx.nBlocks + 1
    baseAllocated := fun b hb => Nat.lt_succ_of_lt (idx.baseAllocated b hb)
    runsAllocated := fun run hrun b hb => Nat.lt_succ_of_lt (idx.runsAllocated run hrun b hb) }

/-- The table with all runs of the level folded in. -/
def hanoiFold (idx : RunIndex) (merged : List PgTreRun) : MergeCtx :=
  merged.foldl (fun mc run => collapseFoldRun (idx.treeAt run.rootUpper) mc) .empty

/-- The run that replaces the merged ones; a table without entries gives no tree. -/
def promotedRun (idx : RunIndex) (merged : List PgTreRun) (target : ℕ) : PgTreRun :=
  let entries := (hanoiFold idx merged).entries
  { runId := 0
    level := target + 1
    flags := runLive
    rootUpper := if entries = [] then none else some idx.nBlocks
    rootRange := none
    nTuples := (merged.map (·.nTuples)).sum
    nTrigrams := entries.length
    minTrigramHash :=
      if entries = [] then 0
      else merged.foldl (fun lo run => if run.minTrigramHash < lo then run.minTrigramHash else lo)
        (UInt64.ofNat (2 ^ 64 - 1))
    maxTrigramHash :=
      if entries = [] then UInt64.ofNat (2 ^ 64 - 1)
      else merged.foldl (fun hi run => if hi < run.maxTrigramHash then run.maxTrigramHash else hi) 0 }

/-- The index after the bulk load, which writes nothing for a table without entries. -/
def hanoiWrite (idx : RunIndex) (merged : List PgTreRun) : RunIndex :=
  if (hanoiFold idx merged).entries = [] then idx
  else idx.writeTree (hanoiFold idx merged).bulkload

/-- Writing a merged tree frees no block. -/
theorem nBlocks_le_hanoiWrite (idx : RunIndex) (merged : List PgTreRun) :
    idx.nBlocks ≤ (hanoiWrite idx merged).nBlocks := by
  unfold hanoiWrite
  split_ifs
  · exact le_rfl
  · exact Nat.le_succ _

/-- The promoted run's root is allocated once its tree is written. -/
theorem promotedRun_allocated (idx : RunIndex) (merged : List PgTreRun) (target : ℕ) :
    ∀ b, (promotedRun idx merged target).rootUpper = some b → b < (hanoiWrite idx merged).nBlocks := by
  intro b hb
  simp only [promotedRun, hanoiWrite] at hb ⊢
  split_ifs at hb ⊢
  rw [← Option.some.inj hb]
  exact Nat.lt_succ_self _

/-- A pass collects the live runs of the catalog from its head on. -/
theorem hanoiCollect_eq (idx : RunIndex) : hanoiCollect idx = idx.liveRuns.take runCatalogCap := by
  have hall : idx.liveRuns.filter (fun run => decide (run.runId ≠ 0)) = idx.liveRuns := by
    refine List.filter_eq_self.mpr fun run hrun => ?_
    have hpos := runId_pos (RunIndex.mem_liveRuns.mp hrun).1
    exact decide_eq_true (by omega)
  rw [hanoiCollect, RunIndex.iterate, List.filter_cons_of_neg (by simp [RunIndex.implicitRun]), hall]

/-- A collected run is a live run of the catalog. -/
theorem mem_liveRuns_of_mem_hanoiCollect {idx : RunIndex} {run : PgTreRun}
    (h : run ∈ hanoiCollect idx) : run ∈ idx.liveRuns := by
  rw [hanoiCollect_eq] at h
  exact List.mem_of_mem_take h

/-- The runs the rewrite installs: those of the other levels, and the promoted run under its
new id. The array the source collects them in has `RUN_CATALOG_CAP` entries; a list of one more
is written past its end before the rewrite refuses it. -/
def hanoiSurvivors (idx : RunIndex) (target : ℕ) : List PgTreRun :=
  let merged := (hanoiCollect idx).filter (fun run => decide (run.level = target))
  (hanoiCollect idx).filter (fun run => decide (run.level ≠ target)) ++
    [{ promotedRun idx merged target with runId := (hanoiWrite idx merged).assignedId }]

/-- One pass over a level with too many runs: the index it leaves, and the error of a rewrite
that does not fit one page. The append of the promoted run stays in place then. -/
def hanoiPass (idx : RunIndex) (target : ℕ) : Option PgError × RunIndex :=
  let runs := hanoiCollect idx
  let merged := runs.filter (fun run => decide (run.level = target))
  let dropped := merged.filterMap (fun run =>
    if rootIsShared run.rootUpper idx.rootUpper runs target = true then none else run.rootUpper)
  let appended := runCatalogAppend (hanoiWrite idx merged) (promotedRun idx merged target)
    (promotedRun_allocated idx merged target)
  match runCatalogRewrite appended (hanoiSurvivors idx target)
      (by
        intro run hrun
        rcases List.mem_append.mp hrun with hrun | hrun
        · have hlive := mem_liveRuns_of_mem_hanoiCollect (List.mem_filter.mp hrun).1
          exact runId_pos (RunIndex.mem_liveRuns.mp hlive).1
        · rw [List.mem_singleton.mp hrun]
          exact RunIndex.assignedId_pos _)
      (by
        intro run hrun b hb
        rcases List.mem_append.mp hrun with hrun | hrun
        · have hlive := mem_liveRuns_of_mem_hanoiCollect (List.mem_filter.mp hrun).1
          exact (idx.runsAllocated run (RunIndex.mem_liveRuns.mp hlive).1 b hb).trans_le
            (nBlocks_le_hanoiWrite idx merged)
        · rw [List.mem_singleton.mp hrun] at hb
          exact promotedRun_allocated idx merged target b hb) with
  | .error e => (some e, appended)
  | .ok idx' => (none, { idx' with freeLog := idx'.freeLog ++ dropped })

/-- The passes of `pg_tre_hanoi_merge`. -/
def hanoiLoop (maxLevels : ℕ) : ℕ → ℕ → RunIndex → Except PgError ℕ × RunIndex
  | 0, passes, idx => (.ok passes, idx)
  | guard + 1, passes, idx =>
      match targetLevel maxLevels (hanoiCollect idx) with
      | none => (.ok passes, idx)
      | some target =>
          match hanoiPass idx target with
          | (some e, idx') => (.error e, idx')
          | (none, idx') => hanoiLoop maxLevels guard (passes + 1) idx'

/-- The level limit in force; a meta page from before version 7 has none. -/
def RunIndex.levelLimit (idx : RunIndex) : ℕ := if 0 < idx.maxLevels then idx.maxLevels else 7

/-- `pg_tre_hanoi_merge`: the number of passes or the error, and the index it leaves. -/
def hanoiMerge (idx : RunIndex) : Except PgError ℕ × RunIndex :=
  hanoiLoop idx.levelLimit 64 0 idx

/-! ## What a pass preserves -/

/-- One of the runs holds a TID for a hash. -/
def RunIndex.HeldBy (idx : RunIndex) (runs : List PgTreRun) (h : UInt64) (tid : ℕ) : Prop :=
  ∃ run ∈ runs, tid ∈ (idx.treeAt run.rootUpper).postings h

/-- The fold of the runs has what one of them holds. -/
theorem has_hanoiFold {idx : RunIndex} {merged : List PgTreRun} {h : UInt64} {tid : ℕ} :
    (hanoiFold idx merged).Has h tid ↔ idx.HeldBy merged h tid := by
  have hfold (mc : MergeCtx) :
      (merged.foldl (fun mc run => collapseFoldRun (idx.treeAt run.rootUpper) mc) mc).Has h tid ↔
        mc.Has h tid ∨ idx.HeldBy merged h tid := by
    induction merged generalizing mc with
    | nil => simp [RunIndex.HeldBy]
    | cons run merged ih =>
      rw [List.foldl_cons, ih, has_collapseFoldRun, or_assoc]
      simp [RunIndex.HeldBy]
  rw [hanoiFold, hfold]
  simp [MergeCtx.Has, MergeCtx.empty]

/-- The hashes of the fold are those of the runs. -/
theorem mem_hashes_hanoiFold {idx : RunIndex} {merged : List PgTreRun} {h : UInt64} :
    h ∈ (hanoiFold idx merged).entries.map Prod.fst ↔
      ∃ run ∈ merged, h ∈ (idx.treeAt run.rootUpper).entries.map Prod.fst := by
  have hfold := foldl_adds (P := fun mc : MergeCtx => h ∈ mc.entries.map Prod.fst)
    (Q := fun run : PgTreRun => h ∈ (idx.treeAt run.rootUpper).entries.map Prod.fst)
    (f := fun mc run => collapseFoldRun (idx.treeAt run.rootUpper) mc)
    (fun mc run => mem_hashes_collapseFoldRun) merged .empty
  rw [hanoiFold, hfold]
  simp [MergeCtx.empty]

/-! ### A pass with its table

A pass is determined by the table it makes of the runs it folds. -/

/-- `promotedRun` with the table. -/
def promotedRunWith (mc : MergeCtx) (idx : RunIndex) (merged : List PgTreRun) (target : ℕ) :
    PgTreRun :=
  { runId := 0
    level := target + 1
    flags := runLive
    rootUpper := if mc.entries = [] then none else some idx.nBlocks
    rootRange := none
    nTuples := (merged.map (·.nTuples)).sum
    nTrigrams := mc.entries.length
    minTrigramHash :=
      if mc.entries = [] then 0
      else merged.foldl (fun lo run => if run.minTrigramHash < lo then run.minTrigramHash else lo)
        (UInt64.ofNat (2 ^ 64 - 1))
    maxTrigramHash :=
      if mc.entries = [] then UInt64.ofNat (2 ^ 64 - 1)
      else merged.foldl (fun hi run => if hi < run.maxTrigramHash then run.maxTrigramHash else hi) 0 }

/-- `hanoiWrite` with the table. -/
def hanoiWriteWith (mc : MergeCtx) (idx : RunIndex) : RunIndex :=
  if mc.entries = [] then idx else idx.writeTree mc.bulkload

/-- Writing a merged posting list frees no block. -/
theorem nBlocks_le_hanoiWriteWith (mc : MergeCtx) (idx : RunIndex) :
    idx.nBlocks ≤ (hanoiWriteWith mc idx).nBlocks := by
  unfold hanoiWriteWith
  split_ifs
  · exact le_rfl
  · exact Nat.le_succ _

/-- The root of the promoted run is allocated. -/
theorem promotedRunWith_allocated (mc : MergeCtx) (idx : RunIndex) (merged : List PgTreRun)
    (target : ℕ) : ∀ b, (promotedRunWith mc idx merged target).rootUpper = some b →
      b < (hanoiWriteWith mc idx).nBlocks := by
  intro b hb
  simp only [promotedRunWith, hanoiWriteWith] at hb ⊢
  split_ifs at hb ⊢
  rw [← Option.some.inj hb]
  exact Nat.lt_succ_self _

/-- The runs a pass folds. -/
def hanoiMerged (idx : RunIndex) (target : ℕ) : List PgTreRun :=
  (hanoiCollect idx).filter fun run => decide (run.level = target)

/-- The runs it keeps. -/
def hanoiKept (idx : RunIndex) (target : ℕ) : List PgTreRun :=
  (hanoiCollect idx).filter fun run => decide (run.level ≠ target)

/-- `hanoiSurvivors` with the table. -/
def hanoiSurvivorsWith (mc : MergeCtx) (idx : RunIndex) (target : ℕ) : List PgTreRun :=
  hanoiKept idx target ++ [{ promotedRunWith mc idx (hanoiMerged idx target) target with
    runId := (hanoiWriteWith mc idx).assignedId }]

/-- A kept run was live. -/
theorem mem_liveRuns_of_mem_hanoiKept {idx : RunIndex} {target : ℕ} {run : PgTreRun}
    (h : run ∈ hanoiKept idx target) : run ∈ idx.liveRuns :=
  mem_liveRuns_of_mem_hanoiCollect (List.mem_filter.mp h).1

/-- The surviving runs have ids. -/
theorem hanoiSurvivorsWith_ids (mc : MergeCtx) (idx : RunIndex) (target : ℕ) :
    ∀ run ∈ hanoiSurvivorsWith mc idx target, 0 < run.runId := by
  intro run hrun
  rcases List.mem_append.mp hrun with hrun | hrun
  · exact runId_pos (RunIndex.mem_liveRuns.mp (mem_liveRuns_of_mem_hanoiKept hrun)).1
  · rw [List.mem_singleton.mp hrun]
    exact RunIndex.assignedId_pos _

/-- The roots of the surviving runs are allocated. -/
theorem hanoiSurvivorsWith_allocated (mc : MergeCtx) (idx : RunIndex) (target : ℕ) :
    ∀ run ∈ hanoiSurvivorsWith mc idx target, ∀ b, run.rootUpper = some b →
      b < (hanoiWriteWith mc idx).nBlocks := by
  intro run hrun b hb
  rcases List.mem_append.mp hrun with hrun | hrun
  · have hlive := mem_liveRuns_of_mem_hanoiKept hrun
    exact (idx.runsAllocated run (RunIndex.mem_liveRuns.mp hlive).1 b hb).trans_le
      (nBlocks_le_hanoiWriteWith mc idx)
  · rw [List.mem_singleton.mp hrun] at hb
    exact promotedRunWith_allocated mc idx (hanoiMerged idx target) target b hb

/-- `hanoiPass` with the table. -/
def hanoiPassWith (mc : MergeCtx) (idx : RunIndex) (target : ℕ) : Option PgError × RunIndex :=
  let dropped := (hanoiMerged idx target).filterMap (fun run =>
    if rootIsShared run.rootUpper idx.rootUpper (hanoiCollect idx) target = true then none
    else run.rootUpper)
  let appended := runCatalogAppend (hanoiWriteWith mc idx)
    (promotedRunWith mc idx (hanoiMerged idx target) target)
    (promotedRunWith_allocated mc idx (hanoiMerged idx target) target)
  match runCatalogRewrite appended (hanoiSurvivorsWith mc idx target)
      (hanoiSurvivorsWith_ids mc idx target) (hanoiSurvivorsWith_allocated mc idx target) with
  | .error e => (some e, appended)
  | .ok idx' => (none, { idx' with freeLog := idx'.freeLog ++ dropped })

/-- With the fold of the runs it is the pass. -/
theorem hanoiPassWith_hanoiFold (idx : RunIndex) (target : ℕ) :
    hanoiPassWith (hanoiFold idx (hanoiMerged idx target)) idx target = hanoiPass idx target := rfl

section

variable {mc : MergeCtx} {idx idx' : RunIndex} {merged : List PgTreRun} {target : ℕ} {h : UInt64}
  {tid : ℕ}

/-- Writing a merged posting list leaves the base's root alone. -/
theorem rootUpper_hanoiWriteWith (mc : MergeCtx) (idx : RunIndex) :
    (hanoiWriteWith mc idx).rootUpper = idx.rootUpper := by
  unfold hanoiWriteWith
  split_ifs <;> rfl

/-- The roots of live runs are allocated. -/
theorem RunIndex.allocated_of_mem_liveRuns {idx : RunIndex} {run : PgTreRun}
    (h : run ∈ idx.liveRuns) : ∀ b, run.rootUpper = some b → b < idx.nBlocks :=
  idx.runsAllocated run (mem_liveRuns.mp h).1

/-- Writing the merged tree leaves every tree that was there. -/
theorem treeAt_hanoiWriteWith {root : Option BlockNumber}
    (hroot : ∀ b, root = some b → b < idx.nBlocks) :
    (hanoiWriteWith mc idx).treeAt root = idx.treeAt root := by
  unfold hanoiWriteWith
  split_ifs
  · rfl
  · cases root with
    | none => rfl
    | some b =>
      have hne : b ≠ idx.nBlocks := (hroot b rfl).ne
      simp only [RunIndex.treeAt, RunIndex.writeTree, Function.update_of_ne hne]

/-- Writing a merged posting list leaves what the index holds alone. -/
theorem holds_hanoiWriteWith : (hanoiWriteWith mc idx).Holds h tid ↔ idx.Holds h tid := by
  have hruns : (hanoiWriteWith mc idx).liveRuns = idx.liveRuns := by
    unfold hanoiWriteWith
    split_ifs <;> rfl
  rw [RunIndex.holds_iff, RunIndex.holds_iff, hruns, rootUpper_hanoiWriteWith,
    treeAt_hanoiWriteWith idx.baseAllocated]
  refine or_congr_right (exists_congr fun run => and_congr_right fun hrun => ?_)
  rw [treeAt_hanoiWriteWith (RunIndex.allocated_of_mem_liveRuns hrun)]

/-- The promoted run holds what the table has. -/
theorem mem_postings_promotedRunWith :
    tid ∈ ((hanoiWriteWith mc idx).treeAt (promotedRunWith mc idx merged target).rootUpper).postings h ↔
      mc.Has h tid := by
  unfold hanoiWriteWith promotedRunWith
  by_cases hnone : mc.entries = []
  · simp [hnone, RunIndex.treeAt, MergeCtx.Has]
  · simp only [hnone, if_false, RunIndex.treeAt, RunIndex.writeTree, Function.update_self]
    exact MergeCtx.mem_postings_bulkload

/-- The promoted run is live. -/
theorem promotedRunWith_live (mc : MergeCtx) (idx : RunIndex) (merged : List PgTreRun) (target : ℕ) :
    (promotedRunWith mc idx merged target).live = true := by
  simp [PgTreRun.live, promotedRunWith, runLive]

/-- The tree at a root depends on the trees alone. -/
theorem treeAt_congr {idx idx' : RunIndex} (h : idx'.upperTrees = idx.upperTrees)
    (root : Option BlockNumber) : idx'.treeAt root = idx.treeAt root := by
  cases root with
  | none => rfl
  | some b => exact congrFun h b

/-- The installed runs are live. -/
theorem hanoiSurvivorsWith_live {run : PgTreRun} (h : run ∈ hanoiSurvivorsWith mc idx target) :
    run.live = true := by
  rcases List.mem_append.mp h with h | h
  · exact (RunIndex.mem_liveRuns.mp (mem_liveRuns_of_mem_hanoiKept h)).2
  · rw [List.mem_singleton.mp h]
    exact promotedRunWith_live mc idx (hanoiMerged idx target) target

/-- A pass whose rewrite fits: the live runs are the installed ones, at most one page of them, over the
same base tree and the trees that were written. -/
theorem hanoiPassWith_spec (hpass : hanoiPassWith mc idx target = (none, idx')) :
    idx'.liveRuns = hanoiSurvivorsWith mc idx target ∧ idx'.liveRuns.length ≤ runCatalogCap ∧
      idx'.rootUpper = idx.rootUpper ∧ idx'.nBlocks = (hanoiWriteWith mc idx).nBlocks ∧
      idx'.upperTrees = (hanoiWriteWith mc idx).upperTrees := by
  unfold hanoiPassWith at hpass
  dsimp only at hpass
  split at hpass
  next => simp at hpass
  next written hrewrite =>
    obtain ⟨hcatalog, htrees, hbase, hfits⟩ := catalogRuns_rewrite hrewrite
    have hidx := (Prod.mk.inj hpass).2
    have hlive : idx'.liveRuns = hanoiSurvivorsWith mc idx target := by
      rw [RunIndex.liveRuns, ← hidx]
      dsimp only
      rw [hcatalog]
      exact List.filter_eq_self.mpr fun run hrun => hanoiSurvivorsWith_live hrun
    refine ⟨hlive, by rw [hlive]; exact hfits, ?_, ?_, ?_⟩
    · rw [← hidx]
      exact hbase.trans (rootUpper_hanoiWriteWith mc idx)
    · rw [← hidx]
      exact (nBlocks_runCatalogRewrite hrewrite).trans rfl
    · rw [← hidx]
      exact htrees

/-- The index holds what the base tree and the runs that were kept held, and what is in the table. -/
theorem holds_hanoiPassWith (hpass : hanoiPassWith mc idx target = (none, idx')) :
    idx'.Holds h tid ↔ tid ∈ (idx.treeAt idx.rootUpper).postings h ∨
      idx.HeldBy (hanoiKept idx target) h tid ∨ mc.Has h tid := by
  obtain ⟨hlive, -, hroot, -, htrees⟩ := hanoiPassWith_spec hpass
  have htree := treeAt_congr htrees
  rw [RunIndex.holds_iff, hlive, hroot, htree, treeAt_hanoiWriteWith idx.baseAllocated]
  refine or_congr_right ?_
  have hkeep {run : PgTreRun} (hrun : run ∈ hanoiKept idx target) :
      idx'.treeAt run.rootUpper = idx.treeAt run.rootUpper := by
    rw [htree, treeAt_hanoiWriteWith
      (RunIndex.allocated_of_mem_liveRuns (mem_liveRuns_of_mem_hanoiKept hrun))]
  have hpromoted := @mem_postings_promotedRunWith mc idx (hanoiMerged idx target) target h tid
  constructor
  · rintro ⟨run, hrun, hmem⟩
    rcases List.mem_append.mp hrun with hrun | hrun
    · rw [hkeep hrun] at hmem
      exact Or.inl ⟨run, hrun, hmem⟩
    · rw [List.mem_singleton.mp hrun, htree] at hmem
      exact Or.inr (hpromoted.mp hmem)
  · rintro (⟨run, hrun, hmem⟩ | hhas)
    · refine ⟨run, List.mem_append_left _ hrun, ?_⟩
      rw [hkeep hrun]
      exact hmem
    · refine ⟨_, List.mem_append_right _ (List.mem_singleton_self _), ?_⟩
      rw [htree]
      exact hpromoted.mpr hhas

/-- A pass whose rewrite fails: the array was full and no run in it at the level, and the index
holds what it held and what is in the table. -/
theorem hanoiPassWith_error {e : PgError} (hpass : hanoiPassWith mc idx target = (some e, idx')) :
    runCatalogCap ≤ (hanoiKept idx target).length ∧ (∀ run ∈ hanoiCollect idx, run.level ≠ target) ∧
      ∀ h tid, idx'.Holds h tid ↔ idx.Holds h tid ∨ mc.Has h tid := by
  unfold hanoiPassWith at hpass
  dsimp only at hpass
  split at hpass
  next e' hrewrite =>
    have hlong : runCatalogCap < (hanoiSurvivorsWith mc idx target).length := by
      by_contra hfits
      unfold runCatalogRewrite at hrewrite
      rw [dif_pos (not_lt.mp hfits)] at hrewrite
      cases hrewrite
    rw [hanoiSurvivorsWith, List.length_append, List.length_singleton] at hlong
    have hcollect : (hanoiCollect idx).length ≤ runCatalogCap := by
      rw [hanoiCollect_eq]
      exact List.length_take_le _ _
    have hlen : (hanoiCollect idx).length ≤ (hanoiKept idx target).length := by omega
    have hall := List.length_filter_eq_length_iff.mp (le_antisymm (List.length_filter_le _ _) hlen)
    refine ⟨by omega, fun run hrun => of_decide_eq_true (hall run hrun), fun h tid => ?_⟩
    rw [← (Prod.mk.inj hpass).2, holds_runCatalogAppend _ (promotedRunWith_live _ _ _ _),
      mem_postings_promotedRunWith, holds_hanoiWriteWith]
  next => simp at hpass

/-- The rewrite fits exactly when there is room for the promoted run. -/
theorem hanoiPassWith_eq_none_iff :
    (hanoiPassWith mc idx target).1 = none ↔ (hanoiKept idx target).length < runCatalogCap := by
  rcases hpass : hanoiPassWith mc idx target with ⟨_ | e, idx'⟩
  · obtain ⟨hlive, hfits, -⟩ := hanoiPassWith_spec hpass
    rw [hlive, hanoiSurvivorsWith, List.length_append, List.length_singleton] at hfits
    exact iff_of_true rfl hfits
  · exact iff_of_false nofun (not_lt.mpr (hanoiPassWith_error hpass).1)

/-- The collected runs are those that are folded and those that are kept. -/
theorem heldBy_hanoiCollect : idx.HeldBy (hanoiCollect idx) h tid ↔
    idx.HeldBy (hanoiKept idx target) h tid ∨ idx.HeldBy (hanoiMerged idx target) h tid := by
  constructor
  · rintro ⟨run, hrun, hmem⟩
    by_cases hlevel : run.level = target
    · exact Or.inr ⟨run, List.mem_filter.mpr ⟨hrun, decide_eq_true hlevel⟩, hmem⟩
    · exact Or.inl ⟨run, List.mem_filter.mpr ⟨hrun, decide_eq_true hlevel⟩, hmem⟩
  · rintro (⟨run, hrun, hmem⟩ | ⟨run, hrun, hmem⟩)
    · exact ⟨run, (List.mem_filter.mp hrun).1, hmem⟩
    · exact ⟨run, (List.mem_filter.mp hrun).1, hmem⟩

/-! ### A pass with the fold of its runs -/

/-- A tree written before is read the same after the write. -/
theorem treeAt_hanoiWrite {root : Option BlockNumber} (hroot : ∀ b, root = some b → b < idx.nBlocks) :
    (hanoiWrite idx merged).treeAt root = idx.treeAt root :=
  treeAt_hanoiWriteWith hroot

/-- The promoted run holds what the merged runs held. -/
theorem mem_postings_promotedRun :
    tid ∈ ((hanoiWrite idx merged).treeAt (promotedRun idx merged target).rootUpper).postings h ↔
      idx.HeldBy merged h tid := by
  rw [← has_hanoiFold]
  exact mem_postings_promotedRunWith

/-- The promoted run is live. -/
theorem promotedRun_live (idx : RunIndex) (merged : List PgTreRun) (target : ℕ) :
    (promotedRun idx merged target).live = true :=
  promotedRunWith_live (hanoiFold idx merged) idx merged target

/-- Writing a merged tree leaves the base's root alone. -/
theorem rootUpper_hanoiWrite (idx : RunIndex) (merged : List PgTreRun) :
    (hanoiWrite idx merged).rootUpper = idx.rootUpper :=
  rootUpper_hanoiWriteWith (hanoiFold idx merged) idx

/-- The surviving runs are live. -/
theorem hanoiSurvivors_live {run : PgTreRun} (h : run ∈ hanoiSurvivors idx target) : run.live = true :=
  @hanoiSurvivorsWith_live (hanoiFold idx (hanoiMerged idx target)) idx target run h

/-- A pass whose rewrite fits: the live runs are the installed ones, at most one page of them,
and the index holds what the base tree and the collected runs held. -/
theorem hanoiPass_ok (hpass : hanoiPass idx target = (none, idx')) :
    idx'.liveRuns = hanoiSurvivors idx target ∧ idx'.liveRuns.length ≤ runCatalogCap ∧
      ∀ h tid, idx'.Holds h tid ↔
        tid ∈ (idx.treeAt idx.rootUpper).postings h ∨ idx.HeldBy (hanoiCollect idx) h tid := by
  rw [← hanoiPassWith_hanoiFold] at hpass
  obtain ⟨hlive, hfits, -⟩ := hanoiPassWith_spec hpass
  refine ⟨hlive, hfits, fun h tid => ?_⟩
  rw [holds_hanoiPassWith hpass, has_hanoiFold, @heldBy_hanoiCollect idx target]

/-- A pass whose rewrite fails: no collected run was at the level, and the index holds what it
held. -/
theorem hanoiPass_error {e : PgError} (hpass : hanoiPass idx target = (some e, idx')) :
    (∀ run ∈ hanoiCollect idx, run.level ≠ target) ∧
      ∀ h tid, idx'.Holds h tid ↔ idx.Holds h tid := by
  rw [← hanoiPassWith_hanoiFold] at hpass
  obtain ⟨-, hnone, hholds⟩ := hanoiPassWith_error hpass
  refine ⟨hnone, fun h tid => ?_⟩
  rw [hholds, has_hanoiFold, or_iff_left]
  rintro ⟨run, hrun, -⟩
  obtain ⟨hcollect, hlevel⟩ := List.mem_filter.mp hrun
  exact hnone run hcollect (of_decide_eq_true hlevel)

end

/-- A pass that collects a run at the level fits its rewrite. -/
theorem hanoiPass_eq_none {idx : RunIndex} {target : ℕ}
    (h : ∃ run ∈ hanoiCollect idx, run.level = target) : (hanoiPass idx target).1 = none := by
  cases hpass : hanoiPass idx target with
  | mk err idx' =>
    cases err with
    | none => rfl
    | some e =>
      obtain ⟨run, hrun, hlevel⟩ := h
      exact absurd hlevel ((hanoiPass_error hpass).1 run hrun)

/-! ## What a whole merge preserves -/

/-- Holding, with the live runs split at the size of the array. -/
theorem RunIndex.holds_iff_take {idx : RunIndex} {h : UInt64} {tid : ℕ} :
    idx.Holds h tid ↔ (tid ∈ (idx.treeAt idx.rootUpper).postings h ∨
      idx.HeldBy (hanoiCollect idx) h tid) ∨ idx.HeldBy (idx.liveRuns.drop runCatalogCap) h tid := by
  rw [holds_iff, hanoiCollect_eq, or_assoc]
  refine or_congr_right ?_
  have hsplit : (∃ run ∈ idx.liveRuns, tid ∈ (idx.treeAt run.rootUpper).postings h) ↔
      ∃ run ∈ idx.liveRuns.take runCatalogCap ++ idx.liveRuns.drop runCatalogCap,
        tid ∈ (idx.treeAt run.rootUpper).postings h := by
    rw [List.take_append_drop]
  rw [hsplit]
  constructor
  · rintro ⟨run, hrun, hmem⟩
    rcases List.mem_append.mp hrun with hrun | hrun
    · exact Or.inl ⟨run, hrun, hmem⟩
    · exact Or.inr ⟨run, hrun, hmem⟩
  · rintro (⟨run, hrun, hmem⟩ | ⟨run, hrun, hmem⟩)
    · exact ⟨run, List.mem_append_left _ hrun, hmem⟩
    · exact ⟨run, List.mem_append_right _ hrun, hmem⟩

/-- While the live runs fit the array, every pass keeps what the index holds. -/
theorem holds_hanoiLoop {maxLevels guard passes : ℕ} {idx : RunIndex}
    (hfits : idx.liveRuns.length ≤ runCatalogCap) (h : UInt64) (tid : ℕ) :
    (hanoiLoop maxLevels guard passes idx).2.Holds h tid ↔ idx.Holds h tid := by
  induction guard generalizing passes idx with
  | zero => rfl
  | succ guard ih =>
    rw [hanoiLoop]
    cases targetLevel maxLevels (hanoiCollect idx) with
    | none => rfl
    | some target =>
      dsimp only
      cases hpass : hanoiPass idx target with
      | mk err idx' =>
        cases err with
        | some e => exact (hanoiPass_error hpass).2 h tid
        | none =>
          obtain ⟨-, hfits', hholds⟩ := hanoiPass_ok hpass
          dsimp only
          rw [ih hfits', hholds, RunIndex.holds_iff_take, List.drop_eq_nil_of_le hfits]
          simp [RunIndex.HeldBy]

/-- The live run of level 1 with the given id, whose tree is rooted at the block of the same
number. -/
def flushedRun (id : ℕ) : PgTreRun where
  runId := id
  level := 1
  flags := runLive
  rootUpper := some id
  rootRange := none
  nTuples := 1
  nTrigrams := 1
  minTrigramHash := 0
  maxTrigramHash := 0

end PgTre
