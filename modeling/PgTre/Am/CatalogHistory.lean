import PgTre.Pages.CatalogIterator
import PgTre.Am.IndexLife

/-!
# The life of the run catalog

Runs enter the catalog by `pg_tre_run_catalog_append`, the Hanoi merge replaces those of a level by one
of the next level, and a collapse takes all of them out. Throughout, `pg_tre_run_count` counts the runs
the iterator yields, and no two runs have the same id. A Hanoi merge settles the levels from the
lowest to the highest and merges each of them at most once.
-/

namespace PgTre

/-! ## Levels -/

/-- The level has no more live runs than its capacity. -/
def RunIndex.Settled (idx : RunIndex) (level : ℕ) : Prop :=
  idx.liveRuns.countP (fun run => decide (run.level = level)) ≤ 2 ^ (level - 1)

/-- The live runs fit one page and have levels up to the limit. -/
structure RunIndex.Levelled (idx : RunIndex) : Prop where
  fits : idx.liveRuns.length ≤ runCatalogCap
  level_pos : ∀ run ∈ idx.liveRuns, 1 ≤ run.level
  level_le : ∀ run ∈ idx.liveRuns, run.level ≤ idx.levelLimit

section

variable {idx idx' : RunIndex} {target : ℕ}

/-- The catalog has seven levels to fill. -/
theorem RunIndex.levelLimit_eq (idx : RunIndex) : idx.levelLimit = 7 := by
  unfold levelLimit
  rcases idx.levels with hzero | hseven
  · rw [if_neg (by omega)]
  · rw [if_pos (by omega), hseven]

/-- A collection of a levelled index takes every live run. -/
theorem RunIndex.Levelled.collect (h : idx.Levelled) : hanoiCollect idx = idx.liveRuns := by
  rw [hanoiCollect_eq, List.take_of_length_le h.fits]

/-- The runs of a level are those that are counted for it. -/
theorem RunIndex.Levelled.countP_levelSlot (h : idx.Levelled) (level : ℕ) :
    idx.liveRuns.countP (fun run => decide (levelSlot run = level)) =
      idx.liveRuns.countP (fun run => decide (run.level = level)) := by
  apply List.countP_congr
  intro run hrun
  have hpos := h.level_pos run hrun
  have hle := h.level_le run hrun
  rw [idx.levelLimit_eq] at hle
  unfold levelSlot
  rw [if_pos (by omega)]

/-- The level that is merged is the lowest one that is not settled. -/
theorem targetLevel_eq_some {maxLevels : ℕ} {runs : List PgTreRun}
    (h : targetLevel maxLevels runs = some target) :
    1 ≤ target ∧ target < maxLevels ∧
      2 ^ (target - 1) < runs.countP (fun run => decide (levelSlot run = target)) ∧
      ∀ lv, 1 ≤ lv → lv < target →
        runs.countP (fun run => decide (levelSlot run = lv)) ≤ 2 ^ (lv - 1) := by
  unfold targetLevel at h
  obtain ⟨hover, front, back, hsplit, hfront⟩ := List.find?_eq_some_iff_append.mp h
  rw [Bool.and_eq_true, decide_eq_true_eq, decide_eq_true_eq] at hover
  have hmem : target ∈ List.range' 1 63 := by
    rw [hsplit]
    exact List.mem_append_right _ List.mem_cons_self
  rw [List.mem_range'_1] at hmem
  refine ⟨hmem.1, hover.1, hover.2, fun lv hpos hlt => ?_⟩
  have hlv : lv ∈ front := by
    have hin : lv ∈ List.range' 1 63 := by
      rw [List.mem_range'_1]
      omega
    have hsorted : (List.range' 1 63).Pairwise (· < ·) := List.pairwise_lt_range'
    rw [hsplit] at hin hsorted
    rcases List.mem_append.mp hin with hin | hin
    · exact hin
    · have hbehind := (List.pairwise_append.mp hsorted).2.1
      rcases List.mem_cons.mp hin with rfl | hin
      · omega
      · have hgt := (List.pairwise_cons.mp hbehind).1 lv hin
        omega
  have hnot := hfront lv hlv
  simp only [Bool.not_eq_true', Bool.and_eq_false_iff, decide_eq_false_iff_not, not_lt] at hnot
  rcases hnot with hlimit | hle
  · omega
  · exact hle

/-- With no target level, each level holds at most its quota of runs. -/
theorem targetLevel_eq_none {maxLevels : ℕ} (hmax : maxLevels ≤ 64) {runs : List PgTreRun}
    (h : targetLevel maxLevels runs = none) {lv : ℕ} (hpos : 1 ≤ lv) (hlt : lv < maxLevels) :
    runs.countP (fun run => decide (levelSlot run = lv)) ≤ 2 ^ (lv - 1) := by
  unfold targetLevel at h
  rw [List.find?_eq_none] at h
  have hin : lv ∈ List.range' 1 63 := by
    rw [List.mem_range'_1]
    omega
  have hnot := h lv hin
  rw [Bool.and_eq_true, decide_eq_true_eq, decide_eq_true_eq] at hnot
  omega

/-- The installed runs of a level: those of before, but none at the level that is merged and one more
at the next level. -/
theorem countP_hanoiSurvivors (h : idx.Levelled) (target level : ℕ) :
    (hanoiSurvivors idx target).countP (fun run => decide (run.level = level)) =
      (if level = target then 0
        else idx.liveRuns.countP fun run => decide (run.level = level)) +
      if level = target + 1 then 1 else 0 := by
  unfold hanoiSurvivors
  rw [List.countP_append, h.collect, List.countP_filter, List.countP_singleton]
  congr 1
  · split_ifs with heq
    · rw [List.countP_eq_zero]
      intro run _ hrun
      simp only [Bool.and_eq_true, decide_eq_true_eq, heq] at hrun
      exact hrun.2 hrun.1
    · apply List.countP_congr
      intro run _
      simp only [Bool.and_eq_true, decide_eq_true_eq]
      constructor
      · exact fun hrun => hrun.1
      · intro hrun
        refine ⟨hrun, ?_⟩
        omega
  · by_cases hnext : level = target + 1
    · simp [promotedRun, hnext]
    · rw [if_neg hnext]
      simpa [promotedRun] using Ne.symm hnext

/-- A pass over the lowest level that is not settled: the levels up to it are settled then, and the
catalog stays levelled. -/
theorem hanoiPass_settles (h : idx.Levelled)
    (htarget : targetLevel idx.levelLimit (hanoiCollect idx) = some target)
    (hpass : hanoiPass idx target = (none, idx')) :
    idx'.Levelled ∧ ∀ lv, 1 ≤ lv → lv ≤ target → idx'.Settled lv := by
  obtain ⟨hpos, hlt, -, hbelow⟩ := targetLevel_eq_some htarget
  obtain ⟨hlive, hfits, -⟩ := hanoiPass_ok hpass
  have hlimit := idx.levelLimit_eq
  have hlimit' := idx'.levelLimit_eq
  refine ⟨⟨hfits, ?_, ?_⟩, ?_⟩
  · intro run hrun
    rw [hlive] at hrun
    rcases List.mem_append.mp hrun with hrun | hrun
    · exact h.level_pos run (mem_liveRuns_of_mem_hanoiCollect (List.mem_filter.mp hrun).1)
    · rw [List.mem_singleton.mp hrun]
      exact Nat.succ_pos target
  · intro run hrun
    rw [hlive] at hrun
    rw [hlimit', ← hlimit]
    rcases List.mem_append.mp hrun with hrun | hrun
    · exact h.level_le run (mem_liveRuns_of_mem_hanoiCollect (List.mem_filter.mp hrun).1)
    · rw [List.mem_singleton.mp hrun]
      exact hlt
  · intro lv hlv hle
    unfold RunIndex.Settled
    rw [hlive, countP_hanoiSurvivors h, if_neg (show lv ≠ target + 1 by omega), Nat.add_zero]
    split_ifs with heq
    · exact Nat.zero_le _
    · have hcount := hbelow lv hlv (by omega)
      rwa [h.collect, h.countP_levelSlot] at hcount

/-- A pass over a level that is not settled has runs to merge, so that its rewrite fits. -/
theorem hanoiPass_fits (h : idx.Levelled)
    (htarget : targetLevel idx.levelLimit (hanoiCollect idx) = some target) :
    (hanoiPass idx target).1 = none := by
  obtain ⟨-, -, hover, -⟩ := targetLevel_eq_some htarget
  rw [h.collect, h.countP_levelSlot] at hover
  have hpos : 0 < idx.liveRuns.countP fun run => decide (run.level = target) :=
    lt_of_le_of_lt (Nat.zero_le _) hover
  obtain ⟨run, hrun, hlevel⟩ := List.countP_pos_iff.mp hpos
  rw [← h.collect] at hrun
  exact hanoiPass_eq_none ⟨run, hrun, by simpa using hlevel⟩

/-- The loop ends because no level has too many runs, with a pass for a level at most. -/
theorem hanoiLoop_settles {guard passes low : ℕ} (h : idx.Levelled)
    (hsettled : ∀ lv, 1 ≤ lv → lv < low → idx.Settled lv) (hlow : low ≤ 7) (hpasses : passes < low)
    (hguard : 64 ≤ guard + passes) :
    ∃ passes' idx', hanoiLoop 7 guard passes idx = (.ok passes', idx') ∧ passes' < 7 ∧
      targetLevel 7 (hanoiCollect idx') = none ∧ idx'.Levelled := by
  induction guard generalizing passes low idx with
  | zero => omega
  | succ guard ih =>
    have hlimit := idx.levelLimit_eq
    rw [hanoiLoop]
    cases htarget : targetLevel 7 (hanoiCollect idx) with
    | none => exact ⟨passes, idx, rfl, by omega, htarget, h⟩
    | some target =>
      have htarget' := htarget
      rw [← hlimit] at htarget'
      obtain ⟨hpos, hlt, hover, -⟩ := targetLevel_eq_some htarget
      -- The levels that are settled have been passed.
      have hge : low ≤ target := by
        by_contra hbelow
        have hcap := hsettled target hpos (by omega)
        rw [h.collect, h.countP_levelSlot] at hover
        unfold RunIndex.Settled at hcap
        omega
      have hfits := hanoiPass_fits h htarget'
      cases hpass : hanoiPass idx target with
      | mk err idx' =>
        rw [hpass] at hfits
        obtain rfl : err = none := hfits
        obtain ⟨hlevelled, hsettled'⟩ := hanoiPass_settles h htarget' hpass
        dsimp only
        rw [hpass]
        exact @ih idx' (passes + 1) (target + 1) hlevelled
          (fun lv hlv hle => hsettled' lv hlv (by omega)) (by omega) (by omega) (by omega)

/-- What a Hanoi merge of a levelled catalog leaves. -/
theorem hanoiMerge_settles (h : idx.Levelled) :
    ∃ passes idx', hanoiMerge idx = (.ok passes, idx') ∧ passes < 64 ∧
      ∀ lv, 1 ≤ lv → lv < idx.levelLimit → idx'.Settled lv := by
  obtain ⟨passes, idx', hloop, hlt, hnone, hlevelled⟩ := @hanoiLoop_settles idx 64 0 1 h
    (fun lv hpos hlt => by omega) (by omega) (by omega) (by omega)
  refine ⟨passes, idx', ?_, by omega, fun lv hpos hlt => ?_⟩
  · rw [hanoiMerge, idx.levelLimit_eq]
    exact hloop
  · rw [idx.levelLimit_eq] at hlt
    have hcount := targetLevel_eq_none (by omega) hnone hpos hlt
    rw [hlevelled.collect, hlevelled.countP_levelSlot] at hcount
    exact hcount

end

/-! ## Histories -/

/-- The ids the passes of a Hanoi merge assign, in their order. -/
def hanoiLoopIds (maxLevels : ℕ) : ℕ → RunIndex → List ℕ
  | 0, _ => []
  | guard + 1, idx =>
      match targetLevel maxLevels (hanoiCollect idx) with
      | none => []
      | some target =>
          idx.assignedId :: match hanoiPass idx target with
            | (some _, _) => []
            | (none, idx') => hanoiLoopIds maxLevels guard idx'

/-- A catalog that came about by appends of live runs, Hanoi merges and collapses, with the ids that
were assigned, in their order. -/
inductive CatalogHistory : RunIndex → List ℕ → Prop
  | begin (idx : RunIndex) (hcatalog : idx.catalog = []) (hcount : idx.nRuns = 0) :
      CatalogHistory idx []
  | append {idx : RunIndex} {assigned : List ℕ} (history : CatalogHistory idx assigned)
      (run : PgTreRun) (hlive : run.live = true)
        (hroot : ∀ b, run.rootUpper = some b → b < idx.nBlocks) :
      CatalogHistory (runCatalogAppend idx run hroot) (assigned ++ [idx.assignedId])
  | hanoi {idx : RunIndex} {assigned : List ℕ} (history : CatalogHistory idx assigned) :
      CatalogHistory (hanoiMerge idx).2 (assigned ++ hanoiLoopIds idx.levelLimit 64 idx)
  | collapse {idx : RunIndex} {assigned : List ℕ} (history : CatalogHistory idx assigned) :
      CatalogHistory (collapseRuns idx) assigned

/-- What holds of the catalog throughout: all runs are live, they have different ids that were
assigned before, and the meta page counts them. -/
structure CatalogInv (idx : RunIndex) (assigned : List ℕ) : Prop where
  live : ∀ run ∈ catalogRuns idx.catalog, run.live = true
  nodup : ((catalogRuns idx.catalog).map PgTreRun.runId).Nodup
  mem : ∀ run ∈ catalogRuns idx.catalog, run.runId ∈ assigned
  ascending : assigned.Pairwise (· < ·)
  lt_next : ∀ id ∈ assigned, id < idx.assignedId
  count : idx.nRuns = if catalogRuns idx.catalog = [] then 0
    else (catalogRuns idx.catalog).length + 1

section

variable {idx idx' : RunIndex} {assigned : List ℕ}

/-- A push adds the run to the catalog and keeps the others. -/
theorem catalogPush_perm {run : PgTreRun} (hid : 0 < run.runId) (catalog : List RunCatalogPage) :
    (catalogRuns (catalogPush run hid catalog)).Perm (run :: catalogRuns catalog) := by
  cases catalog with
  | nil => exact List.Perm.refl _
  | cons page rest =>
    simp only [catalogPush]
    split_ifs
    · simp only [catalogRuns, List.flatMap_cons, List.append_assoc]
      exact List.perm_middle
    · exact List.Perm.refl _

/-- The ids that were assigned, with one more. -/
theorem CatalogInv.ascending_concat (h : CatalogInv idx assigned) :
    (assigned ++ [idx.assignedId]).Pairwise (· < ·) := by
  rw [List.pairwise_append]
  refine ⟨h.ascending, List.pairwise_singleton _ _, fun id hid next hnext => ?_⟩
  rw [List.mem_singleton.mp hnext]
  exact h.lt_next id hid

/-- The next id is above all that were assigned, with the one that is assigned now. -/
theorem CatalogInv.lt_succ (h : CatalogInv idx assigned) :
    ∀ id ∈ assigned ++ [idx.assignedId], id < idx.assignedId + 1 := by
  intro id hid
  rcases List.mem_append.mp hid with hid | hid
  · exact Nat.lt_succ_of_lt (h.lt_next id hid)
  · rw [List.mem_singleton.mp hid]
    exact Nat.lt_succ_self _

/-- Appending a live run keeps the catalog's invariant and hands out the next id. -/
theorem CatalogInv.append (h : CatalogInv idx assigned) {run : PgTreRun} (hlive : run.live = true)
    (hroot : ∀ b, run.rootUpper = some b → b < idx.nBlocks) :
    CatalogInv (runCatalogAppend idx run hroot) (assigned ++ [idx.assignedId]) := by
  obtain ⟨added, hadded⟩ : ∃ r : PgTreRun, r = { run with runId := idx.assignedId } := ⟨_, rfl⟩
  have hid : added.runId = idx.assignedId := by rw [hadded]
  have hperm : (catalogRuns (runCatalogAppend idx run hroot).catalog).Perm
      (added :: catalogRuns idx.catalog) := by
    rw [hadded]
    exact catalogPush_perm idx.assignedId_pos idx.catalog
  have hnext : (runCatalogAppend idx run hroot).assignedId = idx.assignedId + 1 := rfl
  constructor
  case live =>
    intro r hr
    rcases List.mem_cons.mp (hperm.subset hr) with rfl | hr
    · rw [hadded]
      exact hlive
    · exact h.live r hr
  case nodup =>
    rw [(hperm.map PgTreRun.runId).nodup_iff, List.map_cons, List.nodup_cons]
    refine ⟨fun hmem => ?_, h.nodup⟩
    obtain ⟨r, hr, heq⟩ := List.mem_map.mp hmem
    have hlt := h.lt_next r.runId (h.mem r hr)
    omega
  case mem =>
    intro r hr
    rcases List.mem_cons.mp (hperm.subset hr) with rfl | hr
    · rw [hid]
      exact List.mem_append_right _ (List.mem_singleton.mpr rfl)
    · exact List.mem_append_left _ (h.mem r hr)
  case ascending => exact h.ascending_concat
  case lt_next =>
    rw [hnext]
    exact h.lt_succ
  case count =>
    have hcount : (runCatalogAppend idx run hroot).nRuns =
        if idx.nRuns = 0 then 2 else idx.nRuns + 1 := rfl
    have hne : catalogRuns (runCatalogAppend idx run hroot).catalog ≠ [] := by
      intro hnil
      rw [hnil] at hperm
      exact absurd hperm.length_eq (by simp)
    rw [hcount, h.count, if_neg hne, hperm.length_eq, List.length_cons]
    by_cases hnil : catalogRuns idx.catalog = []
    · rw [if_pos hnil, if_pos rfl, hnil]
      rfl
    · rw [if_neg hnil, if_neg (by omega)]

/-- Writing a tree leaves the catalog as it is. -/
theorem CatalogInv.hanoiWrite (h : CatalogInv idx assigned) (merged : List PgTreRun) :
    CatalogInv (PgTre.hanoiWrite idx merged) assigned ∧
      (PgTre.hanoiWrite idx merged).assignedId = idx.assignedId := by
  unfold PgTre.hanoiWrite
  split_ifs
  · exact ⟨h, rfl⟩
  · exact ⟨⟨h.live, h.nodup, h.mem, h.ascending, h.lt_next, h.count⟩, rfl⟩

/-- Under the invariant the live runs are those the catalog lists. -/
theorem CatalogInv.liveRuns (h : CatalogInv idx assigned) : idx.liveRuns = catalogRuns idx.catalog :=
  List.filter_eq_self.mpr h.live

/-- A rewrite keeps the invariant when it installs live runs with ids that were assigned. -/
theorem CatalogInv.rewrite (h : CatalogInv idx assigned) {runs : List PgTreRun} {hids : _}
    {halloc : _} (hrewrite : runCatalogRewrite idx runs hids halloc = .ok idx')
    (hlive : ∀ run ∈ runs, run.live = true) (hnodup : (runs.map PgTreRun.runId).Nodup)
    (hmem : ∀ run ∈ runs, run.runId ∈ assigned) : CatalogInv idx' assigned := by
  obtain ⟨hruns, -⟩ := catalogRuns_rewrite hrewrite
  have hfields : idx'.nRuns = (if runs = [] then 0 else runs.length + 1) ∧
      idx'.assignedId = idx.assignedId := by
    unfold runCatalogRewrite at hrewrite
    by_cases hfits : runs.length ≤ runCatalogCap
    · rw [dif_pos hfits] at hrewrite
      rw [← Except.ok.inj hrewrite]
      exact ⟨rfl, rfl⟩
    · rw [dif_neg hfits] at hrewrite
      cases hrewrite
  constructor
  case live => rwa [hruns]
  case nodup => rwa [hruns]
  case mem => rwa [hruns]
  case ascending => exact h.ascending
  case lt_next =>
    rw [hfields.2]
    exact h.lt_next
  case count => rw [hruns, hfields.1]

/-- The runs a pass installs have different ids. -/
theorem CatalogInv.nodup_hanoiSurvivors (h : CatalogInv idx assigned) (target : ℕ) :
    ((hanoiSurvivors idx target).map PgTreRun.runId).Nodup ∧
      ∀ run ∈ hanoiSurvivors idx target, run.runId ∈ assigned ++ [idx.assignedId] := by
  have hid := (h.hanoiWrite ((hanoiCollect idx).filter fun run => decide (run.level = target))).2
  have hkept : ∀ run ∈ (hanoiCollect idx).filter fun run => decide (run.level ≠ target),
      run.runId ∈ assigned := by
    intro run hrun
    apply h.mem
    rw [← h.liveRuns]
    exact mem_liveRuns_of_mem_hanoiCollect (List.mem_filter.mp hrun).1
  unfold hanoiSurvivors
  constructor
  · rw [List.map_append, List.map_singleton, List.nodup_append]
    refine ⟨?_, List.nodup_singleton _, ?_⟩
    · rw [hanoiCollect_eq, h.liveRuns]
      exact h.nodup.sublist ((List.filter_sublist.trans (List.take_sublist _ _)).map _)
    · intro id hid₁ id' hid₂
      obtain ⟨run, hrun, rfl⟩ := List.mem_map.mp hid₁
      rw [List.mem_singleton.mp hid₂, hid]
      exact ne_of_lt (h.lt_next _ (hkept run hrun))
  · intro run hrun
    rcases List.mem_append.mp hrun with hrun | hrun
    · exact List.mem_append_left _ (hkept run hrun)
    · rw [List.mem_singleton.mp hrun]
      simp only [hid]
      exact List.mem_append_right _ (List.mem_singleton.mpr rfl)

/-- A pass keeps the invariant, with the id it assigns. -/
theorem CatalogInv.hanoiPass (h : CatalogInv idx assigned) (target : ℕ) :
    CatalogInv (PgTre.hanoiPass idx target).2 (assigned ++ [idx.assignedId]) := by
  obtain ⟨hwrite, hid⟩ := h.hanoiWrite
    ((hanoiCollect idx).filter fun run => decide (run.level = target))
  have happend := hwrite.append (promotedRun_live idx _ target) (promotedRun_allocated idx _ target)
  rw [hid] at happend
  obtain ⟨hnodup, hmem⟩ := h.nodup_hanoiSurvivors target
  unfold PgTre.hanoiPass
  dsimp only
  split
  next e hrewrite => exact happend
  next written hrewrite =>
    have hwritten := happend.rewrite hrewrite (fun run hrun => hanoiSurvivors_live hrun) hnodup hmem
    exact ⟨hwritten.live, hwritten.nodup, hwritten.mem, hwritten.ascending, hwritten.lt_next,
      hwritten.count⟩

/-- So do all passes of a merge. -/
theorem CatalogInv.hanoiLoop {maxLevels guard passes : ℕ} (h : CatalogInv idx assigned) :
    CatalogInv (PgTre.hanoiLoop maxLevels guard passes idx).2
      (assigned ++ hanoiLoopIds maxLevels guard idx) := by
  induction guard generalizing idx assigned passes with
  | zero =>
    rw [hanoiLoopIds, List.append_nil]
    exact h
  | succ guard ih =>
    rw [PgTre.hanoiLoop, hanoiLoopIds]
    cases targetLevel maxLevels (hanoiCollect idx) with
    | none =>
      rw [List.append_nil]
      exact h
    | some target =>
      have hpass := h.hanoiPass target
      dsimp only
      cases hresult : PgTre.hanoiPass idx target with
      | mk err idx' =>
        rw [hresult] at hpass
        cases err with
        | some e => exact hpass
        | none =>
          have hrest := @ih idx' _ (passes + 1) hpass
          rw [List.append_assoc, List.singleton_append] at hrest
          exact hrest

/-- A collapse takes all runs out. -/
theorem CatalogInv.collapse (h : CatalogInv idx assigned) : CatalogInv (collapseRuns idx) assigned := by
  unfold collapseRuns
  by_cases hone : idx.runCount ≤ 1
  · rw [if_pos hone]
    exact h
  · rw [if_neg hone]
    dsimp only
    constructor
    case live => simp [catalogRuns]
    case nodup => simp [catalogRuns]
    case mem => simp [catalogRuns]
    case ascending => exact h.ascending
    case lt_next =>
      intro id hid
      have hlt := h.lt_next id hid
      unfold RunIndex.assignedId at hlt ⊢
      split_ifs at hlt ⊢
      all_goals exact hlt
    case count => simp [catalogRuns]

/-- The invariant holds throughout. -/
theorem CatalogHistory.inv (history : CatalogHistory idx assigned) : CatalogInv idx assigned := by
  induction history with
  | begin idx hcatalog hcount =>
    refine ⟨?_, ?_, ?_, List.Pairwise.nil, by simp, ?_⟩
    · simp [hcatalog, catalogRuns]
    · simp [hcatalog, catalogRuns]
    · simp [hcatalog, catalogRuns]
    · simp [hcatalog, hcount, catalogRuns]
  | append history run hlive hroot ih => exact ih.append hlive hroot
  | hanoi history ih => exact ih.hanoiLoop
  | collapse history ih => exact ih.collapse

/-- The runs the iterator yields are counted by `pg_tre_run_count`. -/
theorem CatalogInv.runCount (h : CatalogInv idx assigned) : idx.runCount = idx.iterate.length := by
  unfold RunIndex.runCount
  rw [h.count, RunIndex.iterate, h.liveRuns, List.length_cons]
  by_cases hnil : catalogRuns idx.catalog = []
  · rw [if_pos hnil, if_pos rfl, hnil]
    rfl
  · rw [if_neg hnil, if_neg (by omega)]

/-- No two runs of the iterator have the same id. -/
theorem CatalogInv.nodup_iterate (h : CatalogInv idx assigned) :
    (idx.iterate.map PgTreRun.runId).Nodup := by
  rw [RunIndex.iterate, List.map_cons, List.nodup_cons, h.liveRuns]
  refine ⟨fun hmem => ?_, h.nodup⟩
  obtain ⟨run, hrun, hzero⟩ := List.mem_map.mp hmem
  have hpos := runId_pos hrun
  rw [hzero] at hpos
  exact absurd hpos (lt_irrefl 0)

end

/-- However a catalog came about: the ids were assigned in strictly ascending order, and the runs of
the catalog have different ones of them. The iterator yields the base run and then every run of the
catalog once, as many as `pg_tre_run_count` says. After a Hanoi merge of a catalog that fits one page,
with levels from 1 to the limit, no level below the limit has more runs than its capacity, and the
loop has not used up its passes. -/
theorem catalogHistory_iterates_levels :
    (∀ idx assigned, CatalogHistory idx assigned → assigned.Pairwise (· < ·) ∧
      (∀ run ∈ idx.liveRuns, run.runId ∈ assigned) ∧ (idx.iterate.map PgTreRun.runId).Nodup ∧
      idx.liveRuns = catalogRuns idx.catalog ∧ idx.runCount = idx.iterate.length ∧
      ∀ c : CatalogStore, c.Represents idx.catalog → ∃ bound, ∀ fuel, bound < fuel →
        runCatalogIterate c fuel (pgTreRunCatalogOpen idx c) = some (idx.implicitRun :: idx.liveRuns)) ∧
    ∀ idx : RunIndex, idx.Levelled → ∃ passes idx', hanoiMerge idx = (.ok passes, idx') ∧ passes < 64 ∧
      ∀ lv, 1 ≤ lv → lv < idx.levelLimit → idx'.Settled lv := by
  constructor
  · intro idx assigned history
    have hinv := history.inv
    refine ⟨hinv.ascending, ?_, hinv.nodup_iterate, hinv.liveRuns, hinv.runCount, ?_⟩
    · rw [hinv.liveRuns]
      exact hinv.mem
    · exact fun c hc => runCatalogIterate_open hc
  · exact fun idx h => hanoiMerge_settles h

/-- Two runs are appended, and level 1 has room for one. -/
theorem catalogHistory_iterates_levels_two : ∃ idx, CatalogHistory idx [1, 2] ∧
    idx.runCount = idx.iterate.length ∧ idx.iterate.map PgTreRun.runId = [0, 1, 2] ∧
    ∃ passes idx', hanoiMerge idx = (.ok passes, idx') ∧ idx'.Settled 1 := by
  have hfresh : CatalogHistory ⟨none, none, 0, 0, 0, 7, 0, [], fun _ => .empty, 3, [], Or.inr rfl,
    by simp, by simp [catalogRuns]⟩ [] := .begin _ rfl rfl
  have history := (hfresh.append (flushedRun 1) rfl (by simp [flushedRun])).append (flushedRun 2) rfl
    (by simp [flushedRun, runCatalogAppend])
  obtain ⟨-, -, -, -, hcount, -⟩ := catalogHistory_iterates_levels.1 _ _ history
  refine ⟨_, history, hcount, rfl, ?_⟩
  have hmerges {idx assigned} (_ : CatalogHistory idx assigned) := catalogHistory_iterates_levels.2 idx
  obtain ⟨passes, idx', hmerge, -, hsettled⟩ := hmerges history ⟨by decide, by decide, by decide⟩
  exact ⟨passes, idx', hmerge, hsettled 1 le_rfl (by decide)⟩

end PgTre
