import PgTre.Pages.HanoiMerge
import PgTre.Pages.TidPacking

/-!
# The trees a pending merge builds

`pg_tre_pending_merge` collects the consumed entries of the pending list by trigram, unites each
trigram with its posting in the base tree, and rebuilds the upper tree from the old leaves and the
merged postings. With `pg_tre.flush_to_run` it builds a tree of the pending entries alone instead.
-/

namespace PgTre

/-- `collect_pending_cb` on the consumed entries. A TID is unpacked and packed again, which gives
it back. -/
def collectPending (entries : List PgTrePendingEntry) : MergeCtx :=
  entries.foldl (fun mc e => mc.add e.trigramHash {e.tid}) .empty

/-- The table has exactly the entries. -/
theorem has_collectPending {entries : List PgTrePendingEntry} {h : UInt64} {tid : ℕ} :
    (collectPending entries).Has h tid ↔ ∃ e ∈ entries, e.trigramHash = h ∧ e.tid = tid := by
  have hfold := foldl_adds (P := fun mc : MergeCtx => mc.Has h tid)
    (Q := fun e : PgTrePendingEntry => e.trigramHash = h ∧ e.tid = tid)
    (f := fun mc e => mc.add e.trigramHash {e.tid}) (by
      intro mc e
      rw [MergeCtx.has_add, Finset.mem_singleton, eq_comm, eq_comm (a := tid)]) entries .empty
  rw [collectPending, hfold]
  simp [MergeCtx.Has, MergeCtx.empty]

/-- The hashes of the table are those of the entries. -/
theorem mem_hashes_collectPending {entries : List PgTrePendingEntry} {h : UInt64} :
    h ∈ (collectPending entries).entries.map Prod.fst ↔ ∃ e ∈ entries, e.trigramHash = h := by
  have hfold := foldl_adds (P := fun mc : MergeCtx => h ∈ mc.entries.map Prod.fst)
    (Q := fun e : PgTrePendingEntry => e.trigramHash = h)
    (f := fun mc e => mc.add e.trigramHash {e.tid}) (by
      intro mc e
      rw [MergeCtx.add, mem_map_fst_mergeInsert, or_comm, eq_comm]) entries .empty
  rw [collectPending, hfold]
  simp [MergeCtx.empty]

/-- `materialize_merged_postings`: each trigram's TIDs, with its posting in the base tree unless
`pending_only` is set. -/
def materializeMergedPostings (base : UpperTree) (pendingOnly : Bool) (mc : MergeCtx) : MergeCtx where
  entries := mc.entries.map fun e => (e.1, if pendingOnly then e.2 else base.postings e.1 ∪ e.2)
  distinct := by simpa [Function.comp_def] using mc.distinct

/-- The flag `adds_trigram` that `materialize_merged_postings` sets: a merged trigram is not in the
base tree, or nobody looked. -/
def addsTrigram (base : UpperTree) (pendingOnly : Bool) (mc : MergeCtx) : Bool :=
  mc.entries.any fun e => pendingOnly || (base.lookup e.1).isNone

/-- `rebuild_iter`: the old leaves and the merged postings in the order of their hashes, a merged
posting in place of the old one. -/
def rebuildIter (existing sorted : List (UInt64 × Finset ℕ)) : List (UInt64 × Finset ℕ) :=
  match existing, sorted with
  | [], sorted => sorted
  | e :: existing, [] => e :: existing
  | e :: existing, m :: sorted =>
      if e.1 < m.1 then e :: rebuildIter existing (m :: sorted)
      else if m.1 < e.1 then m :: rebuildIter (e :: existing) sorted
      else m :: rebuildIter existing sorted
termination_by existing.length + sorted.length

/-- The hashes ascend. -/
abbrev Ascending (l : List (UInt64 × Finset ℕ)) : Prop := l.Pairwise (fun e e' => e.1 < e'.1)

section

variable {existing sorted : List (UInt64 × Finset ℕ)}

/-- What the iterator serves comes from one of the lists. -/
theorem mem_or_mem_of_mem_rebuildIter {x : UInt64 × Finset ℕ} (h : x ∈ rebuildIter existing sorted) :
    x ∈ existing ∨ x ∈ sorted := by
  fun_induction rebuildIter existing sorted with
  | case1 sorted => exact Or.inr h
  | case2 e existing => exact Or.inl h
  | case3 e existing m sorted hlt ih =>
    rcases List.mem_cons.mp h with rfl | h
    · exact Or.inl List.mem_cons_self
    · rcases ih h with h | h
      · exact Or.inl (List.mem_cons_of_mem _ h)
      · exact Or.inr h
  | case4 e existing m sorted hle hlt ih =>
    rcases List.mem_cons.mp h with rfl | h
    · exact Or.inr List.mem_cons_self
    · rcases ih h with h | h
      · exact Or.inl h
      · exact Or.inr (List.mem_cons_of_mem _ h)
  | case5 e existing m sorted hle hge ih =>
    rcases List.mem_cons.mp h with rfl | h
    · exact Or.inr List.mem_cons_self
    · rcases ih h with h | h
      · exact Or.inl (List.mem_cons_of_mem _ h)
      · exact Or.inr (List.mem_cons_of_mem _ h)

/-- The iterator serves ascending hashes. -/
theorem ascending_rebuildIter (hexisting : Ascending existing) (hsorted : Ascending sorted) :
    Ascending (rebuildIter existing sorted) := by
  fun_induction rebuildIter existing sorted with
  | case1 sorted => exact hsorted
  | case2 e existing => exact hexisting
  | case3 e existing m sorted hlt ih =>
    obtain ⟨he, hrest⟩ := List.pairwise_cons.mp hexisting
    refine List.pairwise_cons.mpr ⟨fun x hx => ?_, ih hrest hsorted⟩
    rcases mem_or_mem_of_mem_rebuildIter hx with hx | hx
    · exact he x hx
    · rcases List.mem_cons.mp hx with rfl | hx
      · exact hlt
      · exact UInt64.lt_trans hlt ((List.pairwise_cons.mp hsorted).1 x hx)
  | case4 e existing m sorted hle hlt ih =>
    obtain ⟨hm, hrest⟩ := List.pairwise_cons.mp hsorted
    refine List.pairwise_cons.mpr ⟨fun x hx => ?_, ih hexisting hrest⟩
    rcases mem_or_mem_of_mem_rebuildIter hx with hx | hx
    · rcases List.mem_cons.mp hx with rfl | hx
      · exact hlt
      · exact UInt64.lt_trans hlt ((List.pairwise_cons.mp hexisting).1 x hx)
    · exact hm x hx
  | case5 e existing m sorted hle hge ih =>
    obtain ⟨he, hrest⟩ := List.pairwise_cons.mp hexisting
    obtain ⟨hm, hrest'⟩ := List.pairwise_cons.mp hsorted
    have heq : e.1 = m.1 := UInt64.le_antisymm (UInt64.not_lt.mp hge) (UInt64.not_lt.mp hle)
    refine List.pairwise_cons.mpr ⟨fun x hx => ?_, ih hrest hrest'⟩
    rcases mem_or_mem_of_mem_rebuildIter hx with hx | hx
    · exact heq ▸ he x hx
    · exact hm x hx

/-- The iterator serves every merged posting, and the old leaves of all other hashes. -/
theorem mem_rebuildIter (hexisting : Ascending existing) (hsorted : Ascending sorted)
    {x : UInt64 × Finset ℕ} :
    x ∈ rebuildIter existing sorted ↔ x ∈ sorted ∨ x ∈ existing ∧ x.1 ∉ sorted.map Prod.fst := by
  fun_induction rebuildIter existing sorted with
  | case1 sorted => simp
  | case2 e existing => simp
  | case3 e existing m sorted hlt ih =>
    obtain ⟨-, hrest⟩ := List.pairwise_cons.mp hexisting
    -- the first old leaf lies before all merged postings
    have hfresh : e.1 ∉ (m :: sorted).map Prod.fst := by
      intro hmem
      obtain ⟨y, hy, heq⟩ := List.mem_map.mp hmem
      rcases List.mem_cons.mp hy with rfl | hy
      · exact UInt64.lt_irrefl _ (heq ▸ hlt)
      · have hbelow := UInt64.lt_trans hlt ((List.pairwise_cons.mp hsorted).1 y hy)
        exact UInt64.lt_irrefl _ (heq ▸ hbelow)
    rw [List.mem_cons, ih hrest hsorted, List.mem_cons (a := x) (b := e)]
    constructor
    · rintro (rfl | hx | ⟨hx, hnew⟩)
      · exact Or.inr ⟨Or.inl rfl, hfresh⟩
      · exact Or.inl hx
      · exact Or.inr ⟨Or.inr hx, hnew⟩
    · rintro (hx | ⟨rfl | hx, hnew⟩)
      · exact Or.inr (Or.inl hx)
      · exact Or.inl rfl
      · exact Or.inr (Or.inr ⟨hx, hnew⟩)
  | case4 e existing m sorted hle hlt ih =>
    obtain ⟨-, hrest⟩ := List.pairwise_cons.mp hsorted
    have hother {y : UInt64 × Finset ℕ} (hy : y ∈ e :: existing) : y.1 ≠ m.1 := by
      intro heq
      rcases List.mem_cons.mp hy with rfl | hy
      · exact UInt64.lt_irrefl _ (heq ▸ hlt)
      · have hbelow := UInt64.lt_trans hlt ((List.pairwise_cons.mp hexisting).1 y hy)
        exact UInt64.lt_irrefl _ (heq ▸ hbelow)
    rw [List.mem_cons, ih hexisting hrest, List.mem_cons (a := x) (b := m), or_assoc,
      List.map_cons, List.mem_cons (a := x.1)]
    refine or_congr_right (or_congr_right (and_congr_right fun hx => ?_))
    simp [hother hx]
  | case5 e existing m sorted hle hge ih =>
    obtain ⟨he, hrest⟩ := List.pairwise_cons.mp hexisting
    obtain ⟨-, hrest'⟩ := List.pairwise_cons.mp hsorted
    have heq : e.1 = m.1 := UInt64.le_antisymm (UInt64.not_lt.mp hge) (UInt64.not_lt.mp hle)
    rw [List.mem_cons, ih hrest hrest', List.mem_cons (a := x) (b := m), or_assoc]
    refine or_congr_right (or_congr_right ?_)
    simp only [List.map_cons, List.mem_cons, not_or]
    constructor
    · rintro ⟨hx, hnew⟩
      have hlater := he x hx
      refine ⟨Or.inr hx, ?_, hnew⟩
      intro hsame
      exact UInt64.lt_irrefl _ (hsame ▸ heq ▸ hlater)
    · rintro ⟨rfl | hx, hnot, hnew⟩
      · exact absurd heq hnot
      · exact ⟨hx, hnew⟩

end

/-! ## The new trees -/

/-- The upper tree a merge builds: the base tree with the pending entries, or the pending entries
alone. -/
def mergedTree (base : UpperTree) (pendingOnly : Bool) (mc : MergeCtx) : UpperTree where
  entries := rebuildIter (if pendingOnly then [] else base.entries)
    (materializeMergedPostings base pendingOnly mc).sorted
  ascending := by
    apply ascending_rebuildIter
    · split_ifs
      · exact List.Pairwise.nil
      · exact base.ascending
    · exact MergeCtx.sorted_ascending _

section

variable {base : UpperTree} {pendingOnly : Bool} {mc : MergeCtx} {h : UInt64}

/-- The sorted table has the materialised postings. -/
theorem mem_sorted_materialize {s : Finset ℕ} :
    (h, s) ∈ (materializeMergedPostings base pendingOnly mc).sorted ↔
      ∃ tids, (h, tids) ∈ mc.entries ∧ (if pendingOnly then tids else base.postings h ∪ tids) = s := by
  simp only [MergeCtx.sorted, List.mem_mergeSort, materializeMergedPostings, List.mem_map, Prod.exists,
    Prod.mk.injEq]
  constructor
  · rintro ⟨h', tids, hmem, rfl, hs⟩
    exact ⟨tids, hmem, hs⟩
  · rintro ⟨tids, hmem, hs⟩
    exact ⟨h, tids, hmem, rfl, hs⟩

/-- The sorted table has the hashes of the table. -/
theorem mem_hashes_sorted_materialize :
    h ∈ (materializeMergedPostings base pendingOnly mc).sorted.map Prod.fst ↔
      h ∈ mc.entries.map Prod.fst := by
  simp only [List.mem_map, Prod.exists, exists_and_right, exists_eq_right, mem_sorted_materialize]
  constructor
  · rintro ⟨s, tids, hmem, -⟩
    exact ⟨tids, hmem⟩
  · rintro ⟨tids, hmem⟩
    exact ⟨_, tids, hmem, rfl⟩

/-- The leaves of the new tree. -/
theorem mem_mergedTree {s : Finset ℕ} :
    (h, s) ∈ (mergedTree base pendingOnly mc).entries ↔
      (∃ tids, (h, tids) ∈ mc.entries ∧
        (if pendingOnly then tids else base.postings h ∪ tids) = s) ∨
      pendingOnly = false ∧ (h, s) ∈ base.entries ∧ h ∉ mc.entries.map Prod.fst := by
  have hold : Ascending (if pendingOnly then [] else base.entries) := by
    split_ifs
    · exact List.Pairwise.nil
    · exact base.ascending
  rw [mergedTree, mem_rebuildIter hold (MergeCtx.sorted_ascending _), mem_sorted_materialize,
    mem_hashes_sorted_materialize]
  cases pendingOnly with
  | true => simp
  | false => simp

/-- A merge into the base tree adds what the table has. -/
theorem mem_postings_mergedTree_base {tid : ℕ} :
    tid ∈ (mergedTree base false mc).postings h ↔ tid ∈ base.postings h ∨ mc.Has h tid := by
  rw [UpperTree.mem_postings]
  simp only [mem_mergedTree, Bool.false_eq_true, if_false, true_and]
  constructor
  · rintro ⟨s, ⟨tids, hmem, rfl⟩ | ⟨hs, -⟩, htid⟩
    · rcases Finset.mem_union.mp htid with hbase | htids
      · exact Or.inl hbase
      · exact Or.inr ⟨tids, hmem, htids⟩
    · exact Or.inl (UpperTree.mem_postings.mpr ⟨s, hs, htid⟩)
  · rintro (hbase | ⟨tids, hmem, htid⟩)
    · by_cases hnew : h ∈ mc.entries.map Prod.fst
      · obtain ⟨⟨h', tids⟩, hmem, rfl⟩ := List.mem_map.mp hnew
        exact ⟨_, Or.inl ⟨tids, hmem, rfl⟩, Finset.mem_union_left _ hbase⟩
      · obtain ⟨s, hs, htid⟩ := UpperTree.mem_postings.mp hbase
        exact ⟨s, Or.inr ⟨hs, hnew⟩, htid⟩
    · exact ⟨_, Or.inl ⟨tids, hmem, rfl⟩, Finset.mem_union_right _ htid⟩

/-- A run has what the table has. -/
theorem mem_postings_mergedTree_run {tid : ℕ} :
    tid ∈ (mergedTree base true mc).postings h ↔ mc.Has h tid := by
  rw [UpperTree.mem_postings]
  simp [mem_mergedTree, MergeCtx.Has]

/-- The hashes of the new tree. -/
theorem mem_hashes_mergedTree :
    h ∈ (mergedTree base pendingOnly mc).entries.map Prod.fst ↔
      h ∈ mc.entries.map Prod.fst ∨ pendingOnly = false ∧ h ∈ base.entries.map Prod.fst := by
  have hmap {l : List (UInt64 × Finset ℕ)} : h ∈ l.map Prod.fst ↔ ∃ s, (h, s) ∈ l := by
    simp
  rw [hmap, hmap (l := base.entries)]
  simp only [mem_mergedTree]
  constructor
  · rintro ⟨s, ⟨tids, hmem, -⟩ | ⟨honly, hs, -⟩⟩
    · exact Or.inl (hmap.mpr ⟨tids, hmem⟩)
    · exact Or.inr ⟨honly, s, hs⟩
  · rintro (hmem | ⟨honly, s, hs⟩)
    · obtain ⟨tids, hmem⟩ := hmap.mp hmem
      exact ⟨_, Or.inl ⟨tids, hmem, rfl⟩⟩
    · by_cases hnew : h ∈ mc.entries.map Prod.fst
      · obtain ⟨tids, hmem⟩ := hmap.mp hnew
        exact ⟨_, Or.inl ⟨tids, hmem, rfl⟩⟩
      · exact ⟨s, Or.inr ⟨honly, hs, hnew⟩⟩

end

end PgTre
