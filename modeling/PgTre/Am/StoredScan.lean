import PgTre.Am.ScanMemory

/-!
# Scans that get their memory

With all the memory it asks for, a scan for a CNF or a DNF query ends with the candidates it has in the
index as it is read. A posting that `pg_tre_posting_materialize` returns as `NULL` is a posting the scan
does not know of, and its TIDs are candidates only if the scan meets them elsewhere.

A DNF query asks the base tree alone, so that it does not meet in the runs either what a flush has moved
there.
-/

namespace PgTre

open Allocating

section

variable {idx : StoredIndex} {q : TrigramQuery}

/-- The scan ends as on the index that is read. -/
theorem scanOutcome_met (crackOnRead : Bool) (hmode : q.mode ≠ .pieces) :
    ∃ r, scanOutcome (fun _ => false) crackOnRead idx q = .ok r ∧
      treComputeCandidateSm idx.asRead q = .ok r := by
  have hensures := @ensures_computeCandidates (fun _ => False) crackOnRead idx q hmode
  have hrun := @Ensures.run_met _ true _ _ (fun _ => false) (fun _ => rfl) 0 hensures
  change Settles _ _ (scanOutcome (fun _ => false) crackOnRead idx q) at hrun
  cases houtcome : scanOutcome (fun _ => false) crackOnRead idx q with
  | error e =>
    rw [houtcome] at hrun
    exact hrun.elim
  | ok r =>
    rw [houtcome] at hrun
    exact ⟨r, rfl, hrun⟩

/-- It finds the exact candidates that it reads. -/
theorem scanOutcome_readExact (crackOnRead : Bool) (hmode : q.mode ≠ .pieces)
    (htrue : q.alwaysTrue = false) (hproper : q.Proper) :
    ∃ sm, scanOutcome (fun _ => false) crackOnRead idx q = .ok (sm, false) ∧
      ∀ tid, tid ∈ smMembers sm ↔ idx.ReadExact q tid := by
  obtain ⟨r, houtcome, hr⟩ := scanOutcome_met crackOnRead hmode
  rcases treComputeCandidateSm_asRead htrue hproper with ⟨sm, hok, hmem⟩ | ⟨hpieces, -⟩
  · rw [hok] at hr
    obtain rfl := Except.ok.inj hr
    exact ⟨sm, houtcome, hmem⟩
  · exact absurd hpieces hmode

end

/-! ## CNF queries -/

/-- With either setting of the crack cache, the candidates of a CNF query are exactly the TIDs that
have, for every conjunct, one of its alternatives in the base tree, in a live run or in the pending
list, if and only if each of these TIDs has for every conjunct one that is pending or in a posting
that is read. -/
theorem scanOutcome_cnf_exact_iff (crackOnRead : Bool) (idx : StoredIndex) (q : TrigramQuery)
    (hcover : idx.RangesCover) (hmode : q.mode = .cnf) (htrue : q.alwaysTrue = false)
    (hproper : q.Proper) :
    (∃ sm, scanOutcome (fun _ => false) crackOnRead idx q = .ok (sm, false) ∧
        ∀ tid, tid ∈ smMembers sm ↔
          ∀ conj ∈ q.conjuncts, ∃ a ∈ conj.alts, idx.Finds a.trigramHash tid) ↔
      ∀ tid, (∀ conj ∈ q.conjuncts, ∃ a ∈ conj.alts, idx.Finds a.trigramHash tid) →
        ∀ conj ∈ q.conjuncts, ∃ a ∈ conj.alts, idx.Pends a.trigramHash tid ∨
          ∃ run ∈ idx.iterate, tid ∈ (idx.treeAt run.rootUpper).postings a.trigramHash ∧
            ¬EmptyPair (idx.stored run.rootUpper a.trigramHash).leaves := by
  -- A run that has a posting for the trigram is not skipped.
  have hreads : ∀ h tid, idx.Reads h tid ↔ idx.Pends h tid ∨ ∃ run ∈ idx.iterate,
      tid ∈ (idx.treeAt run.rootUpper).postings h ∧ ¬EmptyPair (idx.stored run.rootUpper h).leaves := by
    intro h tid
    rw [or_comm]
    refine or_congr_left (exists_congr fun run => and_congr_right fun hrun => ?_)
    refine and_iff_right_of_imp fun hread hskip => ?_
    have hmem := hread.1
    rw [UpperTree.postings, lookup_eq_none_of_skipped hcover hrun hskip] at hmem
    exact Finset.notMem_empty tid hmem
  have hread : ∀ tid, idx.ReadExact q tid ↔ ∀ conj ∈ q.conjuncts, ∃ a ∈ conj.alts,
      idx.Pends a.trigramHash tid ∨ ∃ run ∈ idx.iterate,
        tid ∈ (idx.treeAt run.rootUpper).postings a.trigramHash ∧
          ¬EmptyPair (idx.stored run.rootUpper a.trigramHash).leaves := by
    intro tid
    simp only [StoredIndex.ReadExact, hmode, hreads]
  have hexact : ∀ tid, idx.Exact q tid ↔
      ∀ conj ∈ q.conjuncts, ∃ a ∈ conj.alts, idx.Finds a.trigramHash tid := by
    intro tid
    simp only [ScanIndex.Exact, hmode]
  obtain ⟨sm, houtcome, hmem⟩ :=
    @scanOutcome_readExact idx q crackOnRead (by rw [hmode]; simp) htrue hproper
  constructor
  · rintro ⟨sm', houtcome', hmem'⟩ tid hfinds
    rw [houtcome] at houtcome'
    obtain rfl := congrArg Prod.fst (Except.ok.inj houtcome')
    exact (hread tid).mp ((hmem tid).mp ((hmem' tid).mpr hfinds))
  · intro hreadable
    refine ⟨sm, houtcome, fun tid => ?_⟩
    rw [hmem, ← hexact]
    exact ⟨StoredIndex.ReadExact.exact, fun h => (hread tid).mpr (hreadable tid ((hexact tid).mp h))⟩

/-- The query `body ~ 'abc'`: one conjunct with one trigram. -/
def abcQuery : TrigramQuery where
  conjuncts := [⟨[⟨hashTrigramCp (97, 98, 99), 0, int32Max⟩]⟩]
  minMatchLen := 3
  globalMaxCost := 0
  alwaysTrue := false
  mode := .cnf
  surfRange := none

/-- The query for `abc` is a proper one. -/
theorem abcQuery_proper : abcQuery.Proper := ⟨fun _ => by simp [abcQuery], fun hmode => by cases hmode⟩

/-- A tree with the trigram `abc` of the row at block 0, offset 1. -/
def abcTree : UpperTree := ⟨[(hashTrigramCp (97, 98, 99), {1})], by simp⟩

/-- An index with one live run, which has the trigram `abc`, over the given base tree. -/
def flushedIndex (base : UpperTree) : ScanIndex where
  rootUpper := some 1
  rootRange := none
  nTuplesIndexed := 0
  nTrigrams := 0
  nextRunId := 2
  maxLevels := 7
  nRuns := 2
  catalog := [⟨[{
      runId := 1
      level := 1
      flags := runLive
      rootUpper := some 2
      rootRange := none
      nTuples := 1
      nTrigrams := 1
      minTrigramHash := hashTrigramCp (97, 98, 99)
      maxTrigramHash := hashTrigramCp (97, 98, 99) }], by simp [runCatalogCap], by simp⟩]
  upperTrees := fun b => if b = 1 then base else abcTree
  nBlocks := 3
  freeLog := []
  levels := default_levels
  baseAllocated := by simp
  runsAllocated := by simp [catalogRuns]
  tidPacking := .dense
  pending := []
  pendingPacked := noEntries_packed .dense

/-- A query of one tile with the trigram `abc`, as the tiling of an approximate pattern
writes it. -/
def abcTile : TrigramQuery where
  conjuncts := [⟨[⟨hashTrigramCp (97, 98, 99), 0, int32Max⟩]⟩]
  minMatchLen := 3
  globalMaxCost := 1
  alwaysTrue := false
  mode := .dnf
  surfRange := none

/-- The same with the leaves that its postings, all of the one TID, are stored in. -/
def leafIndex (base : UpperTree) (hbase : ∀ e ∈ base.entries, e.2 = {1}) (posting : StoredPosting)
    (hposting : posting.tids = {1}) : StoredIndex where
  toScanIndex := flushedIndex base
  stored _ _ := posting
  stored_lookup := by
    intro root h s hlook tid
    have hmem := UpperTree.lookup_eq_some.mp hlook
    have hsingle : s = {1} := by
      cases root with
      | none => cases hmem
      | some b =>
        change (h, s) ∈ (if b = 1 then base else abcTree).entries at hmem
        split_ifs at hmem
        · exact hbase _ hmem
        · exact (Prod.mk.inj (List.mem_singleton.mp hmem)).2
    rw [hsingle, ← StoredPosting.mem_tids, hposting]

/-- VACUUM has emptied the head of the chain, which it does not unlink. -/
def emptyHead : StoredPosting := ⟨7, [∅, {1}], by simp⟩

/-- A crash has left the leaf after the head empty, but in the chain. -/
def crashedChain : StoredPosting := ⟨7, [∅, ∅, {1}], by simp⟩

/-- The chain with the empty head holds TID 1. -/
theorem tids_emptyHead : emptyHead.tids = {1} := by decide

/-- The chain left by the crash holds TID 1. -/
theorem tids_crashedChain : crashedChain.tids = {1} := by decide

/-- The run declares the range of its one trigram. -/
theorem rangesCover_flushed (base : UpperTree) : (flushedIndex base).RangesCover := by
  intro run hrun h hh
  have hmem := (RunIndex.mem_liveRuns.mp hrun).1
  simp only [flushedIndex, catalogRuns, List.flatMap_cons, List.flatMap_nil, List.append_nil,
    List.mem_singleton] at hmem
  rw [hmem] at hh ⊢
  obtain rfl := List.mem_singleton.mp hh
  exact ⟨UInt64.le_refl _, UInt64.le_refl _⟩

/-- After a flush and a VACUUM the row of the run is a candidate. -/
theorem scanOutcome_cnf_exact_emptyHead :
    ∃ sm, scanOutcome (fun _ => false) true (leafIndex .empty (by simp [UpperTree.empty]) emptyHead
        tids_emptyHead) abcQuery = .ok (sm, false) ∧
      ∀ tid, tid ∈ smMembers sm ↔ ∀ conj ∈ abcQuery.conjuncts, ∃ a ∈ conj.alts,
        (flushedIndex .empty).Finds a.trigramHash tid := by
  refine (scanOutcome_cnf_exact_iff true (leafIndex .empty (by simp [UpperTree.empty]) emptyHead
    tids_emptyHead) abcQuery (rangesCover_flushed .empty) rfl rfl abcQuery_proper).mpr ?_
  intro tid hfinds conj hconj
  obtain ⟨a, ha, ⟨run, hrun, hmem⟩ | hpends⟩ := hfinds conj hconj
  · exact ⟨a, ha, Or.inr ⟨run, hrun, hmem, by simp [leafIndex, emptyHead, EmptyPair]⟩⟩
  · exact ⟨a, ha, Or.inl hpends⟩

/-- After a flush and a crash in the middle of a VACUUM it is none, although the run has the trigram. -/
theorem crashedChain_misses_candidate :
    (flushedIndex .empty).RangesCover ∧ abcQuery.mode = .cnf ∧ abcQuery.Proper ∧
      (∀ conj ∈ abcQuery.conjuncts, ∃ a ∈ conj.alts, (flushedIndex .empty).Finds a.trigramHash 1) ∧
      ∃ sm, scanOutcome (fun _ => false) false
        (leafIndex .empty (by simp [UpperTree.empty]) crashedChain
          tids_crashedChain) abcQuery = .ok (sm, false) ∧ 1 ∉ smMembers sm := by
  have hholds : (flushedIndex .empty).Holds (hashTrigramCp (97, 98, 99)) 1 :=
    ⟨_, List.mem_cons_of_mem _ (List.mem_singleton.mpr rfl), by decide +kernel⟩
  refine ⟨rangesCover_flushed .empty, rfl, abcQuery_proper, ?_, ?_⟩
  · intro conj hconj
    obtain rfl := List.mem_singleton.mp hconj
    exact ⟨_, List.mem_singleton_self _, Or.inl hholds⟩
  · obtain ⟨sm, houtcome, hmem⟩ := @scanOutcome_readExact (leafIndex .empty (by simp [UpperTree.empty])
      crashedChain tids_crashedChain) abcQuery false (by simp [abcQuery]) rfl abcQuery_proper
    refine ⟨sm, houtcome, fun h => ?_⟩
    obtain ⟨a, -, ⟨run, -, -, -, hno⟩ | ⟨e, he, -⟩⟩ := (hmem 1).mp h _ List.mem_cons_self
    · exact hno (Or.inl ⟨rfl, rfl⟩)
    · cases he

/-! ## DNF queries -/

/-- The candidates of a DNF query include every TID that a listed trigram has in the base tree, in a
live run or in the pending list, exactly when the query restricts nothing, or every TID that the
base tree or a live run has for a listed trigram is also pending under one, or in a posting of the
base tree that is read. -/
theorem scanOutcome_dnf_complete_iff (crackOnRead : Bool) (idx : StoredIndex) (q : TrigramQuery)
    (hmode : q.mode = .dnf) :
    (∃ sm always, scanOutcome (fun _ => false) crackOnRead idx q = .ok (sm, always) ∧
        ∀ h tid, q.Lists h → idx.Holds h tid ∨ idx.Pends h tid →
          always = true ∨ tid ∈ smMembers sm) ↔
      q.alwaysTrue = true ∨ ∀ h tid, q.Lists h → idx.Holds h tid → ∃ h', q.Lists h' ∧
        (tid ∈ (idx.treeAt idx.rootUpper).postings h' ∧
          ¬EmptyPair (idx.stored idx.rootUpper h').leaves ∨ idx.Pends h' tid) := by
  cases htrue : q.alwaysTrue with
  | true =>
    obtain ⟨r, houtcome, hr⟩ := @scanOutcome_met idx q crackOnRead (by rw [hmode]; simp)
    rw [treComputeCandidateSm, if_pos htrue] at hr
    rw [← Except.ok.inj hr] at houtcome
    exact ⟨fun _ => Or.inl rfl, fun _ => ⟨none, true, houtcome, fun _ _ _ _ => Or.inl rfl⟩⟩
  | false =>
    have hproper : q.Proper := by
      constructor
      · intro hcnf
        cases hmode.symm.trans hcnf
      · intro hpieces
        cases hmode.symm.trans hpieces
    obtain ⟨sm, houtcome, hmem⟩ :=
      @scanOutcome_readExact idx q crackOnRead (by rw [hmode]; simp) htrue hproper
    have hread : ∀ tid, tid ∈ smMembers sm ↔ ∃ h, q.Lists h ∧
        (tid ∈ (idx.treeAt idx.rootUpper).postings h ∧
          ¬EmptyPair (idx.stored idx.rootUpper h).leaves ∨ idx.Pends h tid) := by
      intro tid
      rw [hmem]
      simp only [StoredIndex.ReadExact, hmode]
      rfl
    constructor
    · rintro ⟨sm', always, houtcome', hcomplete⟩
      rw [houtcome, Except.ok.injEq, Prod.mk.injEq] at houtcome'
      obtain ⟨rfl, rfl⟩ := houtcome'
      refine Or.inr fun h tid hlists hholds => (hread tid).mp ?_
      exact (hcomplete h tid hlists (Or.inl hholds)).resolve_left Bool.false_ne_true
    · rintro (hflag | hcovered)
      · cases hflag
      · refine ⟨sm, false, houtcome, fun h tid hlists hindexed => Or.inr ((hread tid).mpr ?_)⟩
        rcases hindexed with hholds | hpends
        · exact hcovered h tid hlists hholds
        · exact ⟨h, hlists, Or.inr hpends⟩

/-- The tree's only posting holds TID 1. -/
theorem abcTree_single : ∀ e ∈ abcTree.entries, e.2 = {1} := by
  intro e he
  obtain rfl := List.mem_singleton.mp he
  rfl

/-- A row that is still in the base tree is a candidate. -/
theorem scanOutcome_dnf_complete_abcTile :
    ∃ sm always, scanOutcome (fun _ => false) false (leafIndex abcTree abcTree_single emptyHead
        tids_emptyHead) abcTile = .ok (sm, always) ∧
      ∀ h tid, abcTile.Lists h → (flushedIndex abcTree).Holds h tid ∨
        (flushedIndex abcTree).Pends h tid → always = true ∨ tid ∈ smMembers sm := by
  refine (scanOutcome_dnf_complete_iff false (leafIndex abcTree abcTree_single emptyHead
    tids_emptyHead) abcTile rfl).mpr (Or.inr fun h tid hlists hholds => ⟨h, hlists, Or.inl ⟨?_, ?_⟩⟩)
  · rcases RunIndex.holds_iff.mp hholds with hbase | ⟨run, hrun, htid⟩
    · exact hbase
    · have hmem := (RunIndex.mem_liveRuns.mp hrun).1
      simp only [leafIndex, flushedIndex, catalogRuns, List.flatMap_cons, List.flatMap_nil,
        List.append_nil, List.mem_singleton] at hmem
      rw [hmem] at htid
      exact htid
  · simp [leafIndex, emptyHead, EmptyPair]

/-- A row that a flush has moved into a run is none, although the run has the trigram the query
lists. -/
theorem flushedIndex_misses_candidate :
    abcTile.mode = .dnf ∧ abcTile.Lists (hashTrigramCp (97, 98, 99)) ∧
      (flushedIndex .empty).Holds (hashTrigramCp (97, 98, 99)) 1 ∧
      ∃ sm, scanOutcome (fun _ => false) false (leafIndex .empty (by simp [UpperTree.empty]) emptyHead
          tids_emptyHead) abcTile = .ok (sm, false) ∧ 1 ∉ smMembers sm := by
  have hlists : abcTile.Lists (hashTrigramCp (97, 98, 99)) :=
    ⟨_, List.mem_singleton.mpr rfl, _, List.mem_singleton.mpr rfl, rfl⟩
  have hholds : (flushedIndex .empty).Holds (hashTrigramCp (97, 98, 99)) 1 :=
    ⟨_, List.mem_cons_of_mem _ (List.mem_singleton.mpr rfl), by decide +kernel⟩
  exact ⟨rfl, hlists, hholds, none, rfl, by simp⟩

end PgTre
