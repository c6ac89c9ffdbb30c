import PgTre.Pages.PostingRead
import PgTre.Am.CandidateExact

/-!
# Postings as they are stored

`pg_tre_posting_materialize` reads a posting from the leaves of its chain. Where its counter unites two
empty leaves, it returns `NULL`, and its callers take that for a posting that is not there. VACUUM
empties a leaf and unlinks it in two steps, so that a crash between them leaves such a chain.

`asRead` is the index as the readers see it, without these postings. The candidates of a query are
those it has there.
-/

namespace PgTre

/-! ## Stored postings -/

/-- How a posting is stored: its root block and the maps of its leaves. An inline or coalesced
posting is one map, and an entry with neither root nor inline bytes has none. -/
structure StoredPosting where
  root : BlockNumber
  leaves : List (Finset ℕ)
  /-- A chain has no more leaves than there are blocks. -/
  few : leaves.length < 2 ^ 32

/-- The TIDs of a posting. -/
def StoredPosting.tids (posting : StoredPosting) : Finset ℕ := posting.leaves.foldr (· ∪ ·) ∅

/-- A stored posting holds what its leaves hold. -/
theorem StoredPosting.mem_tids {posting : StoredPosting} {tid : ℕ} :
    tid ∈ posting.tids ↔ ∃ leaf ∈ posting.leaves, tid ∈ leaf := by
  unfold tids
  generalize posting.leaves = leaves
  induction leaves with
  | nil => simp
  | cons leaf leaves ih => simp [ih]

/-- What `pg_tre_posting_materialize` makes of the posting when it gets its memory. -/
def StoredPosting.read (posting : StoredPosting) : Sm :=
  if EmptyPair posting.leaves then none else some posting.tids

/-- The merge of the leaves yields it. -/
theorem mergeReturn_read {posting : StoredPosting} (hne : posting.leaves ≠ []) :
    mergeReturn (carryLeaves posting.root emptySlots posting.leaves) = .ok posting.read := by
  have hlen : posting.leaves.length < 2 ^ 64 := posting.few.trans (by decide)
  rw [StoredPosting.read]
  split_ifs with hpair
  · rcases carryLeaves_emptySlots posting.root hlen with ⟨-, hnull⟩ | ⟨hno, -⟩
    · rw [hnull]
      rfl
    · exact absurd hpair hno
  obtain ⟨sm, hmerge, hmem⟩ := mergeReturn_carryLeaves posting.root hlen
  have hiff : ∀ tid, tid ∈ smMembers sm ↔ tid ∈ posting.tids := fun tid => by
    rw [hmem, StoredPosting.mem_tids]
    exact and_iff_right hpair
  by_cases hempty : posting.tids = ∅
  · -- Of an empty posting there is one leaf.
    have hall : ∀ leaf ∈ posting.leaves, leaf = ∅ := by
      intro leaf hleaf
      refine Finset.eq_empty_of_forall_notMem fun tid htid => ?_
      have hmem := StoredPosting.mem_tids.mpr ⟨leaf, hleaf, htid⟩
      rw [hempty] at hmem
      exact Finset.notMem_empty _ hmem
    have hone : posting.leaves = [∅] := by
      cases hleaves : posting.leaves with
      | nil => exact absurd hleaves hne
      | cons a rest =>
        rw [hleaves] at hall hpair
        cases rest with
        | nil => rw [hall a List.mem_cons_self]
        | cons b rest => exact absurd (Or.inl ⟨hall a (by simp), hall b (by simp)⟩) hpair
    rw [hone, hempty]
    rfl
  · obtain ⟨tid, htid⟩ := Finset.nonempty_iff_ne_empty.mpr hempty
    rw [hmerge]
    cases sm with
    | none => exact absurd ((hiff tid).mpr htid) (by simp)
    | some tids => exact congrArg (Except.ok ∘ some) (Finset.ext fun tid => by simpa using hiff tid)

/-- An index with the leaves its postings are stored in. -/
structure StoredIndex extends ScanIndex where
  /-- The posting of a hash in the tree with the given root. -/
  stored : Option BlockNumber → UInt64 → StoredPosting
  /-- The leaves together have the TIDs of the posting. -/
  stored_lookup : ∀ root h posting, (toScanIndex.treeAt root).lookup h = some posting →
    ∀ tid, tid ∈ posting ↔ ∃ leaf ∈ (stored root h).leaves, tid ∈ leaf

/-- A tree without the postings of some hashes. -/
def UpperTree.without (tree : UpperTree) (unread : UInt64 → Bool) : UpperTree where
  entries := tree.entries.filter fun e => !unread e.1
  ascending := tree.ascending.sublist List.filter_sublist

/-- A tree without some hashes looks the others up as before. -/
theorem UpperTree.lookup_without (tree : UpperTree) (unread : UInt64 → Bool) (h : UInt64) :
    (tree.without unread).lookup h = if unread h then none else tree.lookup h := by
  ext s
  rw [UpperTree.lookup_eq_some]
  change (h, s) ∈ tree.entries.filter (fun e => !unread e.1) ↔ _
  rw [List.mem_filter, ← UpperTree.lookup_eq_some]
  cases unread h with
  | true => simp
  | false => simp

/-- The index without the postings that are read as `NULL`. -/
def StoredIndex.asRead (idx : StoredIndex) : ScanIndex :=
  { idx.toScanIndex with
    upperTrees := fun b => (idx.upperTrees b).without fun h =>
      decide (EmptyPair (idx.stored (some b) h).leaves) }

section

variable {idx : StoredIndex} {root : Option BlockNumber} {h : UInt64} {tid : ℕ}

/-- A tree as it is read has no posting where the chain unites two empty leaves. -/
theorem lookup_asRead : (idx.asRead.treeAt root).lookup h =
    if EmptyPair (idx.stored root h).leaves then none else (idx.treeAt root).lookup h := by
  cases root with
  | none =>
    have hnone : UpperTree.empty.lookup h = none := rfl
    change UpperTree.empty.lookup h = if _ then none else UpperTree.empty.lookup h
    rw [hnone, ite_self]
  | some b =>
    have htree : idx.asRead.treeAt (some b) = (idx.upperTrees b).without fun h =>
        decide (EmptyPair (idx.stored (some b) h).leaves) := rfl
    rw [htree, UpperTree.lookup_without]
    simp only [decide_eq_true_eq]
    rfl

/-- The TIDs of a posting are those of its leaves. -/
theorem tids_stored {posting : Finset ℕ} (hlook : (idx.treeAt root).lookup h = some posting) :
    (idx.stored root h).tids = posting := by
  ext tid
  rw [StoredPosting.mem_tids, idx.stored_lookup root h posting hlook tid]

/-- A lookup in the index as it is read is one in the index, with the posting read. -/
theorem upperLookupRoot_asRead : upperLookupRoot idx.asRead root h =
    ((idx.treeAt root).lookup h).bind fun _ => (idx.stored root h).read := by
  rw [upperLookupRoot, lookup_asRead]
  cases hlook : (idx.treeAt root).lookup h with
  | none =>
    rw [ite_self]
    rfl
  | some posting =>
    rw [Option.bind_some, StoredPosting.read, tids_stored hlook]
    split_ifs <;> rfl

/-- The TID is in the posting of a tree, and the posting is not read as `NULL`. -/
def StoredIndex.ReadsAt (idx : StoredIndex) (root : Option BlockNumber) (h : UInt64) (tid : ℕ) : Prop :=
  tid ∈ (idx.treeAt root).postings h ∧ ¬EmptyPair (idx.stored root h).leaves

/-- The TID is in such a posting of a run whose range has the hash, or it is pending. -/
def StoredIndex.Reads (idx : StoredIndex) (h : UInt64) (tid : ℕ) : Prop :=
  (∃ run ∈ idx.iterate, ¬(h < run.minTrigramHash ∨ run.maxTrigramHash < h) ∧
    idx.ReadsAt run.rootUpper h tid) ∨ idx.Pends h tid

/-- The postings of a tree as it is read are those that are read at its root. -/
theorem mem_postings_asRead :
    tid ∈ (idx.asRead.treeAt root).postings h ↔ idx.ReadsAt root h tid := by
  rw [UpperTree.postings, lookup_asRead, StoredIndex.ReadsAt, UpperTree.postings]
  split_ifs with hpair
  · simp [hpair]
  · simp [hpair]

/-- What the index as it is read has, the index has. -/
theorem finds_of_asRead (hfinds : idx.asRead.Finds h tid) : idx.Finds h tid := by
  rcases hfinds with ⟨run, hrun, hmem⟩ | hpends
  · exact Or.inl ⟨run, hrun, (mem_postings_asRead.mp hmem).1⟩
  · exact Or.inr hpends

/-- What is read is found. -/
theorem StoredIndex.Reads.finds (hreads : idx.Reads h tid) : idx.Finds h tid := by
  rcases hreads with ⟨run, hrun, -, hmem⟩ | hpends
  · exact Or.inl ⟨run, hrun, hmem.1⟩
  · exact Or.inr hpends

/-- What is found is read, if the ranges of the runs cover their trees and no posting of the hash is
read as `NULL`. -/
theorem reads_of_finds (hcover : idx.RangesCover)
    (hpair : ∀ run ∈ idx.iterate, ¬EmptyPair (idx.stored run.rootUpper h).leaves)
    (hfinds : idx.Finds h tid) : idx.Reads h tid := by
  rcases hfinds with ⟨run, hrun, hmem⟩ | hpends
  · refine Or.inl ⟨run, hrun, fun hskip => ?_, hmem, hpair run hrun⟩
    rw [UpperTree.postings, lookup_eq_none_of_skipped hcover hrun hskip] at hmem
    exact Finset.notMem_empty tid hmem
  · exact Or.inr hpends

/-- The ranges of the runs cover their trees as they are read. -/
theorem rangesCover_asRead (hcover : idx.RangesCover) : idx.asRead.RangesCover := by
  intro run hrun h hh
  refine hcover run hrun h ?_
  obtain ⟨e, he, rfl⟩ := List.mem_map.mp hh
  cases hroot : run.rootUpper with
  | none =>
    rw [hroot] at he
    exact absurd he List.not_mem_nil
  | some b =>
    rw [hroot] at he
    exact List.mem_map_of_mem (List.mem_filter.mp he).1

end

/-! ## Exact candidates -/

/-- The exact candidates of a query. -/
def ScanIndex.Exact (idx : ScanIndex) (q : TrigramQuery) (tid : ℕ) : Prop :=
  match q.mode with
  | .cnf => ∀ conj ∈ q.conjuncts, ∃ a ∈ conj.alts, idx.Finds a.trigramHash tid
  | .pieces => ∃ piece ∈ q.conjuncts, ∀ a ∈ piece.alts, idx.Finds a.trigramHash tid
  | .dnf => ∃ h, q.Lists h ∧ idx.Finds h tid

/-- Those that a scan reads. A DNF query asks the base tree alone. -/
def StoredIndex.ReadExact (idx : StoredIndex) (q : TrigramQuery) (tid : ℕ) : Prop :=
  match q.mode with
  | .cnf => ∀ conj ∈ q.conjuncts, ∃ a ∈ conj.alts, idx.Reads a.trigramHash tid
  | .pieces => ∃ piece ∈ q.conjuncts, ∀ a ∈ piece.alts, idx.Reads a.trigramHash tid
  | .dnf => ∃ h, q.Lists h ∧ (idx.ReadsAt idx.rootUpper h tid ∨ idx.Pends h tid)

section

variable {idx : StoredIndex} {q : TrigramQuery} {h : UInt64} {tid : ℕ}

/-- A TID that is read exactly is held exactly. -/
theorem StoredIndex.ReadExact.exact (hreads : idx.ReadExact q tid) : idx.Exact q tid := by
  unfold ReadExact at hreads
  unfold ScanIndex.Exact
  cases hmode : q.mode with
  | cnf =>
    simp only [hmode] at hreads ⊢
    intro conj hconj
    obtain ⟨a, ha, hread⟩ := hreads conj hconj
    exact ⟨a, ha, hread.finds⟩
  | pieces =>
    simp only [hmode] at hreads ⊢
    obtain ⟨piece, hpiece, hall⟩ := hreads
    exact ⟨piece, hpiece, fun a ha => (hall a ha).finds⟩
  | dnf =>
    simp only [hmode] at hreads ⊢
    obtain ⟨h, hlists, hbase | hpends⟩ := hreads
    · exact ⟨h, hlists, Or.inl (RunIndex.holds_iff.mpr (Or.inl hbase.1))⟩
    · exact ⟨h, hlists, Or.inr hpends⟩

/-- A CNF or PIECES query reads its exact candidates, if it reads what it finds for its trigrams. -/
theorem readExact_of_exact (hmode : q.mode ≠ .dnf)
    (hreads : ∀ h, q.Lists h → idx.Finds h tid → idx.Reads h tid) (hexact : idx.Exact q tid) :
    idx.ReadExact q tid := by
  unfold ScanIndex.Exact at hexact
  unfold StoredIndex.ReadExact
  cases hq : q.mode with
  | cnf =>
    simp only [hq] at hexact ⊢
    intro conj hconj
    obtain ⟨a, ha, hfinds⟩ := hexact conj hconj
    exact ⟨a, ha, hreads _ ⟨conj, hconj, a, ha, rfl⟩ hfinds⟩
  | pieces =>
    simp only [hq] at hexact ⊢
    obtain ⟨piece, hpiece, hall⟩ := hexact
    exact ⟨piece, hpiece, fun a ha => hreads _ ⟨piece, hpiece, a, ha, rfl⟩ (hall a ha)⟩
  | dnf => exact absurd hq hmode

/-- A trigram resolves to what is read for it. -/
theorem mem_resolveTrigramRuns_asRead : tid ∈ smMembers (resolveTrigramRuns idx.asRead h) ↔
    ∃ run ∈ idx.iterate, ¬(h < run.minTrigramHash ∨ run.maxTrigramHash < h) ∧
      idx.ReadsAt run.rootUpper h tid := by
  rw [resolveTrigramRuns, mem_foldl_smAccumulate, smMembers_none]
  refine (or_iff_right (Finset.notMem_empty tid)).trans
    (exists_congr fun run => and_congr_right fun _ => ?_)
  split_ifs with hskip
  · simp [hskip]
  · rw [smMembers_upperLookupRoot, mem_postings_asRead]
    exact (and_iff_right hskip).symm

/-- So does a conjunct. -/
theorem mem_resolveConjunct_asRead {ov : List PendingOverlayEntry} {conj : TrigramConjunct}
    (hov : ∀ a ∈ conj.alts, ∀ tid,
      tid ∈ smMembers (overlayLookup ov a.trigramHash) ↔ idx.Pends a.trigramHash tid) :
    tid ∈ smMembers (resolveConjunctWithOverlay idx.asRead ov conj) ↔
      ∃ a ∈ conj.alts, idx.Reads a.trigramHash tid := by
  rw [resolveConjunctWithOverlay, mem_foldl_smAccumulate, smMembers_none]
  refine (or_iff_right (Finset.notMem_empty tid)).trans
    (exists_congr fun a => and_congr_right fun ha => ?_)
  rw [smMembers_smAccumulate, Finset.mem_union, mem_resolveTrigramRuns_asRead, hov a ha]
  rfl

/-- The candidates on the index as it is read are those that a scan reads. -/
theorem treComputeCandidateSm_asRead (htrue : q.alwaysTrue = false) (hproper : q.Proper) :
    (∃ sm, treComputeCandidateSm idx.asRead q = .ok (sm, false) ∧
      ∀ tid, tid ∈ smMembers sm ↔ idx.ReadExact q tid) ∨
    q.mode = .pieces ∧ ∃ e, treComputeCandidateSm idx.asRead q = .error e := by
  obtain ⟨ov, hok, hov⟩ := overlayBuild_spec idx.asRead q
  have hconjunct : ∀ conj ∈ q.conjuncts, ∀ tid,
      tid ∈ smMembers (resolveConjunctWithOverlay idx.asRead ov conj) ↔
        ∃ a ∈ conj.alts, idx.Reads a.trigramHash tid := fun conj hconj tid =>
    mem_resolveConjunct_asRead fun a ha => hov a.trigramHash ⟨conj, hconj, a, ha, rfl⟩
  unfold treComputeCandidateSm StoredIndex.ReadExact
  simp only [htrue, hok, Bool.false_eq_true, if_false]
  cases hmode : q.mode with
  | cnf =>
    refine Or.inl ⟨_, rfl, fun tid => ?_⟩
    rw [mem_smConjoin (by simpa using hproper.conjuncts hmode), List.forall_mem_map]
    exact forall_congr' fun conj => forall_congr' fun hconj => hconjunct conj hconj tid
  | pieces =>
    dsimp only
    cases hunite : smUnitePieces (q.conjuncts.map fun piece =>
        smConjoin (piece.alts.map fun a => resolveConjunctWithOverlay idx.asRead ov ⟨[a]⟩)
          none) none with
    | error e => exact Or.inr ⟨rfl, e, rfl⟩
    | ok sm =>
      refine Or.inl ⟨sm, rfl, fun tid => ?_⟩
      rw [mem_smUnitePieces hunite]
      simp only [smMembers_none, Finset.notMem_empty, false_or, List.mem_map, exists_exists_and_eq_and]
      refine exists_congr fun piece => and_congr_right fun hpiece => ?_
      rw [mem_smConjoin (by simpa using hproper.pieces hmode piece hpiece), List.forall_mem_map]
      refine forall_congr' fun a => forall_congr' fun ha => ?_
      rw [mem_resolveConjunct_asRead fun b hb => by
        obtain rfl := List.mem_singleton.mp hb
        exact hov b.trigramHash ⟨piece, hpiece, b, ha, rfl⟩]
      simp
  | dnf =>
    refine Or.inl ⟨_, rfl, fun tid => ?_⟩
    rw [mem_dnfArm]
    simp only [mem_postings_asRead]
    constructor
    · rintro ⟨tile, htile, a, ha, hmem⟩
      have hlists : q.Lists a.trigramHash := ⟨tile, htile, a, ha, rfl⟩
      rw [hov _ hlists] at hmem
      exact ⟨a.trigramHash, hlists, hmem⟩
    · rintro ⟨h, hlists, hmem⟩
      have hmem' := hmem.imp_right (hov h hlists tid).mpr
      obtain ⟨tile, htile, a, ha, rfl⟩ := hlists
      exact ⟨tile, htile, a, ha, hmem'⟩

end

/-! ## Indexes without such chains -/

/-- An index that keeps every posting in one map. -/
def ScanIndex.inOneMap (idx : ScanIndex) : StoredIndex where
  toScanIndex := idx
  stored := fun root h => ⟨0, [(idx.treeAt root).postings h], by simp⟩
  stored_lookup := by
    intro root h posting hlook tid
    rw [UpperTree.postings, hlook]
    simp

end PgTre
