import PgTre.Am.CandidateSet
import PgTre.Am.Heap
import Mathlib.Data.Finset.Sort

/-!
# Building the list of an ordered scan

`knn_build` of `src/am/amscan.c` computes, before the first row is returned, the entries of an
`ORDER BY <@>` scan. With candidates from the index it fetches each of their TIDs. Without a
filter it scans the heap and translates a heap-only version to the root of its HOT chain. The
executor reaches a row only through the root. A candidate is the root, but the tuple found there
is the visible version only as long as no HOT update has moved on.
-/

namespace PgTre

/-- What an index is built on: a column of the table or an expression over its columns. -/
inductive IndexColumn
  | column (attno : ℕ) (hpos : 0 < attno)
  | expression (value : List (Option Text) → Option Text)

/-- `resolve_body_attno`: the column's number, and 0 for an expression. -/
def IndexColumn.attno : IndexColumn → ℕ
  | .column attno _ => attno
  | .expression _ => 0

/-- The indexed value of a row. -/
def IndexColumn.value : IndexColumn → HeapTuple → Option Text
  | .column attno _, t => (t.attrs[attno - 1]?).join
  | .expression value, t => value t.attrs

/-- What `knn_build` reads of a scan: the index, the heap under the snapshot, and the candidates
of `tre_compute_candidate_sm`. -/
structure KnnScan where
  tidPacking : TidPacking
  column : IndexColumn
  view : HeapView
  candidates : Sm
  /-- The index stores packed TIDs. -/
  candidatesPacked : ∀ packed ∈ smMembers candidates, Packed tidPacking packed
  /-- It stores the TIDs of chain roots, never that of a heap-only tuple. -/
  candidatesRoots : ∀ packed ∈ smMembers candidates, ∀ t,
    view.heap.tupleAt (unpackTid tidPacking packed) = some t → t.heapOnly = false

/-- `OrderEntry`. -/
structure OrderEntry where
  packedTid : ℕ
  dist : ℤ
  deriving DecidableEq

/-- A loop over a list that skips some elements and stops at an error. -/
def collectEntries {α : Type*} (f : α → Except PgError (Option OrderEntry)) :
    List α → Except PgError (List OrderEntry)
  | [] => .ok []
  | a :: rest =>
      match f a with
      | .error e => .error e
      | .ok none => collectEntries f rest
      | .ok (some entry) =>
          match collectEntries f rest with
          | .error e => .error e
          | .ok entries => .ok (entry :: entries)

/-- Without errors the loop collects what its body yields. -/
theorem collectEntries_ok {α : Type*} {f : α → Except PgError (Option OrderEntry)}
    {g : α → Option OrderEntry} {l : List α} (h : ∀ a ∈ l, f a = .ok (g a)) :
    collectEntries f l = .ok (l.filterMap g) := by
  induction l with
  | nil => rfl
  | cons a l ih =>
    have hrest := ih fun b hb => h b (List.mem_cons_of_mem _ hb)
    have ha := h a List.mem_cons_self
    cases hg : g a with
    | none => simp only [collectEntries, ha, hg, hrest, List.filterMap_cons_none hg]
    | some entry => simp only [collectEntries, ha, hg, hrest, List.filterMap_cons_some hg]

/-- An error of the body ends the loop. -/
theorem collectEntries_error {α : Type*} {f : α → Except PgError (Option OrderEntry)} {l : List α}
    {a : α} {e : PgError} (hmem : a ∈ l) (h : f a = .error e) :
    ∃ e', collectEntries f l = .error e' := by
  induction l with
  | nil => simp at hmem
  | cons b l ih =>
    cases hb : f b with
    | error e' => exact ⟨e', by simp only [collectEntries, hb]⟩
    | ok entry =>
      have hrest : a ∈ l := by
        rcases List.mem_cons.mp hmem with rfl | hrest
        · rw [h] at hb
          cases hb
        · exact hrest
      obtain ⟨e', he'⟩ := ih hrest
      refine ⟨e', ?_⟩
      cases entry with
      | none => simp only [collectEntries, hb, he']
      | some entry => simp only [collectEntries, hb, he']

section

variable (pg : HeapAm) (engine : TreEngine) (scan : KnnScan)

/-- The distance of a tuple: its text at the index's attribute, matched under the costs of the
`ORDER BY` pattern. Without a pattern it is 0. -/
def knnDistance (orderBy : Option TrePattern) (htup : HeapTuple) : Except PgError (Option ℤ) :=
  match orderBy with
  | none => .ok (some 0)
  | some pat =>
      match pg.heapGetattr htup scan.column.attno with
      | .error e => .error e
      | .ok none => .ok none
      | .ok (some body) =>
          .ok (treDoMatch engine pat.pattern body pat.maxCost pat.costIns pat.costDel pat.costSubst
            int32Max int32Max int32Max int32Max)

/-- A candidate of the index. A TID that `heap_fetch` does not find is skipped, and so is a row
without a match. -/
def knnCandidate (orderBy : Option TrePattern) (idx : ℕ) : Except PgError (Option OrderEntry) :=
  match orderBy with
  | none => .ok (some ⟨idx, 0⟩)
  | some pat =>
      match pg.heapFetch scan.view.heap scan.view.snapshot (unpackTid scan.tidPacking idx) with
      | none => .ok none
      | some htup =>
          match knnDistance pg engine scan (some pat) htup with
          | .error e => .error e
          | .ok none => .ok none
          | .ok (some dist) => .ok (some ⟨idx, dist⟩)

/-- The root map of one page: the page's block and `root_offsets`. -/
abbrev RootMap := Option (BlockNumber × (ℕ → Option ℕ))

/-- `heap_get_root_tuples` on the page at a block. -/
def rootOffsets (blk : BlockNumber) : ℕ → Option ℕ :=
  match scan.view.heap.pages[blk]? with
  | none => fun _ => none
  | some page => pg.heapGetRootTuples page

/-- The root map for a heap-only tuple: rebuilt on a new page, and when the tuple is not mapped. -/
def refreshRootMap (cache : RootMap) (tid : ItemPointer) : RootMap :=
  match cache with
  | none => some (tid.blkid, rootOffsets pg scan tid.blkid)
  | some (blk, offsets) =>
      if blk ≠ tid.blkid ∨ offsets tid.posid = none then
        some (tid.blkid, rootOffsets pg scan tid.blkid)
      else some (blk, offsets)

/-- The TID of a heap-only tuple's root; its own if it is not mapped. -/
def translateTid (cache : RootMap) (tid : ItemPointer) : ItemPointer :=
  match cache.bind (fun c => c.2 tid.posid) with
  | none => tid
  | some root => tid.setOffset root

/-- The loop over the heap that stands in for candidates when the index cannot filter. -/
def knnStream (orderBy : Option TrePattern) :
    List (ItemPointer × HeapTuple) → RootMap → Except PgError (List OrderEntry)
  | [], _ => .ok []
  | (tid, htup) :: rest, cache =>
      match knnDistance pg engine scan orderBy htup with
      | .error e => .error e
      | .ok none => knnStream orderBy rest cache
      | .ok (some dist) =>
          let cache := if htup.heapOnly then refreshRootMap pg scan cache tid else cache
          match packTid scan.tidPacking (if htup.heapOnly then translateTid cache tid else tid) with
          | .error e => .error e
          | .ok packed =>
              match knnStream orderBy rest cache with
              | .error e => .error e
              | .ok entries => .ok (⟨packed, dist⟩ :: entries)

/-- `knn_entry_cmp`. -/
def knnEntryCmp (a b : OrderEntry) : ℤ :=
  if a.dist ≠ b.dist then if a.dist < b.dist then -1 else 1
  else if a.packedTid < b.packedTid then -1
  else if b.packedTid < a.packedTid then 1
  else 0

/-- `knn_build`: nothing when the SuRF filter rejects the scan, otherwise the entries of the heap
scan or of the candidates, sorted if there is an `ORDER BY`. -/
def knnBuild (orderBy : Option TrePattern) (surfRejects alwaysTrue : Bool) :
    Except PgError (List OrderEntry) :=
  if surfRejects then .ok []
  else
    match (if alwaysTrue then
        knnStream pg engine scan orderBy (pg.heapScan scan.view.heap scan.view.snapshot) none
      else
        collectEntries (knnCandidate pg engine scan orderBy)
          ((smMembers scan.candidates).sort (· ≤ ·))) with
    | .error e => .error e
    | .ok entries =>
        .ok (if orderBy.isSome then entries.mergeSort (fun a b => knnEntryCmp a b ≤ 0) else entries)

/-- The root of a tuple without the map: its own TID unless it is heap-only and mapped. -/
def rootTid (tid : ItemPointer) (htup : HeapTuple) : ItemPointer :=
  if htup.heapOnly then
    match rootOffsets pg scan tid.blkid tid.posid with
    | none => tid
    | some root => tid.setOffset root
  else tid

/-- One row of the loop over the heap. -/
def knnRow (orderBy : Option TrePattern) (row : ItemPointer × HeapTuple) :
    Except PgError (Option OrderEntry) :=
  match knnDistance pg engine scan orderBy row.2 with
  | .error e => .error e
  | .ok none => .ok none
  | .ok (some dist) =>
      match packTid scan.tidPacking (rootTid pg scan row.1 row.2) with
      | .error e => .error e
      | .ok packed => .ok (some ⟨packed, dist⟩)

/-- The entries come in this order: by distance, and by TID at the same distance. -/
def OrderEntry.Before (a b : OrderEntry) : Prop :=
  a.dist < b.dist ∨ a.dist = b.dist ∧ a.packedTid < b.packedTid

/-- What the pattern's match costs in the indexed value of a row. -/
def rowDistance (column : IndexColumn) (pat : TrePattern) (htup : HeapTuple) : Option ℤ :=
  (column.value htup).bind fun body =>
    treDoMatch engine pat.pattern body pat.maxCost pat.costIns pat.costDel pat.costSubst
      int32Max int32Max int32Max int32Max

end

section

variable {pg : HeapAm} {engine : TreEngine} {scan : KnnScan} {pat : TrePattern}

/-- On a column the distance is that of the indexed value. -/
theorem knnDistance_column (hattno : scan.column.attno ≠ 0) (htup : HeapTuple) :
    knnDistance pg engine scan (some pat) htup = .ok (rowDistance engine scan.column pat htup) := by
  cases hcolumn : scan.column with
  | column attno hpos =>
    unfold knnDistance rowDistance
    simp only [hcolumn, IndexColumn.attno, IndexColumn.value, pg.heapGetattr_column _ _ hpos]
    cases (htup.attrs[attno - 1]?).join with
    | none => rfl
    | some body => rfl
  | expression value => exact absurd (by rw [hcolumn]; rfl) hattno

/-- An expression is no attribute of the heap tuple, and reading it is an error. -/
theorem knnDistance_expression (hattno : scan.column.attno = 0) (htup : HeapTuple) :
    ∃ e, knnDistance pg engine scan (some pat) htup = .error e := by
  obtain ⟨e, he⟩ := pg.heapGetattr_zero htup
  exact ⟨e, by simp only [knnDistance, hattno, he]⟩

/-! ## The root map -/

/-- With no root map read there is nothing to check. -/
theorem rootMap_none_valid (pg : HeapAm) (scan : KnnScan) :
    ∀ blk offsets, (none : RootMap) = some (blk, offsets) → offsets = rootOffsets pg scan blk := by
  intro blk offsets h
  cases h

/-- The refreshed map is that of the tuple's page. -/
theorem refreshRootMap_valid {cache : RootMap} (tid : ItemPointer)
    (hcache : ∀ blk offsets, cache = some (blk, offsets) → offsets = rootOffsets pg scan blk) :
    refreshRootMap pg scan cache tid = some (tid.blkid, rootOffsets pg scan tid.blkid) := by
  cases cache with
  | none => rfl
  | some c =>
    obtain ⟨blk, offsets⟩ := c
    obtain rfl := hcache blk offsets rfl
    unfold refreshRootMap
    dsimp only
    split_ifs with hstale
    · rfl
    · rw [not_or, not_not] at hstale
      rw [hstale.1]

/-- The loop over the heap treats every row by itself: the map it carries along changes nothing. -/
theorem knnStream_eq {orderBy : Option TrePattern} {rows : List (ItemPointer × HeapTuple)}
    {cache : RootMap}
    (hcache : ∀ blk offsets, cache = some (blk, offsets) → offsets = rootOffsets pg scan blk) :
    knnStream pg engine scan orderBy rows cache =
      collectEntries (knnRow pg engine scan orderBy) rows := by
  induction rows generalizing cache with
  | nil => rfl
  | cons row rows ih =>
    obtain ⟨tid, htup⟩ := row
    unfold knnStream collectEntries knnRow
    dsimp only
    cases hdist : knnDistance pg engine scan orderBy htup with
    | error e => rfl
    | ok dist =>
      cases dist with
      | none => exact ih hcache
      | some dist =>
        dsimp only
        by_cases honly : htup.heapOnly = true
        · have hroot : translateTid (refreshRootMap pg scan cache tid) tid =
              rootTid pg scan tid htup := by
            rw [refreshRootMap_valid tid hcache, rootTid, if_pos honly]
            rfl
          rw [if_pos honly, if_pos honly, hroot, ih (by
            intro blk offsets heq
            rw [refreshRootMap_valid tid hcache] at heq
            cases heq
            rfl)]
          cases packTid scan.tidPacking (rootTid pg scan tid htup) with
          | error e => rfl
          | ok packed => rfl
        · have hroot : rootTid pg scan tid htup = tid := by rw [rootTid, if_neg honly]
          rw [if_neg honly, if_neg honly, hroot, ih hcache]
          cases packTid scan.tidPacking tid with
          | error e => rfl
          | ok packed => rfl

/-- The root of a tuple can be packed. -/
theorem packTid_rootTid {tid : ItemPointer} {htup : HeapTuple}
    (htuple : scan.view.heap.tupleAt tid = some htup) :
    ∃ packed, packTid scan.tidPacking (rootTid pg scan tid htup) = .ok packed := by
  have hown := Heap.posid_le htuple
  refine packTid_ok ?_ _
  obtain ⟨page, hpage, -⟩ := Heap.tupleAt_eq_some.mp htuple
  unfold rootTid
  split_ifs
  · split
    · exact hown
    · rename_i root hroot
      simp only [rootOffsets, Heap.page] at hroot hpage
      rw [hpage] at hroot
      obtain ⟨v, hv, -⟩ := pg.heapGetRootTuples_sound page _ _ hroot
      have hle := (HeapPage.root_bounds hv).2.trans page.fits
      rw [ItemPointer.setOffset_posid hle]
      exact hle
  · exact hown

/-! ## What the two branches collect -/

/-- Sorting entries with different TIDs puts them into their order. -/
theorem pairwise_before_mergeSort {entries : List OrderEntry}
    (hnodup : (entries.map OrderEntry.packedTid).Nodup) :
    (entries.mergeSort (fun a b => knnEntryCmp a b ≤ 0)).Pairwise OrderEntry.Before := by
  have hle (a b : OrderEntry) : knnEntryCmp a b ≤ 0 ↔
      a.dist < b.dist ∨ a.dist = b.dist ∧ a.packedTid ≤ b.packedTid := by
    unfold knnEntryCmp
    split_ifs <;> omega
  have hsorted := @List.pairwise_mergeSort _ (fun a b => decide (knnEntryCmp a b ≤ 0))
    (by
      intro a b c hab hbc
      simp only [decide_eq_true_eq, hle] at hab hbc ⊢
      omega)
    (by
      intro a b
      simp only [Bool.or_eq_true, decide_eq_true_eq, hle]
      omega) entries
  have hdistinct : (entries.mergeSort (fun a b => knnEntryCmp a b ≤ 0)).Pairwise
      (fun a b => a.packedTid ≠ b.packedTid) := by
    rw [← List.pairwise_map (f := OrderEntry.packedTid)]
    exact ((List.mergeSort_perm entries _).map _).nodup_iff.mpr hnodup
  refine (hsorted.and hdistinct).imp ?_
  intro a b hab
  obtain ⟨hcmp, hne⟩ := hab
  simp only [decide_eq_true_eq, hle] at hcmp
  unfold OrderEntry.Before
  omega

/-- The entry of a candidate when the index is on a column. -/
def candidateEntry (pg : HeapAm) (engine : TreEngine) (scan : KnnScan) (pat : TrePattern) (idx : ℕ) :
    Option OrderEntry :=
  ((pg.heapFetch scan.view.heap scan.view.snapshot (unpackTid scan.tidPacking idx)).bind
    (rowDistance engine scan.column pat)).map fun dist => ⟨idx, dist⟩

/-- On a column a candidate raises no error. -/
theorem knnCandidate_column (hattno : scan.column.attno ≠ 0) (idx : ℕ) :
    knnCandidate pg engine scan (some pat) idx = .ok (candidateEntry pg engine scan pat idx) := by
  unfold knnCandidate candidateEntry
  dsimp only
  cases pg.heapFetch scan.view.heap scan.view.snapshot (unpackTid scan.tidPacking idx) with
  | none => rfl
  | some htup =>
    rw [Option.bind_some]
    dsimp only
    rw [knnDistance_column hattno]
    cases rowDistance engine scan.column pat htup with
    | none => rfl
    | some dist => rfl

/-- A candidate has an entry when its own tuple is visible and matches. -/
theorem candidateEntry_eq_some {idx : ℕ} {e : OrderEntry} :
    candidateEntry pg engine scan pat idx = some e ↔ e.packedTid = idx ∧ ∃ htup,
      scan.view.heap.tupleAt (unpackTid scan.tidPacking idx) = some htup ∧
      scan.view.snapshot htup = true ∧ rowDistance engine scan.column pat htup = some e.dist := by
  simp only [candidateEntry, Option.map_eq_some_iff, Option.bind_eq_some_iff,
    HeapView.heapFetch_eq_some]
  constructor
  · rintro ⟨dist, ⟨htup, ⟨htuple, hvis⟩, hdist⟩, rfl⟩
    exact ⟨rfl, htup, htuple, hvis, hdist⟩
  · rintro ⟨rfl, htup, htuple, hvis, hdist⟩
    exact ⟨e.dist, ⟨htup, ⟨htuple, hvis⟩, hdist⟩, rfl⟩

/-- The candidate branch collects the candidates whose own tuple is visible and matches. -/
theorem knnBuild_candidates (hattno : scan.column.attno ≠ 0) :
    ∃ es, knnBuild pg engine scan (some pat) false false = .ok es ∧
      es.Pairwise OrderEntry.Before ∧ ∀ e, e ∈ es ↔
        e.packedTid ∈ smMembers scan.candidates ∧ ∃ htup,
          scan.view.heap.tupleAt (unpackTid scan.tidPacking e.packedTid) = some htup ∧
          scan.view.snapshot htup = true ∧ rowDistance engine scan.column pat htup = some e.dist := by
  have hnodup : ((((smMembers scan.candidates).sort (· ≤ ·)).filterMap
      (candidateEntry pg engine scan pat)).map OrderEntry.packedTid).Nodup := by
    rw [List.Nodup, List.pairwise_map, List.pairwise_filterMap]
    refine (Finset.sort_nodup _ _).imp ?_
    intro idx idx' hne e he e' he' heq
    rw [(candidateEntry_eq_some.mp he).1, (candidateEntry_eq_some.mp he').1] at heq
    exact hne heq
  refine ⟨_, ?_, pairwise_before_mergeSort hnodup, fun e => ?_⟩
  · simp only [knnBuild, Bool.false_eq_true, if_false,
      collectEntries_ok fun idx _ => knnCandidate_column hattno idx]
    rfl
  · simp only [List.mem_mergeSort, List.mem_filterMap, Finset.mem_sort, candidateEntry_eq_some]
    constructor
    · rintro ⟨idx, hidx, rfl, hrow⟩
      exact ⟨hidx, hrow⟩
    · rintro ⟨hidx, hrow⟩
      exact ⟨e.packedTid, hidx, rfl, hrow⟩

/-- The entry of a row of the heap when the index is on a column. -/
def rowEntry (pg : HeapAm) (engine : TreEngine) (scan : KnnScan) (pat : TrePattern)
    (row : ItemPointer × HeapTuple) : Option OrderEntry :=
  (rowDistance engine scan.column pat row.2).bind fun dist =>
    (packTid scan.tidPacking (rootTid pg scan row.1 row.2)).toOption.map fun packed => ⟨packed, dist⟩

/-- On a column a row of the heap raises no error. -/
theorem knnRow_column (hattno : scan.column.attno ≠ 0) {row : ItemPointer × HeapTuple}
    (hrow : row ∈ pg.heapScan scan.view.heap scan.view.snapshot) :
    knnRow pg engine scan (some pat) row = .ok (rowEntry pg engine scan pat row) := by
  obtain ⟨packed, hpacked⟩ := @packTid_rootTid pg scan row.1 row.2
    ((pg.mem_heapScan _ _ _ _).mp hrow).1
  unfold knnRow rowEntry
  rw [knnDistance_column hattno, hpacked]
  cases rowDistance engine scan.column pat row.2 with
  | none => rfl
  | some dist => rfl

/-- A row of the heap has an entry under its root when it matches. -/
theorem rowEntry_eq_some {row : ItemPointer × HeapTuple} {e : OrderEntry} :
    rowEntry pg engine scan pat row = some e ↔
      rowDistance engine scan.column pat row.2 = some e.dist ∧
        packTid scan.tidPacking (rootTid pg scan row.1 row.2) = .ok e.packedTid := by
  unfold rowEntry
  cases hdist : rowDistance engine scan.column pat row.2 with
  | none => simp
  | some dist =>
    cases hpacked : packTid scan.tidPacking (rootTid pg scan row.1 row.2) with
    | error err => simp [Except.toOption]
    | ok packed =>
      simp only [Option.bind_some, Except.toOption, Option.map_some, Option.some.injEq,
        Except.ok.injEq]
      constructor
      · rintro rfl
        exact ⟨rfl, rfl⟩
      · rintro ⟨rfl, rfl⟩
        rfl

/-- The branch without candidates collects every visible row that matches, under its root. -/
theorem knnBuild_always (hattno : scan.column.attno ≠ 0) :
    ∃ es, knnBuild pg engine scan (some pat) false true = .ok es ∧
      ((∀ tid htup, rootTid pg scan tid htup = tid) → es.Pairwise OrderEntry.Before) ∧ ∀ e, e ∈ es ↔
        ∃ tid htup, scan.view.heap.tupleAt tid = some htup ∧ scan.view.snapshot htup = true ∧
          rowDistance engine scan.column pat htup = some e.dist ∧
          packTid scan.tidPacking (rootTid pg scan tid htup) = .ok e.packedTid := by
  have hnodup (hown : ∀ tid htup, rootTid pg scan tid htup = tid) :
      (((pg.heapScan scan.view.heap scan.view.snapshot).filterMap
        (rowEntry pg engine scan pat)).map OrderEntry.packedTid).Nodup := by
    rw [List.Nodup, List.pairwise_map, List.pairwise_filterMap]
    have hrows := pg.heapScan_nodup scan.view.heap scan.view.snapshot
    rw [List.Nodup, List.pairwise_map] at hrows
    refine hrows.imp ?_
    intro row row' hne e he e' he' heq
    have hpacked := (rowEntry_eq_some.mp he).2
    have hpacked' := (rowEntry_eq_some.mp he').2
    rw [hown] at hpacked hpacked'
    rw [← heq] at hpacked'
    exact hne (packTid_inj hpacked hpacked')
  refine ⟨_, ?_, fun hown => pairwise_before_mergeSort (hnodup hown), fun e => ?_⟩
  · simp only [knnBuild, Bool.false_eq_true, if_false, if_true,
      knnStream_eq (rootMap_none_valid pg scan), collectEntries_ok fun row => knnRow_column hattno]
    rfl
  · simp only [List.mem_mergeSort, List.mem_filterMap, rowEntry_eq_some, Prod.exists,
      pg.mem_heapScan, and_assoc]

/-- A visible row that the scan looks at: any of the heap, or one at a candidate's TID. -/
def KnnScan.Examines (scan : KnnScan) (alwaysTrue : Bool) (tid : ItemPointer) (htup : HeapTuple) :
    Prop :=
  scan.view.heap.tupleAt tid = some htup ∧ scan.view.snapshot htup = true ∧
    (alwaysTrue = false → ∃ packed ∈ smMembers scan.candidates,
      unpackTid scan.tidPacking packed = tid)

/-- With an index on an expression, the first row the scan looks at is an error. -/
theorem knnBuild_expression_error (hattno : scan.column.attno = 0) {alwaysTrue : Bool}
    {tid : ItemPointer} {htup : HeapTuple} (hrow : scan.Examines alwaysTrue tid htup) :
    ∃ e, knnBuild pg engine scan (some pat) false alwaysTrue = .error e := by
  obtain ⟨htuple, hvis, hcand⟩ := hrow
  obtain ⟨e, he⟩ := @knnDistance_expression pg engine scan pat hattno htup
  cases alwaysTrue with
  | true =>
    have hmem := (pg.mem_heapScan _ _ _ _).mpr ⟨htuple, hvis⟩
    have hrow : knnRow pg engine scan (some pat) (tid, htup) = .error e := by
      simp only [knnRow, he]
    obtain ⟨e', he'⟩ := collectEntries_error hmem hrow
    exact ⟨e', by simp only [knnBuild, Bool.false_eq_true, if_false, if_true,
      knnStream_eq (rootMap_none_valid pg scan), he']⟩
  | false =>
    obtain ⟨packed, hmem, rfl⟩ := hcand rfl
    have hfetch := (@HeapView.heapFetch_eq_some _ _ _ pg).mpr ⟨htuple, hvis⟩
    have hcandidate : knnCandidate pg engine scan (some pat) packed = .error e := by
      simp only [knnCandidate, hfetch, he]
    obtain ⟨e', he'⟩ := collectEntries_error ((Finset.mem_sort (· ≤ ·)).mpr hmem) hcandidate
    exact ⟨e', by simp only [knnBuild, Bool.false_eq_true, if_false, he']⟩

/-- A scan that looks at no row collects nothing. -/
theorem knnBuild_nothing {alwaysTrue : Bool}
    (hnone : ∀ tid htup, ¬ scan.Examines alwaysTrue tid htup) :
    knnBuild pg engine scan (some pat) false alwaysTrue = .ok [] := by
  cases alwaysTrue with
  | true =>
    have hempty : pg.heapScan scan.view.heap scan.view.snapshot = [] := by
      rw [List.eq_nil_iff_forall_not_mem]
      rintro ⟨tid, htup⟩ hmem
      obtain ⟨htuple, hvis⟩ := (pg.mem_heapScan _ _ _ _).mp hmem
      exact hnone tid htup ⟨htuple, hvis, fun h => nomatch h⟩
    simp [knnBuild, hempty, knnStream]
  | false =>
    have hskip : ∀ idx ∈ (smMembers scan.candidates).sort (· ≤ ·),
        knnCandidate pg engine scan (some pat) idx = .ok none := by
      intro idx hidx
      cases hfetch : pg.heapFetch scan.view.heap scan.view.snapshot (unpackTid scan.tidPacking idx) with
      | none => simp only [knnCandidate, hfetch]
      | some htup =>
        obtain ⟨htuple, hvis⟩ := HeapView.heapFetch_eq_some.mp hfetch
        exact absurd ⟨htuple, hvis, fun _ => ⟨idx, (Finset.mem_sort _).mp hidx, rfl⟩⟩ (hnone _ htup)
    simp [knnBuild, collectEntries_ok hskip]

/-! ## HOT chains -/

/-- From a version of a chain the root map leads back to the root. -/
theorem rootTid_of_mem_hotChain {root : ItemPointer} {v : ItemPointer × HeapTuple}
    (hv : v ∈ scan.view.heap.hotChain root) : rootTid pg scan v.1 v.2 = root := by
  obtain ⟨page, hpage, hmem, hblk⟩ := Heap.mem_hotChain hv
  by_cases honly : v.2.heapOnly = true
  · have hoffset : rootOffsets pg scan v.1.blkid v.1.posid = some root.posid := by
      have hmap := @HeapView.heapGetRootTuples_eq scan.view root pg page v hpage hv
      rw [Heap.page] at hpage
      rw [rootOffsets, hblk, hpage]
      exact hmap
    rw [rootTid, if_pos honly, hoffset]
    ext
    · exact hblk
    · exact Nat.mod_eq_of_lt root.posidLt
  · rw [rootTid, if_neg honly]
    rcases (HeapPage.mem_hotChain hmem).2 with hposid | hheapOnly
    · exact ItemPointer.ext hblk hposid
    · exact absurd hheapOnly honly

/-- A tuple is on the chain of its root, if that is not itself a heap-only tuple. -/
theorem mem_hotChain_rootTid {tid : ItemPointer} {htup : HeapTuple}
    (htuple : scan.view.heap.tupleAt tid = some htup)
    (hroot : ∀ t, scan.view.heap.tupleAt (rootTid pg scan tid htup) = some t → t.heapOnly = false) :
    (tid, htup) ∈ scan.view.heap.hotChain (rootTid pg scan tid htup) := by
  obtain ⟨page, hpage, hat⟩ := Heap.tupleAt_eq_some.mp htuple
  by_cases honly : htup.heapOnly = true
  · cases hoffset : rootOffsets pg scan tid.blkid tid.posid with
    | none =>
      have hself : rootTid pg scan tid htup = tid := by rw [rootTid, if_pos honly, hoffset]
      rw [hself] at hroot
      rw [hroot htup htuple] at honly
      cases honly
    | some root =>
      have hmoved : rootTid pg scan tid htup = tid.setOffset root := by
        rw [rootTid, if_pos honly, hoffset]
      rw [rootOffsets, ← Heap.page, hpage] at hoffset
      obtain ⟨v, hv, hposid⟩ := pg.heapGetRootTuples_sound page _ _ hoffset
      have hversion : v = (tid.posid, htup) := by
        have hvat := (HeapPage.mem_hotChain hv).1
        rw [hposid, hat] at hvat
        exact Prod.ext hposid (Option.some.inj hvat).symm
      rw [hmoved]
      exact Heap.mem_hotChain_setOffset hpage (hversion ▸ hv)
  · have hself : rootTid pg scan tid htup = tid := by rw [rootTid, if_neg honly]
    rw [hself]
    exact Heap.mem_hotChain_self htuple (by simpa using honly)

/-- An entry that the executor's fetch bears out: from the candidate's TID it reaches a version
whose indexed value matches at this distance. -/
def KnnScan.Reached (scan : KnnScan) (pg : HeapAm) (engine : TreEngine) (pat : TrePattern)
    (e : OrderEntry) : Prop :=
  e.packedTid ∈ smMembers scan.candidates ∧ ∃ v,
    pg.indexFetchHeap scan.view.heap scan.view.snapshot
      (unpackTid scan.tidPacking e.packedTid) = some v ∧
    rowDistance engine scan.column pat v.2 = some e.dist

/-- The branch without candidates follows HOT chains: for the chains of the candidates it collects
what the executor's fetch reaches. -/
theorem reached_iff_rootTid {e : OrderEntry} :
    scan.Reached pg engine pat e ↔ (∃ tid htup, scan.view.heap.tupleAt tid = some htup ∧
      scan.view.snapshot htup = true ∧ rowDistance engine scan.column pat htup = some e.dist ∧
      packTid scan.tidPacking (rootTid pg scan tid htup) = .ok e.packedTid) ∧
        e.packedTid ∈ smMembers scan.candidates := by
  constructor
  · rintro ⟨hcand, v, hfetch, hdist⟩
    obtain ⟨hmem, hvis⟩ := HeapView.indexFetchHeap_eq_some.mp hfetch
    refine ⟨⟨v.1, v.2, Heap.tupleAt_of_mem_hotChain hmem, hvis, hdist, ?_⟩, hcand⟩
    rw [rootTid_of_mem_hotChain hmem]
    exact packTid_unpackTid (scan.candidatesPacked _ hcand)
  · rintro ⟨⟨tid, htup, htuple, hvis, hdist, hpacked⟩, hcand⟩
    have hroot := unpackTid_packTid hpacked
    have hmem := @mem_hotChain_rootTid pg scan _ _ htuple (by
      rw [← hroot]
      exact scan.candidatesRoots _ hcand)
    rw [← hroot] at hmem
    exact ⟨hcand, (tid, htup), HeapView.indexFetchHeap_eq_some.mpr ⟨hmem, hvis⟩, hdist⟩

/-- When the tuple at a candidate's own TID is visible, it is the visible version of the chain. -/
theorem eq_root_of_visible {packed : ℕ} (hcand : packed ∈ smMembers scan.candidates)
    {htup : HeapTuple} {v : ItemPointer × HeapTuple}
    (htuple : scan.view.heap.tupleAt (unpackTid scan.tidPacking packed) = some htup)
    (hvis : scan.view.snapshot htup = true)
    (hmem : v ∈ scan.view.heap.hotChain (unpackTid scan.tidPacking packed))
    (hvisible : scan.view.snapshot v.2 = true) : v = (unpackTid scan.tidPacking packed, htup) := by
  have hself := Heap.mem_hotChain_self htuple (scan.candidatesRoots packed hcand htup htuple)
  exact HeapView.eq_of_visible hmem hself hvisible hvis

/-- Where every visible match on a candidate's chain is the root, the executor's fetch reaches what
stands at the candidates' own TIDs. -/
theorem reached_iff_root
    (hroots : ∀ packed ∈ smMembers scan.candidates,
      ∀ v ∈ scan.view.heap.hotChain (unpackTid scan.tidPacking packed),
        scan.view.snapshot v.2 = true → rowDistance engine scan.column pat v.2 ≠ none →
          v.1 = unpackTid scan.tidPacking packed) {e : OrderEntry} :
    scan.Reached pg engine pat e ↔ e.packedTid ∈ smMembers scan.candidates ∧ ∃ htup,
      scan.view.heap.tupleAt (unpackTid scan.tidPacking e.packedTid) = some htup ∧
      scan.view.snapshot htup = true ∧ rowDistance engine scan.column pat htup = some e.dist := by
  constructor
  · rintro ⟨hcand, v, hfetch, hdist⟩
    obtain ⟨hv, hvis⟩ := HeapView.indexFetchHeap_eq_some.mp hfetch
    have hroot := hroots _ hcand v hv hvis (by simp [hdist])
    have htuple := Heap.tupleAt_of_mem_hotChain hv
    rw [hroot] at htuple
    exact ⟨hcand, v.2, htuple, hvis, hdist⟩
  · rintro ⟨hcand, htup, htuple, hvis, hdist⟩
    have hself := Heap.mem_hotChain_self htuple (scan.candidatesRoots _ hcand htup htuple)
    exact ⟨hcand, _, HeapView.indexFetchHeap_eq_some.mpr ⟨hself, hvis⟩, hdist⟩

/-- With an index on an expression the branch without candidates succeeds only on a table without
visible rows. -/
theorem invisible_of_always_ok (hattno : scan.column.attno = 0) {es : List OrderEntry}
    (hes : knnBuild pg engine scan (some pat) false true = .ok es) {tid : ItemPointer}
    {htup : HeapTuple} (htuple : scan.view.heap.tupleAt tid = some htup) :
    scan.view.snapshot htup = false := by
  by_contra hvis
  have hrow : scan.Examines true tid htup := ⟨htuple, by simpa using hvis, fun h => nomatch h⟩
  obtain ⟨e, he⟩ := @knnBuild_expression_error pg engine scan pat hattno _ _ _ hrow
  rw [hes] at he
  cases he

/-- Nothing is reached in a table without visible rows. -/
theorem not_reached_of_invisible
    (hinvisible : ∀ tid htup, scan.view.heap.tupleAt tid = some htup →
      scan.view.snapshot htup = false) (e : OrderEntry) : ¬ scan.Reached pg engine pat e := by
  rintro ⟨-, v, hfetch, -⟩
  obtain ⟨hmem, hvis⟩ := HeapView.indexFetchHeap_eq_some.mp hfetch
  rw [hinvisible _ _ (Heap.tupleAt_of_mem_hotChain hmem)] at hvis
  cases hvis

end

/-- With an `ORDER BY` pattern the candidate branch collects exactly the rows that the executor's
fetch reaches from the candidates along their HOT chains, and the same rows as the branch without
candidates, if and only if every visible version that matches on such a chain is the root itself
and, with an index on an expression, no row is visible. -/
theorem knnBuild_followsChains_iff (pg : HeapAm) (engine : TreEngine) (scan : KnnScan)
    (pat : TrePattern) :
    (∃ es, knnBuild pg engine scan (some pat) false false = .ok es ∧
        (∀ e, e ∈ es ↔ scan.Reached pg engine pat e) ∧
        ∃ es', knnBuild pg engine scan (some pat) false true = .ok es' ∧
          ∀ e, e ∈ es ↔ e ∈ es' ∧ e.packedTid ∈ smMembers scan.candidates) ↔
      (∀ packed ∈ smMembers scan.candidates,
        ∀ v ∈ scan.view.heap.hotChain (unpackTid scan.tidPacking packed),
          scan.view.snapshot v.2 = true → rowDistance engine scan.column pat v.2 ≠ none →
            v.1 = unpackTid scan.tidPacking packed) ∧
      (scan.column.attno = 0 → ∀ tid htup, scan.view.heap.tupleAt tid = some htup →
        scan.view.snapshot htup = false) := by
  by_cases hattno : scan.column.attno = 0
  · constructor
    · rintro ⟨es, -, -, es', hes', -⟩
      refine ⟨?_, fun _ tid htup htuple => invisible_of_always_ok hattno hes' htuple⟩
      intro packed _ v hv hvis
      rw [invisible_of_always_ok hattno hes' (Heap.tupleAt_of_mem_hotChain hv)] at hvis
      cases hvis
    · rintro ⟨-, hinvisible⟩
      have hnone (alwaysTrue : Bool) (tid : ItemPointer) (htup : HeapTuple) :
          ¬ scan.Examines alwaysTrue tid htup := by
        rintro ⟨htuple, hvis, -⟩
        rw [hinvisible hattno tid htup htuple] at hvis
        cases hvis
      refine ⟨[], knnBuild_nothing (hnone false), fun e => ?_, [],
        knnBuild_nothing (hnone true), by simp⟩
      simpa using not_reached_of_invisible (hinvisible hattno) e
  · obtain ⟨es, hes, -, hmem⟩ := @knnBuild_candidates pg engine scan pat hattno
    obtain ⟨es', hes', -, hmem'⟩ := @knnBuild_always pg engine scan pat hattno
    constructor
    · rintro ⟨es₁, hes₁, hreached, -⟩
      obtain rfl := Except.ok.inj (hes.symm.trans hes₁)
      refine ⟨?_, fun h => absurd h hattno⟩
      intro packed hcand v hv hvis hmatch
      obtain ⟨dist, hdist⟩ := Option.ne_none_iff_exists'.mp hmatch
      have hentry : (⟨packed, dist⟩ : OrderEntry) ∈ es :=
        (hreached _).mpr ⟨hcand, v, HeapView.indexFetchHeap_eq_some.mpr ⟨hv, hvis⟩, hdist⟩
      obtain ⟨-, htup, htuple, htvis, -⟩ := (hmem _).mp hentry
      rw [eq_root_of_visible hcand htuple htvis hv hvis]
    · rintro ⟨hroots, -⟩
      have hreached (e : OrderEntry) : e ∈ es ↔ scan.Reached pg engine pat e := by
        rw [hmem, reached_iff_root hroots]
      refine ⟨es, hes, hreached, es', hes', fun e => ?_⟩
      rw [hreached, reached_iff_rootTid, hmem']

/-- TRE on a pattern of letters with a budget of 0: an exact occurrence costs nothing. -/
def literalEngine : TreEngine := fun pattern _ str => if pattern <:+: str then some 0 else none

/-- The pattern `git` with a budget of 0. -/
def gitPattern : TrePattern := ⟨[103, 105, 116], 0, 1, 1, 1⟩

/-- The page of a row `git` after one HOT update that did not change it. -/
def churnedPage : HeapPage where
  items := [.normal ⟨1, 2, false, some 2, [some [103, 105, 116]]⟩,
    .normal ⟨2, 0, true, none, [some [103, 105, 116]]⟩]
  fits := by decide

/-- Every version of the churned page has the first line as its root. -/
private theorem churnedPage_root {root : ℕ} {v : Version} (h : v ∈ churnedPage.hotChain root) :
    root = 1 := by
  have hbounds := HeapPage.root_bounds h
  have hlen : churnedPage.items.length = 2 := rfl
  rw [hlen] at hbounds
  obtain rfl | rfl : root = 1 ∨ root = 2 := by omega
  · rfl
  · have hempty : churnedPage.hotChain 2 = [] := by decide +kernel
    rw [hempty] at h
    cases h

/-- The first TID of a heap, as the only candidate. -/
theorem firstCandidate_packed : ∀ packed ∈ smMembers (some {1}), Packed .dense packed := by
  intro packed hpacked
  obtain rfl := Finset.mem_singleton.mp hpacked
  refine ⟨⟨0, 1, zero_lt_blkid, one_lt_posid⟩, ?_⟩
  simp [packTid, denseStride, maxHeapTuplesPerPage]

/-- An ordered scan of the table with this page. Both versions of the row have the same text, and
the index has the TID of the first. -/
def churnedScan : KnnScan where
  tidPacking := .dense
  column := .column 1 Nat.one_pos
  view := {
    heap := ⟨[churnedPage], by decide⟩
    snapshot := fun t => t.xmax == 0
    apart := by
      intro page hpage root v hv root' v' hv' _
      obtain rfl := List.mem_singleton.mp hpage
      rw [churnedPage_root hv, churnedPage_root hv']
    unique := by
      intro page hpage root v hv v' hv' hvis hvis'
      obtain rfl := List.mem_singleton.mp hpage
      obtain rfl := churnedPage_root hv
      have hvisible : ∀ w ∈ churnedPage.hotChain 1, (w.2.xmax == 0) = true → w.1 = 2 := by
        decide +kernel
      have hoff : v.1 = v'.1 := (hvisible v hv hvis).trans (hvisible v' hv' hvis').symm
      have hat := (HeapPage.mem_hotChain hv).1
      rw [hoff, (HeapPage.mem_hotChain hv').1] at hat
      exact Prod.ext hoff (Option.some.inj hat).symm }
  candidates := some {1}
  candidatesPacked := firstCandidate_packed
  candidatesRoots := by
    intro packed hpacked t htuple
    obtain rfl := Finset.mem_singleton.mp hpacked
    obtain rfl := Option.some.inj htuple
    rfl

/-- After the update the executor still reaches the row from the candidate, and the branch
without candidates has it, but the candidate branch collects nothing. -/
theorem churnedScan_misses_row :
    churnedScan.Reached HeapAm.reference literalEngine gitPattern ⟨1, 0⟩ ∧
      knnBuild HeapAm.reference literalEngine churnedScan (some gitPattern) false true =
        .ok [⟨1, 0⟩] ∧
      knnBuild HeapAm.reference literalEngine churnedScan (some gitPattern) false false = .ok [] := by
  have hstream : knnStream HeapAm.reference literalEngine churnedScan (some gitPattern)
      (HeapAm.reference.heapScan churnedScan.view.heap churnedScan.view.snapshot) none =
        .ok [⟨1, 0⟩] := by rfl
  have hskip : knnCandidate HeapAm.reference literalEngine churnedScan (some gitPattern) 1 =
      .ok none := by rfl
  have hcandidates : smMembers churnedScan.candidates = {1} := by rfl
  refine ⟨⟨Finset.mem_singleton_self 1, _, rfl, by decide +kernel⟩, ?_, ?_⟩
  · simp [knnBuild, hstream]
  · simp [knnBuild, hcandidates, collectEntries, hskip]

end PgTre
