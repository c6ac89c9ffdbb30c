import Mathlib
import PgTre.Am.Knn

/-!
# Ordered index scans

`pg_tre_amgettuple` returns the entries of `knn_build` one by one. The executor fetches each row
from the heap and rechecks the `WHERE` clause, but takes the order as it comes. So an ordered scan
answers a query as a sequential scan followed by a sort does only when every row of the answer has
a distance, and when the distances under the pattern's costs put the rows into the order of
`tre_distance`, which knows unit costs only.
-/

namespace PgTre

/-- The KNN part of `TreScanState`. -/
structure TreScanState where
  knnReady : Bool
  knnEntries : List OrderEntry
  knnPos : ℕ

/-- The state `pg_tre_amrescan` leaves behind. -/
def TreScanState.rescanned : TreScanState := ⟨false, [], 0⟩

/-- `ScanDirection`. -/
inductive ScanDirection
  | backward
  | noMovement
  | forward
  deriving DecidableEq

/-- What `pg_tre_amgettuple` publishes in the scan descriptor. -/
structure ScanTuple where
  xsHeaptid : ItemPointer
  xsRecheck : Bool
  xsOrderbyval : Option ℤ
  xsRecheckorderby : Bool

/-- A row: its TID and its visible version. -/
abbrev Row := ItemPointer × HeapTuple

section

variable (pg : HeapAm) (engine : TreEngine) (scan : KnnScan) (orderBy : Option TrePattern)
  (surfRejects alwaysTrue : Bool) (whereQual : HeapTuple → Bool)

/-- The tuple published for an entry. -/
def publish (e : OrderEntry) : ScanTuple where
  xsHeaptid := unpackTid scan.tidPacking e.packedTid
  xsRecheck := true
  xsOrderbyval := orderBy.map fun _ => e.dist
  xsRecheckorderby := false

/-- `pg_tre_amgettuple`: the list is built at the first call. -/
def amgettuple (dir : ScanDirection) (st : TreScanState) :
    Except PgError (Option ScanTuple × TreScanState) :=
  if dir ≠ .forward then .error ⟨"pg_tre: backward index scan not supported"⟩
  else
    match (if st.knnReady then (.ok st : Except PgError TreScanState)
      else
        match knnBuild pg engine scan orderBy surfRejects alwaysTrue with
        | .error e => .error e
        | .ok entries => .ok ⟨true, entries, 0⟩) with
    | .error e => .error e
    | .ok st =>
        match st.knnEntries[st.knnPos]? with
        | none => .ok (none, st)
        | some e => .ok (some (publish scan orderBy e), { st with knnPos := st.knnPos + 1 })

/-- The executor's row for a published tuple: what its fetch reaches, if that passes the recheck
of the `WHERE` clause. -/
def executorRow (tup : ScanTuple) : Option Row :=
  (pg.indexFetchHeap scan.view.heap scan.view.snapshot tup.xsHeaptid).filter fun v =>
    !tup.xsRecheck || whereQual v.2

/-- The executor calls `pg_tre_amgettuple` until there is no further tuple and gets these rows. -/
inductive Delivers : TreScanState → List Row → Prop
  | done {st st' : TreScanState} :
      amgettuple pg engine scan orderBy surfRejects alwaysTrue .forward st = .ok (none, st') →
      Delivers st []
  | tuple {st st' : TreScanState} {tup : ScanTuple} {rows : List Row} :
      amgettuple pg engine scan orderBy surfRejects alwaysTrue .forward st = .ok (some tup, st') →
      Delivers st' rows →
      Delivers st ((executorRow pg scan whereQual tup).toList ++ rows)

end

section

variable {pg : HeapAm} {engine : TreEngine} {scan : KnnScan} {orderBy : Option TrePattern}
  {surfRejects alwaysTrue : Bool} {whereQual : HeapTuple → Bool}

/-- A call on a built list returns the next entry. -/
theorem amgettuple_ready (entries : List OrderEntry) (pos : ℕ) :
    amgettuple pg engine scan orderBy surfRejects alwaysTrue .forward ⟨true, entries, pos⟩ =
      match entries[pos]? with
      | none => .ok (none, ⟨true, entries, pos⟩)
      | some e => .ok (some (publish scan orderBy e), ⟨true, entries, pos + 1⟩) := by
  rfl

/-- The first call builds the list and goes on as if it had been there. -/
theorem amgettuple_rescanned {entries : List OrderEntry}
    (hbuild : knnBuild pg engine scan orderBy surfRejects alwaysTrue = .ok entries) :
    amgettuple pg engine scan orderBy surfRejects alwaysTrue .forward .rescanned =
      amgettuple pg engine scan orderBy surfRejects alwaysTrue .forward ⟨true, entries, 0⟩ := by
  simp [amgettuple, TreScanState.rescanned, hbuild]

/-- From a built list the executor gets the rows of the entries that are left. -/
theorem delivers_ready_iff {entries : List OrderEntry} {pos : ℕ} {rows : List Row} :
    Delivers pg engine scan orderBy surfRejects alwaysTrue whereQual ⟨true, entries, pos⟩ rows ↔
      rows = (entries.drop pos).filterMap
        (fun e => executorRow pg scan whereQual (publish scan orderBy e)) := by
  induction hleft : entries.drop pos generalizing pos rows with
  | nil =>
    have hend : entries[pos]? = none := by
      rw [List.getElem?_eq_none_iff]
      exact List.drop_eq_nil_iff.mp hleft
    constructor
    · intro hrows
      cases hrows with
      | done _ => rfl
      | tuple hcall _ =>
        rw [amgettuple_ready, hend] at hcall
        cases hcall
    · rintro rfl
      exact .done (by rw [amgettuple_ready, hend])
  | cons e rest ih =>
    have hnext : entries[pos]? = some e := by
      rw [← Nat.add_zero pos, ← List.getElem?_drop, hleft]
      rfl
    have hrest : entries.drop (pos + 1) = rest := by
      rw [← List.drop_drop, hleft]
      rfl
    have hcons : (e :: rest).filterMap (fun e =>
        executorRow pg scan whereQual (publish scan orderBy e)) =
        (executorRow pg scan whereQual (publish scan orderBy e)).toList ++
          rest.filterMap (fun e => executorRow pg scan whereQual (publish scan orderBy e)) := by
      rw [List.filterMap_cons]
      cases executorRow pg scan whereQual (publish scan orderBy e) with
      | none => rfl
      | some row => rfl
    rw [hcons]
    constructor
    · intro hrows
      cases hrows with
      | done hcall =>
        rw [amgettuple_ready, hnext] at hcall
        cases hcall
      | tuple hcall htail =>
        rw [amgettuple_ready, hnext] at hcall
        cases hcall
        rw [(ih hrest).mp htail]
    · rintro rfl
      exact .tuple (by rw [amgettuple_ready, hnext]) ((ih hrest).mpr rfl)

/-- A scan delivers the rows of the list `knn_build` builds. -/
theorem delivers_iff {rows : List Row} :
    Delivers pg engine scan orderBy surfRejects alwaysTrue whereQual .rescanned rows ↔
      ∃ entries, knnBuild pg engine scan orderBy surfRejects alwaysTrue = .ok entries ∧
        rows = entries.filterMap
          (fun e => executorRow pg scan whereQual (publish scan orderBy e)) := by
  cases hbuild : knnBuild pg engine scan orderBy surfRejects alwaysTrue with
  | error e =>
    have hcall : amgettuple pg engine scan orderBy surfRejects alwaysTrue .forward .rescanned =
        .error e := by
      simp [amgettuple, TreScanState.rescanned, hbuild]
    constructor
    · intro hrows
      cases hrows with
      | done h =>
        rw [hcall] at h
        cases h
      | tuple h _ =>
        rw [hcall] at h
        cases h
    · rintro ⟨entries, h, -⟩
      cases h
  | ok entries =>
    have hsame := amgettuple_rescanned hbuild
    have hready : Delivers pg engine scan orderBy surfRejects alwaysTrue whereQual .rescanned rows ↔
        Delivers pg engine scan orderBy surfRejects alwaysTrue whereQual ⟨true, entries, 0⟩ rows := by
      constructor
      · intro hrows
        cases hrows with
        | done h => exact .done (hsame ▸ h)
        | tuple h htail => exact .tuple (hsame ▸ h) htail
      · intro hrows
        cases hrows with
        | done h => exact .done (hsame.trans h)
        | tuple h htail => exact .tuple (hsame.trans h) htail
    rw [hready, delivers_ready_iff, List.drop_zero]
    simp

end

/-! ## Tables without HOT updates -/

/-- No row of the table was HOT-updated: there are no heap-only tuples and no redirecting line
pointers. -/
def Heap.NoHot (heap : Heap) : Prop :=
  ∀ page ∈ heap.pages, ∀ item ∈ page.items,
    (∀ target, item ≠ .redirect target) ∧ ∀ t, item = .normal t → t.heapOnly = false

/-- Then no tuple is heap-only. -/
theorem Heap.NoHot.heapOnly_eq {heap : Heap} (h : heap.NoHot) {tid : ItemPointer} {t : HeapTuple}
    (htuple : heap.tupleAt tid = some t) : t.heapOnly = false := by
  obtain ⟨page, hpage, hat⟩ := Heap.tupleAt_eq_some.mp htuple
  unfold HeapPage.tuple HeapPage.item at hat
  split at hat
  · rename_i t' hitem
    obtain rfl := Option.some.inj hat
    split_ifs at hitem
    exact (h page (List.mem_of_getElem? hpage) _ (List.mem_of_getElem? hitem)).2 _ rfl
  · cases hat

/-- The chain of a TID has at most the tuple there. -/
theorem Heap.NoHot.mem_hotChain_iff {heap : Heap} (h : heap.NoHot) {tid : ItemPointer}
    {v : ItemPointer × HeapTuple} :
    v ∈ heap.hotChain tid ↔ v.1 = tid ∧ heap.tupleAt tid = some v.2 := by
  constructor
  · intro hv
    have htuple := Heap.tupleAt_of_mem_hotChain hv
    obtain ⟨page, -, hmem, hblk⟩ := Heap.mem_hotChain hv
    rcases (HeapPage.mem_hotChain hmem).2 with hposid | honly
    · have htid : v.1 = tid := ItemPointer.ext hblk hposid
      rw [htid] at htuple
      exact ⟨htid, htuple⟩
    · rw [h.heapOnly_eq htuple] at honly
      cases honly
  · rintro ⟨rfl, htuple⟩
    exact Heap.mem_hotChain_self htuple (h.heapOnly_eq htuple)

section

variable {pg : HeapAm} {engine : TreEngine} {scan : KnnScan} {pat : TrePattern}

/-- The executor's fetch finds the visible tuple at the TID. -/
theorem indexFetchHeap_noHot (hhot : scan.view.heap.NoHot) {tid : ItemPointer}
    {v : ItemPointer × HeapTuple} :
    pg.indexFetchHeap scan.view.heap scan.view.snapshot tid = some v ↔
      v.1 = tid ∧ scan.view.heap.tupleAt tid = some v.2 ∧ scan.view.snapshot v.2 = true := by
  rw [HeapView.indexFetchHeap_eq_some, hhot.mem_hotChain_iff, and_assoc]

/-- Every tuple is its own root. -/
theorem rootTid_noHot (hhot : scan.view.heap.NoHot) (tid : ItemPointer) (htup : HeapTuple) :
    rootTid pg scan tid htup = tid := by
  unfold rootTid
  split_ifs
  · split
    · rfl
    · rename_i root hroot
      cases hpage : scan.view.heap.pages[tid.blkid]? with
      | none => simp [rootOffsets, hpage] at hroot
      | some page =>
        simp only [rootOffsets, hpage] at hroot
        obtain ⟨v, hv, hposid⟩ := pg.heapGetRootTuples_sound page _ _ hroot
        have hmem : (tid, v.2) ∈ scan.view.heap.hotChain (tid.setOffset root) := by
          refine Heap.mem_hotChain_setOffset hpage ?_
          rw [← hposid]
          exact hv
        exact (hhot.mem_hotChain_iff.mp hmem).1.symm
  · rfl

/-- With an index on a column, the list has the matching rows the scan looks at, in the order of
their distances and TIDs. -/
theorem knnBuild_noHot (hhot : scan.view.heap.NoHot) (hattno : scan.column.attno ≠ 0)
    (alwaysTrue : Bool) :
    ∃ es, knnBuild pg engine scan (some pat) false alwaysTrue = .ok es ∧
      es.Pairwise OrderEntry.Before ∧ ∀ e, e ∈ es ↔ ∃ tid htup, scan.Examines alwaysTrue tid htup ∧
        rowDistance engine scan.column pat htup = some e.dist ∧
        packTid scan.tidPacking tid = .ok e.packedTid := by
  cases alwaysTrue with
  | true =>
    obtain ⟨es, hes, hsorted, hmem⟩ := @knnBuild_always pg engine scan pat hattno
    refine ⟨es, hes, hsorted (rootTid_noHot hhot), fun e => ?_⟩
    rw [hmem]
    constructor
    · rintro ⟨tid, htup, htuple, hvis, hdist, hpacked⟩
      rw [rootTid_noHot hhot] at hpacked
      exact ⟨tid, htup, ⟨htuple, hvis, fun h => nomatch h⟩, hdist, hpacked⟩
    · rintro ⟨tid, htup, ⟨htuple, hvis, -⟩, hdist, hpacked⟩
      refine ⟨tid, htup, htuple, hvis, hdist, ?_⟩
      rw [rootTid_noHot hhot]
      exact hpacked
  | false =>
    obtain ⟨es, hes, hsorted, hmem⟩ := @knnBuild_candidates pg engine scan pat hattno
    refine ⟨es, hes, hsorted, fun e => ?_⟩
    rw [hmem]
    constructor
    · rintro ⟨hcand, htup, htuple, hvis, hdist⟩
      exact ⟨_, htup, ⟨htuple, hvis, fun _ => ⟨e.packedTid, hcand, rfl⟩⟩, hdist,
        packTid_unpackTid (scan.candidatesPacked _ hcand)⟩
    · rintro ⟨tid, htup, ⟨htuple, hvis, hcand⟩, hdist, hpacked⟩
      obtain ⟨packed, hmem, rfl⟩ := hcand rfl
      rw [packTid_unpackTid (scan.candidatesPacked _ hmem), Except.ok.injEq] at hpacked
      rw [← hpacked]
      exact ⟨hmem, htup, htuple, hvis, hdist⟩

end

/-! ## Answers in order -/

/-- The value of `tre_distance` by which rows are ordered, NULL last. -/
def treDistance (engine : TreEngine) (column : IndexColumn) (pat : TrePattern) (htup : HeapTuple) :
    WithTop ℤ :=
  match (column.value htup).bind (distancePattern engine pat) with
  | none => ⊤
  | some dist => dist

/-- A row of the answer: visible, and satisfying the `WHERE` clause. -/
def KnnScan.Answers (scan : KnnScan) (whereQual : HeapTuple → Bool) (row : Row) : Prop :=
  scan.view.heap.tupleAt row.1 = some row.2 ∧ scan.view.snapshot row.2 = true ∧
    whereQual row.2 = true

/-- The query extracted from the `WHERE` key is sound: the SuRF filter rejects the scan only if
there is no answer, and the candidates have all answers. -/
structure KnnScan.FilterSound (scan : KnnScan) (whereQual : HeapTuple → Bool)
    (surfRejects alwaysTrue : Bool) : Prop where
  rejects : surfRejects = true → ∀ row, ¬ scan.Answers whereQual row
  candidates : alwaysTrue = false → ∀ row, scan.Answers whereQual row →
    ∃ packed ∈ smMembers scan.candidates, packTid scan.tidPacking row.1 = .ok packed

/-- The scan returns one row before the other: its match costs less under the pattern's own
costs, or as much and its TID is smaller. -/
def KnnScan.RowBefore (scan : KnnScan) (engine : TreEngine) (pat : TrePattern) (row row' : Row) :
    Prop :=
  ∃ e e' : OrderEntry, e.Before e' ∧
    rowDistance engine scan.column pat row.2 = some e.dist ∧
    packTid scan.tidPacking row.1 = .ok e.packedTid ∧
    rowDistance engine scan.column pat row'.2 = some e'.dist ∧
    packTid scan.tidPacking row'.1 = .ok e'.packedTid

/-- Rows are never returned before each other. -/
theorem KnnScan.RowBefore.asymm {scan : KnnScan} {engine : TreEngine} {pat : TrePattern}
    {row row' : Row} (h : scan.RowBefore engine pat row row') :
    ¬ scan.RowBefore engine pat row' row := by
  rintro ⟨f', f, hbefore', hdist₂', hpacked₂', hdist₂, hpacked₂⟩
  obtain ⟨e, e', hbefore, hdist, hpacked, hdist', hpacked'⟩ := h
  rw [hdist, Option.some.injEq] at hdist₂
  rw [hdist', Option.some.injEq] at hdist₂'
  rw [hpacked, Except.ok.injEq] at hpacked₂
  rw [hpacked', Except.ok.injEq] at hpacked₂'
  unfold OrderEntry.Before at hbefore hbefore'
  omega

/-- Rows in the order of the scan are in another order exactly when that order agrees with it. -/
theorem pairwise_iff_of_rowBefore {scan : KnnScan} {engine : TreEngine} {pat : TrePattern}
    {rows : List Row} (h : rows.Pairwise (scan.RowBefore engine pat)) {R : Row → Row → Prop} :
    rows.Pairwise R ↔ ∀ row ∈ rows, ∀ row' ∈ rows, scan.RowBefore engine pat row row' → R row row' := by
  constructor
  · intro hR
    refine List.Pairwise.forall_of_forall_of_flip ?_ ?_ ?_
    · intro row _ hself
      exact absurd hself hself.asymm
    · refine hR.imp ?_
      intro row row' hrow _
      exact hrow
    · refine h.imp ?_
      intro row row' hbefore hafter
      exact absurd hafter hbefore.asymm
  · intro hall
    exact h.imp_of_mem fun hrow hrow' hbefore => hall _ hrow _ hrow' hbefore

section

variable {pg : HeapAm} {engine : TreEngine} {scan : KnnScan} {pat : TrePattern}
  {surfRejects alwaysTrue : Bool} {whereQual : HeapTuple → Bool}

/-- The rows of a scan are determined. -/
theorem Delivers.unique {orderBy : Option TrePattern} {rows rows' : List Row}
    (h : Delivers pg engine scan orderBy surfRejects alwaysTrue whereQual .rescanned rows)
    (h' : Delivers pg engine scan orderBy surfRejects alwaysTrue whereQual .rescanned rows') :
    rows = rows' := by
  obtain ⟨entries, hbuild, rfl⟩ := delivers_iff.mp h
  obtain ⟨entries', hbuild', rfl⟩ := delivers_iff.mp h'
  rw [hbuild, Except.ok.injEq] at hbuild'
  rw [hbuild']

/-- The scan looks at every row of the answer. -/
theorem KnnScan.FilterSound.examines (h : scan.FilterSound whereQual surfRejects alwaysTrue)
    {row : Row} (hrow : scan.Answers whereQual row) : scan.Examines alwaysTrue row.1 row.2 := by
  refine ⟨hrow.1, hrow.2.1, fun halways => ?_⟩
  obtain ⟨packed, hcand, hpacked⟩ := h.candidates halways row hrow
  exact ⟨packed, hcand, unpackTid_packTid hpacked⟩

/-- The executor's row for an entry of a table without HOT updates. -/
theorem executorRow_noHot (hhot : scan.view.heap.NoHot) {e : OrderEntry} {row : Row} :
    executorRow pg scan whereQual (publish scan (some pat) e) = some row ↔
      row.1 = unpackTid scan.tidPacking e.packedTid ∧ scan.Answers whereQual row := by
  unfold executorRow KnnScan.Answers
  rw [Option.filter_eq_some_iff, indexFetchHeap_noHot hhot]
  simp only [publish, Bool.not_true, Bool.false_or]
  constructor
  · rintro ⟨⟨htid, htuple, hvis⟩, hqual⟩
    rw [htid]
    exact ⟨rfl, htuple, hvis, hqual⟩
  · rintro ⟨htid, htuple, hvis, hqual⟩
    rw [htid] at htuple
    exact ⟨⟨htid, htuple, hvis⟩, hqual⟩

/-- With an index on a column, a scan delivers the rows of the answer that match the `ORDER BY`
pattern, in its own order. -/
theorem delivers_noHot (hhot : scan.view.heap.NoHot) (hattno : scan.column.attno ≠ 0)
    (hsound : scan.FilterSound whereQual false alwaysTrue) :
    ∃ rows, Delivers pg engine scan (some pat) false alwaysTrue whereQual .rescanned rows ∧
      rows.Pairwise (scan.RowBefore engine pat) ∧ ∀ row, row ∈ rows ↔
        scan.Answers whereQual row ∧ rowDistance engine scan.column pat row.2 ≠ none := by
  obtain ⟨es, hes, hsorted, hmem⟩ := @knnBuild_noHot pg engine scan pat hhot hattno alwaysTrue
  have hentry {e : OrderEntry} {row : Row} (he : e ∈ es)
      (hrow : executorRow pg scan whereQual (publish scan (some pat) e) = some row) :
      scan.Answers whereQual row ∧ rowDistance engine scan.column pat row.2 = some e.dist ∧
        packTid scan.tidPacking row.1 = .ok e.packedTid := by
    obtain ⟨htid, hanswers⟩ := (executorRow_noHot hhot).mp hrow
    obtain ⟨tid, htup, hexamines, hdist, hpacked⟩ := (hmem e).mp he
    rw [unpackTid_packTid hpacked] at htid
    have htup' : row.2 = htup := by
      have htuple := hanswers.1
      rw [htid, hexamines.1] at htuple
      exact (Option.some.inj htuple).symm
    rw [htup', htid]
    exact ⟨hanswers, hdist, hpacked⟩
  refine ⟨_, delivers_iff.mpr ⟨es, hes, rfl⟩, ?_, fun row => ?_⟩
  · rw [List.pairwise_filterMap]
    refine hsorted.imp_of_mem ?_
    intro e e' he he' hbefore row hrow row' hrow'
    obtain ⟨-, hdist, hpacked⟩ := hentry he hrow
    obtain ⟨-, hdist', hpacked'⟩ := hentry he' hrow'
    exact ⟨e, e', hbefore, hdist, hpacked, hdist', hpacked'⟩
  · rw [List.mem_filterMap]
    constructor
    · rintro ⟨e, he, hrow⟩
      obtain ⟨hanswers, hdist, -⟩ := hentry he hrow
      exact ⟨hanswers, by simp [hdist]⟩
    · rintro ⟨hanswers, hmatch⟩
      obtain ⟨dist, hdist⟩ := Option.ne_none_iff_exists'.mp hmatch
      obtain ⟨packed, hpacked⟩ := packTid_ok (Heap.posid_le hanswers.1) scan.tidPacking
      refine ⟨⟨packed, dist⟩, (hmem _).mpr ⟨row.1, row.2, hsound.examines hanswers, hdist, hpacked⟩, ?_⟩
      exact (executorRow_noHot hhot).mpr ⟨(unpackTid_packTid hpacked).symm, hanswers⟩

/-- With an index on an expression, a scan delivers something only if it looks at no row, and
then it delivers nothing. -/
theorem delivers_expression_iff (hattno : scan.column.attno = 0) {rows : List Row} :
    Delivers pg engine scan (some pat) false alwaysTrue whereQual .rescanned rows ↔
      (∀ tid htup, ¬ scan.Examines alwaysTrue tid htup) ∧ rows = [] := by
  constructor
  · intro hrows
    obtain ⟨entries, hbuild, rfl⟩ := delivers_iff.mp hrows
    have hnone : ∀ tid htup, ¬ scan.Examines alwaysTrue tid htup := by
      intro tid htup hexamines
      obtain ⟨e, he⟩ := @knnBuild_expression_error pg engine scan pat hattno _ _ _ hexamines
      rw [hbuild] at he
      cases he
    rw [knnBuild_nothing hnone, Except.ok.injEq] at hbuild
    exact ⟨hnone, by rw [← hbuild, List.filterMap_nil]⟩
  · rintro ⟨hnone, rfl⟩
    exact delivers_iff.mpr ⟨[], knnBuild_nothing hnone, rfl⟩

end

/-- For a table without HOT updates and a sound filter, an ordered scan delivers exactly the
visible rows that satisfy the `WHERE` clause, each once and in the order of `tre_distance` with
NULL last, if and only if an index on an expression looks at no row, every such row matches the
`ORDER BY` pattern, and the order by the pattern's own costs agrees with `tre_distance`. -/
theorem orderedScan_answers_iff (pg : HeapAm) (engine : TreEngine) (scan : KnnScan)
    (pat : TrePattern) (surfRejects alwaysTrue : Bool) (whereQual : HeapTuple → Bool)
    (hhot : scan.view.heap.NoHot) (hsound : scan.FilterSound whereQual surfRejects alwaysTrue) :
    (∃ rows, Delivers pg engine scan (some pat) surfRejects alwaysTrue whereQual .rescanned rows ∧
        rows.Nodup ∧ (∀ row, row ∈ rows ↔ scan.Answers whereQual row) ∧
        rows.Pairwise (fun row row' => treDistance engine scan.column pat row.2 ≤
          treDistance engine scan.column pat row'.2)) ↔
      (surfRejects = false → scan.column.attno = 0 →
        ∀ tid htup, ¬ scan.Examines alwaysTrue tid htup) ∧
      (∀ row, scan.Answers whereQual row → rowDistance engine scan.column pat row.2 ≠ none) ∧
      ∀ row row', scan.Answers whereQual row → scan.Answers whereQual row' →
        scan.RowBefore engine pat row row' →
          treDistance engine scan.column pat row.2 ≤ treDistance engine scan.column pat row'.2 := by
  cases surfRejects with
  | true =>
    have hnone := hsound.rejects rfl
    have hempty : Delivers pg engine scan (some pat) true alwaysTrue whereQual .rescanned [] :=
      delivers_iff.mpr ⟨[], rfl, rfl⟩
    constructor
    · intro _
      refine ⟨?_, fun row hrow => absurd hrow (hnone row), ?_⟩
      · intro hrejects
        cases hrejects
      · intro row _ hrow
        exact absurd hrow (hnone row)
    · intro _
      refine ⟨[], hempty, List.nodup_nil, fun row => ?_, List.Pairwise.nil⟩
      simpa using hnone row
  | false =>
    by_cases hattno : scan.column.attno = 0
    · constructor
      · rintro ⟨rows, hrows, -⟩
        have hnone := ((delivers_expression_iff hattno).mp hrows).1
        refine ⟨fun _ _ => hnone, fun row hrow => absurd (hsound.examines hrow) (hnone _ _), ?_⟩
        intro row _ hrow
        exact absurd (hsound.examines hrow) (hnone _ _)
      · rintro ⟨hnone, -⟩
        refine ⟨[], (delivers_expression_iff hattno).mpr ⟨hnone rfl hattno, rfl⟩, List.nodup_nil,
          fun row => ?_, List.Pairwise.nil⟩
        constructor
        · intro hrow
          simp at hrow
        · intro hrow
          exact absurd (hsound.examines hrow) (hnone rfl hattno _ _)
    · obtain ⟨rows, hrows, hordered, hmem⟩ := @delivers_noHot pg engine scan pat _ _ hhot hattno hsound
      constructor
      · rintro ⟨rows', hrows', -, hanswers, hsorted⟩
        obtain rfl := hrows.unique hrows'
        rw [pairwise_iff_of_rowBefore hordered] at hsorted
        refine ⟨fun _ h => absurd h hattno, ?_, ?_⟩
        · intro row hrow
          exact ((hmem row).mp ((hanswers row).mpr hrow)).2
        · intro row row' hrow hrow' hbefore
          exact hsorted row ((hanswers row).mpr hrow) row' ((hanswers row').mpr hrow') hbefore
      · rintro ⟨-, hmatch, hagree⟩
        have hanswers : ∀ row, row ∈ rows ↔ scan.Answers whereQual row := by
          intro row
          rw [hmem]
          exact ⟨And.left, fun hrow => ⟨hrow, hmatch row hrow⟩⟩
        refine ⟨rows, hrows, ?_, hanswers, ?_⟩
        · refine hordered.imp ?_
          rintro row row' hbefore rfl
          exact hbefore.asymm hbefore
        · rw [pairwise_iff_of_rowBefore hordered]
          intro row hrow row' hrow' hbefore
          exact hagree row row' ((hanswers row).mp hrow) ((hanswers row').mp hrow') hbefore

/-- The table with one row `git`, never updated, and its index. -/
def freshScan : KnnScan where
  tidPacking := .dense
  column := .column 1 Nat.one_pos
  view := {
    heap := ⟨[⟨[.normal ⟨1, 0, false, none, [some [103, 105, 116]]⟩], by decide⟩], by decide⟩
    snapshot := fun t => t.xmax == 0
    apart := by
      intro page hpage root v hv root' v' hv' _
      obtain rfl := List.mem_singleton.mp hpage
      rw [HeapPage.root_eq_one rfl hv, HeapPage.root_eq_one rfl hv']
    unique := by
      intro page hpage root v hv v' hv' _ _
      obtain rfl := List.mem_singleton.mp hpage
      obtain rfl := HeapPage.root_eq_one rfl hv
      rw [List.mem_singleton.mp hv, List.mem_singleton.mp hv'] }
  candidates := some {1}
  candidatesPacked := firstCandidate_packed
  candidatesRoots := by
    intro packed hpacked t htuple
    obtain rfl := Finset.mem_singleton.mp hpacked
    obtain rfl := Option.some.inj htuple
    rfl

/-- The clause `WHERE name %~~ tre_pattern('git', 0)`. -/
def matchesGit (htup : HeapTuple) : Bool :=
  (rowDistance literalEngine (.column 1 Nat.one_pos) gitPattern htup).isSome

/-- The row of the table. -/
def gitRow : Row :=
  (⟨0, 1, zero_lt_blkid, one_lt_posid⟩, ⟨1, 0, false, none, [some [103, 105, 116]]⟩)

/-- The pattern `xyz` with a budget of 0. -/
def xyzPattern : TrePattern := ⟨[120, 121, 122], 0, 1, 1, 1⟩

/-- No other row is visible. -/
theorem freshScan_visible {row : Row} (htuple : freshScan.view.heap.tupleAt row.1 = some row.2)
    (hvis : freshScan.view.snapshot row.2 = true) : row = gitRow := by
  have hmem := (HeapAm.reference.mem_heapScan _ _ _ _).mpr ⟨htuple, hvis⟩
  have hscan : HeapAm.reference.heapScan freshScan.view.heap freshScan.view.snapshot = [gitRow] := by
    rfl
  rw [hscan] at hmem
  exact List.mem_singleton.mp hmem

/-- The scan answers with the one row alone. -/
private theorem freshScan_answers {row : Row} (h : freshScan.Answers matchesGit row) :
    row = gitRow := freshScan_visible h.1 h.2.1

/-- The fresh page has no HOT chain. -/
private theorem freshScan_noHot : freshScan.view.heap.NoHot := by
  intro page hpage item hitem
  obtain rfl := List.mem_singleton.mp hpage
  obtain rfl := List.mem_singleton.mp hitem
  constructor
  · intro target htarget
    cases htarget
  · intro t ht
    cases ht
    rfl

/-- The row's own text passes the filter. -/
private theorem freshScan_sound : freshScan.FilterSound matchesGit false false where
  rejects := fun h => nomatch h
  candidates := fun _ row hrow => by
    obtain rfl := freshScan_answers hrow
    exact ⟨1, Finset.mem_singleton_self 1, rfl⟩

/-- TRE on a pattern of letters whose best matches substitute letters only. -/
def substitutionEngine : TreEngine := fun pattern params str =>
  let cost (i : ℕ) : ℤ :=
    params.costSubst * ((pattern.zip (str.drop i)).countP fun p => p.1 != p.2 : ℕ)
  match ((List.range (str.length + 1 - pattern.length)).map cost).min? with
  | none => none
  | some c => if c ≤ params.maxCost then some c else none

/-- The pattern `git` with a budget of 1. -/
def nearGitPattern : TrePattern := ⟨[103, 105, 116], 1, 1, 1, 1⟩

/-- A page with one row, never updated. -/
def singleRowPage (text : Text) : HeapPage where
  items := [.normal ⟨1, 0, false, none, [some text]⟩]
  fits := by simp [maxHeapTuplesPerPage]

/-- Rows `gat` and `git` on a page each. -/
def gatGitHeap : Heap where
  pages := [singleRowPage [103, 97, 116], singleRowPage [103, 105, 116]]
  fits := by simp

private theorem gatGit_page {page : HeapPage} (h : page ∈ gatGitHeap.pages) :
    page.items.length = 1 := by
  rcases List.mem_cons.mp h with rfl | h
  · rfl
  · rw [List.mem_singleton.mp h]
    rfl

/-- The table with these rows, and its index. -/
def gatGitScan : KnnScan where
  tidPacking := .dense
  column := .column 1 Nat.one_pos
  view := {
    heap := gatGitHeap
    snapshot := fun t => t.xmax == 0
    apart := by
      intro page hpage root v hv root' v' hv' _
      rw [HeapPage.root_eq_one (gatGit_page hpage) hv, HeapPage.root_eq_one (gatGit_page hpage) hv']
    unique := by
      intro page hpage root v hv v' hv' _ _
      obtain rfl := HeapPage.root_eq_one (gatGit_page hpage) hv
      rcases List.mem_cons.mp hpage with rfl | hpage
      · rw [List.mem_singleton.mp hv, List.mem_singleton.mp hv']
      · obtain rfl := List.mem_singleton.mp hpage
        rw [List.mem_singleton.mp hv, List.mem_singleton.mp hv'] }
  candidates := some {1, 293}
  candidatesPacked := by
    intro packed hpacked
    rcases Finset.mem_insert.mp hpacked with rfl | hpacked
    · exact firstCandidate_packed 1 (Finset.mem_singleton_self 1)
    · obtain rfl := Finset.mem_singleton.mp hpacked
      refine ⟨⟨1, 1, one_lt_blkid, one_lt_posid⟩, ?_⟩
      simp [packTid, denseStride, maxHeapTuplesPerPage]
  candidatesRoots := by
    intro packed hpacked t htuple
    rcases Finset.mem_insert.mp hpacked with rfl | hpacked
    · obtain rfl := Option.some.inj htuple
      rfl
    · obtain rfl := Finset.mem_singleton.mp hpacked
      obtain rfl := Option.some.inj htuple
      rfl

/-- The clause `WHERE name %~~ tre_pattern('git', 1)`. -/
def matchesNearGit (htup : HeapTuple) : Bool :=
  (rowDistance substitutionEngine (.column 1 Nat.one_pos) nearGitPattern htup).isSome

/-- The two rows. -/
def gatRow : Row := (⟨0, 1, zero_lt_blkid, one_lt_posid⟩, ⟨1, 0, false, none, [some [103, 97, 116]]⟩)
def laterGitRow : Row :=
  (⟨1, 1, one_lt_blkid, one_lt_posid⟩, ⟨1, 0, false, none, [some [103, 105, 116]]⟩)

private theorem gatGit_answers {row : Row} (h : gatGitScan.Answers matchesNearGit row) :
    row = gatRow ∨ row = laterGitRow := by
  have hmem := (HeapAm.reference.mem_heapScan _ _ _ _).mpr ⟨h.1, h.2.1⟩
  have hscan : HeapAm.reference.heapScan gatGitScan.view.heap gatGitScan.view.snapshot =
      [gatRow, laterGitRow] := by rfl
  rw [hscan] at hmem
  simpa using hmem

private theorem gatGit_noHot : gatGitScan.view.heap.NoHot := by
  intro page hpage item hitem
  have hitems : ∃ text, page.items = [.normal ⟨1, 0, false, none, [some text]⟩] := by
    rcases List.mem_cons.mp hpage with rfl | hpage
    · exact ⟨_, rfl⟩
    · rw [List.mem_singleton.mp hpage]
      exact ⟨_, rfl⟩
  obtain ⟨text, hitems⟩ := hitems
  rw [hitems] at hitem
  obtain rfl := List.mem_singleton.mp hitem
  constructor
  · intro target htarget
    cases htarget
  · intro t ht
    cases ht
    rfl

private theorem gatGit_sound : gatGitScan.FilterSound matchesNearGit false false where
  rejects := fun h => nomatch h
  candidates := fun _ row hrow => by
    rcases gatGit_answers hrow with rfl | rfl
    · exact ⟨1, Finset.mem_insert_self 1 _, rfl⟩
    · exact ⟨293, Finset.mem_insert_of_mem (Finset.mem_singleton_self 293), rfl⟩

/-- Ordered by the pattern it is filtered by, the scan delivers `git` at distance 0 and `gat` at
distance 1, and these two only. -/
theorem orderedScan_answers_gatGit :
    (∃ rows, Delivers HeapAm.reference substitutionEngine gatGitScan (some nearGitPattern) false false
        matchesNearGit .rescanned rows ∧
      rows.Nodup ∧ (∀ row, row ∈ rows ↔ gatGitScan.Answers matchesNearGit row) ∧
      rows.Pairwise (fun row row' =>
        treDistance substitutionEngine gatGitScan.column nearGitPattern row.2 ≤
          treDistance substitutionEngine gatGitScan.column nearGitPattern row'.2)) ∧
      treDistance substitutionEngine gatGitScan.column nearGitPattern gatRow.2 = (1 : ℤ) ∧
      treDistance substitutionEngine gatGitScan.column nearGitPattern laterGitRow.2 = (0 : ℤ) := by
  have hgat : rowDistance substitutionEngine gatGitScan.column nearGitPattern gatRow.2 = some 1 := by
    decide +kernel
  have hgit : rowDistance substitutionEngine gatGitScan.column nearGitPattern
      laterGitRow.2 = some 0 := by
    decide +kernel
  have hgat' : treDistance substitutionEngine gatGitScan.column nearGitPattern gatRow.2 = (1 : ℤ) := by
    rfl
  have hgit' : treDistance substitutionEngine gatGitScan.column nearGitPattern laterGitRow.2 =
      (0 : ℤ) := by rfl
  refine ⟨(orderedScan_answers_iff HeapAm.reference substitutionEngine gatGitScan nearGitPattern false
    false matchesNearGit gatGit_noHot gatGit_sound).mpr ⟨?_, ?_, ?_⟩, hgat', hgit'⟩
  · intro _ hattno
    cases hattno
  · intro row hrow
    rcases gatGit_answers hrow with rfl | rfl
    · rw [hgat]
      exact Option.some_ne_none 1
    · rw [hgit]
      exact Option.some_ne_none 0
  · intro row row' hrow hrow' hbefore
    rcases gatGit_answers hrow with rfl | rfl
    · rcases gatGit_answers hrow' with rfl | rfl
      · exact le_rfl
      · obtain ⟨e, e', hbefore, hdist, -, hdist', -⟩ := hbefore
        rw [hgat, Option.some.injEq] at hdist
        rw [hgit, Option.some.injEq] at hdist'
        unfold OrderEntry.Before at hbefore
        omega
    · rcases gatGit_answers hrow' with rfl | rfl
      · rw [hgat', hgit']
        decide
      · exact le_rfl

/-- Ordered by another pattern, which the row does not match, the scan drops it. -/
theorem freshScan_drops_row :
    freshScan.view.heap.NoHot ∧ freshScan.FilterSound matchesGit false false ∧
      freshScan.Answers matchesGit gitRow ∧
      Delivers HeapAm.reference literalEngine freshScan (some xyzPattern) false false matchesGit
        .rescanned [] := by
  have hskip : knnCandidate HeapAm.reference literalEngine freshScan (some xyzPattern) 1 =
      .ok none := by rfl
  have hcandidates : smMembers freshScan.candidates = {1} := by rfl
  have hbuild : knnBuild HeapAm.reference literalEngine freshScan (some xyzPattern) false false =
      .ok [] := by
    simp [knnBuild, hcandidates, collectEntries, hskip]
  exact ⟨freshScan_noHot, freshScan_sound, ⟨rfl, rfl, by decide +kernel⟩,
    delivers_iff.mpr ⟨[], hbuild, rfl⟩⟩

end PgTre
