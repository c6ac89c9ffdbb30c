import PgTre.Am.OrderedScan
import Mathlib.Tactic.Linarith

/-!
# The distance with and without the index

`knn_build` matches under the costs of the `ORDER BY` pattern and `pg_tre_amgettuple` publishes the
result as final, while `pg_tre_distance_pattern` always counts edits. The two agree on every text
only for unit costs, for the budget 0, which admits no edits at all, and for a negative budget that
no number of edits gets down to.
-/

namespace PgTre

open Strings

/-! ## What the scan publishes for a row -/

section

variable {pg : HeapAm} {engine : TreEngine} {scan : KnnScan} {pat : TrePattern}

/-- No chain is rooted at a heap-only tuple. -/
theorem Heap.hotChain_heapOnly {heap : Heap} {tid : ItemPointer} {t : HeapTuple}
    (htuple : heap.tupleAt tid = some t) (honly : t.heapOnly = true) : heap.hotChain tid = [] := by
  obtain ⟨page, hpage, hat⟩ := Heap.tupleAt_eq_some.mp htuple
  have hitem : page.item tid.posid = some (.normal t) := by
    unfold HeapPage.tuple at hat
    split at hat
    · rename_i hitem
      rw [hitem, Option.some.inj hat]
    · cases hat
  simp [Heap.hotChain, hpage, HeapPage.hotChain, HeapPage.chainStart, hitem, honly]

/-- A tuple is on the chain of its root, or it is a heap-only tuple without one. -/
theorem mem_hotChain_rootTid_or {tid : ItemPointer} {htup : HeapTuple}
    (htuple : scan.view.heap.tupleAt tid = some htup) :
    (tid, htup) ∈ scan.view.heap.hotChain (rootTid pg scan tid htup) ∨
      rootTid pg scan tid htup = tid ∧ htup.heapOnly = true := by
  by_cases hroot : ∀ t, scan.view.heap.tupleAt (rootTid pg scan tid htup) = some t → t.heapOnly = false
  · exact Or.inl (mem_hotChain_rootTid htuple hroot)
  · push Not at hroot
    obtain ⟨t, ht, honly⟩ := hroot
    rw [ne_eq, Bool.not_eq_false] at honly
    have hempty := Heap.hotChain_heapOnly ht honly
    by_cases hmoved : htup.heapOnly = true
    · refine Or.inr ⟨?_, hmoved⟩
      obtain ⟨page, hpage, -⟩ := Heap.tupleAt_eq_some.mp htuple
      cases hoffset : rootOffsets pg scan tid.blkid tid.posid with
      | none => rw [rootTid, if_pos hmoved, hoffset]
      | some root =>
        have hset : rootTid pg scan tid htup = tid.setOffset root := by
          rw [rootTid, if_pos hmoved, hoffset]
        rw [rootOffsets, ← Heap.page, hpage] at hoffset
        obtain ⟨v, hv, hposid⟩ := pg.heapGetRootTuples_sound page _ _ hoffset
        have hchain := @Heap.mem_hotChain_setOffset tid v.2 _ page root hpage (hposid ▸ hv)
        rw [← hset, hempty] at hchain
        cases hchain
    · have hself : rootTid pg scan tid htup = tid := by rw [rootTid, if_neg hmoved]
      rw [hself, htuple, Option.some.injEq] at ht
      exact absurd (ht ▸ honly) hmoved

/-- Two visible rows have different roots. -/
theorem rootTid_inj {tid tid' : ItemPointer} {htup htup' : HeapTuple}
    (htuple : scan.view.heap.tupleAt tid = some htup) (hvis : scan.view.snapshot htup = true)
    (htuple' : scan.view.heap.tupleAt tid' = some htup') (hvis' : scan.view.snapshot htup' = true)
    (hroot : rootTid pg scan tid htup = rootTid pg scan tid' htup') : tid = tid' := by
  rcases @mem_hotChain_rootTid_or pg _ _ _ htuple with hmem | ⟨hself, honly⟩
  · rcases @mem_hotChain_rootTid_or pg _ _ _ htuple' with hmem' | ⟨hself', honly'⟩
    · rw [hroot] at hmem
      exact (Prod.mk.inj (HeapView.eq_of_visible hmem hmem' hvis hvis')).1
    · rw [hroot, hself', Heap.hotChain_heapOnly htuple' honly'] at hmem
      cases hmem
  · rcases @mem_hotChain_rootTid_or pg _ _ _ htuple' with hmem' | ⟨hself', -⟩
    · rw [← hroot, hself, Heap.hotChain_heapOnly htuple honly] at hmem'
      cases hmem'
    · exact hself.symm.trans (hroot.trans hself')

/-- `pg_tre_amgettuple` publishes this distance for a row, as one the executor need not recheck. -/
def KnnScan.Publishes (scan : KnnScan) (pg : HeapAm) (engine : TreEngine) (pat : TrePattern)
    (alwaysTrue : Bool) (tid : ItemPointer) (htup : HeapTuple) (dist : ℤ) : Prop :=
  ∃ entries, knnBuild pg engine scan (some pat) false alwaysTrue = .ok entries ∧
    ∃ e ∈ entries, publish scan (some pat) e = ⟨rootTid pg scan tid htup, true, some dist, false⟩

/-- The tuple published for an entry, field by field. -/
theorem publish_eq_iff {e : OrderEntry} {tid : ItemPointer} {dist : ℤ} :
    publish scan (some pat) e = ⟨tid, true, some dist, false⟩ ↔
      unpackTid scan.tidPacking e.packedTid = tid ∧ e.dist = dist := by
  simp [publish]

/-- With an index on a column, the scan publishes what the match under the pattern's costs
returns. -/
theorem publishes_iff (hattno : scan.column.attno ≠ 0) {alwaysTrue : Bool} {tid : ItemPointer}
    {htup : HeapTuple} (hrow : scan.Examines alwaysTrue tid htup) {dist : ℤ} :
    scan.Publishes pg engine pat alwaysTrue tid htup dist ↔
      rowDistance engine scan.column pat htup = some dist := by
  obtain ⟨htuple, hvis, hcand⟩ := hrow
  simp only [KnnScan.Publishes, publish_eq_iff]
  cases alwaysTrue with
  | true =>
    obtain ⟨es, hes, -, hmem⟩ := @knnBuild_always pg engine scan pat hattno
    constructor
    · rintro ⟨entries, hbuild, e, he, htid, rfl⟩
      obtain rfl := Except.ok.inj (hes.symm.trans hbuild)
      obtain ⟨tid', htup', htuple', hvis', hdist, hpacked⟩ := (hmem e).mp he
      rw [unpackTid_packTid hpacked] at htid
      obtain rfl := rootTid_inj htuple' hvis' htuple hvis htid
      rw [htuple, Option.some.injEq] at htuple'
      rw [htuple', hdist]
    · intro hdist
      obtain ⟨packed, hpacked⟩ := @packTid_rootTid pg scan tid htup htuple
      exact ⟨es, hes, ⟨packed, dist⟩, (hmem _).mpr ⟨tid, htup, htuple, hvis, hdist, hpacked⟩,
        unpackTid_packTid hpacked, rfl⟩
  | false =>
    obtain ⟨es, hes, -, hmem⟩ := @knnBuild_candidates pg engine scan pat hattno
    obtain ⟨packed, hpacked, rfl⟩ := hcand rfl
    have hself : rootTid pg scan (unpackTid scan.tidPacking packed) htup =
        unpackTid scan.tidPacking packed := by
      rw [rootTid, scan.candidatesRoots packed hpacked htup htuple]
      rfl
    rw [hself]
    constructor
    · rintro ⟨entries, hbuild, e, he, htid, rfl⟩
      obtain rfl := Except.ok.inj (hes.symm.trans hbuild)
      obtain ⟨-, htup', htuple', -, hdist⟩ := (hmem e).mp he
      rw [htid, htuple, Option.some.injEq] at htuple'
      rw [htuple', hdist]
    · intro hdist
      exact ⟨es, hes, ⟨packed, dist⟩, (hmem _).mpr ⟨hpacked, htup, htuple, hvis, hdist⟩, rfl, rfl⟩

end

/-! ## Agreement on every row -/

/-- For every row that an ordered scan looks at, the scan publishes a distance exactly when
`pg_tre_distance_pattern` returns it. An index on an expression is left out: it measures no row. -/
def DistanceAgrees (pg : HeapAm) (engine : TreEngine) (pat : TrePattern) : Prop :=
  ∀ (scan : KnnScan) (alwaysTrue : Bool) (tid : ItemPointer) (htup : HeapTuple),
    scan.column.attno ≠ 0 → scan.Examines alwaysTrue tid htup → ∀ dist,
      scan.Publishes pg engine pat alwaysTrue tid htup dist ↔
        (scan.column.value htup).bind (distancePattern engine pat) = some dist

/-- The tuple of a table with one row. -/
def oneRowTuple (body : Text) : HeapTuple := ⟨1, 0, false, none, [some body]⟩

/-- A scan of the table with one row, never updated, whose index has no candidates. -/
def oneRowScan (body : Text) : KnnScan where
  tidPacking := .dense
  column := .column 1 Nat.one_pos
  view := {
    heap := ⟨[⟨[.normal (oneRowTuple body)], by simp [maxHeapTuplesPerPage]⟩], by simp⟩
    snapshot := fun t => t.xmax == 0
    apart := by
      intro page hpage root v hv root' v' hv' _
      obtain rfl := List.mem_singleton.mp hpage
      rw [HeapPage.root_eq_one rfl hv, HeapPage.root_eq_one rfl hv']
    unique := by
      intro page hpage root v hv v' hv' _ _
      obtain rfl := List.mem_singleton.mp hpage
      obtain rfl := HeapPage.root_eq_one rfl hv
      rw [List.mem_singleton.mp hv, List.mem_singleton.mp hv'] }
  candidates := none
  candidatesPacked := by simp [smMembers]
  candidatesRoots := by simp [smMembers]

/-- Its index is on a column. -/
theorem oneRowScan_attno (body : Text) : (oneRowScan body).column.attno ≠ 0 := Nat.one_ne_zero

/-- The scan looks at its row when the index cannot filter. -/
theorem oneRowScan_examines (body : Text) :
    (oneRowScan body).Examines true ⟨0, 1, by decide, by decide⟩ (oneRowTuple body) := by
  refine ⟨rfl, rfl, fun h => ?_⟩
  cases h

section

variable {pg : HeapAm} {engine : TreEngine} {pat : TrePattern}

/-- The distances agree on rows when the two matches agree on texts. -/
theorem distanceAgrees_iff :
    DistanceAgrees pg engine pat ↔ ∀ body,
      treDoMatch engine pat.pattern body pat.maxCost pat.costIns pat.costDel pat.costSubst
        int32Max int32Max int32Max int32Max = distancePattern engine pat body := by
  constructor
  · intro hagrees body
    ext dist
    have hrow := oneRowScan_examines body
    have hattno := oneRowScan_attno body
    exact (publishes_iff hattno hrow).symm.trans (hagrees _ _ _ _ hattno hrow dist)
  · intro hsame scan alwaysTrue tid htup hattno hrow dist
    rw [publishes_iff hattno hrow, rowDistance]
    cases scan.column.value htup with
    | none => rfl
    | some body => rw [Option.bind_some, Option.bind_some, hsame]

end

/-! ## Costs of the matches -/

/-- The limit on each number of edits that `tre_do_match` derives from the budget. -/
def editLimit (maxCost : ℤ) : ℤ :=
  if 0 ≤ maxCost ∧ maxCost ≠ int32Max ∧ maxCost < int32Max then maxCost else int32Max

/-- The parameters `tre_do_match` passes to TRE for a pattern. -/
def patternParams (maxCost costIns costDel costSubst : ℤ) : RegaParams :=
  ⟨costIns, costDel, costSubst, maxCost, editLimit maxCost, editLimit maxCost, editLimit maxCost,
    editLimit maxCost⟩

section

variable {engine : TreEngine} {reading : TreReading} {maxCost costIns costDel costSubst : ℤ}

/-- The numbers of edits that a pattern's parameters admit. -/
theorem patternParams_admits_iff {i d s : ℕ} :
    (patternParams maxCost costIns costDel costSubst).Admits i d s ↔
      (i + d + s : ℤ) ≤ editLimit maxCost ∧ costIns * i + costDel * d + costSubst * s ≤ maxCost := by
  constructor
  · intro hadmits
    exact ⟨hadmits.err, hadmits.cost⟩
  · rintro ⟨herr, hcost⟩
    refine ⟨?_, ?_, ?_, herr, hcost⟩ <;> dsimp only [patternParams] <;> omega

/-- Letters between `^` and `$` cost what their alignments with the whole text cost. -/
theorem mem_costs_anchored {cs : Text} (hcs : ∀ c ∈ cs, 97 ≤ c ∧ c ≤ 122) {params : RegaParams}
    {str : Text} {c : ℤ} :
    c ∈ reading.costs (94 :: (cs ++ [36])) params str ↔
      ∃ i d s, Aligned i d s cs str ∧ params.Admits i d s ∧ params.cost i d s = c := by
  constructor
  · rintro ⟨pre, u, post, w, i, d, s, hstr, hlang, haligned, hadmits, hcost⟩
    obtain ⟨rfl, rfl, rfl⟩ := (reading.anchored cs hcs pre w post).mp hlang
    rw [List.nil_append, List.append_nil] at hstr
    exact ⟨i, d, s, hstr ▸ haligned, hadmits, hcost⟩
  · rintro ⟨i, d, s, haligned, hadmits, hcost⟩
    refine ⟨[], str, [], cs, i, d, s, by simp, ?_, haligned, hadmits, hcost⟩
    exact (reading.anchored cs hcs _ _ _).mpr ⟨rfl, rfl, rfl⟩

/-- A run of `a` between `^` and `$` against a run of `b`: no letter is kept. -/
theorem mem_costs_run {m n : ℕ} {params : RegaParams} {c : ℤ} :
    c ∈ reading.costs (94 :: (List.replicate m 97 ++ [36])) params (List.replicate n 98) ↔
      ∃ i d s, d + s = m ∧ s + i = n ∧ params.Admits i d s ∧ params.cost i d s = c := by
  have hletters : ∀ c ∈ List.replicate m (97 : CodePoint), 97 ≤ c ∧ c ≤ 122 := by
    intro c hc
    rw [List.eq_of_mem_replicate hc]
    decide
  rw [mem_costs_anchored hletters]
  constructor
  · rintro ⟨i, d, s, haligned, hadmits, hcost⟩
    obtain ⟨hm, hn⟩ := haligned.of_replicate (by decide)
    exact ⟨i, d, s, hm, hn, hadmits, hcost⟩
  · rintro ⟨i, d, s, rfl, rfl, hadmits, hcost⟩
    exact ⟨i, d, s, aligned_replicate (by decide) i d s, hadmits, hcost⟩

/-- The budget 0 admits no edits, and then the costs do not matter. -/
theorem costs_of_budget_zero {pattern str : Text} :
    reading.costs pattern (patternParams 0 costIns costDel costSubst) str =
      reading.costs pattern (patternParams 0 1 1 1) str := by
  have hlimit : editLimit 0 = 0 := by decide
  have hzero {ci cd cs : ℤ} {i d s : ℕ} : (patternParams 0 ci cd cs).Admits i d s ↔
      i = 0 ∧ d = 0 ∧ s = 0 := by
    rw [patternParams_admits_iff, hlimit]
    constructor
    · rintro ⟨herr, -⟩
      omega
    · rintro ⟨rfl, rfl, rfl⟩
      simp
  ext c
  unfold TreReading.costs RegaParams.cost
  simp only [Set.mem_ofPred_eq, hzero]
  constructor
  · rintro ⟨pre, u, post, w, i, d, s, hstr, hlang, haligned, ⟨rfl, rfl, rfl⟩, rfl⟩
    exact ⟨pre, u, post, w, 0, 0, 0, hstr, hlang, haligned, ⟨rfl, rfl, rfl⟩, by simp⟩
  · rintro ⟨pre, u, post, w, i, d, s, hstr, hlang, haligned, ⟨rfl, rfl, rfl⟩, rfl⟩
    exact ⟨pre, u, post, w, 0, 0, 0, hstr, hlang, haligned, ⟨rfl, rfl, rfl⟩, by simp⟩

/-- A negative budget that even `int32Max` of the cheapest edits do not get down to admits no
match. -/
theorem costs_of_budget_unreachable {pattern str : Text} (hneg : maxCost < 0)
    (hlow : maxCost < int32Max * min 0 (min costIns (min costDel costSubst))) :
    reading.costs pattern (patternParams maxCost costIns costDel costSubst) str = ∅ := by
  rw [Set.eq_empty_iff_forall_notMem]
  rintro c ⟨-, -, -, -, i, d, s, -, -, -, hadmits, -⟩
  obtain ⟨herr, hcost⟩ := patternParams_admits_iff.mp hadmits
  have hlimit : editLimit maxCost = int32Max := by
    rw [editLimit, if_neg (by omega)]
  rw [hlimit] at herr
  generalize hleast : min 0 (min costIns (min costDel costSubst)) = least at hlow
  have hins : least * i ≤ costIns * i := by
    apply mul_le_mul_of_nonneg_right <;> omega
  have hdel : least * d ≤ costDel * d := by
    apply mul_le_mul_of_nonneg_right <;> omega
  have hsubst : least * s ≤ costSubst * s := by
    apply mul_le_mul_of_nonneg_right <;> omega
  have hall : int32Max * least ≤ (i + d + s : ℤ) * least := by
    apply mul_le_mul_of_nonpos_right herr
    omega
  linarith

/-- Some numbers of edits, `int32Max` in all, are all of the cheapest kind. -/
theorem exists_cheapest_edits (hleast : min 0 (min costIns (min costDel costSubst)) < 0) :
    ∃ i d s : ℕ, (i + d + s : ℤ) = int32Max ∧ costIns * i + costDel * d + costSubst * s =
      int32Max * min 0 (min costIns (min costDel costSubst)) := by
  have hmax : ((2 ^ 31 - 1 : ℕ) : ℤ) = int32Max := by decide
  rcases (by omega : min 0 (min costIns (min costDel costSubst)) = costIns ∨
      min 0 (min costIns (min costDel costSubst)) = costDel ∨
      min 0 (min costIns (min costDel costSubst)) = costSubst) with hins | hdel | hsubst
  · refine ⟨2 ^ 31 - 1, 0, 0, by rw [← hmax]; simp, ?_⟩
    rw [hins, hmax, mul_comm int32Max]
    simp
  · refine ⟨0, 2 ^ 31 - 1, 0, by rw [← hmax]; simp, ?_⟩
    rw [hdel, hmax, mul_comm int32Max]
    simp
  · refine ⟨0, 0, 2 ^ 31 - 1, by rw [← hmax]; simp, ?_⟩
    rw [hsubst, hmax, mul_comm int32Max]
    simp

/-- With a positive budget each kind of edit shows its cost on a short text. -/
theorem unit_of_agree (hmin : engine.Minimal reading) (hpos : 0 < maxCost)
    (hagree : ∀ pattern str, engine pattern (patternParams maxCost costIns costDel costSubst) str =
      engine pattern (patternParams maxCost 1 1 1) str) :
    costIns = 1 ∧ costDel = 1 ∧ costSubst = 1 := by
  have hlimit : 1 ≤ editLimit maxCost := by
    have hmax : 1 ≤ int32Max := by decide
    unfold editLimit
    split_ifs <;> omega
  -- the unit costs of a run of at most one letter against another
  have hone {m n : ℕ} (i d s : ℕ) (hm : d + s = m) (hn : s + i = n) (hsum : i + d + s = 1) :
      ∃ i d s : ℕ, d + s = m ∧ s + i = n ∧ costIns * i + costDel * d + costSubst * s = 1 := by
    have hleast : IsLeast (reading.costs (94 :: (List.replicate m 97 ++ [36]))
        (patternParams maxCost 1 1 1) (List.replicate n 98)) 1 := by
      constructor
      · refine mem_costs_run.mpr ⟨i, d, s, hm, hn, patternParams_admits_iff.mpr ⟨?_, ?_⟩, ?_⟩
        · omega
        · omega
        · dsimp only [RegaParams.cost, patternParams]
          omega
      · intro c hc
        obtain ⟨i', d', s', hm', hn', -, rfl⟩ := mem_costs_run.mp hc
        dsimp only [RegaParams.cost, patternParams]
        omega
    have hresult := (hmin _ _ _ _).mpr hleast
    rw [← hagree] at hresult
    obtain ⟨i', d', s', hm', hn', -, hcost⟩ := mem_costs_run.mp ((hmin _ _ _ _).mp hresult).1
    exact ⟨i', d', s', hm', hn', hcost⟩
  have hdel : costDel = 1 := by
    obtain ⟨i, d, s, hm, hn, hcost⟩ := hone 0 1 0 rfl rfl rfl
    obtain ⟨rfl, rfl, rfl⟩ : i = 0 ∧ d = 1 ∧ s = 0 := by omega
    simpa using hcost
  have hins : costIns = 1 := by
    obtain ⟨i, d, s, hm, hn, hcost⟩ := hone 1 0 0 rfl rfl rfl
    obtain ⟨rfl, rfl, rfl⟩ : i = 1 ∧ d = 0 ∧ s = 0 := by omega
    simpa using hcost
  refine ⟨hins, hdel, ?_⟩
  obtain ⟨i, d, s, hm, hn, hcost⟩ := hone 0 0 1 rfl rfl rfl
  subst hins hdel
  obtain ⟨rfl, rfl, rfl⟩ | ⟨rfl, rfl, rfl⟩ : (i = 0 ∧ d = 0 ∧ s = 1) ∨ (i = 1 ∧ d = 1 ∧ s = 0) := by
    omega
  · simpa using hcost
  · norm_num at hcost

/-- With a negative budget the unit costs never match, so the pattern's must not either. -/
theorem unreachable_of_agree (hmin : engine.Minimal reading) (hneg : maxCost < 0)
    (hagree : ∀ pattern str, engine pattern (patternParams maxCost costIns costDel costSubst) str =
      engine pattern (patternParams maxCost 1 1 1) str) :
    maxCost < int32Max * min 0 (min costIns (min costDel costSubst)) := by
  by_contra hlow
  rw [not_lt] at hlow
  have hleast : min 0 (min costIns (min costDel costSubst)) < 0 := by
    by_contra hnonneg
    have hzero : min 0 (min costIns (min costDel costSubst)) = 0 := by omega
    rw [hzero, mul_zero] at hlow
    omega
  obtain ⟨i, d, s, hsum, hcost⟩ := exists_cheapest_edits hleast
  have hlimit : editLimit maxCost = int32Max := by
    rw [editLimit, if_neg (by omega)]
  have hmem : costIns * i + costDel * d + costSubst * s ∈
      reading.costs (94 :: (List.replicate (d + s) 97 ++ [36]))
        (patternParams maxCost costIns costDel costSubst) (List.replicate (s + i) 98) := by
    refine mem_costs_run.mpr ⟨i, d, s, rfl, rfl, patternParams_admits_iff.mpr ⟨?_, ?_⟩, rfl⟩
    · omega
    · omega
  have hnone := hmin.eq_none_iff.mpr (@costs_of_budget_unreachable reading maxCost 1 1 1
    (94 :: (List.replicate (d + s) 97 ++ [36])) (List.replicate (s + i) 98) hneg (by simpa using hneg))
  rw [← hagree, hmin.eq_none_iff] at hnone
  rw [hnone] at hmem
  exact Set.notMem_empty _ hmem

end

/-- TRE returning least costs, the scan and the operator measure every row of every pattern with
this budget and these costs alike if and only if the costs are all 1, the budget is 0, or the
budget is negative and so small that no match reaches it. -/
theorem distanceAgrees_forall_iff (pg : HeapAm) (engine : TreEngine) (reading : TreReading)
    (hmin : engine.Minimal reading) (maxCost costIns costDel costSubst : ℤ) :
    (∀ pattern, DistanceAgrees pg engine ⟨pattern, maxCost, costIns, costDel, costSubst⟩) ↔
      (costIns = 1 ∧ costDel = 1 ∧ costSubst = 1) ∨ maxCost = 0 ∨
        maxCost < 0 ∧ maxCost < int32Max * min 0 (min costIns (min costDel costSubst)) := by
  have hparams : (∀ pattern, DistanceAgrees pg engine ⟨pattern, maxCost, costIns, costDel, costSubst⟩) ↔
      ∀ pattern str, engine pattern (patternParams maxCost costIns costDel costSubst) str =
        engine pattern (patternParams maxCost 1 1 1) str := by
    simp only [distanceAgrees_iff]
    rfl
  rw [hparams]
  constructor
  · intro hagree
    rcases lt_trichotomy maxCost 0 with hneg | hzero | hpos
    · exact Or.inr (Or.inr ⟨hneg, unreachable_of_agree hmin hneg hagree⟩)
    · exact Or.inr (Or.inl hzero)
    · exact Or.inl (unit_of_agree hmin hpos hagree)
  · rintro (⟨rfl, rfl, rfl⟩ | rfl | ⟨hneg, hlow⟩) pattern str
    · rfl
    · exact hmin.congr costs_of_budget_zero
    · apply hmin.congr
      rw [costs_of_budget_unreachable hneg hlow]
      rw [costs_of_budget_unreachable hneg (by simpa using hneg)]

/-! ## A weighted deletion -/

/-- The reading of patterns of small letters between `^` and `$`; other patterns match nothing. -/
def anchoredReading : TreReading where
  lang := fun pattern pre w post =>
    pattern = 94 :: (w ++ [36]) ∧ (∀ c ∈ w, 97 ≤ c ∧ c ≤ 122) ∧ pre = [] ∧ post = []
  anchored := by
    intro cs hcs pre w post
    constructor
    · rintro ⟨hpattern, -, rfl, rfl⟩
      refine ⟨rfl, ?_, rfl⟩
      exact (List.append_cancel_right (List.cons.inj hpattern).2).symm
    · rintro ⟨rfl, rfl, rfl⟩
      exact ⟨rfl, hcs, rfl, rfl⟩

open Classical in
/-- The engine that returns the least cost under a reading. -/
noncomputable def TreReading.engine (reading : TreReading) : TreEngine := fun pattern params str =>
  if h : ∃ c, IsLeast (reading.costs pattern params str) c then some h.choose else none

/-- It is minimal. -/
theorem TreReading.engine_minimal (reading : TreReading) : reading.engine.Minimal reading := by
  intro pattern params str c
  unfold TreReading.engine
  split_ifs with h
  · rw [Option.some.injEq]
    constructor
    · rintro rfl
      exact h.choose_spec
    · intro hleast
      exact h.choose_spec.unique hleast
  · constructor
    · intro hnone
      cases hnone
    · intro hleast
      exact absurd ⟨c, hleast⟩ h

/-- With unit costs and a budget of 2 the scan and the operator agree on `^a$`. -/
theorem distanceAgrees_unit :
    DistanceAgrees HeapAm.reference anchoredReading.engine ⟨[94, 97, 36], 2, 1, 1, 1⟩ :=
  (distanceAgrees_forall_iff HeapAm.reference anchoredReading.engine anchoredReading
    anchoredReading.engine_minimal 2 1 1 1).mpr (Or.inl ⟨rfl, rfl, rfl⟩) _

/-- The least cost of `^a$` in the empty text is that of the deletion of `a`. -/
theorem isLeast_deletion {maxCost costIns costDel costSubst : ℤ} (hdel : costDel ≤ maxCost)
    (hpos : 0 < maxCost) :
    IsLeast (anchoredReading.costs [94, 97, 36] (patternParams maxCost costIns costDel costSubst) [])
      costDel := by
  have hlimit : 1 ≤ editLimit maxCost := by
    have hmax : 1 ≤ int32Max := by decide
    unfold editLimit
    split_ifs <;> omega
  constructor
  · refine (@mem_costs_run anchoredReading 1 0 _ _).mpr
      ⟨0, 1, 0, rfl, rfl, patternParams_admits_iff.mpr ⟨?_, ?_⟩, ?_⟩
    · simpa using hlimit
    · simpa using hdel
    · simp [RegaParams.cost, patternParams]
  · intro c hc
    obtain ⟨i, d, s, hm, hn, -, rfl⟩ := (@mem_costs_run anchoredReading 1 0 _ _).mp hc
    obtain ⟨rfl, rfl, rfl⟩ : i = 0 ∧ d = 1 ∧ s = 0 := by omega
    simp [RegaParams.cost, patternParams]

/-- With deletions at a cost of 2 the scan publishes 2 for a row with the empty text, where the
operator returns 1. -/
theorem weightedDeletion_disagrees :
    anchoredReading.engine.Minimal anchoredReading ∧
      (oneRowScan []).Examines true ⟨0, 1, by decide, by decide⟩ (oneRowTuple []) ∧
      (oneRowScan []).Publishes HeapAm.reference anchoredReading.engine ⟨[94, 97, 36], 2, 1, 2, 1⟩
        true ⟨0, 1, by decide, by decide⟩ (oneRowTuple []) 2 ∧
      distancePattern anchoredReading.engine ⟨[94, 97, 36], 2, 1, 2, 1⟩ [] = some 1 := by
  refine ⟨anchoredReading.engine_minimal, oneRowScan_examines [], ?_, ?_⟩
  · refine (publishes_iff (oneRowScan_attno []) (oneRowScan_examines [])).mpr ?_
    exact (anchoredReading.engine_minimal _ _ _ _).mpr (isLeast_deletion le_rfl (by decide))
  · exact (anchoredReading.engine_minimal _ _ _ _).mpr (isLeast_deletion (by decide) (by decide))

end PgTre
