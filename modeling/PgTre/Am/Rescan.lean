import PgTre.Query.LikeTranslate
import PgTre.Query.BracketReadings
import PgTre.Am.StoredIndex
import PgTre.Am.DistanceAgreement
import PgTre.Am.SurfFlag

/-!
# Rescans

A nested loop rescans the index for every outer row. `pg_tre_amrescan` empties the scan state and
builds the trigram query of the first `WHERE` key anew, and the passes that follow read only what it
left. The executor rechecks all keys. So a scan answers by its latest keys, whatever went before. But
the key's argument is read without a look at `SK_ISNULL`.
-/

namespace PgTre

open Strings

/-! ## Keys -/

/-- The strategies of `WHERE` keys. -/
inductive Strategy where
  | approxMatch
  | like
  | ilike
  | regex
  | iregex
  | equal
  deriving DecidableEq

/-- A value of type `text`. It has no NUL, so that `strlen` is its length. -/
structure TextDatum (enc : Encoding) where
  bytes : List UInt8
  valid : enc.Valid bytes
  noNul : 0 ∉ bytes

/-- `TrePatternData`. -/
structure TrePatternData (enc : Encoding) where
  text : TextDatum enc
  maxCost : ℤ
  costIns : ℤ
  costDel : ℤ
  costSubst : ℤ

/-- The type on the right of a strategy's operator. -/
def Strategy.Argument (enc : Encoding) : Strategy → Type
  | .approxMatch => TrePatternData enc
  | _ => TextDatum enc

/-- `ScanKeyData`. A key flagged `SK_ISNULL` has no argument. -/
structure ScanKey (enc : Encoding) where
  strategy : Strategy
  argument : Option (strategy.Argument enc)

section

variable {enc : Encoding}

/-- The regular expression `pg_tre_amrescan` makes of an argument, and the edit budget. -/
def Strategy.pattern : (strategy : Strategy) → strategy.Argument enc → List UInt8 × ℤ
  | .approxMatch, pat => (TextDatum.bytes (TrePatternData.text pat), TrePatternData.maxCost pat)
  | .like, rhs => (likeToRegex (byte '\\') (TextDatum.bytes rhs), 0)
  | .ilike, rhs => (likeToRegex (byte '\\') (TextDatum.bytes rhs), 0)
  | .regex, rhs => (TextDatum.bytes rhs, 0)
  | .iregex, rhs => (TextDatum.bytes rhs, 0)
  | .equal, rhs => (literalToRegex (TextDatum.bytes rhs), 0)

/-- The strategies that compare without regard to case. -/
def Strategy.ignoresCase : Strategy → Bool
  | .ilike => true
  | .iregex => true
  | _ => false

/-- The pattern is text of the encoding. -/
theorem Strategy.pattern_valid (strategy : Strategy) (a : strategy.Argument enc) :
    enc.Valid (strategy.pattern a).1 := by
  cases strategy with
  | approxMatch => exact (TrePatternData.text a).valid
  | like => exact likeToRegex_valid (by decide) (TextDatum.valid a)
  | ilike => exact likeToRegex_valid (by decide) (TextDatum.valid a)
  | regex => exact TextDatum.valid a
  | iregex => exact TextDatum.valid a
  | equal => exact literalToRegex_valid (TextDatum.valid a)

/-- The query of an argument. A pattern the parser does not accept has no trigrams. -/
def Strategy.query (s : Settings) (strategy : Strategy) (a : strategy.Argument enc) :
    Except PgError TrigramQuery :=
  match treParseRegex enc (strategy.pattern a).1 with
  | .error (.raised e) => .error e
  | .error (.syntaxError _) =>
      .ok { TrigramQuery.zero with
        alwaysTrue := true, globalMaxCost := (strategy.pattern a).2, mode := .cnf }
  | .ok (root, forceAlwaysTrue) =>
      match regexExtractQuery s root (strategy.pattern a).2 with
      | .error e => .error e
      | .ok q =>
          .ok (if strategy.ignoresCase || forceAlwaysTrue then { q with alwaysTrue := true } else q)

/-! ## The scan state -/

/-- What ends a scan early: an error, or the access to an argument that is not there. -/
inductive ScanFault where
  | raised (e : PgError)
  | missingArgument
  deriving DecidableEq

/-- The scan descriptor and its `TreScanState`. The parse context is written and read within one
rescan. -/
structure ScanState (enc : Encoding) where
  keyData : List (ScanKey enc)
  q : TrigramQuery
  queryValid : Bool
  knn : TreScanState

/-- `pg_tre_ambeginscan`. -/
def ScanState.begun : ScanState enc := ⟨[], .zero, false, .rescanned⟩

/-- `pg_tre_amrescan` of a scan without `ORDER BY`. -/
def amrescan (s : Settings) (st : ScanState enc) (keys : List (ScanKey enc)) :
    Except ScanFault (ScanState enc) :=
  let st := { st with keyData := keys, queryValid := false, knn := .rescanned }
  match st.keyData with
  | [] => .error (.raised ⟨"pg_tre: scan requires at least one key or ORDER BY"⟩)
  | sk :: _ =>
      match sk.argument with
      | none => .error .missingArgument
      | some a =>
          match sk.strategy.query s a with
          | .error e => .error (.raised e)
          | .ok q => .ok { st with q := q, queryValid := true }

end

/-! ## Passes -/

/-- What a pass reads: the index with the leaves of its postings, the table under the snapshot, and the
SuRF filter. It gets the memory it asks for. -/
structure ScanPass where
  idx : StoredIndex
  column : IndexColumn
  view : HeapView
  world : SurfWorld
  surfRead : BlockNumber → Option (ℕ → ℕ → Bool)
  runs : world.idx = idx.toRunIndex
  rangesCover : idx.RangesCover
  /-- A visible version is on a chain. -/
  rooted : ∀ tid t, view.heap.tupleAt tid = some t → view.snapshot t = true →
    ∃ root, (tid, t) ∈ view.heap.hotChain root
  /-- The index stores packed TIDs. -/
  packed : ∀ h tid, idx.Finds h tid → Packed idx.tidPacking tid
  /-- It stores the TIDs of chain roots, never that of a heap-only tuple. -/
  roots : ∀ h tid, idx.Finds h tid → ∀ t,
    view.heap.tupleAt (unpackTid idx.tidPacking tid) = some t → t.heapOnly = false
  /-- It has the trigrams of a visible version under the root. -/
  indexed : ∀ root, ∀ row ∈ view.heap.hotChain root, view.snapshot row.2 = true →
    ∀ body, column.value row.2 = some body →
      ∃ tid, packTid idx.tidPacking root = .ok tid ∧ ∀ h, HasTrigram body h → idx.Finds h tid
  /-- A scan that the filter rejects asks for keys that no visible row has. -/
  surf : ∀ q lo hi, world.surfPrefilterRejects q surfRead = true → q.surfRange = some (lo, hi) →
    ∀ tid t, view.heap.tupleAt tid = some t → view.snapshot t = true →
      ∀ body, column.value t = some body →
        ∀ w ∈ windows body, ¬ (lo ≤ trigramKeyCp w ∧ trigramKeyCp w ≤ hi)

/-- The candidates, if there is no error. -/
def candidateSm (idx : ScanIndex) (q : TrigramQuery) : Sm :=
  match treComputeCandidateSm idx q with
  | .error _ => none
  | .ok (sm, _) => sm

/-- What conjoining maps leaves is in one of them. -/
theorem exists_mem_of_mem_smConjoin {maps : List Sm} {tid : ℕ}
    (h : tid ∈ smMembers (smConjoin maps none)) : ∃ m ∈ maps, tid ∈ smMembers m := by
  cases maps with
  | nil => simp [smConjoin] at h
  | cons m maps => exact ⟨m, List.mem_cons_self, (mem_smConjoin (by simp)).mp h m List.mem_cons_self⟩

/-- A candidate is in the index under a trigram of the query. -/
theorem finds_of_mem_candidateSm {idx : ScanIndex} (hcover : idx.RangesCover) {q : TrigramQuery}
    {tid : ℕ} (h : tid ∈ smMembers (candidateSm idx q)) : ∃ x, idx.Finds x tid := by
  obtain ⟨ov, hok, hov⟩ := overlayBuild_spec idx q
  have hconjunct {conj : TrigramConjunct} (hlists : ∀ a ∈ conj.alts, q.Lists a.trigramHash)
      (hmem : tid ∈ smMembers (resolveConjunctWithOverlay idx ov conj)) : ∃ x, idx.Finds x tid := by
    obtain ⟨a, ha, hfound⟩ := (mem_resolveConjunct hcover).mp hmem
    rw [hov a.trigramHash (hlists a ha)] at hfound
    exact ⟨a.trigramHash, hfound⟩
  cases htrue : q.alwaysTrue with
  | true => simp [candidateSm, treComputeCandidateSm, htrue] at h
  | false =>
    simp only [candidateSm, treComputeCandidateSm, htrue, hok, Bool.false_eq_true, if_false] at h
    cases hmode : q.mode with
    | cnf =>
      simp only [hmode] at h
      obtain ⟨m, hm, htid⟩ := exists_mem_of_mem_smConjoin h
      obtain ⟨conj, hconj, rfl⟩ := List.mem_map.mp hm
      exact hconjunct (fun a ha => ⟨conj, hconj, a, ha, rfl⟩) htid
    | dnf =>
      simp only [hmode] at h
      obtain ⟨tile, htile, a, ha, hbase | hpending⟩ := mem_dnfArm.mp h
      · exact ⟨a.trigramHash, Or.inl (RunIndex.holds_iff.mpr (Or.inl hbase))⟩
      · rw [hov a.trigramHash ⟨tile, htile, a, ha, rfl⟩] at hpending
        exact ⟨a.trigramHash, Or.inr hpending⟩
    | pieces =>
      simp only [hmode] at h
      cases hunite : smUnitePieces (q.conjuncts.map fun piece =>
          smConjoin (piece.alts.map fun a => resolveConjunctWithOverlay idx ov ⟨[a]⟩) none) none with
      | error e => simp [hunite] at h
      | ok sm =>
        simp only [hunite] at h
        rcases (mem_smUnitePieces hunite).mp h with hnone | ⟨m, hm, htid⟩
        · simp at hnone
        · obtain ⟨piece, hpiece, rfl⟩ := List.mem_map.mp hm
          obtain ⟨m', hm', htid'⟩ := exists_mem_of_mem_smConjoin htid
          obtain ⟨a, ha, rfl⟩ := List.mem_map.mp hm'
          refine hconjunct (fun a' ha' => ?_) htid'
          rw [List.mem_singleton.mp ha']
          exact ⟨piece, hpiece, a, ha, rfl⟩

/-- What `knn_build` reads in a pass. -/
def ScanPass.knnScan (pass : ScanPass) (q : TrigramQuery) : KnnScan where
  tidPacking := pass.idx.tidPacking
  column := pass.column
  view := pass.view
  candidates := candidateSm pass.idx.asRead q
  candidatesPacked := by
    intro tid htid
    obtain ⟨h, hfinds⟩ := finds_of_mem_candidateSm (rangesCover_asRead pass.rangesCover) htid
    exact pass.packed h tid (finds_of_asRead hfinds)
  candidatesRoots := by
    intro tid htid
    obtain ⟨h, hfinds⟩ := finds_of_mem_candidateSm (rangesCover_asRead pass.rangesCover) htid
    exact pass.roots h tid (finds_of_asRead hfinds)

/-- A `TIDBitmap`: whole blocks, and single TIDs. -/
structure TidBitmap where
  blocks : List BlockNumber
  tids : List ItemPointer

section

variable {enc : Encoding} (pg : HeapAm) (engine : TreEngine) (pass : ScanPass)

/-- `pg_tre_amgetbitmap`, with the number it returns. -/
def amgetbitmap (st : ScanState enc) : Except PgError (TidBitmap × ℕ) :=
  if st.queryValid = false then .error ⟨"pg_tre: amgetbitmap called without amrescan"⟩
  else if pass.world.surfPrefilterRejects st.q pass.surfRead then .ok (⟨[], []⟩, 0)
  else if st.q.alwaysTrue then
    .ok (⟨List.range pass.view.heap.pages.length, []⟩, pass.view.heap.pages.length)
  else
    match treComputeCandidateSm pass.idx.asRead st.q with
    | .error e => .error e
    | .ok (sm, _) =>
        .ok (⟨[], ((smMembers sm).sort (· ≤ ·)).map (unpackTid pass.idx.tidPacking)⟩,
          (smMembers sm).card)

/-- `tbm_lossify`: blocks stand in for their TIDs when the bitmap has grown too large. -/
def TidBitmap.lossify (tbm : TidBitmap) (lossy : BlockNumber → Bool) : TidBitmap where
  blocks := tbm.blocks ++ (tbm.tids.map ItemPointer.blkid).filter lossy
  tids := tbm.tids.filter fun tid => !lossy tid.blkid

/-- The rows a bitmap heap scan returns: the visible versions on whole blocks and those its fetch
reaches from the TIDs, if they pass the recheck. -/
def TidBitmap.rows (tbm : TidBitmap) (view : HeapView) (qual : HeapTuple → Bool) : List Row :=
  ((pg.heapScan view.heap view.snapshot).filter fun row =>
    decide (row.1.blkid ∈ tbm.blocks) && qual row.2) ++
  tbm.tids.filterMap fun tid =>
    (pg.indexFetchHeap view.heap view.snapshot tid).filter fun row => qual row.2

/-- `pg_tre_amgettuple` on the scan state. -/
def scanGettuple (st : ScanState enc) : Except PgError (Option ScanTuple × ScanState enc) :=
  let call (surfRejects alwaysTrue : Bool) :=
    (amgettuple pg engine (pass.knnScan st.q) none surfRejects alwaysTrue .forward st.knn).map
      fun r => (r.1, { st with knn := r.2 })
  if st.knn.knnReady then call false false
  else if st.queryValid = false then .error ⟨"pg_tre: amgettuple called without amrescan"⟩
  else if pass.world.surfPrefilterRejects st.q pass.surfRead then call true false
  else
    match treComputeCandidateSm pass.idx.asRead st.q with
    | .error e => .error e
    | .ok (_, alwaysTrue) => call false alwaysTrue

/-- The executor calls `pg_tre_amgettuple` until there is no further tuple and gets these rows. -/
inductive Fetches (qual : HeapTuple → Bool) : ScanState enc → List Row → Prop
  | done {st st' : ScanState enc} :
      scanGettuple pg engine pass st = .ok (none, st') → Fetches qual st []
  | tuple {st st' : ScanState enc} {tup : ScanTuple} {rows : List Row} :
      scanGettuple pg engine pass st = .ok (some tup, st') → Fetches qual st' rows →
      Fetches qual st ((executorRow pg (pass.knnScan st.q) qual tup).toList ++ rows)

end

/-! ## Runs -/

/-- A call of the executor on a scan. -/
inductive ScanCall (enc : Encoding) where
  | rescan (keys : List (ScanKey enc))
  | getbitmap (pass : ScanPass)
  | gettuple (pass : ScanPass)

section

variable {enc : Encoding} (s : Settings) (pg : HeapAm) (engine : TreEngine)

/-- The state a call leaves. -/
def ScanCall.run (st : ScanState enc) : ScanCall enc → Except ScanFault (ScanState enc)
  | .rescan keys => amrescan s st keys
  | .getbitmap pass =>
      match amgetbitmap pass st with
      | .error e => .error (.raised e)
      | .ok _ => .ok st
  | .gettuple pass =>
      match scanGettuple pg engine pass st with
      | .error e => .error (.raised e)
      | .ok (_, st') => .ok st'

/-- A run of calls. -/
def scanCalls : List (ScanCall enc) → ScanState enc → Except ScanFault (ScanState enc)
  | [], st => .ok st
  | call :: calls, st =>
      match call.run s pg engine st with
      | .error e => .error e
      | .ok st' => scanCalls calls st'

end

/-! ## What extraction promises a key -/

/-- The query lets a text through: the text satisfies it, and has a key of its SuRF range. -/
def TrigramQuery.Admits (q : TrigramQuery) (body : Text) : Prop :=
  q.SatisfiedBy body ∧ (q.alwaysTrue = false → ∀ lo hi, q.surfRange = some (lo, hi) →
    ∃ w ∈ windows body, lo ≤ trigramKeyCp w ∧ trigramKeyCp w ≤ hi)

section

variable {enc : Encoding} {s : Settings}
  {holds : (strategy : Strategy) → strategy.Argument enc → Text → Bool}

/-- Extraction is sound for an argument: it succeeds, and unless the query is given up anyway, it
lets every text through that the operator accepts. -/
def Strategy.ExtractsSoundly (s : Settings)
    (holds : (strategy : Strategy) → strategy.Argument enc → Text → Bool) (strategy : Strategy)
    (a : strategy.Argument enc) : Prop :=
  ∀ root force, treParseRegex enc (strategy.pattern a).1 = .ok (root, force) →
    ∃ q, regexExtractQuery s root (strategy.pattern a).2 = .ok q ∧
      (strategy.ignoresCase = false → force = false →
        ∀ body, holds strategy a body = true → q.Admits body)

/-- An always-true query admits every text. -/
theorem TrigramQuery.Admits.of_alwaysTrue {q : TrigramQuery} (h : q.alwaysTrue = true) (body : Text) :
    q.Admits body := by
  refine ⟨Or.inl h, fun hfalse => ?_⟩
  rw [h] at hfalse
  cases hfalse

/-- A key whose extraction is sound has a query, and it lets through what the key accepts. -/
theorem Strategy.ExtractsSoundly.query {strategy : Strategy} {a : strategy.Argument enc}
    (h : strategy.ExtractsSoundly s holds a) :
    ∃ q, strategy.query s a = .ok q ∧ (q.alwaysTrue = false → q.Proper) ∧
      ∀ body, holds strategy a body = true → q.Admits body := by
  unfold Strategy.query
  cases hparse : treParseRegex enc (strategy.pattern a).1 with
  | error e =>
    cases e with
    | syntaxError errmsg =>
      refine ⟨_, rfl, fun hfalse => ?_, fun body _ => .of_alwaysTrue rfl body⟩
      cases hfalse
    | raised e => exact absurd hparse (parseRegex_raised (strategy.pattern_valid a))
  | ok r =>
    obtain ⟨root, force⟩ := r
    obtain ⟨q, hq, hadmits⟩ := h root force hparse
    simp only [hq]
    cases hgive : strategy.ignoresCase || force with
    | true =>
      refine ⟨_, rfl, fun hfalse => ?_, fun body _ => .of_alwaysTrue rfl body⟩
      cases hfalse
    | false =>
      rw [Bool.or_eq_false_iff] at hgive
      exact ⟨q, rfl, fun htrue => regexExtractQuery_proper hq htrue, hadmits hgive.1 hgive.2⟩

end

/-! ## What the index finds -/

/-- The candidates of the query can be computed in full: a PIECES query does not stumble over postings
that VACUUM has emptied, and every exact candidate is read. -/
def StoredIndex.Serves (idx : StoredIndex) (q : TrigramQuery) : Prop :=
  q.alwaysTrue = false →
    (q.mode = .pieces → ¬ idx.asRead.Stumbles q.conjuncts) ∧
      ∀ tid, idx.Exact q tid → idx.ReadExact q tid

/-- A TID that has the trigrams of a text the query lets through is an exact candidate. -/
theorem exact_of_satisfiedBy {idx : ScanIndex} {q : TrigramQuery} (htrue : q.alwaysTrue = false)
    {body : Text} {tid : ℕ} (hbody : q.SatisfiedBy body)
    (hfinds : ∀ x, HasTrigram body x → idx.Finds x tid) : idx.Exact q tid := by
  have hasks : q.mode.Asks q.conjuncts body := by
    rcases hbody with hgive | hasks
    · rw [htrue] at hgive
      cases hgive
    · exact hasks
  unfold ScanIndex.Exact
  cases hmode : q.mode with
  | cnf =>
    rw [hmode] at hasks
    intro conj hconj
    obtain ⟨a, ha, htrigram⟩ := hasks conj hconj
    exact ⟨a, ha, hfinds _ htrigram⟩
  | dnf =>
    rw [hmode] at hasks
    obtain ⟨conj, hconj, a, ha, htrigram⟩ := hasks
    exact ⟨_, ⟨conj, hconj, a, ha, rfl⟩, hfinds _ htrigram⟩
  | pieces =>
    rw [hmode] at hasks
    obtain ⟨piece, hpiece, htrigrams⟩ := hasks
    exact ⟨piece, hpiece, fun a ha => hfinds _ (htrigrams a ha)⟩

/-- Then every TID that has the trigrams of a text the query lets through is a candidate. -/
theorem StoredIndex.Serves.candidates {idx : StoredIndex} {q : TrigramQuery} (h : idx.Serves q)
    (hcover : idx.RangesCover) (htrue : q.alwaysTrue = false) (hproper : q.Proper) :
    treComputeCandidateSm idx.asRead q = .ok (candidateSm idx.asRead q, false) ∧
      ∀ body tid, q.SatisfiedBy body → (∀ x, HasTrigram body x → idx.Finds x tid) →
        tid ∈ smMembers (candidateSm idx.asRead q) := by
  obtain ⟨hpieces, hreads⟩ := h htrue
  rcases treComputeCandidateSm_asRead htrue hproper with ⟨sm, hsm, hmem⟩ | ⟨hmode, e, herror⟩
  · have hcandidates : candidateSm idx.asRead q = sm := by rw [candidateSm, hsm]
    rw [hcandidates]
    refine ⟨hsm, fun body tid hbody hfinds => (hmem tid).mpr (hreads tid ?_)⟩
    exact exact_of_satisfiedBy htrue hbody hfinds
  · rcases treComputeCandidateSm_pieces (rangesCover_asRead hcover) hmode htrue hproper with
      ⟨hstumbles, -⟩ | ⟨-, sm, hsm, -⟩
    · exact absurd hstumbles (hpieces hmode)
    · rw [hsm] at herror
      cases herror

/-! ## What a pass returns -/

/-- A row of the answer: visible, and accepted by the recheck. -/
def HeapView.Answers (view : HeapView) (qual : HeapTuple → Bool) (row : Row) : Prop :=
  view.heap.tupleAt row.1 = some row.2 ∧ view.snapshot row.2 = true ∧ qual row.2 = true

/-- The rows are the answer, each once. -/
def HeapView.Exactly (view : HeapView) (qual : HeapTuple → Bool) (rows : List Row) : Prop :=
  rows.Nodup ∧ ∀ row, row ∈ rows ↔ view.Answers qual row

section

variable {pg : HeapAm} {engine : TreEngine} {view : HeapView} {qual : HeapTuple → Bool}
  {tids : List ItemPointer}

/-- A version is on one chain. -/
theorem HeapView.root_unique {root root' : ItemPointer} {row : Row}
    (h : row ∈ view.heap.hotChain root) (h' : row ∈ view.heap.hotChain root') : root = root' := by
  obtain ⟨page, hpage, hmem, hblk⟩ := Heap.mem_hotChain h
  obtain ⟨page', hpage', hmem', hblk'⟩ := Heap.mem_hotChain h'
  have hblkid : root.blkid = root'.blkid := hblk.symm.trans hblk'
  have hsame : view.heap.page root = view.heap.page root' := by rw [Heap.page, Heap.page, hblkid]
  obtain rfl := Option.some.inj (hpage.symm.trans (hsame.trans hpage'))
  have hposid := view.apart page (List.mem_of_getElem? hpage) _ _ hmem _ _ hmem' rfl
  exact ItemPointer.ext hblkid hposid

/-- What the executor gets from TIDs: the rows of the answer on their chains. -/
theorem mem_fetched_iff {row : Row} :
    row ∈ tids.filterMap (fun tid => (pg.indexFetchHeap view.heap view.snapshot tid).filter
      fun row => qual row.2) ↔
      view.Answers qual row ∧ ∃ tid ∈ tids, row ∈ view.heap.hotChain tid := by
  simp only [List.mem_filterMap, Option.filter_eq_some_iff, HeapView.indexFetchHeap_eq_some]
  constructor
  · rintro ⟨tid, htid, ⟨hmem, hvis⟩, hqual⟩
    exact ⟨⟨Heap.tupleAt_of_mem_hotChain hmem, hvis, hqual⟩, tid, htid, hmem⟩
  · rintro ⟨⟨-, hvis, hqual⟩, tid, htid, hmem⟩
    exact ⟨tid, htid, ⟨hmem, hvis⟩, hqual⟩

/-- Different TIDs lead to different rows. -/
theorem nodup_fetched (hnodup : tids.Nodup) :
    (tids.filterMap fun tid => (pg.indexFetchHeap view.heap view.snapshot tid).filter
      fun row => qual row.2).Nodup := by
  refine List.Nodup.filterMap ?_ hnodup
  intro tid tid' row hrow hrow'
  rw [Option.mem_def, Option.filter_eq_some_iff, HeapView.indexFetchHeap_eq_some] at hrow hrow'
  exact HeapView.root_unique hrow.1.1 hrow'.1.1

/-- TIDs whose chains have the rows of the answer. -/
theorem exactly_fetched (hnodup : tids.Nodup)
    (hcover : ∀ row, view.Answers qual row → ∃ tid ∈ tids, row ∈ view.heap.hotChain tid) :
    view.Exactly qual (tids.filterMap fun tid =>
      (pg.indexFetchHeap view.heap view.snapshot tid).filter fun row => qual row.2) := by
  refine ⟨nodup_fetched hnodup, fun row => ?_⟩
  rw [mem_fetched_iff]
  exact ⟨And.left, fun hrow => ⟨hrow, hcover row hrow⟩⟩

/-- A bitmap of TIDs alone or of blocks alone that has every row of the answer gives the answer, also
when it has lost TIDs. -/
theorem TidBitmap.exactly_rows {tbm : TidBitmap} {lossy : BlockNumber → Bool}
    (hkind : tbm.blocks = [] ∨ tbm.tids = []) (hnodup : tbm.tids.Nodup)
    (hcover : ∀ row, view.Answers qual row →
      row.1.blkid ∈ tbm.blocks ∨ ∃ tid ∈ tbm.tids, row ∈ view.heap.hotChain tid) :
    view.Exactly qual ((tbm.lossify lossy).rows pg view qual) := by
  have hblock {row : Row} : row ∈ (pg.heapScan view.heap view.snapshot).filter (fun row =>
      decide (row.1.blkid ∈ (tbm.lossify lossy).blocks) && qual row.2) ↔
        view.Answers qual row ∧ row.1.blkid ∈ (tbm.lossify lossy).blocks := by
    rw [List.mem_filter, Bool.and_eq_true, decide_eq_true_eq, pg.mem_heapScan, HeapView.Answers]
    tauto
  refine ⟨List.Nodup.append ?_ (nodup_fetched (hnodup.filter _)) ?_, fun row => ?_⟩
  · exact (pg.heapScan_nodup view.heap view.snapshot).of_map.filter _
  · -- the blocks are lossy, and the TIDs that are left are not on them
    intro row hrow hrow'
    obtain ⟨-, hmem⟩ := hblock.mp hrow
    obtain ⟨-, tid, htid, hchain⟩ := mem_fetched_iff.mp hrow'
    obtain ⟨-, -, -, hblkid⟩ := Heap.mem_hotChain hchain
    simp only [TidBitmap.lossify, List.mem_filter, Bool.not_eq_true', List.mem_append] at hmem htid
    rcases hkind with hblocks | htids
    · rw [hblocks, hblkid, htid.2] at hmem
      simp at hmem
    · rw [htids] at htid
      cases htid.1
  · rw [TidBitmap.rows, List.mem_append, hblock, mem_fetched_iff]
    constructor
    · rintro (h | h)
      · exact h.1
      · exact h.1
    · intro hrow
      simp only [TidBitmap.lossify, List.mem_filter, List.mem_append, Bool.not_eq_true']
      rcases hcover row hrow with hmem | ⟨tid, htid, hchain⟩
      · exact Or.inl ⟨hrow, Or.inl hmem⟩
      · obtain ⟨-, -, -, hblkid⟩ := Heap.mem_hotChain hchain
        cases hlossy : lossy tid.blkid with
        | true =>
          refine Or.inl ⟨hrow, Or.inr ⟨?_, hblkid ▸ hlossy⟩⟩
          exact List.mem_map.mpr ⟨tid, htid, hblkid.symm⟩
        | false => exact Or.inr ⟨hrow, tid, ⟨htid, hlossy⟩, hchain⟩

/-! ## The two ways to scan -/

/-- Without a prefilter the ordered scan keeps every candidate at distance 0. -/
theorem knnBuild_candidates_plain (scan : KnnScan) :
    knnBuild pg engine scan none false false =
      .ok (((smMembers scan.candidates).sort (· ≤ ·)).map fun idx => ⟨idx, 0⟩) := by
  have hentry : ∀ idx ∈ (smMembers scan.candidates).sort (· ≤ ·),
      knnCandidate pg engine scan none idx = .ok (some ⟨idx, 0⟩) := fun idx _ => rfl
  simp only [knnBuild, Bool.false_eq_true, if_false, collectEntries_ok hentry, List.filterMap_eq_map']
  rfl

/-- Without a prefilter an always-true scan keeps every visible row at distance 0. -/
theorem knnBuild_always_plain (scan : KnnScan) :
    knnBuild pg engine scan none false true =
      .ok ((pg.heapScan scan.view.heap scan.view.snapshot).filterMap fun row =>
        (packTid scan.tidPacking (rootTid pg scan row.1 row.2)).toOption.map fun packed =>
          ⟨packed, 0⟩) := by
  have hrow : ∀ row ∈ pg.heapScan scan.view.heap scan.view.snapshot,
      knnRow pg engine scan none row =
        .ok ((packTid scan.tidPacking (rootTid pg scan row.1 row.2)).toOption.map fun packed =>
          ⟨packed, 0⟩) := by
    intro row hmem
    obtain ⟨packed, hpacked⟩ := @packTid_rootTid pg scan row.1 row.2
      ((pg.mem_heapScan _ _ _ _).mp hmem).1
    simp only [knnRow, knnDistance, hpacked]
    rfl
  simp only [knnBuild, Bool.false_eq_true, if_false, if_true, knnStream_eq (rootMap_none_valid pg scan),
    collectEntries_ok hrow]
  rfl

/-- What the executor gets from the entries of the heap scan it gets from the roots of the rows. -/
theorem streamed_eq (scan : KnnScan) :
    ((pg.heapScan scan.view.heap scan.view.snapshot).filterMap fun row =>
      (packTid scan.tidPacking (rootTid pg scan row.1 row.2)).toOption.map fun packed =>
        ⟨packed, 0⟩).filterMap (fun e => executorRow pg scan qual (publish scan none e)) =
    ((pg.heapScan scan.view.heap scan.view.snapshot).map fun row =>
      rootTid pg scan row.1 row.2).filterMap fun tid =>
        (pg.indexFetchHeap scan.view.heap scan.view.snapshot tid).filter fun row => qual row.2 := by
  rw [List.filterMap_filterMap, List.filterMap_map]
  refine List.filterMap_congr fun row hmem => ?_
  obtain ⟨packed, hpacked⟩ := @packTid_rootTid pg scan row.1 row.2
    ((pg.mem_heapScan _ _ _ _).mp hmem).1
  rw [hpacked, Function.comp_apply, ← unpackTid_packTid hpacked]
  rfl

/-- A scan is rejected only for its SuRF range. -/
theorem SurfWorld.range_of_rejects {world : SurfWorld} {q : TrigramQuery}
    {surfRead : BlockNumber → Option (ℕ → ℕ → Bool)}
    (h : world.surfPrefilterRejects q surfRead = true) :
    q.alwaysTrue = false ∧ ∃ lo hi, q.surfRange = some (lo, hi) := by
  unfold SurfWorld.surfPrefilterRejects at h
  cases hrange : q.surfRange with
  | none => simp [hrange] at h
  | some range =>
    simp only [hrange] at h
    cases htrue : q.alwaysTrue with
    | true => simp [htrue] at h
    | false => exact ⟨rfl, range.1, range.2, rfl⟩

end

section

variable {enc : Encoding} {pg : HeapAm} {engine : TreEngine} {pass : ScanPass} {q : TrigramQuery}
  {qual : HeapTuple → Bool} {st : ScanState enc}

/-- The query lets the rows of the answer through. -/
def ScanPass.Admits (pass : ScanPass) (q : TrigramQuery) (qual : HeapTuple → Bool) : Prop :=
  ∀ row, pass.view.Answers qual row → ∃ body, pass.column.value row.2 = some body ∧ q.Admits body

/-- Then a rejected scan has no answer. -/
theorem ScanPass.Admits.not_answers (h : pass.Admits q qual)
    (hrejects : pass.world.surfPrefilterRejects q pass.surfRead = true) (row : Row) :
    ¬ pass.view.Answers qual row := by
  intro hrow
  obtain ⟨body, hbody, -, hsurf⟩ := h row hrow
  obtain ⟨htrue, lo, hi, hrange⟩ := SurfWorld.range_of_rejects hrejects
  obtain ⟨w, hw, hkey⟩ := hsurf htrue lo hi hrange
  exact pass.surf q lo hi hrejects hrange _ _ hrow.1 hrow.2.1 body hbody w hw hkey

/-- And its candidates lead to the rows of the answer. -/
theorem ScanPass.Admits.mem_candidates (h : pass.Admits q qual) (hserves : pass.idx.Serves q)
    (htrue : q.alwaysTrue = false) (hproper : q.Proper) {row : Row}
    (hrow : pass.view.Answers qual row) :
    ∃ tid ∈ smMembers (candidateSm pass.idx.asRead q),
      row ∈ pass.view.heap.hotChain (unpackTid pass.idx.tidPacking tid) := by
  obtain ⟨body, hbody, hsatisfied, -⟩ := h row hrow
  obtain ⟨root, hroot⟩ := pass.rooted _ _ hrow.1 hrow.2.1
  obtain ⟨tid, hpacked, hfinds⟩ := pass.indexed root row hroot hrow.2.1 body hbody
  refine ⟨tid, (hserves.candidates pass.rangesCover htrue hproper).2 body tid hsatisfied hfinds, ?_⟩
  rw [unpackTid_packTid hpacked]
  exact hroot

/-- The TIDs of the candidates. -/
theorem nodup_candidateTids (pass : ScanPass) (q : TrigramQuery) :
    (((smMembers (candidateSm pass.idx.asRead q)).sort (· ≤ ·)).map
      (unpackTid pass.idx.tidPacking)).Nodup := by
  refine List.Nodup.map_on ?_ (Finset.sort_nodup _ _)
  intro tid htid tid' htid' heq
  have hpacked := packTid_unpackTid ((pass.knnScan q).candidatesPacked tid
      ((Finset.mem_sort _).mp htid))
  have hpacked' :=
    packTid_unpackTid ((pass.knnScan q).candidatesPacked tid' ((Finset.mem_sort _).mp htid'))
  change packTid pass.idx.tidPacking (unpackTid pass.idx.tidPacking tid) = .ok tid at hpacked
  change packTid pass.idx.tidPacking (unpackTid pass.idx.tidPacking tid') = .ok tid' at hpacked'
  rw [heq, hpacked', Except.ok.injEq] at hpacked
  exact hpacked.symm

/-- A bitmap scan returns the answer. -/
theorem amgetbitmap_exactly (hvalid : st.queryValid = true) (h : pass.Admits st.q qual)
    (hserves : pass.idx.Serves st.q) (hproper : st.q.alwaysTrue = false → st.q.Proper) :
    ∃ tbm n, amgetbitmap pass st = .ok (tbm, n) ∧ ∀ lossy,
      pass.view.Exactly qual ((tbm.lossify lossy).rows pg pass.view qual) := by
  unfold amgetbitmap
  rw [if_neg (by simp [hvalid])]
  split_ifs with hrejects htrue
  · refine ⟨_, _, rfl, fun lossy => TidBitmap.exactly_rows (Or.inl rfl) List.nodup_nil ?_⟩
    intro row hrow
    exact absurd hrow (h.not_answers hrejects row)
  · refine ⟨_, _, rfl, fun lossy => TidBitmap.exactly_rows (Or.inr rfl) List.nodup_nil ?_⟩
    intro row hrow
    obtain ⟨page, hpage, -⟩ := Heap.tupleAt_eq_some.mp hrow.1
    exact Or.inl (List.mem_range.mpr (List.getElem?_eq_some_iff.mp hpage).1)
  · rw [Bool.not_eq_true] at htrue
    have hproper := hproper htrue
    simp only [(hserves.candidates pass.rangesCover htrue hproper).1]
    refine ⟨_, _, rfl, fun lossy =>
      TidBitmap.exactly_rows (Or.inl rfl) (nodup_candidateTids pass st.q) ?_⟩
    intro row hrow
    obtain ⟨tid, htid, hmem⟩ := h.mem_candidates hserves htrue hproper hrow
    exact Or.inr ⟨_, List.mem_map_of_mem ((Finset.mem_sort _).mpr htid), hmem⟩

/-- On the scan state `pg_tre_amgettuple` is what it is on the KNN part, with the filter's verdict and
the query's flag. -/
theorem scanGettuple_eq (hvalid : st.queryValid = true)
    (hcandidates : pass.world.surfPrefilterRejects st.q pass.surfRead = false →
      ∃ sm, treComputeCandidateSm pass.idx.asRead st.q = .ok (sm, st.q.alwaysTrue)) :
    scanGettuple pg engine pass st =
      (amgettuple pg engine (pass.knnScan st.q) none
        (pass.world.surfPrefilterRejects st.q pass.surfRead) st.q.alwaysTrue .forward st.knn).map
          fun r => (r.1, { st with knn := r.2 }) := by
  unfold scanGettuple
  dsimp only
  split_ifs with hready hinvalid hrejects
  · -- a list that is there is not built again
    obtain ⟨keyData, q, queryValid, ready, entries, pos⟩ := st
    cases hready
    rfl
  · rw [hvalid] at hinvalid
    cases hinvalid
  · rw [(SurfWorld.range_of_rejects hrejects).1, hrejects]
  · rw [Bool.not_eq_true] at hrejects
    obtain ⟨sm, hsm⟩ := hcandidates hrejects
    rw [hsm, hrejects]

/-- What the KNN part delivers the executor fetches. -/
theorem Delivers.fetches {knn : TreScanState} {rows : List Row} (hvalid : st.queryValid = true)
    (hcandidates : pass.world.surfPrefilterRejects st.q pass.surfRead = false →
      ∃ sm, treComputeCandidateSm pass.idx.asRead st.q = .ok (sm, st.q.alwaysTrue))
    (h : Delivers pg engine (pass.knnScan st.q) none
      (pass.world.surfPrefilterRejects st.q pass.surfRead) st.q.alwaysTrue qual knn rows) :
    Fetches pg engine pass qual { st with knn := knn } rows := by
  have hcall (knn : TreScanState) := @scanGettuple_eq enc pg engine pass { st with knn := knn } hvalid
    hcandidates
  induction h with
  | @done knn knn' hnone =>
    refine @Fetches.done enc pg engine pass qual _ { st with knn := knn' } ?_
    rw [hcall, hnone]
    rfl
  | @tuple knn knn' tup rows hsome _ ih =>
    refine @Fetches.tuple enc pg engine pass qual _ { st with knn := knn' } tup rows ?_ ih
    rw [hcall, hsome]
    rfl

/-- The roots of the visible rows lead to the answer. -/
theorem exactly_roots (pg : HeapAm) (pass : ScanPass) (q : TrigramQuery) (qual : HeapTuple → Bool) :
    pass.view.Exactly qual (((pg.heapScan pass.view.heap pass.view.snapshot).map fun row =>
      rootTid pg (pass.knnScan q) row.1 row.2).filterMap fun tid =>
        (pg.indexFetchHeap pass.view.heap pass.view.snapshot tid).filter fun row => qual row.2) := by
  refine exactly_fetched ?_ fun row hrow => ?_
  · refine List.Nodup.map_on ?_ (pg.heapScan_nodup _ _).of_map
    intro row hmem row' hmem' hroot
    obtain ⟨htuple, hvis⟩ := (pg.mem_heapScan _ _ _ _).mp hmem
    obtain ⟨htuple', hvis'⟩ := (pg.mem_heapScan _ _ _ _).mp hmem'
    have htid := @rootTid_inj pg (pass.knnScan q) _ _ _ _ htuple hvis htuple' hvis' hroot
    rw [htid, htuple', Option.some.injEq] at htuple
    exact Prod.ext htid htuple.symm
  · obtain ⟨root, hroot⟩ := pass.rooted _ _ hrow.1 hrow.2.1
    refine ⟨root, List.mem_map.mpr ⟨row, (pg.mem_heapScan _ _ _ _).mpr ⟨hrow.1, hrow.2.1⟩, ?_⟩, hroot⟩
    exact @rootTid_of_mem_hotChain pg (pass.knnScan q) root row hroot

/-- A scan by tuples returns the answer. -/
theorem fetches_exactly (hvalid : st.queryValid = true) (hknn : st.knn = .rescanned)
    (h : pass.Admits st.q qual) (hserves : pass.idx.Serves st.q)
    (hproper : st.q.alwaysTrue = false → st.q.Proper) :
    ∃ rows, Fetches pg engine pass qual st rows ∧ pass.view.Exactly qual rows := by
  have hsame : { st with knn := .rescanned } = st := by rw [← hknn]
  have hcandidates : pass.world.surfPrefilterRejects st.q pass.surfRead = false →
      ∃ sm, treComputeCandidateSm pass.idx.asRead st.q = .ok (sm, st.q.alwaysTrue) := by
    intro _
    cases htrue : st.q.alwaysTrue with
    | true => exact ⟨none, by simp [treComputeCandidateSm, htrue]⟩
    | false => exact ⟨_, (hserves.candidates pass.rangesCover htrue (hproper htrue)).1⟩
  have hfetches {rows : List Row} (hrows : Delivers pg engine (pass.knnScan st.q) none
      (pass.world.surfPrefilterRejects st.q pass.surfRead) st.q.alwaysTrue qual .rescanned rows) :
      Fetches pg engine pass qual st rows := hsame ▸ hrows.fetches hvalid hcandidates
  cases hrejects : pass.world.surfPrefilterRejects st.q pass.surfRead with
  | true =>
    rw [hrejects] at hfetches
    refine ⟨[], hfetches (delivers_iff.mpr ⟨[], rfl, rfl⟩), List.nodup_nil, fun row => ?_⟩
    simpa using h.not_answers hrejects row
  | false =>
    rw [hrejects] at hfetches
    cases htrue : st.q.alwaysTrue with
    | true =>
      rw [htrue] at hfetches
      refine ⟨_, hfetches (delivers_iff.mpr ⟨_, knnBuild_always_plain _, rfl⟩), ?_⟩
      rw [streamed_eq]
      exact exactly_roots pg pass st.q qual
    | false =>
      rw [htrue] at hfetches
      refine ⟨_, hfetches (delivers_iff.mpr ⟨_, knnBuild_candidates_plain _, rfl⟩), ?_⟩
      have hrows := @exactly_fetched pg pass.view qual _ (nodup_candidateTids pass st.q)
          fun row hrow => by
        obtain ⟨tid, htid, hmem⟩ := h.mem_candidates hserves htrue (hproper htrue) hrow
        exact ⟨_, List.mem_map_of_mem ((Finset.mem_sort _).mpr htid), hmem⟩
      rw [List.filterMap_map] at hrows ⊢
      exact hrows

end

/-! ## Rescans and what follows them -/

section

variable {enc : Encoding} {s : Settings} {pg : HeapAm} {engine : TreEngine}
  {holds : (strategy : Strategy) → strategy.Argument enc → Text → Bool}
  {keys : List (ScanKey enc)} {calls calls' : List (ScanCall enc)} {st st' : ScanState enc}

/-- The recheck of all keys. The operators are strict. -/
def keysHold (holds : (strategy : Strategy) → strategy.Argument enc → Text → Bool)
    (column : IndexColumn) (keys : List (ScanKey enc)) (htup : HeapTuple) : Bool :=
  keys.all fun sk => sk.argument.any fun a => (column.value htup).any (holds sk.strategy a)

/-- There is a first key and it is not NULL. -/
def FirstGiven (keys : List (ScanKey enc)) : Prop :=
  ∃ sk rest a, keys = sk :: rest ∧ sk.argument = some a

/-- Extraction is sound for the first key. -/
def FirstSound (s : Settings) (holds : (strategy : Strategy) → strategy.Argument enc → Text → Bool)
    (keys : List (ScanKey enc)) : Prop :=
  ∀ sk rest a, keys = sk :: rest → sk.argument = some a → sk.strategy.ExtractsSoundly s holds a

/-- From every state a rescan leaves the same one, with a query that lets the answer through. -/
theorem amrescan_eq (hgiven : FirstGiven keys) (hsound : FirstSound s holds keys) :
    ∃ q, (∀ st, amrescan s st keys = .ok ⟨keys, q, true, .rescanned⟩) ∧
      (q.alwaysTrue = false → q.Proper) ∧
      ∀ pass : ScanPass, pass.Admits q (keysHold holds pass.column keys) := by
  obtain ⟨sk, rest, a, rfl, ha⟩ := hgiven
  obtain ⟨q, hq, hproper, hadmits⟩ := (hsound sk rest a rfl ha).query
  refine ⟨q, fun st => ?_, hproper, fun pass row hrow => ?_⟩
  · simp only [amrescan, ha, hq]
  · have hfirst := List.all_eq_true.mp hrow.2.2 sk List.mem_cons_self
    rw [ha, Option.any_some, Option.any_eq_true] at hfirst
    obtain ⟨body, hbody, hholds⟩ := hfirst
    exact ⟨body, hbody, hadmits body hholds⟩

/-- With a first key that is not NULL a rescan reads no missing argument. -/
theorem amrescan_ne_missing (hgiven : FirstGiven keys) :
    amrescan s st keys ≠ .error .missingArgument := by
  obtain ⟨sk, rest, a, rfl, ha⟩ := hgiven
  simp only [amrescan, ha]
  cases sk.strategy.query s a with
  | error e => simp
  | ok q => simp

/-- Two lists of calls run one after the other. -/
theorem scanCalls_append :
    scanCalls s pg engine (calls ++ calls') st =
      (scanCalls s pg engine calls st).bind (scanCalls s pg engine calls') := by
  induction calls generalizing st with
  | nil => rfl
  | cons call calls ih =>
    simp only [List.cons_append, scanCalls]
    cases call.run s pg engine st with
    | error e => rfl
    | ok st' => exact ih

/-- Nor does any other call. -/
theorem scanCalls_ne_missing (h : ∀ keys, ScanCall.rescan keys ∈ calls → FirstGiven keys) :
    scanCalls s pg engine calls st ≠ .error .missingArgument := by
  induction calls generalizing st with
  | nil => simp [scanCalls]
  | cons call calls ih =>
    have hcall : call.run s pg engine st ≠ .error .missingArgument := by
      cases call with
      | rescan keys => exact amrescan_ne_missing (h keys List.mem_cons_self)
      | getbitmap pass =>
        rw [ScanCall.run]
        cases amgetbitmap pass st <;> simp
      | gettuple pass =>
        rw [ScanCall.run]
        cases scanGettuple pg engine pass st <;> simp
    rw [scanCalls]
    cases hrun : call.run s pg engine st with
    | error e =>
      rw [hrun] at hcall
      exact hcall
    | ok st' => exact ih fun keys hmem => h keys (List.mem_cons_of_mem _ hmem)

/-- `pg_tre_amgettuple` changes the KNN part alone. -/
theorem scanGettuple_frame {pass : ScanPass} {tup : Option ScanTuple}
    (h : scanGettuple pg engine pass st = .ok (tup, st')) : st' = { st with knn := st'.knn } := by
  have hcall {x : Except PgError (Option ScanTuple × TreScanState)}
      (h : x.map (fun r => (r.1, { st with knn := r.2 })) = .ok (tup, st')) :
      st' = { st with knn := st'.knn } := by
    cases x with
    | error e => cases h
    | ok r =>
      obtain ⟨-, rfl⟩ := Prod.mk.inj (Except.ok.inj h)
      rfl
  unfold scanGettuple at h
  dsimp only at h
  split_ifs at h
  · exact hcall h
  · exact hcall h
  · cases hsm : treComputeCandidateSm pass.idx.asRead st.q with
    | error e => simp [hsm] at h
    | ok r =>
      rw [hsm] at h
      exact hcall h

/-- Between rescans the KNN part alone changes, and bitmap scans change nothing. -/
theorem scanCalls_frame (hcalls : ∀ keys, ScanCall.rescan keys ∉ calls)
    (h : scanCalls s pg engine calls st = .ok st') :
    st' = { st with knn := st'.knn } ∧
      ((∀ pass, ScanCall.gettuple pass ∉ calls) → st' = st) := by
  induction calls generalizing st with
  | nil =>
    obtain rfl := Except.ok.inj h
    exact ⟨rfl, fun _ => rfl⟩
  | cons call calls ih =>
    rw [scanCalls] at h
    cases hrun : call.run s pg engine st with
    | error e => simp [hrun] at h
    | ok st₁ =>
      simp only [hrun] at h
      obtain ⟨hframe, hsame⟩ := ih (fun keys hmem => hcalls keys (List.mem_cons_of_mem _ hmem)) h
      cases call with
      | rescan keys => exact absurd List.mem_cons_self (hcalls keys)
      | getbitmap pass =>
        rw [ScanCall.run] at hrun
        cases hbitmap : amgetbitmap pass st with
        | error e => simp [hbitmap] at hrun
        | ok r =>
          simp only [hbitmap, Except.ok.injEq] at hrun
          rw [hrun]
          exact ⟨hframe, fun hnone => hsame fun pass hmem => hnone pass (List.mem_cons_of_mem _ hmem)⟩
      | gettuple pass =>
        refine ⟨?_, fun hnone => absurd List.mem_cons_self (hnone pass)⟩
        rw [ScanCall.run] at hrun
        cases htuple : scanGettuple pg engine pass st with
        | error e => simp [htuple] at hrun
        | ok r =>
          simp only [htuple, Except.ok.injEq] at hrun
          subst hrun
          rw [hframe, scanGettuple_frame htuple]

end

/-- In every run of rescans and passes in which the first key of each rescan is not NULL, nothing reads
a missing argument. After the latest rescan each bitmap scan, and a scan by tuples, whose candidates
can be computed in full gives exactly the visible rows that satisfy all its keys, and the state is the
one its keys alone lead to from any state. -/
theorem rescan_delivers {enc : Encoding} (s : Settings) (pg : HeapAm) (engine : TreEngine)
    (holds : (strategy : Strategy) → strategy.Argument enc → Text → Bool)
    (calls : List (ScanCall enc))
    (hgiven : ∀ keys, ScanCall.rescan keys ∈ calls → FirstGiven keys)
    (hsound : ∀ keys, ScanCall.rescan keys ∈ calls → FirstSound s holds keys) :
    scanCalls s pg engine calls .begun ≠ .error .missingArgument ∧
    ∀ before keys after st, calls = before ++ .rescan keys :: after →
      (∀ keys', ScanCall.rescan keys' ∉ after) → scanCalls s pg engine calls .begun = .ok st →
        (∀ pass : ScanPass, pass.idx.Serves st.q →
          (∃ tbm n, amgetbitmap pass st = .ok (tbm, n) ∧ ∀ lossy,
            pass.view.Exactly (keysHold holds pass.column keys)
              ((tbm.lossify lossy).rows pg pass.view (keysHold holds pass.column keys))) ∧
          ((∀ pass', ScanCall.gettuple pass' ∉ after) →
            ∃ rows, Fetches pg engine pass (keysHold holds pass.column keys) st rows ∧
              pass.view.Exactly (keysHold holds pass.column keys) rows)) ∧
        ∀ other st', amrescan s other keys = .ok st' → st'.q = st.q ∧
          ((∀ pass', ScanCall.gettuple pass' ∉ after) → st' = st) := by
  refine ⟨scanCalls_ne_missing hgiven, ?_⟩
  rintro before keys after st rfl hafter hrun
  obtain ⟨q, hrescan, hproper, hadmits⟩ := amrescan_eq (hgiven keys (by simp)) (hsound keys (by simp))
  rw [scanCalls_append] at hrun
  cases hbefore : scanCalls s pg engine before .begun with
  | error e =>
    rw [hbefore] at hrun
    cases hrun
  | ok st₀ =>
    rw [hbefore] at hrun
    change scanCalls s pg engine (.rescan keys :: after) st₀ = .ok st at hrun
    simp only [scanCalls, ScanCall.run, hrescan] at hrun
    obtain ⟨hframe, hsame⟩ := scanCalls_frame hafter hrun
    have hq : st.q = q := by rw [hframe]
    have hvalid : st.queryValid = true := by rw [hframe]
    refine ⟨fun pass hserves => ?_, fun other st' hother => ?_⟩
    · have hadmits := hadmits pass
      rw [← hq] at hproper hadmits
      refine ⟨amgetbitmap_exactly hvalid hadmits hserves hproper, fun hnone => ?_⟩
      have hknn : st.knn = .rescanned := by rw [hsame hnone]
      exact fetches_exactly hvalid hknn hadmits hserves hproper
    · rw [hrescan, Except.ok.injEq] at hother
      refine ⟨?_, fun hnone => ?_⟩
      · rw [← hother, hq]
      · rw [← hother, hsame hnone]

/-- The tree of the row `git`. -/
def gitTree : UpperTree := ⟨[(hashTrigramCp (103, 105, 116), {1})], List.pairwise_singleton _ _⟩

/-- Only its trigram is indexed. -/
theorem gitTree_finds {h : UInt64} {tid : ℕ} (hfinds : (builtIndex .dense gitTree 1).Finds h tid) :
    h = hashTrigramCp (103, 105, 116) ∧ tid = 1 := by
  rcases hfinds with hholds | ⟨e, he, -⟩
  · rcases RunIndex.holds_iff.mp hholds with hbase | ⟨run, hrun, -⟩
    · change tid ∈ gitTree.postings h at hbase
      unfold UpperTree.postings at hbase
      cases hlook : gitTree.lookup h with
      | none => simp [hlook] at hbase
      | some tids =>
        have hmem := UpperTree.lookup_eq_some.mp hlook
        obtain ⟨rfl, rfl⟩ := Prod.mk.inj (List.mem_singleton.mp hmem)
        rw [hlook] at hbase
        exact ⟨rfl, Finset.mem_singleton.mp hbase⟩
    · simp [builtIndex, RunIndex.liveRuns, catalogRuns] at hrun
  · cases he

/-- A scan of the table with the row `git` and of its index, which has no SuRF filter. -/
def gitPass : ScanPass where
  idx := (builtIndex .dense gitTree 1).inOneMap
  column := freshScan.column
  view := freshScan.view
  world := .initial gitTree 1 .dense (fun _ => ⟨none, []⟩) none
  surfRead := fun _ => none
  runs := rfl
  rangesCover := (IndexReachable.build .dense gitTree 1).rangesCover
  rooted := by
    intro tid t htuple hvis
    obtain ⟨rfl, rfl⟩ := Prod.mk.inj (@freshScan_visible (tid, t) htuple hvis)
    exact ⟨_, Heap.mem_hotChain_self htuple rfl⟩
  packed := by
    intro h tid hfinds
    obtain ⟨-, rfl⟩ := gitTree_finds hfinds
    exact freshScan.candidatesPacked 1 (Finset.mem_singleton_self 1)
  roots := by
    intro h tid hfinds
    obtain ⟨-, rfl⟩ := gitTree_finds hfinds
    exact freshScan.candidatesRoots 1 (Finset.mem_singleton_self 1)
  indexed := by
    intro root row hrow hvis body hbody
    have htuple := Heap.tupleAt_of_mem_hotChain hrow
    obtain rfl := freshScan_visible htuple hvis
    have hself := Heap.mem_hotChain_self htuple rfl
    obtain rfl := HeapView.root_unique hrow hself
    obtain rfl := Option.some.inj hbody
    refine ⟨1, rfl, fun h htrigram => Or.inl (RunIndex.holds_iff.mpr (Or.inl ?_))⟩
    obtain ⟨w, hw, rfl⟩ := htrigram
    obtain rfl := List.mem_singleton.mp hw
    have hlook : gitTree.lookup (hashTrigramCp (103, 105, 116)) = some {1} :=
      UpperTree.lookup_eq_some.mpr (List.mem_singleton_self _)
    change 1 ∈ gitTree.postings (hashTrigramCp (103, 105, 116))
    rw [UpperTree.postings, hlook]
    exact Finset.mem_singleton_self 1
  surf := by
    intro q lo hi hrejects hrange
    simp [SurfWorld.surfPrefilterRejects, SurfWorld.initial, hrange] at hrejects

/-- Every byte string is valid Latin-1. -/
theorem latin1_valid (bytes : List UInt8) : latin1.Valid bytes := by
  induction bytes with
  | nil => exact .nil
  | cons b bytes ih =>
    refine @Encoding.Valid.char latin1 _ bytes b.toNat ?_ ih
    rw [Encoding.nextChar]
    split_ifs
    · rfl
    · rfl

/-- The text `git`. -/
def gitText : TextDatum latin1 := ⟨[103, 105, 116], latin1_valid _, by decide⟩

/-- The text `%git%`. -/
def likeGit : TextDatum latin1 := ⟨[37, 103, 105, 116, 37], latin1_valid _, by decide⟩

/-- A scan for `name ~* 'git'` that returned a tuple and was then rescanned for
`name LIKE '%git%' AND name ~ 'git'`. -/
def gitCalls : List (ScanCall latin1) :=
  [.rescan [⟨.iregex, some gitText⟩], .gettuple gitPass,
    .rescan [⟨.like, some likeGit⟩, ⟨.regex, some gitText⟩]]

/-- The operators of these keys on a text: it has `git` in it. -/
def containsGit (strategy : Strategy) (_ : strategy.Argument latin1) (body : Text) : Bool :=
  decide ((103, 105, 116) ∈ windows body)

/-- `LIKE '%git%'` becomes `.*git.*`, whose query has the one trigram. -/
theorem likeGit_sound : Strategy.like.ExtractsSoundly ⟨256, 4⟩ containsGit likeGit := by
  intro root force hparse
  obtain ⟨rfl, rfl⟩ := Prod.mk.inj (Except.ok.inj hparse)
  refine ⟨_, rfl, fun _ _ body hbody => ⟨Or.inr fun c hc => ?_, fun _ lo hi hrange => ?_⟩⟩
  · obtain rfl := List.mem_singleton.mp hc
    exact ⟨_, List.mem_singleton_self _, (103, 105, 116), of_decide_eq_true hbody, rfl⟩
  · cases hrange

/-- The scan goes through, and both kinds of pass then return the row. -/
theorem rescan_delivers_git : ∃ st,
    scanCalls ⟨256, 4⟩ HeapAm.reference literalEngine gitCalls .begun = .ok st ∧
    gitPass.idx.Serves st.q ∧
    (∃ tbm n, amgetbitmap gitPass st = .ok (tbm, n) ∧ ∀ lossy, gitPass.view.Exactly
      (keysHold containsGit gitPass.column [⟨.like, some likeGit⟩, ⟨.regex, some gitText⟩])
      ((tbm.lossify lossy).rows HeapAm.reference gitPass.view
        (keysHold containsGit gitPass.column [⟨.like, some likeGit⟩, ⟨.regex, some gitText⟩]))) ∧
    ∃ rows, Fetches HeapAm.reference literalEngine gitPass
      (keysHold containsGit gitPass.column [⟨.like, some likeGit⟩, ⟨.regex, some gitText⟩]) st rows ∧
      gitPass.view.Exactly
        (keysHold containsGit gitPass.column [⟨.like, some likeGit⟩, ⟨.regex, some gitText⟩]) rows := by
  have hserves : ∀ st, scanCalls ⟨256, 4⟩ HeapAm.reference literalEngine gitCalls .begun = .ok st →
      gitPass.idx.Serves st.q := by
    rintro st hst -
    obtain rfl := Except.ok.inj hst
    refine ⟨nofun, fun tid => readExact_of_exact nofun fun h _ => ?_⟩
    exact reads_of_finds gitPass.rangesCover fun run _ => id
  have hrescans : ∀ keys, ScanCall.rescan keys ∈ gitCalls →
      keys = [⟨.iregex, some gitText⟩] ∨ keys = [⟨.like, some likeGit⟩, ⟨.regex, some gitText⟩] := by
    intro keys hkeys
    simpa [gitCalls] using hkeys
  obtain ⟨-, hdelivers⟩ := rescan_delivers ⟨256, 4⟩ HeapAm.reference literalEngine containsGit gitCalls
    (by
      intro keys hkeys
      rcases hrescans keys hkeys with rfl | rfl
      · exact ⟨_, _, _, rfl, rfl⟩
      · exact ⟨_, _, _, rfl, rfl⟩)
    (by
      intro keys hkeys sk rest a heq ha
      rcases hrescans keys hkeys with rfl | rfl
      · obtain ⟨rfl, rfl⟩ := List.cons.inj heq
        obtain rfl := Option.some.inj ha
        intro root force hparse
        obtain ⟨rfl, rfl⟩ := Prod.mk.inj (Except.ok.inj hparse)
        exact ⟨_, rfl, nofun⟩
      · obtain ⟨rfl, rfl⟩ := List.cons.inj heq
        obtain rfl := Option.some.inj ha
        exact likeGit_sound)
  have hpass := (hdelivers [.rescan [⟨.iregex, some gitText⟩], .gettuple gitPass]
    [⟨.like, some likeGit⟩, ⟨.regex, some gitText⟩] [] _ rfl (by simp) rfl).1 gitPass (hserves _ rfl)
  exact ⟨_, rfl, hserves _ rfl, hpass.1, hpass.2 (by simp)⟩

/-- A nested loop whose outer row has a NULL pattern: the rescan reads an argument that is not
there. -/
theorem rescan_null_missingArgument :
    scanCalls ⟨256, 4⟩ HeapAm.reference literalEngine
      [.rescan [(⟨.regex, none⟩ : ScanKey latin1)], .gettuple gitPass] .begun =
        .error .missingArgument := by
  rfl

end PgTre
