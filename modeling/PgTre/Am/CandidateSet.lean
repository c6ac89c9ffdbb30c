import PgTre.Pages.TidPacking
import PgTre.Util.Sparsemap

/-!
# The candidate set of a scan

`tre_compute_candidate_sm` of `src/am/amscan.c` evaluates a trigram query on the index: the base
tree, the live runs of the catalog and the pending list, which is read once into an overlay.
The arms for CNF and PIECES queries look a trigram up in every run. The arm for DNF queries asks
the base tree alone, so that what a flush has moved into a run is found only through the other
trigrams of the query.
-/

namespace PgTre

/-! ## The pending list and its overlay -/

/-- What a scan reads of an index: its trees and catalog, and the pending list with its entries
in the order of the page chain. -/
structure ScanIndex extends RunIndex where
  tidPacking : TidPacking
  pending : List PgTrePendingEntry
  /-- Every pending TID was packed for this index. -/
  pendingPacked : ∀ e ∈ pending, Packed tidPacking e.tid

/-- An empty pending list. -/
theorem ScanIndex.noPending_packed (idx : ScanIndex) :
    ∀ e ∈ ([] : List PgTrePendingEntry), Packed idx.tidPacking e.tid :=
  noEntries_packed idx.tidPacking

/-- The pending list has an entry for the hash and the TID. -/
def ScanIndex.Pends (idx : ScanIndex) (h : UInt64) (tid : ℕ) : Prop :=
  ∃ e ∈ idx.pending, e.trigramHash = h ∧ e.tid = tid

/-- `query_wants_trigram`. -/
def queryWantsTrigram (q : TrigramQuery) (h : UInt64) : Bool :=
  q.conjuncts.any (fun c => c.alts.any (fun a => decide (a.trigramHash = h)))

/-- The query lists the trigram in one of its conjuncts. -/
def TrigramQuery.Lists (q : TrigramQuery) (h : UInt64) : Prop :=
  ∃ c ∈ q.conjuncts, ∃ a ∈ c.alts, a.trigramHash = h

/-- The crack cache's filter asks exactly whether the query lists the hash. -/
theorem queryWantsTrigram_iff {q : TrigramQuery} {h : UInt64} :
    queryWantsTrigram q h = true ↔ q.Lists h := by
  simp [queryWantsTrigram, TrigramQuery.Lists]

/-- `PendingOverlayEntry`. -/
structure PendingOverlayEntry where
  trigramHash : UInt64
  tidsArr : List ℕ

/-- `overlay_find_or_create`, with the TID appended to the entry it returns. -/
def overlayAdd (h : UInt64) (packed : ℕ) : List PendingOverlayEntry → List PendingOverlayEntry
  | [] => [⟨h, [packed]⟩]
  | e :: rest =>
      if e.trigramHash = h then { e with tidsArr := e.tidsArr ++ [packed] } :: rest
      else e :: overlayAdd h packed rest

/-- `overlay_collect_cb`. -/
def overlayCollectCb (pk : TidPacking) (q : TrigramQuery) (ov : List PendingOverlayEntry)
    (hash : UInt64) (tid : ItemPointer) (_position : ℕ) :
    Except PgError (List PendingOverlayEntry) :=
  if queryWantsTrigram q hash then
    match packTid pk tid with
    | .error e => .error e
    | .ok packed => .ok (overlayAdd hash packed ov)
  else .ok ov

/-- `pg_tre_pending_scan`: the callback on every entry, with its TID unpacked. -/
def pendingScan {σ : Type} (pk : TidPacking)
    (callback : σ → UInt64 → ItemPointer → ℕ → Except PgError σ) :
    List PgTrePendingEntry → σ → Except PgError σ
  | [], ctx => .ok ctx
  | e :: rest, ctx =>
      match callback ctx e.trigramHash (unpackTid pk e.tid) e.position with
      | .error err => .error err
      | .ok ctx => pendingScan pk callback rest ctx

/-- `overlay_build`. -/
def overlayBuild (idx : ScanIndex) (q : TrigramQuery) : Except PgError (List PendingOverlayEntry) :=
  pendingScan idx.tidPacking (overlayCollectCb idx.tidPacking q) idx.pending []

/-- `overlay_lookup`: the map of the entry's TIDs, sorted and without duplicates. -/
def overlayLookup (ov : List PendingOverlayEntry) (h : UInt64) : Sm :=
  match ov.find? (fun e => e.trigramHash = h) with
  | none => none
  | some e => if e.tidsArr = [] then none else some e.tidsArr.toFinset

/-- One pending entry answers for its own hash and leaves the other lookups alone. -/
private theorem smMembers_overlayLookup_cons (e : PendingOverlayEntry)
    (ov : List PendingOverlayEntry) (h : UInt64) :
    smMembers (overlayLookup (e :: ov) h) =
      if e.trigramHash = h then e.tidsArr.toFinset else smMembers (overlayLookup ov h) := by
  unfold overlayLookup
  by_cases heq : e.trigramHash = h
  · rw [List.find?_cons_of_pos (by simpa using heq), if_pos heq]
    by_cases hnil : e.tidsArr = []
    · simp [hnil]
    · simp [hnil]
  · rw [List.find?_cons_of_neg (by simpa using heq), if_neg heq]

/-- Adding a TID to the overlay adds it to the map of its hash. -/
theorem mem_overlayLookup_overlayAdd {ov : List PendingOverlayEntry} {h h' : UInt64}
    {packed tid : ℕ} :
    tid ∈ smMembers (overlayLookup (overlayAdd h packed ov) h') ↔
      tid ∈ smMembers (overlayLookup ov h') ∨ h = h' ∧ packed = tid := by
  induction ov with
  | nil =>
    rw [overlayAdd, smMembers_overlayLookup_cons]
    by_cases heq : h = h'
    · simp [heq, overlayLookup, eq_comm]
    · simp [heq, overlayLookup]
  | cons e ov ih =>
    rw [overlayAdd]
    by_cases hfound : e.trigramHash = h
    · rw [if_pos hfound, smMembers_overlayLookup_cons, smMembers_overlayLookup_cons]
      by_cases heq : h = h'
      · simp [hfound, heq, eq_comm, or_comm]
      · simp [hfound, heq]
    · rw [if_neg hfound, smMembers_overlayLookup_cons, smMembers_overlayLookup_cons]
      by_cases heq : e.trigramHash = h'
      · have hne : h ≠ h' := fun hh => hfound (heq.trans hh.symm)
        simp [heq, hne]
      · rw [if_neg heq, if_neg heq]
        exact ih

/-- One packed entry is added to the overlay if the query lists its trigram. -/
theorem overlayCollectCb_spec {pk : TidPacking} {q : TrigramQuery} {e : PgTrePendingEntry}
    (hpacked : Packed pk e.tid) (ov : List PendingOverlayEntry) :
    ∃ ov', overlayCollectCb pk q ov e.trigramHash (unpackTid pk e.tid) e.position = .ok ov' ∧
      ∀ h tid, tid ∈ smMembers (overlayLookup ov' h) ↔
        tid ∈ smMembers (overlayLookup ov h) ∨ q.Lists h ∧ e.trigramHash = h ∧ e.tid = tid := by
  by_cases hwants : queryWantsTrigram q e.trigramHash = true
  · refine ⟨overlayAdd e.trigramHash e.tid ov, ?_, fun h tid => ?_⟩
    · rw [overlayCollectCb, if_pos hwants, packTid_unpackTid hpacked]
    · rw [mem_overlayLookup_overlayAdd]
      constructor
      · rintro (hold | ⟨rfl, htid⟩)
        · exact Or.inl hold
        · exact Or.inr ⟨queryWantsTrigram_iff.mp hwants, rfl, htid⟩
      · rintro (hold | ⟨-, hentry⟩)
        · exact Or.inl hold
        · exact Or.inr hentry
  · refine ⟨ov, by rw [overlayCollectCb, if_neg hwants], fun h tid => ?_⟩
    constructor
    · exact Or.inl
    · rintro (hold | ⟨hlists, rfl, -⟩)
      · exact hold
      · exact absurd (queryWantsTrigram_iff.mpr hlists) hwants

/-- Scanning packed entries into an overlay succeeds and adds those the query lists. -/
theorem pendingScan_overlay {pk : TidPacking} {q : TrigramQuery} {entries : List PgTrePendingEntry}
    (hpacked : ∀ e ∈ entries, Packed pk e.tid) (ov : List PendingOverlayEntry) :
    ∃ ov', pendingScan pk (overlayCollectCb pk q) entries ov = .ok ov' ∧ ∀ h tid,
      tid ∈ smMembers (overlayLookup ov' h) ↔ tid ∈ smMembers (overlayLookup ov h) ∨
        q.Lists h ∧ ∃ e ∈ entries, e.trigramHash = h ∧ e.tid = tid := by
  induction entries generalizing ov with
  | nil => exact ⟨ov, rfl, fun h tid => by simp⟩
  | cons e entries ih =>
    obtain ⟨ov₁, hstep, hadds⟩ := @overlayCollectCb_spec pk q e (hpacked e List.mem_cons_self) ov
    obtain ⟨ov', hok, hmem⟩ := ih (fun e' he' => hpacked e' (List.mem_cons_of_mem _ he')) ov₁
    refine ⟨ov', ?_, fun h tid => ?_⟩
    · simp only [pendingScan, hstep]
      exact hok
    · rw [hmem, hadds]
      constructor
      · rintro ((hold | ⟨hlists, hentry⟩) | ⟨hlists, e', he', hentry⟩)
        · exact Or.inl hold
        · exact Or.inr ⟨hlists, e, List.mem_cons_self, hentry⟩
        · exact Or.inr ⟨hlists, e', List.mem_cons_of_mem _ he', hentry⟩
      · rintro (hold | ⟨hlists, e', he', hentry⟩)
        · exact Or.inl (Or.inl hold)
        · rcases List.mem_cons.mp he' with rfl | he'
          · exact Or.inl (Or.inr ⟨hlists, hentry⟩)
          · exact Or.inr ⟨hlists, e', he', hentry⟩

/-- The overlay is always built, and for a listed trigram it has exactly the pending TIDs. -/
theorem overlayBuild_spec (idx : ScanIndex) (q : TrigramQuery) :
    ∃ ov, overlayBuild idx q = .ok ov ∧ ∀ h, q.Lists h → ∀ tid,
      (tid ∈ smMembers (overlayLookup ov h) ↔ idx.Pends h tid) := by
  obtain ⟨ov, hok, hmem⟩ := @pendingScan_overlay _ q _ idx.pendingPacked []
  refine ⟨ov, hok, fun h hlists tid => ?_⟩
  rw [hmem]
  simp [overlayLookup, hlists, ScanIndex.Pends]

/-! ## Resolving trigrams -/

/-- `pg_tre_posting_materialize` of a posting that it reads: an owned map, empty when the posting is.
What it makes of the leaves of a chain is `StoredPosting.read`. -/
def postingMaterialize (posting : Finset ℕ) : Sm := some posting

/-- `pg_tre_upper_lookup_root` and the posting it finds. -/
def upperLookupRoot (idx : ScanIndex) (root : Option BlockNumber) (h : UInt64) : Sm :=
  ((idx.treeAt root).lookup h).bind postingMaterialize

/-- `pg_tre_upper_lookup`: the same at the root of the meta page. -/
def upperLookup (idx : ScanIndex) (h : UInt64) : Sm := upperLookupRoot idx idx.rootUpper h

/-- A lookup yields the posting of the tree. -/
theorem smMembers_upperLookupRoot (idx : ScanIndex) (root : Option BlockNumber) (h : UInt64) :
    smMembers (upperLookupRoot idx root h) = (idx.treeAt root).postings h := by
  unfold upperLookupRoot UpperTree.postings
  cases (idx.treeAt root).lookup h with
  | none => rfl
  | some s => rfl

/-- `resolve_trigram_runs` without the crack cache, which is off by default: the union of the
postings in all runs whose hash range has the trigram. -/
def resolveTrigramRuns (idx : ScanIndex) (h : UInt64) : Sm :=
  idx.iterate.foldl (fun sm run => smAccumulate sm
    (if h < run.minTrigramHash ∨ run.maxTrigramHash < h then none
      else upperLookupRoot idx run.rootUpper h)) none

/-- `resolve_conjunct_with_overlay`. -/
def resolveConjunctWithOverlay (idx : ScanIndex) (ov : List PendingOverlayEntry)
    (conj : TrigramConjunct) : Sm :=
  conj.alts.foldl (fun accum a => smAccumulate accum
    (smAccumulate (resolveTrigramRuns idx a.trigramHash) (overlayLookup ov a.trigramHash))) none

/-- The loop over what must hold together: it ends with `NULL` at the first missing map and
when an intersection is empty. -/
def smConjoin : List Sm → Sm → Sm
  | [], result => result
  | none :: _, _ => none
  | some sm :: rest, none => smConjoin rest (some sm)
  | some sm :: rest, some result =>
      match smIntersection result sm with
      | none => none
      | some merged => smConjoin rest (some merged)

/-- The loop over the pieces. Two maps that are both empty have no union, which the code takes
for a failed allocation. -/
def smUnitePieces : List Sm → Sm → Except PgError Sm
  | [], result => .ok result
  | none :: rest, result => smUnitePieces rest result
  | some piece :: rest, none => smUnitePieces rest (some piece)
  | some piece :: rest, some result =>
      match smUnion result piece with
      | none => .error ⟨"out of memory"⟩
      | some u => smUnitePieces rest (some u)

/-- The arm of `tre_compute_candidate_sm` for DNF queries: every listed trigram is looked up in
the base tree and in the overlay. -/
def dnfArm (idx : ScanIndex) (ov : List PendingOverlayEntry) (tiles : List TrigramConjunct) : Sm :=
  tiles.foldl (fun result tile => tile.alts.foldl (fun result a => smAccumulate result
    (smAccumulate (upperLookup idx a.trigramHash) (overlayLookup ov a.trigramHash))) result) none

/-- `tre_compute_candidate_sm`, with the flag it sets when the query restricts nothing. -/
def treComputeCandidateSm (idx : ScanIndex) (q : TrigramQuery) : Except PgError (Sm × Bool) :=
  if q.alwaysTrue then .ok (none, true)
  else
    match overlayBuild idx q with
    | .error e => .error e
    | .ok ov =>
        match q.mode with
        | .cnf => .ok (smConjoin (q.conjuncts.map (resolveConjunctWithOverlay idx ov)) none, false)
        | .pieces =>
            match smUnitePieces (q.conjuncts.map fun piece =>
                smConjoin (piece.alts.map fun a => resolveConjunctWithOverlay idx ov ⟨[a]⟩) none)
                none with
            | .error e => .error e
            | .ok result => .ok (result, false)
        | .dnf => .ok (dnfArm idx ov q.conjuncts, false)

/-! ## DNF queries -/

/-- The arm goes through the listed trigrams one by one. -/
theorem dnfArm_eq (idx : ScanIndex) (ov : List PendingOverlayEntry) (tiles : List TrigramConjunct) :
    dnfArm idx ov tiles = (tiles.flatMap (·.alts)).foldl (fun result a => smAccumulate result
      (smAccumulate (upperLookup idx a.trigramHash) (overlayLookup ov a.trigramHash))) none := by
  rw [dnfArm, List.foldl_flatMap]

/-- The maps of the DNF arm, tile by tile. -/
theorem mem_dnfArm {idx : ScanIndex} {ov : List PendingOverlayEntry}
    {tiles : List TrigramConjunct} {tid : ℕ} :
    tid ∈ smMembers (dnfArm idx ov tiles) ↔ ∃ tile ∈ tiles, ∃ a ∈ tile.alts,
      tid ∈ (idx.treeAt idx.rootUpper).postings a.trigramHash ∨
        tid ∈ smMembers (overlayLookup ov a.trigramHash) := by
  rw [dnfArm_eq, mem_foldl_smAccumulate]
  simp only [smMembers_none, Finset.notMem_empty, false_or, List.mem_flatMap,
    smMembers_smAccumulate, Finset.mem_union, upperLookup, smMembers_upperLookupRoot]
  constructor
  · rintro ⟨a, ⟨tile, htile, ha⟩, hmem⟩
    exact ⟨tile, htile, a, ha, hmem⟩
  · rintro ⟨tile, htile, a, ha, hmem⟩
    exact ⟨a, ⟨tile, htile, ha⟩, hmem⟩

end PgTre
