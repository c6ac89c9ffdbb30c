import PgTre.Util.Allocation
import PgTre.Am.StoredIndex

/-!
# A scan that runs out of memory

The sparsemap library returns `NULL` when an allocation fails, and `tre_compute_candidate_sm` takes
`NULL` for a trigram without postings almost everywhere. The union of two pieces raises an error
instead, and the copies for the crack cache are done without. Every other failed allocation may
cost the scan its candidates.

Here the candidate computation of `CandidateSet` and `CrackCache` is written once more with its
requests for memory. Intersections are taken to succeed.
-/

namespace PgTre

open Allocating

/-! ## The library's operations -/

/-- `sm_union`, guarded or not. -/
def requestUnion (guarded : Bool) (a b : Finset ℕ) : Allocating Sm :=
  .request guarded fun met => .done (if met then smUnion a b else none)

/-- `sm_open_copy`, `sm_copy`, `sm_create` and `sm_add_grow`: the map, or `NULL`. -/
def requestMap (sm : Finset ℕ) : Allocating Sm := obtain? false sm

/-- How a loop collects maps, with the union's request. -/
def requestAccumulate (accum sm : Sm) : Allocating Sm :=
  match accum, sm with
  | accum, none => pure accum
  | none, some s => pure (some s)
  | some a, some s => requestUnion false a s

/-- The requested union is the union. -/
theorem ensures_requestUnion (a b : Finset ℕ) :
    (requestUnion false a b).Ensures true (· = smUnion a b) :=
  ⟨rfl, fun _ hguarded => by cases hguarded⟩

/-- A loop collects what `smAccumulate` says. -/
theorem ensures_requestAccumulate (accum sm : Sm) :
    (requestAccumulate accum sm).Ensures true (· = smAccumulate accum sm) := by
  cases sm with
  | none => exact rfl
  | some b =>
    cases accum with
    | none => exact rfl
    | some a => exact ensures_requestUnion a b

/-! ## Reading a posting -/

/-- The carry of `carryLeaf` with its requests. -/
def carryLeafRequesting (root : BlockNumber) :
    List Sm → Finset ℕ → Allocating (Except MergeStop (List Sm))
  | [], _ => pure (.error (.error ⟨s!"pg_tre: posting chain from block {root} is too long"⟩))
  | none :: slots, sm => pure (.ok (some sm :: slots))
  | some slot :: slots, sm => do
      match ← requestUnion false slot sm with
      | none => pure (.error .null)
      | some merged =>
          match ← carryLeafRequesting root slots merged with
          | .error stop => pure (.error stop)
          | .ok slots => pure (.ok (none :: slots))

/-- The loop over the leaves: each is opened as a copy and carried upward. -/
def carryLeavesRequesting (root : BlockNumber) :
    List (Finset ℕ) → List Sm → Allocating (Except MergeStop (List Sm))
  | [], slots => pure (.ok slots)
  | leaf :: leaves, slots => do
      match ← requestMap leaf with
      | none => pure (.error .null)
      | some sm =>
          match ← carryLeafRequesting root slots sm with
          | .error stop => pure (.error stop)
          | .ok slots => carryLeavesRequesting root leaves slots

/-- `foldSlots` with its requests. -/
def foldSlotsRequesting : List Sm → Sm → Allocating Sm
  | [], sm => pure sm
  | none :: slots, sm => foldSlotsRequesting slots sm
  | some slot :: slots, none => foldSlotsRequesting slots (some slot)
  | some slot :: slots, some sm => do
      match ← requestUnion false slot sm with
      | none => pure none
      | some merged => foldSlotsRequesting slots (some merged)

/-- How the scan stops early. -/
inductive ScanStop where
  | error (e : PgError)
  /-- A probe of the crack cache goes round for ever. -/
  | endless

/-- A part of the scan. -/
abbrev Scanning := ExceptT ScanStop Allocating

/-- `pg_tre_posting_materialize`. -/
def materialize (posting : StoredPosting) : Scanning Sm :=
  if posting.leaves = [] then liftM (requestMap ∅)
  else do
    match ← carryLeavesRequesting posting.root posting.leaves emptySlots with
    | .error .null => pure none
    | .error (.error e) => throw (.error e)
    | .ok slots => foldSlotsRequesting slots none

/-- In a run without failures the carry is the one of `carryLeaf`. -/
theorem ensures_carryLeafRequesting (root : BlockNumber) (slots : List Sm) (sm : Finset ℕ) :
    (carryLeafRequesting root slots sm).Ensures true (· = carryLeaf root slots sm) := by
  induction slots generalizing sm with
  | nil => exact rfl
  | cons slot slots ih =>
    cases slot with
    | none => exact rfl
    | some a =>
      rw [carryLeafRequesting, carryLeaf]
      refine Ensures.bind (ensures_requestUnion a sm) fun u hu => ?_
      rw [hu]
      cases smUnion a sm with
      | none => exact rfl
      | some merged =>
        refine Ensures.bind (ih merged) fun result hresult => ?_
        rw [hresult]
        dsimp only
        cases carryLeaf root slots merged with
        | error stop => exact rfl
        | ok slots' => exact rfl

/-- So is the merge of all leaves. -/
theorem ensures_carryLeavesRequesting (root : BlockNumber) (leaves : List (Finset ℕ))
    (slots : List Sm) :
    (carryLeavesRequesting root leaves slots).Ensures true (· = carryLeaves root slots leaves) := by
  induction leaves generalizing slots with
  | nil => exact rfl
  | cons leaf leaves ih =>
    rw [carryLeavesRequesting]
    refine Ensures.bind (ensures_obtain? (S := (· = some leaf)) rfl) fun sm hsm => ?_
    rw [hsm]
    refine Ensures.bind (ensures_carryLeafRequesting root slots leaf) fun result hresult => ?_
    rw [hresult, carryLeaves, List.foldlM_cons]
    cases carryLeaf root slots leaf with
    | error stop => exact rfl
    | ok slots' => exact ih slots'

/-- And so is the fold. -/
theorem ensures_foldSlotsRequesting (slots : List Sm) (sm : Sm) :
    (foldSlotsRequesting slots sm).Ensures true (· = foldSlots slots sm) := by
  induction slots generalizing sm with
  | nil => exact rfl
  | cons slot slots ih =>
    cases slot with
    | none => exact ih sm
    | some a =>
      cases sm with
      | none => exact ih (some a)
      | some s =>
        rw [foldSlotsRequesting, foldSlots]
        refine Ensures.bind (ensures_requestUnion a s) fun u hu => ?_
        rw [hu]
        cases smUnion a s with
        | none => exact rfl
        | some merged => exact ih (some merged)

/-- The scan may raise errors, but it must come to an end. -/
def ScanStop.IsError : ScanStop → Prop
  | error _ => True
  | endless => False

/-- A posting is read as the merge of its leaves. -/
theorem ensures_materialize {allowed : ScanStop → Prop} (posting : StoredPosting) :
    EnsuresOk allowed (· = posting.read) (materialize posting) := by
  unfold materialize
  split_ifs with hnil
  · refine ensuresOk_lift (ensures_obtain? ?_)
    rw [StoredPosting.read, StoredPosting.tids, hnil]
    rfl
  · refine EnsuresOk.bind (ensuresOk_lift (ensures_carryLeavesRequesting _ _ _))
      fun result hresult => ?_
    have hread := mergeReturn_read hnil
    rw [← hresult] at hread
    cases result with
    | ok slots =>
      refine ensuresOk_lift ((ensures_foldSlotsRequesting slots none).mono fun r hr => ?_)
      rw [hr]
      exact Except.ok.inj hread
    | error stop =>
      cases stop with
      | null => exact ensuresOk_pure (Except.ok.inj hread)
      | error e => cases hread

/-! ## The pending overlay -/

/-- The overlay with the maps that were made of its entries so far. -/
abbrev LazyOverlay := List (PendingOverlayEntry × Sm)

/-- The loop of `overlay_lookup` over the sorted TIDs of an entry. Duplicates are skipped. -/
def addTids : List ℕ → Option ℕ → Finset ℕ → Allocating Sm
  | [], _, sm => pure (some sm)
  | packed :: rest, previous, sm =>
      if previous = some packed then addTids rest previous sm
      else do
        match ← requestMap (insert packed sm) with
        | none => pure none
        | some sm => addTids rest (some packed) sm

/-- The map `overlay_lookup` makes of an entry. -/
def overlayMap (tidsArr : List ℕ) : Allocating Sm := do
  match ← requestMap ∅ with
  | none => pure none
  | some sm => addTids (tidsArr.mergeSort (· ≤ ·)) none sm

/-- `overlay_lookup`. A map is kept for the next lookup, a failure is not. -/
def lazyLookup (h : UInt64) : LazyOverlay → Allocating (Sm × LazyOverlay)
  | [] => pure (none, [])
  | (e, tids) :: rest =>
      if e.trigramHash = h then
        match tids with
        | some sm => pure (some sm, (e, tids) :: rest)
        | none =>
            if e.tidsArr = [] then pure (none, (e, tids) :: rest)
            else do
              let sm ← overlayMap e.tidsArr
              pure (sm, (e, sm) :: rest)
      else do
        let found ← lazyLookup h rest
        pure (found.1, (e, tids) :: found.2)

/-- The maps the overlay keeps are those of their entries. -/
def LazyOverlay.Kept (ov : LazyOverlay) : Prop :=
  ∀ e ∈ ov, ∀ sm, e.2 = some sm → e.1.tidsArr ≠ [] ∧ sm = e.1.tidsArr.toFinset

/-- All TIDs of a list end up in the map. -/
theorem ensures_addTids {tids : List ℕ} {previous : Option ℕ} {sm : Finset ℕ}
    (hprevious : ∀ tid, previous = some tid → tid ∈ sm) :
    (addTids tids previous sm).Ensures true (· = some (sm ∪ tids.toFinset)) := by
  induction tids generalizing previous sm with
  | nil => exact congrArg some (Finset.union_empty sm).symm
  | cons packed rest ih =>
    rw [addTids]
    split_ifs with hsame
    · -- A duplicate is in the map already.
      have hmem := hprevious packed hsame
      rw [List.toFinset_cons, Finset.union_insert, ← Finset.insert_union, Finset.insert_eq_of_mem hmem]
      exact ih hprevious
    · refine Ensures.bind (ensures_obtain? (S := (· = some (insert packed sm))) rfl) fun m hm => ?_
      rw [hm, List.toFinset_cons, Finset.union_insert, ← Finset.insert_union]
      refine ih fun tid htid => ?_
      rw [← Option.some.inj htid]
      exact Finset.mem_insert_self _ _

/-- The overlay's map holds the TIDs of the array. -/
theorem ensures_overlayMap (tidsArr : List ℕ) :
    (overlayMap tidsArr).Ensures true (· = some tidsArr.toFinset) := by
  refine Ensures.bind (ensures_obtain? (S := (· = some ∅)) rfl) fun m hm => ?_
  rw [hm]
  refine (ensures_addTids (by simp)).mono fun r hr => ?_
  rw [hr, Finset.empty_union]
  refine congrArg some (Finset.ext fun tid => ?_)
  rw [List.mem_toFinset, List.mem_toFinset, List.mem_mergeSort]

/-- A lookup has the map of the overlay and leaves its entries as they were. -/
theorem ensures_lazyLookup (h : UInt64) {ov : LazyOverlay} (hkept : ov.Kept) :
    (lazyLookup h ov).Ensures true fun r => r.1 = overlayLookup (ov.map Prod.fst) h ∧
      r.2.map Prod.fst = ov.map Prod.fst ∧ r.2.Kept := by
  induction ov with
  | nil => exact ⟨rfl, rfl, hkept⟩
  | cons entry rest ih =>
    obtain ⟨e, tids⟩ := entry
    have hrest : LazyOverlay.Kept rest := fun e' he' => hkept e' (List.mem_cons_of_mem _ he')
    unfold lazyLookup
    by_cases heq : e.trigramHash = h
    · rw [if_pos heq]
      have hlookup : overlayLookup (((e, tids) :: rest).map Prod.fst) h =
          if e.tidsArr = [] then none else some e.tidsArr.toFinset := by
        rw [overlayLookup, List.map_cons, List.find?_cons_of_pos (by simpa using heq)]
      rw [hlookup]
      cases tids with
      | some sm =>
        obtain ⟨hne, hsm⟩ := hkept (e, some sm) List.mem_cons_self sm rfl
        exact ⟨by rw [if_neg hne, hsm], rfl, hkept⟩
      | none =>
        dsimp only
        split_ifs with hnil
        · exact ⟨rfl, rfl, hkept⟩
        · refine Ensures.bind (ensures_overlayMap e.tidsArr) fun sm hsm => ?_
          refine ⟨hsm, rfl, fun e' he' sm' hsm' => ?_⟩
          rcases List.mem_cons.mp he' with rfl | he'
          · rw [hsm] at hsm'
            exact ⟨hnil, (Option.some.inj hsm').symm⟩
          · exact hrest e' he' sm' hsm'
    · rw [if_neg heq]
      refine Ensures.bind (ih hrest) fun r hr => ?_
      obtain ⟨hfound, hentries, hkept'⟩ := hr
      refine ⟨?_, ?_, fun e' he' => ?_⟩
      · rw [hfound, overlayLookup, overlayLookup, List.map_cons,
          List.find?_cons_of_neg (by simpa using heq)]
      · simp [hentries]
      · rcases List.mem_cons.mp he' with rfl | he'
        · exact hkept _ List.mem_cons_self
        · exact hkept' e' he'

/-! ## The index and the runs -/

/-- `pg_tre_upper_lookup_root` and the posting it finds. -/
def lookupRoot (idx : StoredIndex) (root : Option BlockNumber) (h : UInt64) : Scanning Sm :=
  match (idx.treeAt root).lookup h with
  | none => pure none
  | some _ => materialize (idx.stored root h)

/-- The loop of `resolve_trigram_runs` over the runs. -/
def uniteRuns (idx : StoredIndex) (h : UInt64) : List PgTreRun → Sm → Scanning Sm
  | [], sm => pure sm
  | run :: rest, sm =>
      if h < run.minTrigramHash ∨ run.maxTrigramHash < h then uniteRuns idx h rest sm
      else do
        let found ← lookupRoot idx run.rootUpper h
        uniteRuns idx h rest (← liftM (requestAccumulate sm found))

/-- What a scan carries along: the overlay and the crack cache. -/
structure ScanMemo where
  overlay : LazyOverlay
  cache : CrackCache

/-- `resolve_trigram_runs`. When the copy of a cached map fails, the runs are read again; when a
map cannot be copied into the cache, its slot stays free. -/
def resolveRuns (idx : StoredIndex) (h : UInt64) (cc : CrackCache) : Scanning (Sm × CrackCache) :=
  if cc.slots = [] then do
    pure (← uniteRuns idx h idx.iterate none, cc)
  else
    match crackCacheSlot cc h with
    | none => throw .endless
    | some i =>
        match cc.slots[i]? with
        | none => throw .endless
        | some slot =>
            if slot.used then
              match (if slot.present then slot.runsSm else none) with
              | none => pure (none, cc)
              | some runsSm => do
                  match ← liftM (obtain? true runsSm) with
                  | some hit => pure (some hit, cc)
                  | none => pure (← uniteRuns idx h idx.iterate none, cc)
            else do
              match ← uniteRuns idx h idx.iterate none with
              | none => pure (none, ⟨cc.slots.set i ⟨h, true, false, none⟩⟩)
              | some sm =>
                  match ← liftM (obtain? true sm) with
                  | some cached => pure (some sm, ⟨cc.slots.set i ⟨h, true, true, some cached⟩⟩)
                  | none => pure (some sm, cc)

/-- The TIDs pending for a trigram join those of the runs. -/
def joinPending (sm pend : Sm) : Allocating Sm :=
  match pend, sm with
  | none, sm => pure sm
  | some p, none => requestMap p
  | some p, some s => requestUnion false s p

/-- The loop of `resolve_conjunct_with_overlay`. -/
def resolveAlts (idx : StoredIndex) : List TrigramDisjunct → Sm → ScanMemo → Scanning (Sm × ScanMemo)
  | [], accum, memo => pure (accum, memo)
  | a :: rest, accum, memo => do
      let runs ← resolveRuns idx a.trigramHash memo.cache
      let pend ← liftM (lazyLookup a.trigramHash memo.overlay)
      let sm ← liftM (joinPending runs.1 pend.1)
      resolveAlts idx rest (← liftM (requestAccumulate accum sm)) ⟨pend.2, runs.2⟩

/-- `resolve_conjunct_with_overlay`. -/
def resolveConjunct (idx : StoredIndex) (conj : TrigramConjunct) (memo : ScanMemo) :
    Scanning (Sm × ScanMemo) :=
  resolveAlts idx conj.alts none memo

/-- The loop over what must hold together. -/
def conjoin (idx : StoredIndex) :
    List TrigramConjunct → Sm → ScanMemo → Scanning (Sm × ScanMemo)
  | [], result, memo => pure (result, memo)
  | conj :: rest, result, memo => do
      match ← resolveConjunct idx conj memo with
      | (none, memo) => pure (none, memo)
      | (some sm, memo) =>
          match result with
          | none => conjoin idx rest (some sm) memo
          | some result =>
              match smIntersection result sm with
              | none => pure (none, memo)
              | some merged => conjoin idx rest (some merged) memo

/-- The loop over the pieces. A union that fails is an error. -/
def unitePieces (idx : StoredIndex) : List TrigramConjunct → Sm → ScanMemo → Scanning Sm
  | [], result, _ => pure result
  | piece :: rest, result, memo => do
      match ← conjoin idx (piece.alts.map fun a => ⟨[a]⟩) none memo with
      | (none, memo) => unitePieces idx rest result memo
      | (some sm, memo) =>
          match result with
          | none => unitePieces idx rest (some sm) memo
          | some result =>
              match ← liftM (requestUnion true result sm) with
              | none => throw (.error ⟨"out of memory"⟩)
              | some u => unitePieces idx rest (some u) memo

/-- The arm for DNF queries, over all trigrams they list. -/
def uniteListed (idx : StoredIndex) : List TrigramDisjunct → Sm → LazyOverlay → Scanning Sm
  | [], result, _ => pure result
  | a :: rest, result, ov => do
      let base ← lookupRoot idx idx.rootUpper a.trigramHash
      let pend ← liftM (lazyLookup a.trigramHash ov)
      let sm ← liftM (joinPending base pend.1)
      uniteListed idx rest (← liftM (requestAccumulate result sm)) pend.2

/-- `tre_compute_candidate_sm` with its requests for memory. -/
def computeCandidates (crackOnRead : Bool) (idx : StoredIndex) (q : TrigramQuery) :
    Scanning (Sm × Bool) :=
  if q.alwaysTrue then pure (none, true)
  else
    match overlayBuild idx.toScanIndex q with
    | .error e => throw (.error e)
    | .ok ov => do
        let memo : ScanMemo := ⟨ov.map fun e => (e, none), crackCacheInit crackOnRead q⟩
        match q.mode with
        | .cnf => pure ((← conjoin idx q.conjuncts none memo).1, false)
        | .pieces => pure (← unitePieces idx q.conjuncts none memo, false)
        | .dnf => pure (← uniteListed idx (q.conjuncts.flatMap (·.alts)) none memo.overlay, false)

/-! ## What a scan ensures while only guarded requests fail -/

section

variable {idx : StoredIndex} {allowed : ScanStop → Prop}

/-- A lookup is one in the index as it is read. -/
theorem ensures_lookupRoot (root : Option BlockNumber) (h : UInt64) :
    EnsuresOk allowed (· = upperLookupRoot idx.asRead root h) (lookupRoot idx root h) := by
  rw [upperLookupRoot_asRead]
  unfold lookupRoot
  cases (idx.treeAt root).lookup h with
  | none => exact ensuresOk_pure rfl
  | some s => exact ensures_materialize (idx.stored root h)

/-- The loop over the runs unites what is read of each. -/
theorem ensures_uniteRuns (h : UInt64) (runs : List PgTreRun) (sm : Sm) :
    EnsuresOk allowed (· = runs.foldl (fun sm run => smAccumulate sm
        (if h < run.minTrigramHash ∨ run.maxTrigramHash < h then none
          else upperLookupRoot idx.asRead run.rootUpper h)) sm)
      (uniteRuns idx h runs sm) := by
  induction runs generalizing sm with
  | nil => exact ensuresOk_pure rfl
  | cons run rest ih =>
    rw [uniteRuns, List.foldl_cons]
    split_ifs with hskip
    · exact ih sm
    · refine EnsuresOk.bind (ensures_lookupRoot run.rootUpper h) fun found hfound => ?_
      refine EnsuresOk.bind (ensuresOk_lift (ensures_requestAccumulate sm found)) fun u hu => ?_
      rw [hu, hfound]
      exact ih _

/-- Uniting over the iterator reads what the index resolves. -/
theorem ensures_uniteRuns_iterate (h : UInt64) :
    EnsuresOk allowed (· = resolveTrigramRuns idx.asRead h) (uniteRuns idx h idx.iterate none) :=
  ensures_uniteRuns h idx.iterate none

/-- A trigram is resolved as without the cache, which stays good. -/
theorem ensures_resolveRuns {cc : CrackCache} {left : ℕ} (h : UInt64)
    (hgood : cc.Good idx.asRead (left + 1)) :
    EnsuresOk allowed (fun r => r.1 = resolveTrigramRuns idx.asRead h ∧ r.2.Good idx.asRead left)
      (resolveRuns idx h cc) := by
  have hless : cc.Good idx.asRead left := hgood.mono (Nat.le_succ left)
  have hunite := @ensures_uniteRuns_iterate idx allowed h
  have hagain : EnsuresOk allowed
      (fun r => r.1 = resolveTrigramRuns idx.asRead h ∧ r.2.Good idx.asRead left)
      (do pure (← uniteRuns idx h idx.iterate none, cc)) :=
    hunite.bind fun sm hsm => ensuresOk_pure ⟨hsm, hless⟩
  unfold resolveRuns
  by_cases hnil : cc.slots = []
  · rw [if_pos hnil]
    exact hagain
  have hroom := hgood.room.resolve_left hnil
  obtain ⟨i, slot, hslot, hget, hstop⟩ :=
    crackCacheSlot_eq_some (hgood.power.resolve_left hnil) (by omega) h
  have hi : i < cc.slots.length := (List.getElem?_eq_some_iff.mp hget).1
  simp only [if_neg hnil, hslot, hget]
  by_cases hused : slot.used = true
  · have hhash : slot.hash = h := hstop.resolve_left (by simp [hused])
    obtain ⟨hruns, hpresent⟩ := hgood.right slot (List.mem_of_getElem? hget) hused
    rw [hhash] at hruns hpresent
    have hanswer : (if slot.present then slot.runsSm else none) = resolveTrigramRuns idx.asRead h := by
      rw [hruns, hpresent]
      cases resolveTrigramRuns idx.asRead h with
      | none => rfl
      | some sm => rfl
    rw [if_pos hused, hanswer]
    cases hread : resolveTrigramRuns idx.asRead h with
    | none => exact ensuresOk_pure ⟨rfl, hless⟩
    | some runsSm =>
      rw [hread] at hagain
      -- Without a copy the runs are read again.
      refine EnsuresOk.bind (ensuresOk_lift (ensures_obtain?_guarded
        (S := fun r => r = some runsSm ∨ r = none) (Or.inl rfl) fun _ => Or.inr rfl))
          fun copy hcopy => ?_
      rcases hcopy with rfl | rfl
      · exact ensuresOk_pure ⟨rfl, hless⟩
      · exact hagain
  · rw [if_neg hused]
    refine EnsuresOk.bind hunite fun sm hsm => ?_
    cases sm with
    | none => exact ensuresOk_pure ⟨hsm, hgood.set hi (by rw [← hsm]) (by rw [← hsm]; rfl)⟩
    | some s =>
      refine EnsuresOk.bind (ensuresOk_lift (ensures_obtain?_guarded
        (S := fun r => r = some s ∨ r = none) (Or.inl rfl) fun _ => Or.inr rfl)) fun copy hcopy => ?_
      rcases hcopy with rfl | rfl
      · exact ensuresOk_pure ⟨hsm, hgood.set hi (by rw [← hsm]) (by rw [← hsm]; rfl)⟩
      · exact ensuresOk_pure ⟨hsm, hless⟩

/-- Pending TIDs join the others. -/
theorem ensures_joinPending (sm pend : Sm) :
    (joinPending sm pend).Ensures true (· = smAccumulate sm pend) := by
  cases pend with
  | none => exact rfl
  | some p =>
    cases sm with
    | none => exact ensures_obtain? rfl
    | some a => exact ensures_requestUnion a p

/-! ### The loops -/

/-- What the scan carries along: the overlay is the one that was built, and the cache is good for a
number of further trigrams. -/
structure ScanMemo.Kept (memo : ScanMemo) (idx : StoredIndex) (ov : List PendingOverlayEntry)
    (left : ℕ) : Prop where
  entries : memo.overlay.map Prod.fst = ov
  overlay : memo.overlay.Kept
  cache : memo.cache.Good idx.asRead left

variable {ov : List PendingOverlayEntry} {memo : ScanMemo} {left : ℕ}

/-- A memo kept for more uses is kept for fewer. -/
theorem ScanMemo.Kept.mono (h : memo.Kept idx ov left) {left' : ℕ} (hle : left' ≤ left) :
    memo.Kept idx ov left' :=
  ⟨h.entries, h.overlay, h.cache.mono hle⟩

/-- A conjunct is resolved with the map of each of its trigrams. -/
theorem ensures_resolveAlts {alts : List TrigramDisjunct}
    (hkept : memo.Kept idx ov (left + alts.length)) (accum : Sm) :
    EnsuresOk allowed (fun r => r.1 = alts.foldl (fun accum a => smAccumulate accum
        (smAccumulate (resolveTrigramRuns idx.asRead a.trigramHash) (overlayLookup ov a.trigramHash)))
          accum ∧ r.2.Kept idx ov left)
      (resolveAlts idx alts accum memo) := by
  induction alts generalizing accum memo with
  | nil => exact ensuresOk_pure ⟨rfl, hkept⟩
  | cons a alts ih =>
    rw [resolveAlts]
    refine EnsuresOk.bind (ensures_resolveRuns a.trigramHash hkept.cache) fun runs ⟨hruns, hcache⟩ => ?_
    refine EnsuresOk.bind (ensuresOk_lift (ensures_lazyLookup a.trigramHash hkept.overlay))
      fun pend ⟨hpend, hentries, hoverlay⟩ => ?_
    rw [hkept.entries] at hpend hentries
    refine EnsuresOk.bind (ensuresOk_lift (ensures_joinPending runs.1 pend.1)) fun sm hsm => ?_
    refine EnsuresOk.bind (ensuresOk_lift (ensures_requestAccumulate accum sm)) fun u hu => ?_
    rw [hu, hsm, hruns, hpend, List.foldl_cons]
    exact ih ⟨hentries, hoverlay, hcache⟩ _

/-- A conjunct is resolved as without failures, and the memo stays kept. -/
theorem ensures_resolveConjunct {conj : TrigramConjunct}
    (hkept : memo.Kept idx ov (left + conj.alts.length)) :
    EnsuresOk allowed
      (fun r => r.1 = resolveConjunctWithOverlay idx.asRead ov conj ∧ r.2.Kept idx ov left)
      (resolveConjunct idx conj memo) :=
  ensures_resolveAlts hkept none

/-- The loop over what must hold together ends with the map of `smConjoin`. -/
theorem ensures_conjoin {conjs : List TrigramConjunct}
    (hkept : memo.Kept idx ov (left + (conjs.map (·.alts.length)).sum)) (result : Sm) :
    EnsuresOk allowed
      (fun r => r.1 = smConjoin (conjs.map (resolveConjunctWithOverlay idx.asRead ov)) result ∧
        r.2.Kept idx ov left)
      (conjoin idx conjs result memo) := by
  induction conjs generalizing result memo with
  | nil => exact ensuresOk_pure ⟨rfl, hkept⟩
  | cons conj conjs ih =>
    rw [List.map_cons, List.sum_cons] at hkept
    have hfirst : memo.Kept idx ov (left + (conjs.map (·.alts.length)).sum + conj.alts.length) :=
      hkept.mono (by omega)
    rw [conjoin, List.map_cons]
    refine EnsuresOk.bind (ensures_resolveConjunct hfirst) fun resolved ⟨hsm, hmemo'⟩ => ?_
    obtain ⟨sm, memo'⟩ := resolved
    dsimp only at hsm hmemo'
    have hless : memo'.Kept idx ov left := hmemo'.mono (by omega)
    rw [← hsm]
    cases sm with
    | none => exact ensuresOk_pure ⟨rfl, hless⟩
    | some sm =>
      cases result with
      | none => exact ih hmemo' (some sm)
      | some result =>
        simp only [smConjoin]
        cases smIntersection result sm with
        | none => exact ensuresOk_pure ⟨rfl, hless⟩
        | some merged => exact ih hmemo' (some merged)

/-- The loop over the pieces ends with the map of `smUnitePieces`, or out of memory. -/
theorem ensures_unitePieces (hallowed : allowed (.error ⟨"out of memory"⟩))
    {pieces : List TrigramConjunct}
    (hkept : memo.Kept idx ov (left + (pieces.map (·.alts.length)).sum)) (result : Sm) :
    EnsuresOk allowed (fun r => smUnitePieces (pieces.map fun piece =>
        smConjoin (piece.alts.map fun a => resolveConjunctWithOverlay idx.asRead ov ⟨[a]⟩)
          none) result = .ok r)
      (unitePieces idx pieces result memo) := by
  induction pieces generalizing result memo with
  | nil => exact ensuresOk_pure rfl
  | cons piece pieces ih =>
    have hlen : ((piece.alts.map fun a => (⟨[a]⟩ : TrigramConjunct)).map (·.alts.length)).sum =
        piece.alts.length := by
      simp [Function.comp_def]
    rw [List.map_cons, List.sum_cons] at hkept
    have hfirst : memo.Kept idx ov (left + (pieces.map (·.alts.length)).sum +
        ((piece.alts.map fun a => (⟨[a]⟩ : TrigramConjunct)).map (·.alts.length)).sum) := by
      rw [hlen]
      exact hkept.mono (by omega)
    rw [unitePieces, List.map_cons]
    refine EnsuresOk.bind (ensures_conjoin hfirst none) fun conjoined ⟨hsm, hmemo'⟩ => ?_
    obtain ⟨sm, memo'⟩ := conjoined
    dsimp only at hsm hmemo'
    rw [List.map_map, Function.comp_def] at hsm
    rw [← hsm]
    cases sm with
    | none => exact ih hmemo' result
    | some sm =>
      cases result with
      | none => exact ih hmemo' (some sm)
      | some result =>
        have hunion : (requestUnion true result sm).Ensures true
            fun u => u = smUnion result sm ∨ u = none := ⟨Or.inl rfl, fun _ _ => Or.inr rfl⟩
        refine EnsuresOk.bind (ensuresOk_lift hunion) fun u hu => ?_
        cases u with
        | none => exact ensuresOk_throw hallowed
        | some u =>
          simp only [smUnitePieces, ← hu.resolve_right (by simp)]
          exact ih hmemo' (some u)

/-- The arm for DNF queries ends with its map. -/
theorem ensures_uniteListed {lazy : LazyOverlay} (hlazy : lazy.Kept) (listed : List TrigramDisjunct)
    (result : Sm) :
    EnsuresOk allowed (· = listed.foldl (fun result a => smAccumulate result (smAccumulate
        (upperLookup idx.asRead a.trigramHash) (overlayLookup (lazy.map Prod.fst) a.trigramHash)))
          result)
      (uniteListed idx listed result lazy) := by
  induction listed generalizing result lazy with
  | nil => exact ensuresOk_pure rfl
  | cons a listed ih =>
    rw [uniteListed, List.foldl_cons]
    refine EnsuresOk.bind (ensures_lookupRoot idx.rootUpper a.trigramHash) fun base hbase => ?_
    refine EnsuresOk.bind (ensuresOk_lift (ensures_lazyLookup a.trigramHash hlazy))
      fun pend ⟨hpend, hentries, hlazy'⟩ => ?_
    refine EnsuresOk.bind (ensuresOk_lift (ensures_joinPending base pend.1)) fun sm hsm => ?_
    refine EnsuresOk.bind (ensuresOk_lift (ensures_requestAccumulate result sm)) fun u hu => ?_
    rw [hu, hsm, hbase, hpend, ← hentries]
    exact ih hlazy' _

/-- The scan ends with the candidates of the index as it is read, or out of memory between two
pieces. -/
theorem ensures_computeCandidates (crackOnRead : Bool) (idx : StoredIndex) (q : TrigramQuery)
    (hallowed : q.mode = .pieces → allowed (.error ⟨"out of memory"⟩)) :
    EnsuresOk allowed (fun r => treComputeCandidateSm idx.asRead q = .ok r)
      (computeCandidates crackOnRead idx q) := by
  unfold computeCandidates treComputeCandidateSm
  cases q.alwaysTrue with
  | true => exact ensuresOk_pure rfl
  | false =>
    obtain ⟨ov, hbuild, -⟩ := overlayBuild_spec idx.toScanIndex q
    have hread : overlayBuild idx.asRead q = .ok ov := hbuild
    simp only [hbuild, hread, Bool.false_eq_true, if_false]
    have hentries : (ov.map fun e => (e, (none : Sm))).map Prod.fst = ov := by simp [Function.comp_def]
    have hkept : ScanMemo.Kept ⟨ov.map fun e => (e, none), crackCacheInit crackOnRead q⟩ idx ov
        (0 + (q.conjuncts.map (·.alts.length)).sum) := by
      refine ⟨hentries, fun e he sm hsm => ?_, ?_⟩
      · obtain ⟨e', -, rfl⟩ := List.mem_map.mp he
        cases hsm
      · rw [Nat.zero_add]
        exact crackCacheInit_good crackOnRead idx.asRead q
    cases hmode : q.mode with
    | cnf =>
      refine EnsuresOk.bind (ensures_conjoin hkept none) fun r hr => ensuresOk_pure ?_
      rw [hr.1]
    | pieces =>
      refine EnsuresOk.bind (ensures_unitePieces (hallowed hmode) hkept none) fun r hr =>
        ensuresOk_pure ?_
      dsimp only
      rw [hr]
    | dnf =>
      refine EnsuresOk.bind (ensures_uniteListed hkept.overlay _ none) fun r hr => ensuresOk_pure ?_
      dsimp only at hr
      rw [hr, hentries, dnfArm_eq]

end
/-! ## The scan -/

/-- The outcome of the scan when the given requests fail. -/
def scanOutcome (fails : ℕ → Bool) (crackOnRead : Bool) (idx : StoredIndex) (q : TrigramQuery) :
    Except ScanStop (Sm × Bool) :=
  ((computeCandidates crackOnRead idx q).run.run fails 0).1

/-- A tree with one row under one hash. -/
def singleRowTree (h : UInt64) : UpperTree := ⟨[(h, {1})], by simp⟩

/-- An index built over that row. -/
def singleRowIndex (h : UInt64) : StoredIndex := (builtIndex .dense (singleRowTree h) 1).inOneMap

/-- A CNF query that asks for the same trigram again and again. -/
def repeatedQuery (h : UInt64) (times : ℕ) : TrigramQuery where
  conjuncts := List.replicate times ⟨[⟨h, 0, int32Max⟩]⟩
  minMatchLen := 3
  globalMaxCost := 0
  alwaysTrue := false
  mode := .cnf
  surfRange := none

end PgTre
