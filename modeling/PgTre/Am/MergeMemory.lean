import PgTre.Am.ScanMemory
import PgTre.Am.ScanInterleaving
import PgTre.Pages.BulkDeleteExact

/-!
# Merges that run out of memory

The pending merge, the Hanoi merge and the collapse read postings with `pg_tre_posting_materialize`,
and take a posting that it returns as `NULL` for one that is not there. Every other sparsemap they ask
for raises an error when there is no memory for it.

Here these operations are written once more with their requests for memory. The order in which the
hash table yields its entries is left open; it decides only which request is which.
-/

namespace PgTre

open Allocating Procedure

/-! ## Stored postings -/

/-- How the postings of an index are stored: each by the root of its tree, its hash and its TIDs. -/
structure PostingLayout where
  store : BlockNumber → UInt64 → Finset ℕ → StoredPosting
  tids_store : ∀ root h tids, (store root h tids).tids = tids
  /-- The number of maps `pg_tre_posting_build_finish` makes for a posting. -/
  builderMaps : Finset ℕ → ℕ

/-- The posting of a hash in the tree at a root. -/
def PostingLayout.posting (lay : PostingLayout) (root : Option BlockNumber) (h : UInt64)
    (tids : Finset ℕ) : StoredPosting :=
  match root with
  | none => ⟨0, [tids], by simp⟩
  | some b => lay.store b h tids

/-- A tree without the postings that are read as `NULL`. -/
def PostingLayout.readTree (lay : PostingLayout) (root : Option BlockNumber) (tree : UpperTree) :
    UpperTree where
  entries := tree.entries.filter fun e => !decide (EmptyPair (lay.posting root e.1 e.2).leaves)
  ascending := tree.ascending.sublist List.filter_sublist

/-- The table with what is read of some runs. -/
def PostingLayout.readFold (lay : PostingLayout) (idx : RunIndex) (runs : List PgTreRun) : MergeCtx :=
  runs.foldl (fun mc run =>
    collapseFoldRun (lay.readTree run.rootUpper (idx.treeAt run.rootUpper)) mc) .empty

/-- A part of a merge. -/
abbrev Merging (α : Type) := Procedure ScanIndex ScanStop α

/-- A part of a scan that a merge uses too. -/
def liftScanning {α : Type} (m : Scanning α) : Merging α := ExceptT.mk (liftM m.run)

/-- A map that raises an error when there is no memory for it. -/
def requireMap (message : String) : Merging Unit := do
  match ← liftM (obtain? true ()) with
  | none => throw (.error ⟨message⟩)
  | some () => pure ()

/-- Some such maps. -/
def requireMaps (message : String) : ℕ → Merging Unit
  | 0 => pure ()
  | n + 1 => do
      requireMap message
      requireMaps message n

/-- The posting of the base tree, read with the lookup of `materialize_merged_postings`. -/
def existingPosting (lay : PostingLayout) (base : Option (Option BlockNumber × UpperTree))
    (h : UInt64) : Merging Sm :=
  match base with
  | none => pure none
  | some (root, tree) =>
      match tree.lookup h with
      | none => pure none
      | some posting => liftScanning (materialize (lay.posting root h posting))

/-- The TIDs of an entry united with the posting, if there is one. -/
def uniteExisting (existing : Sm) (tids : Finset ℕ) : Merging Sm :=
  match existing with
  | none => pure (some tids)
  | some existing => liftM (requestUnion true existing tids)

/-- `materialize_merged_postings` on some entries, with the base tree and its root unless
`pending_only` is set. -/
def materializeEntries (lay : PostingLayout) (base : Option (Option BlockNumber × UpperTree)) :
    (entries : List (UInt64 × Finset ℕ)) →
      Merging { l : List (UInt64 × Finset ℕ) // l.map Prod.fst = entries.map Prod.fst }
  | [] => pure ⟨[], rfl⟩
  | (h, tids) :: entries => do
      requireMap "pg_tre: merge accumulator allocation failed"
      requireMap "pg_tre: merge accumulator bulk insert failed"
      let existing ← existingPosting lay base h
      match ← uniteExisting existing tids with
      | none => throw (.error ⟨"pg_tre: out of memory copying sparsemap"⟩)
      | some merged => do
          requireMap "pg_tre: out of memory copying sparsemap"
          requireMaps "pg_tre: failed to allocate sparsemap for serialization"
            (lay.builderMaps merged)
          let rest ← materializeEntries lay base entries
          pure ⟨(h, merged) :: rest.1, by rw [List.map_cons, List.map_cons, rest.2]⟩

/-- `materialize_merged_postings`. -/
def requestMergedPostings (lay : PostingLayout) (base : Option (Option BlockNumber × UpperTree))
    (mc : MergeCtx) : Merging MergeCtx := do
  let l ← materializeEntries lay base mc.entries
  pure ⟨l.1, by rw [l.2]; exact mc.distinct⟩

/-- The loop of `collapse_fold_run`. -/
def foldEntries (lay : PostingLayout) (root : Option BlockNumber) :
    List (UInt64 × Finset ℕ) → MergeCtx → Merging MergeCtx
  | [], mc => pure mc
  | (h, tids) :: entries, mc => do
      match ← liftScanning (materialize (lay.posting root h tids)) with
      | none => foldEntries lay root entries mc
      | some sm => foldEntries lay root entries (mc.add h sm)

/-- The runs folded one after the other. -/
def foldRuns (lay : PostingLayout) (idx : RunIndex) : List PgTreRun → MergeCtx → Merging MergeCtx
  | [], mc => pure mc
  | run :: runs, mc => do
      let mc ← foldEntries lay run.rootUpper (idx.treeAt run.rootUpper).entries mc
      foldRuns lay idx runs mc

/-- One pass of `pg_tre_hanoi_merge`. -/
def hanoiPassRequesting (lay : PostingLayout) (target : ℕ) : Merging Unit := do
  let idx ← get
  let folded ← foldRuns lay idx.toRunIndex (hanoiMerged idx.toRunIndex target) .empty
  let mc ← requestMergedPostings lay none folded
  modify fun _ => { idx with toRunIndex := (hanoiPassWith mc idx.toRunIndex target).2 }
  match (hanoiPassWith mc idx.toRunIndex target).1 with
  | some e => throw (.error e)
  | none => pure ()

/-- The passes of `pg_tre_hanoi_merge`. -/
def hanoiLoopRequesting (lay : PostingLayout) (maxLevels : ℕ) : ℕ → ℕ → Merging ℕ
  | 0, passes => pure passes
  | guard + 1, passes => do
      match targetLevel maxLevels (hanoiCollect (← get).toRunIndex) with
      | none => pure passes
      | some target => do
          hanoiPassRequesting lay target
          hanoiLoopRequesting lay maxLevels guard (passes + 1)

/-- `pg_tre_hanoi_merge`. -/
def hanoiMergeRequesting (lay : PostingLayout) : Merging ℕ := do
  let idx ← get
  hanoiLoopRequesting lay idx.levelLimit 64 0

section

variable {lay : PostingLayout} {idx s : ScanIndex} {tolerant : Bool}

/-- An error before anything was changed, if there may be one. -/
def ErrorAt (may : Prop) (s : ScanIndex) (e : ScanStop) (t : ScanIndex) : Prop :=
  may ∧ e.IsError ∧ t = s

/-- An error stays one under a weaker permission. -/
theorem ErrorAt.mono {may may' : Prop} (himp : may → may') {e : ScanStop} {t : ScanIndex}
    (h : ErrorAt may s e t) : ErrorAt may' s e t := ⟨himp h.1, h.2⟩

/-- A part of a scan that raises no error leaves the index alone. -/
theorem meets_liftScanning {may : Prop} {α : Type} {P : α → Prop} {m : Scanning α}
    (h : EnsuresOk (fun _ => False) P m) :
    (liftScanning m).Meets tolerant (fun a t => P a ∧ t = s) (ErrorAt may s) s := by
  change Ensures tolerant _
    (m.run >>= fun r => (pure (r, s) : Allocating (Except ScanStop α × ScanIndex)))
  refine Ensures.bind (Ensures.of_tolerant h) fun r hr => ?_
  cases r with
  | ok a => exact ⟨hr, rfl⟩
  | error e => exact hr.elim

/-- A required map leaves the state alone and fails only where failure is tolerated. -/
theorem meets_requireMap (message : String) :
    (requireMap message).Meets tolerant (fun _ t => t = s) (ErrorAt (tolerant = true) s) s :=
  meets_request_bind (meets_pure rfl) fun hmay _ => meets_throw ⟨hmay, trivial, rfl⟩

/-- So does a sequence of required maps. -/
theorem meets_requireMaps (message : String) (n : ℕ) :
    (requireMaps message n).Meets tolerant (fun _ t => t = s) (ErrorAt (tolerant = true) s) s := by
  induction n with
  | zero => exact meets_pure rfl
  | succ n ih => exact Meets.bind (meets_requireMap message) fun _ t ht => ht ▸ ih

/-- A stored posting has the TIDs it was built from. -/
theorem tids_posting (lay : PostingLayout) (root : Option BlockNumber) (h : UInt64)
    (tids : Finset ℕ) : (lay.posting root h tids).tids = tids := by
  cases root with
  | none => simp [PostingLayout.posting, StoredPosting.tids]
  | some b => exact lay.tids_store b h tids

/-- A posting of a tree is read with its TIDs, or as `NULL`. -/
theorem meets_readPosting {may : Prop} (root : Option BlockNumber) (h : UInt64) (tids : Finset ℕ) :
    (liftScanning (materialize (lay.posting root h tids))).Meets tolerant
      (fun r t => r = (if EmptyPair (lay.posting root h tids).leaves then none else some tids) ∧ t = s)
      (ErrorAt may s) s := by
  have hread := @meets_liftScanning s tolerant may _ _ _ (ensures_materialize (lay.posting root h tids))
  rwa [StoredPosting.read, tids_posting] at hread

/-- The TIDs of an entry with the posting of the base tree. -/
def mergedTids (base : Option (Option BlockNumber × UpperTree)) (h : UInt64) (tids : Finset ℕ) :
    Finset ℕ :=
  match base with
  | none => tids
  | some (_, tree) => tree.postings h ∪ tids

/-- The posting of the base tree for a hash, if it is there, unites no two empty leaves. -/
def PostingLayout.BaseWhole (lay : PostingLayout) (base : Option (Option BlockNumber × UpperTree))
    (h : UInt64) : Prop :=
  ∀ root tree posting, base = some (root, tree) → tree.lookup h = some posting →
    ¬EmptyPair (lay.posting root h posting).leaves

/-- The posting of the base tree is read with its TIDs. -/
theorem meets_existingPosting {may : Prop} {base : Option (Option BlockNumber × UpperTree)} {h : UInt64}
    (hbase : lay.BaseWhole base h) :
    (existingPosting lay base h).Meets tolerant
      (fun r t => ((∀ tids, mergedTids base h tids = smMembers r ∪ tids) ∧ (base = none → r = none)) ∧
        t = s) (ErrorAt may s) s := by
  unfold existingPosting
  cases base with
  | none => exact meets_pure ⟨⟨fun tids => (Finset.empty_union tids).symm, fun _ => rfl⟩, rfl⟩
  | some pair =>
    obtain ⟨root, tree⟩ := pair
    dsimp only
    cases hlookup : tree.lookup h with
    | none =>
      refine meets_pure ⟨⟨fun tids => ?_, nofun⟩, rfl⟩
      simp [mergedTids, UpperTree.postings, hlookup]
    | some posting =>
      refine (meets_readPosting root h posting).mono (fun r t hr => ?_) fun _ _ he => he
      rw [hr.1, if_neg (hbase root tree posting rfl hlookup)]
      refine ⟨⟨fun tids => ?_, nofun⟩, hr.2⟩
      simp [mergedTids, UpperTree.postings, hlookup]

/-- A union that is made has the TIDs of both. Without a posting there is one. -/
theorem meets_uniteExisting {may : Prop} (existing : Sm) (tids : Finset ℕ) :
    (uniteExisting existing tids).Meets tolerant
      (fun r t => ((∀ merged, r = some merged → merged = smMembers existing ∪ tids) ∧
        (r = none → existing ≠ none)) ∧ t = s)
      (ErrorAt may s) s := by
  cases existing with
  | none =>
    refine meets_pure ⟨⟨fun merged hmerged => ?_, nofun⟩, rfl⟩
    rw [← Option.some.inj hmerged]
    exact (Finset.empty_union tids).symm
  | some existing =>
    have hunion : ∀ merged, smUnion existing tids = some merged → merged = existing ∪ tids := by
      intro merged hmerged
      unfold smUnion at hmerged
      split_ifs at hmerged
      exact (Option.some.inj hmerged).symm
    exact ⟨⟨⟨hunion, nofun⟩, rfl⟩, fun _ _ => ⟨⟨nofun, nofun⟩, rfl⟩⟩

/-- The entries are materialised with the postings of the base tree. -/
theorem meets_materializeEntries {base : Option (Option BlockNumber × UpperTree)}
    {entries : List (UInt64 × Finset ℕ)} (hbase : ∀ e ∈ entries, lay.BaseWhole base e.1) :
    (materializeEntries lay base entries).Meets tolerant
      (fun l t => l.1 = entries.map (fun e => (e.1, mergedTids base e.1 e.2)) ∧ t = s)
      (ErrorAt (tolerant = true ∨ base ≠ none) s) s := by
  have hmap (message : String) (s : ScanIndex) : (requireMap message).Meets tolerant (fun _ t => t = s)
      (ErrorAt (tolerant = true ∨ base ≠ none) s) s :=
    (meets_requireMap message).mono (fun _ _ h => h) fun _ _ => ErrorAt.mono Or.inl
  induction entries with
  | nil => exact meets_pure ⟨rfl, rfl⟩
  | cons e entries ih =>
    obtain ⟨h, tids⟩ := e
    unfold materializeEntries
    refine Meets.bind (hmap _ _) fun _ t ht => ?_
    subst ht
    refine Meets.bind (hmap _ _) fun _ u hu => ?_
    subst hu
    -- After the posting of the base tree was read, nothing is lost without an error.
    have hrest {merged : Finset ℕ} (hmerged : merged = mergedTids base h tids) :
        (do
          requireMap "pg_tre: out of memory copying sparsemap"
          requireMaps "pg_tre: failed to allocate sparsemap for serialization"
            (lay.builderMaps merged)
          let rest ← materializeEntries lay base entries
          pure ⟨(h, merged) :: rest.1, by rw [List.map_cons, List.map_cons, rest.2]⟩ :
          Merging { l : List (UInt64 × Finset ℕ) //
            l.map Prod.fst = ((h, tids) :: entries).map Prod.fst }).Meets tolerant
          (fun l t => l.1 = ((h, tids) :: entries).map (fun e => (e.1, mergedTids base e.1 e.2)) ∧
            t = u) (ErrorAt (tolerant = true ∨ base ≠ none) u) u := by
      refine Meets.bind (hmap _ _) fun _ v hv => ?_
      subst hv
      refine Meets.bind ((meets_requireMaps _ _).mono (fun _ _ h => h) fun _ _ => ErrorAt.mono Or.inl)
        fun _ w hw => ?_
      subst hw
      refine Meets.bind (ih fun e he => hbase e (List.mem_cons_of_mem _ he)) fun l v hl => ?_
      obtain ⟨hl, rfl⟩ := hl
      refine meets_pure ⟨?_, rfl⟩
      change (h, merged) :: l.1 = (h, mergedTids base h tids) :: _
      rw [hl, hmerged]
    refine Meets.bind (meets_existingPosting (hbase (h, tids) List.mem_cons_self))
      fun existing t ht => ?_
    obtain ⟨⟨hexisting, hnone⟩, rfl⟩ := ht
    refine Meets.bind (meets_uniteExisting existing tids) fun merged t ht => ?_
    obtain ⟨⟨hmerged, hmade⟩, rfl⟩ := ht
    cases merged with
    | none => exact meets_throw ⟨Or.inr fun hbase => hmade rfl (hnone hbase), trivial, rfl⟩
    | some merged => exact hrest ((hmerged merged rfl).trans (hexisting tids).symm)

/-- Without a base tree the table stays as it is. -/
theorem meets_requestMergedPostings_none (mc : MergeCtx) :
    (requestMergedPostings lay none mc).Meets tolerant (fun r t => r = mc ∧ t = s)
      (ErrorAt (tolerant = true) s) s := by
  have hbase : ∀ e ∈ mc.entries, lay.BaseWhole none e.1 := fun e _ root tree posting hnone => by
    cases hnone
  refine Meets.bind ((meets_materializeEntries hbase).mono (fun _ _ h => h) fun _ _ =>
    ErrorAt.mono fun hmay => hmay.resolve_right fun h => h rfl) fun l t hl => meets_pure ⟨?_, hl.2⟩
  obtain ⟨entries, distinct⟩ := mc
  simp only [MergeCtx.mk.injEq]
  rw [hl.1]
  exact List.map_id' entries

/-- The fold of a run reads the postings that are not read as `NULL`. -/
theorem meets_foldEntries {may : Prop} (root : Option BlockNumber) (entries : List (UInt64 × Finset ℕ))
    (mc : MergeCtx) :
    (foldEntries lay root entries mc).Meets tolerant
      (fun r t => r = (entries.filter fun e =>
        !decide (EmptyPair (lay.posting root e.1 e.2).leaves)).foldl
        (fun mc e => mc.add e.1 e.2) mc ∧ t = s) (ErrorAt may s) s := by
  induction entries generalizing mc with
  | nil => exact meets_pure ⟨rfl, rfl⟩
  | cons e entries ih =>
    refine Meets.bind (meets_readPosting root e.1 e.2) fun r t ht => ?_
    obtain ⟨rfl, rfl⟩ := ht
    by_cases hpair : EmptyPair (lay.posting root e.1 e.2).leaves
    · rw [if_pos hpair, List.filter_cons_of_neg (by simpa using hpair)]
      exact ih mc
    · rw [if_neg hpair, List.filter_cons_of_pos (by simpa using hpair)]
      exact ih (mc.add e.1 e.2)

/-- So does that of some runs. -/
theorem meets_foldRuns {may : Prop} (idx : RunIndex) (runs : List PgTreRun) (mc : MergeCtx) :
    (foldRuns lay idx runs mc).Meets tolerant
      (fun r t => r = runs.foldl (fun mc run =>
        collapseFoldRun (lay.readTree run.rootUpper (idx.treeAt run.rootUpper)) mc) mc ∧ t = s)
      (ErrorAt may s) s := by
  induction runs generalizing mc with
  | nil => exact meets_pure ⟨rfl, rfl⟩
  | cons run runs ih =>
    refine Meets.bind (meets_foldEntries _ _ mc) fun r t ht => ?_
    obtain ⟨rfl, rfl⟩ := ht
    exact ih _

/-- The fold and the table after it. -/
theorem meets_foldMerged {runs : List PgTreRun} {α : Type} {f : MergeCtx → Merging α}
    {Q : α → ScanIndex → Prop} {E : ScanStop → ScanIndex → Prop}
    (hE : ∀ e t, ErrorAt (tolerant = true) idx e t → E e t)
    (hf : (f (lay.readFold idx.toRunIndex runs)).Meets tolerant Q E idx) :
    (do
      let folded ← foldRuns lay idx.toRunIndex runs .empty
      let mc ← requestMergedPostings lay none folded
      f mc).Meets tolerant Q E idx := by
  refine Meets.bind ((meets_foldRuns _ _ _).mono (fun _ _ hr => hr) hE) fun r t hr => ?_
  obtain ⟨rfl, rfl⟩ := hr
  refine Meets.bind ((meets_requestMergedPostings_none _).mono (fun _ _ hr => hr) hE)
    fun r u hr => ?_
  obtain ⟨rfl, rfl⟩ := hr
  exact hf

/-- A pass that gets its memory is a pass of the Hanoi merge with what was read of the runs. -/
theorem meets_hanoiPassRequesting (lay : PostingLayout) (target : ℕ) (idx : ScanIndex) :
    (hanoiPassRequesting lay target).Meets tolerant
      (fun _ t => hanoiPassWith (lay.readFold idx.toRunIndex (hanoiMerged idx.toRunIndex target))
        idx.toRunIndex target = (none, t.toRunIndex) ∧ t.pending = idx.pending)
      (fun e t => e.IsError ∧ (tolerant = true ∧ t = idx ∨
        (∃ err, hanoiPassWith (lay.readFold idx.toRunIndex (hanoiMerged idx.toRunIndex target))
          idx.toRunIndex target = (some err, t.toRunIndex)) ∧ t.pending = idx.pending)) idx := by
  unfold hanoiPassRequesting
  refine meets_get_bind (meets_foldMerged (fun _ _ he => ⟨he.2.1, Or.inl ⟨he.1, he.2.2⟩⟩) ?_)
  refine meets_modify_bind ?_
  rcases hpass : hanoiPassWith (lay.readFold idx.toRunIndex (hanoiMerged idx.toRunIndex target))
    idx.toRunIndex target with ⟨_ | e, idx'⟩
  · exact meets_pure ⟨rfl, rfl⟩
  · exact meets_throw ⟨trivial, Or.inr ⟨⟨e, rfl⟩, rfl⟩⟩

/-! ## What they keep -/

/-- The index has the TID for the hash, in a tree or in the pending list. -/
def ScanIndex.Indexed (idx : ScanIndex) (h : UInt64) (tid : ℕ) : Prop :=
  idx.Holds h tid ∨ idx.Pends h tid

/-- The second index has what the first one has. -/
def ScanIndex.Keeps (idx t : ScanIndex) : Prop := ∀ h tid, idx.Indexed h tid → t.Indexed h tid

/-- Keeping composes. -/
theorem ScanIndex.Keeps.trans {idx t u : ScanIndex} (h : idx.Keeps t) (h' : t.Keeps u) :
    idx.Keeps u := fun k tid hmem => h' k tid (h k tid hmem)

/-- Every posting in one leaf. -/
def oneLeafLayout : PostingLayout where
  store b _ tids := ⟨b, [tids], by simp⟩
  tids_store _ _ _ := by simp [StoredPosting.tids]
  builderMaps _ := 1

end

end PgTre
