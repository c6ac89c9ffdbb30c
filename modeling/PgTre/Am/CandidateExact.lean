import PgTre.Am.CrackCache
import PgTre.Am.IndexLife
import PgTre.Query.PerPhrase
import PgTre.Query.TilePieces

/-!
# Exact candidates

For CNF queries `tre_compute_candidate_sm` returns exactly the TIDs that have an alternative of
every conjunct in the index or in the pending list. For PIECES queries it returns exactly those
that have all trigrams of a piece, but not always: when VACUUM has emptied the postings of two
pieces of one trigram each, and no piece before or between them has a match, the union of the two
empty maps is `NULL`, and the scan fails as if it were out of memory.
-/

namespace PgTre

/-! ## What the extraction promises -/

/-- A query that restricts something has a conjunct, and in PIECES mode every piece has a
trigram. -/
structure TrigramQuery.Proper (q : TrigramQuery) : Prop where
  conjuncts : q.mode = .cnf → q.conjuncts ≠ []
  pieces : q.mode = .pieces → ∀ piece ∈ q.conjuncts, piece.alts ≠ []

/-- Three characters or more have a window. -/
theorem windows_ne_nil {w : List CodePoint} (h : 3 ≤ w.length) : Strings.windows w ≠ [] := by
  match w, h with
  | a :: b :: c :: rest, _ => simp [Strings.windows]

/-- The mixed-radix counter keeps its number of digits. -/
theorem length_nextDigits (run : List RunPos) (digit : List ℕ) :
    (nextDigits run digit).length = digit.length := by
  induction run generalizing digit with
  | nil => cases digit <;> rfl
  | cons pos run ih =>
    cases digit with
    | nil => rfl
    | cons d digit =>
      rw [nextDigits]
      split_ifs
      · rfl
      · rw [List.length_cons, ih, List.length_cons]

/-- The strings a run expands to have its length. -/
theorem length_chosenString (run : List RunPos) (p : ℕ) :
    (chosenString run ((nextDigits run)^[p] (List.replicate run.length 0))).length = run.length := by
  have hdigits : ((nextDigits run)^[p] (List.replicate run.length 0)).length = run.length := by
    induction p with
    | zero => exact List.length_replicate
    | succ p ih => rw [Function.iterate_succ_apply', length_nextDigits, ih]
  rw [chosenString, List.length_zipWith, hdigits, min_self]

/-- Every piece of a run has a trigram. -/
theorem tryBuildRunPieces_proper {run : List RunPos} {maxCost : ℤ} {out q : TrigramQuery}
    (h : tryBuildRunPieces run maxCost out = some q) : q.Proper := by
  obtain ⟨hmode, -, prod, -, hconj⟩ := tryBuildRunPieces_eq_some h
  have hlong : 3 ≤ run.length := by
    by_contra hshort
    rw [tryBuildRunPieces, if_pos (by omega)] at h
    cases h
  constructor
  · intro hcnf
    rw [hmode] at hcnf
    cases hcnf
  · intro _ piece hpiece
    rw [hconj] at hpiece
    obtain ⟨p, -, rfl⟩ := List.mem_map.mp hpiece
    have hwindow := windows_ne_nil (by rw [length_chosenString run p]; exact hlong)
    simpa using hwindow

/-- Every piece of a tiling has a trigram. -/
theorem tilePieces_proper {ast : RegexAst} {k : ℤ} {out q : TrigramQuery}
    (h : tilePieces ast k out = some q) : q.Proper := by
  obtain ⟨-, -, hmode, buf, -, ps, -, -, hconj, -⟩ := tilePieces_sound ast k out q h
  constructor
  · intro hcnf
    rw [hmode] at hcnf
    cases hcnf
  · intro _ piece hpiece
    rw [hconj] at hpiece
    obtain ⟨p, -, rfl⟩ := List.mem_map.mp hpiece
    have hlen : 3 ≤ p.text.length := by
      have hlong := p.long
      rw [p.length]
      omega
    simpa [LiteralPiece.conjunct] using windows_ne_nil hlen

/-- Recording the SuRF range changes nothing of this. -/
theorem TrigramQuery.Proper.recordSurfRange {q : TrigramQuery} (h : q.Proper) (root : RegexAst)
    (maxCost : ℤ) : (PgTre.recordSurfRange root maxCost q).Proper := by
  constructor
  · intro hmode
    rw [recordSurfRange_mode] at hmode
    rw [recordSurfRange_conjuncts]
    exact h.conjuncts hmode
  · intro hmode
    rw [recordSurfRange_mode] at hmode
    rw [recordSurfRange_conjuncts]
    exact h.pieces hmode

/-- A tiling of a spine that succeeds is a DNF query. -/
theorem tileSpine_mode {s : Settings} {spine : List SpineEntry} {k : ℤ} {out q : TrigramQuery}
    (h : tileSpine s spine k out = .ok (true, q)) : q.mode = .dnf := by
  unfold tileSpine at h
  dsimp only at h
  generalize (if 2 < k then 2 else k) = tileK at h
  split_ifs at h
  · simp at h
  · simp at h
  · simp at h
  · split at h
    · simp at h
    · simp only [Except.ok.injEq, Prod.mk.injEq, true_and] at h
      rw [← h]

/-- What `regex_extract_query` returns is proper, unless it restricts nothing. -/
theorem regexExtractQuery_proper {s : Settings} {root : RegexAst} {maxCost : ℤ} {q : TrigramQuery}
    (h : regexExtractQuery s root maxCost = .ok q) (htrue : q.alwaysTrue = false) : q.Proper := by
  unfold regexExtractQuery at h
  split_ifs at h with hpos
  · cases htile : tileQuery s root maxCost .zero with
    | error e => simp [htile] at h
    | ok r =>
      obtain ⟨ok, q'⟩ := r
      cases ok with
      | false =>
        simp only [htile, Except.ok.injEq] at h
        rw [← h] at htrue
        cases htrue
      | true =>
        simp only [htile, Except.ok.injEq] at h
        subst h
        unfold tileQuery at htile
        split at htile
        next q'' hpieces =>
          rw [← (Prod.mk.inj (Except.ok.inj htile)).2]
          exact tilePieces_proper hpieces
        next =>
          split at htile
          next => simp at htile
          next spine _ =>
            have hmode := tileSpine_mode htile
            exact ⟨fun hcnf => by simp [hmode] at hcnf, fun hpieces => by simp [hmode] at hpieces⟩
  · dsimp only at h
    split at h
    next q' hpieces =>
      rw [← Except.ok.inj h]
      split_ifs at hpieces
      exact (tryBuildRunPieces_proper hpieces).recordSurfRange root maxCost
    next =>
      rw [← Except.ok.inj h] at htrue ⊢
      apply TrigramQuery.Proper.recordSurfRange
      have hkeeps (q : TrigramQuery) : (recordSurfRange root maxCost q).alwaysTrue = q.alwaysTrue := by
        unfold recordSurfRange
        split_ifs
        · split <;> rfl
        · rfl
      rw [hkeeps] at htrue
      refine ⟨fun _ => ?_, fun hpieces => by cases hpieces⟩
      unfold accumToQuery at htrue ⊢
      dsimp only at htrue ⊢
      split_ifs at htrue ⊢ with hnone
      rw [not_or] at hnone
      intro hnil
      simp only [List.append_eq_nil_iff, List.map_eq_nil_iff] at hnil
      apply hnone.2
      rw [hnil.1, hnil.2]
      rfl

/-! ## Resolving a trigram -/

/-- The index has a TID for a hash, in a tree or in the pending list. -/
def ScanIndex.Finds (idx : ScanIndex) (h : UInt64) (tid : ℕ) : Prop :=
  idx.Holds h tid ∨ idx.Pends h tid

section

variable {idx : ScanIndex}

/-- A run that its range skips has nothing for the trigram. -/
theorem lookup_eq_none_of_skipped (hcover : idx.RangesCover) {run : PgTreRun}
    (hrun : run ∈ idx.iterate) {h : UInt64}
    (hskip : h < run.minTrigramHash ∨ run.maxTrigramHash < h) :
    (idx.treeAt run.rootUpper).lookup h = none := by
  rcases List.mem_cons.mp hrun with rfl | hlive
  · -- the base run has the full range
    rcases hskip with hlow | hhigh
    · exact absurd hlow (UInt64.not_lt.mpr UInt64.zero_le)
    · have hmax : h.toNat < 2 ^ 64 := h.toNat_lt
      have hlt : (UInt64.ofNat (2 ^ 64 - 1)).toNat < h.toNat := UInt64.lt_iff_toNat_lt.mp hhigh
      rw [UInt64.toNat_ofNat'] at hlt
      omega
  · cases hlook : (idx.treeAt run.rootUpper).lookup h with
    | none => rfl
    | some s =>
      have hmem : h ∈ (idx.treeAt run.rootUpper).entries.map Prod.fst :=
        List.mem_map_of_mem (UpperTree.lookup_eq_some.mp hlook)
      obtain ⟨hlo, hhi⟩ := hcover run hlive h hmem
      rcases hskip with hlow | hhigh
      · exact absurd hlow (UInt64.not_lt.mpr hlo)
      · exact absurd hhigh (UInt64.not_lt.mpr hhi)

/-- With covering ranges no run need be skipped. -/
theorem resolveTrigramRuns_eq (hcover : idx.RangesCover) (h : UInt64) :
    resolveTrigramRuns idx h = idx.iterate.foldl
      (fun sm run => smAccumulate sm (upperLookupRoot idx run.rootUpper h)) none := by
  unfold resolveTrigramRuns
  refine List.foldl_ext _ _ _ fun sm run hrun => ?_
  split_ifs with hskip
  · rw [upperLookupRoot, lookup_eq_none_of_skipped hcover hrun hskip]
    rfl
  · rfl

/-- The runs together have what the index holds. -/
theorem mem_resolveTrigramRuns (hcover : idx.RangesCover) {h : UInt64} {tid : ℕ} :
    tid ∈ smMembers (resolveTrigramRuns idx h) ↔ idx.Holds h tid := by
  rw [resolveTrigramRuns_eq hcover, mem_foldl_smAccumulate]
  simp [smMembers_upperLookupRoot, RunIndex.Holds]

/-- A conjunct resolves to what one of its alternatives has. -/
theorem mem_resolveConjunct (hcover : idx.RangesCover) {ov : List PendingOverlayEntry}
    {conj : TrigramConjunct} {tid : ℕ} :
    tid ∈ smMembers (resolveConjunctWithOverlay idx ov conj) ↔ ∃ a ∈ conj.alts,
      idx.Holds a.trigramHash tid ∨ tid ∈ smMembers (overlayLookup ov a.trigramHash) := by
  rw [resolveConjunctWithOverlay, mem_foldl_smAccumulate]
  simp [mem_resolveTrigramRuns hcover]

end

/-! ## CNF queries -/

/-- Conjoining from a map on keeps what is in all maps. -/
theorem mem_smConjoin_some {maps : List Sm} {result : Finset ℕ} {tid : ℕ} :
    tid ∈ smMembers (smConjoin maps (some result)) ↔ tid ∈ result ∧ ∀ m ∈ maps, tid ∈ smMembers m := by
  induction maps generalizing result with
  | nil => simp [smConjoin]
  | cons m maps ih =>
    cases m with
    | none => simp [smConjoin]
    | some sm =>
      rw [smConjoin, smIntersection]
      split_ifs with hempty
      · have hout : ¬ (tid ∈ result ∧ tid ∈ sm) := by
          rw [← Finset.mem_inter, hempty]
          exact Finset.notMem_empty tid
        simp only [smMembers_none, Finset.notMem_empty, List.forall_mem_cons, smMembers_some, false_iff]
        rintro ⟨hin, hsm, -⟩
        exact hout ⟨hin, hsm⟩
      · rw [ih, Finset.mem_inter, List.forall_mem_cons, smMembers_some, and_assoc]

/-- Conjoining some maps gives what is in all of them. -/
theorem mem_smConjoin {maps : List Sm} (hne : maps ≠ []) {tid : ℕ} :
    tid ∈ smMembers (smConjoin maps none) ↔ ∀ m ∈ maps, tid ∈ smMembers m := by
  cases maps with
  | nil => exact absurd rfl hne
  | cons m maps =>
    cases m with
    | none => simp [smConjoin]
    | some sm => rw [smConjoin, mem_smConjoin_some, List.forall_mem_cons, smMembers_some]

/-- The candidates of a CNF query have an alternative of every conjunct. -/
theorem treComputeCandidateSm_cnf {idx : ScanIndex} {q : TrigramQuery} (hcover : idx.RangesCover)
    (hmode : q.mode = .cnf) (htrue : q.alwaysTrue = false) (hproper : q.Proper) :
    ∃ sm, treComputeCandidateSm idx q = .ok (sm, false) ∧ ∀ tid, tid ∈ smMembers sm ↔
      ∀ conj ∈ q.conjuncts, ∃ a ∈ conj.alts, idx.Finds a.trigramHash tid := by
  obtain ⟨ov, hok, hov⟩ := overlayBuild_spec idx q
  refine ⟨smConjoin (q.conjuncts.map (resolveConjunctWithOverlay idx ov)) none, ?_, fun tid => ?_⟩
  · simp [treComputeCandidateSm, htrue, hok, hmode]
  · have hne : q.conjuncts.map (resolveConjunctWithOverlay idx ov) ≠ [] := by
      simpa using hproper.conjuncts hmode
    rw [mem_smConjoin hne, List.forall_mem_map]
    refine forall₂_congr fun conj hconj => ?_
    rw [mem_resolveConjunct hcover]
    refine exists_congr fun a => and_congr_right fun ha => ?_
    rw [hov a.trigramHash ⟨conj, hconj, a, ha, rfl⟩]
    rfl

/-! ## Emptied postings -/

/-- VACUUM has emptied the trigram: nothing has a TID for it, but an odd number of runs still have
its posting. Two empty postings have no union, so an even number of them leaves no map. -/
def ScanIndex.Emptied (idx : ScanIndex) (h : UInt64) : Prop :=
  idx.iterate.countP (fun run => ((idx.treeAt run.rootUpper).lookup h).isSome) % 2 = 1 ∧
    ∀ tid, ¬ idx.Finds h tid

/-- A piece of one trigram, which VACUUM has emptied. -/
def ScanIndex.EmptiedPiece (idx : ScanIndex) (piece : TrigramConjunct) : Prop :=
  ∃ a, piece.alts = [a] ∧ idx.Emptied a.trigramHash

/-- A piece without a match, whose map is `NULL`. -/
def ScanIndex.MissedPiece (idx : ScanIndex) (piece : TrigramConjunct) : Prop :=
  ¬ idx.EmptiedPiece piece ∧ ∀ tid, ∃ a ∈ piece.alts, ¬ idx.Finds a.trigramHash tid

/-- The first two pieces that are not missed are both emptied. -/
def ScanIndex.Stumbles (idx : ScanIndex) (pieces : List TrigramConjunct) : Prop :=
  ∃ pre piece mid piece' post, pieces = pre ++ piece :: (mid ++ piece' :: post) ∧
    (∀ p ∈ pre, idx.MissedPiece p) ∧ idx.EmptiedPiece piece ∧
    (∀ p ∈ mid, idx.MissedPiece p) ∧ idx.EmptiedPiece piece'

/-- Collecting empty maps leaves an empty map or `NULL`, by their number. -/
theorem foldl_smAccumulate_of_empty {α : Type*} {f : α → Sm} {l : List α}
    (h : ∀ x ∈ l, smMembers (f x) = ∅) {accum : Sm} (haccum : smMembers accum = ∅) :
    l.foldl (fun accum x => smAccumulate accum (f x)) accum =
      if (l.countP (fun x => (f x).isSome) + accum.toList.length) % 2 = 1 then some ∅ else none := by
  induction l generalizing accum with
  | nil =>
    cases accum with
    | none => rfl
    | some s =>
      rw [smMembers_some] at haccum
      rw [haccum]
      rfl
  | cons x l ih =>
    obtain ⟨hx, hrest⟩ := List.forall_mem_cons.mp h
    have hstep : smMembers (smAccumulate accum (f x)) = ∅ := by
      rw [smMembers_smAccumulate, haccum, hx, Finset.empty_union]
    rw [List.foldl_cons, ih hrest hstep, List.countP_cons]
    congr 2
    cases hfx : f x with
    | none => simp [smAccumulate]
    | some s =>
      rw [hfx, smMembers_some] at hx
      subst hx
      cases accum with
      | none =>
        simp only [smAccumulate, Option.toList_some, Option.toList_none, List.length_singleton,
          List.length_nil, Option.isSome_some, if_true]
      | some t =>
        rw [smMembers_some] at haccum
        subst haccum
        simp only [smAccumulate, smUnion, Finset.empty_union, if_true, Option.toList_some,
          Option.toList_none, List.length_singleton, List.length_nil, Option.isSome_some]
        omega

/-- A map of the overlay is never empty. -/
theorem overlayLookup_eq_none {ov : List PendingOverlayEntry} {h : UInt64}
    (hempty : smMembers (overlayLookup ov h) = ∅) : overlayLookup ov h = none := by
  unfold overlayLookup at hempty ⊢
  cases hfind : ov.find? (fun e => e.trigramHash = h) with
  | none => rfl
  | some e =>
    simp only [hfind] at hempty ⊢
    split_ifs at hempty ⊢ with hnil
    · rfl
    · rw [smMembers_some, List.toFinset_eq_empty_iff] at hempty
      exact absurd hempty hnil

section

variable {idx : ScanIndex} {q : TrigramQuery} {ov : List PendingOverlayEntry}

/-- What the loop over the alternatives does with a single one. -/
theorem resolveConjunct_single (a : TrigramDisjunct) :
    resolveConjunctWithOverlay idx ov ⟨[a]⟩ =
      smAccumulate (resolveTrigramRuns idx a.trigramHash) (overlayLookup ov a.trigramHash) := by
  simp only [resolveConjunctWithOverlay, List.foldl_cons, List.foldl_nil]
  cases smAccumulate (resolveTrigramRuns idx a.trigramHash) (overlayLookup ov a.trigramHash) with
  | none => rfl
  | some s => rfl

/-- A single trigram resolves to an empty map exactly when VACUUM has emptied it. -/
theorem resolveConjunct_single_eq_empty (hcover : idx.RangesCover) {a : TrigramDisjunct}
    (hov : ∀ tid, tid ∈ smMembers (overlayLookup ov a.trigramHash) ↔ idx.Pends a.trigramHash tid) :
    resolveConjunctWithOverlay idx ov ⟨[a]⟩ = some ∅ ↔ idx.Emptied a.trigramHash := by
  have hmem (tid : ℕ) : tid ∈ smMembers (resolveConjunctWithOverlay idx ov ⟨[a]⟩) ↔
      idx.Finds a.trigramHash tid := by
    rw [mem_resolveConjunct hcover]
    simp [hov, ScanIndex.Finds]
  -- when nothing has a TID for the trigram, the map depends on the number of its postings
  have hparity (hnone : ∀ tid, ¬ idx.Finds a.trigramHash tid) :
      resolveConjunctWithOverlay idx ov ⟨[a]⟩ = if idx.iterate.countP
        (fun run => ((idx.treeAt run.rootUpper).lookup a.trigramHash).isSome) % 2 = 1 then some ∅
        else none := by
    have hpend : overlayLookup ov a.trigramHash = none := by
      apply overlayLookup_eq_none
      rw [Finset.eq_empty_iff_forall_notMem]
      intro tid htid
      exact hnone tid (Or.inr ((hov tid).mp htid))
    have hruns : ∀ run ∈ idx.iterate, smMembers
        (upperLookupRoot idx run.rootUpper a.trigramHash) = ∅ := by
      intro run hrun
      rw [smMembers_upperLookupRoot, Finset.eq_empty_iff_forall_notMem]
      intro tid htid
      exact hnone tid (Or.inl ⟨run, hrun, htid⟩)
    have hsome (run : PgTreRun) : (upperLookupRoot idx run.rootUpper a.trigramHash).isSome =
        ((idx.treeAt run.rootUpper).lookup a.trigramHash).isSome := by
      unfold upperLookupRoot
      cases (idx.treeAt run.rootUpper).lookup a.trigramHash with
      | none => rfl
      | some s => rfl
    rw [resolveConjunct_single, hpend, resolveTrigramRuns_eq hcover,
      foldl_smAccumulate_of_empty hruns smMembers_none]
    simp only [hsome, Option.toList_none, List.length_nil, Nat.add_zero]
    split_ifs <;> rfl
  constructor
  · intro hempty
    have hnone (tid : ℕ) : ¬ idx.Finds a.trigramHash tid := by
      rw [← hmem, hempty]
      exact Finset.notMem_empty tid
    refine ⟨?_, hnone⟩
    rw [hparity hnone] at hempty
    by_contra heven
    rw [if_neg heven] at hempty
    cases hempty
  · rintro ⟨hodd, hnone⟩
    rw [hparity hnone, if_pos hodd]

/-- Conjoining more maps never gives an empty one. -/
theorem smConjoin_some_eq_empty {maps : List Sm} {result : Finset ℕ} :
    smConjoin maps (some result) = some ∅ ↔ maps = [] ∧ result = ∅ := by
  constructor
  · intro h
    induction maps generalizing result with
    | nil => exact ⟨rfl, by simpa [smConjoin] using h⟩
    | cons m maps ih =>
      cases m with
      | none => simp [smConjoin] at h
      | some sm =>
        rw [smConjoin, smIntersection] at h
        split_ifs at h with hempty
        exact absurd (ih h).2 hempty
  · rintro ⟨rfl, rfl⟩
    rfl

/-- A piece has an empty map exactly when it is one trigram that VACUUM has emptied. -/
theorem smConjoin_piece_eq_empty (hcover : idx.RangesCover) {piece : TrigramConjunct}
    (hov : ∀ a ∈ piece.alts, ∀ tid,
      tid ∈ smMembers (overlayLookup ov a.trigramHash) ↔ idx.Pends a.trigramHash tid) :
    smConjoin (piece.alts.map fun a => resolveConjunctWithOverlay idx ov ⟨[a]⟩) none = some ∅ ↔
      idx.EmptiedPiece piece := by
  unfold ScanIndex.EmptiedPiece
  cases halts : piece.alts with
  | nil => simp [smConjoin]
  | cons a alts =>
    have ha := @resolveConjunct_single_eq_empty idx ov hcover a (hov a (by simp [halts]))
    rw [List.map_cons]
    constructor
    · intro hempty
      cases hmap : resolveConjunctWithOverlay idx ov ⟨[a]⟩ with
      | none => simp [hmap, smConjoin] at hempty
      | some s =>
        rw [hmap, smConjoin, smConjoin_some_eq_empty] at hempty
        obtain ⟨hnil, rfl⟩ := hempty
        rw [List.map_eq_nil_iff] at hnil
        exact ⟨a, by rw [hnil], ha.mp hmap⟩
    · rintro ⟨b, hb, hemptied⟩
      obtain ⟨rfl, rfl⟩ := List.cons.inj hb
      rw [ha.mpr hemptied]
      rfl

/-- A piece has the TIDs that all its trigrams have. -/
theorem mem_smConjoin_piece (hcover : idx.RangesCover) {piece : TrigramConjunct}
    (hne : piece.alts ≠ [])
    (hov : ∀ a ∈ piece.alts, ∀ tid,
      tid ∈ smMembers (overlayLookup ov a.trigramHash) ↔ idx.Pends a.trigramHash tid) {tid : ℕ} :
    tid ∈ smMembers (smConjoin (piece.alts.map fun a => resolveConjunctWithOverlay idx ov ⟨[a]⟩) none) ↔
      ∀ a ∈ piece.alts, idx.Finds a.trigramHash tid := by
  rw [mem_smConjoin (by simpa using hne), List.forall_mem_map]
  refine forall₂_congr fun a ha => ?_
  rw [mem_resolveConjunct hcover]
  simp [hov a ha, ScanIndex.Finds]

/-- A piece has no map exactly when it is missed. -/
theorem smConjoin_piece_eq_none (hcover : idx.RangesCover) {piece : TrigramConjunct}
    (hne : piece.alts ≠ [])
    (hov : ∀ a ∈ piece.alts, ∀ tid,
      tid ∈ smMembers (overlayLookup ov a.trigramHash) ↔ idx.Pends a.trigramHash tid) :
    smConjoin (piece.alts.map fun a => resolveConjunctWithOverlay idx ov ⟨[a]⟩) none = none ↔
      idx.MissedPiece piece := by
  have hempty := smConjoin_piece_eq_empty hcover hov
  have hmem (tid : ℕ) := @mem_smConjoin_piece idx ov hcover piece hne hov tid
  unfold ScanIndex.MissedPiece
  rw [← hempty]
  cases hmap : smConjoin (piece.alts.map fun a => resolveConjunctWithOverlay idx ov ⟨[a]⟩) none with
  | none =>
    simp only [hmap, smMembers_none, Finset.notMem_empty, false_iff] at hmem
    simpa using hmem
  | some s =>
    simp only [hmap, smMembers_some] at hmem
    simp only [reduceCtorEq, false_iff, not_and]
    intro hs hmissed
    have hnonempty : s ≠ ∅ := fun h => hs (by rw [h])
    obtain ⟨tid, htid⟩ := Finset.nonempty_iff_ne_empty.mpr hnonempty
    obtain ⟨a, ha, hnot⟩ := hmissed tid
    exact hnot ((hmem tid).mp htid a ha)

end

/-! ## PIECES queries -/

/-- The first map that is not `NULL` is empty, and what follows it has a property. -/
def LeadsEmpty (P : List Sm → Prop) (maps : List Sm) : Prop :=
  ∃ pre post, maps = pre ++ some ∅ :: post ∧ (∀ m ∈ pre, m = none) ∧ P post

/-- No map of the empty list is empty. -/
theorem not_leadsEmpty_nil (P : List Sm → Prop) : ¬ LeadsEmpty P [] := by
  rintro ⟨pre, post, h, -⟩
  simp at h

/-- The first map that is present decides whether the list leads with an empty one. -/
theorem leadsEmpty_cons {P : List Sm → Prop} {m : Sm} {maps : List Sm} :
    LeadsEmpty P (m :: maps) ↔ m = some ∅ ∧ P maps ∨ m = none ∧ LeadsEmpty P maps := by
  constructor
  · rintro ⟨pre, post, hsplit, hpre, hpost⟩
    cases pre with
    | nil =>
      obtain ⟨rfl, rfl⟩ := List.cons.inj hsplit
      exact Or.inl ⟨rfl, hpost⟩
    | cons m' pre =>
      obtain ⟨rfl, rfl⟩ := List.cons.inj hsplit
      obtain ⟨hnone, hpre⟩ := List.forall_mem_cons.mp hpre
      exact Or.inr ⟨hnone, pre, post, rfl, hpre, hpost⟩
  · rintro (⟨rfl, hmaps⟩ | ⟨rfl, pre, post, rfl, hpre, hpost⟩)
    · exact ⟨[], maps, rfl, by simp, hmaps⟩
    · exact ⟨none :: pre, post, rfl, List.forall_mem_cons.mpr ⟨rfl, hpre⟩, hpost⟩

/-- The loop over the pieces, when it succeeds, has united all maps. -/
theorem mem_smUnitePieces {maps : List Sm} {result sm : Sm} (h : smUnitePieces maps result = .ok sm)
    {tid : ℕ} : tid ∈ smMembers sm ↔ tid ∈ smMembers result ∨ ∃ m ∈ maps, tid ∈ smMembers m := by
  induction maps generalizing result with
  | nil =>
    rw [← Except.ok.inj h]
    simp
  | cons m maps ih =>
    rw [List.exists_mem_cons_iff, ← or_assoc]
    cases m with
    | none => simpa using ih h
    | some piece =>
      cases result with
      | none => simpa using ih h
      | some r =>
        rw [smUnitePieces] at h
        cases hunion : smUnion r piece with
        | none => simp [hunion] at h
        | some u =>
          rw [hunion] at h
          have hmembers := smMembers_smUnion r piece
          rw [hunion] at hmembers
          rw [ih h, hmembers, Finset.mem_union]
          rfl

/-- With a map that is not empty the loop succeeds. -/
theorem smUnitePieces_ok {maps : List Sm} {result : Finset ℕ} (hne : result ≠ ∅) :
    ∃ sm, smUnitePieces maps (some result) = .ok sm := by
  induction maps generalizing result with
  | nil => exact ⟨some result, rfl⟩
  | cons m maps ih =>
    cases m with
    | none => exact ih hne
    | some piece =>
      have hunion : result ∪ piece ≠ ∅ := fun h => hne (Finset.union_eq_empty.mp h).1
      rw [smUnitePieces, smUnion, if_neg hunion]
      exact ih hunion

/-- With an empty map the loop fails when the next map is empty as well. -/
theorem smUnitePieces_empty_eq_error {maps : List Sm} :
    (∃ e, smUnitePieces maps (some ∅) = .error e) ↔ LeadsEmpty (fun _ => True) maps := by
  induction maps with
  | nil => simp [smUnitePieces, not_leadsEmpty_nil]
  | cons m maps ih =>
    rw [leadsEmpty_cons]
    cases m with
    | none => simpa [smUnitePieces] using ih
    | some piece =>
      simp only [smUnitePieces, smUnion, Finset.empty_union, Option.some.injEq, and_true, reduceCtorEq,
        false_and, or_false]
      split_ifs with hempty
      · exact iff_of_true ⟨_, rfl⟩ hempty
      · refine iff_of_false ?_ hempty
        rintro ⟨e, he⟩
        obtain ⟨sm, hok⟩ := @smUnitePieces_ok maps piece hempty
        dsimp only at he
        rw [hok] at he
        cases he

/-- The loop over the pieces fails exactly when the first two maps are both empty. -/
theorem smUnitePieces_none_eq_error {maps : List Sm} :
    (∃ e, smUnitePieces maps none = .error e) ↔ LeadsEmpty (LeadsEmpty fun _ => True) maps := by
  induction maps with
  | nil => simp [smUnitePieces, not_leadsEmpty_nil]
  | cons m maps ih =>
    rw [leadsEmpty_cons]
    cases m with
    | none => simpa [smUnitePieces] using ih
    | some piece =>
      by_cases hempty : piece = ∅
      · rw [hempty]
        simpa [smUnitePieces] using smUnitePieces_empty_eq_error
      · refine iff_of_false ?_ (by simp [hempty])
        rintro ⟨e, he⟩
        obtain ⟨sm, hok⟩ := @smUnitePieces_ok maps piece hempty
        rw [smUnitePieces, hok] at he
        cases he

section

variable {idx : ScanIndex} {ov : List PendingOverlayEntry}

/-- In terms of the pieces: the first two that are not missed are both emptied. -/
theorem leadsEmpty_pieces_iff (hcover : idx.RangesCover) {pieces : List TrigramConjunct}
    (hne : ∀ piece ∈ pieces, piece.alts ≠ [])
    (hov : ∀ piece ∈ pieces, ∀ a ∈ piece.alts, ∀ tid,
      tid ∈ smMembers (overlayLookup ov a.trigramHash) ↔ idx.Pends a.trigramHash tid) :
    LeadsEmpty (LeadsEmpty fun _ => True) (pieces.map fun piece =>
        smConjoin (piece.alts.map fun a => resolveConjunctWithOverlay idx ov ⟨[a]⟩) none) ↔
      idx.Stumbles pieces := by
  have hempty {piece : TrigramConjunct} (hp : piece ∈ pieces) :=
    smConjoin_piece_eq_empty hcover (hov piece hp)
  have hnone {piece : TrigramConjunct} (hp : piece ∈ pieces) :=
    smConjoin_piece_eq_none hcover (hne piece hp) (hov piece hp)
  constructor
  · rintro ⟨pre, post, hsplit, hpre, mid, post', rfl, hmid, -⟩
    obtain ⟨before, after₁, rfl, rfl, hafter₁⟩ := List.map_eq_append_iff.mp hsplit
    obtain ⟨piece, after₂, rfl, hpiece, hafter₂⟩ := List.map_eq_cons_iff.mp hafter₁
    obtain ⟨between, after₃, rfl, rfl, hafter₃⟩ := List.map_eq_append_iff.mp hafter₂
    obtain ⟨piece', after, rfl, hpiece', -⟩ := List.map_eq_cons_iff.mp hafter₃
    refine ⟨before, piece, between, piece', after, rfl, ?_, (hempty (by simp)).mp hpiece, ?_,
      (hempty (by simp)).mp hpiece'⟩
    · intro p hp
      exact (hnone (by simp [hp])).mp (hpre _ (List.mem_map_of_mem hp))
    · intro p hp
      exact (hnone (by simp [hp])).mp (hmid _ (List.mem_map_of_mem hp))
  · rintro ⟨before, piece, between, piece', after, rfl, hbefore, hpiece, hbetween, hpiece'⟩
    refine ⟨_, _, by rw [List.map_append, List.map_cons, (hempty (by simp)).mpr hpiece], ?_, _, _,
      by rw [List.map_append, List.map_cons, (hempty (by simp)).mpr hpiece'], ?_, trivial⟩
    · intro m hm
      obtain ⟨p, hp, rfl⟩ := List.mem_map.mp hm
      exact (hnone (by simp [hp])).mpr (hbefore p hp)
    · intro m hm
      obtain ⟨p, hp, rfl⟩ := List.mem_map.mp hm
      exact (hnone (by simp [hp])).mpr (hbetween p hp)

/-- A PIECES query raises an error when it stumbles. Otherwise its candidates have all trigrams of a
piece. -/
theorem treComputeCandidateSm_pieces {q : TrigramQuery} (hcover : idx.RangesCover)
    (hmode : q.mode = .pieces) (htrue : q.alwaysTrue = false) (hproper : q.Proper) :
    (idx.Stumbles q.conjuncts ∧ ∃ e, treComputeCandidateSm idx q = .error e) ∨
    ¬ idx.Stumbles q.conjuncts ∧ ∃ sm, treComputeCandidateSm idx q = .ok (sm, false) ∧
      ∀ tid, tid ∈ smMembers sm ↔
        ∃ piece ∈ q.conjuncts, ∀ a ∈ piece.alts, idx.Finds a.trigramHash tid := by
  have hne := hproper.pieces hmode
  obtain ⟨ov, hok, hov⟩ := overlayBuild_spec idx q
  have hlisted : ∀ piece ∈ q.conjuncts, ∀ a ∈ piece.alts, ∀ tid,
      tid ∈ smMembers (overlayLookup ov a.trigramHash) ↔ idx.Pends a.trigramHash tid :=
    fun piece hpiece a ha => hov a.trigramHash ⟨piece, hpiece, a, ha, rfl⟩
  have hstumbles := leadsEmpty_pieces_iff hcover hne hlisted
  rw [← smUnitePieces_none_eq_error] at hstumbles
  rw [← hstumbles]
  simp only [treComputeCandidateSm, htrue, hok, hmode, Bool.false_eq_true, if_false]
  cases hunite : smUnitePieces (q.conjuncts.map fun piece =>
      smConjoin (piece.alts.map fun a => resolveConjunctWithOverlay idx ov ⟨[a]⟩) none) none with
  | error e => exact Or.inl ⟨⟨e, rfl⟩, e, rfl⟩
  | ok sm =>
    refine Or.inr ⟨by simp, sm, rfl, fun tid => ?_⟩
    rw [mem_smUnitePieces hunite]
    simp only [smMembers_none, Finset.notMem_empty, false_or, List.mem_map, exists_exists_and_eq_and]
    refine exists_congr fun piece => and_congr_right fun hpiece => ?_
    exact mem_smConjoin_piece hcover (hne piece hpiece) (hlisted piece hpiece)

end

/-- In every state of an index and with either setting of the crack cache, a PIECES query has
exactly the TIDs with all trigrams of a piece as its candidates, without an error, if and only if it
restricts nothing or the first two of its pieces that are not missed are not both emptied by
VACUUM. -/
theorem treComputeCandidateSm_pieces_exact_iff (crackOnRead : Bool) (idx : ScanIndex)
    (q : TrigramQuery) (hreach : IndexReachable idx) (hmode : q.mode = .pieces)
    (hproper : q.alwaysTrue = false → q.Proper) :
    (∃ sm always, treComputeCandidateSmCracked crackOnRead idx q = some (.ok (sm, always)) ∧
        (always = true ∨ ∀ tid, tid ∈ smMembers sm ↔
          ∃ piece ∈ q.conjuncts, ∀ a ∈ piece.alts, idx.Finds a.trigramHash tid)) ↔
      q.alwaysTrue = true ∨ ¬ idx.Stumbles q.conjuncts := by
  rw [treComputeCandidateSmCracked_eq]
  cases htrue : q.alwaysTrue with
  | true =>
    refine iff_of_true ⟨none, true, ?_, Or.inl rfl⟩ (Or.inl rfl)
    simp [treComputeCandidateSm, htrue]
  | false =>
    rcases treComputeCandidateSm_pieces hreach.rangesCover hmode htrue (hproper htrue) with
      ⟨hstumbles, e, herror⟩ | ⟨hsteady, sm, hsm, hmem⟩
    · rw [herror]
      simp [hstumbles]
    · exact iff_of_true ⟨sm, false, by rw [hsm], Or.inr hmem⟩ (Or.inr hsteady)

/-- The tree of the rows `abd` and `acd`. -/
def abdAcdTree : UpperTree where
  entries := [(hashTrigramCp (97, 99, 100), {2}), (hashTrigramCp (97, 98, 100), {1})]
  ascending := by decide +kernel

/-- The pattern `a[bc]d`. -/
def aClassD : RegexAst := .concat (.concat (.literal 97) classBc) (.literal 100)

/-- Its query: two pieces of one trigram each. -/
def aClassDQuery : TrigramQuery where
  conjuncts := [⟨[plainDisjunct (97, 98, 100)]⟩, ⟨[plainDisjunct (97, 99, 100)]⟩]
  minMatchLen := 3
  globalMaxCost := 0
  alwaysTrue := false
  mode := .pieces
  surfRange := none

/-- The index after the build, and after both rows were deleted and vacuumed. -/
def vacuumedIndex (vacuumed : Bool) : ScanIndex :=
  if vacuumed then ambulkdelete false (fun _ => true) (builtIndex .dense abdAcdTree 2)
  else builtIndex .dense abdAcdTree 2

/-- On the index as built the query is exact. -/
theorem treComputeCandidateSm_pieces_exact_aClassD :
    ∃ sm always, treComputeCandidateSmCracked true (vacuumedIndex false) aClassDQuery =
        some (.ok (sm, always)) ∧
      (always = true ∨ ∀ tid, tid ∈ smMembers sm ↔ ∃ piece ∈ aClassDQuery.conjuncts,
        ∀ a ∈ piece.alts, (vacuumedIndex false).Finds a.trigramHash tid) := by
  refine (treComputeCandidateSm_pieces_exact_iff true (vacuumedIndex false) aClassDQuery
    (.build _ _ _) rfl (fun _ => ⟨?_, ?_⟩)).mpr (Or.inr ?_)
  · intro hcnf
    cases hcnf
  · intro _ piece hpiece
    simp only [aClassDQuery, List.mem_cons, List.not_mem_nil, or_false] at hpiece
    rcases hpiece with rfl | rfl <;> simp
  · rintro ⟨pre, piece, mid, piece', post, hsplit, hpre, ⟨a, ha, hemptied⟩, -⟩
    have hfinds : (vacuumedIndex false).Finds (hashTrigramCp (97, 98, 100)) 1 :=
      Or.inl ⟨_, List.mem_cons_self, by decide +kernel⟩
    cases pre with
    | nil =>
      obtain ⟨rfl, -⟩ := List.cons.inj hsplit
      obtain ⟨rfl, -⟩ := List.cons.inj ha
      exact hemptied.2 1 hfinds
    | cons p pre =>
      obtain ⟨rfl, -⟩ := List.cons.inj hsplit
      obtain ⟨a, ha, hnot⟩ := (hpre _ List.mem_cons_self).2 1
      obtain rfl := List.mem_singleton.mp ha
      exact hnot hfinds

/-- After the VACUUM the same query fails: both postings are empty, and nothing ran out of
memory. -/
theorem aClassD_out_of_memory :
    IndexReachable (vacuumedIndex true) ∧
      regexExtractQuery ⟨256, 4⟩ aClassD 0 = .ok aClassDQuery ∧
      treComputeCandidateSmCracked false (vacuumedIndex true) aClassDQuery =
        some (.error ⟨"out of memory"⟩) := by
  refine ⟨.vacuum false _ (.build .dense abdAcdTree 2), rfl, ?_⟩
  rw [treComputeCandidateSmCracked_eq]
  rfl

end PgTre
