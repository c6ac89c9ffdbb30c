import PgTre.Query.RegexAst
import Mathlib.Data.List.Nodup

/-!
# The edit neighbourhood of a trigram

`src/query/uleven.c` lists the trigrams within one or two byte edits of a trigram. An
enumeration that does not fit its buffer is reported as an overflow, here `none`. With
the buffer of 4096 entries the tiling offers, the neighbourhood of radius two never
fits: its first six batches alone exceed it.
-/

namespace PgTre

/-- `dedupe_trigrams` and `dedupe_trigrams_cp`: keep the first occurrence of every
trigram. -/
def dedupeTrigrams (tris : List Trigram) : List Trigram :=
  tris.foldl (fun out t => if t ∈ out then out else out ++ [t]) []

/-- The substitutions at each of the three positions by every other byte. -/
def ulevenSubstitutions (tri : Trigram) : List Trigram :=
  ((List.range 256).filter (· ≠ tri.1)).map (fun c => (c, tri.2.1, tri.2.2)) ++
    ((List.range 256).filter (· ≠ tri.2.1)).map (fun c => (tri.1, c, tri.2.2)) ++
    ((List.range 256).filter (· ≠ tri.2.2)).map (fun c => (tri.1, tri.2.1, c))

/-- The three deletions, padded with a trailing zero byte. -/
def ulevenDeletions (tri : Trigram) : List Trigram :=
  [(tri.2.1, tri.2.2, 0), (tri.1, tri.2.2, 0), (tri.1, tri.2.1, 0)]

/-- The insertions of every byte before each of the three positions, cut to three bytes. -/
def ulevenInsertions (tri : Trigram) : List Trigram :=
  (List.range 256).flatMap
    (fun c => [(c, tri.1, tri.2.1), (tri.1, c, tri.2.1), (tri.1, tri.2.1, c)])

/-- `uleven_expand_k1`. Every push tests the buffer, so the enumeration overflows exactly
when it is longer than the buffer. -/
def ulevenExpandK1 (tri : Trigram) (maxOut : ℕ) : Option (List Trigram) :=
  let tris := tri :: (ulevenSubstitutions tri ++ ulevenDeletions tri ++ ulevenInsertions tri)
  if maxOut < tris.length then none else some (dedupeTrigrams tris)

/-- The capacity of the scratch buffer of `pg_tre_uleven_expand`. -/
def ulevenTempCap : ℕ := 16384

/-- The loop of `pg_tre_uleven_expand` for `k = 2` over the trigrams at distance one. The
callers' buffers are smaller than the scratch buffer, so a batch that does not fit is an
overflow. -/
def ulevenExpandK2 (n1 maxOut : ℕ) : List Trigram → List Trigram → Option (List Trigram)
  | [], out => some (dedupeTrigrams out)
  | t :: rest, out =>
      match ulevenExpandK1 t (ulevenTempCap - n1) with
      | none => none
      | some batch =>
          if maxOut < out.length + batch.length then none
          else ulevenExpandK2 n1 maxOut rest (out ++ batch)

/-- `pg_tre_uleven_expand`. -/
def ulevenExpand (tri : Trigram) (k : ℤ) (maxOut : ℕ) : Option (List Trigram) :=
  if k < 0 ∨ maxOut = 0 then some []
  else if k = 0 then some [tri]
  else if k = 1 then ulevenExpandK1 tri maxOut
  else if k = 2 then
    match ulevenExpandK1 tri ulevenTempCap with
    | none => none
    | some first => ulevenExpandK2 first.length maxOut first []
  else none

/-- All three code points are ASCII. -/
def allAscii (tri : Trigram) : Bool :=
  decide (tri.1 ≤ 0x7F ∧ tri.2.1 ≤ 0x7F ∧ tri.2.2 ≤ 0x7F)

/-- `pg_tre_uleven_expand_cp`: a trigram that is not all ASCII stands for itself only. -/
def ulevenExpandCp (tri : Trigram) (k : ℤ) (maxOut : ℕ) : Option (List Trigram) :=
  if k < 0 ∨ maxOut = 0 then some []
  else if k = 0 ∨ allAscii tri = false then some [tri]
  else
    match ulevenExpand tri k maxOut with
    | none => none
    | some tris => some (dedupeTrigrams tris)

/-! ## What an expansion lists -/

/-- The deduplicating fold adds each trigram once. -/
private theorem dedupe_fold_spec (tris out : List Trigram) (hout : out.Nodup) :
    let res := tris.foldl (fun out t => if t ∈ out then out else out ++ [t]) out
    res.Nodup ∧ ∀ t, t ∈ res ↔ t ∈ out ∨ t ∈ tris := by
  induction tris generalizing out with
  | nil => simpa using hout
  | cons a tris ih =>
    rw [List.foldl_cons]
    by_cases hmem : a ∈ out
    · rw [if_pos hmem]
      obtain ⟨hnodup, hiff⟩ := ih out hout
      refine ⟨hnodup, fun t => ?_⟩
      rw [hiff, List.mem_cons]
      constructor
      · rintro (h | h)
        · exact Or.inl h
        · exact Or.inr (Or.inr h)
      · rintro (h | rfl | h)
        · exact Or.inl h
        · exact Or.inl hmem
        · exact Or.inr h
    · rw [if_neg hmem]
      have hnew : (out ++ [a]).Nodup := by
        rw [List.nodup_append]
        refine ⟨hout, List.nodup_singleton a, fun b hb c hc => ?_⟩
        rw [List.mem_singleton] at hc
        rintro rfl
        exact hmem (hc ▸ hb)
      obtain ⟨hnodup, hiff⟩ := ih _ hnew
      refine ⟨hnodup, fun t => ?_⟩
      rw [hiff, List.mem_append, List.mem_singleton, List.mem_cons, or_assoc]

/-- Deduplication keeps exactly the listed trigrams. -/
@[simp] theorem mem_dedupeTrigrams {tris : List Trigram} {t : Trigram} :
    t ∈ dedupeTrigrams tris ↔ t ∈ tris := by
  have h := (dedupe_fold_spec tris [] List.nodup_nil).2 t
  simpa [dedupeTrigrams] using h

/-- Deduplication leaves at least as many entries as any repetition-free part of its input. -/
theorem length_le_dedupeTrigrams {tris part : List Trigram} (hpart : part.Nodup)
    (hsub : part ⊆ tris) : part.length ≤ (dedupeTrigrams tris).length :=
  (List.subperm_of_subset hpart (fun _ h => mem_dedupeTrigrams.mpr (hsub h))).length_le

/-- The neighbourhood of radius one holds the trigram itself. -/
theorem self_mem_ulevenExpandK1 {tri : Trigram} {maxOut : ℕ} {tris : List Trigram}
    (h : ulevenExpandK1 tri maxOut = some tris) : tri ∈ tris := by
  simp only [ulevenExpandK1, Option.ite_none_left_eq_some, Option.some.injEq] at h
  rw [← h.2, mem_dedupeTrigrams]
  exact List.mem_cons_self

/-- The neighbourhood of radius one holds every substitution by a byte. -/
theorem subst_mem_ulevenExpandK1 {tri : Trigram} {maxOut : ℕ} {tris : List Trigram}
    (h : ulevenExpandK1 tri maxOut = some tris) {c : CodePoint} (hc : c ≤ 0xFF) :
    (c, tri.2.1, tri.2.2) ∈ tris ∧ (tri.1, c, tri.2.2) ∈ tris ∧ (tri.1, tri.2.1, c) ∈ tris := by
  have hself := self_mem_ulevenExpandK1 h
  simp only [ulevenExpandK1, Option.ite_none_left_eq_some, Option.some.injEq] at h
  have hlist {t : Trigram} (ht : t ∈ ulevenSubstitutions tri) : t ∈ tris := by
    rw [← h.2, mem_dedupeTrigrams]
    simp [ht]
  have hrange : c < 256 := Nat.lt_succ_of_le hc
  refine ⟨?_, ?_, ?_⟩
  · by_cases heq : c = tri.1
    · rwa [heq]
    · exact hlist (by simp [ulevenSubstitutions, hrange, heq])
  · by_cases heq : c = tri.2.1
    · rwa [heq]
    · exact hlist (by simp [ulevenSubstitutions, hrange, heq])
  · by_cases heq : c = tri.2.2
    · rwa [heq]
    · exact hlist (by simp [ulevenSubstitutions, hrange, heq])

/-- A neighbourhood of radius one that fits has at least 256 distinct trigrams. -/
theorem length_ulevenExpandK1 {tri : Trigram} {maxOut : ℕ} {tris : List Trigram}
    (h : ulevenExpandK1 tri maxOut = some tris) : 256 ≤ tris.length := by
  simp only [ulevenExpandK1, Option.ite_none_left_eq_some, Option.some.injEq] at h
  let part : List Trigram := (List.range 256).map (fun c => (tri.1, tri.2.1, c))
  have hpart : part.Nodup := by
    refine List.Nodup.map ?_ List.nodup_range
    intro c d hcd
    simpa using hcd
  have hsub : part ⊆
      tri :: (ulevenSubstitutions tri ++ ulevenDeletions tri ++ ulevenInsertions tri) := by
    intro t ht
    obtain ⟨c, hc, rfl⟩ := List.mem_map.mp ht
    have hins : (tri.1, tri.2.1, c) ∈ ulevenInsertions tri :=
      List.mem_flatMap.mpr ⟨c, hc, by simp⟩
    exact List.mem_cons_of_mem _ (List.mem_append_right _ hins)
  have hlen := length_le_dedupeTrigrams hpart hsub
  rw [h.2] at hlen
  simpa [part] using hlen

/-- The second round adds a batch of at least 256 trigrams for each of the first. -/
theorem ulevenExpandK2_eq_none {n1 maxOut : ℕ} {first out : List Trigram}
    (hlong : maxOut < out.length + 256 * first.length) (hfirst : first ≠ []) :
    ulevenExpandK2 n1 maxOut first out = none := by
  induction first generalizing out with
  | nil => exact absurd rfl hfirst
  | cons t first ih =>
    rw [ulevenExpandK2]
    cases hbatch : ulevenExpandK1 t (ulevenTempCap - n1) with
    | none => rfl
    | some batch =>
      have hlen := length_ulevenExpandK1 hbatch
      dsimp only
      rw [List.length_cons] at hlong
      by_cases hover : maxOut < out.length + batch.length
      · rw [if_pos hover]
      · rw [if_neg hover]
        apply ih
        · rw [List.length_append]
          omega
        · rintro rfl
          rw [List.length_nil] at hlong
          omega

/-- The neighbourhood of radius two never fits a buffer of 4096 trigrams. -/
theorem ulevenExpand_two_eq_none (tri : Trigram) : ulevenExpand tri 2 4096 = none := by
  rw [ulevenExpand, if_neg (by omega), if_neg (by omega), if_neg (by omega), if_pos rfl]
  cases hfirst : ulevenExpandK1 tri ulevenTempCap with
  | none => rfl
  | some first =>
    have hlen := length_ulevenExpandK1 hfirst
    apply ulevenExpandK2_eq_none
    · rw [List.length_nil]
      omega
    · rintro rfl
      rw [List.length_nil] at hlen
      omega

end PgTre
