import PgTre.Query.WordSearch
import Mathlib.Data.Finite.Prod
import Mathlib.Data.Set.Finite.Lemmas
import Mathlib.Order.Interval.Set.Defs

/-!
# The most similar extent

The comment at `tre_word_similarity` in `src/query/trgm_similarity.c` promises the greatest
similarity of the first string to a continuous extent of the second one. The search tries extents
by position, and a position at which a word begins or ends carries the bound flag for it.
-/

namespace PgTre

open SlidingWindow

/-- The Jaccard ratio of two sets of trigrams. -/
def jaccard (trgm1 trgm2 : Finset UInt32) : ℚ := (trgm1 ∩ trgm2).card / (trgm1 ∪ trgm2).card

/-- A contiguous extent of a trigram sequence, and of whole words in strict mode. -/
def IsExtent (words : List (List UInt32)) (strict : Bool) (extent : List UInt32) : Prop :=
  if strict then ∃ ws, ws ≠ [] ∧ ws <:+: words ∧ extent = ws.flatten
  else extent ≠ [] ∧ extent <:+: words.flatten

/-- The ratios of a set of trigrams and the extents of a sequence. -/
def extentRatios (trgm1 : Finset UInt32) (words : List (List UInt32)) (strict : Bool) : Set ℚ :=
  {r | ∃ extent, IsExtent words strict extent ∧ r = jaccard trgm1 extent.toFinset}

/-- A score is the ratio of an extent, and the greatest one if the trigrams are distinct. -/
structure IsWordSimilarity (trgm1 : Finset UInt32) (words : List (List UInt32)) (strict : Bool)
    (score : ℚ) : Prop where
  attained : score = 0 ∨ score ∈ extentRatios trgm1 words strict
  greatest : (extentRatios trgm1 words strict).Nonempty →
    ∃ best, IsGreatest (extentRatios trgm1 words strict) best ∧ score ≤ best ∧
      (words.flatten.Nodup → score = best)

/-! ## Extents as positions -/

section

variable {α : Type*} {l xs : List α} {a b : ℕ} {x : α}

/-- The elements from position `a` up to `b`. -/
def extentAt (l : List α) (a b : ℕ) : List α := (l.drop a).take (b - a)

/-- An extent has the elements between its bounds. -/
theorem mem_extentAt (hb : b ≤ l.length) :
    x ∈ extentAt l a b ↔ ∃ p, a ≤ p ∧ p < b ∧ ∃ hp : p < l.length, l[p] = x := by
  unfold extentAt
  rw [List.mem_take_iff_getElem]
  simp only [List.length_drop, List.getElem_drop]
  constructor
  · rintro ⟨k, hk, rfl⟩
    exact ⟨a + k, by omega, by omega, by omega, rfl⟩
  · rintro ⟨p, hap, hpb, hp, rfl⟩
    refine ⟨p - a, by omega, ?_⟩
    congr 1
    omega

/-- The middle of three lists is the extent between their lengths. -/
theorem extentAt_append (pre xs post : List α) :
    extentAt (pre ++ xs ++ post) pre.length (pre.length + xs.length) = xs := by
  unfold extentAt
  rw [List.append_assoc, List.drop_left, Nat.add_sub_cancel_left, List.take_left]

/-- The contiguous parts of a list are its slices. -/
theorem infix_iff_extentAt :
    xs ≠ [] ∧ xs <:+: l ↔ ∃ a b, a < b ∧ b ≤ l.length ∧ xs = extentAt l a b := by
  constructor
  · rintro ⟨hne, pre, post, rfl⟩
    have hpos := List.length_pos_iff.mpr hne
    refine ⟨pre.length, pre.length + xs.length, by omega, ?_, (extentAt_append pre xs post).symm⟩
    simp only [List.length_append]
    omega
  · rintro ⟨a, b, hab, hb, rfl⟩
    constructor
    · rw [← List.length_pos_iff]
      simp only [extentAt, List.length_take, List.length_drop]
      omega
    · exact (List.take_prefix _ _).isInfix.trans (List.drop_suffix _ _).isInfix

end

/-! ## The bounds of words -/

/-- The bounds of all positions of a string. -/
def boundsOf (words : List (List UInt32)) : List TrgmBound :=
  words.flatMap fun word => wordBounds word.length

variable {words : List (List UInt32)}

/-- The bounds of the first word come first. -/
theorem getD_boundsOf_cons (word : List UInt32) (words : List (List UInt32)) (k : ℕ) :
    (boundsOf (word :: words)).getD k ⟨false, false⟩ =
      if k < word.length then { left := k == 0, right := k + 1 == word.length }
      else (boundsOf words).getD (k - word.length) ⟨false, false⟩ := by
  unfold boundsOf
  rw [List.flatMap_cons, List.getD_eq_getElem?_getD, List.getElem?_append]
  simp only [wordBounds, List.length_map, List.length_range]
  split_ifs with hk
  · simp [hk]
  · rw [List.getD_eq_getElem?_getD]

/-- A left bound is where a word begins. -/
theorem boundsOf_left (hwords : ∀ word ∈ words, word ≠ []) {k : ℕ} :
    ((boundsOf words).getD k ⟨false, false⟩).left = true ↔
      ∃ ws ws', words = ws ++ ws' ∧ ws' ≠ [] ∧ ws.flatten.length = k := by
  induction words generalizing k with
  | nil =>
    refine iff_of_false (by simp [boundsOf]) ?_
    rintro ⟨ws, ws', heq, hne, -⟩
    exact hne (List.append_eq_nil_iff.mp heq.symm).2
  | cons word words ih =>
    have hpos : 0 < word.length := List.length_pos_iff.mpr (hwords word (by simp))
    have ih := @ih fun w hw => hwords w (by simp [hw])
    rw [getD_boundsOf_cons]
    split_ifs with hk
    · -- only the first position of the first word
      rw [beq_iff_eq]
      constructor
      · rintro rfl
        exact ⟨[], word :: words, rfl, by simp, rfl⟩
      · rintro ⟨ws, ws', heq, -, hlen⟩
        cases ws with
        | nil => exact hlen.symm
        | cons w ws =>
          obtain ⟨rfl, -⟩ := List.cons.inj heq
          rw [List.flatten_cons, List.length_append] at hlen
          omega
    · rw [ih]
      constructor
      · rintro ⟨ws, ws', rfl, hne, hlen⟩
        refine ⟨word :: ws, ws', rfl, hne, ?_⟩
        rw [List.flatten_cons, List.length_append]
        omega
      · rintro ⟨ws, ws', heq, hne, hlen⟩
        cases ws with
        | nil =>
          rw [List.flatten_nil, List.length_nil] at hlen
          omega
        | cons w ws =>
          obtain ⟨rfl, rfl⟩ := List.cons.inj heq
          rw [List.flatten_cons, List.length_append] at hlen
          exact ⟨ws, ws', rfl, hne, by omega⟩

/-- A right bound is where a word ends. -/
theorem boundsOf_right (hwords : ∀ word ∈ words, word ≠ []) {k : ℕ} :
    ((boundsOf words).getD k ⟨false, false⟩).right = true ↔
      ∃ ws ws', words = ws ++ ws' ∧ ws.flatten.length = k + 1 := by
  induction words generalizing k with
  | nil =>
    refine iff_of_false (by simp [boundsOf]) ?_
    rintro ⟨ws, ws', heq, hlen⟩
    rw [(List.append_eq_nil_iff.mp heq.symm).1] at hlen
    cases hlen
  | cons word words ih =>
    have ih := @ih fun w hw => hwords w (by simp [hw])
    rw [getD_boundsOf_cons]
    split_ifs with hk
    · -- only the last position of the first word
      rw [beq_iff_eq]
      constructor
      · intro hlast
        exact ⟨[word], words, rfl, by simpa using hlast.symm⟩
      · rintro ⟨ws, ws', heq, hlen⟩
        cases ws with
        | nil => cases hlen
        | cons w ws =>
          obtain ⟨rfl, -⟩ := List.cons.inj heq
          rw [List.flatten_cons, List.length_append] at hlen
          omega
    · rw [ih]
      constructor
      · rintro ⟨ws, ws', rfl, hlen⟩
        refine ⟨word :: ws, ws', rfl, ?_⟩
        rw [List.flatten_cons, List.length_append]
        omega
      · rintro ⟨ws, ws', heq, hlen⟩
        cases ws with
        | nil => cases hlen
        | cons w ws =>
          obtain ⟨rfl, rfl⟩ := List.cons.inj heq
          rw [List.flatten_cons, List.length_append] at hlen
          exact ⟨ws, ws', rfl, by omega⟩

/-- The extents of whole words lie between a left and a right bound. -/
theorem isExtent_strict_iff (hwords : ∀ word ∈ words, word ≠ []) {extent : List UInt32} :
    IsExtent words true extent ↔ ∃ a b, a < b ∧ b ≤ words.flatten.length ∧
      ((boundsOf words).getD a ⟨false, false⟩).left = true ∧
      ((boundsOf words).getD (b - 1) ⟨false, false⟩).right = true ∧
      extent = extentAt words.flatten a b := by
  rw [IsExtent, if_pos rfl]
  constructor
  · rintro ⟨ws, hne, ⟨pre, post, rfl⟩, rfl⟩
    have hpos : 0 < ws.flatten.length := by
      obtain ⟨w, ws', rfl⟩ := List.exists_cons_of_ne_nil hne
      have hw := List.length_pos_iff.mpr (hwords w (by simp))
      rw [List.flatten_cons, List.length_append]
      omega
    refine ⟨pre.flatten.length, pre.flatten.length + ws.flatten.length, by omega, ?_,
      (boundsOf_left hwords).mpr ⟨pre, ws ++ post, by simp, by simp [hne], rfl⟩,
      (boundsOf_right hwords).mpr ⟨pre ++ ws, post, rfl, ?_⟩, ?_⟩
    · simp only [List.flatten_append, List.length_append]
      omega
    · simp only [List.flatten_append, List.length_append]
      omega
    · rw [List.flatten_append, List.flatten_append, extentAt_append]
  · rintro ⟨a, b, hab, hb, hleft, hright, rfl⟩
    obtain ⟨pre, rest, hsplit, -, rfl⟩ := (boundsOf_left hwords).mp hleft
    obtain ⟨init, post, hsplit', hlen⟩ := (boundsOf_right hwords).mp hright
    obtain ⟨ws, rfl, -⟩ | ⟨ws, rfl, -⟩ :=
      List.append_eq_append_iff.mp (hsplit'.symm.trans hsplit)
    · rw [List.flatten_append, List.length_append] at hab
      omega
    · have hb' : b = pre.flatten.length + ws.flatten.length := by
        rw [List.flatten_append, List.length_append] at hlen
        omega
      refine ⟨ws, ?_, ⟨pre, post, hsplit'.symm⟩, ?_⟩
      · rintro rfl
        rw [List.flatten_nil, List.length_nil] at hb'
        omega
      · rw [hb', hsplit', List.flatten_append, List.flatten_append, extentAt_append]

/-! ## Positions and trigrams -/

section

variable {inp : WordSimInput} {hashes1 hashes2 : List UInt32} {number : UInt32 → ℕ} {a b : ℕ}

/-- The numbers at the positions of an extent. -/
theorem WordSimInput.Numbers.values_eq (hnum : inp.Numbers hashes1 hashes2 number)
    (hb : b ≤ hashes2.length) :
    values inp.trg2indexes a b = (extentAt hashes2 a b).toFinset.image number := by
  ext t
  rw [mem_values, Finset.mem_image]
  constructor
  · rintro ⟨p, hap, hpb, rfl⟩
    refine ⟨hashes2[p], ?_, (hnum.trg2indexes p (by omega)).symm⟩
    rw [List.mem_toFinset, mem_extentAt hb]
    exact ⟨p, hap, hpb, by omega, rfl⟩
  · rintro ⟨x, hx, rfl⟩
    rw [List.mem_toFinset, mem_extentAt hb] at hx
    obtain ⟨p, hap, hpb, hp, rfl⟩ := hx
    exact ⟨p, hap, hpb, hnum.trg2indexes p hp⟩

/-- An extent has elements of its list only. -/
theorem mem_of_mem_extentAt {α : Type*} {l : List α} {x : α} (hx : x ∈ extentAt l a b) : x ∈ l :=
  List.mem_of_mem_drop (List.mem_of_mem_take hx)

/-- The distinct trigrams of an extent. -/
theorem WordSimInput.Numbers.distinct_eq (hnum : inp.Numbers hashes1 hashes2 number)
    (hb : b ≤ hashes2.length) : inp.distinct a b = (extentAt hashes2 a b).toFinset.card := by
  unfold WordSimInput.distinct count
  rw [hnum.values_eq hb, Finset.filter_true_of_mem fun _ _ => rfl, Finset.card_image_of_injOn]
  refine hnum.injOn.mono fun x hx => .inr ?_
  rw [Finset.mem_coe, List.mem_toFinset] at hx
  exact mem_of_mem_extentAt hx

/-- The trigrams of an extent that the first string has too. -/
theorem WordSimInput.Numbers.common_eq (hnum : inp.Numbers hashes1 hashes2 number)
    (hb : b ≤ hashes2.length) :
    inp.common a b = (hashes1.toFinset ∩ (extentAt hashes2 a b).toFinset).card := by
  have hfound : (extentAt hashes2 a b).toFinset.filter (fun x => inp.found (number x) = true) =
      hashes1.toFinset ∩ (extentAt hashes2 a b).toFinset := by
    ext x
    rw [Finset.mem_filter, Finset.mem_inter, and_comm, List.mem_toFinset, List.mem_toFinset]
    exact and_congr_left fun hx => hnum.found x (mem_of_mem_extentAt hx)
  unfold WordSimInput.common count
  rw [hnum.values_eq hb, Finset.filter_image, Finset.card_image_of_injOn, hfound]
  refine hnum.injOn.mono fun x hx => .inr ?_
  rw [Finset.mem_coe, Finset.mem_filter, List.mem_toFinset] at hx
  exact mem_of_mem_extentAt hx.1

/-- The search computes Jaccard ratios. -/
theorem WordSimInput.Numbers.ratio_eq (hnum : inp.Numbers hashes1 hashes2 number)
    (hb : b ≤ hashes2.length) :
    inp.ratio a b = jaccard hashes1.toFinset (extentAt hashes2 a b).toFinset := by
  have hunion := Finset.card_union_add_card_inter hashes1.toFinset (extentAt hashes2 a b).toFinset
  rw [← hnum.distinct_eq hb, ← hnum.common_eq hb, ← hnum.ulen1] at hunion
  have hdivisor : (inp.ulen1 + inp.distinct a b - inp.common a b : ℤ) =
      (hashes1.toFinset ∪ (extentAt hashes2 a b).toFinset).card := by omega
  unfold WordSimInput.ratio jaccard
  rw [hdivisor, ← hnum.common_eq hb, Int.cast_natCast, Int.cast_natCast]

/-- Distinct hashes have distinct numbers. -/
theorem WordSimInput.Numbers.injective (hnum : inp.Numbers hashes1 hashes2 number)
    (hlen2 : inp.len2 = hashes2.length) (hnodup : hashes2.Nodup) : inp.Injective := by
  intro p hp r hr heq
  rw [Set.mem_Iio, hlen2] at hp hr
  rw [hnum.trg2indexes p hp, hnum.trg2indexes r hr] at heq
  exact (hnodup.getElem_inj_iff).mp (hnum.injOn (.inr (List.getElem_mem hp))
    (.inr (List.getElem_mem hr)) heq)

end

/-! ## Word similarity -/

/-- The similarity is not negative. -/
theorem jaccard_nonneg (trgm1 trgm2 : Finset UInt32) : 0 ≤ jaccard trgm1 trgm2 :=
  div_nonneg (Nat.cast_nonneg _) (Nat.cast_nonneg _)

/-- No word is empty. -/
theorem trgmWords_ne_nil {enc : WcharEncoding} {str : List UInt8} :
    ∀ word ∈ trgmWords enc str, word ≠ [] := by
  intro word hword
  obtain ⟨cps, -, rfl⟩ := List.mem_map.mp hword
  cases cps <;> simp [wordTrigrams, ringTrigrams]

section

variable {enc : WcharEncoding} {str1 str2 : List UInt8} {strict : Bool}

/-- What `iterate_word_sim` is called with. -/
def searchInput (enc : WcharEncoding) (str1 str2 : List UInt8) (strict : Bool) : WordSimInput :=
  wordSimInput (posTrgm enc str1 false) (posTrgm enc str2 strict) strict

/-- The extents of the second string, by position. -/
theorem isExtent_iff_extentAt (str1 : List UInt8) {extent : List UInt32} :
    IsExtent (trgmWords enc str2) strict extent ↔ ∃ a b, a < b ∧
      b ≤ (trgmWords enc str2).flatten.length ∧
      (searchInput enc str1 str2 strict).isLower a = true ∧
      (strict = true → (searchInput enc str1 str2 strict).isUpper (b - 1) = true) ∧
      extent = extentAt (trgmWords enc str2).flatten a b := by
  cases strict with
  | true =>
    rw [isExtent_strict_iff trgmWords_ne_nil]
    simp [searchInput, wordSimInput, posTrgm, WordSimInput.isLower, WordSimInput.isUpper, boundsOf]
  | false =>
    rw [IsExtent, if_neg Bool.false_ne_true, infix_iff_extentAt]
    simp [searchInput, wordSimInput, WordSimInput.isLower]

/-- The search is given what it relies on. -/
theorem searchInput_bounded {number : UInt32 → ℕ}
    (hnum : (searchInput enc str1 str2 strict).Numbers (posTrgm enc str1 false).hashes
      (trgmWords enc str2).flatten number) : (searchInput enc str1 str2 strict).Bounded := by
  constructor
  · intro a b hb
    rw [hnum.common_eq hb, hnum.ulen1]
    exact Finset.card_le_card Finset.inter_subset_left
  · intro hpos
    cases strict with
    | false => rfl
    | true =>
      have hne : trgmWords enc str2 ≠ [] := by
        intro hempty
        simp [searchInput, wordSimInput, posTrgm, hempty] at hpos
      have hleft := (boundsOf_left (k := 0) trgmWords_ne_nil).mpr
        ⟨[], trgmWords enc str2, rfl, hne, rfl⟩
      simpa [searchInput, wordSimInput, posTrgm, WordSimInput.isLower, boundsOf] using hleft

/-- An extent with common trigrams can end at one of them. -/
theorem WordSimInput.Injective.exists_upper {inp : WordSimInput} (hinj : inp.Injective)
    (hinp : inp.Bounded) (hstrict : inp.strict = false) {a b : ℕ} (hab : a < b)
    (hb : b ≤ inp.len2) : inp.ratio a b = 0 ∨
      ∃ b', a < b' ∧ b' ≤ b ∧ inp.isUpper (b' - 1) = true ∧ inp.ratio a b ≤ inp.ratio a b' := by
  induction b with
  | zero => omega
  | succ b ih =>
    have hupper : inp.isUpper (b + 1 - 1) = inp.found (inp.trg2indexes b) := by
      unfold WordSimInput.isUpper
      rw [hstrict]
      rfl
    cases hfound : inp.found (inp.trg2indexes b) with
    | true => exact .inr ⟨b + 1, hab, le_rfl, hupper.trans hfound, le_rfl⟩
    | false =>
      have hlast : ∀ p, b ≤ p → p < b + 1 → inp.found (inp.trg2indexes p) = false := by
        intro p hbp hpb
        rwa [show p = b from by omega]
      rcases Nat.lt_succ_iff_lt_or_eq.mp hab with hlt | rfl
      · have htrim := hinj.ratio_trim_right hinp hlt (Nat.le_succ b) hb hlast
        rcases ih hlt (by omega) with hzero | ⟨b', hab', hb', hupper', hle⟩
        · left
          rw [hzero] at htrim
          refine le_antisymm htrim ?_
          rw [inp.ratio_eq]
          exact div_nonneg (Nat.cast_nonneg _) (hinp.divisor_pos' hab hb).le
        · exact .inr ⟨b', hab', by omega, hupper', htrim.trans hle⟩
      · left
        have hzero : inp.common a (a + 1) = 0 := count_eq_zero hlast
        rw [inp.ratio_eq, hzero, Nat.cast_zero, zero_div]

/-- The ratios of the extents have a greatest one, if there are any. -/
theorem exists_isGreatest_extentRatios (trgm1 : Finset UInt32)
    (hne : (extentRatios trgm1 (trgmWords enc str2) strict).Nonempty) :
    ∃ best, IsGreatest (extentRatios trgm1 (trgmWords enc str2) strict) best := by
  have hfinite : (extentRatios trgm1 (trgmWords enc str2) strict).Finite := by
    refine Set.Finite.subset (((Set.finite_Iic (trgmWords enc str2).flatten.length).prod
      (Set.finite_Iic (trgmWords enc str2).flatten.length)).image fun p =>
        jaccard trgm1 (extentAt (trgmWords enc str2).flatten p.1 p.2).toFinset) ?_
    rintro r ⟨extent, hextent, rfl⟩
    obtain ⟨a, b, hab, hb, -, -, rfl⟩ := (isExtent_iff_extentAt []).mp hextent
    exact ⟨(a, b), ⟨hab.le.trans hb, hb⟩, rfl⟩
  obtain ⟨best, hbest, hmax⟩ := Set.exists_max_image _ id hfinite hne
  exact ⟨best, hbest, hmax⟩

end

/-- Word similarity divides by zero nowhere. It is zero or the ratio of a contiguous extent, of
whole words in strict mode, at most the greatest such ratio, and the greatest one if the trigrams
of the second string are distinct. -/
theorem calcWordSim_isWordSimilarity (enc : WcharEncoding) (str1 str2 : List UInt8)
    (strict : Bool) : ∃ r, calcWordSim enc str1 str2 strict = some r ∧
      IsWordSimilarity (posTrgm enc str1 false).hashes.toFinset (trgmWords enc str2) strict r := by
  by_cases hlen : (posTrgm enc str1 false).hashes.length +
      (posTrgm enc str2 strict).hashes.length = 0
  · refine ⟨0, if_pos hlen, .inl rfl, ?_⟩
    rintro ⟨r, extent, hextent, -⟩
    obtain ⟨a, b, hab, hb, -⟩ := (isExtent_iff_extentAt []).mp hextent
    have hhashes : (posTrgm enc str2 strict).hashes = (trgmWords enc str2).flatten := rfl
    rw [hhashes] at hlen
    omega
  obtain ⟨number, hnum⟩ := wordSimInput_numbers _ _ strict hlen
  change (searchInput enc str1 str2 strict).Numbers (posTrgm enc str1 false).hashes
    (trgmWords enc str2).flatten number at hnum
  have hinp := searchInput_bounded hnum
  have hrecs : (mergeRecs (posTrgm enc str1 false).hashes
      (posTrgm enc str2 strict).hashes).length ≠ 0 :=
    fun h => mergeRecs_ne_nil hlen (List.length_eq_zero_iff.mp h)
  obtain ⟨r, hr, hattained, hgreatest⟩ := hinp.iterate_eq hrecs
  have hattained : r = 0 ∨ r ∈ extentRatios (posTrgm enc str1 false).hashes.toFinset
      (trgmWords enc str2) strict := by
    rcases hattained with hzero | ⟨a, b, hab, hb, ha, hupper, rfl⟩
    · exact .inl hzero
    · exact .inr ⟨_, (isExtent_iff_extentAt str1).mpr ⟨a, b, hab, hb, ha, fun _ => hupper, rfl⟩,
        hnum.ratio_eq hb⟩
  have hnonneg : 0 ≤ r := by
    rcases hattained with hzero | ⟨extent, -, rfl⟩
    · exact hzero.ge
    · exact jaccard_nonneg _ _
  refine ⟨r, (if_neg hlen).trans hr, hattained, fun hne => ?_⟩
  obtain ⟨best, hbest, hmax⟩ := exists_isGreatest_extentRatios _ hne
  have hle : r ≤ best := by
    rcases hattained with hzero | hmem
    · obtain ⟨extent, -, rfl⟩ := hbest
      rw [hzero]
      exact jaccard_nonneg _ _
    · exact hmax hmem
  refine ⟨best, ⟨hbest, hmax⟩, hle, fun hnodup => le_antisymm hle ?_⟩
  have hinj := hnum.injective rfl hnodup
  obtain ⟨extent, hextent, rfl⟩ := hbest
  obtain ⟨a, b, hab, hb, ha, hupper, rfl⟩ := (isExtent_iff_extentAt str1).mp hextent
  rw [← hnum.ratio_eq hb]
  cases strict with
  | true => exact hgreatest hinj a b hab hb ha (hupper rfl)
  | false =>
    rcases hinj.exists_upper hinp rfl hab hb with hzero | ⟨b', hab', hb', hupper', htrim⟩
    · rwa [hzero]
    · exact htrim.trans (hgreatest hinj a b' hab' (hb'.trans hb) ha hupper')

end PgTre
