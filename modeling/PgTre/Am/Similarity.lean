import PgTre.Am.DistanceAgreement
import Mathlib.Order.Lattice.Nat
import Mathlib.Tactic.Positivity
import Mathlib.Tactic.NormNum

/-!
# The similarity score

`tre_compute_similarity` of `src/module.c` subtracts from 1 the number of edits over the byte length
of the text or of the pattern, whichever is longer. The edits are counted against the strings that
the pattern denotes, and these may be longer than the pattern: `a{9}` has four bytes and asks for
nine letters. The score is between 0 and 1 exactly when the least number of edits stays within the
divisor.
-/

namespace PgTre

open Strings

/-! ## The score -/

/-- `pg_tre_mbdecode` over a whole string: the characters that TRE reads in its bytes. -/
structure MbDecoder where
  decode : List UInt8 → Text
  /-- ASCII characters are single bytes in every database encoding. -/
  ascii : ∀ s : List UInt8, (∀ b ∈ s, b < 128) → decode s = s.map UInt8.toNat

/-- The divisor of the score: the greater of the byte lengths. -/
def maxLen (input pattern : List UInt8) : ℤ :=
  if input.length > pattern.length then input.length else pattern.length

/-- `tre_compute_similarity`, with rationals for its doubles, on a pattern that compiles. A match
that runs into its deadline is not modelled. -/
def treComputeSimilarity (dec : MbDecoder) (engine : TreEngine) (input pattern : List UInt8)
    (maxCost : ℤ) : ℚ :=
  match treDoMatch engine (dec.decode pattern) (dec.decode input) maxCost 1 1 1
      int32Max int32Max int32Max int32Max with
  | none => 0
  | some cost =>
      if maxLen input pattern ≤ 0 then 1 else 1 - (cost : ℚ) / (maxLen input pattern : ℚ)

/-- The numbers of edits between a substring of the text and a string that the pattern matches
there. -/
def TreReading.edits (reading : TreReading) (pattern str : Text) : Set ℕ :=
  {n | ∃ pre u post w i d s, str = pre ++ (u ++ post) ∧ reading.lang pattern pre w post ∧
    Aligned i d s w u ∧ i + d + s = n}

/-- What the comment at `tre_compute_similarity` promises of a text and a pattern, over all budgets:
the range of the score, the score of an exact match, and that a larger budget does not lower it. -/
structure IsSimilarityScore (dec : MbDecoder) (engine : TreEngine) (reading : TreReading)
    (input pattern : List UInt8) : Prop where
  nonneg : ∀ maxCost ≤ int32Max, 0 ≤ treComputeSimilarity dec engine input pattern maxCost
  le_one : ∀ maxCost ≤ int32Max, treComputeSimilarity dec engine input pattern maxCost ≤ 1
  exact : 0 ∈ reading.edits (dec.decode pattern) (dec.decode input) → ∀ maxCost ≤ int32Max,
    0 ≤ maxCost → treComputeSimilarity dec engine input pattern maxCost = 1
  mono : ∀ maxCost maxCost', maxCost ≤ maxCost' → maxCost' ≤ int32Max →
    treComputeSimilarity dec engine input pattern maxCost ≤
      treComputeSimilarity dec engine input pattern maxCost'

/-! ## Costs at unit prices -/

section

variable {reading : TreReading} {pattern str : Text} {maxCost : ℤ}

/-- At unit prices a cost is a number of edits within the budget. -/
theorem mem_costs_unit (hbudget : maxCost ≤ int32Max) {c : ℤ} :
    c ∈ reading.costs pattern (patternParams maxCost 1 1 1) str ↔
      ∃ n ∈ reading.edits pattern str, (n : ℤ) = c ∧ c ≤ maxCost := by
  have hlimit : maxCost ≤ editLimit maxCost := by
    unfold editLimit
    split_ifs <;> omega
  constructor
  · rintro ⟨pre, u, post, w, i, d, s, hstr, hlang, haligned, hadmits, hcost⟩
    obtain ⟨-, hwithin⟩ := patternParams_admits_iff.mp hadmits
    dsimp only [RegaParams.cost, patternParams] at hcost
    exact ⟨i + d + s, ⟨pre, u, post, w, i, d, s, hstr, hlang, haligned, rfl⟩, by omega, by omega⟩
  · rintro ⟨n, ⟨pre, u, post, w, i, d, s, hstr, hlang, haligned, rfl⟩, rfl, hwithin⟩
    refine ⟨pre, u, post, w, i, d, s, hstr, hlang, haligned, patternParams_admits_iff.mpr ⟨?_, ?_⟩, ?_⟩
    · omega
    · omega
    · dsimp only [RegaParams.cost, patternParams]
      omega

/-- Deleting all of a string takes as many edits as it is long. -/
theorem aligned_delete_all {α : Type*} (w : List α) : Aligned 0 w.length 0 w [] := by
  induction w with
  | nil => exact .nil
  | cons a w ih => exact .delete a ih

variable {engine : TreEngine}

/-- TRE finds the least number of edits if the budget allows it. -/
theorem TreEngine.Minimal.unit_some (hmin : engine.Minimal reading) (hbudget : maxCost ≤ int32Max)
    {n : ℕ} (hleast : IsLeast (reading.edits pattern str) n) (hn : n ≤ maxCost) :
    engine pattern (patternParams maxCost 1 1 1) str = some (n : ℤ) := by
  refine (hmin _ _ _ _).mpr ⟨(mem_costs_unit hbudget).mpr ⟨n, hleast.1, rfl, hn⟩, ?_⟩
  intro c hc
  obtain ⟨m, hm, rfl, -⟩ := (mem_costs_unit hbudget).mp hc
  exact_mod_cast hleast.2 hm

/-- TRE finds nothing if every number of edits is above the budget. -/
theorem TreEngine.Minimal.unit_none (hmin : engine.Minimal reading) (hbudget : maxCost ≤ int32Max)
    (habove : ∀ n ∈ reading.edits pattern str, maxCost < n) :
    engine pattern (patternParams maxCost 1 1 1) str = none := by
  rw [hmin.eq_none_iff, Set.eq_empty_iff_forall_notMem]
  intro c hc
  obtain ⟨n, hn, rfl, hle⟩ := (mem_costs_unit hbudget).mp hc
  exact absurd hle (not_le.mpr (habove n hn))

end

/-! ## The range of the score -/

section

variable {dec : MbDecoder} {engine : TreEngine} {reading : TreReading} {input pattern : List UInt8}
  {maxCost : ℤ}

/-- The divisor as a maximum. -/
theorem maxLen_eq : maxLen input pattern = max (input.length : ℤ) pattern.length := by
  unfold maxLen
  split_ifs <;> omega

/-- The divisor is zero for two empty strings only. -/
theorem maxLen_le_zero_iff : maxLen input pattern ≤ 0 ↔ input = [] ∧ pattern = [] := by
  rw [maxLen_eq, ← List.length_eq_zero_iff, ← List.length_eq_zero_iff]
  omega

/-- The score of a least number of edits within the budget. -/
theorem treComputeSimilarity_of_le (hmin : engine.Minimal reading) (hbudget : maxCost ≤ int32Max)
    {n : ℕ} (hleast : IsLeast (reading.edits (dec.decode pattern) (dec.decode input)) n)
    (hn : n ≤ maxCost) :
    treComputeSimilarity dec engine input pattern maxCost =
      if maxLen input pattern ≤ 0 then 1 else 1 - (n : ℚ) / (maxLen input pattern : ℚ) := by
  have hmatch : treDoMatch engine (dec.decode pattern) (dec.decode input) maxCost 1 1 1
      int32Max int32Max int32Max int32Max = some (n : ℤ) := hmin.unit_some hbudget hleast hn
  simp [treComputeSimilarity, hmatch]

/-- The score when every number of edits is above the budget. -/
theorem treComputeSimilarity_of_lt (hmin : engine.Minimal reading) (hbudget : maxCost ≤ int32Max)
    (habove : ∀ n ∈ reading.edits (dec.decode pattern) (dec.decode input), maxCost < n) :
    treComputeSimilarity dec engine input pattern maxCost = 0 := by
  have hmatch : treDoMatch engine (dec.decode pattern) (dec.decode input) maxCost 1 1 1
      int32Max int32Max int32Max int32Max = none := hmin.unit_none hbudget habove
  simp [treComputeSimilarity, hmatch]

/-- The score steps from 0 to one value, where the budget reaches the least number of edits. -/
theorem isSimilarityScore_of_step {least : ℤ} {top : ℚ} (hrange : 0 ≤ top ∧ top ≤ 1)
    (hbelow : ∀ maxCost < least, maxCost ≤ int32Max →
      treComputeSimilarity dec engine input pattern maxCost = 0)
    (hfrom : ∀ maxCost, least ≤ maxCost → maxCost ≤ int32Max →
      treComputeSimilarity dec engine input pattern maxCost = top)
    (hexact : 0 ∈ reading.edits (dec.decode pattern) (dec.decode input) → least ≤ 0 ∧ top = 1) :
    IsSimilarityScore dec engine reading input pattern := by
  have hcases : ∀ maxCost ≤ int32Max, treComputeSimilarity dec engine input pattern maxCost = 0 ∨
      treComputeSimilarity dec engine input pattern maxCost = top := by
    intro maxCost hbudget
    rcases lt_or_ge maxCost least with hlt | hge
    · exact Or.inl (hbelow maxCost hlt hbudget)
    · exact Or.inr (hfrom maxCost hge hbudget)
  refine ⟨?_, ?_, ?_, ?_⟩
  · intro maxCost hbudget
    rcases hcases maxCost hbudget with h | h <;> rw [h]
    exact hrange.1
  · intro maxCost hbudget
    rcases hcases maxCost hbudget with h | h <;> rw [h]
    · exact zero_le_one
    · exact hrange.2
  · intro hzero maxCost hbudget hnonneg
    obtain ⟨hleast, htop⟩ := hexact hzero
    rw [hfrom maxCost (hleast.trans hnonneg) hbudget, htop]
  · intro maxCost maxCost' hle hbudget'
    rcases lt_or_ge maxCost least with hlt | hge
    · rw [hbelow maxCost hlt (hle.trans hbudget')]
      rcases hcases maxCost' hbudget' with h | h <;> rw [h]
      exact hrange.1
    · rw [hfrom maxCost hge (hle.trans hbudget'), hfrom maxCost' (hge.trans hle) hbudget']

/-- A budget that never reaches a match leaves the score at 0. -/
theorem isSimilarityScore_of_unreachable (hmin : engine.Minimal reading)
    (hnone : ∀ n ∈ reading.edits (dec.decode pattern) (dec.decode input), int32Max < n) :
    IsSimilarityScore dec engine reading input pattern := by
  have hzero : ∀ maxCost ≤ int32Max, treComputeSimilarity dec engine input pattern maxCost = 0 := by
    intro maxCost hbudget
    exact treComputeSimilarity_of_lt hmin hbudget fun n hn => hbudget.trans_lt (hnone n hn)
  refine @isSimilarityScore_of_step dec engine reading input pattern (int32Max + 1) 0
    ⟨le_rfl, zero_le_one⟩ (fun maxCost _ hbudget => hzero maxCost hbudget)
    (fun maxCost _ hbudget => hzero maxCost hbudget) ?_
  intro hmem
  exact absurd (hnone 0 hmem) (by decide)

section

variable {n : ℕ} (hleast : IsLeast (reading.edits (dec.decode pattern) (dec.decode input)) n)
include hleast

/-- Below the least number of edits the score is 0. -/
theorem treComputeSimilarity_below (hmin : engine.Minimal reading) (hlt : maxCost < n)
    (hbudget : maxCost ≤ int32Max) : treComputeSimilarity dec engine input pattern maxCost = 0 :=
  treComputeSimilarity_of_lt hmin hbudget fun _ hk => hlt.trans_le (Int.ofNat_le.mpr (hleast.2 hk))

/-- An exact match is the least number of edits. -/
theorem least_eq_zero (hzero : 0 ∈ reading.edits (dec.decode pattern) (dec.decode input)) : n = 0 :=
  Nat.le_zero.mp (hleast.2 hzero)

/-- Two empty strings score 1 as soon as they match. -/
theorem isSimilarityScore_nil (hmin : engine.Minimal reading) (hempty : input = [] ∧ pattern = []) :
    IsSimilarityScore dec engine reading input pattern := by
  refine isSimilarityScore_of_step ⟨zero_le_one, le_rfl⟩
    (fun maxCost hlt => treComputeSimilarity_below hleast hmin hlt) ?_ ?_
  · intro maxCost hle hbudget
    rw [treComputeSimilarity_of_le hmin hbudget hleast hle,
      if_pos (maxLen_le_zero_iff.mpr hempty)]
  · intro hzero
    rw [least_eq_zero hleast hzero]
    exact ⟨le_rfl, rfl⟩

/-- Otherwise the divisor must reach the least number of edits. -/
theorem isSimilarityScore_iff_of_least (hmin : engine.Minimal reading) (hn : (n : ℤ) ≤ int32Max)
    (hempty : ¬ (input = [] ∧ pattern = [])) :
    IsSimilarityScore dec engine reading input pattern ↔ (n : ℤ) ≤ maxLen input pattern := by
  have hlen : ¬ maxLen input pattern ≤ 0 := fun h => hempty (maxLen_le_zero_iff.mp h)
  have hpos : (0 : ℚ) < (maxLen input pattern : ℚ) := by exact_mod_cast not_le.mp hlen
  have hfrom : ∀ maxCost, (n : ℤ) ≤ maxCost → maxCost ≤ int32Max →
      treComputeSimilarity dec engine input pattern maxCost =
        1 - (n : ℚ) / (maxLen input pattern : ℚ) := by
    intro maxCost hle hbudget
    rw [treComputeSimilarity_of_le hmin hbudget hleast hle, if_neg hlen]
  have hnonneg : (0 : ℚ) ≤ 1 - (n : ℚ) / (maxLen input pattern : ℚ) ↔
      (n : ℤ) ≤ maxLen input pattern := by
    rw [sub_nonneg, div_le_one hpos]
    exact_mod_cast Iff.rfl
  constructor
  · intro hscore
    have hscored := hscore.nonneg n hn
    rw [hfrom n le_rfl hn] at hscored
    exact hnonneg.mp hscored
  · intro hwithin
    have hquot : (0 : ℚ) ≤ n / (maxLen input pattern : ℚ) := by positivity
    refine isSimilarityScore_of_step ⟨hnonneg.mpr hwithin, by linarith⟩
      (fun maxCost hlt => treComputeSimilarity_below hleast hmin hlt) hfrom ?_
    intro hzero
    simp [least_eq_zero hleast hzero]

end

/-- TRE returning the least number of edits, the score of a text under a pattern is what its comment
promises if and only if some string of the language is within as many edits of a substring of the
text as the longer of the two has bytes, or no budget reaches a match, or both are empty. -/
theorem isSimilarityScore_iff (dec : MbDecoder) (engine : TreEngine) (reading : TreReading)
    (hmin : engine.Minimal reading) (input pattern : List UInt8) :
    IsSimilarityScore dec engine reading input pattern ↔
      (∃ n ∈ reading.edits (dec.decode pattern) (dec.decode input),
        n ≤ max input.length pattern.length) ∨
      (∀ n ∈ reading.edits (dec.decode pattern) (dec.decode input), int32Max < n) ∨
      (input = [] ∧ pattern = []) := by
  by_cases hnone : ∀ n ∈ reading.edits (dec.decode pattern) (dec.decode input), int32Max < n
  · exact iff_of_true (isSimilarityScore_of_unreachable hmin hnone) (Or.inr (Or.inl hnone))
  have hreach := hnone
  push Not at hreach
  obtain ⟨m, hm, hreach⟩ := hreach
  obtain ⟨n, hleast⟩ : ∃ n, IsLeast (reading.edits (dec.decode pattern) (dec.decode input)) n :=
    ⟨_, Nat.sInf_mem ⟨m, hm⟩, fun k hk => Nat.sInf_le hk⟩
  by_cases hempty : input = [] ∧ pattern = []
  · exact iff_of_true (isSimilarityScore_nil hleast hmin hempty) (Or.inr (Or.inr hempty))
  have hn : (n : ℤ) ≤ int32Max := (Int.ofNat_le.mpr (hleast.2 hm)).trans hreach
  rw [isSimilarityScore_iff_of_least hleast hmin hn hempty, maxLen_eq]
  constructor
  · intro hwithin
    exact Or.inl ⟨n, hleast.1, by exact_mod_cast hwithin⟩
  · rintro (⟨k, hk, hwithin⟩ | habove | hboth)
    · exact_mod_cast (hleast.2 hk).trans hwithin
    · exact absurd habove hnone
    · exact absurd hboth hempty

end

/-! ## A counted repetition -/

/-- A decoder for a single-byte encoding. -/
def asciiDecoder : MbDecoder := ⟨fun s => s.map UInt8.toNat, fun _ _ => rfl⟩

/-- `^a$` scores the text `a`. -/
theorem isSimilarityScore_letter :
    IsSimilarityScore asciiDecoder anchoredReading.engine anchoredReading [97] [94, 97, 36] :=
  (isSimilarityScore_iff asciiDecoder anchoredReading.engine anchoredReading
    anchoredReading.engine_minimal [97] [94, 97, 36]).mpr
    (Or.inl ⟨0, ⟨[], [97], [], [97], 0, 0, 0, rfl, ⟨rfl, by decide, rfl, rfl⟩,
      .keep 97 .nil, rfl⟩, Nat.zero_le _⟩)

/-- The reading that also knows a small letter with a count of one digit. -/
def intervalReading : TreReading where
  lang := fun pattern pre w post => anchoredReading.lang pattern pre w post ∨
    ∃ c n : ℕ, (97 ≤ c ∧ c ≤ 122) ∧ n < 10 ∧ pattern = [c, 123, 48 + n, 125] ∧ w = List.replicate n c
  anchored := by
    intro cs hcs pre w post
    rw [← anchoredReading.anchored cs hcs pre w post]
    constructor
    · rintro (hanchored | ⟨c, n, hc, -, hpattern, -⟩)
      · exact hanchored
      · have hcaret : (94 : ℕ) = c := (List.cons.inj hpattern).1
        omega
    · exact Or.inl

/-- `a{9}` takes nine edits in the empty text. -/
theorem edits_interval : intervalReading.edits [97, 123, 57, 125] [] = {9} := by
  have hdelete {m n i d s : ℕ} (h : Aligned i d s (List.replicate m (97 : CodePoint))
      (List.replicate n 98)) : d + s = m ∧ s + i = n := h.of_replicate (by decide)
  ext n
  rw [Set.mem_singleton_iff]
  constructor
  · rintro ⟨pre, u, post, w, i, d, s, hstr, hlang, haligned, rfl⟩
    obtain ⟨-, rfl, -⟩ : pre = [] ∧ u = [] ∧ post = [] := by simpa using hstr.symm
    obtain ⟨hpattern, -⟩ | ⟨c, k, -, -, hpattern, rfl⟩ := hlang
    · cases hpattern
    · obtain ⟨rfl, hdigit⟩ : 97 = c ∧ 57 = 48 + k := by simpa using hpattern
      obtain rfl : k = 9 := by omega
      have hcounts := @hdelete 9 0 i d s haligned
      omega
  · rintro rfl
    exact ⟨[], [], [], List.replicate 9 97, 0, 9, 0, rfl,
      Or.inr ⟨97, 9, by decide, by decide, rfl, rfl⟩, aligned_delete_all (List.replicate 9 97), rfl⟩

/-- The empty text scores 0 under `a{9}` with a budget of 8, and less than 0 with a budget of 9. -/
theorem interval_not_isSimilarityScore :
    intervalReading.engine.Minimal intervalReading ∧
      treComputeSimilarity asciiDecoder intervalReading.engine [] [97, 123, 57, 125] 8 = 0 ∧
      treComputeSimilarity asciiDecoder intervalReading.engine [] [97, 123, 57, 125] 9 = -5 / 4 ∧
      ¬ IsSimilarityScore asciiDecoder intervalReading.engine intervalReading []
        [97, 123, 57, 125] := by
  have hedits : intervalReading.edits (asciiDecoder.decode [97, 123, 57, 125])
      (asciiDecoder.decode []) = {9} := edits_interval
  have hleast : IsLeast (intervalReading.edits (asciiDecoder.decode [97, 123, 57, 125])
      (asciiDecoder.decode [])) 9 := by
    rw [hedits]
    exact isLeast_singleton
  have hnine : treComputeSimilarity asciiDecoder intervalReading.engine [] [97, 123, 57, 125] 9 =
      -5 / 4 := by
    rw [treComputeSimilarity_of_le intervalReading.engine_minimal (by decide) hleast (by decide)]
    norm_num [maxLen]
  refine ⟨intervalReading.engine_minimal, ?_, hnine, ?_⟩
  · refine treComputeSimilarity_of_lt intervalReading.engine_minimal (by decide) ?_
    rw [hedits]
    rintro n rfl
    decide
  · intro hscore
    have hnonneg := hscore.nonneg 9 (by decide)
    rw [hnine] at hnonneg
    norm_num at hnonneg

end PgTre
