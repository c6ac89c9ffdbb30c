import PgTre.Query.RegexAst
import Mathlib.Order.Bounds.Basic
import Mathlib.Data.Set.Finite.Lattice
import Mathlib.Data.Set.Finite.Lemmas
import Mathlib.Data.Finite.Prod

/-!
# Patterns with costs and the matcher

A `tre_pattern` is a regular expression with an edit budget and the costs of an insertion, a
deletion and a substitution. `tre_do_match` of `src/util/tre_match.c` hands them to the TRE
library, whose matcher is a parameter here: it is not part of the repository.
-/

namespace PgTre

open Strings

/-- A text value, as the characters of the database encoding. -/
abbrev Text := List CodePoint

/-- `TrePatternData`: a `tre_pattern` value whose regular expression TRE compiles. -/
structure TrePattern where
  pattern : Text
  maxCost : ℤ
  costIns : ℤ
  costDel : ℤ
  costSubst : ℤ

/-- `regaparams_t`: the costs of the edits and the limits on their cost and numbers. -/
structure RegaParams where
  costIns : ℤ
  costDel : ℤ
  costSubst : ℤ
  maxCost : ℤ
  maxIns : ℤ
  maxDel : ℤ
  maxSubst : ℤ
  maxErr : ℤ

/-- TRE: the cost of the best match of a pattern within the limits, if there is one. -/
abbrev TreEngine := Text → RegaParams → Text → Option ℤ

/-- `tre_do_match` on a compiled pattern, with the cost of a match as its result. A finite budget
also limits the numbers of edits. A match that runs into its deadline is not modelled. -/
def treDoMatch (engine : TreEngine) (pattern str : Text)
    (maxCost costIns costDel costSubst maxIns maxDel maxSubst maxErr : ℤ) : Option ℤ :=
  let clamp := fun limit : ℤ =>
    if 0 ≤ maxCost ∧ maxCost ≠ int32Max ∧ maxCost < limit then maxCost else limit
  engine pattern
    { costIns := costIns
      costDel := costDel
      costSubst := costSubst
      maxCost := maxCost
      maxIns := clamp maxIns
      maxDel := clamp maxDel
      maxSubst := clamp maxSubst
      maxErr := clamp maxErr } str

/-- `pg_tre_distance_pattern`, the function behind `tre_distance` and `<@>`: it matches within the
pattern's budget at unit costs. -/
def distancePattern (engine : TreEngine) (pat : TrePattern) (input : Text) : Option ℤ :=
  treDoMatch engine pat.pattern input pat.maxCost 1 1 1 int32Max int32Max int32Max int32Max

/-! ## What TRE computes -/

/-- TRE's reading of a pattern: which strings it matches between what stands before and after. -/
structure TreReading where
  lang : Text → Text → Text → Text → Prop
  /-- Small letters between `^` and `$` match themselves as the whole text. -/
  anchored : ∀ cs : Text, (∀ c ∈ cs, 97 ≤ c ∧ c ≤ 122) → ∀ pre w post,
    lang (94 :: (cs ++ [36])) pre w post ↔ pre = [] ∧ w = cs ∧ post = []

/-- The cost of an alignment with these numbers of edits. -/
def RegaParams.cost (params : RegaParams) (i d s : ℕ) : ℤ :=
  params.costIns * i + params.costDel * d + params.costSubst * s

/-- The numbers of edits stay within the limits. -/
structure RegaParams.Admits (params : RegaParams) (i d s : ℕ) : Prop where
  ins : i ≤ params.maxIns
  del : d ≤ params.maxDel
  subst : s ≤ params.maxSubst
  err : (i + d + s : ℤ) ≤ params.maxErr
  cost : params.cost i d s ≤ params.maxCost

/-- The costs of all matches within the limits. -/
def TreReading.costs (reading : TreReading) (pattern : Text) (params : RegaParams) (str : Text) :
    Set ℤ :=
  {c | ∃ pre u post w i d s, str = pre ++ (u ++ post) ∧ reading.lang pattern pre w post ∧
    Aligned i d s w u ∧ params.Admits i d s ∧ params.cost i d s = c}

/-- The engine returns the least cost of a match within the limits. -/
def TreEngine.Minimal (engine : TreEngine) (reading : TreReading) : Prop :=
  ∀ pattern params str c,
    engine pattern params str = some c ↔ IsLeast (reading.costs pattern params str) c

section

variable {engine : TreEngine} {reading : TreReading} {pattern str : Text} {params params' : RegaParams}

/-- The limits leave finitely many costs. -/
theorem TreReading.costs_finite : (reading.costs pattern params str).Finite := by
  have hbox : (reading.costs pattern params str) ⊆
      (fun n : ℕ × ℕ × ℕ => params.cost n.1 n.2.1 n.2.2) ''
        (Set.Iic params.maxIns.toNat ×ˢ (Set.Iic params.maxDel.toNat ×ˢ
          Set.Iic params.maxSubst.toNat)) := by
    rintro c ⟨-, -, -, -, i, d, s, -, -, -, hadmits, rfl⟩
    obtain ⟨hins, hdel, hsubst, -, -⟩ := hadmits
    exact ⟨(i, d, s), ⟨by simp; omega, by simp; omega, by simp; omega⟩, rfl⟩
  refine Set.Finite.subset (Set.Finite.image _ ?_) hbox
  exact Set.Finite.prod (Set.finite_Iic _) (Set.Finite.prod (Set.finite_Iic _) (Set.finite_Iic _))

/-- The engine finds nothing exactly when no match is within the limits. -/
theorem TreEngine.Minimal.eq_none_iff (hmin : engine.Minimal reading) :
    engine pattern params str = none ↔ reading.costs pattern params str = ∅ := by
  constructor
  · intro hnone
    by_contra hne
    obtain ⟨c, hc, hleast⟩ := Set.exists_min_image _ id
        (@TreReading.costs_finite reading pattern str params)
      (Set.nonempty_iff_ne_empty.mpr hne)
    rw [(hmin pattern params str c).mpr ⟨hc, hleast⟩] at hnone
    cases hnone
  · intro hempty
    cases hresult : engine pattern params str with
    | none => rfl
    | some c =>
      have hleast := (hmin pattern params str c).mp hresult
      rw [hempty] at hleast
      exact absurd hleast.1 (Set.notMem_empty c)

/-- The engine's result depends only on the costs of the matches. -/
theorem TreEngine.Minimal.congr (hmin : engine.Minimal reading)
    (hcosts : reading.costs pattern params str = reading.costs pattern params' str) :
    engine pattern params str = engine pattern params' str := by
  ext c
  rw [hmin, hmin, hcosts]

end

end PgTre
