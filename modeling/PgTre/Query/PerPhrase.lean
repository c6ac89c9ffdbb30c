import PgTre.Query.ExtractPieces

/-!
# Per-phrase edit budgets in the exact extraction

At cost zero the linearizer treats an `APPROX` node as its child, whatever its budget. A pattern
whose budgets are all zero, as far as the linearizer gets before the accumulator overflows, is
extracted soundly, up to the class repetitions of a run that expands to pieces. The README's example
`(postgres){~2}.*(system){~0}` has a positive budget, and the query extracted from it asks for
trigrams that an allowed edit removes.
-/

namespace PgTre

open Strings

/-- The tree is one unbroken run that `try_build_run_pieces` expands. -/
def RegexAst.expandsToPieces (ast : RegexAst) : Bool :=
  decide (ast.shape.flushed = false) && (tryBuildRunPieces ast.shape.run 0 .zero).isSome

/-- Only such a tree is extracted in PIECES mode. -/
theorem expandsToPieces_of_mode {s : Settings} {ast : RegexAst} {q : TrigramQuery}
    (hq : regexExtractQuery s ast 0 = .ok q) (hmode : q.mode = .pieces) :
    ast.expandsToPieces = true := by
  rcases regexExtractQuery_zero_cases hq with ⟨hflushes, hover, q', hpieces, -⟩ | rfl
  · obtain ⟨hkeep, hrun⟩ := linearize_run_of_unbroken hflushes hover
    rw [hrun] at hpieces
    simp [RegexAst.expandsToPieces, hkeep, hpieces]
  · simp at hmode

/-- The exact extraction never builds a DNF query. -/
theorem mode_ne_dnf {s : Settings} {ast : RegexAst} {q : TrigramQuery}
    (hq : regexExtractQuery s ast 0 = .ok q) : q.mode ≠ .dnf := by
  rcases regexExtractQuery_zero_cases hq with ⟨-, -, q', hpieces, rfl⟩ | rfl
  · rw [recordSurfRange_mode, (tryBuildRunPieces_eq_some hpieces).1]
    simp
  · simp

/-- When every budget that the linearizer visits, up to an overflow, is zero, and the class repetitions
of a tree that expands to pieces are inlined in full, every text with a match satisfies the query. -/
theorem regexExtractQuery_satisfiedBy_of_walkBudgetsZero (s : Settings) (ast : RegexAst)
    (t : List CodePoint) (q : TrigramQuery)
    (hzero : ast.walkBudgetsZero s.maxExtractionFanout ⟨[], .init, 0⟩ = true)
    (hreps : ast.expandsToPieces = true → ast.classRepsInlined = true) (hoccurs : ast.OccursIn t)
    (hq : regexExtractQuery s ast 0 = .ok q) : q.SatisfiedBy t := by
  right
  cases hmode : q.mode with
  | cnf => exact cnf_met_of_walk hzero hoccurs hq hmode
  | dnf => exact absurd hmode (mode_ne_dnf hq)
  | pieces =>
    have hinlined := hreps (expandsToPieces_of_mode hq hmode)
    exact pieces_met_of_walk hzero hinlined hoccurs hq hmode

/-- The pattern `(postgres){~k}.*(system){~0}`. -/
def postgresSystem (k : ℕ) : RegexAst :=
  .concat (.concat
      (.approx ((RegexAst.literal 112).followedBy [111, 115, 116, 103, 114, 101, 115]) k)
      (.rep .any 0 none))
    (.approx ((RegexAst.literal 115).followedBy [121, 115, 116, 101, 109]) 0)

/-- The text `<phrase> system`, for a phrase within `k` edits of `postgres`. -/
theorem postgresSystem_occursIn {k : ℕ} {phrase : List CodePoint}
    (h : Edits k [112, 111, 115, 116, 103, 114, 101, 115] phrase) :
    (postgresSystem k).OccursIn (phrase ++ [32] ++ [115, 121, 115, 116, 101, 109]) := by
  refine ⟨[], _, [], by simp, phrase ++ [32], [115, 121, 115, 116, 101, 109], rfl, ?_, ?_⟩
  · refine ⟨phrase, [32], rfl, ⟨_, RegexAst.followedBy_matches rfl, h⟩, 1, by simp, by simp, ?_⟩
    exact ⟨[32], [], rfl, ⟨32, rfl⟩, rfl⟩
  · exact ⟨_, RegexAst.followedBy_matches rfl, Edits.refl 0 _⟩

/-- The pattern `(postgres){~0}.*(system){~0}` on the text `postgres system`. -/
theorem regexExtractQuery_satisfiedBy_postgresSystem :
    ∃ q, regexExtractQuery ⟨256, 4⟩ (postgresSystem 0) 0 = .ok q ∧ q.alwaysTrue = false ∧
      (postgresSystem 0).walkBudgetsZero 256 ⟨[], .init, 0⟩ = true ∧
      q.SatisfiedBy ([112, 111, 115, 116, 103, 114, 101, 115] ++ [32] ++
        [115, 121, 115, 116, 101, 109]) := by
  refine ⟨_, rfl, rfl, rfl, ?_⟩
  exact regexExtractQuery_satisfiedBy_of_walkBudgetsZero ⟨256, 4⟩ (postgresSystem 0) _ _ rfl
    (by decide) (postgresSystem_occursIn (Edits.refl 0 _)) rfl

/-- The pattern `(postgres){~2}.*(system){~0}` on the text `postgrs system`, one edit away from
`postgres system`: the query asks for the trigrams `gre` and `res`. -/
theorem postgresSystem_unsatisfied :
    ∃ q, regexExtractQuery ⟨256, 4⟩ (postgresSystem 2) 0 = .ok q ∧
      (postgresSystem 2).OccursIn ([112, 111, 115, 116, 103, 114, 115] ++ [32] ++
        [115, 121, 115, 116, 101, 109]) ∧
      ¬ q.SatisfiedBy ([112, 111, 115, 116, 103, 114, 115] ++ [32] ++
        [115, 121, 115, 116, 101, 109]) := by
  have hedits : Edits 2 [112, 111, 115, 116, 103, 114, 101, 115]
      [112, 111, 115, 116, 103, 114, 115] :=
    .keep _ (.keep _ (.keep _ (.keep _ (.keep _ (.keep _ (.delete _ (Edits.refl 1 _)))))))
  exact ⟨_, rfl, postgresSystem_occursIn hedits, by decide +kernel⟩

end PgTre
