import PgTre.Am.Rescan

/-!
# The planner's view of a pattern

`pg_tre_amcostestimate` of `src/am/amcost.c` translates, parses and extracts the right-hand side once
more, to cost a scan that would return the whole table above any other plan. What `pg_tre_amrescan`
adds to the extraction is not repeated there: a pattern that does not parse, an operator that ignores
case, and the flag of embedded options and opaque escapes.
-/

namespace PgTre

section

variable {enc : Encoding}

/-- What both extractions of `src/am/amcost.c` do: without a tree there is no query. -/
def costExtract (enc : Encoding) (s : Settings) (regex : List UInt8) (maxCost : ℤ) :
    Except PgError (Option TrigramQuery) :=
  match treParseRegex enc regex with
  | .error (.raised e) => .error e
  | .error (.syntaxError _) => .ok none
  | .ok (root, _) =>
      match regexExtractQuery s root maxCost with
      | .error e => .error e
      | .ok q => .ok (some q)

/-- `extract_query_from_pattern`. -/
def extractQueryFromPattern (s : Settings) (pat : TrePatternData enc) :
    Except PgError (Option TrigramQuery) :=
  costExtract enc s pat.text.bytes pat.maxCost

/-- `extract_query_from_text`. -/
def extractQueryFromText (enc : Encoding) (s : Settings) (regex : List UInt8) :
    Except PgError (Option TrigramQuery) :=
  costExtract enc s regex 0

/-- The query of a constant, by the type on the right of the operator and its strategy. -/
def Strategy.costQuery (s : Settings) :
    (strategy : Strategy) → strategy.Argument enc → Except PgError (Option TrigramQuery)
  | .approxMatch, pat => extractQueryFromPattern s pat
  | .equal, rhs => extractQueryFromText enc s (literalToRegex (TextDatum.bytes rhs))
  | .regex, rhs => extractQueryFromText enc s (TextDatum.bytes rhs)
  | .iregex, rhs => extractQueryFromText enc s (TextDatum.bytes rhs)
  | .like, rhs => extractQueryFromText enc s (likeToRegex (byte '\\') (TextDatum.bytes rhs))
  | .ilike, rhs => extractQueryFromText enc s (likeToRegex (byte '\\') (TextDatum.bytes rhs))

/-- The branches of `pg_tre_amcostestimate`. The costs of the second depend on the query, if there
is one; `unfilterable` costs half of `disable_cost` with a selectivity of 1. -/
inductive CostBranch where
  | unfilterable
  | estimated (q : Option TrigramQuery)
  deriving DecidableEq

/-- `pg_tre_amcostestimate` for a condition with a constant on the right. -/
def amcostestimate (s : Settings) (strategy : Strategy) (a : strategy.Argument enc) :
    Except PgError CostBranch :=
  match strategy.costQuery s a with
  | .error e => .error e
  | .ok none => .ok (.estimated none)
  | .ok (some q) => .ok (if q.alwaysTrue then .unfilterable else .estimated (some q))

/-- Both translate a right-hand side alike. -/
theorem Strategy.costQuery_eq (s : Settings) (strategy : Strategy) (a : strategy.Argument enc) :
    strategy.costQuery s a = costExtract enc s (strategy.pattern a).1 (strategy.pattern a).2 := by
  cases strategy <;> rfl

/-- The planner avoids the index for a constant exactly when the scan would return all rows. -/
def CostAgrees (s : Settings) (st : ScanState enc) (strategy : Strategy)
    (a : strategy.Argument enc) : Prop :=
  amcostestimate s strategy a = .ok .unfilterable ↔
    ∃ st', amrescan s st [⟨strategy, some a⟩] = .ok st' ∧ st'.q.alwaysTrue = true

/-- When the estimate is the one for an unfilterable pattern. -/
theorem amcostestimate_unfilterable_iff {s : Settings} {strategy : Strategy}
    {a : strategy.Argument enc} :
    amcostestimate s strategy a = .ok .unfilterable ↔
      ∃ root force q, treParseRegex enc (strategy.pattern a).1 = .ok (root, force) ∧
        regexExtractQuery s root (strategy.pattern a).2 = .ok q ∧ q.alwaysTrue = true := by
  unfold amcostestimate
  rw [strategy.costQuery_eq, costExtract]
  cases hparse : treParseRegex enc (strategy.pattern a).1 with
  | error e => cases e <;> simp
  | ok r =>
    obtain ⟨root, force⟩ := r
    cases hquery : regexExtractQuery s root (strategy.pattern a).2 with
    | error e => simp [hquery]
    | ok q => cases halways : q.alwaysTrue <;> simp [hquery, halways]

/-- A scan returns all rows when the query of its key says so. -/
theorem amrescan_alwaysTrue_iff {s : Settings} {st : ScanState enc} {strategy : Strategy}
    {a : strategy.Argument enc} :
    (∃ st', amrescan s st [⟨strategy, some a⟩] = .ok st' ∧ st'.q.alwaysTrue = true) ↔
      ∃ q, strategy.query s a = .ok q ∧ q.alwaysTrue = true := by
  simp only [amrescan]
  cases strategy.query s a with
  | error e => simp
  | ok q => simp

/-- When the query of a constant does. -/
theorem Strategy.query_alwaysTrue_iff {s : Settings} {strategy : Strategy}
    {a : strategy.Argument enc} :
    (∃ q, strategy.query s a = .ok q ∧ q.alwaysTrue = true) ↔
      (∃ errmsg, treParseRegex enc (strategy.pattern a).1 = .error (.syntaxError errmsg)) ∨
      ∃ root force q, treParseRegex enc (strategy.pattern a).1 = .ok (root, force) ∧
        regexExtractQuery s root (strategy.pattern a).2 = .ok q ∧
        (q.alwaysTrue = true ∨ (strategy.ignoresCase || force) = true) := by
  unfold Strategy.query
  cases hparse : treParseRegex enc (strategy.pattern a).1 with
  | error e => cases e <;> simp
  | ok r =>
    obtain ⟨root, force⟩ := r
    simp only [Except.ok.injEq, Prod.mk.injEq, reduceCtorEq, exists_false, false_or]
    constructor
    · rintro ⟨q, hq, halways⟩
      cases hquery : regexExtractQuery s root (strategy.pattern a).2 with
      | error e => simp [hquery] at hq
      | ok q' =>
        refine ⟨root, force, q', ⟨rfl, rfl⟩, hquery, ?_⟩
        cases hforced : strategy.ignoresCase || force with
        | true => exact Or.inr rfl
        | false =>
          simp only [hquery, hforced, Except.ok.injEq, if_neg Bool.false_ne_true] at hq
          subst hq
          exact Or.inl halways
    · rintro ⟨_, _, q, ⟨rfl, rfl⟩, hquery, halways⟩
      simp only [hquery]
      refine ⟨_, rfl, ?_⟩
      split_ifs with hforced
      · rfl
      · exact halways.resolve_right hforced

/-- For every constant of every operator the planner and the scan agree if and only if the pattern
does not fail to parse and, where the operator ignores case or the pattern has embedded options or an
opaque escape, its tree alone leaves nothing to filter by. -/
theorem costAgrees_iff (s : Settings) (st : ScanState enc) (strategy : Strategy)
    (a : strategy.Argument enc) :
    CostAgrees s st strategy a ↔
      (∀ errmsg, treParseRegex enc (strategy.pattern a).1 ≠ .error (.syntaxError errmsg)) ∧
      ∀ root force, treParseRegex enc (strategy.pattern a).1 = .ok (root, force) →
        (strategy.ignoresCase || force) = true →
          ∀ q, regexExtractQuery s root (strategy.pattern a).2 = .ok q → q.alwaysTrue = true := by
  rw [CostAgrees, amcostestimate_unfilterable_iff, amrescan_alwaysTrue_iff,
    Strategy.query_alwaysTrue_iff]
  constructor
  · intro hagree
    constructor
    · intro errmsg herror
      obtain ⟨root, force, q, hparse, -⟩ := hagree.mpr (Or.inl ⟨errmsg, herror⟩)
      rw [herror] at hparse
      cases hparse
    · intro root force hparse hforced q hquery
      obtain ⟨root', force', q', hparse', hquery', halways⟩ :=
        hagree.mpr (Or.inr ⟨root, force, q, hparse, hquery, Or.inr hforced⟩)
      rw [hparse, Except.ok.injEq, Prod.mk.injEq] at hparse'
      obtain ⟨rfl, rfl⟩ := hparse'
      rw [hquery, Except.ok.injEq] at hquery'
      rwa [hquery']
  · rintro ⟨hparses, hforces⟩
    constructor
    · rintro ⟨root, force, q, hparse, hquery, halways⟩
      exact Or.inr ⟨root, force, q, hparse, hquery, Or.inl halways⟩
    · rintro (⟨errmsg, herror⟩ | ⟨root, force, q, hparse, hquery, halways | hforced⟩)
      · exact absurd herror (hparses errmsg)
      · exact ⟨root, force, q, hparse, hquery, halways⟩
      · exact ⟨root, force, q, hparse, hquery, hforces root force hparse hforced q hquery⟩

end

/-- For `ILIKE '%git%'`, for the unbalanced `~ 'git('` and for `~ 'git(?i)'` the scan returns all
rows, which the estimate does not know. -/
theorem not_costAgrees :
    ¬ CostAgrees ⟨4096, 4⟩ ScanState.begun .ilike likeGit ∧
      ¬ CostAgrees ⟨4096, 4⟩ ScanState.begun .regex
        (⟨[103, 105, 116, 40], latin1_valid _, by decide⟩ : TextDatum latin1) ∧
      ¬ CostAgrees ⟨4096, 4⟩ ScanState.begun .regex
        (⟨[103, 105, 116, 40, 63, 105, 41], latin1_valid _, by decide⟩ : TextDatum latin1) := by
  refine ⟨fun hagree => ?_, fun hagree => ?_, fun hagree => ?_⟩
  · have hwhole := hagree.mpr ⟨_, rfl, rfl⟩
    revert hwhole
    decide
  · have hwhole := hagree.mpr ⟨_, rfl, rfl⟩
    revert hwhole
    decide
  · have hwhole := hagree.mpr ⟨_, rfl, rfl⟩
    revert hwhole
    decide

end PgTre
