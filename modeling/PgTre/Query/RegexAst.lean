import PgTre.Query.Hash
import PgTre.Strings.Edits

/-!
# Regular expressions and trigram queries

The data of `include/pg_tre/regex_ast.h`: the syntax tree the parser produces and the
trigram query the extraction derives from it. Their meanings are stated here once. A
tree matches a stretch of text between what stands before and after it, an `APPROX`
node matching whatever lies within its budget of what its child matches, and a query
is satisfied by a text through the hashes of the text's trigrams.
-/

namespace PgTre

open Strings

/-- `RegexAnchor`. -/
inductive RegexAnchor
  | start
  | finish
  deriving DecidableEq

/-- `RegexClass`: a sorted, disjoint list of inclusive ranges. -/
structure RegexClass where
  /-- The ranges `(lo, hi)`. -/
  ranges : List (CodePoint × CodePoint)
  /-- No range is empty. -/
  valid : ∀ r ∈ ranges, r.1 ≤ r.2
  /-- The ranges ascend without overlap. -/
  sorted : ranges.Pairwise (fun r s => r.2 < s.1)

/-- Membership of a code point in one of the ranges. -/
def RegexClass.contains (cs : RegexClass) (c : CodePoint) : Bool :=
  cs.ranges.any (fun r => decide (r.1 ≤ c ∧ c ≤ r.2))

/-- `RegexAst`. The parser builds no node with a missing child, and a repetition without
an upper bound (`max_rep = -1`) has `maxRep = none`. -/
inductive RegexAst
  | literal (codepoint : CodePoint)
  | any
  | charclass (negated : Bool) (cs : RegexClass)
  | anchor (which : RegexAnchor)
  | concat (left right : RegexAst)
  | alt (left right : RegexAst)
  | rep (child : RegexAst) (minRep : ℕ) (maxRep : Option ℕ)
  | approx (child : RegexAst) (k : ℕ)

/-- `n` matches of `M` in a row, each seeing what stands before and after it. -/
def Iterated (M : List CodePoint → List CodePoint → List CodePoint → Prop) :
    ℕ → List CodePoint → List CodePoint → List CodePoint → Prop
  | 0, _, w, _ => w = []
  | n + 1, pre, w, post =>
      ∃ u v, w = u ++ v ∧ M pre u (v ++ post) ∧ Iterated M n (pre ++ u) v post

/-- `ast.Matches pre w post`: the tree matches `w` where `pre` stands before it and `post`
after it. -/
def RegexAst.Matches : RegexAst → List CodePoint → List CodePoint → List CodePoint → Prop
  | .literal c, _, w, _ => w = [c]
  | .any, _, w, _ => ∃ c, w = [c]
  | .charclass negated cs, _, w, _ => ∃ c, w = [c] ∧ cs.contains c ≠ negated
  | .anchor .start, pre, w, _ => w = [] ∧ pre = []
  | .anchor .finish, _, w, post => w = [] ∧ post = []
  | .concat l r, pre, w, post =>
      ∃ u v, w = u ++ v ∧ l.Matches pre u (v ++ post) ∧ r.Matches (pre ++ u) v post
  | .alt l r, pre, w, post => l.Matches pre w post ∨ r.Matches pre w post
  | .rep child m n, pre, w, post =>
      ∃ count, m ≤ count ∧ (∀ bound, n = some bound → count ≤ bound) ∧
        Iterated child.Matches count pre w post
  | .approx child k, pre, w, post => ∃ v, child.Matches pre v post ∧ Edits k v w

/-- The text contains a substring the tree matches. -/
def RegexAst.OccursIn (ast : RegexAst) (t : List CodePoint) : Prop :=
  ∃ pre w post, t = pre ++ (w ++ post) ∧ ast.Matches pre w post

/-- The text contains a substring within `k` edits of some string the tree matches. -/
def RegexAst.OccursWithin (ast : RegexAst) (k : ℕ) (t : List CodePoint) : Prop :=
  ∃ pre s post, t = pre ++ (s ++ post) ∧ ∃ before w after, ast.Matches before w after ∧ Edits k w s

/-- Literals appended to a tree one by one, as the parser nests a concatenation. -/
def RegexAst.followedBy (ast : RegexAst) (cs : List CodePoint) : RegexAst :=
  cs.foldl (fun ast c => .concat ast (.literal c)) ast

/-- Appended literals match themselves. -/
theorem RegexAst.followedBy_matches {ast : RegexAst} {pre u cs post : List CodePoint}
    (h : ast.Matches pre u (cs ++ post)) : (ast.followedBy cs).Matches pre (u ++ cs) post := by
  induction cs generalizing ast u with
  | nil => simpa [followedBy] using h
  | cons c cs ih =>
    have hstep : (RegexAst.concat ast (.literal c)).Matches pre (u ++ [c]) (cs ++ post) :=
      ⟨u, [c], rfl, by simpa using h, rfl⟩
    have hrest := ih hstep
    rw [List.append_assoc, List.singleton_append] at hrest
    exact hrest

/-- The tree has no `APPROX` node. -/
def RegexAst.approxFree : RegexAst → Bool
  | .concat l r | .alt l r => l.approxFree && r.approxFree
  | .rep child _ _ => child.approxFree
  | .approx _ _ => false
  | _ => true

/-! ## Trigram queries -/

/-- `INT32_MAX`. -/
def int32Max : ℤ := 2 ^ 31 - 1

/-- `TrigramDisjunct`. -/
structure TrigramDisjunct where
  trigramHash : UInt64
  minOffset : ℤ
  maxOffset : ℤ
  deriving DecidableEq

/-- `TrigramConjunct`. -/
structure TrigramConjunct where
  alts : List TrigramDisjunct
  deriving DecidableEq

/-- `TrigramQueryMode`. -/
inductive TrigramQueryMode
  | cnf
  | dnf
  | pieces
  deriving DecidableEq

/-- `TrigramQuery`. The range `[surf_lo, surf_hi]` is present exactly when
`has_surf_range` is set. -/
structure TrigramQuery where
  conjuncts : List TrigramConjunct
  minMatchLen : ℤ
  globalMaxCost : ℤ
  alwaysTrue : Bool
  mode : TrigramQueryMode
  surfRange : Option (ℕ × ℕ)
  deriving DecidableEq

/-- The query after `memset(out, 0, sizeof(*out))`. -/
def TrigramQuery.zero : TrigramQuery where
  conjuncts := []
  minMatchLen := 0
  globalMaxCost := 0
  alwaysTrue := false
  mode := .cnf
  surfRange := none

/-- A trigram with this hash occurs in the text. -/
def HasTrigram (t : List CodePoint) (h : UInt64) : Prop :=
  ∃ w ∈ windows t, hashTrigramCp w = h

instance (t : List CodePoint) (h : UInt64) : Decidable (HasTrigram t h) :=
  inferInstanceAs (Decidable (∃ w ∈ windows t, hashTrigramCp w = h))

/-- What the conjuncts of a query ask of a text: an alternative of every conjunct (CNF), any
listed alternative (DNF), or all trigrams of some piece (PIECES). -/
def TrigramQueryMode.Asks (conjuncts : List TrigramConjunct) (t : List CodePoint) :
    TrigramQueryMode → Prop
  | .cnf => ∀ c ∈ conjuncts, ∃ a ∈ c.alts, HasTrigram t a.trigramHash
  | .dnf => ∃ c ∈ conjuncts, ∃ a ∈ c.alts, HasTrigram t a.trigramHash
  | .pieces => ∃ c ∈ conjuncts, ∀ a ∈ c.alts, HasTrigram t a.trigramHash

instance (conjuncts : List TrigramConjunct) (t : List CodePoint) (mode : TrigramQueryMode) :
    Decidable (mode.Asks conjuncts t) :=
  match mode with
  | .cnf => inferInstanceAs (Decidable (∀ c ∈ conjuncts, ∃ a ∈ c.alts, HasTrigram t a.trigramHash))
  | .dnf => inferInstanceAs (Decidable (∃ c ∈ conjuncts, ∃ a ∈ c.alts, HasTrigram t a.trigramHash))
  | .pieces => inferInstanceAs (Decidable (∃ c ∈ conjuncts, ∀ a ∈ c.alts, HasTrigram t a.trigramHash))

/-- The text satisfies the query. -/
def TrigramQuery.SatisfiedBy (q : TrigramQuery) (t : List CodePoint) : Prop :=
  q.alwaysTrue = true ∨ q.mode.Asks q.conjuncts t

instance (q : TrigramQuery) (t : List CodePoint) : Decidable (q.SatisfiedBy t) :=
  inferInstanceAs (Decidable (q.alwaysTrue = true ∨ q.mode.Asks q.conjuncts t))

/-- An error raised by `ereport(ERROR)` or `elog(ERROR)`, with its message. -/
structure PgError where
  message : String
  deriving DecidableEq

/-- The settings the extraction reads: the fan-out limit
`pg_tre.max_extraction_fanout` and the longest character of the database encoding. -/
structure Settings where
  maxExtractionFanout : ℕ
  dbMaxCharLen : ℕ

end PgTre
