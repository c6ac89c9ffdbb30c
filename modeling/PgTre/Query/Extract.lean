import PgTre.Query.Tiling

/-!
# Trigram extraction

`src/query/extract.c` turns a syntax tree into a trigram query. For an exact pattern it
walks the tree once, keeping the current run of code-point classes and emitting the run's
trigram windows into an accumulator whenever the run breaks. A pattern that is one
unbroken run with classes is enumerated into exact pieces instead.
-/

namespace PgTre

open Strings

/-! ## The accumulator -/

/-- `TrigramAccum`: the required trigrams, whether the fan-out limit was passed, and the
required OR-groups. -/
structure TrigramAccum where
  tris : List Trigram
  overflowed : Bool
  ors : List (List Trigram)

/-- `accum_init`. -/
def TrigramAccum.init : TrigramAccum := ⟨[], false, []⟩

/-- `CLASS_EXPAND_MAX`. -/
def classExpandMax : ℕ := 8

/-- `OR_ALTS_MAX`. -/
def orAltsMax : ℕ := 64

/-- `OR_GROUPS_MAX`. -/
def orGroupsMax : ℕ := 64

/-- `REP_INLINE_MAX`. -/
def repInlineMax : ℕ := 4

/-- `RUN_PIECES_MAX`. -/
def runPiecesMax : ℕ := 64

/-- `accum_add_or`. -/
def accumAddOr (a : TrigramAccum) (tris : List Trigram) : TrigramAccum :=
  if a.overflowed = true ∨ orGroupsMax ≤ a.ors.length then a
  else { a with ors := a.ors ++ [tris] }

/-- `accum_add`. -/
def accumAdd (fanout : ℕ) (a : TrigramAccum) (t : Trigram) : TrigramAccum :=
  if a.overflowed = true then a
  else if t ∈ a.tris then a
  else if fanout ≤ a.tris.length then { a with overflowed := true }
  else { a with tris := a.tris ++ [t] }

/-! ## The linearizer -/

/-- `RunPos`: the code points one position of a run may hold. -/
abbrev RunPos := List CodePoint

/-- `LinCtx`: the current run, the accumulator, and the number of flushes so far. -/
structure LinCtx where
  run : List RunPos
  acc : TrigramAccum
  flushes : ℕ

/-- `run_append_cp`. -/
def runAppendCp (lc : LinCtx) (cp : CodePoint) : LinCtx :=
  { lc with run := lc.run ++ [[cp]] }

/-- The first loop of `run_append_class`: the number of members, unless it passes
`CLASS_EXPAND_MAX`. -/
def classTotal : ℕ → List (CodePoint × CodePoint) → Option ℕ
  | total, [] => some total
  | total, r :: rest =>
      let total := total + (r.2 + 1 - r.1)
      if classExpandMax < total then none else classTotal total rest

/-- The second loop of `run_append_class`: the members in ascending order. -/
def classMembers (cs : RegexClass) : RunPos :=
  cs.ranges.flatMap (fun r => List.range' r.1 (r.2 + 1 - r.1))

/-- The position a class contributes, when `run_append_class` returns true. -/
def classPos (negated : Bool) (cs : RegexClass) : Option RunPos :=
  if negated = true then none
  else
    match classTotal 0 cs.ranges with
    | none => none
    | some total => if total < 1 then none else some (classMembers cs)

/-- The combinations of three positions, in the order of the nested loops of `run_emit`. -/
def windowAlts (a b c : RunPos) : List Trigram :=
  a.flatMap (fun x => b.flatMap (fun y => c.map (fun z => (x, y, z))))

/-- One window of `run_emit`: a required trigram when all three positions are single
characters, an OR-group of at most `OR_ALTS_MAX` combinations otherwise. -/
def emitWindow (fanout : ℕ) (acc : TrigramAccum) (w : RunPos × RunPos × RunPos) : TrigramAccum :=
  match w with
  | ([x], [y], [z]) => accumAdd fanout acc (x, y, z)
  | (a, b, c) =>
      if a.length * b.length * c.length ≤ orAltsMax then accumAddOr acc (windowAlts a b c) else acc

/-- `run_emit`. -/
def runEmit (fanout : ℕ) (run : List RunPos) (acc : TrigramAccum) : TrigramAccum :=
  (windows run).foldl (emitWindow fanout) acc

/-- `run_flush`. -/
def runFlush (fanout : ℕ) (lc : LinCtx) : LinCtx where
  run := []
  acc := runEmit fanout lc.run lc.acc
  flushes := lc.flushes + 1

/-- `rep_child_is_fixed_literal`. -/
def repChildIsFixedLiteral : RegexAst → Bool
  | .literal _ => true
  | .concat l r => repChildIsFixedLiteral l && repChildIsFixedLiteral r
  | _ => false

/-- The number `k` of copies of a repetition's child the linearizer inlines. -/
def repCopies (child : RegexAst) (m : ℕ) (n : Option ℕ) : ℕ :=
  if n = some m ∧ repChildIsFixedLiteral child = true then
    if repInlineMax < m then repInlineMax else m
  else if 2 < m then 2 else m

/-- `lin_append_node`. -/
def linAppendNode (fanout : ℕ) : RegexAst → LinCtx → LinCtx
  | .literal c, lc => if lc.acc.overflowed = true then lc else runAppendCp lc c
  | .any, lc => if lc.acc.overflowed = true then lc else runFlush fanout lc
  | .charclass negated cs, lc =>
      if lc.acc.overflowed = true then lc
      else
        match classPos negated cs with
        | some p => { lc with run := lc.run ++ [p] }
        | none => runFlush fanout lc
  | .anchor _, lc => lc
  | .concat l r, lc =>
      if lc.acc.overflowed = true then lc
      else linAppendNode fanout r (linAppendNode fanout l lc)
  | .alt l r, lc =>
      if lc.acc.overflowed = true then lc
      else
        let branch : LinCtx := { run := [], acc := .init, flushes := lc.flushes }
        let lca := linAppendNode fanout l branch
        let lcb := linAppendNode fanout r branch
        let a := runEmit fanout lca.run lca.acc
        let b := runEmit fanout lcb.run lcb.acc
        let lc := runFlush fanout lc
        -- Intersection: the trigrams of `a` that `b` requires as well.
        { lc with acc := (a.tris.filter (· ∈ b.tris)).foldl (accumAdd fanout) lc.acc }
  | .rep child m n, lc =>
      if lc.acc.overflowed = true then lc
      else if m = 0 then runFlush fanout lc
      else
        let k := repCopies child m n
        let lc' := (linAppendNode fanout child)^[k] lc
        if n ≠ some m ∧ k = 1 ∧ lc'.flushes = lc.flushes ∧ lc'.run.length ≤ lc.run.length + 1 then
          runFlush fanout lc'
        else lc'
  | .approx child _, lc =>
      if lc.acc.overflowed = true then lc else linAppendNode fanout child lc

/-! ## Exact pieces of one run -/

/-- The number of strings the run expands to, unless it passes `RUN_PIECES_MAX`. -/
def piecesProduct : ℕ → List RunPos → Option ℕ
  | prod, [] => some prod
  | prod, p :: run =>
      let prod := prod * p.length
      if runPiecesMax < prod then none else piecesProduct prod run

/-- The string the mixed-radix counter `digit` selects. -/
def chosenString (run : List RunPos) (digit : List ℕ) : List CodePoint :=
  List.zipWith (fun p d => p.getD d 0) run digit

/-- One increment of the mixed-radix counter, least significant digit first. -/
def nextDigits : List RunPos → List ℕ → List ℕ
  | p :: run, d :: digit => if d + 1 < p.length then (d + 1) :: digit else 0 :: nextDigits run digit
  | _, digit => digit

/-- The disjunct of a trigram without positional bounds. -/
def plainDisjunct (t : Trigram) : TrigramDisjunct where
  trigramHash := hashTrigramCp t
  minOffset := 0
  maxOffset := int32Max

/-- `try_build_run_pieces`. -/
def tryBuildRunPieces (run : List RunPos) (maxCost : ℤ) (out : TrigramQuery) : Option TrigramQuery :=
  if run.length < 3 then none
  else
    match piecesProduct 1 run with
    | none => none
    | some prod =>
        if run.any (fun p => decide (1 < p.length)) = false then none
        else some { out with
          globalMaxCost := maxCost
          minMatchLen := 3
          alwaysTrue := false
          mode := .pieces
          conjuncts := (List.range prod).map (fun p =>
            ⟨(windows (chosenString run ((nextDigits run)^[p] (List.replicate run.length 0)))).map
              plainDisjunct⟩) }

/-! ## Building the query -/

/-- `accum_to_query`. -/
def accumToQuery (a : TrigramAccum) (maxCost : ℤ) (out : TrigramQuery) : TrigramQuery :=
  let header := { out with globalMaxCost := maxCost, minMatchLen := 3, mode := .cnf }
  if a.overflowed = true ∨ a.tris.length + a.ors.length = 0 then
    { header with alwaysTrue := true, conjuncts := [] }
  else
    { header with
      alwaysTrue := false
      conjuncts := a.tris.map (fun t => ⟨[plainDisjunct t]⟩) ++
        a.ors.map (fun group => ⟨group.map plainDisjunct⟩) }

/-- The size of the stack of `extract_anchored_prefix_key`. -/
def prefixStackCap : ℕ := 64

/-- The state of the walk of `extract_anchored_prefix_key`: whether the start anchor was
seen and the literals collected so far, or the value it has returned. -/
inductive PrefixWalk
  | running (seenAnchor : Bool) (cps : List CodePoint)
  | stopped (key : Option ℕ)
  deriving DecidableEq

/-- What the walk does at a node that is not a concatenation. -/
def PrefixWalk.visitLeaf (w : PrefixWalk) (node : RegexAst) : PrefixWalk :=
  match w with
  | .stopped key => .stopped key
  | .running seenAnchor cps =>
      match node with
      | .anchor which =>
          if which = .start ∧ cps.length = 0 then .running true cps
          else if cps.length < 3 then .stopped none
          else .running seenAnchor cps
      | .literal c =>
          if seenAnchor = false then .stopped none
          else
            match cps with
            | [a, b] => .stopped (some (trigramKeyCp (a, b, c)))
            | _ => .running seenAnchor (cps ++ [c])
      | _ => .stopped none

/-- The number of nodes of a tree. -/
def RegexAst.size : RegexAst → ℕ
  | .concat l r | .alt l r => l.size + r.size + 1
  | .rep child _ _ | .approx child _ => child.size + 1
  | _ => 1

/-- The loop of `extract_anchored_prefix_key` for a number of iterations: the node at hand,
the stack of pending right operands with its top first, and the walk so far. A right operand
that finds the stack full is not pushed. -/
def prefixLoop : ℕ → Option RegexAst → List RegexAst → PrefixWalk → Option ℕ
  | 0, _, _, _ => none
  | _ + 1, _, _, .stopped key => key
  | _ + 1, none, [], _ => none
  | fuel + 1, none, node :: stack, w => prefixLoop fuel (some node) stack w
  | fuel + 1, some (.concat l r), stack, w =>
      if stack.length < prefixStackCap then prefixLoop fuel (some l) (r :: stack) w
      else prefixLoop fuel (some l) stack w
  | fuel + 1, some node, stack, w => prefixLoop fuel none stack (w.visitLeaf node)

/-- `extract_anchored_prefix_key`: the key `K` of the range `[K, K]` when it succeeds. Every
iteration finishes a node or takes one from the stack, which bounds their number. -/
def extractAnchoredPrefixKey (root : RegexAst) : Option ℕ :=
  prefixLoop (2 * root.size + 2) (some root) [] (.running false [])

/-- The SuRF range both exact paths record. -/
def recordSurfRange (root : RegexAst) (maxCost : ℤ) (q : TrigramQuery) : TrigramQuery :=
  if maxCost = 0 ∧ q.alwaysTrue = false then
    match extractAnchoredPrefixKey root with
    | some key => { q with surfRange := some (key, key) }
    | none => q
  else q

/-- The walk of `regex_extract_query` over the whole tree. -/
def linearize (fanout : ℕ) (root : RegexAst) : LinCtx :=
  linAppendNode fanout root { run := [], acc := .init, flushes := 0 }

/-- `regex_extract_query`. -/
def regexExtractQuery (s : Settings) (root : RegexAst) (maxCost : ℤ) : Except PgError TrigramQuery :=
  if 0 < maxCost then
    match tileQuery s root maxCost .zero with
    | .error e => .error e
    | .ok (true, q) => .ok q
    | .ok (false, q) => .ok { q with alwaysTrue := true, globalMaxCost := maxCost, mode := .cnf }
  else
    let lc := linearize s.maxExtractionFanout root
    let pieces :=
      if lc.flushes = 0 ∧ lc.acc.overflowed = false then tryBuildRunPieces lc.run maxCost .zero
      else none
    match pieces with
    | some q => .ok (recordSurfRange root maxCost q)
    | none =>
        let acc := runEmit s.maxExtractionFanout lc.run lc.acc
        .ok (recordSurfRange root maxCost { accumToQuery acc maxCost .zero with mode := .cnf })

end PgTre
