import PgTre.Query.Uleven

/-!
# Filters for approximate patterns

`src/query/tiling.c` builds the filter for a budget of `k > 0` edits. Long patterns are
cut into `k + 1` exact pieces; otherwise the trigrams of the literal runs, the spine, are
grouped into `k + 1` tiles and every one is widened to its edit neighbourhood. Integer
arithmetic on the budget is that of `int32`, which PostgreSQL builds wrap around.
-/

namespace PgTre

open Strings

/-- The value an `int32` holds after a computation with result `x`. -/
def wrap32 (x : ℤ) : ℤ := Int.bmod x (2 ^ 32)

/-- A result in the range of `int32` is kept. -/
theorem wrap32_eq_self {x : ℤ} (hlow : -2 ^ 31 ≤ x) (hhigh : x < 2 ^ 31) : wrap32 x = x := by
  unfold wrap32
  rw [Int.bmod_eq_emod]
  split_ifs <;> omega

/-- `SpineEntry`. -/
structure SpineEntry where
  trigram : Trigram
  patternOffset : ℕ

/-- `linearize_literals`: the literals of the pattern in order, with a separator (`-1` in
the source, `none` here) for every node the spine cannot see through. A result that does
not fit the buffer is `none`. Code points are never negative, so a literal is always
written. -/
def linearizeLiterals : RegexAst → ℕ → Option (List (Option CodePoint))
  | .literal c, cap => if cap = 0 then none else some [some c]
  | .concat l r, cap => do
      let left ← linearizeLiterals l cap
      let right ← linearizeLiterals r (cap - left.length)
      return left ++ right
  | .anchor _, _ => some []
  | _, cap => if cap = 0 then none else some [none]

/-- The size of the buffers `buf` and `spine`. -/
def spineCap : ℕ := 1024

/-- The loop of `extract_spine_from_ast`: the trigrams that straddle no separator. -/
def spineEntries (offset : ℕ) : List (Option CodePoint) → List SpineEntry
  | some a :: some b :: some c :: l =>
      ⟨(a, b, c), offset⟩ :: spineEntries (offset + 1) (some b :: some c :: l)
  | _ :: l => spineEntries (offset + 1) l
  | [] => []

/-- `extract_spine_from_ast`. -/
def extractSpineFromAst (ast : RegexAst) (maxOut : ℕ) : Option (List SpineEntry) := do
  let buf ← linearizeLiterals ast spineCap
  let entries := spineEntries 0 buf
  if maxOut < entries.length then none else some entries

/-! ## Tiles of trigram neighbourhoods -/

/-- The size of the buffer `expanded`. -/
def expandedCap : ℕ := 4096

/-- The two passes of `pg_tre_tile_spine` over one tile for a positive edit budget: the
alternatives of its trigrams, unless an expansion overflows or the fan-out limit is passed. -/
def tileAlts (s : Settings) (k tileK : ℤ) :
    List SpineEntry → List TrigramDisjunct → Option (List TrigramDisjunct)
  | [], alts => some alts
  | e :: rest, alts =>
      match ulevenExpandCp e.trigram tileK expandedCap with
      | none => none
      | some tris =>
          if s.maxExtractionFanout < alts.length + tris.length then none
          else tileAlts s k tileK rest (alts ++ tris.map (fun t =>
            { trigramHash := hashTrigramCp t
              minOffset := if k < e.patternOffset then e.patternOffset - k else 0
              maxOffset := wrap32 (e.patternOffset + k) }))

/-- One tile of `pg_tre_tile_spine`; without an edit budget its trigrams stand as they are. -/
def tileConjunct (s : Settings) (k tileK : ℤ) (tile : List SpineEntry) : Option TrigramConjunct :=
  if 0 < tileK then
    (tileAlts s k tileK tile []).map (fun alts => ⟨alts⟩)
  else
    some ⟨tile.map (fun e =>
      { trigramHash := hashTrigramCp e.trigram
        minOffset := e.patternOffset
        maxOffset := e.patternOffset })⟩

/-- The loop of `pg_tre_tile_spine` over the tiles, from tile `t` on. `Except.error` carries
the tiles written before one failed. -/
def tileLoop (s : Settings) (k tileK : ℤ) (spine : List SpineEntry) (tileSize : ℕ) :
    ℕ → ℕ → List TrigramConjunct → Except (List TrigramConjunct) (List TrigramConjunct)
  | 0, _, out => .ok out
  | remaining + 1, t, out =>
      match tileConjunct s k tileK ((spine.drop (t * tileSize)).take tileSize) with
      | none => .error (out ++ List.replicate (remaining + 1) ⟨[]⟩)
      | some c => tileLoop s k tileK spine tileSize remaining (t + 1) (out ++ [c])

/-- Some trigram of the spine can only be listed exactly: the encoding is multibyte or the
trigram is not ASCII. -/
def anyExactOnly (s : Settings) (spine : List SpineEntry) : Bool :=
  decide (1 < s.dbMaxCharLen) ||
    spine.any (fun e => decide (0x7F < e.trigram.1) || decide (0x7F < e.trigram.2.1) ||
      decide (0x7F < e.trigram.2.2))

/-- `pg_tre_tile_spine`: the flag it returns and the query it leaves in `out`. A negative
number of tiles is an allocation request out of range. -/
def tileSpine (s : Settings) (spine : List SpineEntry) (k : ℤ) (out : TrigramQuery) :
    Except PgError (Bool × TrigramQuery) :=
  let giveUp := { out with alwaysTrue := true, mode := .cnf }
  let tileK := if 2 < k then 2 else k
  if spine.length = 0 ∨ k < 0 then .ok (false, giveUp)
  else if anyExactOnly s spine = true ∧ (spine.length : ℤ) ≤ wrap32 (3 * k) then .ok (false, giveUp)
  else
    let nTiles := wrap32 (k + 1)
    if (spine.length : ℤ) < nTiles then .ok (false, giveUp)
    else if nTiles < 0 then .error ⟨"invalid memory alloc request size"⟩
    else
      let tileSize := (spine.length + nTiles.toNat - 1) / nTiles.toNat
      let header := { out with mode := .dnf, alwaysTrue := false, globalMaxCost := k, minMatchLen := 3 }
      match tileLoop s k tileK spine tileSize nTiles.toNat 0 [] with
      | .error tiles => .ok
        (false, { header with conjuncts := tiles, alwaysTrue := true, mode := .cnf })
      | .ok tiles => .ok (true, { header with conjuncts := tiles })

/-! ## Exact pieces -/

/-- The literal runs of at least three characters between separators, as pairs of start and
length; `start` and `len` describe the run being read. -/
def literalRuns (start len : ℕ) : List (Option CodePoint) → List (ℕ × ℕ)
  | [] => if 3 ≤ len then [(start, len)] else []
  | some _ :: l => literalRuns start (len + 1) l
  | none :: l => (if 3 ≤ len then [(start, len)] else []) ++ literalRuns (start + len + 1) 0 l

/-- The size of the arrays `run_start`, `run_len` and `pieces`. -/
def runsCap : ℕ := 512

/-- The inner loop that picks the run whose pieces would stay longest. The lengths
`run_len / (pieces + 1)` are compared as fractions: quotients of numbers below 1024 that
differ stay different in a `double`. `best` holds the index and the fraction chosen so far. -/
def pickRun : ℕ → List ((ℕ × ℕ) × ℕ) → Option (ℕ × ℕ × ℕ) → Option ℕ
  | _, [], best => best.map Prod.fst
  | r, ((_, len), parts) :: rest, best =>
      let longer := match best with
        | none => true
        | some (_, bestLen, bestParts) => decide (bestLen * (parts + 1) < len * bestParts)
      if 3 * (parts + 1) ≤ len ∧ longer = true then pickRun (r + 1) rest (some (r, len, parts + 1))
      else pickRun (r + 1) rest best

/-- The loop that hands out the remaining pieces one by one. -/
def handOut (runs : List (ℕ × ℕ)) : ℕ → List ℕ → Option (List ℕ)
  | 0, pieces => some pieces
  | want + 1, pieces =>
      match pickRun 0 (runs.zip pieces) none with
      | none => none
      | some best => handOut runs want (pieces.set best (pieces.getD best 0 + 1))

/-- The even split of one run: the segments `[a, b)` of the buffer. -/
def runSegments (run : ℕ × ℕ) (pieces : ℕ) : List (ℕ × ℕ) :=
  (List.range pieces).map
    (fun p => (run.1 + run.2 * p / pieces, run.1 + run.2 * (p + 1) / pieces))

/-- The conjunct of one piece: the trigrams of the code points `buf[a .. b)`. -/
def pieceConjunct (buf : List (Option CodePoint)) (seg : ℕ × ℕ) : TrigramConjunct where
  alts := (windows (((buf.drop seg.1).take (seg.2 - seg.1)).map (·.getD 0))).map
    (fun t => { trigramHash := hashTrigramCp t, minOffset := 0, maxOffset := int32Max })

/-- The segments `tile_pieces` cuts the literal runs into. -/
def pieceSegments (buf : List (Option CodePoint)) (want : ℕ) : Option (List (ℕ × ℕ)) :=
  let runs := literalRuns 0 0 buf
  if runsCap < runs.length then none
  else
    match handOut runs want (List.replicate runs.length 0) with
    | none => none
    | some pieces => some ((runs.zip pieces).flatMap (fun rp => runSegments rp.1 rp.2))

/-- `tile_pieces`: `none` when it returns false, which leaves `out` untouched. -/
def tilePieces (ast : RegexAst) (k : ℤ) (out : TrigramQuery) : Option TrigramQuery :=
  if k < 1 ∨ 64 < k then none
  else
    match linearizeLiterals ast spineCap with
    | none => none
    | some buf =>
        match pieceSegments buf (k + 1).toNat with
        | none => none
        | some segs => some { out with
            conjuncts := segs.map (pieceConjunct buf)
            mode := .pieces
            alwaysTrue := false
            globalMaxCost := k
            minMatchLen := 3 }

/-- `pg_tre_tile_query`. -/
def tileQuery (s : Settings) (ast : RegexAst) (k : ℤ) (out : TrigramQuery) :
    Except PgError (Bool × TrigramQuery) :=
  match tilePieces ast k out with
  | some q => .ok (true, q)
  | none =>
      match extractSpineFromAst ast spineCap with
      | none => .ok (false, { out with alwaysTrue := true, mode := .cnf })
      | some spine => tileSpine s spine k out

end PgTre
