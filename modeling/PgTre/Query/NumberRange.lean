import PgTre.Query.TileSpine
import PgTre.Query.BracketReadings
import PgTre.Query.Extract

/-!
# The range of the numbers in a pattern

The counts of `parse_integer`, the products and sums of `src/query/tiling.c` and the number of tiles
are `int32` computations. The lists here hold their results before the wrap-around, in the order of
the source. A count of `2^31` or more leaves the range, and so do the number of tiles for the largest
budget and the bound `3 * k` for a budget above a third of it. For the largest budget the number of
tiles wraps to a negative one, which the comparison behind it lets pass.
-/

namespace PgTre

/-- The result of a computation is in the range of `int32`. -/
def FitsInt32 (x : ℤ) : Prop := -2 ^ 31 ≤ x ∧ x ≤ int32Max

instance (x : ℤ) : Decidable (FitsInt32 x) := inferInstanceAs (Decidable (_ ∧ _))

/-- Then it does not wrap around. -/
theorem FitsInt32.wrap32 {x : ℤ} (h : FitsInt32 x) : PgTre.wrap32 x = x := by
  have hhigh : x ≤ 2 ^ 31 - 1 := h.2
  exact wrap32_eq_self h.1 (by omega)

/-- A small natural number is in the range. -/
theorem fitsInt32_natCast {n : ℕ} (h : n < 2 ^ 31) : FitsInt32 n := by
  have hmax : int32Max = 2 ^ 31 - 1 := rfl
  unfold FitsInt32
  omega

/-! ## Counts -/

/-- The results in the loop of `parse_integer`. -/
def parseIntegerInts : ℤ → List UInt8 → List ℤ
  | _, [] => []
  | val, b :: rest =>
      if isDigit b.toNat then
        val * 10 :: (wrap32 (val * 10) + (b.toNat - 48)) ::
          parseIntegerInts (wrap32 (val * 10 + (b.toNat - 48))) rest
      else []

/-- The number that the digits in front of the bytes go on with, without a limit. -/
def countValue : ℕ → List UInt8 → ℕ
  | val, [] => val
  | val, b :: rest => if isDigit b.toNat then countValue (val * 10 + (b.toNat - 48)) rest else val

/-- Where a call of the tokenizer calls `parse_integer`, if it does. -/
def integerStart (enc : Encoding) (ts : TokenizerState) : Option (List UInt8) :=
  match ts.pending, enc.nextChar ts.rest with
  | none, .char c rest =>
      if ts.mode ≠ .brace ∧ ts.mode ≠ .braceApprox then none
      else if c = cp '}' ∨ c = cp ',' then none
      else if c = cp '~' ∧ ts.mode = .brace then some rest
      else if isDigit c then some ts.rest
      else none
  | _, _ => none

/-- Where the loop of `tre_parse_regex` reads numbers. -/
def parseLoopIntegers (enc : Encoding) : ℕ → TokenizerState → ParserState → List (List UInt8)
  | 0, _, _ => []
  | fuel + 1, ts, ps =>
      (integerStart enc ts).toList ++
        match tokenizeNext enc .index ts with
        | .token t ts' =>
            match ps.shift t with
            | .error _ => []
            | .ok ps' => parseLoopIntegers enc fuel ts' ps'
        | _ => []

/-- Where `tre_parse_regex` reads numbers in a pattern. -/
def parseIntegers (enc : Encoding) (pattern : List UInt8) : List (List UInt8) :=
  parseLoopIntegers enc (2 * pattern.length + 1) (initTokenizer pattern) .start

/-- The counts that a pattern writes out. -/
def patternCounts (enc : Encoding) (pattern : List UInt8) : List ℕ :=
  (parseIntegers enc pattern).map (countValue 0)

/-- The `int32` results while a pattern is tokenized. -/
def tokenizeInts (enc : Encoding) (pattern : List UInt8) : List ℤ :=
  (parseIntegers enc pattern).flatMap (parseIntegerInts 0)

/-- Digits only make a number larger. -/
theorem le_countValue (val : ℕ) (bytes : List UInt8) : val ≤ countValue val bytes := by
  fun_induction countValue val bytes with
  | case1 => exact le_rfl
  | case2 val b rest hdigit ih =>
    have hstep : val ≤ val * 10 + (b.toNat - 48) := by omega
    exact hstep.trans ih
  | case3 => exact le_rfl

/-- The loop stays in the range as long as the number it has read does. -/
theorem parseIntegerInts_fit_iff {val : ℕ} {bytes : List UInt8} (hval : val < 2 ^ 31) :
    (∀ x ∈ parseIntegerInts val bytes, FitsInt32 x) ↔ countValue val bytes < 2 ^ 31 := by
  induction bytes generalizing val with
  | nil => simpa [parseIntegerInts, countValue] using hval
  | cons b rest ih =>
    unfold parseIntegerInts countValue
    by_cases hdigit : isDigit b.toNat = true
    swap
    · simpa [if_neg hdigit] using hval
    rw [if_pos hdigit, if_pos hdigit, List.forall_mem_cons, List.forall_mem_cons]
    have hbyte : 48 ≤ b.toNat := by
      simp only [isDigit, decide_eq_true_eq] at hdigit
      exact hdigit.1
    have hcast : (val : ℤ) * 10 + (b.toNat - 48) = ((val * 10 + (b.toNat - 48) : ℕ) : ℤ) := by
      omega
    rcases Nat.lt_or_ge (val * 10 + (b.toNat - 48)) (2 ^ 31) with hlt | hge
    · have hproduct : FitsInt32 ((val : ℤ) * 10) := by
        exact_mod_cast @fitsInt32_natCast (val * 10) (by omega)
      have hsum := fitsInt32_natCast hlt
      rw [hproduct.wrap32, hcast, hsum.wrap32, ih hlt]
      exact ⟨fun h => h.2.2, fun h => ⟨hproduct, hsum, h⟩⟩
    · refine iff_of_false ?_ (not_lt.mpr (hge.trans (le_countValue _ _)))
      rintro ⟨hproduct, hsum, -⟩
      rw [hproduct.wrap32, hcast] at hsum
      have hhigh : ((val * 10 + (b.toNat - 48) : ℕ) : ℤ) ≤ 2 ^ 31 - 1 := hsum.2
      omega

/-- A number in the range is read as it is written. -/
theorem parseIntegerLoop_eq_countValue {enc : Encoding} {val : ℕ} {val' : ℤ} {gotDigit : Bool}
    {bytes rest : List UInt8} (h : parseIntegerLoop enc val gotDigit bytes = .ok (val', rest))
    (hcount : countValue val bytes < 2 ^ 31) : val' = countValue val bytes := by
  induction bytes generalizing val gotDigit with
  | nil =>
    cases gotDigit with
    | false => cases h
    | true => exact ((Prod.mk.inj (Except.ok.inj h)).1).symm
  | cons b bytes ih =>
    unfold parseIntegerLoop at h
    unfold countValue at hcount ⊢
    by_cases hdigit : isDigit b.toNat = true
    · rw [if_pos hdigit] at h hcount ⊢
      have hbyte : 48 ≤ b.toNat := by
        simp only [isDigit, decide_eq_true_eq] at hdigit
        exact hdigit.1
      have hcast : (val : ℤ) * 10 + (b.toNat - 48) = ((val * 10 + (b.toNat - 48) : ℕ) : ℤ) := by
        omega
      have hsum := fitsInt32_natCast ((le_countValue _ bytes).trans_lt hcount)
      rw [hcast, hsum.wrap32] at h
      exact ih h hcount
    · rw [if_neg hdigit] at h ⊢
      cases hnext : enc.nextChar (b :: bytes) with
      | invalid => simp [hnext] at h
      | ended | char c r =>
        cases gotDigit with
        | false => simp [hnext] at h
        | true =>
          simp only [hnext, if_true, Except.ok.injEq, Prod.mk.injEq] at h
          exact h.1.symm

/-- Where a number in the range is read, the token carries it. -/
theorem tokenizeNext_countValue {enc : Encoding} {ts : TokenizerState} {bytes rest : List UInt8}
    {val : ℤ} (hstart : integerStart enc ts = some bytes)
    (hint : parseInteger enc bytes = .ok (val, rest)) (hcount : countValue 0 bytes < 2 ^ 31) :
    ∃ t ts', tokenizeNext enc .index ts = .token t ts' ∧
      (t = .int (countValue 0 bytes) ∨ t = .approx (countValue 0 bytes)) := by
  obtain rfl := parseIntegerLoop_eq_countValue hint hcount
  unfold integerStart at hstart
  split at hstart
  case h_2 => cases hstart
  case h_1 c r hpending hnext =>
    split_ifs at hstart with hmode hclose htilde hdigit
    all_goals
      rw [not_or] at hclose
      obtain rfl := Option.some.inj hstart
      have hbrace : tokenizeNext enc .index ts = braceToken enc ts c r := by
        cases hcases : ts.mode <;> simp_all [tokenizeNext]
    · refine ⟨.approx _, { ts with rest := rest, mode := .braceApprox }, ?_, Or.inr rfl⟩
      rw [hbrace, braceToken, if_neg hclose.1, if_neg hclose.2, if_pos htilde]
      simp [hint]
    · refine ⟨.int _, { ts with rest := rest }, ?_, Or.inl rfl⟩
      rw [hbrace, braceToken, if_neg hclose.1, if_neg hclose.2, if_neg htilde, if_pos hdigit]
      simp [hint]

/-- Tokenizing stays in the range exactly when every count does. -/
theorem tokenizeInts_fit_iff {enc : Encoding} {pattern : List UInt8} :
    (∀ x ∈ tokenizeInts enc pattern, FitsInt32 x) ↔
      ∀ n ∈ patternCounts enc pattern, n < 2 ^ 31 := by
  simp only [tokenizeInts, patternCounts, List.mem_flatMap, List.mem_map]
  constructor
  · rintro hfit n ⟨bytes, hbytes, rfl⟩
    refine (@parseIntegerInts_fit_iff 0 bytes (by decide)).mp ?_
    intro x hx
    exact hfit x ⟨bytes, hbytes, hx⟩
  · rintro hcounts x ⟨bytes, hbytes, hx⟩
    exact (@parseIntegerInts_fit_iff 0 bytes (by decide)).mpr (hcounts _ ⟨bytes, hbytes, rfl⟩) x hx

/-! ## Computations of the tiling -/

/-- The even split of one run by `tile_pieces`. -/
def splitInts (run : ℕ × ℕ) (pieces : ℕ) : List ℤ :=
  (List.range pieces).flatMap fun p =>
    [(run.2 * p : ℕ), (run.1 + run.2 * p / pieces : ℕ), (run.2 * (p + 1) : ℕ),
      (run.1 + run.2 * (p + 1) / pieces : ℕ),
      ((run.1 + run.2 * (p + 1) / pieces : ℕ) : ℤ) - (run.1 + run.2 * p / pieces : ℕ) - 2]

/-- The even split of all runs. -/
def pieceSegmentsInts (buf : List (Option CodePoint)) (want : ℕ) : List ℤ :=
  let runs := literalRuns 0 0 buf
  if runsCap < runs.length then []
  else
    match handOut runs want (List.replicate runs.length 0) with
    | none => []
    | some pieces => (runs.zip pieces).flatMap fun rp => splitInts rp.1 rp.2

/-- `tile_pieces`. The number of pieces is computed before the budget is compared. -/
def tilePiecesInts (ast : RegexAst) (k : ℤ) : List ℤ :=
  (k + 1) ::
    if k < 1 ∨ 64 < k then []
    else
      match linearizeLiterals ast spineCap with
      | none => []
      | some buf => pieceSegmentsInts buf (k + 1).toNat

/-- The first pass of `pg_tre_tile_spine` over a tile, which counts the alternatives. -/
def countAltsInts (s : Settings) (tileK : ℤ) : ℕ → List SpineEntry → List ℤ
  | _, [] => []
  | total, e :: rest =>
      match ulevenExpandCp e.trigram tileK expandedCap with
      | none => []
      | some tris =>
          ((total + tris.length : ℕ) : ℤ) ::
            if s.maxExtractionFanout < total + tris.length then []
            else countAltsInts s tileK (total + tris.length) rest

/-- The second pass, which widens the offsets. -/
def widenedInts (k : ℤ) (tile : List SpineEntry) : List ℤ :=
  tile.flatMap fun e =>
    (if k < e.patternOffset then [(e.patternOffset : ℤ) - k] else []) ++ [(e.patternOffset : ℤ) + k]

/-- The loop of `pg_tre_tile_spine` over the tiles: the bounds of each and its two passes. -/
def tileLoopInts (s : Settings) (k tileK : ℤ) (spine : List SpineEntry) (tileSize : ℕ) :
    ℕ → ℕ → List ℤ
  | 0, _ => []
  | remaining + 1, t =>
      let tile := (spine.drop (t * tileSize)).take tileSize
      ((t * tileSize : ℕ) : ℤ) :: ((t * tileSize + tileSize : ℕ) : ℤ) ::
        (((min (t * tileSize + tileSize) spine.length : ℕ) : ℤ) - (t * tileSize : ℕ)) ::
        (countAltsInts s tileK 0 tile ++
          if (tileConjunct s k tileK tile).isNone then []
          else widenedInts k tile ++ tileLoopInts s k tileK spine tileSize remaining (t + 1))

/-- `pg_tre_tile_spine` for a positive budget. -/
def tileSpineInts (s : Settings) (spine : List SpineEntry) (k : ℤ) : List ℤ :=
  let tileK := if 2 < k then 2 else k
  let exact := if anyExactOnly s spine = true then [3 * k] else []
  let nTiles := wrap32 (k + 1)
  if spine.length = 0 ∨ k < 0 then []
  else if anyExactOnly s spine = true ∧ (spine.length : ℤ) ≤ wrap32 (3 * k) then exact
  else exact ++ (k + 1) ::
    if (spine.length : ℤ) < nTiles then []
    else ((spine.length : ℤ) + nTiles) :: (wrap32 (spine.length + nTiles) - 1) ::
      if nTiles < 0 then []
      else tileLoopInts s k tileK spine ((spine.length + nTiles.toNat - 1) / nTiles.toNat)
        nTiles.toNat 0

/-- `pg_tre_tile_query`: the `int32` results while a pattern is tiled. -/
def tileQueryInts (s : Settings) (ast : RegexAst) (k : ℤ) : List ℤ :=
  tilePiecesInts ast k ++
    match tilePieces ast k .zero with
    | some _ => []
    | none =>
        match extractSpineFromAst ast spineCap with
        | none => []
        | some spine => tileSpineInts s spine k

/-! ## Bounds -/

/-- The literals fit the buffer. -/
theorem linearizeLiterals_length {ast : RegexAst} {cap : ℕ} {buf : List (Option CodePoint)}
    (h : linearizeLiterals ast cap = some buf) : buf.length ≤ cap := by
  induction ast generalizing cap buf with
  | concat l r ihl ihr =>
    simp only [linearizeLiterals, Option.bind_eq_bind, Option.bind_eq_some_iff, Option.pure_def,
      Option.some.injEq] at h
    obtain ⟨left, hleft, right, hright, rfl⟩ := h
    have hl := ihl hleft
    have hr := ihr hright
    rw [List.length_append]
    omega
  | anchor which =>
    obtain rfl := Option.some.inj h
    exact Nat.zero_le _
  | literal | any | charclass | alt | rep | approx =>
    simp only [linearizeLiterals, Option.ite_none_left_eq_some, Option.some.injEq] at h
    obtain ⟨hcap, rfl⟩ := h
    exact Nat.one_le_iff_ne_zero.mpr hcap

/-- The spine fits its buffer, and its offsets point into the linearized buffer. -/
theorem extractSpine_bounds {ast : RegexAst} {spine : List SpineEntry}
    (h : extractSpineFromAst ast spineCap = some spine) :
    spine.length ≤ spineCap ∧ ∀ e ∈ spine, e.patternOffset < spineCap := by
  simp only [extractSpineFromAst, Option.bind_eq_bind, Option.bind_eq_some_iff] at h
  obtain ⟨buf, hbuf, h⟩ := h
  split_ifs at h with hlen
  obtain rfl := Option.some.inj h
  refine ⟨not_lt.mp hlen, fun e he => ?_⟩
  obtain ⟨i, hoff, hfirst, -, -⟩ := spineEntries_spec he
  have hi := (List.getElem?_eq_some_iff.mp hfirst).1
  have hcap := linearizeLiterals_length hbuf
  omega

/-- Every run lies within the buffer. -/
theorem literalRuns_bounds {buf : List (Option CodePoint)} {run : ℕ × ℕ}
    (h : run ∈ literalRuns 0 0 buf) : run.1 + run.2 ≤ buf.length := by
  obtain ⟨rs, -, hruns⟩ : ∃ rs : List (LiteralPiece buf), ChainOf 0 buf.length rs ∧
      literalRuns 0 0 buf = rs.map (fun r => (r.start, r.stop - r.start)) :=
    @literalRuns_chain buf [] [] buf rfl
  rw [hruns] at h
  obtain ⟨r, -, rfl⟩ := List.mem_map.mp h
  have hlen := congrArg List.length r.literal
  have hlong := r.long
  rw [slice, List.length_take, List.length_drop, List.length_map, r.length] at hlen
  dsimp only
  omega

/-- Deduplication makes a list no longer. -/
theorem length_dedupeTrigrams_le (tris : List Trigram) :
    (dedupeTrigrams tris).length ≤ tris.length := by
  have hfold : ∀ out : List Trigram,
      (tris.foldl (fun out t => if t ∈ out then out else out ++ [t]) out).length ≤
        out.length + tris.length := by
    induction tris with
    | nil => exact fun out => le_rfl
    | cons t tris ih =>
      intro out
      have hrest := ih (if t ∈ out then out else out ++ [t])
      rw [List.foldl_cons, List.length_cons]
      split_ifs at hrest ⊢
      · omega
      · rw [List.length_append, List.length_singleton] at hrest
        omega
  simpa [dedupeTrigrams] using hfold []

/-- An expansion for a tile fits its buffer. -/
theorem length_ulevenExpandCp {tri : Trigram} {tileK : ℤ} {tris : List Trigram}
    (hK : tileK = 1 ∨ tileK = 2) (h : ulevenExpandCp tri tileK expandedCap = some tris) :
    tris.length ≤ expandedCap := by
  cases hascii : allAscii tri with
  | false =>
    rw [ulevenExpandCp, if_neg (by rcases hK with rfl | rfl <;> simp [expandedCap]),
      if_pos (Or.inr hascii)] at h
    obtain rfl := Option.some.inj h
    exact Nat.one_le_iff_ne_zero.mpr (by decide)
  | true =>
    rcases hK with rfl | rfl
    · rw [ulevenExpandCp, if_neg (by simp [expandedCap]), if_neg (by simp [hascii]),
        ulevenExpand, if_neg (by simp [expandedCap]), if_neg one_ne_zero, if_pos rfl,
        ulevenExpandK1] at h
      split_ifs at h with hfits
      obtain rfl := Option.some.inj h
      have houter := length_dedupeTrigrams_le (dedupeTrigrams (tri ::
        (ulevenSubstitutions tri ++ ulevenDeletions tri ++ ulevenInsertions tri)))
      have hinner := length_dedupeTrigrams_le (tri ::
        (ulevenSubstitutions tri ++ ulevenDeletions tri ++ ulevenInsertions tri))
      exact houter.trans (hinner.trans (not_lt.mp hfits))
    · rw [ulevenExpandCp_two_eq_none hascii] at h
      cases h

/-! ## Where the tiling stays in the range -/

/-- The even split of a run within the buffer. -/
theorem splitInts_fit {run : ℕ × ℕ} {pieces : ℕ} (hrun : run.1 + run.2 ≤ spineCap)
    (hpieces : 3 * pieces ≤ run.2) : ∀ x ∈ splitInts run pieces, FitsInt32 x := by
  intro x hx
  obtain ⟨p, hp, hx⟩ := List.mem_flatMap.mp hx
  rw [List.mem_range] at hp
  have hcap : spineCap = 1024 := rfl
  have hmul {q : ℕ} (hq : q ≤ pieces) : run.2 * q ≤ 1024 * 1024 := by
    apply Nat.mul_le_mul <;> omega
  have hdiv {q : ℕ} (hq : q ≤ pieces) : run.2 * q / pieces ≤ run.2 := by
    refine Nat.div_le_of_le_mul ?_
    rw [Nat.mul_comm]
    exact Nat.mul_le_mul_right _ hq
  have hnext : p + 1 ≤ pieces := hp
  have hstart := hdiv hp.le
  have hstop := hdiv hnext
  have hstartMul := hmul hp.le
  have hstopMul := hmul hnext
  have hmax : int32Max = 2 ^ 31 - 1 := rfl
  simp only [List.mem_cons, List.not_mem_nil, or_false] at hx
  rcases hx with rfl | rfl | rfl | rfl | rfl
  · exact fitsInt32_natCast (by omega)
  · exact fitsInt32_natCast (by omega)
  · exact fitsInt32_natCast (by omega)
  · exact fitsInt32_natCast (by omega)
  · generalize run.2 * p / pieces = start at hstart ⊢
    generalize run.2 * (p + 1) / pieces = stop at hstop ⊢
    exact ⟨by omega, by omega⟩

/-- The even split of all runs. -/
theorem pieceSegmentsInts_fit {buf : List (Option CodePoint)} {want : ℕ}
    (hbuf : buf.length ≤ spineCap) : ∀ x ∈ pieceSegmentsInts buf want, FitsInt32 x := by
  intro x hx
  unfold pieceSegmentsInts at hx
  dsimp only at hx
  split_ifs at hx
  · cases hx
  cases hout : handOut (literalRuns 0 0 buf) want
      (List.replicate (literalRuns 0 0 buf).length 0) with
  | none => simp [hout] at hx
  | some pieces =>
    simp only [hout, List.mem_flatMap] at hx
    obtain ⟨⟨run, parts⟩, hzip, hx⟩ := hx
    have hroom := (handOut_replicate_eq_some hout).1
    have hparts : 3 * parts ≤ run.2 := List.forall₂_iff_zip.mp hroom |>.2 hzip
    exact splitInts_fit ((literalRuns_bounds (List.of_mem_zip hzip).1).trans hbuf) hparts x hx

/-- `tile_pieces` stays in the range but for the number of pieces of the largest budget. -/
theorem tilePiecesInts_fit_iff {ast : RegexAst} {k : ℤ} (hk : 1 ≤ k) :
    (∀ x ∈ tilePiecesInts ast k, FitsInt32 x) ↔ k < int32Max := by
  rw [tilePiecesInts, List.forall_mem_cons]
  constructor
  · rintro ⟨hwant, -⟩
    have hhigh := hwant.2
    omega
  · intro hlt
    refine ⟨⟨by omega, by omega⟩, ?_⟩
    split_ifs
    · simp
    cases hbuf : linearizeLiterals ast spineCap with
    | none => simp
    | some buf => exact pieceSegmentsInts_fit (linearizeLiterals_length hbuf)

/-- The counts of the alternatives of a tile. -/
theorem countAltsInts_fit {s : Settings} {tileK : ℤ} (hK : tileK = 1 ∨ tileK = 2) {total : ℕ}
    {tile : List SpineEntry} (htotal : total + expandedCap * tile.length < 2 ^ 31) :
    ∀ x ∈ countAltsInts s tileK total tile, FitsInt32 x := by
  induction tile generalizing total with
  | nil => simp [countAltsInts]
  | cons e tile ih =>
    rw [countAltsInts]
    cases htris : ulevenExpandCp e.trigram tileK expandedCap with
    | none => simp
    | some tris =>
      have hfits := length_ulevenExpandCp hK htris
      rw [List.length_cons, Nat.mul_succ] at htotal
      rw [List.forall_mem_cons]
      refine ⟨fitsInt32_natCast (by omega), ?_⟩
      split_ifs
      · simp
      · exact ih (by omega)

/-- The widened offsets of a tile. -/
theorem widenedInts_fit {k : ℤ} (hk : 0 ≤ k) (hsmall : k < spineCap) {tile : List SpineEntry}
    (hoffsets : ∀ e ∈ tile, e.patternOffset < spineCap) : ∀ x ∈ widenedInts k tile, FitsInt32 x := by
  intro x hx
  obtain ⟨e, he, hx⟩ := List.mem_flatMap.mp hx
  have hoffset := hoffsets e he
  have hcap : spineCap = 1024 := rfl
  have hmax : int32Max = 2 ^ 31 - 1 := rfl
  unfold FitsInt32
  split_ifs at hx
  · simp only [List.cons_append, List.nil_append, List.mem_cons, List.not_mem_nil, or_false] at hx
    rcases hx with rfl | rfl <;> omega
  · rw [List.nil_append, List.mem_singleton] at hx
    omega

/-- The loop over the tiles. -/
theorem tileLoopInts_fit {s : Settings} {k tileK : ℤ} {spine : List SpineEntry} {tileSize : ℕ}
    (hk : 0 ≤ k) (hsmall : k < spineCap) (hK : tileK = 1 ∨ tileK = 2)
    (hlen : spine.length ≤ spineCap) (hoffsets : ∀ e ∈ spine, e.patternOffset < spineCap)
    (hsize : tileSize ≤ spineCap) {remaining t : ℕ} (ht : t + remaining ≤ spineCap) :
    ∀ x ∈ tileLoopInts s k tileK spine tileSize remaining t, FitsInt32 x := by
  have hcap : spineCap = 1024 := rfl
  induction remaining generalizing t with
  | zero => simp [tileLoopInts]
  | succ remaining ih =>
    have hstart : t * tileSize ≤ 1024 * 1024 := by
      apply Nat.mul_le_mul <;> omega
    have htile : expandedCap * ((spine.drop (t * tileSize)).take tileSize).length ≤ 4096 * 1024 := by
      refine Nat.mul_le_mul le_rfl ?_
      rw [List.length_take]
      omega
    have hmax : int32Max = 2 ^ 31 - 1 := rfl
    simp only [tileLoopInts, List.forall_mem_cons, List.forall_mem_append]
    refine ⟨fitsInt32_natCast (by omega), fitsInt32_natCast (by omega), ⟨by omega, by omega⟩,
      countAltsInts_fit hK (by omega), ?_⟩
    split_ifs
    · simp
    rw [List.forall_mem_append]
    refine ⟨widenedInts_fit hk hsmall fun e he => ?_, ih (by omega)⟩
    exact hoffsets e (List.mem_of_mem_drop (List.mem_of_mem_take he))

/-- `pg_tre_tile_spine` stays in the range but for `3 * k`. -/
theorem tileSpineInts_fit_iff {s : Settings} {spine : List SpineEntry} {k : ℤ} (hk : 1 ≤ k)
    (hlt : k < int32Max) (hlen : spine.length ≤ spineCap)
    (hoffsets : ∀ e ∈ spine, e.patternOffset < spineCap) :
    (∀ x ∈ tileSpineInts s spine k, FitsInt32 x) ↔
      spine = [] ∨ anyExactOnly s spine = false ∨ 3 * k ≤ int32Max := by
  have hcap : spineCap = 1024 := rfl
  have hmax : int32Max = 2 ^ 31 - 1 := rfl
  have htiles : FitsInt32 (k + 1) := ⟨by omega, by omega⟩
  have hK : (if 2 < k then 2 else k) = 1 ∨ (if 2 < k then 2 else k) = 2 := by
    split_ifs <;> omega
  unfold tileSpineInts
  dsimp only
  rw [htiles.wrap32]
  by_cases hempty : spine.length = 0 ∨ k < 0
  · have hnil : spine = [] := List.length_eq_zero_iff.mp (by omega)
    rw [if_pos hempty]
    simp [hnil]
  have hne : spine ≠ [] := fun h => hempty (Or.inl (by simp [h]))
  rw [if_neg hempty]
  have hexact : (∀ x ∈ (if anyExactOnly s spine = true then [3 * k] else []), FitsInt32 x) ↔
      anyExactOnly s spine = false ∨ 3 * k ≤ int32Max := by
    split_ifs with hany
    · simp only [List.mem_singleton, forall_eq, hany, Bool.true_eq_false, false_or]
      exact ⟨fun h => h.2, fun h => ⟨by omega, h⟩⟩
    · simp [Bool.eq_false_iff.mpr hany]
  generalize (if 2 < k then 2 else k) = tileK at hK ⊢
  generalize (if anyExactOnly s spine = true then [3 * k] else []) = exact at hexact ⊢
  split_ifs with hgive hmany hneg
  · rw [hexact]
    simp [hne]
  all_goals
    rw [List.forall_mem_append, hexact, List.forall_mem_cons]
    simp only [hne, false_or]
    refine and_iff_left ⟨htiles, ?_⟩
  · simp
  · omega
  · have hsum : FitsInt32 ((spine.length : ℤ) + (k + 1)) := ⟨by omega, by omega⟩
    rw [List.forall_mem_cons, List.forall_mem_cons, hsum.wrap32]
    refine ⟨hsum, ⟨by omega, by omega⟩, ?_⟩
    refine tileLoopInts_fit (by omega) (by omega) hK hlen hoffsets ?_ (by omega)
    refine Nat.div_le_of_le_mul ?_
    rw [hcap]
    omega

/-- `pg_tre_tile_query` stays in the range exactly when the budget is not the largest one, and its
triple fits or is not computed. -/
theorem tileQueryInts_fit_iff {s : Settings} {ast : RegexAst} {k : ℤ} (hk : 1 ≤ k) :
    (∀ x ∈ tileQueryInts s ast k, FitsInt32 x) ↔
      k < int32Max ∧ (int32Max < 3 * k → ∀ spine, extractSpineFromAst ast spineCap = some spine →
        spine = [] ∨ anyExactOnly s spine = false) := by
  rw [tileQueryInts, List.forall_mem_append, tilePiecesInts_fit_iff hk]
  refine and_congr_right fun hlt => ?_
  cases hpieces : tilePieces ast k .zero with
  | some q =>
    -- pieces are cut for small budgets only
    refine iff_of_true (by simp) fun htriple => ?_
    have hsmall := (tilePieces_sound ast k .zero q hpieces).2.1
    have hmaxVal : int32Max = 2 ^ 31 - 1 := rfl
    omega
  | none =>
    cases hspine : extractSpineFromAst ast spineCap with
    | none => simp
    | some spine =>
      obtain ⟨hlen, hoffsets⟩ := extractSpine_bounds hspine
      simp only [Option.some.injEq, forall_eq']
      rw [tileSpineInts_fit_iff hk hlt hlen hoffsets, ← not_lt]
      tauto

/-- A budget below the largest one raises no error. -/
theorem regexExtractQuery_ok (s : Settings) (root : RegexAst) {k : ℤ} (hk : 1 ≤ k)
    (hlt : k < int32Max) : ∃ q, regexExtractQuery s root k = .ok q := by
  have hmax : int32Max = 2 ^ 31 - 1 := rfl
  have htiles : FitsInt32 (k + 1) := ⟨by omega, by omega⟩
  have htile : ∃ r, tileQuery s root k .zero = .ok r := by
    unfold tileQuery
    split
    · exact ⟨_, rfl⟩
    split
    · exact ⟨_, rfl⟩
    unfold tileSpine
    dsimp only
    rw [htiles.wrap32]
    generalize (if 2 < k then 2 else k) = tileK
    split_ifs
    · exact ⟨_, rfl⟩
    · exact ⟨_, rfl⟩
    · exact ⟨_, rfl⟩
    · omega
    · split <;> exact ⟨_, rfl⟩
  obtain ⟨⟨tiled, q⟩, hquery⟩ := htile
  rw [regexExtractQuery, if_pos (by omega), hquery]
  cases tiled with
  | true => exact ⟨q, rfl⟩
  | false => exact ⟨_, rfl⟩

/-! ## Numbers in a pattern -/

/-- The numbers of a pattern and of its budget stay in the range of `int32` while the pattern is
tokenized and, if it parses, tiled, and the extraction raises no error. -/
structure NumbersInRange (enc : Encoding) (s : Settings) (pattern : List UInt8) (k : ℤ) : Prop where
  tokenized : ∀ x ∈ tokenizeInts enc pattern, FitsInt32 x
  tiled : ∀ root force, treParseRegex enc pattern = .ok (root, force) →
    ∀ x ∈ tileQueryInts s root k, FitsInt32 x
  extracted : ∀ root force, treParseRegex enc pattern = .ok (root, force) →
    ∃ q, regexExtractQuery s root k = .ok q

/-- For every encoding, pattern and budget above 0 the numbers stay in the range if and only
if every count in the pattern is below `2^31` and, where the pattern parses, the budget is below
`2^31 - 1` and either at most a third of that, or the spine is empty or has ASCII trigrams of a
single-byte encoding only. -/
theorem numbersInRange_iff (enc : Encoding) (s : Settings) (pattern : List UInt8) (k : ℤ)
    (hk : 1 ≤ k) :
    NumbersInRange enc s pattern k ↔
      (∀ n ∈ patternCounts enc pattern, n < 2 ^ 31) ∧
      ∀ root force, treParseRegex enc pattern = .ok (root, force) →
        k < int32Max ∧ (int32Max < 3 * k →
          ∀ spine, extractSpineFromAst root spineCap = some spine →
            spine = [] ∨ anyExactOnly s spine = false) := by
  rw [← tokenizeInts_fit_iff]
  constructor
  · rintro ⟨htokenized, htiled, -⟩
    refine ⟨htokenized, fun root force hparse => ?_⟩
    exact (tileQueryInts_fit_iff hk).mp (htiled root force hparse)
  · rintro ⟨htokenized, hcond⟩
    refine ⟨htokenized, fun root force hparse => ?_, fun root force hparse => ?_⟩
    · exact (tileQueryInts_fit_iff hk).mpr (hcond root force hparse)
    · exact regexExtractQuery_ok s root hk (hcond root force hparse).1

/-- The spine of `abcdefghij{2}` has seven trigrams. Their tiles stay in the range with a budget of 2,
and with one of 10^9, because none of them has to match exactly. -/
theorem numbersInRange_sevenTrigrams :
    let pattern := "abcdefghij{2}".toList.map byte
    (∃ root spine, treParseRegex latin1 pattern = .ok (root, false) ∧
      extractSpineFromAst root spineCap = some spine ∧ spine.length = 7) ∧
    NumbersInRange latin1 ⟨4096, 1⟩ pattern 2 ∧ NumbersInRange latin1 ⟨4096, 1⟩ pattern 1000000000 := by
  intro pattern
  obtain ⟨root, spine, hparse, hspine, hlength, hexact⟩ :
      ∃ root spine, treParseRegex latin1 pattern = .ok (root, false) ∧
        extractSpineFromAst root spineCap = some spine ∧ spine.length = 7 ∧
          anyExactOnly ⟨4096, 1⟩ spine = false := ⟨_, _, rfl, rfl, rfl, rfl⟩
  have hcounts : ∀ n ∈ patternCounts latin1 pattern, n < 2 ^ 31 := by decide +kernel
  refine ⟨⟨root, spine, hparse, hspine, hlength⟩, ?_, ?_⟩
  · refine (numbersInRange_iff latin1 ⟨4096, 1⟩ pattern 2 (by decide)).mpr ⟨hcounts, ?_⟩
    exact fun _ _ _ => ⟨by decide, fun hlarge => absurd hlarge (by decide)⟩
  · refine (numbersInRange_iff latin1 ⟨4096, 1⟩ pattern 1000000000 (by decide)).mpr ⟨hcounts, ?_⟩
    intro root' force hparse'
    obtain ⟨rfl, -⟩ := Prod.mk.inj (Except.ok.inj (hparse.symm.trans hparse'))
    refine ⟨by decide, fun _ spine' hspine' => Or.inr ?_⟩
    rw [← Option.some.inj (hspine.symm.trans hspine')]
    exact hexact

/-- With the largest budget the extraction for `abc` raises an error in a single-byte encoding, and
`a{4294967297}` is read as a single `a`. -/
theorem not_numbersInRange :
    (∃ root force, treParseRegex latin1 ("abc".toList.map byte) = .ok (root, force) ∧
      regexExtractQuery ⟨4096, 1⟩ root int32Max = .error ⟨"invalid memory alloc request size"⟩) ∧
    ¬ NumbersInRange latin1 ⟨4096, 1⟩ ("abc".toList.map byte) int32Max ∧
    (∃ root force, treParseRegex latin1 ("a{4294967297}".toList.map byte) = .ok (root, force) ∧
      root = .rep (.literal 97) 1 (some 1)) ∧
    ¬ NumbersInRange latin1 ⟨4096, 1⟩ ("a{4294967297}".toList.map byte) 1 := by
  have hparse : treParseRegex latin1 ("abc".toList.map byte) =
      .ok (.concat (.concat (.literal 97) (.literal 98)) (.literal 99), false) := by rfl
  have hraised : regexExtractQuery ⟨4096, 1⟩
      (.concat (.concat (.literal 97) (.literal 98)) (.literal 99)) int32Max =
        .error ⟨"invalid memory alloc request size"⟩ := by rfl
  refine ⟨⟨_, _, hparse, hraised⟩, ?_, ⟨_, _, rfl, rfl⟩, ?_⟩
  · intro hrange
    obtain ⟨q, hq⟩ := hrange.extracted _ _ hparse
    rw [hraised] at hq
    cases hq
  · intro hrange
    have hcount := tokenizeInts_fit_iff.mp hrange.tokenized 4294967297 (by decide +kernel)
    omega

end PgTre
