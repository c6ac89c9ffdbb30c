import PgTre.Query.LikeSound
import PgTre.Util.StackWalk

/-!
# The depth of the walks over a tree

`lin_append_node` calls `check_stack_depth`, and `rep_child_is_fixed_literal` and `linearize_literals`
do not. The rules for `concatenation` recurse to the left, so a tree is as deep as its pattern has
parts, with or without groups. With an explicit depth and a limit, the walks for a budget go beyond
the limit unchecked, and the exact walk fails on a literal that is longer than the limit.
-/

namespace PgTre

open StackWalk

/-! ## The walks -/

/-- `rep_child_is_fixed_literal` at depth `d`. -/
def repChildWalk : RegexAst → ℕ → Walk Bool
  | .literal _, d => .entered d (.pure true)
  | .concat l r, d =>
      .entered d ((repChildWalk l (d + 1)).bind fun fixed =>
        if fixed then repChildWalk r (d + 1) else .pure false)
  | _, d => .entered d (.pure false)

/-- `linearize_literals` at depth `d`. -/
def linearizeWalk : RegexAst → ℕ → ℕ → Walk (Option (List (Option CodePoint)))
  | .concat l r, cap, d =>
      .entered d ((linearizeWalk l cap (d + 1)).bind fun left =>
        match left with
        | none => .pure none
        | some left =>
            (linearizeWalk r (cap - left.length) (d + 1)).bind fun right =>
              .pure (right.map (left ++ ·)))
  | ast, cap, d => .entered d (.pure (linearizeLiterals ast cap))

/-- A call of `lin_append_node`, which returns at once when the accumulator has overflowed. -/
def LinCtx.enter (limit d : ℕ) (lc : LinCtx) (body : Walk LinCtx) : Walk LinCtx :=
  if lc.acc.overflowed = true then ⟨d, some lc⟩ else .checked limit d body

/-- `lin_append_node` at depth `d`, where `check_stack_depth` fails beyond the limit. -/
def linAppendWalk (fanout limit : ℕ) : RegexAst → ℕ → LinCtx → Walk LinCtx
  | .concat l r, d, lc =>
      lc.enter limit d ((linAppendWalk fanout limit l (d + 1) lc).bind
        (linAppendWalk fanout limit r (d + 1)))
  | .alt l r, d, lc =>
      let branch : LinCtx := { run := [], acc := .init, flushes := lc.flushes }
      lc.enter limit d ((linAppendWalk fanout limit l (d + 1) branch).bind fun lca =>
        (linAppendWalk fanout limit r (d + 1) branch).bind fun lcb =>
          let a := runEmit fanout lca.run lca.acc
          let b := runEmit fanout lcb.run lcb.acc
          let lc := runFlush fanout lc
          .pure { lc with acc := (a.tris.filter (· ∈ b.tris)).foldl (accumAdd fanout) lc.acc })
  | .rep child m n, d, lc =>
      lc.enter limit d <|
        if m = 0 then .pure (runFlush fanout lc)
        else
          -- The child is looked at for a fixed count only.
          (if n = some m then repChildWalk child (d + 1) else .pure false).bind fun fixed =>
            let k := if fixed then if repInlineMax < m then repInlineMax else m
              else if 2 < m then 2 else m
            (Walk.times (linAppendWalk fanout limit child (d + 1)) k lc).bind fun lc' =>
              .pure (if n ≠ some m ∧ k = 1 ∧ lc'.flushes = lc.flushes ∧
                lc'.run.length ≤ lc.run.length + 1 then runFlush fanout lc' else lc')
  | .approx child _, d, lc => lc.enter limit d (linAppendWalk fanout limit child (d + 1) lc)
  | ast, d, lc => lc.enter limit d (.pure (linAppendNode fanout ast lc))

/-- `regex_extract_query`, which recurses over the tree for the spine of the literals with a budget
and for the exact run without one. The result is absent when a check of the stack has raised its
error. -/
def extractWalk (limit : ℕ) (s : Settings) (root : RegexAst) (maxCost : ℤ) :
    Walk (Except PgError TrigramQuery) :=
  if 0 < maxCost then
    (linearizeWalk root spineCap 1).bind fun _ => .pure (regexExtractQuery s root maxCost)
  else
    (linAppendWalk s.maxExtractionFanout limit root 1 ⟨[], .init, 0⟩).bind fun _ =>
      .pure (regexExtractQuery s root maxCost)

/-! ## The calls of the walks -/

/-- The calls of `rep_child_is_fixed_literal`. -/
def repChildCalls : RegexAst → ℕ → List Call
  | .concat l r, d =>
      .unchecked d :: (repChildCalls l (d + 1) ++
        if repChildIsFixedLiteral l then repChildCalls r (d + 1) else [])
  | _, d => [.unchecked d]

/-- The calls of `linearize_literals`. -/
def linearizeCalls : RegexAst → ℕ → ℕ → List Call
  | .concat l r, cap, d =>
      .unchecked d :: (linearizeCalls l cap (d + 1) ++
        match linearizeLiterals l cap with
        | none => []
        | some left => linearizeCalls r (cap - left.length) (d + 1))
  | _, _, d => [.unchecked d]

/-- The calls of `lin_append_node` that do not return at once, and those it makes of
`rep_child_is_fixed_literal`. -/
def linAppendCalls (fanout : ℕ) : RegexAst → ℕ → LinCtx → List Call
  | .concat l r, d, lc =>
      if lc.acc.overflowed = true then []
      else .checked d :: (linAppendCalls fanout l (d + 1) lc ++
        linAppendCalls fanout r (d + 1) (linAppendNode fanout l lc))
  | .alt l r, d, lc =>
      let branch : LinCtx := { run := [], acc := .init, flushes := lc.flushes }
      if lc.acc.overflowed = true then []
      else .checked d :: (linAppendCalls fanout l (d + 1) branch ++
        linAppendCalls fanout r (d + 1) branch)
  | .rep child m n, d, lc =>
      if lc.acc.overflowed = true then []
      else if m = 0 then [.checked d]
      else .checked d :: ((if n = some m then repChildCalls child (d + 1) else []) ++
        (List.range (repCopies child m n)).flatMap fun i =>
          linAppendCalls fanout child (d + 1) ((linAppendNode fanout child)^[i] lc))
  | .approx child _, d, lc =>
      if lc.acc.overflowed = true then []
      else .checked d :: linAppendCalls fanout child (d + 1) lc
  | _, d, lc => if lc.acc.overflowed = true then [] else [.checked d]

/-- The calls of `regex_extract_query` on a tree. -/
def extractCalls (s : Settings) (root : RegexAst) (maxCost : ℤ) : List Call :=
  if 0 < maxCost then linearizeCalls root spineCap 1
  else linAppendCalls s.maxExtractionFanout root 1 ⟨[], .init, 0⟩

section

variable {fanout limit d : ℕ}

/-- The walk of the child test runs as the test does, call by call. -/
theorem repChildWalk_runs (ast : RegexAst) :
    (repChildWalk ast d).Runs limit (repChildIsFixedLiteral ast) (repChildCalls ast d) := by
  induction ast generalizing d with
  | concat l r ihl ihr =>
    refine Walk.Runs.entered (ihl.bind ?_)
    rw [repChildIsFixedLiteral]
    cases repChildIsFixedLiteral l with
    | true => exact ihr
    | false => exact .pure
  | _ => exact .entered .pure

/-- The walk of the linearizer runs as the linearizer does, call by call. -/
theorem linearizeWalk_runs (ast : RegexAst) (cap : ℕ) :
    (linearizeWalk ast cap d).Runs limit (linearizeLiterals ast cap) (linearizeCalls ast cap d) := by
  induction ast generalizing cap d with
  | concat l r ihl ihr =>
    refine Walk.Runs.entered ((ihl cap).bind ?_)
    cases hleft : linearizeLiterals l cap with
    | none => simpa [linearizeLiterals, hleft] using Walk.Runs.pure
    | some left =>
      have hright : ((linearizeWalk r (cap - left.length) (d + 1)).bind fun right =>
          Walk.pure (right.map (left ++ ·))).Runs limit
          ((linearizeLiterals r (cap - left.length)).map (left ++ ·))
          (linearizeCalls r (cap - left.length) (d + 1) ++ []) := (ihr _).bind .pure
      rw [List.append_nil] at hright
      have hvalue : linearizeLiterals (.concat l r) cap =
          (linearizeLiterals r (cap - left.length)).map (left ++ ·) := by
        cases hr : linearizeLiterals r (cap - left.length) <;> simp [linearizeLiterals, hleft, hr]
      rw [hvalue]
      exact hright
  | _ => exact .entered .pure

/-- A call that returns at once where the accumulator has overflowed. -/
theorem LinCtx.enter_runs {lc lc' : LinCtx} {body : Walk LinCtx} {cs : List Call}
    (hd : d ≤ limit + 1) (h : d ≤ limit → lc.acc.overflowed = false → body.Runs limit lc' cs) :
    (lc.enter limit d body).Runs limit (if lc.acc.overflowed = true then lc else lc')
      (if lc.acc.overflowed = true then [] else .checked d :: cs) := by
  cases hover : lc.acc.overflowed with
  | true => simpa [LinCtx.enter, hover] using Walk.Runs.returned hd
  | false => simpa [LinCtx.enter, hover] using Walk.Runs.checked hd fun hin => h hin hover

/-- The look at a repetition's child. -/
theorem fixedWalk_runs (child : RegexAst) (m : ℕ) (n : Option ℕ) :
    (if n = some m then repChildWalk child (d + 1) else .pure false).Runs limit
      (decide (n = some m) && repChildIsFixedLiteral child)
      (if n = some m then repChildCalls child (d + 1) else []) := by
  by_cases hfixed : n = some m
  · simpa [hfixed] using repChildWalk_runs child
  · simpa [hfixed] using Walk.Runs.pure

/-- A call on a node without children. -/
theorem leaf_runs (ast : RegexAst) (lc : LinCtx) (hd : d ≤ limit + 1) :
    (lc.enter limit d (.pure (linAppendNode fanout ast lc))).Runs limit (linAppendNode fanout ast lc)
      (if lc.acc.overflowed = true then [] else [.checked d]) := by
  have hruns := @LinCtx.enter_runs limit d lc (linAppendNode fanout ast lc) _ [] hd fun _ _ => .pure
  have hvalue : (if lc.acc.overflowed = true then lc else linAppendNode fanout ast lc) =
      linAppendNode fanout ast lc := by
    split_ifs with hover
    · exact (linAppendNode_of_overflowed hover).symm
    · rfl
  rwa [hvalue] at hruns

/-- The guarded walk makes the calls of the unguarded one, as long as no check fails. -/
theorem linAppendWalk_runs (ast : RegexAst) (lc : LinCtx) (hd : d ≤ limit + 1) :
    (linAppendWalk fanout limit ast d lc).Runs limit (linAppendNode fanout ast lc)
      (linAppendCalls fanout ast d lc) := by
  induction ast generalizing d lc with
  | concat l r ihl ihr =>
    refine LinCtx.enter_runs hd fun hd' _ => ?_
    exact (ihl lc (Nat.succ_le_succ hd')).bind (ihr _ (Nat.succ_le_succ hd'))
  | alt l r ihl ihr =>
    refine LinCtx.enter_runs hd fun hd' _ => ?_
    refine (ihl _ (Nat.succ_le_succ hd')).bind ?_
    rw [← List.append_nil (linAppendCalls fanout r (d + 1) _)]
    exact (ihr _ (Nat.succ_le_succ hd')).bind .pure
  | rep child m n ih =>
    by_cases hm : m = 0
    · have hbody := @LinCtx.enter_runs limit d lc (runFlush fanout lc) _ [] hd fun _ _ => .pure
      simpa [linAppendWalk, linAppendNode, linAppendCalls, hm] using hbody
    have hcopies : (if (decide (n = some m) && repChildIsFixedLiteral child) = true then
        if repInlineMax < m then repInlineMax else m else if 2 < m then 2 else m) =
          repCopies child m n := by
      simp [repCopies]
    rw [linAppendWalk, linAppendNode, linAppendCalls, if_neg hm, if_neg hm, if_neg hm]
    refine LinCtx.enter_runs hd fun hd' _ => (fixedWalk_runs child m n).bind ?_
    dsimp only
    rw [hcopies]
    have hrounds := Walk.Runs.times (fun a => ih a (Nat.succ_le_succ hd')) lc
      (n := repCopies child m n)
    rw [← List.append_nil (List.flatMap _ _)]
    exact hrounds.bind .pure
  | approx child k ih =>
    exact LinCtx.enter_runs hd fun hd' _ => ih lc (Nat.succ_le_succ hd')
  | literal | any | charclass | anchor => exact leaf_runs _ lc hd

/-- `linearize_literals` never checks the stack. -/
theorem passes_linearizeCalls (ast : RegexAst) (cap : ℕ) : Passes limit (linearizeCalls ast cap d) := by
  induction ast generalizing cap d with
  | concat l r ihl ihr =>
    rw [linearizeCalls, passes_unchecked, passes_append]
    refine ⟨ihl cap, ?_⟩
    cases linearizeLiterals l cap with
    | none => exact passes_nil
    | some left => exact ihr _
  | _ => exact passes_unchecked.mpr passes_nil

/-- The guarded extraction makes the calls of the unguarded one. -/
theorem extractWalk_runs (s : Settings) (root : RegexAst) (maxCost : ℤ) :
    (extractWalk limit s root maxCost).Runs limit (regexExtractQuery s root maxCost)
      (extractCalls s root maxCost) := by
  unfold extractWalk extractCalls
  split_ifs
  · rw [← List.append_nil (linearizeCalls root spineCap 1)]
    exact (linearizeWalk_runs root spineCap).bind .pure
  · rw [← List.append_nil (linAppendCalls _ root 1 _)]
    exact (linAppendWalk_runs root _ (Nat.le_add_left 1 limit)).bind .pure

end

/-! ## Patterns and their length -/

/-- The pattern has no groups. -/
def GroupFree (enc : Encoding) (pattern : List UInt8) : Prop :=
  ∀ tokens force, Tokenizes enc .index (initTokenizer pattern) tokens force → .lparen ∉ tokens

/-- With this limit no walk over the tree of the pattern comes deeper than the first call that fails
its check of the stack, and a pattern without groups raises no such error. -/
def DepthSafe (limit : ℕ) (enc : Encoding) (s : Settings) (pattern : List UInt8) (maxCost : ℤ) :
    Prop :=
  ∀ root force, treParseRegex enc pattern = .ok (root, force) →
    (extractWalk limit s root maxCost).deepest ≤ limit + 1 ∧
    (GroupFree enc pattern → (extractWalk limit s root maxCost).result ≠ none)

/-- A pattern is safe for a limit if and only if the nodes of its tree that the walk comes to
unchecked, before it comes to a checked one beyond the limit, lie at most one below the limit, and,
where the pattern has no groups, no checked one lies beyond. -/
theorem depthSafe_iff (limit : ℕ) (enc : Encoding) (s : Settings) (pattern : List UInt8)
    (maxCost : ℤ) :
    DepthSafe limit enc s pattern maxCost ↔
      ∀ root force, treParseRegex enc pattern = .ok (root, force) →
        Stays limit (extractCalls s root maxCost) ∧
          (GroupFree enc pattern → Passes limit (extractCalls s root maxCost)) := by
  refine forall_congr' fun root => forall_congr' fun force => forall_congr' fun _ => ?_
  exact (extractWalk_runs s root maxCost).bounded_iff

section

variable {enc : Encoding} {pattern : List UInt8} {fanout limit d : ℕ}

/-- A pattern has one list of tokens. -/
theorem Tokenizes.unique {ts : TokenizerState} {tokens tokens' : List TreToken} {force force' : Bool}
    (h : Tokenizes enc .index ts tokens force) (h' : Tokenizes enc .index ts tokens' force') :
    tokens = tokens' := by
  induction h generalizing tokens' with
  | eof heof =>
    cases h' with
    | eof => rfl
    | token htoken => simp [heof] at htoken
  | token htoken _ ih =>
    cases h' with
    | eof heof => simp [heof] at htoken
    | token htoken' hrest' =>
      rw [htoken, TokenResult.token.injEq] at htoken'
      obtain ⟨rfl, rfl⟩ := htoken'
      rw [ih hrest']

/-- No part of the regular expression of a `LIKE` pattern or a literal is a group. -/
theorem groupFree_of_pieces {pieces : List RegexPiece} {force : Bool}
    (h : Tokenizes enc .index (initTokenizer pattern) (pieces.flatMap RegexPiece.tokens) force) :
    GroupFree enc pattern := by
  intro tokens force' htokens hmem
  rw [← h.unique htokens] at hmem
  obtain ⟨piece, -, hpiece⟩ := List.mem_flatMap.mp hmem
  cases piece <;> simp [RegexPiece.tokens] at hpiece

/-- The exact walk comes to a part without further calls. -/
theorem RegexPiece.linAppendCalls_ast (piece : RegexPiece) (lc : LinCtx) :
    linAppendCalls fanout piece.ast d lc = if lc.acc.overflowed = true then [] else [.checked d] := by
  cases piece with
  | anyString => simp [RegexPiece.ast, linAppendCalls]
  | _ => rfl

/-- The last part is the right side of the outermost concatenation. -/
theorem joinPieces_append (root : RegexAst) (pieces : List RegexPiece) (piece : RegexPiece) :
    joinPieces root (pieces ++ [piece]) = .concat (joinPieces root pieces) piece.ast := by
  rw [joinPieces, List.foldl_append]
  rfl

/-- The first of several parts is the deepest, and the exact walk comes to it before any other. -/
theorem passes_joinPieces (first : RegexPiece) (pieces : List RegexPiece) {lc : LinCtx}
    (hover : lc.acc.overflowed = false) :
    Passes limit (linAppendCalls fanout (joinPieces first.ast pieces) d lc) ↔
      d + pieces.length ≤ limit := by
  induction pieces using List.reverseRecOn generalizing d with
  | nil => simp [joinPieces, first.linAppendCalls_ast, hover]
  | append_singleton pieces piece ih =>
    rw [joinPieces_append, linAppendCalls, hover, if_neg Bool.false_ne_true, passes_checked,
      passes_append, ih, piece.linAppendCalls_ast, List.length_append, List.length_singleton]
    constructor
    · rintro ⟨-, hfirst, -⟩
      omega
    · intro hlen
      refine ⟨by omega, by omega, ?_⟩
      split_ifs
      · exact passes_nil
      · exact passes_checked.mpr ⟨by omega, passes_nil⟩

/-- The exact walk makes no unchecked call on the parts. -/
theorem stays_joinPieces (first : RegexPiece) (pieces : List RegexPiece) (lc : LinCtx) :
    Stays limit (linAppendCalls fanout (joinPieces first.ast pieces) d lc) := by
  have hpiece (piece : RegexPiece) (d : ℕ) (lc : LinCtx) :
      Stays limit (linAppendCalls fanout piece.ast d lc) := by
    rw [piece.linAppendCalls_ast]
    split_ifs <;> simp
  induction pieces using List.reverseRecOn generalizing d with
  | nil => exact hpiece first d lc
  | append_singleton pieces piece ih =>
    rw [joinPieces_append, linAppendCalls]
    split_ifs
    · exact stays_nil
    · exact stays_checked.mpr fun _ => stays_append.mpr ⟨ih, fun _ => hpiece piece _ _⟩

/-- A pattern of parts is safe without a budget exactly when it has no more parts than the limit. -/
theorem depthSafe_pieces_iff {first : RegexPiece} {pieces : List RegexPiece} (s : Settings)
    (htokens : Tokenizes enc .index (initTokenizer pattern)
      ((first :: pieces).flatMap RegexPiece.tokens) false) :
    DepthSafe limit enc s pattern 0 ↔ (first :: pieces).length ≤ limit := by
  have hfree := groupFree_of_pieces htokens
  have hparse : treParseRegex enc pattern = .ok (joinPieces first.ast pieces, false) :=
    parseRegex_eq_ok_iff.mpr ⟨_, htokens, .branch (derives_joinPieces (.single first.derives) pieces)⟩
  have hcalls : extractCalls s (joinPieces first.ast pieces) 0 =
      linAppendCalls s.maxExtractionFanout (joinPieces first.ast pieces) 1 ⟨[], .init, 0⟩ := by
    rw [extractCalls, if_neg (lt_irrefl 0)]
  have hpasses := @passes_joinPieces s.maxExtractionFanout limit 1 first pieces ⟨[], .init, 0⟩ rfl
  have hstays := @stays_joinPieces s.maxExtractionFanout limit 1 first pieces ⟨[], .init, 0⟩
  rw [depthSafe_iff]
  simp only [hparse, Except.ok.injEq, Prod.mk.injEq, and_imp]
  constructor
  · intro hsafe
    have hpass := (hsafe _ _ rfl rfl).2 hfree
    rw [hcalls, hpasses] at hpass
    rw [List.length_cons]
    omega
  · rintro hlen _ _ rfl rfl
    rw [List.length_cons] at hlen
    rw [hcalls]
    exact ⟨hstays, fun _ => hpasses.mpr (by omega)⟩

end

/-- The right-hand side of `=` is safe for a limit exactly when its characters and the two anchors
are no more than the limit. -/
theorem depthSafe_literalToRegex_iff {enc : Encoding} (hhigh : enc.HighCodes) (s : Settings)
    {bytes : List UInt8} {cs : List CodePoint} (hdecodes : enc.Decodes bytes cs) (limit : ℕ) :
    DepthSafe limit enc s (literalToRegex bytes) 0 ↔ cs.length + 2 ≤ limit := by
  have hlength : (RegexPiece.start :: literalPieces cs).length = cs.length + 2 := by
    rw [literalPieces, List.length_cons, List.length_append, List.length_map]
    rfl
  rw [← hlength]
  exact depthSafe_pieces_iff s (tokenizes_literalToRegex hhigh hdecodes)

/-- A `LIKE` pattern that is not empty is safe for a limit exactly when its parts are no more than
the limit. -/
theorem depthSafe_likeToRegex_iff {enc : Encoding} (hhigh : enc.HighCodes) (s : Settings)
    {bytes : List UInt8} {cs : List CodePoint} (hdecodes : enc.Decodes bytes cs) (hne : cs ≠ [])
    (limit : ℕ) :
    DepthSafe limit enc s (likeToRegex (byte '\\') bytes) 0 ↔ (likePieces cs).length ≤ limit := by
  have htokens := @tokenizes_likeToRegex enc .index bytes cs hhigh hdecodes
  cases hpieces : likePieces cs with
  | nil => exact absurd (likePieces_eq_nil_iff.mp hpieces) hne
  | cons first pieces =>
    rw [hpieces] at htokens
    exact depthSafe_pieces_iff s htokens

/-! ## Deeper than the limit -/

/-- A literal longer than the limit has no groups, and its extraction fails. -/
theorem extractWalk_literal_fails {enc : Encoding} (hhigh : enc.HighCodes) (s : Settings)
    {bytes : List UInt8} {cs : List CodePoint} (hdecodes : enc.Decodes bytes cs) {limit : ℕ}
    (hlong : limit < cs.length + 2) :
    GroupFree enc (literalToRegex bytes) ∧
      ∃ root, treParseRegex enc (literalToRegex bytes) = .ok (root, false) ∧
        (extractWalk limit s root 0).result = none := by
  have htokens := @tokenizes_literalToRegex enc .index bytes cs hhigh hdecodes
  have hderives := derives_joinPieces (.single RegexPiece.start.derives) (literalPieces cs)
  refine ⟨@groupFree_of_pieces enc _ (.start :: literalPieces cs) false htokens, _,
    parseRegex_eq_ok_iff.mpr ⟨_, htokens, .branch hderives⟩, ?_⟩
  refine (extractWalk_runs s _ 0).fails fun hpass => ?_
  rw [extractCalls, if_neg (lt_irrefl 0), passes_joinPieces .start (literalPieces cs) rfl] at hpass
  simp only [literalPieces, List.length_append, List.length_map, List.length_singleton] at hpass
  omega

/-- With a limit of 2 and a budget of 1 the walk over `aaaa` comes to depth 4 without an error. Without
a budget the walk over `(aaaaaaaa){3}` comes to depth 9 before the error. And whatever the limit is,
the extraction for `=` fails on some literal. -/
theorem not_depthSafe :
    (∃ root, treParseRegex latin1 ("aaaa".toList.map byte) = .ok (root, false) ∧
      (extractWalk 2 ⟨4096, 1⟩ root 1).result ≠ none ∧
      (extractWalk 2 ⟨4096, 1⟩ root 1).deepest = 4) ∧
    ¬ DepthSafe 2 latin1 ⟨4096, 1⟩ ("aaaa".toList.map byte) 1 ∧
    (∃ root, treParseRegex latin1 ("(aaaaaaaa){3}".toList.map byte) = .ok (root, false) ∧
      (extractWalk 2 ⟨4096, 1⟩ root 0).deepest = 9) ∧
    ¬ DepthSafe 2 latin1 ⟨4096, 1⟩ ("(aaaaaaaa){3}".toList.map byte) 0 ∧
    ∀ limit : ℕ, GroupFree latin1 (literalToRegex (List.replicate limit 97)) ∧
      ∃ root, treParseRegex latin1 (literalToRegex (List.replicate limit 97)) = .ok (root, false) ∧
        (extractWalk limit ⟨4096, 1⟩ root 0).result = none := by
  have hparse : treParseRegex latin1 ("aaaa".toList.map byte) =
      .ok ((RegexAst.literal 97).followedBy [97, 97, 97], false) := by rfl
  have hresult : (extractWalk 2 ⟨4096, 1⟩ ((RegexAst.literal 97).followedBy [97, 97, 97]) 1).result ≠
      none := by
    rw [(extractWalk_runs _ _ _).returns (passes_linearizeCalls _ _)]
    exact Option.some_ne_none _
  have hdeepest : (extractWalk 2 ⟨4096, 1⟩
      ((RegexAst.literal 97).followedBy [97, 97, 97]) 1).deepest = 4 := by rfl
  have hparse' : treParseRegex latin1 ("(aaaaaaaa){3}".toList.map byte) =
      .ok (.rep ((RegexAst.literal 97).followedBy (List.replicate 7 97)) 3 (some 3), false) := by rfl
  have hdeepest' : (extractWalk 2 ⟨4096, 1⟩
      (.rep ((RegexAst.literal 97).followedBy (List.replicate 7 97)) 3 (some 3)) 0).deepest =
        9 := by rfl
  refine ⟨⟨_, hparse, hresult, hdeepest⟩, fun hsafe => ?_, ⟨_, hparse', hdeepest'⟩, fun hsafe => ?_,
    fun limit => ?_⟩
  · have hbound := (hsafe _ _ hparse).1
    rw [hdeepest] at hbound
    omega
  · have hbound := (hsafe _ _ hparse').1
    rw [hdeepest'] at hbound
    omega
  · have hhigh : latin1.HighCodes := by
      intro b rest c rest' hb hdecode
      obtain ⟨rfl, -⟩ := Prod.mk.inj (Option.some.inj hdecode)
      exact Nat.not_lt.mp hb
    have hdecodes : ∀ n, latin1.Decodes (List.replicate n 97) (List.replicate n 97) := by
      intro n
      induction n with
      | zero => exact .nil
      | succ n ih => exact .char rfl ih
    exact extractWalk_literal_fails hhigh ⟨4096, 1⟩ (hdecodes limit) (by simp)

end PgTre
