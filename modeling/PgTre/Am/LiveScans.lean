import PgTre.Am.LiveFilter
import PgTre.Am.Rescan
import PgTre.Query.LikeSound

/-!
# The scans of a live table

A scan comes to a row if the SuRF does not reject it and the TID of the row is one of the candidates. It
comes to every row that the operator of its key accepts, whatever has happened to the table since the
build. The two readings of a bracket are those of the engines that recheck the rows.
-/

namespace PgTre

open Strings

/-! ## Candidates -/

/-- A scan for the query comes to the row: the SuRF does not reject the scan, and all pages are read, or
the TID of the row is one of the candidates. -/
def FilteredTable.ComesTo (w : FilteredTable) (crackOnRead : Bool) (q : TrigramQuery)
    (row : TableRow) : Prop :=
  w.surfPrefilterRejects q = false ∧ (q.alwaysTrue = true ∨ ∃ sm packed,
    treComputeCandidateSmCracked crackOnRead w.idx q = some (.ok (sm, false)) ∧
      packTid w.idx.tidPacking row.tid = .ok packed ∧ packed ∈ smMembers sm)

section

variable {enc : ServerEncoding} {w : IndexedTable} {row : TableRow} {bytes : List UInt8}
  {text : List CodePoint} {q : TrigramQuery}

/-- All trigrams of a row are found with its TID. -/
theorem ScanIndex.HasRow.finds {idx : ScanIndex} (hrow : idx.HasRow enc row)
    (hvalue : row.value = some bytes) (htext : enc.Spells bytes text) {h₀ : UInt64}
    (hsome : HasTrigram text h₀) : ∃ packed,
      packTid idx.tidPacking row.tid = .ok packed ∧ ∀ h, HasTrigram text h → idx.Finds h packed := by
  obtain ⟨t₀, ht₀, -⟩ := hsome
  obtain ⟨packed, hpack, -⟩ := hrow t₀ ⟨bytes, text, hvalue, htext, ht₀⟩
  refine ⟨packed, hpack, ?_⟩
  rintro h ⟨t, ht, rfl⟩
  obtain ⟨packed', hpack', hfinds⟩ := hrow t ⟨bytes, text, hvalue, htext, ht⟩
  rw [hpack] at hpack'
  obtain rfl := Except.ok.inj hpack'
  exact hfinds

/-- A row whose text satisfies the query is a candidate, if not all pages are read. -/
theorem IndexedTable.Inv.candidate (hw : w.Inv enc) (crackOnRead : Bool) (hrow : row ∈ w.rows)
    (hvalue : row.value = some bytes) (htext : enc.Spells bytes text) (hsatisfied : q.SatisfiedBy text)
    (hproper : q.alwaysTrue = false → q.Proper) (hdnf : q.mode ≠ .dnf)
    (hsteady : q.mode = .pieces → ¬w.idx.Stumbles q.conjuncts) :
    q.alwaysTrue = true ∨ ∃ sm packed,
      treComputeCandidateSmCracked crackOnRead w.idx q = some (.ok (sm, false)) ∧
        packTid w.idx.tidPacking row.tid = .ok packed ∧ packed ∈ smMembers sm := by
  cases htrue : q.alwaysTrue with
  | true => exact Or.inl rfl
  | false =>
    right
    have hproper := hproper htrue
    have hasks : q.mode.Asks q.conjuncts text := by
      rcases hsatisfied with hgive | hasks
      · rw [htrue] at hgive
        cases hgive
      · exact hasks
    rw [treComputeCandidateSmCracked_eq]
    cases hmode : q.mode with
    | cnf =>
      rw [hmode] at hasks
      obtain ⟨first, hfirst⟩ := List.exists_mem_of_ne_nil _ (hproper.conjuncts hmode)
      obtain ⟨a, -, hsome⟩ := hasks first hfirst
      obtain ⟨packed, hpack, hfinds⟩ := (hw.rows row hrow).finds hvalue htext hsome
      obtain ⟨sm, hsm, hmem⟩ := treComputeCandidateSm_cnf hw.ranges hmode htrue hproper
      refine ⟨sm, packed, by rw [hsm], hpack, (hmem packed).mpr fun conj hconj => ?_⟩
      obtain ⟨a, ha, htrigram⟩ := hasks conj hconj
      exact ⟨a, ha, hfinds _ htrigram⟩
    | dnf => exact absurd hmode hdnf
    | pieces =>
      rw [hmode] at hasks
      obtain ⟨piece, hpiece, htrigrams⟩ := hasks
      obtain ⟨a, ha⟩ := List.exists_mem_of_ne_nil _ (hproper.pieces hmode piece hpiece)
      obtain ⟨packed, hpack, hfinds⟩ := (hw.rows row hrow).finds hvalue htext (htrigrams a ha)
      rcases treComputeCandidateSm_pieces hw.ranges hmode htrue hproper with
        ⟨hstumbles, -⟩ | ⟨-, sm, hsm, hmem⟩
      · exact absurd hstumbles (hsteady hmode)
      · refine ⟨sm, packed, by rw [hsm], hpack, (hmem packed).mpr ⟨piece, hpiece, fun a ha => ?_⟩⟩
        exact hfinds _ (htrigrams a ha)

end

/-! ## Exact operators -/

section

variable {penc : Encoding} {s : Settings} {text : List CodePoint}

/-- The exact extraction does not fail. -/
theorem exists_exactQuery (s : Settings) (root : RegexAst) :
    ∃ q, regexExtractQuery s root 0 = .ok q := by
  unfold regexExtractQuery
  rw [if_neg (lt_irrefl 0)]
  dsimp only
  split
  · exact ⟨_, rfl⟩
  · exact ⟨_, rfl⟩

/-- The query that a scan makes of a regular expression without an edit budget lets every text through
that the tree of the expression matches. -/
theorem exists_query {strategy : Strategy} {a : strategy.Argument penc} {root : RegexAst}
    (hpattern : (strategy.pattern a).2 = 0) (hcase : strategy.ignoresCase = false)
    (hparse : treParseRegex penc (strategy.pattern a).1 = .ok (root, false))
    (hzero : root.budgetsZero = true)
    (hreps : root.expandsToPieces = true → root.classRepsInlined = true)
    (hkeeps : root.keepsPrefix 0 (.running false []) = true) :
    ∃ q, strategy.query s a = .ok q ∧ (q.alwaysTrue = false → q.Proper) ∧ q.mode ≠ .dnf ∧
      ∀ text, root.OccursIn text → q.SatisfiedBy text ∧ ∀ lo hi, q.surfRange = some (lo, hi) →
        lo = hi ∧ ∃ t ∈ windows text, trigramKeyCp t = lo := by
  obtain ⟨q, hq⟩ := exists_exactQuery s root
  refine ⟨q, ?_, fun htrue => regexExtractQuery_proper hq htrue, mode_ne_dnf hq, fun text hoccurs => ?_⟩
  · unfold Strategy.query
    rw [hparse]
    dsimp only
    rw [hpattern, hq, hcase]
    rfl
  · refine ⟨Or.inr ?_, fun lo hi hrange => surfRange_trigram hq hrange hkeeps hoccurs⟩
    cases hmode : q.mode with
    | cnf => exact cnf_met_of_budgetsZero hzero hoccurs hq hmode
    | dnf => exact absurd hmode (mode_ne_dnf hq)
    | pieces =>
      have hinlined := hreps (expandsToPieces_of_mode hq hmode)
      exact pieces_met_of_budgetsZero hzero hinlined hoccurs hq hmode

/-- Parts that match a text are read as a tree that matches it. -/
theorem exists_tree_of_pieces {regex : List UInt8} {first : RegexPiece} {pieces : List RegexPiece}
    (htokens : Tokenizes penc .index (initTokenizer regex)
      (first.tokens ++ pieces.flatMap RegexPiece.tokens) false)
    (hmatch : PiecesMatch (first :: pieces) [] text [])
    (hkeeps : (joinPieces first.ast pieces).keepsPrefix 0 (.running false []) = true) :
    ∃ root, treParseRegex penc regex = .ok (root, false) ∧ root.Simple ∧
      root.keepsPrefix 0 (.running false []) = true ∧ root.OccursIn text := by
  have hderives := derives_joinPieces (.single first.derives) pieces
  obtain ⟨u, v, rfl, hfirst, hrest⟩ := hmatch
  refine ⟨_, parseRegex_eq_ok_iff.mpr ⟨_, htokens, .branch hderives⟩,
    simple_joinPieces first.simple pieces, hkeeps, [], u ++ v, [], by simp, ?_⟩
  exact matches_joinPieces hfirst hrest

/-- The query of an expression that is rejected has no trigrams. -/
theorem query_of_syntaxError {strategy : Strategy} {a : strategy.Argument penc} {errmsg : Option String}
    (hparse : treParseRegex penc (strategy.pattern a).1 = .error (.syntaxError errmsg)) :
    ∃ q, strategy.query s a = .ok q ∧ q.alwaysTrue = true := by
  unfold Strategy.query
  rw [hparse]
  exact ⟨_, rfl, rfl⟩

end

section

variable {enc : ServerEncoding} {penc : Encoding} {w : FilteredTable} {row : TableRow}
  {bytes : List UInt8} {text : List CodePoint}

/-- A scan for an operator comes to a row. A query of pieces may fail on postings that a vacuum has
emptied. -/
def FilteredTable.Serves (w : FilteredTable) (s : Settings) (crackOnRead : Bool) (row : TableRow)
    (strategy : Strategy) (a : strategy.Argument penc) : Prop :=
  ∃ q, strategy.query s a = .ok q ∧
    ((q.mode = .pieces → ¬w.idx.Stumbles q.conjuncts) → w.ComesTo crackOnRead q row)

/-- A scan comes to a row whose text the tree of the expression matches. -/
theorem FilteredReachable.serves (hw : FilteredReachable enc w) (s : Settings) (crackOnRead : Bool)
    (hrow : row ∈ w.rows) (hvalue : row.value = some bytes) (htext : enc.Spells bytes text)
    (hapart : w.HashesApart enc row) {strategy : Strategy} {a : strategy.Argument penc}
    {root : RegexAst} (hpattern : (strategy.pattern a).2 = 0) (hcase : strategy.ignoresCase = false)
    (hparse : treParseRegex penc (strategy.pattern a).1 = .ok (root, false))
    (hzero : root.budgetsZero = true)
    (hreps : root.expandsToPieces = true → root.classRepsInlined = true)
    (hkeeps : root.keepsPrefix 0 (.running false []) = true) (hoccurs : root.OccursIn text) :
    w.Serves s crackOnRead row strategy a := by
  obtain ⟨q, hq, hproper, hdnf, hadmits⟩ := @exists_query penc s strategy a root hpattern hcase
    hparse hzero hreps hkeeps
  obtain ⟨hsatisfied, hrange⟩ := hadmits text hoccurs
  have hinv := hw.table.inv
  refine ⟨q, hq, fun hsteady => ⟨?_, hinv.candidate crackOnRead hrow hvalue htext hsatisfied hproper
    hdnf hsteady⟩⟩
  apply hw.flagSound.not_rejected (hinv.rows row hrow) hapart
  intro lo hi hsome
  obtain ⟨hsame, t, ht, hkey⟩ := hrange lo hi hsome
  exact ⟨hsame, t, ⟨bytes, text, hvalue, htext, ht⟩, hkey⟩

/-- A scan comes to every row if the parser rejects the expression. -/
theorem FilteredTable.serves_of_syntaxError (w : FilteredTable) (s : Settings) (crackOnRead : Bool)
    (row : TableRow) {strategy : Strategy} {a : strategy.Argument penc} {errmsg : Option String}
    (hparse : treParseRegex penc (strategy.pattern a).1 = .error (.syntaxError errmsg)) :
    w.Serves s crackOnRead row strategy a := by
  obtain ⟨q, hq, htrue⟩ := @query_of_syntaxError penc s strategy a errmsg hparse
  refine ⟨q, hq, fun _ => ⟨?_, Or.inl htrue⟩⟩
  unfold FilteredTable.surfPrefilterRejects
  split
  · rfl
  · rw [if_pos htrue]

end

/-! ## A run -/

/-- Rows `git` and `abc` at the build, and a second row `git`. -/
def abcTableRow : TableRow := ⟨⟨0, 2, zero_lt_blkid, two_lt_posid⟩, some [97, 98, 99]⟩
def gitAgainRow : TableRow := ⟨⟨0, 3, zero_lt_blkid, three_lt_posid⟩, some [103, 105, 116]⟩

/-- The three bytes spell the text `abc`. -/
theorem abcTable_text : latin1Encoding.Spells [97, 98, 99] [97, 98, 99] := by
  refine @ServerEncoding.Spells.char latin1Encoding _ 1 97 _ rfl ?_
  refine @ServerEncoding.Spells.char latin1Encoding _ 1 98 _ rfl ?_
  exact @ServerEncoding.Spells.char latin1Encoding _ 1 99 _ rfl .nil

/-- Latin-1 decodes the high bytes to their own code points. -/
theorem latin1_highCodes : latin1.HighCodes := by
  intro b rest c rest' hb hdecode
  obtain ⟨rfl, -⟩ := Prod.mk.inj (Option.some.inj hdecode)
  exact Nat.not_lt.mp hb

/-- The entry of the second row `git`. -/
def gitAgainEntry : InsertEntry :=
  ⟨hashTrigramCp (103, 105, 116), ⟨0, 3, zero_lt_blkid, three_lt_posid⟩, 0⟩

/-- The rows `git` and `abc` are built, a second row `git` is inserted and merged into the base
tree, and the row `abc` is deleted. The SuRF stays complete. -/
theorem gitTable_filtered : ∃ w, FilteredReachable latin1Encoding w ∧ gitTableRow ∈ w.rows ∧
    w.HashesApart latin1Encoding gitTableRow ∧ w.surf ≠ none ∧ w.surfComplete = true ∧
    w.idx.pending = [] := by
  have hscan : scanTable latin1Encoding 0 [gitTableRow, abcTableRow] = .ok ⟨2,
      [⟨hashTrigramCp (103, 105, 116), 1, trigramKeyCp (103, 105, 116)⟩,
        ⟨hashTrigramCp (97, 98, 99), 2, trigramKeyCp (97, 98, 99)⟩]⟩ := rfl
  obtain ⟨tree, hbuild⟩ := exists_ambuild hscan
  obtain ⟨s, hsurf⟩ := exists_buildSurf hscan (List.cons_ne_nil _ _) (by decide)
  let w₀ := FilteredTable.initial (builtIndex .legacy tree 2) [gitTableRow, abcTableRow] (some s)
  have hinv : w₀.toIndexedTable.Inv latin1Encoding :=
    (FilteredReachable.table ⟨_, _, _, _, _, hbuild, hsurf, .refl⟩).inv
  -- The base tree has the hash of the second row.
  have hadds : addsTrigram (w₀.idx.treeAt w₀.idx.rootUpper) false
      (collectPending [⟨hashTrigramCp (103, 105, 116), 3, 0⟩]) = false := by
    refine addsTrigram_of_baseHas fun e he => ?_
    obtain rfl := List.mem_singleton.mp he
    obtain ⟨packed, -, hfinds⟩ := hinv.rows gitTableRow List.mem_cons_self (103, 105, 116)
      ((TableRow.hasTrigram_iff rfl gitTable_text).mpr (by decide))
    rcases hfinds with hholds | ⟨e, he, -⟩
    · rcases RunIndex.holds_iff.mp hholds with hbase | ⟨run, hrun, -⟩
      · exact hash_mem_of_mem_postings hbase
      · exact absurd hrun nofun
    · exact absurd he List.not_mem_nil
  have hrun := Relation.ReflTransGen.refl (r := FilteredStep latin1Encoding) (a := w₀)
  have hbegun := hrun.tail (.rows _ _ []
    (.begin_insert _ gitAgainRow [[gitAgainEntry]] true rfl) rfl (List.append_nil _).symm)
  have happended := hbegun.tail (.rows _ _ [⟨hashTrigramCp (103, 105, 116), 3, 0⟩]
    (.append _ [] [] gitAgainRow [gitAgainEntry] [] [] [⟨hashTrigramCp (103, 105, 116), 3, 0⟩] rfl rfl)
    rfl rfl)
  have hended := happended.tail (.rows _ _ [] (.end_insert _ [] [] gitAgainRow rfl) rfl
    (List.append_nil _).symm)
  have hmerged := hended.tail (.merge _ false _ [] (List.append_nil _).symm (Nat.zero_le _))
  have hdeleted := hmerged.tail (.rows _ _ []
    (.delete _ [gitTableRow, gitAgainRow] (by simp [w₀, FilteredTable.initial])) rfl
    (List.append_nil _).symm)
  refine ⟨_, ⟨_, _, _, _, _, hbuild, hsurf, hdeleted⟩, List.mem_cons_self, ?_, nofun, ?_, rfl⟩
  · intro t t' ht ht' hhash
    rw [TableRow.hasTrigram_iff rfl gitTable_text] at ht
    obtain rfl := List.mem_singleton.mp ht
    obtain ⟨row, hrow, hhas⟩ := ht'
    rcases List.mem_pair.mp hrow with rfl | rfl
    · rw [TableRow.hasTrigram_iff rfl gitTable_text] at hhas
      exact List.mem_singleton.mp hhas
    · rw [TableRow.hasTrigram_iff rfl abcTable_text] at hhas
      obtain rfl := List.mem_singleton.mp hhas
      exact absurd hhash (by decide)
  · exact congrArg (fun adds => true && !adds) hadds

/-! ## Operators -/

section

variable {enc : ServerEncoding} {penc : Encoding} {w : FilteredTable} {row : TableRow}
  {bytes : List UInt8} {text : List CodePoint}

/-- A scan for `LIKE` comes to every row whose text the pattern matches, and a scan for `=` to every
row with the text, if no trigram of the row has the hash of another trigram that the build saw. -/
theorem tableReachable_serves_like_equal (hw : FilteredReachable enc w) (hrow : row ∈ w.rows)
    (hvalue : row.value = some bytes) (htext : enc.Spells bytes text) (hapart : w.HashesApart enc row)
    (hhigh : penc.HighCodes) (s : Settings) (crackOnRead : Bool) (a : TextDatum penc)
    (cs : List CodePoint) (hdecodes : penc.Decodes a.bytes cs) :
    (LikeMatches cs text → w.Serves s crackOnRead row .like a) ∧
      (cs = text → w.Serves s crackOnRead row .equal a) := by
  constructor
  · intro hlike
    have htokens := @tokenizes_likeToRegex penc .index a.bytes cs hhigh hdecodes
    have hmatch := hlike.pieces []
    cases hpieces : likePieces cs with
    | nil =>
      -- The empty pattern makes the empty expression, which the parser rejects.
      obtain rfl := likePieces_eq_nil_iff.mp hpieces
      have hnil : a.bytes = [] := by
        generalize a.bytes = b at hdecodes
        cases hdecodes
        rfl
      have hparse : ∃ errmsg, treParseRegex penc (likeToRegex (byte '\\') a.bytes) =
          .error (.syntaxError errmsg) := by
        rw [hnil]
        exact ⟨_, rfl⟩
      obtain ⟨errmsg, hparse⟩ := hparse
      exact @FilteredTable.serves_of_syntaxError penc w s crackOnRead row .like a errmsg hparse
    | cons first pieces =>
      rw [hpieces] at htokens hmatch
      obtain ⟨root, hparse, hsimple, hkeeps, hoccurs⟩ :=
        exists_tree_of_pieces htokens hmatch (keepsPrefix_likePieces hpieces)
      exact @FilteredReachable.serves enc penc w row bytes text hw s crackOnRead hrow hvalue htext
        hapart .like a root rfl rfl hparse hsimple.budgets (fun _ => hsimple.noChoice) hkeeps hoccurs
  · rintro rfl
    have htokens := @tokenizes_literalToRegex penc .index a.bytes cs hhigh hdecodes
    have hmatch : PiecesMatch (.start :: literalPieces cs) [] cs [] :=
      ⟨[], cs, rfl, ⟨rfl, rfl⟩, literalPieces_match [] cs⟩
    obtain ⟨root, hparse, hsimple, hkeeps, hoccurs⟩ := @exists_tree_of_pieces penc cs _ .start
      (literalPieces cs) htokens hmatch (keepsPrefix_literalPieces cs)
    exact @FilteredReachable.serves enc penc w row bytes cs hw s crackOnRead hrow hvalue htext hapart
      .equal a root rfl rfl hparse hsimple.budgets (fun _ => hsimple.noChoice) hkeeps hoccurs

/-- `LIKE '%git%'`, and `= 'git'`. -/
theorem tableReachable_serves_like_equal_git : ∃ w, FilteredReachable latin1Encoding w ∧
    gitTableRow ∈ w.rows ∧ w.surf ≠ none ∧ w.surfComplete = true ∧ w.idx.pending = [] ∧
    w.Serves ⟨256, 4⟩ true gitTableRow .like likeGit ∧
    w.Serves ⟨256, 4⟩ true gitTableRow .equal gitText := by
  obtain ⟨w, hw, hrow, hapart, hsurf, hcomplete, hempty⟩ := gitTable_filtered
  have hlike : LikeMatches [37, 103, 105, 116, 37] [103, 105, 116] :=
    .percent [] (.char 103 (by decide) (.char 105 (by decide) (.char 116 (by decide)
      (.percent [] .nil))))
  refine ⟨w, hw, hrow, hsurf, hcomplete, hempty, ?_, ?_⟩
  · exact (tableReachable_serves_like_equal hw hrow rfl gitTable_text hapart latin1_highCodes ⟨256, 4⟩
      true likeGit [37, 103, 105, 116, 37]
      (.char rfl (.char rfl (.char rfl (.char rfl (.char rfl .nil)))))).1 hlike
  · exact (tableReachable_serves_like_equal hw hrow rfl gitTable_text hapart latin1_highCodes ⟨256, 4⟩
      true gitText [103, 105, 116] (.char rfl (.char rfl (.char rfl .nil)))).2 rfl

/-- The engine of the recheck: TRE for `%~~`, the core engine for `~`. -/
def Strategy.engine : Strategy → BracketReading
  | .approxMatch => .posix
  | _ => .core

/-- A scan for `~`, or for `%~~` without an edit budget, comes to every row with a match of the
expression as the engine of the recheck reads it, if no trigram of the row has the hash of another
trigram that the build saw. -/
theorem tableReachable_serves_regex (hw : FilteredReachable enc w) (hrow : row ∈ w.rows)
    (hvalue : row.value = some bytes) (htext : enc.Spells bytes text) (hapart : w.HashesApart enc row)
    (s : Settings) (crackOnRead : Bool) {strategy : Strategy} (a : strategy.Argument penc)
    (hstrategy : strategy = .regex ∨ strategy = .approxMatch) (hbudget : (strategy.pattern a).2 = 0)
    {root engineRoot : RegexAst} {force : Bool}
    (hbrackets : strategy = .approxMatch → bracketsSafe penc (strategy.pattern a).1 = true)
    (hcontrols : strategy = .regex → controlsSafe penc (strategy.pattern a).1 = true)
    (hparse : treParseRegex penc (strategy.pattern a).1 = .ok (root, false))
    (hengine : parseRegex penc strategy.engine (strategy.pattern a).1 = .ok (engineRoot, force))
    (hzero : root.budgetsZero = true)
    (hreps : root.expandsToPieces = true → root.classRepsInlined = true)
    (hkeeps : root.keepsPrefix 0 (.running false []) = true) (hoccurs : engineRoot.OccursIn text) :
    w.Serves s crackOnRead row strategy a := by
  have hcovers : root.Covers engineRoot := by
    rcases hstrategy with rfl | rfl
    · exact @parseRegex_covers penc .core _ _ _ _ _ nofun (fun _ => hcontrols rfl) hparse hengine
    · exact @parseRegex_covers penc .posix _ _ _ _ _ (fun _ => hbrackets rfl) nofun hparse hengine
  have hcase : strategy.ignoresCase = false := by
    rcases hstrategy with rfl | rfl
    · rfl
    · rfl
  exact hw.serves s crackOnRead hrow hvalue htext hapart hbudget hcase hparse hzero hreps hkeeps
    (hcovers.occursIn hoccurs)

/-- `~ '^g[\cZh-j]t'`, where the key of the prefix is not known, and `%~~ '^git'`, where it is. -/
theorem tableReachable_serves_regex_git : ∃ w, FilteredReachable latin1Encoding w ∧
    gitTableRow ∈ w.rows ∧ w.surf ≠ none ∧ w.surfComplete = true ∧ w.idx.pending = [] ∧
    w.Serves ⟨256, 4⟩ false gitTableRow .regex
      (⟨"g[\\cZh-j]t".toList.map byte, latin1_valid _, by decide⟩ : TextDatum latin1) ∧
    w.Serves ⟨256, 4⟩ true gitTableRow .approxMatch
      (⟨⟨"^git".toList.map byte, latin1_valid _, by decide⟩, 0, 1, 1, 1⟩ : TrePatternData latin1) := by
  obtain ⟨w, hw, hrow, hapart, hsurf, hcomplete, hempty⟩ := gitTable_filtered
  refine ⟨w, hw, hrow, hsurf, hcomplete, hempty, ?_, ?_⟩
  · refine @tableReachable_serves_regex latin1Encoding latin1 w gitTableRow _ _ hw hrow rfl
      gitTable_text hapart ⟨256, 4⟩ false .regex _ (Or.inl rfl) rfl _ _ _ nofun (fun _ => rfl) rfl rfl
      (by decide) (by decide) (by decide) ?_
    exact ⟨[], [103, 105, 116], [], rfl, [103, 105], [116], rfl,
      ⟨[103], [105], rfl, rfl, 105, rfl, by decide⟩, rfl⟩
  · refine @tableReachable_serves_regex latin1Encoding latin1 w gitTableRow _ _ hw hrow rfl
      gitTable_text hapart ⟨256, 4⟩ true .approxMatch _ (Or.inr rfl) rfl _ _ _ (fun _ => rfl) nofun rfl
      rfl (by decide) (by decide) (by decide) ?_
    exact ⟨[], [103, 105, 116], [], rfl, [103, 105], [116], rfl,
      ⟨[103], [105], rfl, ⟨[], [103], rfl, ⟨rfl, rfl⟩, rfl⟩, rfl⟩, rfl⟩

end

end PgTre
