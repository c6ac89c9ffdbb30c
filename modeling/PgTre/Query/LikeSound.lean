import PgTre.Query.LikeTranslate
import PgTre.Query.Grammar
import PgTre.Query.BracketReadings
import PgTre.Query.PerPhrase
import PgTre.Query.PrefixKey

/-!
# LIKE and equality through the index

A `LIKE` pattern and the right-hand side of `=` go through two layers of escapes: `src/query/
like_translate.c` writes a regular expression, and the tokenizer reads it. What comes out is one
token for each character, and a dot, starred or not, for each wildcard. So the tree the parser
builds matches every text the operator accepts, and the query extracted from it asks for nothing
such a text does not have.
-/

namespace PgTre

open Strings

/-! ## The operators -/

/-- The characters of the bytes. -/
inductive Encoding.Decodes (enc : Encoding) : List UInt8 → List CodePoint → Prop
  | nil : enc.Decodes [] []
  | char {bytes rest : List UInt8} {c : CodePoint} {cs : List CodePoint}
      (h : enc.nextChar bytes = .char c rest) (hrest : enc.Decodes rest cs) :
      enc.Decodes bytes (c :: cs)

/-- A character of bytes above 127 is not an ASCII one, as the tables of every server encoding have
it. -/
def Encoding.HighCodes (enc : Encoding) : Prop :=
  ∀ b rest c rest', ¬b < 128 → enc.decodeMb b rest = some (c, rest') → 128 ≤ c

/-- `t LIKE p` with a backslash for the escape. A pattern that ends with it accepts nothing. -/
inductive LikeMatches : List CodePoint → List CodePoint → Prop
  | nil : LikeMatches [] []
  | escaped {p t : List CodePoint} (c : CodePoint) (h : LikeMatches p t) :
      LikeMatches (cp '\\' :: c :: p) (c :: t)
  | percent {p t : List CodePoint} (u : List CodePoint) (h : LikeMatches p t) :
      LikeMatches (cp '%' :: p) (u ++ t)
  | underscore {p t : List CodePoint} (c : CodePoint) (h : LikeMatches p t) :
      LikeMatches (cp '_' :: p) (c :: t)
  | char {p t : List CodePoint} (c : CodePoint) (hc : c ∉ [cp '\\', cp '%', cp '_'])
      (h : LikeMatches p t) : LikeMatches (c :: p) (c :: t)

/-! ## What the regular expression consists of -/

/-- A part of the regular expression. -/
inductive RegexPiece where
  | char (c : CodePoint)
  | anyChar
  | anyString
  | start
  | finish

/-- The tokens of a part. -/
def RegexPiece.tokens : RegexPiece → List TreToken
  | char c => [.literal c]
  | anyChar => [.dot]
  | anyString => [.dot, .star]
  | start => [.anchorStart]
  | finish => [.anchorEnd]

/-- Its tree. -/
def RegexPiece.ast : RegexPiece → RegexAst
  | char c => .literal c
  | anyChar => .any
  | anyString => .rep .any 0 none
  | start => .anchor .start
  | finish => .anchor .finish

/-- The parts of the regular expression of a `LIKE` pattern. -/
def likePieces : List CodePoint → List RegexPiece
  | [] => []
  | c :: cs =>
      if c = cp '\\' then
        match cs with
        | [] => [.char c]
        | c' :: cs => .char c' :: likePieces cs
      else if c = cp '%' then .anyString :: likePieces cs
      else if c = cp '_' then .anyChar :: likePieces cs
      else .char c :: likePieces cs

/-- The parts of the regular expression of a literal. -/
def literalPieces (cs : List CodePoint) : List RegexPiece := cs.map .char ++ [.finish]

/-! ## Tokens -/

section

variable {enc : Encoding} {reading : BracketReading} {bytes rest tail : List UInt8} {b : UInt8}
  {c : CodePoint} {cs : List CodePoint} {tokens : List TreToken} {force : Bool}

/-- The characters that are operators outside brackets and braces. -/
def operatorCodes : List CodePoint :=
  [cp '|', cp '*', cp '+', cp '?', cp '(', cp ')', cp '.', cp '^', cp '$', cp '[', cp '{', cp '\\']

/-- Every other character stands for itself. -/
theorem normalToken_literal {ts : TokenizerState} (hc : c ∉ operatorCodes) :
    normalToken enc ts c rest = .token (.literal c) { ts with rest := rest } := by
  simp only [operatorCodes, List.mem_cons, List.not_mem_nil, or_false, not_or] at hc
  simp only [normalToken, hc, if_false]

/-- A token, and then the others. -/
theorem tokenizes_normal {t : TreToken} (hchar : enc.nextChar bytes = .char c rest)
    {rest' : List UInt8}
    (htoken : normalToken enc (initTokenizer bytes) c rest = .token t (initTokenizer rest'))
    (h : Tokenizes enc reading (initTokenizer rest') tokens force) :
    Tokenizes enc reading (initTokenizer bytes) (t :: tokens) force := by
  have hnext : tokenizeNext enc reading (initTokenizer bytes) = .token t (initTokenizer rest') := by
    rw [← htoken, tokenizeNext]
    simp only [initTokenizer, hchar]
  exact .token hnext h

/-- The operators of a pattern are ASCII. -/
theorem operatorCodes_lt : ∀ c ∈ operatorCodes, c < 128 := by decide

/-- The operators are among the bytes that are escaped. -/
theorem mem_metaBytes_of_operator (h : b.toNat ∈ operatorCodes) : b ∈ metaBytes := by
  have hb : UInt8.ofNat b.toNat = b := UInt8.ofNat_toNat
  have hall : ∀ c ∈ operatorCodes, UInt8.ofNat c ∈ metaBytes := by decide
  rw [← hb]
  exact hall _ h

/-- Behind a backslash an escaped byte stands for itself. -/
theorem parseEscape_meta (h : b ∈ metaBytes) :
    parseEscape enc (b :: rest) = .ok (.char b.toNat, rest) := by
  rw [parseEscape, Encoding.nextChar_ascii (metaBytes_ascii b h)]
  simp only [metaBytes, List.mem_cons, List.not_mem_nil, or_false] at h
  rcases h with rfl | rfl | rfl | rfl | rfl | rfl | rfl | rfl | rfl | rfl | rfl | rfl | rfl | rfl
  all_goals rfl

/-- An ASCII character, escaped or not. -/
theorem tokenizes_appendEscaped (hb : b < 128)
    (h : Tokenizes enc reading (initTokenizer rest) tokens force) :
    Tokenizes enc reading (initTokenizer (appendEscaped b ++ rest)) (.literal b.toNat :: tokens)
      force := by
  unfold appendEscaped
  split_ifs with hmeta
  · have hslash : enc.nextChar (byte '\\' :: b :: rest) = .char (cp '\\') (b :: rest) :=
      Encoding.nextChar_ascii (by decide) _
    apply tokenizes_normal hslash _ h
    have hescape := @parseEscape_meta enc rest b hmeta
    simp only [normalToken, hescape]
    rfl
  · apply tokenizes_normal (Encoding.nextChar_ascii hb rest) _ h
    apply normalToken_literal
    intro hoperator
    exact hmeta (mem_metaBytes_of_operator hoperator)

/-- A character of several bytes. -/
theorem tokenizes_high (hchar : enc.nextChar bytes = .char c rest) (hc : 128 ≤ c)
    (h : Tokenizes enc reading (initTokenizer rest) tokens force) :
    Tokenizes enc reading (initTokenizer bytes) (.literal c :: tokens) force := by
  apply tokenizes_normal hchar _ h
  apply normalToken_literal
  intro hoperator
  exact absurd (operatorCodes_lt c hoperator) (Nat.not_lt.mpr hc)

/-- A leading dot is its own token. -/
theorem tokenizes_dot (h : Tokenizes enc reading (initTokenizer rest) tokens force) :
    Tokenizes enc reading (initTokenizer (byte '.' :: rest)) (.dot :: tokens) force :=
  tokenizes_normal (Encoding.nextChar_ascii (by decide) rest) rfl h

/-- A star that no question mark follows. -/
theorem tokenizes_star (hhead : rest.head? ≠ some (byte '?'))
    (h : Tokenizes enc reading (initTokenizer rest) tokens force) :
    Tokenizes enc reading (initTokenizer (byte '*' :: rest)) (.star :: tokens) force := by
  have hlazy : skipLazy rest = rest := by
    cases rest with
    | nil => rfl
    | cons b rest =>
      simp only [List.head?_cons, ne_eq, Option.some.injEq] at hhead
      rw [skipLazy, dropByte, if_neg hhead]
  apply tokenizes_normal (Encoding.nextChar_ascii (by decide) rest) _ h
  have hstar : normalToken enc (initTokenizer (byte '*' :: rest)) (byte '*').toNat rest =
      .token .star (initTokenizer (skipLazy rest)) := rfl
  rw [hstar, hlazy]

/-- An escaped byte never begins with a question mark. -/
theorem appendEscaped_head (b : UInt8) (rest : List UInt8) :
    (appendEscaped b ++ rest).head? ≠ some (byte '?') := by
  unfold appendEscaped
  split_ifs with hmeta
  · simp
  · simp only [List.cons_append, List.head?_cons, ne_eq, Option.some.injEq]
    rintro rfl
    exact hmeta (by decide)

/-- No question mark begins the regular expression of a `LIKE` pattern. -/
theorem likeToRegex_head (escape : UInt8) (bytes : List UInt8) :
    (likeToRegex escape bytes).head? ≠ some (byte '?') := by
  cases bytes with
  | nil => simp [likeToRegex]
  | cons b rest =>
    by_cases hescape : escape ≠ 0 ∧ b = escape
    · obtain ⟨hzero, rfl⟩ := hescape
      cases rest with
      | nil =>
        have hlast : likeToRegex b [b] = appendEscaped b ++ [] := by simp [likeToRegex, hzero]
        rw [hlast]
        exact appendEscaped_head b []
      | cons b' rest =>
        rw [likeToRegex_escape hzero]
        exact appendEscaped_head b' _
    · rw [likeToRegex_plain hescape]
      split_ifs
      · simp
      · simp
      · exact appendEscaped_head b _

/-- The character in front, and how the regular expression spells it. -/
theorem tokenizes_front (hhigh : enc.HighCodes) (hchar : enc.nextChar bytes = .char c rest)
    {rest' : List UInt8} (h : Tokenizes enc reading (initTokenizer rest') tokens force) :
    ∃ b tail, bytes = b :: (tail ++ rest) ∧ (∀ b' ∈ tail, 128 ≤ b') ∧ (b < 128 → c = b.toNat) ∧
      (¬b < 128 → 128 ≤ c) ∧
      Tokenizes enc reading (initTokenizer (appendEscaped b ++ (tail ++ rest')))
        (.literal c :: tokens) force := by
  obtain ⟨b, tail, rfl, hlow, htail⟩ := Encoding.nextChar_eq_char hchar
  by_cases hb : b < 128
  · obtain rfl := hlow hb
    have hcode : c = b.toNat := by
      rw [Encoding.nextChar_ascii hb] at hchar
      exact ((Decoded.char.injEq _ _ _ _).mp hchar).1.symm
    subst hcode
    exact ⟨b, [], rfl, htail, fun _ => rfl, fun h => absurd hb h, tokenizes_appendEscaped hb h⟩
  · rw [Encoding.nextChar, if_neg hb] at hchar
    cases hdecode : enc.decodeMb b (tail ++ rest) with
    | none => simp [hdecode] at hchar
    | some r =>
      obtain ⟨c', rest''⟩ := r
      simp only [hdecode] at hchar
      cases hchar
      have hcode := hhigh b _ c rest hb hdecode
      have hmoved : enc.nextChar (b :: (tail ++ rest')) = .char c rest' := by
        rw [Encoding.nextChar, if_neg hb, enc.apart hdecode rest']
      refine ⟨b, tail, rfl, htail, fun h => absurd h hb, fun _ => hcode, ?_⟩
      rw [appendEscaped_high hb]
      exact tokenizes_high hmoved hcode h

/-- An ASCII character is its byte. -/
theorem bytes_of_ascii_code (hhigh : enc.HighCodes) (hchar : enc.nextChar bytes = .char c rest)
    (hc : c < 128) : bytes = UInt8.ofNat c :: rest := by
  obtain ⟨b, tail, rfl, hlow, -⟩ := Encoding.nextChar_eq_char hchar
  by_cases hb : b < 128
  · obtain rfl := hlow hb
    rw [Encoding.nextChar_ascii hb] at hchar
    cases hchar
    rw [UInt8.ofNat_toNat]
    rfl
  · rw [Encoding.nextChar, if_neg hb] at hchar
    cases hdecode : enc.decodeMb b (tail ++ rest) with
    | none => simp [hdecode] at hchar
    | some r =>
      obtain ⟨c', rest''⟩ := r
      simp only [hdecode] at hchar
      cases hchar
      exact absurd hc (Nat.not_lt.mpr (hhigh b _ c rest hb hdecode))

/-- A plain character is a piece of its own. -/
theorem likePieces_plain (hc : c ∉ [cp '\\', cp '%', cp '_']) :
    likePieces (c :: cs) = .char c :: likePieces cs := by
  simp only [List.mem_cons, List.not_mem_nil, or_false, not_or] at hc
  rw [likePieces.eq_def]
  simp only [hc, if_false]

/-- A percent sign is any string. -/
theorem likePieces_percent : likePieces (cp '%' :: cs) = .anyString :: likePieces cs := by
  rw [likePieces.eq_def]
  rfl

/-- An underscore is any character. -/
theorem likePieces_underscore : likePieces (cp '_' :: cs) = .anyChar :: likePieces cs := by
  rw [likePieces.eq_def]
  rfl

/-- A percent sign is translated to `.*`. -/
theorem likeToRegex_percent :
    likeToRegex (byte '\\') (byte '%' :: rest) =
      byte '.' :: byte '*' :: likeToRegex (byte '\\') rest := by
  rw [likeToRegex_plain (by decide), if_pos rfl]

/-- An underscore is translated to a dot. -/
theorem likeToRegex_underscore :
    likeToRegex (byte '\\') (byte '_' :: rest) = byte '.' :: likeToRegex (byte '\\') rest := by
  rw [likeToRegex_plain (by decide), if_neg (by decide), if_pos rfl]

/-- A character that is no wildcard is copied, with a backslash or without. -/
theorem likeToRegex_char (hlow : b < 128 → c = b.toNat) (htail : ∀ b' ∈ tail, 128 ≤ b')
    (hc : c ∉ [cp '\\', cp '%', cp '_']) :
    likeToRegex (byte '\\') (b :: (tail ++ rest)) =
      appendEscaped b ++ (tail ++ likeToRegex (byte '\\') rest) := by
  have hne : ∀ x : UInt8, x < 128 → x.toNat ∈ [cp '\\', cp '%', cp '_'] → b ≠ x := by
    intro x hx hmem heq
    subst heq
    rw [hlow hx] at hc
    exact hc hmem
  rw [likeToRegex_plain fun h => hne _ (by decide) (by decide) h.2,
    if_neg (hne _ (by decide) (by decide)), if_neg (hne _ (by decide) (by decide)),
    likeToRegex_high (by decide) htail]

/-- The regular expression of a `LIKE` pattern has the tokens of its parts. -/
theorem tokenizes_likeToRegex (hhigh : enc.HighCodes) (h : enc.Decodes bytes cs) :
    Tokenizes enc reading (initTokenizer (likeToRegex (byte '\\') bytes))
      ((likePieces cs).flatMap RegexPiece.tokens) false := by
  have hslash : (byte '\\' : UInt8) ≠ 0 := by decide
  induction hn : bytes.length using Nat.strong_induction_on generalizing bytes cs with
  | _ n ih =>
    subst hn
    cases h with
    | nil => exact .eof rfl
    | @char bytes rest c cs hchar hrest =>
      have hshort := (Encoding.nextChar_consumes hchar).length
      have hrec := ih rest.length hshort hrest rfl
      by_cases hplain : c ∉ [cp '\\', cp '%', cp '_']
      · obtain ⟨b, tail, rfl, htail, hlow, -, htokens⟩ := tokenizes_front hhigh hchar hrec
        rw [likePieces_plain hplain, likeToRegex_char hlow htail hplain]
        exact htokens
      · simp only [not_not, List.mem_cons, List.not_mem_nil, or_false] at hplain
        rcases hplain with rfl | rfl | rfl
        · obtain rfl := bytes_of_ascii_code hhigh hchar (by decide)
          cases hrest with
          | nil =>
            have hlast : likeToRegex (byte '\\') [byte '\\'] = appendEscaped (byte '\\') ++ [] := by
              simp [likeToRegex]
            have hend : Tokenizes enc reading (initTokenizer []) [] false := .eof rfl
            have htokens := @tokenizes_appendEscaped enc reading [] (byte '\\') [] false
              (by decide) hend
            rw [← hlast] at htokens
            exact htokens
          | @char rest rest' c' cs' hchar' hrest' =>
            -- the character behind the escape is taken as it is, with all its bytes
            have hshort' := (Encoding.nextChar_consumes hchar').length
            have hrec' := ih rest'.length (by omega) hrest' rfl
            obtain ⟨b, tail, rfl, htail, -, -, htokens⟩ := tokenizes_front hhigh hchar' hrec'
            have hregex : likeToRegex (byte '\\') (byte '\\' :: b :: (tail ++ rest')) =
                appendEscaped b ++ (tail ++ likeToRegex (byte '\\') rest') := by
              rw [likeToRegex_escape hslash, likeToRegex_high (by decide) htail]
            change Tokenizes enc reading
              (initTokenizer (likeToRegex (byte '\\') (byte '\\' :: b :: (tail ++ rest')))) _ _
            rw [hregex]
            exact htokens
        · obtain rfl := bytes_of_ascii_code hhigh hchar (by decide)
          have htokens := tokenizes_dot (tokenizes_star (likeToRegex_head (byte '\\') rest) hrec)
          rw [← likeToRegex_percent] at htokens
          rw [likePieces_percent]
          exact htokens
        · obtain rfl := bytes_of_ascii_code hhigh hchar (by decide)
          have htokens := tokenizes_dot hrec
          rw [← likeToRegex_underscore] at htokens
          rw [likePieces_underscore]
          exact htokens

/-- So has that of a literal. -/
theorem tokenizes_literalToRegex (hhigh : enc.HighCodes) (h : enc.Decodes bytes cs) :
    Tokenizes enc reading (initTokenizer (literalToRegex bytes))
      (.anchorStart :: (literalPieces cs).flatMap RegexPiece.tokens) false := by
  have hbody : Tokenizes enc reading (initTokenizer (bytes.flatMap appendEscaped ++ [byte '$']))
      ((literalPieces cs).flatMap RegexPiece.tokens) false := by
    induction h with
    | nil =>
      have hend : Tokenizes enc reading (initTokenizer []) [] false := .eof rfl
      exact tokenizes_normal (Encoding.nextChar_ascii (by decide) []) rfl hend
    | @char bytes rest c cs hchar hrest ih =>
      obtain ⟨b, tail, rfl, htail, -, -, htokens⟩ := tokenizes_front hhigh hchar ih
      rw [List.flatMap_cons, List.flatMap_append, flatMap_high htail, List.append_assoc,
        List.append_assoc]
      exact htokens
  exact tokenizes_normal (Encoding.nextChar_ascii (by decide) _) rfl hbody

end

/-! ## Trees -/

/-- The tree of several parts behind a first one. -/
def joinPieces (first : RegexAst) (pieces : List RegexPiece) : RegexAst :=
  pieces.foldl (fun ast piece => .concat ast piece.ast) first

/-- The tokens of a piece derive its tree. -/
theorem RegexPiece.derives (piece : RegexPiece) : Derives .quantified piece.tokens piece.ast := by
  cases piece with
  | char c => exact .once (.literal c)
  | anyChar => exact .once .dot
  | anyString => exact .repeated .dot .star
  | start => exact .once .anchorStart
  | finish => exact .once .anchorEnd

/-- The grammar derives the tokens of the parts, with that tree. -/
theorem derives_joinPieces {first : RegexAst} {ts : List TreToken}
    (h : Derives .concatenation ts first) (pieces : List RegexPiece) :
    Derives .concatenation (ts ++ pieces.flatMap RegexPiece.tokens) (joinPieces first pieces) := by
  induction pieces generalizing first ts with
  | nil => simpa [joinPieces] using h
  | cons piece pieces ih =>
    have hrest := ih (h.concat piece.derives)
    rw [List.append_assoc] at hrest
    exact hrest

/-- A text that the parts match one after the other. -/
def PiecesMatch : List RegexPiece → List CodePoint → List CodePoint → List CodePoint → Prop
  | [], _, w, _ => w = []
  | piece :: pieces, pre, w, post =>
      ∃ u v, w = u ++ v ∧ piece.ast.Matches pre u (v ++ post) ∧ PiecesMatch pieces (pre ++ u) v post

/-- The pieces match one after the other behind the first. -/
theorem matches_joinPieces {first : RegexAst} {pieces : List RegexPiece}
    {pre u v post : List CodePoint} (hfirst : first.Matches pre u (v ++ post))
    (h : PiecesMatch pieces (pre ++ u) v post) :
    (joinPieces first pieces).Matches pre (u ++ v) post := by
  induction pieces generalizing first u v with
  | nil =>
    obtain rfl : v = [] := h
    simpa [joinPieces] using hfirst
  | cons piece pieces ih =>
    obtain ⟨x, y, rfl, hpiece, hrest⟩ := h
    rw [← List.append_assoc]
    apply ih
    · exact ⟨u, x, rfl, by simpa using hfirst, hpiece⟩
    · simpa using hrest

/-- Any text is as many characters as it has. -/
theorem iterated_any (pre u post : List CodePoint) :
    Iterated RegexAst.any.Matches u.length pre u post := by
  induction u generalizing pre with
  | nil => exact rfl
  | cons c u ih => exact ⟨[c], u, rfl, ⟨c, rfl⟩, ih (pre ++ [c])⟩

/-- What `LIKE` accepts, the parts match. -/
theorem LikeMatches.pieces {p t : List CodePoint} (h : LikeMatches p t) (pre : List CodePoint) :
    PiecesMatch (likePieces p) pre t [] := by
  induction h generalizing pre with
  | nil => exact rfl
  | @escaped p t c h ih => exact ⟨[c], t, rfl, rfl, ih (pre ++ [c])⟩
  | @percent p t u h ih =>
    rw [likePieces_percent]
    exact ⟨u, t, rfl, ⟨u.length, by omega, by simp, iterated_any pre u _⟩, ih (pre ++ u)⟩
  | @underscore p t c h ih =>
    rw [likePieces_underscore]
    exact ⟨[c], t, rfl, ⟨c, rfl⟩, ih (pre ++ [c])⟩
  | @char p t c hc h ih =>
    rw [likePieces_plain hc]
    exact ⟨[c], t, rfl, rfl, ih (pre ++ [c])⟩

/-- The pieces of a literal match the literal. -/
theorem literalPieces_match (pre cs : List CodePoint) : PiecesMatch (literalPieces cs) pre cs [] := by
  induction cs generalizing pre with
  | nil => exact ⟨[], [], rfl, ⟨rfl, rfl⟩, rfl⟩
  | cons c cs ih => exact ⟨[c], cs, rfl, rfl, ih (pre ++ [c])⟩

/-! ## The query and the key -/

/-- The extraction finds its way about the tree: no budgets, no choices. -/
structure RegexAst.Simple (ast : RegexAst) : Prop where
  budgets : ast.budgetsZero = true
  noChoice : ast.classRepsInlined = true

/-- The tree of a piece is a simple one. -/
theorem RegexPiece.simple (piece : RegexPiece) : piece.ast.Simple := by
  cases piece <;> exact ⟨rfl, rfl⟩

/-- Joining pieces keeps the tree simple. -/
theorem simple_joinPieces {first : RegexAst} (h : first.Simple) (pieces : List RegexPiece) :
    (joinPieces first pieces).Simple := by
  induction pieces generalizing first with
  | nil => exact h
  | cons piece pieces ih =>
    apply ih
    constructor
    · simp [RegexAst.budgetsZero, h.budgets, piece.simple.budgets]
    · simp [RegexAst.classRepsInlined, h.noChoice, piece.simple.noChoice]

/-- A text with a match satisfies the query of such a tree. -/
theorem RegexAst.Simple.satisfiedBy {ast : RegexAst} (h : ast.Simple) {s : Settings}
    {t : List CodePoint} {q : TrigramQuery} (hoccurs : ast.OccursIn t)
    (hq : regexExtractQuery s ast 0 = .ok q) : q.SatisfiedBy t := by
  right
  cases hmode : q.mode with
  | cnf => exact cnf_met_of_budgetsZero h.budgets hoccurs hq hmode
  | dnf => exact absurd hmode (mode_ne_dnf hq)
  | pieces => exact pieces_met_of_budgetsZero h.budgets h.noChoice hoccurs hq hmode

/-- The range of a query is the key of its tree. -/
theorem surfRange_eq_some {s : Settings} {root : RegexAst} {q : TrigramQuery} {lo hi : ℕ}
    (hq : regexExtractQuery s root 0 = .ok q) (hrange : q.surfRange = some (lo, hi)) :
    extractAnchoredPrefixKey root = some lo ∧ hi = lo := by
  have hrecord : ∀ q' : TrigramQuery, q'.surfRange = none →
      (recordSurfRange root 0 q').surfRange = some (lo, hi) →
        extractAnchoredPrefixKey root = some lo ∧ hi = lo := by
    intro q' hnone h
    unfold recordSurfRange at h
    split_ifs at h
    · cases hkey : extractAnchoredPrefixKey root with
      | none => simp [hkey, hnone] at h
      | some key =>
        simp only [hkey, Option.some.injEq, Prod.mk.injEq] at h
        obtain ⟨rfl, rfl⟩ := h
        exact ⟨rfl, rfl⟩
    · simp [hnone] at h
  rcases regexExtractQuery_zero_cases hq with ⟨-, -, q', hpieces, rfl⟩ | rfl
  · apply hrecord q' _ hrange
    unfold tryBuildRunPieces at hpieces
    cases hprod : piecesProduct 1 (linearize s.maxExtractionFanout root).run with
    | none => simp [hprod] at hpieces
    | some prod =>
      simp only [hprod] at hpieces
      split_ifs at hpieces
      rw [← Option.some.inj hpieces]
      rfl
  · apply hrecord _ _ hrange
    unfold accumToQuery
    split_ifs <;> rfl

/-- If the walk keeps the prefix, a text that the tree matches has a trigram with the key. -/
theorem surfRange_trigram {s : Settings} {root : RegexAst} {q : TrigramQuery} {lo hi : ℕ}
    {t : List CodePoint} (hq : regexExtractQuery s root 0 = .ok q)
    (hrange : q.surfRange = some (lo, hi)) (hkeeps : root.keepsPrefix 0 (.running false []) = true)
    (hoccurs : root.OccursIn t) : lo = hi ∧ ∃ x ∈ windows t, trigramKeyCp x = lo := by
  obtain ⟨hkey, rfl⟩ := surfRange_eq_some hq hrange
  obtain ⟨pre, v, post, rfl, hv⟩ := hoccurs
  rw [extractAnchoredPrefixKey_eq] at hkey
  have hstart : (PrefixWalk.running false []).Describes [] := List.nil_suffix
  have hend := hstart.prefixWalk hkeeps hv
  cases hwalk : root.prefixWalk 0 (.running false []) with
  | running seen cps => simp [hwalk, PrefixWalk.result] at hkey
  | stopped key =>
    obtain rfl : key = some hi := by simpa [hwalk, PrefixWalk.result] using hkey
    rw [hwalk] at hend
    obtain ⟨x, hx, hxkey⟩ := hend
    exact ⟨rfl, x, windows_subset_right pre _ (windows_subset_left _ post hx), hxkey⟩

/-- The parts are leaves for the walk. -/
theorem RegexPiece.keepsPrefix (piece : RegexPiece) (sp : ℕ) (w : PrefixWalk) :
    piece.ast.keepsPrefix sp w = true := by
  cases piece <;> rfl

/-- Behind a start anchor the parts that find the stack full are those in front, before a first
literal is seen. -/
theorem keepsPrefix_joinPieces {first : RegexAst} {w w' : PrefixWalk}
    (hfirst : ∀ sp, first.prefixWalk sp w = w') (hkeeps : ∀ sp, first.keepsPrefix sp w = true)
    (hmidway : w'.midway = false) (pieces : List RegexPiece) (sp : ℕ) :
    (joinPieces first pieces).keepsPrefix sp w = true ∧
      (prefixStackCap ≤ sp → (joinPieces first pieces).prefixWalk sp w = w') := by
  induction pieces using List.reverseRecOn generalizing sp with
  | nil => exact ⟨hkeeps sp, fun _ => hfirst sp⟩
  | append_singleton pieces piece ih =>
    have hjoin : joinPieces first (pieces ++ [piece]) =
        .concat (joinPieces first pieces) piece.ast := by
      rw [joinPieces, List.foldl_append]
      rfl
    rw [hjoin]
    constructor
    · rw [RegexAst.keepsPrefix]
      split_ifs with hroom
      · rw [(ih (sp + 1)).1, piece.keepsPrefix]
        rfl
      · rw [(ih sp).1, (ih sp).2 (Nat.not_lt.mp hroom), hmidway]
        rfl
    · intro hfull
      rw [RegexAst.prefixWalk, if_neg (Nat.not_lt.mpr hfull)]
      exact (ih sp).2 hfull

/-! ## Soundness -/

/-- What the scan makes of a regular expression is sound for a text: the parser rejects the empty
one, so that the scan is lossy, and the tree of any other matches the text, which then satisfies the
query and has the trigram of the key. -/
def IndexedSoundly (enc : Encoding) (s : Settings) (regex : List UInt8) (t : List CodePoint) : Prop :=
  (regex = [] ∧ ∃ errmsg, treParseRegex enc regex = .error (.syntaxError errmsg)) ∨
    ∃ root, treParseRegex enc regex = .ok (root, false) ∧ root.Matches [] t [] ∧
      ∀ q, regexExtractQuery s root 0 = .ok q → q.SatisfiedBy t ∧
        ∀ lo hi, q.surfRange = some (lo, hi) → lo = hi ∧ ∃ x ∈ windows t, trigramKeyCp x = lo

/-- A tree of parts that keeps its prefix is sound for the texts it matches. -/
theorem indexedSoundly_of_pieces {enc : Encoding} {regex : List UInt8} {first : RegexPiece}
    {pieces : List RegexPiece} {t : List CodePoint}
    (htokens : Tokenizes enc .index (initTokenizer regex)
      (first.tokens ++ pieces.flatMap RegexPiece.tokens) false)
    (hmatch : PiecesMatch (first :: pieces) [] t [])
    (hkeeps : (joinPieces first.ast pieces).keepsPrefix 0 (.running false []) = true)
    (s : Settings) : IndexedSoundly enc s regex t := by
  have hderives := derives_joinPieces (.single first.derives) pieces
  have hparse := parseRegex_eq_ok_iff.mpr ⟨_, htokens, .branch hderives⟩
  have hmatches : (joinPieces first.ast pieces).Matches [] t [] := by
    obtain ⟨u, v, rfl, hfirst, hrest⟩ := hmatch
    exact matches_joinPieces hfirst hrest
  have hoccurs : (joinPieces first.ast pieces).OccursIn t := ⟨[], t, [], by simp, hmatches⟩
  apply Or.inr
  refine ⟨joinPieces first.ast pieces, hparse, hmatches, fun q hq => ?_⟩
  constructor
  · exact (simple_joinPieces first.simple pieces).satisfiedBy hoccurs hq
  · intro lo hi hrange
    exact surfRange_trigram hq hrange hkeeps hoccurs

/-- Only the empty pattern has no piece. -/
theorem likePieces_eq_nil_iff {cs : List CodePoint} : likePieces cs = [] ↔ cs = [] := by
  constructor
  · intro h
    cases cs with
    | nil => rfl
    | cons c cs =>
      rw [likePieces.eq_def] at h
      simp only at h
      split_ifs at h
      cases cs <;> cases h
  · rintro rfl
    rfl

/-- No part of the regular expression of a `LIKE` pattern is an anchor. -/
theorem start_not_mem_likePieces (cs : List CodePoint) : RegexPiece.start ∉ likePieces cs := by
  fun_induction likePieces cs <;> simp_all

/-- Without a start anchor the walk stops at the first part. -/
theorem keepsPrefix_likePieces {cs : List CodePoint} {first : RegexPiece} {pieces : List RegexPiece}
    (hpieces : likePieces cs = first :: pieces) :
    (joinPieces first.ast pieces).keepsPrefix 0 (.running false []) = true := by
  have hanchor := start_not_mem_likePieces cs
  rw [hpieces] at hanchor
  have hstops : ∀ sp, first.ast.prefixWalk sp (.running false []) = .stopped none := by
    intro sp
    cases first with
    | start => simp at hanchor
    | _ => rfl
  have hkeeps := fun sp => first.keepsPrefix sp (.running false [])
  exact (keepsPrefix_joinPieces hstops hkeeps rfl pieces 0).1

/-- A literal keeps its prefix. -/
theorem keepsPrefix_literalPieces (cs : List CodePoint) :
    (joinPieces RegexPiece.start.ast (literalPieces cs)).keepsPrefix 0 (.running false []) = true := by
  have hseen : ∀ sp, RegexPiece.start.ast.prefixWalk sp (.running false []) = .running true [] :=
    fun _ => rfl
  have hkeeps := fun sp => RegexPiece.start.keepsPrefix sp (.running false [])
  exact (keepsPrefix_joinPieces hseen hkeeps rfl (literalPieces cs) 0).1

/-- `LIKE` and `=` are indexed soundly: for every text the operator accepts, the regular expression
is empty and rejected, or it has a tree that matches the text, the text satisfies the query of the
tree and has a trigram with the key. -/
theorem likeToRegex_literalToRegex_sound (enc : Encoding) (hhigh : enc.HighCodes) (s : Settings)
    (bytes : List UInt8) (cs : List CodePoint) (hdecodes : enc.Decodes bytes cs) :
    (∀ t, LikeMatches cs t → IndexedSoundly enc s (likeToRegex (byte '\\') bytes) t) ∧
      IndexedSoundly enc s (literalToRegex bytes) cs := by
  constructor
  · intro t hlike
    have htokens := @tokenizes_likeToRegex enc .index bytes cs hhigh hdecodes
    have hmatch := hlike.pieces []
    cases hpieces : likePieces cs with
    | nil =>
      obtain rfl := likePieces_eq_nil_iff.mp hpieces
      cases hdecodes
      exact Or.inl ⟨rfl, _, rfl⟩
    | cons first pieces =>
      rw [hpieces] at htokens hmatch
      exact indexedSoundly_of_pieces htokens hmatch (keepsPrefix_likePieces hpieces) s
  · have htokens := @tokenizes_literalToRegex enc .index bytes cs hhigh hdecodes
    have hmatch : PiecesMatch (.start :: literalPieces cs) [] cs [] :=
      ⟨[], cs, rfl, ⟨rfl, rfl⟩, literalPieces_match [] cs⟩
    exact @indexedSoundly_of_pieces enc _ .start (literalPieces cs) cs htokens hmatch
      (keepsPrefix_literalPieces cs) s

/-- The pattern `abc%_\%` and the text `abcxy%`, and the literal `a.b`, in LATIN1. -/
theorem likeToRegex_literalToRegex_sound_latin1 :
    IndexedSoundly latin1 ⟨256, 1⟩ (likeToRegex (byte '\\') [97, 98, 99, 37, 95, 92, 37])
        [97, 98, 99, 120, 121, 37] ∧
      IndexedSoundly latin1 ⟨256, 1⟩ (literalToRegex [97, 46, 98]) [97, 46, 98] := by
  have hhigh : latin1.HighCodes := by
    intro b rest c rest' hb hdecode
    obtain ⟨rfl, -⟩ := Prod.mk.inj (Option.some.inj hdecode)
    exact Nat.not_lt.mp hb
  have hpattern : latin1.Decodes [97, 98, 99, 37, 95, 92, 37] [97, 98, 99, 37, 95, 92, 37] :=
    .char rfl (.char rfl (.char rfl (.char rfl (.char rfl (.char rfl (.char rfl .nil))))))
  have hlike : LikeMatches [97, 98, 99, 37, 95, 92, 37] [97, 98, 99, 120, 121, 37] :=
    .char 97 (by decide) (.char 98 (by decide) (.char 99 (by decide)
      (.percent [120] (.underscore 121 (.escaped 37 .nil)))))
  have hliteral : latin1.Decodes [97, 46, 98] [97, 46, 98] :=
    .char rfl (.char rfl (.char rfl .nil))
  exact ⟨(likeToRegex_literalToRegex_sound latin1 hhigh ⟨256, 1⟩ _ _ hpattern).1 _ hlike,
    (likeToRegex_literalToRegex_sound latin1 hhigh ⟨256, 1⟩ _ _ hliteral).2⟩

end PgTre
