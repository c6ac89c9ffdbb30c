import PgTre.Query.TokenScans

/-!
# The two tokenizers

The tokenizer by positions does what the tokenizer on the rest of the input does. The position
stands for the bytes behind it, the offset `bracket_first` for whether the position is there, and
the depths are 1 inside of a bracket or brace and 0 outside.
-/

namespace PgTre.Positional

open Traced

/-- The state by positions represents the one on the rest of the input. -/
structure Represents (input : List UInt8) (ts : TokenizerState) (s : PgTre.TokenizerState) : Prop where
  pos_le : ts.pos ≤ input.length
  rest_eq : input.drop ts.pos = s.rest
  mode_eq : ts.mode = s.mode
  bracketDepth_eq : ts.bracketDepth = if ts.mode = .bracket then 1 else 0
  braceDepth_eq : ts.braceDepth = if ts.mode = .brace ∨ ts.mode = .braceApprox then 1 else 0
  first_le : ts.bracketFirst ≤ ts.pos
  first_iff : s.bracketFirst = true ↔ ts.bracketFirst = ts.pos
  /-- The flag is only used inside of a bracket. -/
  first_inside : s.mode ≠ .bracket → s.bracketFirst = false
  opaque_eq : ts.bracketOpaque = s.bracketOpaque
  pending_eq : ts.pending = s.pending
  force_eq : ts.forceAlwaysTrue = s.forceAlwaysTrue

/-- The result of a call is the one on the rest of the input. -/
def Matches (input : List UInt8) (r : Except ScanError (Option (TreToken × TokenizerState))) :
    TokenResult → Prop
  | .eof => r = .ok none
  | .error e => r = .error e
  | .token t s => ∃ ts, r = .ok (some (t, ts)) ∧ Represents input ts s

/-- The positions start at the bytes' start. -/
theorem represents_init (input : List UInt8) :
    Represents input initTokenizer (PgTre.initTokenizer input) where
  pos_le := Nat.zero_le _
  rest_eq := rfl
  mode_eq := rfl
  bracketDepth_eq := rfl
  braceDepth_eq := rfl
  first_le := by decide
  first_iff := iff_of_false Bool.false_ne_true (by decide)
  first_inside := fun _ => rfl
  opaque_eq := rfl
  pending_eq := rfl
  force_eq := rfl

section

variable {tables : ServerEncoding} {enc : Encoding} {beyond : ℤ → Bool} {input : List UInt8}
  {pos fuel : ℕ} {ts : TokenizerState} {s : PgTre.TokenizerState} {c : ℕ} {p : ℕ}

/-! ## The modes -/

/-- A token without input matches itself. -/
theorem matches_token {t : TreToken} (h : Represents input ts s) :
    Matches input (token t ts).result (.token t s) :=
  ⟨ts, rfl, h⟩

/-- A character of ASCII is one byte. -/
theorem behind_of_ascii (hhigh : HighCodes tables) (hchar : charAt tables input pos = some ((c : ℤ), p))
    (hc : c < 128) : p = pos + 1 := by
  cases hdrop : input.drop pos with
  | nil =>
    have hbounds := charAt_bounds hchar
    have hend := List.drop_eq_nil_iff.mp hdrop
    omega
  | cons b rest =>
    rw [charAt_eq hdrop] at hchar
    by_cases hascii : b < 0x80
    · rw [decodeChar, if_pos hascii] at hchar
      exact (Prod.mk.inj (Option.some.inj hchar)).2.symm
    · cases hdecode : decodeChar tables (b :: rest) with
      | error e => simp [hdecode] at hchar
      | ok r =>
        obtain ⟨len, w⟩ := r
        have hcode := hhigh b rest len w (UInt8.not_lt.mp hascii) hdecode
        simp only [hdecode, Option.some.injEq, Prod.mk.injEq] at hchar
        omega

/-- The position moves on, away from the first member. -/
theorem Represents.move (h : Represents input ts s) (hlt : ts.pos < p) (hend : p ≤ input.length) :
    Represents input { ts with pos := p } { s with rest := input.drop p, bracketFirst := false } where
  pos_le := hend
  rest_eq := rfl
  mode_eq := h.mode_eq
  bracketDepth_eq := h.bracketDepth_eq
  braceDepth_eq := h.braceDepth_eq
  first_le := by
    have hfirst := h.first_le
    dsimp only
    omega
  first_iff := by
    have hfirst := h.first_le
    refine iff_of_false Bool.false_ne_true ?_
    dsimp only
    omega
  first_inside := fun _ => rfl
  opaque_eq := h.opaque_eq
  pending_eq := h.pending_eq
  force_eq := h.force_eq

/-- Outside of brackets the flag is not set. -/
theorem Represents.move_outside (h : Represents input ts s) (hmode : s.mode ≠ .bracket)
    (hlt : ts.pos < p) (hend : p ≤ input.length) :
    Represents input { ts with pos := p } { s with rest := input.drop p } := by
  have hmove := h.move hlt hend
  rw [← h.first_inside hmode] at hmove
  exact hmove

/-- The position is at the first member exactly if the flag says so. -/
theorem Represents.atFirst (h : Represents input ts s) :
    (0 ≤ ts.bracketFirst ∧ ((ts.pos + 1 : ℕ) : ℤ) - 1 = ts.bracketFirst) ↔ s.bracketFirst = true := by
  rw [h.first_iff]
  omega

/-- The bracket ends. -/
theorem Represents.closeBracket (h : Represents input ts s) (hmode : s.mode = .bracket)
    (hlt : ts.pos < p) (hend : p ≤ input.length) :
    Represents input
      { ts with
        pos := p
        bracketDepth := ts.bracketDepth - 1
        mode := if ts.bracketDepth - 1 = 0 then .normal else ts.mode
        bracketOpaque := false }
      { s with
        rest := input.drop p
        bracketFirst := false
        mode := .normal
        bracketOpaque := false } := by
  have hmove := h.move hlt hend
  have hinside : ts.mode = .bracket := h.mode_eq.trans hmode
  have hdepth : ts.bracketDepth = 1 := by rw [h.bracketDepth_eq, if_pos hinside]
  have hbrace : ts.braceDepth = 0 := by
    rw [h.braceDepth_eq, hinside]
    rfl
  rw [hdepth, if_pos (sub_self 1)]
  exact { hmove with
    mode_eq := rfl
    bracketDepth_eq := rfl
    braceDepth_eq := hbrace
    first_inside := fun _ => rfl
    opaque_eq := rfl }

/-- A member that is not a single character makes the bracket opaque. -/
theorem Represents.opaqueMember (h : Represents input ts s) (hlt : ts.pos < p)
    (hend : p ≤ input.length) :
    Represents input { ts with pos := p, bracketOpaque := true }
      { s with rest := input.drop p, bracketFirst := false, bracketOpaque := true } :=
  { h.move hlt hend with opaque_eq := rfl }

/-- A named member is read alike. -/
theorem matches_namedMember (h : Represents input ts s) (hlt : ts.pos < p)
    {delim : UInt8} {rest : List UInt8} (hdrop : input.drop p = delim :: rest) :
    Matches input (namedMember input { ts with pos := p } delim).result
      (match namedEnd delim rest with
        | none =>
            let d := Char.ofNat delim.toNat
            .error (.syntaxError (some s!"unterminated [{d} in bracket expression"))
        | some rest' =>
            .token (.literal 0)
              { s with rest := rest', bracketFirst := false, bracketOpaque := true }) := by
  obtain ⟨-, -, hbehind⟩ := drop_succ_of_drop_eq_cons hdrop
  obtain ⟨last, hlast, hclose⟩ :=
    @result_findNamedEnd input (p + 1) (input.length + 1) delim (by omega) (by omega)
  have hle := (@findNamedEnd_ensures input (p + 1) (input.length + 1) delim (by omega)
    (by omega)).result _ hlast
  rw [namedMember, result_bind hlast]
  rw [hbehind] at hclose
  cases hnamed : namedEnd delim rest with
  | none =>
    rw [hnamed] at hclose
    rw [if_pos hclose]
    rfl
  | some rest' =>
    rw [hnamed] at hclose
    rw [if_neg (not_le.mpr hclose.1), ← hclose.2]
    exact matches_token (h.opaqueMember (by omega) (by omega))

/-- A member of a bracket is read alike. -/
theorem matches_bracketToken (hagrees : Agrees tables enc) (hhigh : HighCodes tables)
    (h : Represents input ts s) (hmode : s.mode = .bracket)
    (hchar : charAt tables input ts.pos = some ((c : ℤ), p)) :
    Matches input (bracketToken tables noneBeyond input { ts with pos := p } c).result
      (PgTre.bracketToken enc .index s c (input.drop p)) := by
  obtain ⟨-, hlt, hend⟩ := charAt_bounds hchar
  have hcast : ∀ {d : CodePoint}, (c : ℤ) = d ↔ c = d := Nat.cast_inj
  have hmove := h.move hlt hend
  unfold bracketToken PgTre.bracketToken
  dsimp only
  rw [Int.toNat_natCast]
  by_cases hclose : c = cp ']'
  · obtain rfl := behind_of_ascii hhigh hchar (by rw [hclose]; decide)
    rw [if_pos hclose, if_pos (hcast.mpr hclose)]
    by_cases hfirst : s.bracketFirst = true
    · rw [if_pos hfirst, if_pos (h.atFirst.mpr hfirst)]
      refine matches_token { hmove with first_le := ?_, first_iff := ?_ }
      · dsimp only
        omega
      · refine iff_of_false Bool.false_ne_true ?_
        dsimp only
        omega
    · rw [if_neg hfirst, if_neg (mt h.atFirst.mp hfirst), h.opaque_eq]
      exact matches_token (h.closeBracket hmode hlt hend)
  rw [if_neg hclose, if_neg (mt hcast.mp hclose)]
  by_cases hdash : c = cp '-'
  · obtain rfl := behind_of_ascii hhigh hchar (by rw [hdash]; decide)
    rw [if_pos hdash, if_pos (hcast.mpr hdash), result_bind result_byteAt]
    by_cases hliteral : s.bracketFirst = true ∨ (input.drop (ts.pos + 1)).head? = some (byte ']')
    · rw [if_pos hliteral, if_pos (hliteral.imp_left h.atFirst.mpr)]
      exact matches_token hmove
    · rw [if_neg hliteral, if_neg (mt (Or.imp_left h.atFirst.mp) hliteral)]
      exact matches_token hmove
  rw [if_neg hdash, if_neg (mt hcast.mp hdash)]
  by_cases hcaret : c = cp '^'
  · obtain rfl := behind_of_ascii hhigh hchar (by rw [hcaret]; decide)
    rw [if_pos hcaret, if_pos (hcast.mpr hcaret)]
    by_cases hfirst : s.bracketFirst = true
    · rw [if_pos hfirst, if_pos (h.atFirst.mpr hfirst)]
      exact matches_token { hmove with
        first_le := le_rfl
        first_iff := iff_of_true rfl rfl
        first_inside := fun hother => absurd hmode hother }
    · rw [if_neg hfirst, if_neg (mt h.atFirst.mp hfirst)]
      exact matches_token hmove
  rw [if_neg hcaret, if_neg (mt hcast.mp hcaret)]
  by_cases hslash : c = cp '\\'
  · have hopen : ¬(c : ℤ) = cp '[' := by
      rw [hslash]
      decide
    rw [if_pos hslash, if_neg hopen, if_pos (hcast.mpr hslash), bracketEscape]
    have hescape := @result_parseEscape tables enc input p hagrees
    cases hparse : PgTre.parseEscape enc (input.drop p) with
    | error e =>
      rw [hparse] at hescape
      rw [result_bind_error hescape]
      rfl
    | ok esc =>
      obtain ⟨esc, rest⟩ := esc
      rw [hparse] at hescape
      obtain ⟨q, hq, rfl⟩ := hescape
      have hbehind := (@parseEscape_ensures tables noneBeyond input p).result _ hq
      rw [result_bind hq]
      exact matches_token (h.opaqueMember (hlt.trans hbehind.1) hbehind.2)
  rw [if_neg hslash]
  by_cases hopen : c = cp '['
  · rw [if_pos (hcast.mpr hopen), result_bind result_byteAt]
    cases hdrop : input.drop p with
    | nil =>
      rw [hdrop] at hmove
      exact matches_token hmove
    | cons delim rest =>
      dsimp only [List.head?_cons]
      by_cases hnamed : isNamedDelim delim = true
      · rw [if_pos hnamed, if_pos ⟨hopen, hnamed⟩]
        exact matches_namedMember h hlt hdrop
      · rw [if_neg hnamed, if_neg fun hboth => hnamed hboth.2, ← hdrop]
        exact matches_token hmove
  · rw [if_neg (mt hcast.mp hopen), if_neg (mt hcast.mp hslash)]
    cases hdrop : input.drop p with
    | nil =>
      rw [hdrop] at hmove
      exact matches_token hmove
    | cons delim rest =>
      dsimp only
      rw [if_neg fun hboth => hopen hboth.1, ← hdrop]
      exact matches_token hmove

/-- The brace ends. -/
theorem Represents.closeBrace (h : Represents input ts s)
    (hmode : s.mode = .brace ∨ s.mode = .braceApprox)
    (hlt : ts.pos < p) (hend : p ≤ input.length) :
    ts.braceDepth - 1 = 0 ∧
      Represents input { ts with pos := p, braceDepth := 0, mode := .normal }
        { s with rest := input.drop p, mode := .normal } := by
  have hinside : ts.mode = .brace ∨ ts.mode = .braceApprox := by
    rw [h.mode_eq]
    exact hmode
  have hmove := h.move_outside (by rintro hbracket; simp [hbracket] at hmode) hlt hend
  have hdepth : ts.braceDepth = 1 := by rw [h.braceDepth_eq, if_pos hinside]
  have hbracket : ts.bracketDepth = 0 := by
    rw [h.bracketDepth_eq]
    rcases hinside with hinside | hinside
    · rw [hinside]
      rfl
    · rw [hinside]
      rfl
  refine ⟨by omega, { hmove with
    mode_eq := rfl
    bracketDepth_eq := hbracket
    braceDepth_eq := rfl
    first_inside := fun _ => h.first_inside ?_ }⟩
  rintro hbracket
  simp [hbracket] at hmode

/-- The number of errors is read behind a tilde. -/
theorem Represents.approximate (h : Represents input ts s) (hmode : s.mode = .brace) (hlt : ts.pos < p)
    (hend : p ≤ input.length) :
    Represents input { ts with pos := p, mode := .braceApprox }
      { s with rest := input.drop p, mode := .braceApprox } := by
  have hinside : ts.mode = .brace := h.mode_eq.trans hmode
  have houtside : s.mode ≠ .bracket := by rw [hmode]; decide
  exact { h.move_outside houtside hlt hend with
    mode_eq := rfl
    bracketDepth_eq := by
      rw [h.bracketDepth_eq, hinside]
      rfl
    braceDepth_eq := by
      rw [h.braceDepth_eq, hinside]
      rfl
    first_inside := fun _ => h.first_inside houtside }

/-- A brace token is read alike. -/
theorem matches_braceToken (hagrees : Agrees tables enc) (hhigh : HighCodes tables)
    (h : Represents input ts s) (hmode : s.mode = .brace ∨ s.mode = .braceApprox)
    (hchar : charAt tables input ts.pos = some ((c : ℤ), p)) :
    Matches input (braceToken tables noneBeyond input { ts with pos := p } ts.pos c).result
      (PgTre.braceToken enc s c (input.drop p)) := by
  obtain ⟨-, hlt, hend⟩ := charAt_bounds hchar
  have hcast : ∀ {d : CodePoint}, (c : ℤ) = d ↔ c = d := Nat.cast_inj
  have houtside : s.mode ≠ .bracket := by
    intro hbracket
    simp [hbracket] at hmode
  unfold braceToken PgTre.braceToken
  by_cases hclose : c = cp '}'
  · obtain ⟨q, hq, hle, hqend, hrest⟩ := result_skipByte (byte '?') hend
    obtain ⟨hdepth, hclosed⟩ := h.closeBrace hmode (hlt.trans_le hle) hqend
    rw [if_pos hclose, if_pos (hcast.mpr hclose), if_pos hdepth]
    rw [hrest] at hclosed
    change Matches input (skipByte input (byte '?') p >>= _).result _
    rw [result_bind hq]
    exact matches_token hclosed
  rw [if_neg hclose, if_neg (mt hcast.mp hclose)]
  by_cases hcomma : c = cp ','
  · rw [if_pos hcomma, if_pos (hcast.mpr hcomma)]
    exact matches_token (h.move_outside houtside hlt hend)
  rw [if_neg hcomma, if_neg (mt hcast.mp hcomma)]
  have htilde : ((c : ℤ) = cp '~' ∧ ts.mode = .brace) ↔ c = cp '~' ∧ s.mode = .brace := by
    rw [hcast, h.mode_eq]
  by_cases happrox : c = cp '~' ∧ s.mode = .brace
  · have hinteger := @result_parseInteger tables enc input p hagrees hhigh
    rw [if_pos happrox, if_pos (htilde.mpr happrox)]
    cases hparse : PgTre.parseInteger enc (input.drop p) with
    | error e =>
      rw [hparse] at hinteger
      rw [result_bind_error hinteger]
      rfl
    | ok k =>
      obtain ⟨k, rest⟩ := k
      rw [hparse] at hinteger
      obtain ⟨q, hq, rfl⟩ := hinteger
      have hbehind := (parseInteger_inBounds hend).result _ hq
      rw [result_bind hq]
      dsimp only
      split_ifs
      · rfl
      · exact matches_token (h.approximate happrox.2 (hlt.trans hbehind.1) hbehind.2)
  rw [if_neg happrox, if_neg (mt htilde.mp happrox), result_bind (result_classify_isDigit c)]
  by_cases hdigit : isDigit c = true
  · obtain ⟨-, rfl⟩ := digitAt_of_charAt hhigh hchar hdigit
    have hinteger := @result_parseInteger tables enc input ts.pos hagrees hhigh
    rw [if_pos hdigit, if_pos hdigit, ← h.rest_eq]
    change Matches input (parseInteger tables noneBeyond input (ts.pos + 1 - 1) >>= _).result _
    rw [Nat.add_sub_cancel]
    cases hparse : PgTre.parseInteger enc (input.drop ts.pos) with
    | error e =>
      rw [hparse] at hinteger
      rw [result_bind_error hinteger]
      rfl
    | ok val =>
      obtain ⟨val, rest⟩ := val
      rw [hparse] at hinteger
      obtain ⟨q, hq, rfl⟩ := hinteger
      have hbehind := (parseInteger_inBounds h.pos_le).result _ hq
      rw [result_bind hq]
      dsimp only
      split_ifs
      · rfl
      · exact matches_token (h.move_outside houtside hbehind.1 hbehind.2)
  · rw [if_neg hdigit, if_neg hdigit, Int.toNat_natCast]
    rfl

/-- Giving up is done alike. -/
theorem matches_giveUpToken (h : Represents input ts s) (houtside : s.mode ≠ .bracket)
    (hlt : ts.pos < p) (hend : p ≤ input.length) :
    Matches input (giveUpToken input { ts with pos := p }).result (PgTre.giveUpToken s) := by
  have hmove := h.move_outside houtside (hlt.trans_le hend) le_rfl
  rw [List.drop_length] at hmove
  exact matches_token { hmove with force_eq := rfl }

/-- A lookaround is read alike. -/
theorem matches_lookaroundToken (h : Represents input ts s) (houtside : s.mode ≠ .bracket)
    {pos' : ℕ} (hlt : ts.pos < pos') (hend : pos' ≤ input.length) :
    Matches input (lookaroundToken input { ts with pos := p } pos').result
      (PgTre.lookaroundToken s (input.drop pos')) := by
  have hclosed := closes_skipGroup hend
  rw [lookaroundToken, PgTre.lookaroundToken]
  cases hskip : PgTre.skipGroup (input.drop pos') with
  | none =>
    rw [hskip] at hclosed
    obtain ⟨q, hgroup⟩ := hclosed
    rw [result_bind hgroup]
    rfl
  | some rest =>
    rw [hskip] at hclosed
    obtain ⟨q, hgroup, rfl⟩ := hclosed
    have hbehind := skipGroup_ensures.result _ hgroup rfl
    have hmove := h.move_outside houtside (hlt.trans hbehind.1) hbehind.2
    rw [result_bind hgroup, if_pos rfl]
    exact matches_token { hmove with pending_eq := rfl }

/-- An opening parenthesis is followed by options, a lookaround, a colon or something else. -/
theorem matches_parenToken (h : Represents input ts s) (houtside : s.mode ≠ .bracket)
    (hlt : ts.pos < p) (hend : p ≤ input.length) :
    Matches input (parenToken input { ts with pos := p }).result
      (PgTre.parenToken s (input.drop p)) := by
  have hmove := h.move_outside houtside hlt hend
  have hgiveUp := matches_giveUpToken h houtside hlt hend
  have hsome : ∀ {b b' : UInt8}, some b = some b' ↔ b = b' := Option.some_inj
  change Matches input (byteAt input p >>= _).result _
  unfold PgTre.parenToken
  cases hdrop : input.drop p with
  | nil =>
    rw [result_bind (result_byteAt_of_drop_eq hdrop)]
    rw [hdrop] at hmove
    exact matches_token hmove
  | cons q g =>
    obtain ⟨hp, -, hg⟩ := drop_succ_of_drop_eq_cons hdrop
    have hq : (byteAt input p).result = .ok (some q) := result_byteAt_of_drop_eq hdrop
    rw [result_bind hq]
    dsimp only
    by_cases hquestion : q = byte '?'
    · rw [if_pos hquestion, if_pos (hsome.mpr hquestion)]
      cases g with
      | nil =>
        rw [result_bind (result_byteAt_of_drop_eq hg)]
        exact hgiveUp
      | cons g0 g =>
        obtain ⟨hp', -, hg'⟩ := drop_succ_of_drop_eq_cons hg
        have hg0 : (byteAt input (p + 1)).result = .ok (some g0) := result_byteAt_of_drop_eq hg
        rw [result_bind hg0]
        dsimp only
        by_cases hcolon : g0 = byte ':'
        · rw [if_pos hcolon, if_pos (hsome.mpr hcolon), ← hg']
          exact matches_token (h.move_outside houtside (by omega) hp')
        rw [if_neg hcolon, if_neg (mt hsome.mp hcolon)]
        by_cases hahead : g0 = byte '=' ∨ g0 = byte '!'
        · rw [if_pos hahead, if_pos (hahead.imp hsome.mpr hsome.mpr), ← hg']
          exact matches_lookaroundToken h houtside (by omega) hp'
        rw [if_neg hahead, if_neg (mt (Or.imp hsome.mp hsome.mp) hahead)]
        by_cases hbehind : g0 = byte '<'
        · rw [if_pos (hsome.mpr hbehind), result_bind (result_byteAt_of_drop_eq hg')]
          by_cases hsign : g.head? = some (byte '=') ∨ g.head? = some (byte '!')
          · have hthird : p + 3 ≤ input.length ∧ input.drop (p + 3) = g.drop 1 := by
              cases g with
              | nil => simp at hsign
              | cons g1 g =>
                obtain ⟨hp'', -, hg''⟩ := drop_succ_of_drop_eq_cons hg'
                exact ⟨hp'', hg''⟩
            rw [if_pos hsign, if_pos ⟨hbehind, hsign⟩, ← hthird.2]
            exact matches_lookaroundToken h houtside (by omega) hthird.1
          · rw [if_neg hsign, if_neg fun hboth => hsign hboth.2]
            exact hgiveUp
        · rw [if_neg (mt hsome.mp hbehind), if_neg fun hboth => hbehind hboth.1]
          exact hgiveUp
    · rw [if_neg hquestion, if_neg (mt hsome.mp hquestion), ← hdrop]
      exact matches_token hmove

/-- A bracket begins. -/
theorem Represents.openBracket (h : Represents input ts s) (hmode : s.mode = .normal)
    (hlt : ts.pos < p) (hend : p ≤ input.length) :
    Represents input
      { ts with
        pos := p, bracketDepth := ts.bracketDepth + 1, mode := .bracket, bracketFirst := (p : ℤ) }
      { s with rest := input.drop p, mode := .bracket, bracketFirst := true } := by
  have houtside : ts.mode = .normal := h.mode_eq.trans hmode
  have hdepth : ts.bracketDepth = 0 := by
    rw [h.bracketDepth_eq, houtside]
    rfl
  have hbrace : ts.braceDepth = 0 := by
    rw [h.braceDepth_eq, houtside]
    rfl
  rw [hdepth]
  exact { h.move hlt hend with
    mode_eq := rfl
    bracketDepth_eq := rfl
    braceDepth_eq := hbrace
    first_le := le_rfl
    first_iff := iff_of_true rfl rfl
    first_inside := fun hother => absurd rfl hother }

/-- A brace begins. -/
theorem Represents.openBrace (h : Represents input ts s) (hmode : s.mode = .normal)
    (hlt : ts.pos < p) (hend : p ≤ input.length) :
    Represents input { ts with pos := p, braceDepth := ts.braceDepth + 1, mode := .brace }
      { s with rest := input.drop p, mode := .brace } := by
  have houtside : ts.mode = .normal := h.mode_eq.trans hmode
  have hflag : s.mode ≠ .bracket := by rw [hmode]; decide
  have hdepth : ts.braceDepth = 0 := by
    rw [h.braceDepth_eq, houtside]
    rfl
  have hbracket : ts.bracketDepth = 0 := by
    rw [h.bracketDepth_eq, houtside]
    rfl
  rw [hdepth]
  exact { h.move_outside hflag hlt hend with
    mode_eq := rfl
    bracketDepth_eq := hbracket
    braceDepth_eq := rfl
    first_inside := fun _ => h.first_inside hflag }

/-- A token outside the brackets is read alike. -/
theorem matches_normalToken (hagrees : Agrees tables enc) (h : Represents input ts s)
    (hmode : s.mode = .normal) (hchar : charAt tables input ts.pos = some ((c : ℤ), p)) :
    Matches input (normalToken tables noneBeyond input { ts with pos := p } c).result
      (PgTre.normalToken enc s c (input.drop p)) := by
  obtain ⟨-, hlt, hend⟩ := charAt_bounds hchar
  have hcast : ∀ {d : CodePoint}, (c : ℤ) = d ↔ c = d := Nat.cast_inj
  have houtside : s.mode ≠ .bracket := by rw [hmode]; decide
  have hstay : ∀ t, Matches input (token t { ts with pos := p }).result
      (.token t { s with rest := input.drop p }) :=
    fun t => matches_token (h.move_outside houtside hlt hend)
  have hquantifier : ∀ t, Matches input
      (skipLazy input p >>= fun pos => token t { ts with pos := pos }).result
      (.token t { s with rest := PgTre.skipLazy (input.drop p) }) := by
    intro t
    obtain ⟨q, hq, hle, hqend, hrest⟩ := result_skipByte (byte '?') hend
    change Matches input (skipByte input (byte '?') p >>= _).result
      (.token t { s with rest := dropByte (byte '?') (input.drop p) })
    rw [result_bind hq, ← hrest]
    exact matches_token (h.move_outside houtside (hlt.trans_le hle) hqend)
  unfold normalToken PgTre.normalToken
  dsimp only
  by_cases hpipe : c = cp '|'
  · rw [if_pos hpipe, if_pos (hcast.mpr hpipe)]
    exact hstay _
  rw [if_neg hpipe, if_neg (mt hcast.mp hpipe)]
  by_cases hstar : c = cp '*'
  · rw [if_pos hstar, if_pos (hcast.mpr hstar)]
    exact hquantifier _
  rw [if_neg hstar, if_neg (mt hcast.mp hstar)]
  by_cases hplus : c = cp '+'
  · rw [if_pos hplus, if_pos (hcast.mpr hplus)]
    exact hquantifier _
  rw [if_neg hplus, if_neg (mt hcast.mp hplus)]
  by_cases hquestion : c = cp '?'
  · rw [if_pos hquestion, if_pos (hcast.mpr hquestion)]
    exact hquantifier _
  rw [if_neg hquestion, if_neg (mt hcast.mp hquestion)]
  by_cases hparen : c = cp '('
  · rw [if_pos hparen, if_pos (hcast.mpr hparen)]
    exact matches_parenToken h houtside hlt hend
  rw [if_neg hparen, if_neg (mt hcast.mp hparen)]
  by_cases hclose : c = cp ')'
  · rw [if_pos hclose, if_pos (hcast.mpr hclose)]
    exact hstay _
  rw [if_neg hclose, if_neg (mt hcast.mp hclose)]
  by_cases hdot : c = cp '.'
  · rw [if_pos hdot, if_pos (hcast.mpr hdot)]
    exact hstay _
  rw [if_neg hdot, if_neg (mt hcast.mp hdot)]
  by_cases hcaret : c = cp '^'
  · rw [if_pos hcaret, if_pos (hcast.mpr hcaret)]
    exact hstay _
  rw [if_neg hcaret, if_neg (mt hcast.mp hcaret)]
  by_cases hdollar : c = cp '$'
  · rw [if_pos hdollar, if_pos (hcast.mpr hdollar)]
    exact hstay _
  rw [if_neg hdollar, if_neg (mt hcast.mp hdollar)]
  by_cases hbracket : c = cp '['
  · rw [if_pos hbracket, if_pos (hcast.mpr hbracket)]
    exact matches_token (h.openBracket hmode hlt hend)
  rw [if_neg hbracket, if_neg (mt hcast.mp hbracket)]
  by_cases hbrace : c = cp '{'
  · rw [if_pos hbrace, if_pos (hcast.mpr hbrace)]
    exact matches_token (h.openBrace hmode hlt hend)
  rw [if_neg hbrace, if_neg (mt hcast.mp hbrace)]
  by_cases hslash : c = cp '\\'
  · have hescape := @result_parseEscape tables enc input p hagrees
    rw [if_pos hslash, if_pos (hcast.mpr hslash)]
    cases hparse : PgTre.parseEscape enc (input.drop p) with
    | error e =>
      rw [hparse] at hescape
      rw [result_bind_error hescape]
      rfl
    | ok esc =>
      obtain ⟨esc, rest⟩ := esc
      rw [hparse] at hescape
      obtain ⟨q, hq, rfl⟩ := hescape
      have hbehind := (@parseEscape_ensures tables noneBeyond input p).result _ hq
      have hmove := h.move_outside houtside (hlt.trans hbehind.1) hbehind.2
      rw [result_bind hq]
      cases esc with
      | char c' => exact matches_token hmove
      | shorthand => exact matches_token hmove
      | unknown => exact matches_giveUpToken h houtside hlt hend
  rw [if_neg hslash, if_neg (mt hcast.mp hslash), Int.toNat_natCast]
  exact hstay _

/-- The mode says which of the functions sees the character. -/
theorem modeToken_eq {mode : TokenizerMode} {start : ℕ} {c : ℤ} : ts.mode = mode →
    modeToken tables beyond input ts start c =
      match mode with
      | .bracket => bracketToken tables beyond input ts c
      | .brace => braceToken tables beyond input ts start c
      | .braceApprox => braceToken tables beyond input ts start c
      | .normal => normalToken tables beyond input ts c := by
  rintro rfl
  rfl

/-- Both look at the character in the same mode. -/
theorem matches_modeToken (hagrees : Agrees tables enc) (hhigh : HighCodes tables)
    (h : Represents input ts s) (hchar : charAt tables input ts.pos = some ((c : ℤ), p)) :
    Matches input (modeToken tables noneBeyond input { ts with pos := p } ts.pos c).result
      (match s.mode with
        | .bracket => PgTre.bracketToken enc .index s c (input.drop p)
        | .brace => PgTre.braceToken enc s c (input.drop p)
        | .braceApprox => PgTre.braceToken enc s c (input.drop p)
        | .normal => PgTre.normalToken enc s c (input.drop p)) := by
  have hmode : ({ ts with pos := p } : TokenizerState).mode = s.mode := h.mode_eq
  rw [modeToken_eq hmode]
  cases hinside : s.mode with
  | normal => exact matches_normalToken hagrees h hinside hchar
  | bracket => exact matches_bracketToken hagrees hhigh h hinside hchar
  | brace => exact matches_braceToken hagrees hhigh h (Or.inl hinside) hchar
  | braceApprox => exact matches_braceToken hagrees hhigh h (Or.inr hinside) hchar

/-! ## The calls -/

/-- A call of the one tokenizer does what a call of the other does. -/
theorem treTokenizeNext_matches (hagrees : Agrees tables enc) (hhigh : HighCodes tables)
    (h : Represents input ts s) :
    Matches input (treTokenizeNext tables noneBeyond input ts).result
      (PgTre.treTokenizeNext enc s) := by
  have hnext := @result_nextChar tables enc input ts.pos hagrees
  unfold treTokenizeNext PgTre.treTokenizeNext tokenizeNext
  rw [← h.pending_eq]
  cases hpending : ts.pending with
  | some t => exact matches_token { h with pending_eq := rfl }
  | none =>
    dsimp only
    rw [← h.rest_eq]
    cases hchar : enc.nextChar (input.drop ts.pos) with
    | ended =>
      rw [hchar] at hnext
      rw [if_pos hnext]
      rfl
    | invalid =>
      rw [hchar] at hnext
      rw [if_neg (not_le.mpr hnext.1), result_bind_error hnext.2]
      rfl
    | char c rest =>
      rw [hchar] at hnext
      obtain ⟨p, hread, rfl⟩ := hnext
      obtain ⟨hnonneg, hlt, hend⟩ := charAt_bounds hread
      rw [if_neg (by omega), result_bind (charAt_eq_some.mp hread).1]
      dsimp only
      rw [if_neg (by omega)]
      have hmatches := matches_modeToken hagrees hhigh h hread
      rw [hpending] at hmatches
      exact hmatches

/-! ## The loop -/

/-- The loop ends with the result of the parser, or with an error. -/
def Ends : Except ScanError ParserState → Except ScanError (RegexAst × Bool) → Prop
  | .error e, r => r = .error e
  | .ok ps, r => ∃ force, r =
      match ps.finish with
      | .error e => .error (.syntaxError (some e))
      | .ok root => .ok (root, force)

/-- From a state and the one it represents on, both loops end alike. -/
theorem tokenLoop_ends (hagrees : Agrees tables enc) (hhigh : HighCodes tables) {ps : ParserState}
    (h : Represents input ts s) :
    Ends (tokenLoop tables noneBeyond input pgTreRxParse fuel ts ps).result
      (parseLoop enc .index fuel s ps) := by
  induction fuel generalizing ts s ps with
  | zero => rfl
  | succ fuel ih =>
    have hcall := treTokenizeNext_matches hagrees hhigh h
    rw [tokenLoop, parseLoop]
    change Matches input _ (tokenizeNext enc .index s) at hcall
    cases htoken : tokenizeNext enc .index s with
    | eof =>
      rw [htoken] at hcall
      rw [result_bind hcall]
      exact ⟨s.forceAlwaysTrue, rfl⟩
    | error e =>
      rw [htoken] at hcall
      rw [result_bind_error hcall]
      rfl
    | token t s' =>
      rw [htoken] at hcall
      obtain ⟨ts', hts', hnext⟩ := hcall
      rw [result_bind hts']
      dsimp only
      unfold pgTreRxParse
      cases ps.shift t with
      | error e => rfl
      | ok ps' => exact ih hnext

/-- `tre_parse_regex` returns what the loop by positions ends with. -/
theorem treParseRegex_ends (hagrees : Agrees tables enc) (hhigh : HighCodes tables) :
    ∃ r, Ends (tokenLoop tables noneBeyond input pgTreRxParse (2 * input.length + 1) initTokenizer
        .start).result r ∧
      treParseRegex enc input = r.mapError ScanError.orEmptyPattern :=
  ⟨_, tokenLoop_ends hagrees hhigh (represents_init input), rfl⟩

/-- Every state in which the loop calls the tokenizer represents one on the rest of the input. -/
theorem Reached.represents (hagrees : Agrees tables enc) (hhigh : HighCodes tables) {σ : Type}
    {parse : σ → TreToken → Except ScanError σ} {start parser : σ}
    (h : Reached tables noneBeyond input parse start ts parser) : ∃ s, Represents input ts s := by
  induction h with
  | init => exact ⟨_, represents_init input⟩
  | @next ts ts' t parser parser' h htoken hparse ih =>
    obtain ⟨s, hs⟩ := ih
    have hcall := treTokenizeNext_matches hagrees hhigh hs
    rw [htoken] at hcall
    cases hnext : PgTre.treTokenizeNext enc s with
    | eof =>
      rw [hnext] at hcall
      cases hcall
    | error e =>
      rw [hnext] at hcall
      cases hcall
    | token t' s' =>
      rw [hnext] at hcall
      obtain ⟨ts'', hts'', hs'⟩ := hcall
      cases hts''
      exact ⟨s', hs'⟩

end

/-! ## Encodings of tables -/

/-- A character is read from its bytes alone, and none behind the first one is ASCII. -/
structure Characterwise (tables : ServerEncoding) : Prop where
  high : ∀ b s len w, decodeChar tables (b :: s) = .ok (len, w) → ∀ b' ∈ s.take (len - 1), 128 ≤ b'
  apart : ∀ b s s' len w, decodeChar tables (b :: s) = .ok (len, w) →
    s'.take (len - 1) = s.take (len - 1) → decodeChar tables (b :: s') = .ok (len, w)

/-- How a character and what is left behind it come about. -/
theorem decodeMbOf_eq_some {tables : ServerEncoding} {b : UInt8} {bytes rest : List UInt8}
    {c : CodePoint} (h : decodeMbOf tables b bytes = some (c, rest)) :
    ∃ n w, decodeChar tables (b :: bytes) = .ok (n + 1, w) ∧ n ≤ bytes.length ∧ c = w.toNat ∧
      rest = bytes.drop n := by
  unfold decodeMbOf at h
  split at h
  · cases h
  rename_i len w hchar
  obtain ⟨hpos, hlength, -⟩ := decodeChar_lt hchar
  obtain ⟨n, rfl⟩ := Nat.exists_eq_succ_of_ne_zero hpos.ne'
  obtain ⟨rfl, rfl⟩ := Prod.mk.inj (Option.some.inj h)
  exact ⟨n, w, hchar, Nat.succ_le_succ_iff.mp hlength, rfl, rfl⟩

/-- A multibyte character has high bytes only. -/
theorem decodeMbOf_high {tables : ServerEncoding} (h : Characterwise tables) {b : UInt8}
    {bytes rest : List UInt8} {c : CodePoint} (hdecode : decodeMbOf tables b bytes = some (c, rest)) :
    ∃ tail, bytes = tail ++ rest ∧ ∀ b' ∈ tail, 128 ≤ b' := by
  obtain ⟨n, w, hchar, -, -, rfl⟩ := decodeMbOf_eq_some hdecode
  exact ⟨bytes.take n, (List.take_append_drop n bytes).symm, h.high _ _ _ _ hchar⟩

/-- A multibyte character is decoded whatever follows. -/
theorem decodeMbOf_apart {tables : ServerEncoding} (h : Characterwise tables) {b : UInt8}
    {tail rest : List UInt8} {c : CodePoint}
    (hdecode : decodeMbOf tables b (tail ++ rest) = some (c, rest)) (rest' : List UInt8) :
    decodeMbOf tables b (tail ++ rest') = some (c, rest') := by
  obtain ⟨n, w, hchar, hlength, rfl, hrest⟩ := decodeMbOf_eq_some hdecode
  -- The character ends where the tail does.
  have hn : n = tail.length := by
    have hdrop := congrArg List.length hrest
    rw [List.length_drop, List.length_append] at hdrop
    rw [List.length_append] at hlength
    omega
  subst hn
  have hsame : (tail ++ rest').take (tail.length + 1 - 1) =
      (tail ++ rest).take (tail.length + 1 - 1) := by
    rw [Nat.add_sub_cancel, List.take_left, List.take_left]
  rw [decodeMbOf, h.apart _ _ _ _ _ hchar hsame]
  dsimp only
  rw [List.drop_succ_cons, List.drop_left]

/-- The encoding of tables. -/
def encodingOf (tables : ServerEncoding) (h : Characterwise tables) : Encoding where
  name := tables.name
  decodeMb := decodeMbOf tables
  high := decodeMbOf_high h
  apart := decodeMbOf_apart h

/-- The tables agree with the encoding made of them. -/
theorem agrees_encodingOf {tables : ServerEncoding} (h : Characterwise tables) :
    Agrees tables (encodingOf tables h) :=
  ⟨rfl, fun _ _ _ => rfl⟩

/-- The bytes of a legal character behind the first one are not ASCII. -/
theorem utf8Legal_high {b : UInt8} {tail : List UInt8} (hlegal : utf8Legal (b :: tail) = true) :
    ∀ b' ∈ tail, 128 ≤ b' := by
  have hsecond : ∀ {c : UInt8}, isUtf8Second b c = true → 128 ≤ c := by
    intro c h
    unfold isUtf8Second isUtf8Tail at h
    split_ifs at h <;>
      simp only [decide_eq_true_eq, UInt8.le_iff_toNat_le, UInt8.reduceToNat] at h ⊢ <;> omega
  have htail : ∀ {c : UInt8}, isUtf8Tail c = true → 128 ≤ c :=
    fun h => (of_decide_eq_true h).1
  match tail with
  | [] => simp
  | [b2] =>
    obtain ⟨h2, -⟩ := Bool.and_eq_true_iff.mp hlegal
    simpa using hsecond h2
  | [b2, b3] =>
    obtain ⟨hlegal, -⟩ := Bool.and_eq_true_iff.mp hlegal
    obtain ⟨h3, h2⟩ := Bool.and_eq_true_iff.mp hlegal
    simpa using ⟨hsecond h2, htail h3⟩
  | [b2, b3, b4] =>
    obtain ⟨hlegal, -⟩ := Bool.and_eq_true_iff.mp hlegal
    obtain ⟨hlegal, h2⟩ := Bool.and_eq_true_iff.mp hlegal
    obtain ⟨h4, h3⟩ := Bool.and_eq_true_iff.mp hlegal
    simpa using ⟨hsecond h2, htail h3, htail h4⟩
  | _ :: _ :: _ :: _ :: _ => cases hlegal

/-- UTF-8 is decoded character by character. -/
theorem utf8_characterwise : Characterwise utf8Encoding where
  high := by
    intro b s len w hdecode
    by_cases hb : b < 0x80
    · rw [decodeChar, if_pos hb] at hdecode
      obtain ⟨rfl, -⟩ := Prod.mk.inj (Except.ok.inj hdecode)
      simp
    · obtain ⟨-, -, hlegal, -⟩ := (decodeChar_utf8_eq_ok hb).mp hdecode
      obtain ⟨n, rfl⟩ := Nat.exists_eq_succ_of_ne_zero (decodeChar_lt hdecode).1.ne'
      exact utf8Legal_high hlegal
  apart := by
    intro b s s' len w hdecode hsame
    by_cases hb : b < 0x80
    · rw [decodeChar, if_pos hb] at hdecode ⊢
      exact hdecode
    · obtain ⟨hlen, hlength, hlegal, hw⟩ := (decodeChar_utf8_eq_ok hb).mp hdecode
      obtain ⟨n, rfl⟩ := Nat.exists_eq_succ_of_ne_zero (decodeChar_lt hdecode).1.ne'
      have htake : (b :: s').take (n + 1) = (b :: s).take (n + 1) := congrArg (List.cons b) hsame
      rw [decodeChar_utf8_eq_ok hb, htake]
      refine ⟨hlen, ?_, hlegal, hw⟩
      have hbytes := congrArg List.length hsame
      simp only [Nat.succ_eq_add_one, Nat.add_sub_cancel, List.length_take] at hbytes
      simp only [List.length_cons] at hlength ⊢
      omega

/-- In UTF-8 both tokenizers parse a pattern alike. -/
theorem treParseRegex_utf8 (input : List UInt8) :
    ∃ r, Ends (tokenLoop utf8Encoding noneBeyond input pgTreRxParse (2 * input.length + 1) initTokenizer
        .start).result r ∧
      treParseRegex (encodingOf utf8Encoding utf8_characterwise) input =
        r.mapError ScanError.orEmptyPattern :=
  treParseRegex_ends (agrees_encodingOf utf8_characterwise) utf8_highCodes

end PgTre.Positional
