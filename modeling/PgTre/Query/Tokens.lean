import PgTre.Query.Tiling

/-!
# The tokenizer of patterns

`src/query/tokens.c` cuts a pattern into the tokens of the grammar. What a byte means depends on
the mode: inside brackets a dash makes a range, inside braces there are counts. A backslash inside
brackets is where the two engines that recheck rows differ, so the tokenizer is defined for a
reading of it. The reading `index` is that of the source.
-/

namespace PgTre

/-! ## Characters -/

/-- The code point of an ASCII character. -/
abbrev cp (c : Char) : CodePoint := c.toNat

/-- Its byte. -/
abbrev byte (c : Char) : UInt8 := UInt8.ofNat c.toNat

/-- A server encoding. ASCII bytes stand for themselves in all of them. -/
structure Encoding where
  name : String
  /-- The character that begins with a byte above 127, and the bytes after it. There is none if the
  bytes are not valid. -/
  decodeMb : UInt8 → List UInt8 → Option (CodePoint × List UInt8)
  /-- No byte of such a character is ASCII. -/
  high : ∀ {b rest c rest'}, decodeMb b rest = some (c, rest') →
    ∃ tail, rest = tail ++ rest' ∧ ∀ b' ∈ tail, 128 ≤ b'
  /-- What stands behind a character does not matter. -/
  apart : ∀ {b tail rest c}, decodeMb b (tail ++ rest) = some (c, rest) →
    ∀ rest', decodeMb b (tail ++ rest') = some (c, rest')

/-- What `next_char` and `peek_char` find. -/
inductive Decoded where
  | ended
  | invalid
  | char (c : CodePoint) (rest : List UInt8)

/-- `pg_tre_cpstream_next` on the bytes that are left. -/
def Encoding.nextChar (enc : Encoding) : List UInt8 → Decoded
  | [] => .ended
  | b :: rest =>
      if b < 128 then .char b.toNat rest
      else
        match enc.decodeMb b rest with
        | none => .invalid
        | some (c, rest') => .char c rest'

/-- How a call ends that gives no token: the pattern is not accepted, with a message if one was
set, or an error is raised. -/
inductive ScanError where
  | syntaxError (errmsg : Option String)
  | raised (e : PgError)

/-- The error of `pg_tre_cpstream_next`. Each call begins a stream, so that the offset is 0. -/
def Encoding.invalidSequence (enc : Encoding) : ScanError :=
  let name := enc.name
  .raised ⟨s!"invalid byte sequence for encoding \"{name}\" at byte offset 0"⟩

/-- `isdigit`. -/
def isDigit (c : CodePoint) : Bool := decide (48 ≤ c ∧ c ≤ 57)

/-- `isalnum`. -/
def isAlnum (c : CodePoint) : Bool :=
  isDigit c || decide (65 ≤ c ∧ c ≤ 90) || decide (97 ≤ c ∧ c ≤ 122)

/-- `isxdigit`. -/
def isXDigit (c : CodePoint) : Bool :=
  isDigit c || decide (65 ≤ c ∧ c ≤ 70) || decide (97 ≤ c ∧ c ≤ 102)

/-! ## Tokens and states -/

/-- A token with what `TreToken` carries for it. -/
inductive TreToken where
  | pipe
  | star
  | plus
  | question
  | lbrace
  | approx (i : ℕ)
  | int (i : ℕ)
  | rbrace
  | comma
  | lparen
  | rparen
  | literal (cp : CodePoint)
  | dot
  | anchorStart
  | anchorEnd
  | lbracket
  | rbracket (isOpaque : Bool)
  | caret
  | dash
  deriving DecidableEq

/-- `TokenizerMode`. -/
inductive TokenizerMode where
  | normal
  | bracket
  | brace
  | braceApprox
  deriving DecidableEq

/-- `TokenizerState`, with the flag of the parse context that the tokenizer sets. Neither a bracket
nor a brace opens inside another, so that their depths are 1 inside and 0 outside. -/
structure TokenizerState where
  /-- The input from `pos` on. -/
  rest : List UInt8
  mode : TokenizerMode
  /-- `pos` is `bracket_first`. -/
  bracketFirst : Bool
  bracketOpaque : Bool
  pending : Option TreToken
  forceAlwaysTrue : Bool
  deriving DecidableEq

/-- `init_tokenizer`. -/
def initTokenizer (input : List UInt8) : TokenizerState where
  rest := input
  mode := .normal
  bracketFirst := false
  bracketOpaque := false
  pending := none
  forceAlwaysTrue := false

/-- Who reads a backslash inside brackets. -/
inductive BracketReading where
  /-- The index: the bracket is any one character, and what parse_escape consumes is inside. -/
  | index
  /-- TRE follows POSIX: the backslash is a member. -/
  | posix
  /-- The backslash is an escape, as parse_escape reads it. -/
  | are
  /-- The core engine reads an escape, and the character behind `\c` is a part of it. -/
  | core
  deriving DecidableEq

/-- What a call of `tre_tokenize_next` returns. -/
inductive TokenResult where
  | eof
  | error (e : ScanError)
  | token (t : TreToken) (ts : TokenizerState)

/-! ## Scanning -/

/-- Drops a byte if it comes next. -/
def dropByte (b : UInt8) : List UInt8 → List UInt8
  | [] => []
  | b' :: rest => if b' = b then rest else b' :: rest

/-- `skip_lazy`. -/
def skipLazy (rest : List UInt8) : List UInt8 := dropByte (byte '?') rest

/-- What begins a class, an equivalence or a collating element behind `[`. -/
def isNamedDelim (b : UInt8) : Bool := decide (b = byte ':' ∨ b = byte '=' ∨ b = byte '.')

/-- The bytes after the delimiter and `]`. -/
def namedEnd (delim : UInt8) : List UInt8 → Option (List UInt8)
  | b :: b' :: rest =>
      if b = delim ∧ b' = byte ']' then some rest else namedEnd delim (b' :: rest)
  | [_] => none
  | [] => none

/-- The loop of `skip_group`. -/
def skipGroupLoop : ℕ → ℕ → Bool → List UInt8 → Option (List UInt8)
  | 0, _, _, _ => none
  | _ + 1, _, _, [] => none
  | fuel + 1, depth, inBracket, c :: rest =>
      if c = byte '\\' then skipGroupLoop fuel depth inBracket (rest.drop 1)
      else if inBracket then
        match rest with
        | delim :: rest' =>
            if c = byte '[' ∧ isNamedDelim delim = true then
              skipGroupLoop fuel depth true ((namedEnd delim rest').getD [])
            else skipGroupLoop fuel depth (decide (c ≠ byte ']')) rest
        | [] => skipGroupLoop fuel depth (decide (c ≠ byte ']')) rest
      else if c = byte '[' then
        skipGroupLoop fuel depth true (dropByte (byte ']') (dropByte (byte '^') rest))
      else if c = byte '(' then skipGroupLoop fuel (depth + 1) false rest
      else if c = byte ')' then
        if depth = 1 then some rest else skipGroupLoop fuel (depth - 1) false rest
      else skipGroupLoop fuel depth false rest

/-- `skip_group`: the bytes after the closing parenthesis. -/
def skipGroup (rest : List UInt8) : Option (List UInt8) :=
  skipGroupLoop (rest.length + 1) 1 false rest

/-- The result of `parse_escape`: a character, `PG_TRE_ESC_CLASS` or `PG_TRE_ESC_OPAQUE`. -/
inductive Escape where
  | char (c : CodePoint)
  | shorthand
  | unknown
  deriving DecidableEq

/-- The digits and braces of a character code. -/
def isCodeByte (b : UInt8) : Bool := isXDigit b.toNat || decide (b = byte '{' ∨ b = byte '}')

/-- `parse_escape` after the backslash. Punctuation, and whatever else is neither an ASCII letter
nor a digit, stands for itself. -/
def parseEscape (enc : Encoding) (rest : List UInt8) : Except ScanError (Escape × List UInt8) :=
  match enc.nextChar rest with
  | .ended => .error (.syntaxError (some "unexpected end of pattern after backslash"))
  | .invalid => .error enc.invalidSequence
  | .char c rest =>
      if c = cp 'n' then .ok (.char 10, rest)
      else if c = cp 't' then .ok (.char 9, rest)
      else if c = cp 'r' then .ok (.char 13, rest)
      else if c ∈ [cp 'd', cp 'D', cp 'w', cp 'W', cp 's', cp 'S'] then .ok (.shorthand, rest)
      else if c = cp '<' ∨ c = cp '>' then .ok (.unknown, rest)
      else if c < 128 ∧ isAlnum c = true then
        .ok (.unknown, if c ∈ [cp 'x', cp 'u', cp 'U', cp '0'] then rest.dropWhile isCodeByte
          else rest)
      else .ok (.char c, rest)

/-- The loop of `parse_integer`, in `int` arithmetic. -/
def parseIntegerLoop (enc : Encoding) : ℤ → Bool → List UInt8 → Except ScanError (ℤ × List UInt8)
  | val, gotDigit, [] =>
      if gotDigit then .ok (val, [])
      else .error (.syntaxError (some "expected digit in repetition count"))
  | val, gotDigit, b :: rest =>
      if isDigit b.toNat then
        parseIntegerLoop enc (wrap32 (val * 10 + (b.toNat - 48))) true rest
      else
        match enc.nextChar (b :: rest) with
        | .invalid => .error enc.invalidSequence
        | _ =>
            if gotDigit then .ok (val, b :: rest)
            else .error (.syntaxError (some "expected digit in repetition count"))

/-- `parse_integer`. -/
def parseInteger (enc : Encoding) (rest : List UInt8) : Except ScanError (ℤ × List UInt8) :=
  parseIntegerLoop enc 0 false rest

/-! ## The modes -/

/-- An escape inside brackets. -/
def areEscape (enc : Encoding) (ts : TokenizerState) (rest : List UInt8) : TokenResult :=
  match parseEscape enc rest with
  | .error e => .error e
  | .ok (.char c, rest') => .token (.literal c) { ts with rest := rest', bracketFirst := false }
  | .ok (_, rest') =>
      .token (.literal 0) { ts with rest := rest', bracketFirst := false, bracketOpaque := true }

/-- `\c` and a character, whatever it is, in the core engine. -/
def controlEscape (enc : Encoding) (ts : TokenizerState) (rest : List UInt8) : TokenResult :=
  match enc.nextChar rest with
  | .ended => .error (.syntaxError none)
  | .invalid => .error enc.invalidSequence
  | .char c rest' =>
      .token (.literal (c % 32)) { ts with rest := rest', bracketFirst := false }

/-- A backslash inside brackets, with the bytes after it. -/
def bracketEscape (enc : Encoding) (reading : BracketReading) (ts : TokenizerState)
    (rest : List UInt8) : TokenResult :=
  match reading with
  | .posix => .token (.literal (cp '\\')) { ts with rest := rest, bracketFirst := false }
  | .index =>
      match parseEscape enc rest with
      | .error e => .error e
      | .ok (_, rest') =>
          .token (.literal 0)
            { ts with rest := rest', bracketFirst := false, bracketOpaque := true }
  | .are => areEscape enc ts rest
  | .core =>
      if rest.head? = some (byte 'c') then controlEscape enc ts rest.tail else areEscape enc ts rest

/-- `MODE_BRACKET`. To the engines a caret that is not first is a member; the source leaves it to
the grammar, which has no such rule. -/
def bracketToken (enc : Encoding) (reading : BracketReading) (ts : TokenizerState) (c : CodePoint)
    (rest : List UInt8) : TokenResult :=
  let ts' := { ts with rest := rest, bracketFirst := false }
  if c = cp ']' then
    if ts.bracketFirst then .token (.literal (cp ']')) ts'
    else
      .token (.rbracket ts.bracketOpaque) { ts' with mode := .normal, bracketOpaque := false }
  else if c = cp '-' then
    if ts.bracketFirst = true ∨ rest.head? = some (byte ']') then .token (.literal (cp '-')) ts'
    else .token .dash ts'
  else if c = cp '^' then
    if ts.bracketFirst then .token .caret { ts' with bracketFirst := true }
    else
      match reading with
      | .index => .token .caret ts'
      | _ => .token (.literal (cp '^')) ts'
  else if c = cp '\\' then bracketEscape enc reading ts rest
  else
    match rest with
    | delim :: rest' =>
        if c = cp '[' ∧ isNamedDelim delim = true then
          match namedEnd delim rest' with
          | none =>
              let d := Char.ofNat delim.toNat
              .error (.syntaxError (some s!"unterminated [{d} in bracket expression"))
          | some rest'' =>
              .token (.literal 0) { ts' with rest := rest'', bracketOpaque := true }
        else .token (.literal c) ts'
    | [] => .token (.literal c) ts'

/-- `MODE_BRACE` and `MODE_BRACE_APPROX`. -/
def braceToken (enc : Encoding) (ts : TokenizerState) (c : CodePoint) (rest : List UInt8) :
    TokenResult :=
  if c = cp '}' then .token .rbrace { ts with rest := skipLazy rest, mode := .normal }
  else if c = cp ',' then .token .comma { ts with rest := rest }
  else if c = cp '~' ∧ ts.mode = .brace then
    match parseInteger enc rest with
    | .error e => .error e
    | .ok (k, rest') =>
        if k < 0 then .error (.syntaxError none)
        else .token (.approx k.toNat) { ts with rest := rest', mode := .braceApprox }
  else if isDigit c then
    match parseInteger enc ts.rest with
    | .error e => .error e
    | .ok (val, rest') =>
        if val < 0 then .error (.syntaxError none)
        else .token (.int val.toNat) { ts with rest := rest' }
  else
    let d := Char.ofNat (c % 256)
    .error (.syntaxError (some s!"unexpected character '{d}' inside \x7b\x7d"))

/-- Something the index cannot rely on: no more of the pattern is read. -/
def giveUpToken (ts : TokenizerState) : TokenResult :=
  .token .dot { ts with rest := [], forceAlwaysTrue := true }

/-- A lookaround, after its opening: the group is skipped and stands for an optional character. -/
def lookaroundToken (ts : TokenizerState) (rest : List UInt8) : TokenResult :=
  match skipGroup rest with
  | none => .error (.syntaxError (some "unterminated lookaround group"))
  | some rest' => .token .dot { ts with rest := rest', pending := some .question }

/-- An opening parenthesis. -/
def parenToken (ts : TokenizerState) (rest : List UInt8) : TokenResult :=
  match rest with
  | q :: g =>
      if q = byte '?' then
        match g with
        | [] => giveUpToken ts
        | g0 :: g' =>
            if g0 = byte ':' then .token .lparen { ts with rest := g' }
            else if g0 = byte '=' ∨ g0 = byte '!' then lookaroundToken ts g'
            else if g0 = byte '<' ∧ (g'.head? = some (byte '=') ∨ g'.head? = some (byte '!')) then
              lookaroundToken ts (g'.drop 1)
            else giveUpToken ts
      else .token .lparen { ts with rest := rest }
  | [] => .token .lparen { ts with rest := rest }

/-- `MODE_NORMAL`. -/
def normalToken (enc : Encoding) (ts : TokenizerState) (c : CodePoint) (rest : List UInt8) :
    TokenResult :=
  if c = cp '|' then .token .pipe { ts with rest := rest }
  else if c = cp '*' then .token .star { ts with rest := skipLazy rest }
  else if c = cp '+' then .token .plus { ts with rest := skipLazy rest }
  else if c = cp '?' then .token .question { ts with rest := skipLazy rest }
  else if c = cp '(' then parenToken ts rest
  else if c = cp ')' then .token .rparen { ts with rest := rest }
  else if c = cp '.' then .token .dot { ts with rest := rest }
  else if c = cp '^' then .token .anchorStart { ts with rest := rest }
  else if c = cp '$' then .token .anchorEnd { ts with rest := rest }
  else if c = cp '[' then
    .token .lbracket { ts with rest := rest, mode := .bracket, bracketFirst := true }
  else if c = cp '{' then .token .lbrace { ts with rest := rest, mode := .brace }
  else if c = cp '\\' then
    match parseEscape enc rest with
    | .error e => .error e
    | .ok (.shorthand, rest') => .token .dot { ts with rest := rest' }
    | .ok (.unknown, _) => giveUpToken ts
    | .ok (.char c', rest') => .token (.literal c') { ts with rest := rest' }
  else .token (.literal c) { ts with rest := rest }

/-- A call of the tokenizer. An end of the input is found before a mode looks at it, and where the
input has not ended a character consumes at least one byte. -/
def tokenizeNext (enc : Encoding) (reading : BracketReading) (ts : TokenizerState) : TokenResult :=
  match ts.pending with
  | some t => .token t { ts with pending := none }
  | none =>
      match enc.nextChar ts.rest with
      | .ended => .eof
      | .invalid => .error enc.invalidSequence
      | .char c rest =>
          match ts.mode with
          | .bracket => bracketToken enc reading ts c rest
          | .brace => braceToken enc ts c rest
          | .braceApprox => braceToken enc ts c rest
          | .normal => normalToken enc ts c rest

/-- `tre_tokenize_next`. -/
def treTokenizeNext (enc : Encoding) (ts : TokenizerState) : TokenResult :=
  tokenizeNext enc .index ts

/-! ## What a token consumes -/

/-- The bytes are characters of the encoding, as those of every text value are. -/
inductive Encoding.Valid (enc : Encoding) : List UInt8 → Prop
  | nil : enc.Valid []
  | char {bytes rest : List UInt8} {c : CodePoint} (h : enc.nextChar bytes = .char c rest)
      (hrest : enc.Valid rest) : enc.Valid bytes

/-- An ASCII byte is a character. -/
theorem Encoding.nextChar_ascii {enc : Encoding} {b : UInt8} (hb : b < 128) (rest : List UInt8) :
    enc.nextChar (b :: rest) = .char b.toNat rest := by
  rw [Encoding.nextChar, if_pos hb]

/-- A character is its first byte, and bytes above 127. -/
theorem Encoding.nextChar_eq_char {enc : Encoding} {bytes rest : List UInt8} {c : CodePoint}
    (h : enc.nextChar bytes = .char c rest) :
    ∃ b tail, bytes = b :: (tail ++ rest) ∧ (b < 128 → tail = []) ∧ ∀ b' ∈ tail, 128 ≤ b' := by
  cases bytes with
  | nil => cases h
  | cons b bytes =>
    by_cases hb : b < 128
    · rw [Encoding.nextChar_ascii hb] at h
      cases h
      exact ⟨b, [], rfl, fun _ => rfl, by simp⟩
    · rw [Encoding.nextChar, if_neg hb] at h
      cases hdecode : enc.decodeMb b bytes with
      | none => simp [hdecode] at h
      | some r =>
        simp only [hdecode] at h
        cases h
        obtain ⟨tail, rfl, htail⟩ := enc.high hdecode
        exact ⟨b, tail, rfl, fun hlow => absurd hlow hb, htail⟩

/-- A valid string ends, or begins with a character. -/
theorem Encoding.Valid.nextChar {enc : Encoding} {bytes : List UInt8} (h : enc.Valid bytes) :
    enc.nextChar bytes ≠ .invalid := by
  cases h with
  | nil => simp [Encoding.nextChar]
  | char h => simp [h]

/-- What follows a character of valid text is valid. -/
theorem Encoding.Valid.rest {enc : Encoding} {bytes rest : List UInt8} {c : CodePoint}
    (h : enc.Valid bytes) (hchar : enc.nextChar bytes = .char c rest) : enc.Valid rest := by
  cases h with
  | nil => cases hchar
  | char h hrest =>
    cases h.symm.trans hchar
    exact hrest

/-- An ASCII byte stands between characters. -/
theorem Encoding.Valid.suffix {enc : Encoding} {bytes rest : List UInt8} {b : UInt8}
    (h : enc.Valid bytes) (hb : b < 128) (hsuffix : b :: rest <:+ bytes) : enc.Valid rest := by
  induction h with
  | nil => simp at hsuffix
  | @char bytes rest' c hchar hrest ih =>
    obtain ⟨b', tail, rfl, hlow, hhigh⟩ := Encoding.nextChar_eq_char hchar
    rcases List.suffix_cons_iff.mp hsuffix with heq | hsuffix
    · obtain ⟨rfl, rfl⟩ := List.cons.inj heq
      rw [hlow hb]
      exact hrest
    · apply ih
      -- the suffix cannot begin inside the character
      obtain ⟨front, hfront⟩ := hsuffix
      rcases List.append_eq_append_iff.mp hfront with ⟨middle, rfl, hmiddle⟩ | ⟨middle, -, hmiddle⟩
      · cases middle with
        | nil => exact ⟨[], by simpa using hmiddle⟩
        | cons x middle =>
          obtain ⟨rfl, -⟩ := List.cons.inj hmiddle
          have hx := hhigh b (by simp)
          exact absurd hb (UInt8.not_lt.mpr hx)
      · exact ⟨middle, hmiddle.symm⟩

/-- What is left behind some of the bytes: not more of them, and characters if they were. -/
structure Encoding.Skips (enc : Encoding) (bytes rest : List UInt8) : Prop where
  length : rest.length ≤ bytes.length
  valid : enc.Valid bytes → enc.Valid rest

/-- What is left behind at least one of the bytes. -/
structure Encoding.Consumes (enc : Encoding) (bytes rest : List UInt8) : Prop where
  length : rest.length < bytes.length
  valid : enc.Valid bytes → enc.Valid rest

section Consumes

variable {enc : Encoding} {bytes rest rest' : List UInt8}

/-- Consuming is skipping. -/
theorem Encoding.Consumes.skips (h : enc.Consumes bytes rest) : enc.Skips bytes rest :=
  ⟨h.length.le, h.valid⟩

/-- Skipping behind what is consumed consumes. -/
theorem Encoding.Consumes.trans (h : enc.Consumes bytes rest) (h' : enc.Skips rest rest') :
    enc.Consumes bytes rest' :=
  ⟨h'.length.trans_lt h.length, fun hvalid => h'.valid (h.valid hvalid)⟩

/-- Nothing need be skipped. -/
theorem Encoding.Skips.refl (bytes : List UInt8) : enc.Skips bytes bytes := ⟨le_rfl, id⟩

/-- All that is left is skipped. -/
theorem Encoding.Skips.nil (bytes : List UInt8) : enc.Skips bytes [] := ⟨by simp, fun _ => .nil⟩

/-- A character consumes its bytes. -/
theorem Encoding.nextChar_consumes {c : CodePoint} (h : enc.nextChar bytes = .char c rest) :
    enc.Consumes bytes rest := by
  refine ⟨?_, fun hvalid => hvalid.rest h⟩
  obtain ⟨b, tail, rfl, -, -⟩ := Encoding.nextChar_eq_char h
  simp only [List.length_cons, List.length_append]
  omega

/-- Up to an ASCII byte. -/
theorem Encoding.Consumes.of_suffix {b : UInt8} (hb : b < 128) (h : b :: rest <:+ bytes) :
    enc.Consumes bytes rest := by
  refine ⟨?_, fun hvalid => hvalid.suffix hb h⟩
  have hlength := h.length_le
  simp only [List.length_cons] at hlength
  omega

/-- Dropping a byte leaves a suffix. -/
theorem dropByte_suffix (b : UInt8) (rest : List UInt8) : dropByte b rest <:+ rest := by
  cases rest with
  | nil => exact List.suffix_rfl
  | cons b' rest =>
    simp only [dropByte]
    split
    · exact List.suffix_cons b' rest
    · exact List.suffix_rfl

/-- A lazy mark may be skipped. -/
theorem skipLazy_skips (rest : List UInt8) : enc.Skips rest (skipLazy rest) := by
  cases rest with
  | nil => exact .refl _
  | cons b rest =>
    unfold skipLazy
    simp only [dropByte]
    split
    · rename_i hb
      subst hb
      have hascii : byte '?' < 128 := by decide
      exact (Encoding.Consumes.of_suffix hascii List.suffix_rfl).skips
    · exact .refl _

/-- The end of a name leaves a suffix that begins with a bracket. -/
theorem namedEnd_suffix {delim : UInt8} (h : namedEnd delim bytes = some rest) :
    byte ']' :: rest <:+ bytes := by
  induction bytes with
  | nil => cases h
  | cons b bytes ih =>
    cases bytes with
    | nil => cases h
    | cons b' bytes =>
      unfold namedEnd at h
      split at h
      · rename_i hend
        cases h
        rw [← hend.2]
        exact List.suffix_cons b _
      · exact (ih h).trans (List.suffix_cons b _)

/-- The end of a group leaves a suffix that begins with a parenthesis. -/
theorem skipGroupLoop_suffix {fuel depth : ℕ} {inBracket : Bool}
    (h : skipGroupLoop fuel depth inBracket bytes = some rest) : byte ')' :: rest <:+ bytes := by
  induction fuel generalizing depth inBracket bytes with
  | zero => cases h
  | succ fuel ih =>
    cases bytes with
    | nil => cases h
    | cons c bytes =>
      have hstep : ∀ {depth inBracket bytes'}, bytes' <:+ bytes →
          skipGroupLoop fuel depth inBracket bytes' = some rest → byte ')' :: rest <:+ c :: bytes :=
        fun hsuffix hrun => ((ih hrun).trans hsuffix).trans (List.suffix_cons c bytes)
      unfold skipGroupLoop at h
      split at h
      · exact hstep (List.drop_suffix 1 bytes) h
      · split at h
        · split at h
          · rename_i delim bytes
            split at h
            · refine hstep ?_ h
              cases hend : namedEnd delim bytes with
              | none => exact List.nil_suffix
              | some rest' =>
                have hsuffix := (List.suffix_cons (byte ']') rest').trans (namedEnd_suffix hend)
                exact hsuffix.trans (List.suffix_cons delim bytes)
            · exact hstep List.suffix_rfl h
          · exact hstep List.suffix_rfl h
        · split at h
          · exact hstep ((dropByte_suffix _ _).trans (dropByte_suffix _ _)) h
          · split at h
            · exact hstep List.suffix_rfl h
            · split at h
              · split at h
                · rename_i hc _
                  cases h
                  rw [hc]
                · exact hstep List.suffix_rfl h
              · exact hstep List.suffix_rfl h

/-- Skipping a group consumes its bytes. -/
theorem skipGroup_consumes (h : skipGroup bytes = some rest) : enc.Consumes bytes rest :=
  .of_suffix (by decide) (skipGroupLoop_suffix h)

/-- The bytes of a character code are ASCII, and none of them is a bracket. -/
theorem isCodeByte_bounds {b : UInt8} (h : isCodeByte b = true) :
    b.toNat < 128 ∧ b.toNat ≠ 91 ∧ b.toNat ≠ 93 ∧ b.toNat ≠ 94 := by
  simp only [isCodeByte, isXDigit, isDigit, Bool.or_eq_true, decide_eq_true_eq] at h
  rcases h with ((h | h) | h) | rfl | rfl
  · obtain ⟨hlo, hhi⟩ : 48 ≤ b.toNat ∧ b.toNat ≤ 57 := h
    omega
  · obtain ⟨hlo, hhi⟩ : 65 ≤ b.toNat ∧ b.toNat ≤ 70 := h
    omega
  · obtain ⟨hlo, hhi⟩ : 97 ≤ b.toNat ∧ b.toNat ≤ 102 := h
    omega
  · decide
  · decide

/-- Skipping a code skips bytes. -/
theorem skipCode_skips (bytes : List UInt8) : enc.Skips bytes (bytes.dropWhile isCodeByte) := by
  induction bytes with
  | nil => exact .refl _
  | cons b bytes ih =>
    by_cases hb : isCodeByte b = true
    · rw [List.dropWhile_cons_of_pos hb]
      have hascii : b < 128 := UInt8.lt_iff_toNat_lt.mpr (isCodeByte_bounds hb).1
      have hfirst : enc.Consumes (b :: bytes) bytes := .of_suffix hascii List.suffix_rfl
      exact (hfirst.trans ih).skips
    · rw [List.dropWhile_cons_of_neg hb]
      exact .refl _

/-- An escape is a character, with a character code behind it or not. -/
theorem parseEscape_rest {e : Escape} (h : parseEscape enc bytes = .ok (e, rest)) :
    ∃ c rest', enc.nextChar bytes = .char c rest' ∧
      (rest = rest' ∨ rest = rest'.dropWhile isCodeByte) := by
  unfold parseEscape at h
  cases hchar : enc.nextChar bytes with
  | ended => simp [hchar] at h
  | invalid => simp [hchar] at h
  | char c rest' =>
    refine ⟨c, rest', rfl, ?_⟩
    simp only [hchar] at h
    split_ifs at h
    all_goals
      obtain ⟨-, rfl⟩ := Prod.mk.inj (Except.ok.inj h)
      simp

/-- An escape consumes its bytes. -/
theorem parseEscape_consumes {e : Escape} (h : parseEscape enc bytes = .ok (e, rest)) :
    enc.Consumes bytes rest := by
  obtain ⟨c, rest', hchar, hrest⟩ := parseEscape_rest h
  have hconsumes := Encoding.nextChar_consumes hchar
  rcases hrest with rfl | rfl
  · exact hconsumes
  · exact hconsumes.trans (skipCode_skips rest')

/-- Reading an escape raises no error, if it reads characters. -/
theorem parseEscape_raised {e : PgError} (hvalid : enc.Valid bytes) :
    parseEscape enc bytes ≠ .error (.raised e) := by
  intro h
  unfold parseEscape at h
  cases hchar : enc.nextChar bytes with
  | ended => simp [hchar] at h
  | invalid => exact hvalid.nextChar hchar
  | char c rest' =>
    simp only [hchar] at h
    split_ifs at h

/-- A digit is a byte of its own. -/
theorem isDigit_consumes {b : UInt8} (h : isDigit b.toNat = true) (bytes : List UInt8) :
    enc.Consumes (b :: bytes) bytes := by
  have hascii : b < 128 := by
    simp only [isDigit, decide_eq_true_eq] at h
    obtain ⟨-, hhi⟩ : 48 ≤ b.toNat ∧ b.toNat ≤ 57 := h
    rw [UInt8.lt_iff_toNat_lt]
    exact lt_of_le_of_lt hhi (by decide)
  exact .of_suffix hascii List.suffix_rfl

/-- An integer skips its digits. -/
theorem parseIntegerLoop_skips {val val' : ℤ} {gotDigit : Bool}
    (h : parseIntegerLoop enc val gotDigit bytes = .ok (val', rest)) : enc.Skips bytes rest := by
  induction bytes generalizing val gotDigit with
  | nil =>
    unfold parseIntegerLoop at h
    split at h
    · cases h
      exact .refl _
    · cases h
  | cons b bytes ih =>
    unfold parseIntegerLoop at h
    split at h
    · rename_i hb
      exact ((isDigit_consumes hb bytes).trans (ih h)).skips
    · split at h
      · cases h
      · split at h
        · cases h
          exact .refl _
        · cases h

/-- A number has at least one digit. -/
theorem parseInteger_consumes {val : ℤ} (h : parseInteger enc bytes = .ok (val, rest)) :
    enc.Consumes bytes rest := by
  unfold parseInteger at h
  cases bytes with
  | nil => cases h
  | cons b bytes =>
    unfold parseIntegerLoop at h
    split at h
    · rename_i hb
      exact (isDigit_consumes hb bytes).trans (parseIntegerLoop_skips h)
    · split at h
      · cases h
      · cases h

/-- No integer of valid text raises an encoding error. -/
theorem parseIntegerLoop_raised {val : ℤ} {gotDigit : Bool} {e : PgError} (hvalid : enc.Valid bytes) :
    parseIntegerLoop enc val gotDigit bytes ≠ .error (.raised e) := by
  intro h
  induction bytes generalizing val gotDigit with
  | nil =>
    unfold parseIntegerLoop at h
    split at h <;> cases h
  | cons b bytes ih =>
    unfold parseIntegerLoop at h
    split at h
    · rename_i hb
      exact ih ((isDigit_consumes hb bytes).valid hvalid) h
    · split at h
      · rename_i hinvalid
        exact hvalid.nextChar hinvalid
      · split at h <;> cases h

/-- What a call may return: a token behind which less is left, or an error that is raised only for
bytes that are no characters. -/
structure TokenResult.Reads (enc : Encoding) (bytes : List UInt8) (r : TokenResult) : Prop where
  token : ∀ t ts, r = .token t ts → enc.Consumes bytes ts.rest
  raised : ∀ e, r = .error (.raised e) → ¬enc.Valid bytes

/-- A token that consumes its bytes reads them. -/
theorem TokenResult.Reads.of_token {t : TreToken} {ts : TokenizerState}
    (h : enc.Consumes bytes ts.rest) : (TokenResult.token t ts).Reads enc bytes where
  token := by
    rintro t' ts' ⟨⟩
    exact h
  raised := by rintro e ⟨⟩

/-- A syntax error reads nothing. -/
theorem TokenResult.Reads.of_syntaxError (errmsg : Option String) :
    (TokenResult.error (.syntaxError errmsg)).Reads enc bytes where
  token := by rintro t ts ⟨⟩
  raised := by rintro e ⟨⟩

/-- An error that comes from further on. -/
theorem TokenResult.Reads.of_error {e : ScanError} (hskips : enc.Skips bytes rest)
    (h : ∀ e', e = .raised e' → ¬enc.Valid rest) : (TokenResult.error e).Reads enc bytes where
  token := by rintro t ts ⟨⟩
  raised := by
    rintro e' heq hvalid
    cases heq
    exact h e' rfl (hskips.valid hvalid)

/-- A choice reads when both sides do. -/
theorem TokenResult.Reads.ite {p : Prop} [Decidable p] {r r' : TokenResult}
    (hr : r.Reads enc bytes) (hr' : r'.Reads enc bytes) :
    (if p then r else r').Reads enc bytes := by
  split
  · exact hr
  · exact hr'

end Consumes

section Reads

variable {enc : Encoding} {bytes rest : List UInt8} {ts : TokenizerState} {c : CodePoint}

/-- An ARE escape reads its bytes. -/
theorem areEscape_reads (h : enc.Consumes bytes rest) : (areEscape enc ts rest).Reads enc bytes := by
  have hescape : ∀ {e rest'}, parseEscape enc rest = .ok (e, rest') → enc.Consumes bytes rest' :=
    fun hescape => h.trans (parseEscape_consumes hescape).skips
  unfold areEscape
  split
  next e hparse =>
    exact .of_error h.skips fun e' heq hvalid => parseEscape_raised hvalid (heq ▸ hparse)
  next c rest' hparse => exact .of_token (hescape hparse)
  next e rest' hparse => exact .of_token (hescape hparse)

/-- A control escape reads its bytes. -/
theorem controlEscape_reads (h : enc.Consumes bytes rest) :
    (controlEscape enc ts rest).Reads enc bytes := by
  unfold controlEscape
  split
  next hended => exact .of_syntaxError none
  next hinvalid => exact .of_error h.skips fun e heq hvalid => hvalid.nextChar hinvalid
  next c rest' hchar => exact .of_token (h.trans (Encoding.nextChar_consumes hchar).skips)

/-- An escape in a bracket reads its bytes under every reading. -/
theorem bracketEscape_reads (reading : BracketReading) (h : enc.Consumes bytes rest) :
    (bracketEscape enc reading ts rest).Reads enc bytes := by
  have herror : ∀ {e}, parseEscape enc rest = .error e →
      (TokenResult.error e).Reads enc bytes := fun hescape =>
    .of_error h.skips fun e' heq hvalid => parseEscape_raised hvalid (heq ▸ hescape)
  have hescape : ∀ {e rest'}, parseEscape enc rest = .ok (e, rest') → enc.Consumes bytes rest' :=
    fun hescape => h.trans (parseEscape_consumes hescape).skips
  unfold bracketEscape
  split
  · exact .of_token h
  · split
    · exact herror ‹_›
    · exact .of_token (hescape ‹_›)
  · exact areEscape_reads h
  · split_ifs with hcontrol
    · obtain ⟨rest', rfl⟩ := List.head?_eq_some_iff.mp hcontrol
      have hc : enc.Consumes (byte 'c' :: rest') rest' := .of_suffix (by decide) List.suffix_rfl
      exact controlEscape_reads (h.trans hc.skips)
    · exact areEscape_reads h

/-- A member of a bracket reads its bytes under every reading. -/
theorem bracketToken_reads (reading : BracketReading) (h : enc.Consumes bytes rest) :
    (bracketToken enc reading ts c rest).Reads enc bytes := by
  unfold bracketToken
  refine .ite (.ite (.of_token h) (.of_token h)) (.ite (.ite (.of_token h) (.of_token h))
    (.ite (.ite (.of_token h) ?_) (.ite (bracketEscape_reads reading h) ?_)))
  · split
    · exact .of_token h
    · exact .of_token h
  · split
    · rename_i delim rest'
      by_cases hnamed : c = cp '[' ∧ isNamedDelim delim = true
      · rw [if_pos hnamed]
        split
        · exact .of_syntaxError _
        · rename_i hend
          have hsuffix := (namedEnd_suffix hend).trans (List.suffix_cons delim rest')
          exact .of_token (h.trans (Encoding.Consumes.of_suffix (by decide) hsuffix).skips)
      · rw [if_neg hnamed]
        exact .of_token h
    · exact .of_token h

/-- A brace token reads its bytes. -/
theorem braceToken_reads (hbytes : ts.rest = bytes) (h : enc.Consumes bytes rest) :
    (braceToken enc ts c rest).Reads enc bytes := by
  unfold braceToken
  refine .ite (.of_token (h.trans (skipLazy_skips rest))) (.ite (.of_token h)
    (.ite ?_ (.ite ?_ (.of_syntaxError _))))
  · split
    · rename_i hint
      exact .of_error h.skips fun e' heq hvalid => parseIntegerLoop_raised hvalid (heq ▸ hint)
    · rename_i hint
      exact .ite (.of_syntaxError _) (.of_token (h.trans (parseInteger_consumes hint).skips))
  · rw [hbytes]
    split
    · rename_i hint
      exact .of_error (.refl _) fun e' heq hvalid => parseIntegerLoop_raised hvalid (heq ▸ hint)
    · rename_i hint
      exact .ite (.of_syntaxError _) (.of_token (parseInteger_consumes hint))

/-- Giving up reads its bytes. -/
theorem giveUpToken_reads (h : enc.Consumes bytes rest) : (giveUpToken ts).Reads enc bytes :=
  .of_token (h.trans (.nil rest))

/-- A lookaround reads its bytes. -/
theorem lookaroundToken_reads (h : enc.Consumes bytes rest) :
    (lookaroundToken ts rest).Reads enc bytes := by
  unfold lookaroundToken
  split
  · exact .of_syntaxError _
  · rename_i hgroup
    exact .of_token (h.trans (skipGroup_consumes hgroup).skips)

/-- An ASCII byte more. -/
theorem Encoding.Consumes.cons {b : UInt8} (h : enc.Consumes bytes (b :: rest)) (hb : b < 128) :
    enc.Consumes bytes rest :=
  h.trans (Encoding.Consumes.of_suffix hb List.suffix_rfl).skips

/-- A parenthesis reads its bytes. -/
theorem parenToken_reads (h : enc.Consumes bytes rest) : (parenToken ts rest).Reads enc bytes := by
  unfold parenToken
  split
  · rename_i q g
    split
    · rename_i hq
      subst hq
      have hg := h.cons (by decide)
      split
      · exact giveUpToken_reads h
      · rename_i g0 g'
        split
        · rename_i hcolon
          subst hcolon
          exact .of_token (hg.cons (by decide))
        · split
          · rename_i hahead
            apply lookaroundToken_reads
            rcases hahead with rfl | rfl
            · exact hg.cons (by decide)
            · exact hg.cons (by decide)
          · split
            · rename_i hbehind
              obtain ⟨rfl, hsign⟩ := hbehind
              have hg' := hg.cons (by decide)
              apply lookaroundToken_reads
              cases g' with
              | nil => simp at hsign
              | cons sign g' =>
                simp only [List.head?_cons, Option.some.injEq] at hsign
                rw [List.drop_succ_cons, List.drop_zero]
                rcases hsign with rfl | rfl
                · exact hg'.cons (by decide)
                · exact hg'.cons (by decide)
            · exact giveUpToken_reads h
    · exact .of_token h
  · exact .of_token h

/-- A token outside the brackets reads its bytes. -/
theorem normalToken_reads (h : enc.Consumes bytes rest) :
    (normalToken enc ts c rest).Reads enc bytes := by
  have hlazy := h.trans (skipLazy_skips rest)
  unfold normalToken
  refine .ite (.of_token h) (.ite (.of_token hlazy) (.ite (.of_token hlazy) (.ite (.of_token hlazy)
    (.ite (parenToken_reads h) (.ite (.of_token h) (.ite (.of_token h) (.ite (.of_token h)
      (.ite (.of_token h) (.ite (.of_token h) (.ite (.of_token h) (.ite ?_ (.of_token h))))))))))))
  split
  · rename_i hescape
    exact .of_error h.skips fun e' heq hvalid => parseEscape_raised hvalid (heq ▸ hescape)
  · rename_i hescape
    exact .of_token (h.trans (parseEscape_consumes hescape).skips)
  · exact giveUpToken_reads h
  · rename_i hescape
    exact .of_token (h.trans (parseEscape_consumes hescape).skips)

/-- A call without a queued token. -/
theorem tokenizeNext_reads (reading : BracketReading) (hpending : ts.pending = none) :
    (tokenizeNext enc reading ts).Reads enc ts.rest := by
  unfold tokenizeNext
  simp only [hpending]
  split
  · exact ⟨by rintro t ts ⟨⟩, by rintro e ⟨⟩⟩
  · rename_i hinvalid
    exact .of_error (.refl _) fun e' heq hvalid => hvalid.nextChar hinvalid
  · rename_i hchar
    have hconsumes := Encoding.nextChar_consumes hchar
    split
    · exact bracketToken_reads reading hconsumes
    · exact braceToken_reads rfl hconsumes
    · exact braceToken_reads rfl hconsumes
    · exact normalToken_reads hconsumes

end Reads

/-- A queued token is returned, and nothing is read. -/
theorem tokenizeNext_pending {enc : Encoding} {reading : BracketReading} {ts : TokenizerState}
    {t : TreToken} (h : ts.pending = some t) :
    tokenizeNext enc reading ts = .token t { ts with pending := none } := by
  simp only [tokenizeNext, h]

/-- What is left to do: a byte makes at most two tokens. -/
def TokenizerState.size (ts : TokenizerState) : ℕ :=
  2 * ts.rest.length + if ts.pending.isSome then 1 else 0

/-- Every token leaves less to do. -/
theorem tokenizeNext_size {enc : Encoding} {reading : BracketReading} {ts ts' : TokenizerState}
    {t : TreToken} (h : tokenizeNext enc reading ts = .token t ts') : ts'.size < ts.size := by
  cases hpending : ts.pending with
  | some t' =>
    cases (tokenizeNext_pending hpending).symm.trans h
    simp [TokenizerState.size, hpending]
  | none =>
    have hlength := ((tokenizeNext_reads reading hpending).token t ts' h).length
    simp only [TokenizerState.size, hpending]
    split <;> simp <;> omega

/-- Behind a token there are characters, if there were before it. -/
theorem tokenizeNext_valid {enc : Encoding} {reading : BracketReading} {ts ts' : TokenizerState}
    {t : TreToken} (hvalid : enc.Valid ts.rest) (h : tokenizeNext enc reading ts = .token t ts') :
    enc.Valid ts'.rest := by
  cases hpending : ts.pending with
  | some t' =>
    cases (tokenizeNext_pending hpending).symm.trans h
    exact hvalid
  | none => exact ((tokenizeNext_reads reading hpending).token t ts' h).valid hvalid

/-- No error is raised for characters. -/
theorem tokenizeNext_raised {enc : Encoding} {reading : BracketReading} {ts : TokenizerState}
    {e : PgError} (hvalid : enc.Valid ts.rest) :
    tokenizeNext enc reading ts ≠ .error (.raised e) := by
  intro h
  cases hpending : ts.pending with
  | some t' => cases (tokenizeNext_pending hpending).symm.trans h
  | none => exact (tokenizeNext_reads reading hpending).raised e h hvalid

end PgTre
