import PgTre.Util.CharDecode
import PgTre.Util.Traced
import PgTre.Query.Parser

/-!
# The tokenizer by positions

The tokenizer of `src/query/tokens.c` as it moves through the input: each function takes and returns the
position, and lists what it does on the way that the language leaves undefined in some cases. It reads
bytes of the input, calls the functions of `ctype.h`, and steps back in front of a digit. A loop lists
an event of its own when it is given too few turns.
-/

namespace PgTre.Positional

/-- What the tokenizer does on its way. -/
inductive Event where
  /-- At most `n` bytes of the input are read from `i` on. -/
  | read (i n : ℕ)
  /-- `isdigit`, `isalnum` or `isxdigit` is called with this argument. -/
  | classify (c : ℤ)
  /-- The position goes one byte back to `target`. The character just read begins at `start`. -/
  | stepBack (target start : ℕ)
  /-- A loop has no turns left. -/
  | stuck

/-- A part of the tokenizer, with what it does. -/
abbrev Scan := Traced Event ScanError

/-- `TokenizerState`, with the flag of the parse context that the tokenizer sets. -/
structure TokenizerState where
  pos : ℕ
  mode : TokenizerMode
  bracketDepth : ℤ
  braceDepth : ℤ
  bracketFirst : ℤ
  bracketOpaque : Bool
  pending : Option TreToken
  forceAlwaysTrue : Bool
  deriving DecidableEq

/-- `init_tokenizer`. -/
def initTokenizer : TokenizerState where
  pos := 0
  mode := .normal
  bracketDepth := 0
  braceDepth := 0
  bracketFirst := -1
  bracketOpaque := false
  pending := none
  forceAlwaysTrue := false

/-- A loop without turns. -/
def stuck {α : Type} : Scan α := do
  Traced.emit .stuck
  Traced.fail (.syntaxError none)

/-- A call of a function of `ctype.h` with this table. Outside of its domain it may find anything. -/
def classify (beyond : ℤ → Bool) (table : CodePoint → Bool) (c : ℤ) : Scan Bool := do
  Traced.emit (.classify c)
  return if c = -1 then false else if 0 ≤ c ∧ c ≤ 255 then table c.toNat else beyond c

section

variable (enc : ServerEncoding) (beyond : ℤ → Bool) (input : List UInt8)

/-! ## Reading -/

/-- `input[i]`. -/
def readAt (i : ℕ) : Scan UInt8 := do
  Traced.emit (.read i 1)
  return input.getD i 0

/-- The byte at the position, if that is before the end. -/
def byteAt (pos : ℕ) : Scan (Option UInt8) :=
  if pos < input.length then do
    let b ← readAt input pos
    return some b
  else return none

/-- `pg_tre_cpstream_next` on a stream that begins at the position: a character with its length. -/
def cpstreamNext (pos : ℕ) : Scan (ℤ × ℕ) :=
  if input.length ≤ pos then return (-1, 0)
  else do
    Traced.emit (.read pos (input.length - pos))
    match decodeChar enc (input.drop pos) with
    | .error _ =>
        let name := enc.name
        Traced.fail (.raised ⟨s!"invalid byte sequence for encoding \"{name}\" at byte offset 0"⟩)
    | .ok (len, w) => return (w.toInt32.toInt, len)

/-- `peek_char`. -/
def peekChar (pos : ℕ) : Scan ℤ :=
  if input.length ≤ pos then return -1
  else do
    let next ← cpstreamNext enc input pos
    return next.1

/-- `next_char`: the character, and the position behind it. -/
def nextChar (pos : ℕ) : Scan (ℤ × ℕ) :=
  if input.length ≤ pos then return (-1, pos)
  else do
    let next ← cpstreamNext enc input pos
    return (next.1, if 0 ≤ next.1 then pos + next.2 else pos)

/-- The position behind a byte, if it comes next. -/
def skipByte (b : UInt8) (pos : ℕ) : Scan ℕ := do
  let found ← byteAt input pos
  return if found = some b then pos + 1 else pos

/-- `skip_lazy`. -/
def skipLazy (pos : ℕ) : Scan ℕ := skipByte input (byte '?') pos

/-- The loop that looks for the delimiter and `]`. -/
def findNamedEnd (delim : UInt8) : ℕ → ℕ → Scan ℕ
  | 0, _ => stuck
  | fuel + 1, pos =>
      if pos + 1 < input.length then do
        let b ← readAt input pos
        if b = delim then do
          let b' ← readAt input (pos + 1)
          if b' = byte ']' then return pos else findNamedEnd delim fuel (pos + 1)
        else findNamedEnd delim fuel (pos + 1)
      else return pos

/-- The loop of `skip_group`. A class that is not closed ends it past the end of the input. -/
def skipGroupLoop : ℕ → ℕ → Bool → ℕ → Scan (Bool × ℕ)
  | 0, _, _, _ => stuck
  | fuel + 1, depth, inBracket, pos =>
      if pos < input.length then do
        let c ← readAt input pos
        let pos := pos + 1
        if c = byte '\\' then
          skipGroupLoop fuel depth inBracket (if pos < input.length then pos + 1 else pos)
        else if inBracket then
          if c = byte '[' then do
            let delim ← byteAt input pos
            match delim with
            | some delim =>
                if isNamedDelim delim then do
                  let last ← findNamedEnd input delim (input.length + 1) (pos + 1)
                  skipGroupLoop fuel depth true (last + 2)
                else skipGroupLoop fuel depth true pos
            | none => skipGroupLoop fuel depth true pos
          else skipGroupLoop fuel depth (decide (c ≠ byte ']')) pos
        else if c = byte '[' then do
          let pos ← skipByte input (byte '^') pos
          let pos ← skipByte input (byte ']') pos
          skipGroupLoop fuel depth true pos
        else if c = byte '(' then skipGroupLoop fuel (depth + 1) false pos
        else if c = byte ')' then
          if depth = 1 then return (true, pos) else skipGroupLoop fuel (depth - 1) false pos
        else skipGroupLoop fuel depth false pos
      else return (false, pos)

/-- `skip_group`. -/
def skipGroup (pos : ℕ) : Scan (Bool × ℕ) :=
  skipGroupLoop input (input.length + 1) 1 false pos

/-! ## Escapes and integers -/

/-- The characters that an escape names itself. -/
def escapedPunctuation : List CodePoint :=
  ("\\.[]()\x7b\x7d|*+?^$- #&'\",:;=@_`~!%/".toList).map Char.toNat

/-- The loop over the digits and braces of a character code. -/
def skipCode (c : ℤ) : ℕ → ℕ → Scan ℕ
  | 0, _ => stuck
  | fuel + 1, pos =>
      if pos < input.length then do
        let b ← readAt input pos
        let digit ← classify beyond isXDigit b.toNat
        if (digit = true ∨ b = byte '{' ∨ b = byte '}') ∧
            (c = cp 'x' ∨ c = cp 'u' ∨ c = cp 'U' ∨ c = cp '0') then
          skipCode c fuel (pos + 1)
        else return pos
      else return pos

/-- `parse_escape`, with the position behind the escape. -/
def parseEscape (pos : ℕ) : Scan (Escape × ℕ) := do
  let next ← nextChar enc input pos
  let c := next.1
  if c = cp 'n' then return (.char 10, next.2)
  else if c = cp 't' then return (.char 9, next.2)
  else if c = cp 'r' then return (.char 13, next.2)
  else if c = cp 'd' ∨ c = cp 'D' ∨ c = cp 'w' ∨ c = cp 'W' ∨ c = cp 's' ∨ c = cp 'S' then
    return (.shorthand, next.2)
  else if c = -1 then
    Traced.fail (.syntaxError (some "unexpected end of pattern after backslash"))
  else if c.toNat ∈ escapedPunctuation then return (.char c.toNat, next.2)
  else if c = cp '<' ∨ c = cp '>' then return (.unknown, next.2)
  else if 0 ≤ c ∧ c < 128 then do
    let alnum ← classify beyond isAlnum c
    if alnum then do
      let pos ← skipCode beyond input c (input.length + 1) next.2
      return (.unknown, pos)
    else return (.char c.toNat, next.2)
  else return (.char c.toNat, next.2)

/-- The loop of `parse_integer`, in `int` arithmetic. -/
def parseIntegerLoop : ℕ → ℤ → Bool → ℕ → Scan (ℤ × Bool × ℕ)
  | 0, _, _, _ => stuck
  | fuel + 1, val, gotDigit, pos => do
      let c ← peekChar enc input pos
      if c = -1 then return (val, gotDigit, pos)
      else do
        let digit ← classify beyond isDigit c
        if digit then do
          let next ← nextChar enc input pos
          parseIntegerLoop fuel (wrap32 (val * 10 + (c - 48))) true next.2
        else return (val, gotDigit, pos)

/-- `parse_integer`. -/
def parseInteger (pos : ℕ) : Scan (ℤ × ℕ) := do
  let r ← parseIntegerLoop enc beyond input (input.length + 1) 0 false pos
  if r.2.1 then return (r.1, r.2.2)
  else Traced.fail (.syntaxError (some "expected digit in repetition count"))

/-! ## The modes -/

/-- What a call ends with that gives a token. -/
def token (t : TreToken) (ts : TokenizerState) : Scan (Option (TreToken × TokenizerState)) :=
  return some (t, ts)

/-- A class, an equivalence or a collating element in a bracket. -/
def namedMember (ts : TokenizerState) (delim : UInt8) :
    Scan (Option (TreToken × TokenizerState)) := do
  let last ← findNamedEnd input delim (input.length + 1) (ts.pos + 1)
  if input.length ≤ last + 1 then
    let d := Char.ofNat delim.toNat
    Traced.fail (.syntaxError (some s!"unterminated [{d} in bracket expression"))
  else token (.literal 0) { ts with pos := last + 2, bracketOpaque := true }

/-- `MODE_BRACKET`. -/
def bracketToken (ts : TokenizerState) (c : ℤ) : Scan (Option (TreToken × TokenizerState)) :=
  let atFirst := 0 ≤ ts.bracketFirst ∧ (ts.pos : ℤ) - 1 = ts.bracketFirst
  if c = cp ']' then
    if atFirst then token (.literal (cp ']')) { ts with bracketFirst := -1 }
    else
      token (.rbracket ts.bracketOpaque)
        { ts with
          bracketDepth := ts.bracketDepth - 1
          mode := if ts.bracketDepth - 1 = 0 then .normal else ts.mode
          bracketOpaque := false }
  else if c = cp '-' then do
    let next ← byteAt input ts.pos
    if atFirst ∨ next = some (byte ']') then token (.literal (cp '-')) ts else token .dash ts
  else if c = cp '^' then
    token .caret { ts with bracketFirst := if atFirst then ts.pos else ts.bracketFirst }
  else if c = cp '[' then do
    let delim ← byteAt input ts.pos
    match delim with
    | some delim =>
        if isNamedDelim delim then namedMember input ts delim else token (.literal c.toNat) ts
    | none => token (.literal c.toNat) ts
  else if c = cp '\\' then do
    let esc ← parseEscape enc beyond input ts.pos
    token (.literal 0) { ts with pos := esc.2, bracketOpaque := true }
  else token (.literal c.toNat) ts

/-- `MODE_BRACE` and `MODE_BRACE_APPROX`. The character begins at `start`. -/
def braceToken (ts : TokenizerState) (start : ℕ) (c : ℤ) :
    Scan (Option (TreToken × TokenizerState)) :=
  if c = cp '}' then
    if ts.braceDepth - 1 = 0 then do
      let pos ← skipLazy input ts.pos
      token .rbrace { ts with pos := pos, braceDepth := 0, mode := .normal }
    else token .rbrace { ts with braceDepth := ts.braceDepth - 1 }
  else if c = cp ',' then token .comma ts
  else if c = cp '~' ∧ ts.mode = .brace then do
    let k ← parseInteger enc beyond input ts.pos
    if k.1 < 0 then Traced.fail (.syntaxError none)
    else token (.approx k.1.toNat) { ts with pos := k.2, mode := .braceApprox }
  else do
    let digit ← classify beyond isDigit c
    if digit then do
      Traced.emit (.stepBack (ts.pos - 1) start)
      let val ← parseInteger enc beyond input (ts.pos - 1)
      if val.1 < 0 then Traced.fail (.syntaxError none)
      else token (.int val.1.toNat) { ts with pos := val.2 }
    else
      let d := Char.ofNat (c.toNat % 256)
      Traced.fail (.syntaxError (some s!"unexpected character '{d}' inside \x7b\x7d"))

/-- No more of the pattern is read. -/
def giveUpToken (ts : TokenizerState) : Scan (Option (TreToken × TokenizerState)) :=
  token .dot { ts with pos := input.length, forceAlwaysTrue := true }

/-- A lookaround, from the position behind its opening. -/
def lookaroundToken (ts : TokenizerState) (pos : ℕ) :
    Scan (Option (TreToken × TokenizerState)) := do
  let group ← skipGroup input pos
  if group.1 then token .dot { ts with pos := group.2, pending := some .question }
  else Traced.fail (.syntaxError (some "unterminated lookaround group"))

/-- An opening parenthesis. -/
def parenToken (ts : TokenizerState) : Scan (Option (TreToken × TokenizerState)) := do
  let q ← byteAt input ts.pos
  if q = some (byte '?') then do
    let g0 ← byteAt input (ts.pos + 1)
    if g0 = some (byte ':') then token .lparen { ts with pos := ts.pos + 2 }
    else if g0 = some (byte '=') ∨ g0 = some (byte '!') then lookaroundToken input ts (ts.pos + 2)
    else if g0 = some (byte '<') then do
      let g1 ← byteAt input (ts.pos + 2)
      if g1 = some (byte '=') ∨ g1 = some (byte '!') then lookaroundToken input ts (ts.pos + 3)
      else giveUpToken input ts
    else giveUpToken input ts
  else token .lparen ts

/-- `MODE_NORMAL`. -/
def normalToken (ts : TokenizerState) (c : ℤ) : Scan (Option (TreToken × TokenizerState)) :=
  let quantifier := fun t : TreToken => do
    let pos ← skipLazy input ts.pos
    token t { ts with pos := pos }
  if c = cp '|' then token .pipe ts
  else if c = cp '*' then quantifier .star
  else if c = cp '+' then quantifier .plus
  else if c = cp '?' then quantifier .question
  else if c = cp '(' then parenToken input ts
  else if c = cp ')' then token .rparen ts
  else if c = cp '.' then token .dot ts
  else if c = cp '^' then token .anchorStart ts
  else if c = cp '$' then token .anchorEnd ts
  else if c = cp '[' then
    token .lbracket
      { ts with bracketDepth := ts.bracketDepth + 1, mode := .bracket, bracketFirst := ts.pos }
  else if c = cp '{' then token .lbrace { ts with braceDepth := ts.braceDepth + 1, mode := .brace }
  else if c = cp '\\' then do
    let esc ← parseEscape enc beyond input ts.pos
    match esc.1 with
    | .shorthand => token .dot { ts with pos := esc.2 }
    | .unknown => giveUpToken input ts
    | .char c' => token (.literal c') { ts with pos := esc.2 }
  else token (.literal c.toNat) ts

/-- What the mode makes of a character that begins at `start`. -/
def modeToken (ts : TokenizerState) (start : ℕ) (c : ℤ) :
    Scan (Option (TreToken × TokenizerState)) :=
  match ts.mode with
  | .bracket => bracketToken enc beyond input ts c
  | .brace => braceToken enc beyond input ts start c
  | .braceApprox => braceToken enc beyond input ts start c
  | .normal => normalToken enc beyond input ts c

/-- `tre_tokenize_next`: a token with the state behind it, or none at the end. -/
def treTokenizeNext (ts : TokenizerState) : Scan (Option (TreToken × TokenizerState)) :=
  match ts.pending with
  | some t => token t { ts with pending := none }
  | none =>
      if input.length ≤ ts.pos then return none
      else do
        let next ← nextChar enc input ts.pos
        if next.1 < 0 ∨ next.2 = ts.pos then
          let before := ts.pos
          Traced.fail (.syntaxError (some s!"undecodable character at byte offset {before}"))
        else modeToken enc beyond input { ts with pos := next.2 } ts.pos next.1

/-! ## The loop of `tre_parse_regex` -/

section

variable {σ : Type} (parse : σ → TreToken → Except ScanError σ)

/-- The loop of `tre_parse_regex`, with what the parser makes of a token. -/
def tokenLoop : ℕ → TokenizerState → σ → Scan σ
  | 0, _, _ => stuck
  | fuel + 1, ts, parser => do
      let next ← treTokenizeNext enc beyond input ts
      match next with
      | none => return parser
      | some (t, ts') =>
          match parse parser t with
          | .error e => Traced.fail e
          | .ok parser => tokenLoop fuel ts' parser

/-- The states in which the loop calls the tokenizer. -/
inductive Reached (start : σ) : TokenizerState → σ → Prop
  | init : Reached start initTokenizer start
  | next {ts ts' : TokenizerState} {t : TreToken} {parser parser' : σ} (h : Reached start ts parser)
      (htoken : (treTokenizeNext enc beyond input ts).result = .ok (some (t, ts')))
      (hparse : parse parser t = .ok parser') : Reached start ts' parser'

end

end

/-- `pg_tre_rx_parse`. -/
def pgTreRxParse (parser : ParserState) (t : TreToken) : Except ScanError ParserState :=
  (parser.shift t).mapError fun e => .syntaxError (some e)

end PgTre.Positional
