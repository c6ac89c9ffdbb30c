import PgTre.Query.TokenPositions

/-!
# The progress of the tokenizer

Every call that gives a token leaves less of the input, or as much and no token in the queue, whatever
the bytes of the input are. So the loop of `tre_parse_regex` ends. All reads are inside of the input,
and outside of the modes for braces the functions of `ctype.h` are called for what they are defined on.
-/

namespace PgTre.Positional

/-- Reads are inside of the input, and no loop runs out of turns. -/
def Event.InBounds (len : ℕ) : Event → Prop
  | .read i n => i + n ≤ len
  | .classify _ => True
  | .stepBack _ _ => True
  | .stuck => False

/-- The functions of `ctype.h` are called for `EOF` or a byte, and a step back leads to the beginning
of the character. -/
def Event.InDomain : Event → Prop
  | .read _ _ => True
  | .classify c => -1 ≤ c ∧ c ≤ 255
  | .stepBack target start => target = start
  | .stuck => True

/-- Both. -/
def Event.Fine (len : ℕ) (e : Event) : Prop := e.InBounds len ∧ e.InDomain

open Traced

section

variable {enc : ServerEncoding} {beyond : ℤ → Bool} {input : List UInt8} {pos fuel : ℕ}

/-! ## Reading -/

/-- A read inside the input is fine. -/
theorem readAt_ensures (hpos : pos < input.length) :
    Ensures (Event.Fine input.length) (fun _ => True) (readAt input pos) := by
  refine (Ensures.emit ?_).bind fun _ _ => Ensures.pure trivial
  exact ⟨hpos, trivial⟩

/-- A guarded read is fine, and finds a byte only inside the input. -/
theorem byteAt_ensures : Ensures (Event.Fine input.length) (fun b => b ≠ none → pos < input.length)
    (byteAt input pos) := by
  unfold byteAt
  split_ifs with hpos
  · exact (readAt_ensures hpos).bind fun b _ => Ensures.pure fun _ => hpos
  · exact Ensures.pure fun h => absurd rfl h

/-- Classifying a code in the range of the tables is fine. -/
theorem classify_ensures {table : CodePoint → Bool} {c : ℤ} (hc : -1 ≤ c ∧ c ≤ 255) :
    Ensures (Event.Fine input.length) (fun _ => True) (classify beyond table c) := by
  refine (Ensures.emit ?_).bind fun _ _ => Ensures.pure trivial
  exact ⟨trivial, hc⟩

/-- A character has a byte and is not negative. -/
theorem cpstreamNext_ensures (hpos : pos < input.length) :
    Ensures (Event.Fine input.length)
      (fun r => 0 ≤ r.1 ∧ 0 < r.2 ∧ pos + r.2 ≤ input.length) (cpstreamNext enc input pos) := by
  unfold cpstreamNext
  rw [if_neg (by omega)]
  refine (Ensures.emit ?_).bind fun _ _ => ?_
  · constructor
    · change pos + (input.length - pos) ≤ input.length
      omega
    · trivial
  · cases hdecode : decodeChar enc (input.drop pos) with
    | error => exact Ensures.fail _
    | ok r =>
      obtain ⟨len, w⟩ := r
      obtain ⟨hlen, hle, hw⟩ := decodeChar_lt hdecode
      rw [List.length_drop] at hle
      refine Ensures.pure ⟨?_, hlen, ?_⟩
      · dsimp only
        rw [toInt_of_lt hw]
        exact Int.natCast_nonneg _
      · dsimp only
        omega

/-- The character that comes next is left alone. -/
theorem peekChar_ensures : Ensures (Event.Fine input.length)
    (fun c => c ≠ -1 → 0 ≤ c ∧ pos < input.length) (peekChar enc input pos) := by
  unfold peekChar
  split_ifs with hend
  · exact Ensures.pure fun h => absurd rfl h
  · exact (cpstreamNext_ensures (not_le.mp hend)).bind fun r hr =>
      Ensures.pure fun _ => ⟨hr.1, not_le.mp hend⟩

/-- A character takes the position on, an end does not. -/
theorem nextChar_ensures : Ensures (Event.Fine input.length)
    (fun r => (r.1 = -1 ∧ r.2 = pos ∧ input.length ≤ pos) ∨
      (0 ≤ r.1 ∧ pos < r.2 ∧ r.2 ≤ input.length)) (nextChar enc input pos) := by
  unfold nextChar
  split_ifs with hend
  · exact Ensures.pure (.inl ⟨rfl, rfl, hend⟩)
  · refine (cpstreamNext_ensures (not_le.mp hend)).bind fun r hr => Ensures.pure (.inr ?_)
    rw [if_pos hr.1]
    refine ⟨hr.1, ?_, hr.2.2⟩
    dsimp only
    omega

/-- Skipping a byte is fine and stays inside the input. -/
theorem skipByte_ensures {b : UInt8} (hpos : pos ≤ input.length) :
    Ensures (Event.Fine input.length) (fun p => pos ≤ p ∧ p ≤ input.length)
      (skipByte input b pos) := by
  refine byteAt_ensures.bind fun found hfound => Ensures.pure ?_
  split_ifs with heq
  · have hlt := hfound (by simp [heq])
    omega
  · omega

/-! ## Loops -/

/-- The bytes in front of the end are read, with the one behind each of them. -/
theorem findNamedEnd_ensures {delim : UInt8} (hfuel : input.length < fuel + pos) (hfuel' : 0 < fuel) :
    Ensures (Event.Fine input.length) (fun p => pos ≤ p) (findNamedEnd input delim fuel pos) := by
  induction fuel generalizing pos with
  | zero => omega
  | succ fuel ih =>
    unfold findNamedEnd
    split_ifs with hnext
    · have hrest : Ensures (Event.Fine input.length) (fun p => pos ≤ p)
          (findNamedEnd input delim fuel (pos + 1)) :=
        (ih (by omega) (by omega)).imp fun p hp => by omega
      refine (readAt_ensures (by omega)).bind fun b _ => ?_
      split_ifs
      · refine (readAt_ensures hnext).bind fun b' _ => ?_
        split_ifs
        · exact Ensures.pure le_rfl
        · exact hrest
      · exact hrest
    · exact Ensures.pure le_rfl

/-- A group that is closed ends inside of the input. -/
theorem skipGroupLoop_ensures {depth : ℕ} {inBracket : Bool} (hfuel : input.length < fuel + pos)
    (hfuel' : 0 < fuel) :
    Ensures (Event.Fine input.length) (fun r => r.1 = true → pos < r.2 ∧ r.2 ≤ input.length)
      (skipGroupLoop input fuel depth inBracket pos) := by
  induction fuel generalizing depth inBracket pos with
  | zero => omega
  | succ fuel ih =>
    unfold skipGroupLoop
    by_cases hpos : pos < input.length
    · rw [if_pos hpos]
      -- Each turn goes on behind a byte.
      have hrest : ∀ depth inBracket pos', pos + 1 ≤ pos' →
          Ensures (Event.Fine input.length) (fun r => r.1 = true → pos < r.2 ∧ r.2 ≤ input.length)
            (skipGroupLoop input fuel depth inBracket pos') := by
        intro depth inBracket pos' hle
        refine (ih (by omega) (by omega)).imp fun r hr hclosed => ?_
        have hbehind := hr hclosed
        omega
      refine (readAt_ensures hpos).bind fun c _ => ?_
      refine .ite (fun _ => ?_) fun _ => ?_
      · apply hrest
        split_ifs
        · exact Nat.le_succ _
        · exact le_rfl
      refine .ite (fun _ => .ite (fun _ => ?_) fun _ => hrest _ _ _ le_rfl) fun _ => ?_
      · refine byteAt_ensures.bind fun delim _ => ?_
        cases delim with
        | none => exact hrest _ _ _ le_rfl
        | some delim =>
          refine .ite (fun _ => ?_) fun _ => hrest _ _ _ le_rfl
          refine (findNamedEnd_ensures (by omega) (by omega)).bind fun last hlast => ?_
          exact hrest _ _ _ (by omega)
      refine .ite (fun _ => ?_) fun _ => ?_
      · refine (skipByte_ensures (by omega)).bind fun p hp => ?_
        refine (skipByte_ensures hp.2).bind fun p' hp' => ?_
        exact hrest _ _ _ (hp.1.trans hp'.1)
      refine .ite (fun _ => hrest _ _ _ le_rfl) fun _ => ?_
      refine .ite (fun _ => .ite (fun _ => ?_) fun _ => hrest _ _ _ le_rfl) fun _ => hrest _ _ _ le_rfl
      exact Ensures.pure fun _ => ⟨Nat.lt_succ_self pos, hpos⟩
    · rw [if_neg hpos]
      exact Ensures.pure fun hclosed => absurd hclosed Bool.false_ne_true

/-- Skipping a group is fine, and it has advanced when it succeeds. -/
theorem skipGroup_ensures : Ensures (Event.Fine input.length)
    (fun r => r.1 = true → pos < r.2 ∧ r.2 ≤ input.length) (skipGroup input pos) :=
  skipGroupLoop_ensures (by omega) (by omega)

/-- The digits of a code are bytes. -/
theorem skipCode_ensures {c : ℤ} (hpos : pos ≤ input.length) (hfuel : input.length < fuel + pos) :
    Ensures (Event.Fine input.length) (fun p => pos ≤ p ∧ p ≤ input.length)
      (skipCode beyond input c fuel pos) := by
  induction fuel generalizing pos with
  | zero => omega
  | succ fuel ih =>
    unfold skipCode
    split_ifs with hlt
    · refine (readAt_ensures hlt).bind fun b _ => ?_
      refine (classify_ensures (by have := b.toNat_lt; omega)).bind fun digit _ => ?_
      split_ifs
      · exact (ih hlt (by omega)).imp fun p hp => by omega
      · exact Ensures.pure ⟨le_rfl, hpos⟩
    · exact Ensures.pure ⟨le_rfl, hpos⟩

/-- An escape is at least one character. -/
theorem parseEscape_ensures : Ensures (Event.Fine input.length)
    (fun r => pos < r.2 ∧ r.2 ≤ input.length) (parseEscape enc beyond input pos) := by
  refine nextChar_ensures.bind fun next hnext => ?_
  dsimp only
  rcases hnext with ⟨hend, -, -⟩ | ⟨-, hbehind⟩
  · rw [hend, if_neg (by decide), if_neg (by decide), if_neg (by decide), if_neg (by decide),
      if_pos rfl]
    exact Ensures.fail _
  · have hchar : ∀ esc : Escape, Ensures (Event.Fine input.length)
        (fun r : Escape × ℕ => pos < r.2 ∧ r.2 ≤ input.length) (pure (esc, next.2) : Scan _) :=
      fun esc => Ensures.pure hbehind
    refine .ite (fun _ => hchar _) fun _ => ?_
    refine .ite (fun _ => hchar _) fun _ => ?_
    refine .ite (fun _ => hchar _) fun _ => ?_
    refine .ite (fun _ => hchar _) fun _ => ?_
    refine .ite (fun _ => Ensures.fail _) fun _ => ?_
    refine .ite (fun _ => hchar _) fun _ => ?_
    refine .ite (fun _ => hchar _) fun _ => ?_
    refine .ite (fun hascii => ?_) fun _ => hchar _
    -- The guard of the source leaves ASCII.
    refine (classify_ensures (by omega)).bind fun alnum _ => .ite (fun _ => ?_) fun _ => hchar _
    refine (skipCode_ensures hbehind.2 (by omega)).bind fun p hp => ?_
    exact Ensures.pure ⟨hbehind.1.trans_le hp.1, hp.2⟩

/-! ## Integers -/

/-- What the digits are is left open: the characters of an integer may be outside of the domain. -/
theorem Event.Fine.inBounds {len : ℕ} {e : Event} (h : e.Fine len) : e.InBounds len := h.1

/-- Classifying reads no byte of the input. -/
theorem classify_inBounds {table : CodePoint → Bool} {c : ℤ} :
    Ensures (Event.InBounds input.length) (fun _ => True) (classify beyond table c) :=
  (Ensures.emit trivial).bind fun _ _ => Ensures.pure trivial

/-- Peeking reads inside the input. -/
theorem peekChar_inBounds : Ensures (Event.InBounds input.length)
    (fun c => c ≠ -1 → 0 ≤ c ∧ pos < input.length) (peekChar enc input pos) :=
  peekChar_ensures.mono (fun _ he => he.inBounds) fun _ hc => hc

/-- Advancing reads inside the input and moves on. -/
theorem nextChar_inBounds (hpos : pos < input.length) : Ensures (Event.InBounds input.length)
    (fun r => 0 ≤ r.1 ∧ pos < r.2 ∧ r.2 ≤ input.length) (nextChar enc input pos) := by
  refine nextChar_ensures.mono (fun _ he => he.inBounds) fun r hr => ?_
  rcases hr with ⟨-, -, hend⟩ | hr
  · omega
  · exact hr

/-- An integer with a digit takes the position on. -/
theorem parseIntegerLoop_inBounds {val : ℤ} {gotDigit : Bool} (hpos : pos ≤ input.length)
    (hfuel : input.length < fuel + pos) :
    Ensures (Event.InBounds input.length)
      (fun r => (r.2.1 = true → gotDigit = true ∨ pos < r.2.2) ∧ pos ≤ r.2.2 ∧
        r.2.2 ≤ input.length) (parseIntegerLoop enc beyond input fuel val gotDigit pos) := by
  induction fuel generalizing val gotDigit pos with
  | zero => omega
  | succ fuel ih =>
    unfold parseIntegerLoop
    refine peekChar_inBounds.bind fun c hc => ?_
    split_ifs with hend
    · exact Ensures.pure ⟨.inl, le_rfl, hpos⟩
    · refine classify_inBounds.bind fun digit _ => ?_
      split_ifs
      · refine (nextChar_inBounds (hc hend).2).bind fun next hnext => ?_
        refine (ih hnext.2.2 (by omega)).imp fun r hr => ?_
        exact ⟨fun _ => .inr (hnext.2.1.trans_le hr.2.1), hnext.2.1.le.trans hr.2.1, hr.2.2⟩
      · exact Ensures.pure ⟨.inl, le_rfl, hpos⟩

/-- Parsing an integer reads inside the input and moves on. -/
theorem parseInteger_inBounds (hpos : pos ≤ input.length) :
    Ensures (Event.InBounds input.length) (fun r => pos < r.2 ∧ r.2 ≤ input.length)
      (parseInteger enc beyond input pos) := by
  refine (parseIntegerLoop_inBounds hpos (by omega)).bind fun r hr => ?_
  split_ifs with hdigit
  · exact Ensures.pure ⟨(hr.1 hdigit).resolve_left Bool.false_ne_true, hr.2.2⟩
  · exact Ensures.fail _

/-! ## The modes -/

/-- If a call gives a token, it leaves the position between `pos` and the end of the input. -/
def Leaves (input : List UInt8) (pos : ℕ) (r : Option (TreToken × TokenizerState)) : Prop :=
  ∀ t ts, r = some (t, ts) → pos ≤ ts.pos ∧ ts.pos ≤ input.length

variable {ts : TokenizerState} {c : ℤ}

/-- A token leaves its state where it stands. -/
theorem token_ensures {P : Event → Prop} {t : TreToken} (h : pos ≤ ts.pos ∧ ts.pos ≤ input.length) :
    Ensures P (Leaves input pos) (token t ts) := by
  refine Ensures.pure fun t' ts' heq => ?_
  cases heq
  exact h

/-- A named member is read inside the input. -/
theorem namedMember_ensures {delim : UInt8} :
    Ensures (Event.Fine input.length) (Leaves input ts.pos) (namedMember input ts delim) := by
  refine (findNamedEnd_ensures (by omega) (by omega)).bind fun last hlast => ?_
  split_ifs
  · exact Ensures.fail _
  · refine token_ensures ⟨?_, ?_⟩
    · dsimp only
      omega
    · dsimp only
      omega

/-- A member of a bracket is read inside the input. -/
theorem bracketToken_ensures (hpos : ts.pos ≤ input.length) :
    Ensures (Event.Fine input.length) (Leaves input ts.pos) (bracketToken enc beyond input ts c) := by
  have hstay : ∀ t ts', ts'.pos = ts.pos →
      Ensures (Event.Fine input.length) (Leaves input ts.pos) (token t ts') :=
    fun t ts' h => token_ensures (by omega)
  refine .ite (fun _ => .ite (fun _ => hstay _ _ rfl) fun _ => hstay _ _ rfl) fun _ => ?_
  refine .ite (fun _ => ?_) fun _ => ?_
  · refine byteAt_ensures.bind fun next _ => ?_
    exact .ite (fun _ => hstay _ _ rfl) fun _ => hstay _ _ rfl
  refine .ite (fun _ => hstay _ _ rfl) fun _ => ?_
  refine .ite (fun _ => ?_) fun _ => ?_
  · refine byteAt_ensures.bind fun delim _ => ?_
    cases delim with
    | none => exact hstay _ _ rfl
    | some delim => exact .ite (fun _ => namedMember_ensures) fun _ => hstay _ _ rfl
  refine .ite (fun _ => ?_) fun _ => hstay _ _ rfl
  refine parseEscape_ensures.bind fun esc hesc => ?_
  exact token_ensures ⟨hesc.1.le, hesc.2⟩

/-- A digit is put back, and read again. -/
theorem braceToken_inBounds {start : ℕ} (hpos : ts.pos ≤ input.length) :
    Ensures (Event.InBounds input.length) (Leaves input ts.pos)
      (braceToken enc beyond input ts start c) := by
  unfold braceToken
  split_ifs
  · refine ((skipByte_ensures hpos).mono (fun _ he => he.inBounds) fun _ h => h).bind fun p hp => ?_
    exact token_ensures hp
  · exact token_ensures ⟨le_rfl, hpos⟩
  · exact token_ensures ⟨le_rfl, hpos⟩
  · refine (parseInteger_inBounds hpos).bind fun k hk => ?_
    split_ifs
    · exact Ensures.fail _
    · exact token_ensures ⟨hk.1.le, hk.2⟩
  · refine classify_inBounds.bind fun digit _ => ?_
    split_ifs
    · refine (Ensures.emit trivial).bind fun _ _ => ?_
      refine (parseInteger_inBounds (by omega)).bind fun val hval => ?_
      split_ifs
      · exact Ensures.fail _
      · exact token_ensures ⟨by dsimp only; omega, hval.2⟩
    · exact Ensures.fail _

/-- Giving up ends at the end of the input. -/
theorem giveUpToken_ensures {P : Event → Prop} (hpos : pos ≤ input.length) :
    Ensures P (Leaves input pos) (giveUpToken input ts) :=
  token_ensures ⟨hpos, le_rfl⟩

/-- A lookaround is read inside the input. -/
theorem lookaroundToken_ensures (hpos : ts.pos ≤ pos) :
    Ensures (Event.Fine input.length) (Leaves input ts.pos) (lookaroundToken input ts pos) := by
  refine skipGroup_ensures.bind fun group hgroup => ?_
  split_ifs with hclosed
  · have hbehind := hgroup hclosed
    exact token_ensures ⟨by dsimp only; omega, hbehind.2⟩
  · exact Ensures.fail _

/-- A parenthesis is read inside the input. -/
theorem parenToken_ensures (hpos : ts.pos ≤ input.length) :
    Ensures (Event.Fine input.length) (Leaves input ts.pos) (parenToken input ts) := by
  refine byteAt_ensures.bind fun q _ => ?_
  split_ifs
  · refine byteAt_ensures.bind fun g0 hg0 => ?_
    split_ifs with hcolon
    · have hnext := hg0 (by simp [hcolon])
      refine token_ensures ⟨?_, hnext⟩
      dsimp only
      omega
    · exact lookaroundToken_ensures (by omega)
    · refine byteAt_ensures.bind fun g1 _ => ?_
      split_ifs
      · exact lookaroundToken_ensures (by omega)
      · exact giveUpToken_ensures hpos
    · exact giveUpToken_ensures hpos
  · exact token_ensures ⟨le_rfl, hpos⟩

/-- A token outside the brackets is read inside the input. -/
theorem normalToken_ensures (hpos : ts.pos ≤ input.length) :
    Ensures (Event.Fine input.length) (Leaves input ts.pos) (normalToken enc beyond input ts c) := by
  have hstay : ∀ t ts', ts'.pos = ts.pos →
      Ensures (Event.Fine input.length) (Leaves input ts.pos) (token t ts') :=
    fun t ts' h => token_ensures (by omega)
  have hquantifier : ∀ t, Ensures (Event.Fine input.length) (Leaves input ts.pos)
      (skipLazy input ts.pos >>= fun pos => token t { ts with pos := pos }) :=
    fun t => (skipByte_ensures hpos).bind fun p hp => token_ensures hp
  refine .ite (fun _ => hstay _ _ rfl) fun _ => ?_
  refine .ite (fun _ => hquantifier _) fun _ => ?_
  refine .ite (fun _ => hquantifier _) fun _ => ?_
  refine .ite (fun _ => hquantifier _) fun _ => ?_
  refine .ite (fun _ => parenToken_ensures hpos) fun _ => ?_
  refine .ite (fun _ => hstay _ _ rfl) fun _ => ?_
  refine .ite (fun _ => hstay _ _ rfl) fun _ => ?_
  refine .ite (fun _ => hstay _ _ rfl) fun _ => ?_
  refine .ite (fun _ => hstay _ _ rfl) fun _ => ?_
  refine .ite (fun _ => hstay _ _ rfl) fun _ => ?_
  refine .ite (fun _ => hstay _ _ rfl) fun _ => ?_
  refine .ite (fun _ => ?_) fun _ => hstay _ _ rfl
  refine parseEscape_ensures.bind fun esc hesc => ?_
  cases esc.1 with
  | shorthand => exact token_ensures ⟨hesc.1.le, hesc.2⟩
  | unknown => exact giveUpToken_ensures hpos
  | char c' => exact token_ensures ⟨hesc.1.le, hesc.2⟩

/-- A token is read inside the input in every mode. -/
theorem modeToken_inBounds {start : ℕ} (hpos : ts.pos ≤ input.length) :
    Ensures (Event.InBounds input.length) (Leaves input ts.pos)
      (modeToken enc beyond input ts start c) := by
  unfold modeToken
  split
  · exact (bracketToken_ensures hpos).mono (fun _ he => he.inBounds) fun _ h => h
  · exact braceToken_inBounds hpos
  · exact braceToken_inBounds hpos
  · exact (normalToken_ensures hpos).mono (fun _ he => he.inBounds) fun _ h => h

/-! ## A call -/

/-- Whether a token is queued. -/
def queued (ts : TokenizerState) : ℕ := if ts.pending = none then 0 else 1

/-- What gets less with every token: the bytes that are left, then the token in the queue. -/
def left (input : List UInt8) (ts : TokenizerState) : ℕ × ℕ := (input.length - ts.pos, queued ts)

/-- Moving on lowers what is left. -/
theorem left_lt_of_pos {ts' : TokenizerState} (hpos : ts.pos < ts'.pos)
    (hend : ts'.pos ≤ input.length) :
    Prod.Lex (· < ·) (· < ·) (left input ts') (left input ts) := by
  apply Prod.Lex.left
  omega

/-- A call without a token in the queue reads a character, and the mode goes on behind it. -/
theorem treTokenizeNext_inBounds (hpos : ts.pos ≤ input.length) :
    Ensures (Event.InBounds input.length)
      (fun r => ∀ t ts', r = some (t, ts') →
        Prod.Lex (· < ·) (· < ·) (left input ts') (left input ts) ∧ ts'.pos ≤ input.length)
      (treTokenizeNext enc beyond input ts) := by
  unfold treTokenizeNext
  cases hpending : ts.pending with
  | some t =>
    refine Ensures.pure fun t' ts' heq => ?_
    cases heq
    refine ⟨?_, hpos⟩
    simp only [left, queued, hpending]
    exact Prod.Lex.right _ Nat.zero_lt_one
  | none =>
    refine .ite (fun _ => Ensures.pure fun t ts' heq => by cases heq) fun hend => ?_
    refine (nextChar_inBounds (not_le.mp hend)).bind fun next hnext => ?_
    refine .ite (fun _ => Ensures.fail _) fun _ => ?_
    refine (modeToken_inBounds hnext.2.2).imp fun r hr t ts' heq => ?_
    have hleaves := hr t ts' heq
    exact ⟨left_lt_of_pos (hnext.2.1.trans_le hleaves.1) hleaves.2, hleaves.2⟩

/-! ## The loop -/

section

variable {σ : Type} {parse : σ → TreToken → Except ScanError σ} {start parser : σ}

/-- The position is never past the end between two calls. -/
theorem Reached.pos_le (h : Reached enc beyond input parse start ts parser) :
    ts.pos ≤ input.length := by
  induction h with
  | init => exact Nat.zero_le _
  | next _ htoken _ ih => exact ((treTokenizeNext_inBounds ih).result _ htoken _ _ rfl).2

/-- A token takes one turn, and a byte allows for two tokens. -/
theorem tokenLoop_inBounds (hpos : ts.pos ≤ input.length)
    (hfuel : 2 * (input.length - ts.pos) + queued ts < fuel) :
    Ensures (Event.InBounds input.length) (fun _ => True)
      (tokenLoop enc beyond input parse fuel ts parser) := by
  induction fuel generalizing ts parser with
  | zero => omega
  | succ fuel ih =>
    refine (treTokenizeNext_inBounds hpos).bind fun next hnext => ?_
    rcases next with _ | ⟨t, ts'⟩
    · exact Ensures.pure trivial
    · obtain ⟨hless, hend⟩ := hnext t ts' rfl
      dsimp only
      cases parse parser t with
      | error e => exact Ensures.fail e
      | ok parser =>
        apply ih hend
        have hqueued : queued ts' ≤ 1 := by
          unfold queued
          split_ifs
          · exact Nat.zero_le 1
          · exact le_rfl
        rcases Prod.lex_def.mp hless with hbytes | ⟨hbytes, hqueue⟩
        · unfold left at hbytes
          dsimp only at hbytes
          omega
        · unfold left at hbytes hqueue
          dsimp only at hbytes hqueue
          omega

end

/-- For every input and whatever the parser makes of the tokens, each call in a run of the tokenizer
reads inside of the input, and one that gives a token takes it on, to the end of the input at most. So
the loop of `tre_parse_regex` ends. -/
theorem tokenizer_progresses (enc : ServerEncoding) (beyond : ℤ → Bool) (input : List UInt8) (σ : Type)
    (parse : σ → TreToken → Except ScanError σ) (start : σ) :
    (∀ ts parser, Reached enc beyond input parse start ts parser →
      (∀ e ∈ (treTokenizeNext enc beyond input ts).events, e.InBounds input.length) ∧
        ∀ t ts', (treTokenizeNext enc beyond input ts).result = .ok (some (t, ts')) →
          Prod.Lex (· < ·) (· < ·) (left input ts') (left input ts) ∧ ts'.pos ≤ input.length) ∧
      ∀ e ∈ (tokenLoop enc beyond input parse (2 * input.length + 1) initTokenizer start).events,
        e.InBounds input.length := by
  constructor
  · intro ts parser hts
    have hcall := @treTokenizeNext_inBounds enc beyond input ts hts.pos_le
    exact ⟨hcall.events, fun t ts' htoken => hcall.result _ htoken t ts' rfl⟩
  · exact (tokenLoop_inBounds (Nat.zero_le _) (by simp [initTokenizer, queued])).events

end

end PgTre.Positional
