import PgTre.Query.TokenProgress

/-!
# What the tokenizer classifies

The functions of `ctype.h` are defined for bytes and `EOF`. `parse_escape` sees to that before it calls
them, `parse_integer` and the modes for braces do not: they call `isdigit` for whatever character comes
next. So it depends on the pattern whether the argument is a byte, namely on the character behind the
digits where a number is expected.
-/

namespace PgTre.Positional

open Traced

/-- A character of more than one byte is none of ASCII. -/
def HighCodes (enc : ServerEncoding) : Prop :=
  ∀ b s len w, 128 ≤ b → decodeChar enc (b :: s) = .ok (len, w) → 128 ≤ w.toNat

section

variable (enc : ServerEncoding) (input : List UInt8)

/-- The character at the position, and the position behind it. -/
def charAt (pos : ℕ) : Option (ℤ × ℕ) :=
  match (nextChar enc input pos).result with
  | .error _ => none
  | .ok next => if next.1 = -1 then none else some next

/-- The position behind the decimal digits. -/
def digitsEnd (pos : ℕ) : ℕ :=
  pos + ((input.drop pos).takeWhile fun b => isDigit b.toNat).length

/-- If a character comes behind the decimal digits, it is one of the first 256. -/
def DigitsEndInByte (pos : ℕ) : Prop :=
  ∀ c p, charAt enc input (digitsEnd input pos) = some (c, p) → c ≤ 255

/-- Where a number is expected in braces, the digits end in one of the first 256 characters. A number
is expected unless a brace or a comma comes next, behind the tilde if there is one. -/
def BraceSafe (ts : TokenizerState) : Prop :=
  ts.pending = none → ts.mode = .brace ∨ ts.mode = .braceApprox →
    ∀ c p, charAt enc input ts.pos = some (c, p) → c ≠ cp '}' → c ≠ cp ',' →
      DigitsEndInByte enc input (if c = cp '~' ∧ ts.mode = .brace then p else ts.pos)

end

section

variable {enc : ServerEncoding} {beyond : ℤ → Bool} {input : List UInt8} {pos fuel : ℕ}

/-! ## Characters -/

/-- A character is read where the decoder gives one that is not the end. -/
theorem charAt_eq_some {next : ℤ × ℕ} :
    charAt enc input pos = some next ↔
      (nextChar enc input pos).result = .ok next ∧ next.1 ≠ -1 := by
  unfold charAt
  cases hnext : (nextChar enc input pos).result with
  | error e => simp
  | ok next' =>
    dsimp only
    split_ifs with hend
    · constructor
      · intro h
        cases h
      · rintro ⟨h, hne⟩
        cases h
        exact absurd hend hne
    · constructor
      · intro h
        cases h
        exact ⟨rfl, hend⟩
      · rintro ⟨h, -⟩
        cases h
        rfl

/-- `peek_char` finds what `next_char` reads. -/
theorem peekChar_result :
    (peekChar enc input pos).result = (nextChar enc input pos).result.map Prod.fst := by
  unfold peekChar nextChar
  split_ifs
  · rfl
  · cases hnext : (cpstreamNext enc input pos).result with
    | error e => rw [result_bind_error hnext, result_bind_error hnext]; rfl
    | ok r => rw [result_bind hnext, result_bind hnext]; rfl

/-- The character read lies inside the input. -/
theorem charAt_bounds {c : ℤ} {p : ℕ} (h : charAt enc input pos = some (c, p)) :
    0 ≤ c ∧ pos < p ∧ p ≤ input.length := by
  obtain ⟨hresult, hne⟩ := charAt_eq_some.mp h
  rcases (@nextChar_ensures enc input pos).result _ hresult with ⟨hend, -, -⟩ | hbounds
  · exact absurd hend hne
  · exact hbounds

/-- The character is the one decoded from what is left. -/
theorem charAt_eq {b : UInt8} {rest : List UInt8} (hdrop : input.drop pos = b :: rest) :
    charAt enc input pos =
      match decodeChar enc (b :: rest) with
      | .error _ => none
      | .ok (len, w) => some ((w.toNat : ℤ), pos + len) := by
  have hpos : ¬input.length ≤ pos := fun hle => by simp [List.drop_eq_nil_of_le hle] at hdrop
  unfold charAt nextChar cpstreamNext
  rw [if_neg hpos, if_neg hpos, hdrop]
  cases hdecode : decodeChar enc (b :: rest) with
  | error e => rfl
  | ok r =>
    obtain ⟨len, w⟩ := r
    have hw := toInt_of_lt (decodeChar_lt hdecode).2.2
    have hnonneg : (0 : ℤ) ≤ w.toNat := Int.natCast_nonneg _
    change (if (w.toInt32.toInt = -1) then none
      else some (w.toInt32.toInt, if 0 ≤ w.toInt32.toInt then pos + len else pos)) = _
    rw [hw, if_neg (by omega), if_pos hnonneg]

/-- The byte at the position is a decimal digit. -/
def DigitAt (input : List UInt8) (pos : ℕ) : Prop :=
  ∃ b rest, input.drop pos = b :: rest ∧ isDigit b.toNat = true

/-- The ten digits. -/
theorem isDigit_eq_true {c : ℕ} : isDigit c = true ↔ 48 ≤ c ∧ c ≤ 57 := by
  simp [isDigit]

/-- A digit is a character of its own. -/
theorem DigitAt.charAt (h : DigitAt input pos) :
    ∃ c : ℕ, isDigit c = true ∧ Positional.charAt enc input pos = some ((c : ℤ), pos + 1) := by
  obtain ⟨b, rest, hdrop, hdigit⟩ := h
  refine ⟨b.toNat, hdigit, ?_⟩
  have hascii : b < 0x80 := by
    have hbound := (isDigit_eq_true.mp hdigit).2
    rw [UInt8.lt_iff_toNat_lt]
    exact hbound.trans_lt (by decide)
  rw [charAt_eq hdrop, decodeChar]
  simp only [if_pos hascii, UInt8.toNat_toUInt32]

/-- A character that is a digit is one byte. -/
theorem digitAt_of_charAt (hhigh : HighCodes enc) {c : ℤ} {p : ℕ}
    (h : charAt enc input pos = some (c, p)) (hdigit : isDigit c.toNat = true) :
    DigitAt input pos ∧ p = pos + 1 := by
  cases hdrop : input.drop pos with
  | nil =>
    have hbounds := charAt_bounds h
    have hend := List.drop_eq_nil_iff.mp hdrop
    omega
  | cons b rest =>
    rw [charAt_eq hdrop] at h
    by_cases hascii : b < 0x80
    · rw [decodeChar] at h
      simp only [if_pos hascii, UInt8.toNat_toUInt32, Option.some.injEq, Prod.mk.injEq] at h
      obtain ⟨rfl, rfl⟩ := h
      exact ⟨⟨b, rest, hdrop, hdigit⟩, rfl⟩
    · cases hdecode : decodeChar enc (b :: rest) with
      | error e => simp [hdecode] at h
      | ok r =>
        obtain ⟨len, w⟩ := r
        have hcode := hhigh b rest len w (UInt8.not_lt.mp hascii) hdecode
        simp only [hdecode, Option.some.injEq, Prod.mk.injEq] at h
        have hbound : c.toNat ≤ 57 := (isDigit_eq_true.mp hdigit).2
        omega

/-- The end of the digits is not before their start. -/
theorem le_digitsEnd (input : List UInt8) (pos : ℕ) : pos ≤ digitsEnd input pos := Nat.le_add_right _ _

/-- A digit is passed over. -/
theorem digitsEnd_of_digitAt (h : DigitAt input pos) :
    digitsEnd input pos = digitsEnd input (pos + 1) := by
  obtain ⟨b, rest, hdrop, hdigit⟩ := h
  have hnext : input.drop (pos + 1) = rest := by
    rw [← List.drop_drop, hdrop]
    rfl
  unfold digitsEnd
  rw [hdrop, hnext, List.takeWhile_cons, if_pos hdigit, List.length_cons]
  omega

/-- Where there is no digit the digits end. -/
theorem digitsEnd_of_not_digitAt (h : ¬DigitAt input pos) : digitsEnd input pos = pos := by
  unfold digitsEnd
  cases hdrop : input.drop pos with
  | nil => rfl
  | cons b rest =>
    have hother : ¬isDigit b.toNat = true := fun hdigit => h ⟨b, rest, hdrop, hdigit⟩
    rw [List.takeWhile_cons, if_neg hother]
    rfl

/-- So the character is a byte, digit or not. -/
theorem DigitsEndInByte.char_le (h : DigitsEndInByte enc input pos) {c : ℤ} {p : ℕ}
    (hchar : charAt enc input pos = some (c, p)) : c ≤ 255 := by
  by_cases hdigit : DigitAt input pos
  · obtain ⟨c', hc', hchar'⟩ := @DigitAt.charAt enc input pos hdigit
    rw [hchar'] at hchar
    cases hchar
    have hbound := (isDigit_eq_true.mp hc').2
    omega
  · apply h c p
    rw [digitsEnd_of_not_digitAt hdigit]
    exact hchar

/-! ## Integers -/

/-- A code in the table's domain is classified by the table. -/
theorem classify_inDomain {table : CodePoint → Bool} {c : ℤ} (hlow : 0 ≤ c) (hhigh : c ≤ 255) :
    Ensures Event.InDomain (fun b => b = table c.toNat) (classify beyond table c) := by
  refine (Ensures.emit ?_).bind fun _ _ => Ensures.pure ?_
  · change -1 ≤ c ∧ c ≤ 255
    omega
  · rw [if_neg (by omega), if_pos ⟨hlow, hhigh⟩]

/-- Peeking stays in the domain and sees the character. -/
theorem peekChar_inDomain : Ensures Event.InDomain
    (fun c => c ≠ -1 → ∃ p, charAt enc input pos = some (c, p)) (peekChar enc input pos) := by
  constructor
  case events => exact fun e he => (peekChar_ensures.events e he).2
  case result =>
    intro c hc hne
    rw [peekChar_result] at hc
    cases hnext : (nextChar enc input pos).result with
    | error e =>
      rw [hnext] at hc
      cases hc
    | ok next =>
      rw [hnext] at hc
      cases hc
      exact ⟨next.2, charAt_eq_some.mpr ⟨hnext, hne⟩⟩

/-- Advancing stays in the domain and returns the character. -/
theorem nextChar_inDomain : Ensures Event.InDomain
    (fun next => (nextChar enc input pos).result = .ok next) (nextChar enc input pos) := by
  constructor
  case events => exact fun e he => (nextChar_ensures.events e he).2
  case result => exact fun _ hnext => hnext

/-- The condition on the digits passes on to the next digit. -/
theorem DigitsEndInByte.succ (h : DigitsEndInByte enc input pos) (hat : DigitAt input pos) :
    DigitsEndInByte enc input (pos + 1) := by
  unfold DigitsEndInByte
  rw [← digitsEnd_of_digitAt hat]
  exact h

/-- The loop classifies the digits and the character behind them. -/
theorem parseIntegerLoop_inDomain (hhigh : HighCodes enc) {val : ℤ} {gotDigit : Bool}
    (hbyte : DigitsEndInByte enc input pos) :
    Ensures Event.InDomain (fun _ => True)
      (parseIntegerLoop enc beyond input fuel val gotDigit pos) := by
  induction fuel generalizing val gotDigit pos with
  | zero => exact (Ensures.emit trivial).bind fun _ _ => Ensures.fail _
  | succ fuel ih =>
    refine peekChar_inDomain.bind fun c hc => ?_
    refine .ite (fun _ => Ensures.pure trivial) fun hne => ?_
    obtain ⟨p, hchar⟩ := hc hne
    refine (classify_inDomain (charAt_bounds hchar).1 (hbyte.char_le hchar)).bind fun digit hdigit => ?_
    refine .ite (fun htrue => ?_) fun _ => Ensures.pure trivial
    obtain ⟨hat, rfl⟩ := digitAt_of_charAt hhigh hchar (hdigit ▸ htrue)
    refine nextChar_inDomain.bind fun next hnext => ?_
    rw [(charAt_eq_some.mp hchar).1] at hnext
    cases hnext
    exact ih (hbyte.succ hat)

/-- An integer is parsed inside the domain. -/
theorem parseInteger_inDomain (hhigh : HighCodes enc) (hbyte : DigitsEndInByte enc input pos) :
    Ensures Event.InDomain (fun _ => True) (parseInteger enc beyond input pos) :=
  (parseIntegerLoop_inDomain hhigh hbyte).bind fun _ _ =>
    .ite (fun _ => Ensures.pure trivial) fun _ => Ensures.fail _

/-- Classifying is traced. -/
theorem classify_mem_classify {table : CodePoint → Bool} (c : ℤ) :
    .classify c ∈ (classify beyond table c).events := List.mem_singleton_self _

/-- A digit is classified as one. -/
theorem classify_digit {d : ℕ} (hd : isDigit d = true) :
    (classify beyond isDigit d).result = .ok true := by
  have hbound := isDigit_eq_true.mp hd
  change Except.ok (if (d : ℤ) = -1 then false else if 0 ≤ (d : ℤ) ∧ (d : ℤ) ≤ 255 then
    isDigit (d : ℤ).toNat else beyond d) = _
  rw [if_neg (by omega), if_pos (by omega), Int.toNat_natCast, hd]

/-- The character behind the digits is classified in any case. -/
theorem classify_mem_parseIntegerLoop {c : ℤ} {p : ℕ} {val : ℤ} {gotDigit : Bool}
    (hchar : charAt enc input (digitsEnd input pos) = some (c, p)) (hfuel : input.length < fuel + pos) :
    .classify c ∈ (parseIntegerLoop enc beyond input fuel val gotDigit pos).events := by
  induction fuel generalizing val gotDigit pos with
  | zero =>
    have hlt := charAt_bounds hchar
    have hle := le_digitsEnd input pos
    omega
  | succ fuel ih =>
    have hpeek : ∀ {c' : ℤ} {p' : ℕ}, charAt enc input pos = some (c', p') →
        c' ≠ -1 ∧ (peekChar enc input pos).result = .ok c' := by
      intro c' p' hchar'
      obtain ⟨hresult, hne⟩ := charAt_eq_some.mp hchar'
      rw [peekChar_result, hresult]
      exact ⟨hne, rfl⟩
    unfold parseIntegerLoop
    rw [mem_events_bind]
    right
    by_cases hat : DigitAt input pos
    · -- A digit is read, and the loop goes on behind it.
      obtain ⟨d, hd, hchar'⟩ := @DigitAt.charAt enc input pos hat
      obtain ⟨hne, hresult⟩ := hpeek hchar'
      refine ⟨d, hresult, ?_⟩
      rw [if_neg hne, mem_events_bind]
      refine .inr ⟨true, classify_digit hd, ?_⟩
      rw [if_pos rfl, mem_events_bind]
      refine .inr ⟨_, (charAt_eq_some.mp hchar').1, ?_⟩
      rw [digitsEnd_of_digitAt hat] at hchar
      exact ih hchar (by omega)
    · rw [digitsEnd_of_not_digitAt hat] at hchar
      obtain ⟨hne, hresult⟩ := hpeek hchar
      refine ⟨c, hresult, ?_⟩
      rw [if_neg hne, mem_events_bind]
      exact .inl (classify_mem_classify c)

/-- Parsing an integer classifies the character behind it. -/
theorem classify_mem_parseInteger {c : ℤ} {p : ℕ}
    (hchar : charAt enc input (digitsEnd input pos) = some (c, p)) :
    .classify c ∈ (parseInteger enc beyond input pos).events :=
  mem_events_bind.mpr (.inl (classify_mem_parseIntegerLoop hchar (by omega)))

/-! ## Braces -/

variable {ts : TokenizerState} {start : ℕ} {c : ℤ}

/-- A character that begins at `start` was read. -/
theorem braceToken_inDomain (hhigh : HighCodes enc) (hpos : ts.pos ≤ input.length)
    (hchar : charAt enc input start = some (c, ts.pos))
    (hsafe : c ≠ cp '}' → c ≠ cp ',' →
      DigitsEndInByte enc input (if c = cp '~' ∧ ts.mode = .brace then ts.pos else start)) :
    Ensures Event.InDomain (fun _ => True) (braceToken enc beyond input ts start c) := by
  unfold braceToken
  refine .ite (fun _ => .ite (fun _ => ?_) fun _ => Ensures.pure trivial) fun hclose => ?_
  · refine ((skipByte_ensures hpos).mono (fun _ he => he.2) fun _ h => h).bind fun _ _ => ?_
    exact Ensures.pure trivial
  refine .ite (fun _ => Ensures.pure trivial) fun hcomma => ?_
  have hbyte := hsafe hclose hcomma
  refine .ite (fun htilde => ?_) fun htilde => ?_
  · rw [if_pos htilde] at hbyte
    refine (parseInteger_inDomain hhigh hbyte).bind fun k _ => ?_
    exact .ite (fun _ => Ensures.fail _) fun _ => Ensures.pure trivial
  · rw [if_neg htilde] at hbyte
    refine (classify_inDomain (charAt_bounds hchar).1 (hbyte.char_le hchar)).bind fun digit hdigit => ?_
    refine .ite (fun htrue => ?_) fun _ => Ensures.fail _
    -- The digit is one byte, so that the step back leads in front of it.
    obtain ⟨-, hnext⟩ := digitAt_of_charAt hhigh hchar (hdigit ▸ htrue)
    have hback : ts.pos - 1 = start := by omega
    have hstep : Event.InDomain (.stepBack (ts.pos - 1) start) := hback
    refine (Ensures.emit hstep).bind fun _ _ => ?_
    rw [hback]
    refine (parseInteger_inDomain hhigh hbyte).bind fun val _ => ?_
    exact .ite (fun _ => Ensures.fail _) fun _ => Ensures.pure trivial

/-- In the other direction, the character behind the digits is classified where a number is expected. -/
theorem classify_mem_braceToken {d : ℤ} {p : ℕ} (hchar : charAt enc input start = some (c, ts.pos))
    (hclose : c ≠ cp '}') (hcomma : c ≠ cp ',')
    (hend : charAt enc input
      (digitsEnd input (if c = cp '~' ∧ ts.mode = .brace then ts.pos else start)) = some (d, p)) :
    .classify d ∈ (braceToken enc beyond input ts start c).events := by
  unfold braceToken
  rw [if_neg hclose, if_neg hcomma]
  by_cases htilde : c = cp '~' ∧ ts.mode = .brace
  · rw [if_pos htilde] at hend ⊢
    exact mem_events_bind.mpr (.inl (classify_mem_parseInteger hend))
  · rw [if_neg htilde] at hend ⊢
    rw [mem_events_bind]
    by_cases hat : DigitAt input start
    · obtain ⟨d', hd', hchar'⟩ := @DigitAt.charAt enc input start hat
      rw [hchar, Option.some.injEq, Prod.mk.injEq] at hchar'
      obtain ⟨rfl, hnext⟩ := hchar'
      refine .inr ⟨true, classify_digit hd', ?_⟩
      rw [if_pos rfl, mem_events_bind]
      refine .inr ⟨⟨⟩, rfl, ?_⟩
      rw [hnext, Nat.add_sub_cancel]
      exact mem_events_bind.mpr (.inl (classify_mem_parseInteger hend))
    · rw [digitsEnd_of_not_digitAt hat, hchar] at hend
      cases hend
      exact .inl (classify_mem_classify c)

/-! ## The calls of a run -/

/-- A token of a brace stays in the domain. -/
theorem modeToken_inDomain (hhigh : HighCodes enc) (hpos : ts.pos ≤ input.length)
    (hchar : charAt enc input start = some (c, ts.pos))
    (hsafe : ts.mode = .brace ∨ ts.mode = .braceApprox → c ≠ cp '}' → c ≠ cp ',' →
      DigitsEndInByte enc input (if c = cp '~' ∧ ts.mode = .brace then ts.pos else start)) :
    ∀ e ∈ (modeToken enc beyond input ts start c).events, e.InDomain := by
  unfold modeToken
  cases hmode : ts.mode with
  | normal => exact fun e he => ((normalToken_ensures hpos).events e he).2
  | bracket => exact fun e he => ((bracketToken_ensures hpos).events e he).2
  | brace => exact (braceToken_inDomain hhigh hpos hchar (hsafe (.inl hmode))).events
  | braceApprox => exact (braceToken_inDomain hhigh hpos hchar (hsafe (.inr hmode))).events

/-- What a brace token traces is traced by the mode it stands in. -/
theorem mem_modeToken {e : Event} (hmode : ts.mode = .brace ∨ ts.mode = .braceApprox)
    (he : e ∈ (braceToken enc beyond input ts start c).events) :
    e ∈ (modeToken enc beyond input ts start c).events := by
  unfold modeToken
  rcases hmode with hmode | hmode
  · rw [hmode]
    exact he
  · rw [hmode]
    exact he

/-- A character is read, and handed to the mode. -/
theorem mem_events_treTokenizeNext {e : Event} {p : ℕ} (hpending : ts.pending = none)
    (hchar : charAt enc input ts.pos = some (c, p)) :
    e ∈ (treTokenizeNext enc beyond input ts).events ↔
      e ∈ (nextChar enc input ts.pos).events ∨
        e ∈ (modeToken enc beyond input { ts with pos := p } ts.pos c).events := by
  obtain ⟨hnonneg, hnext, hend⟩ := charAt_bounds hchar
  have hresult := (charAt_eq_some.mp hchar).1
  unfold treTokenizeNext
  rw [hpending]
  dsimp only
  rw [if_neg (by omega), mem_events_bind, hresult]
  refine or_congr_right ⟨?_, ?_⟩
  · rintro ⟨next, hnext', he⟩
    cases hnext'
    rw [if_neg (by dsimp only; omega)] at he
    exact he
  · intro he
    refine ⟨(c, p), rfl, ?_⟩
    rw [if_neg (by dsimp only; omega)]
    exact he

/-- Without a character to read nothing is classified. -/
theorem inDomain_of_charAt_eq_none (hchar : charAt enc input ts.pos = none) :
    ∀ e ∈ (treTokenizeNext enc beyond input ts).events, e.InDomain := by
  have hcall : Ensures Event.InDomain (fun _ => True) (treTokenizeNext enc beyond input ts) := by
    unfold treTokenizeNext
    cases ts.pending with
    | some t => exact Ensures.pure trivial
    | none =>
      refine .ite (fun _ => Ensures.pure trivial) fun _ => ?_
      refine nextChar_inDomain.bind fun next hnext => ?_
      refine .ite (fun _ => Ensures.fail _) fun hread => ?_
      have hsome := charAt_eq_some.mpr ⟨hnext, fun hend => hread (.inl (by omega))⟩
      rw [hchar] at hsome
      cases hsome
  exact hcall.events

/-- A call stays in the domain exactly if a number that it expects ends in a byte. -/
theorem inDomain_iff_braceSafe (hhigh : HighCodes enc) :
    (∀ e ∈ (treTokenizeNext enc beyond input ts).events, e.InDomain) ↔ BraceSafe enc input ts := by
  constructor
  · intro hevents hpending hmode c p hchar hclose hcomma d p' hend
    have hmem := @classify_mem_braceToken enc beyond input { ts with pos := p } ts.pos c d p' hchar
      hclose hcomma hend
    exact (hevents _ ((mem_events_treTokenizeNext hpending hchar).mpr
      (.inr (mem_modeToken hmode hmem)))).2
  · intro hsafe
    cases hpending : ts.pending with
    | some t =>
      intro e he
      unfold treTokenizeNext at he
      rw [hpending] at he
      cases he
    | none =>
      cases hchar : charAt enc input ts.pos with
      | none => exact inDomain_of_charAt_eq_none hchar
      | some next =>
        obtain ⟨c, p⟩ := next
        intro e he
        rcases (mem_events_treTokenizeNext hpending hchar).mp he with he | he
        · exact (nextChar_ensures.events e he).2
        · exact @modeToken_inDomain enc beyond input { ts with pos := p } ts.pos c hhigh
            (charAt_bounds hchar).2.2 hchar
            (fun hmode hclose hcomma => hsafe hpending hmode c p hchar hclose hcomma) e he

end

/-- In a run of the tokenizer, whatever the parser makes of the tokens, the functions of `ctype.h` are
called for bytes or `EOF` and each step back leads to the beginning of a character, exactly if in every
call that expects a number in braces the digits end in one of the first 256 characters. -/
theorem classify_inDomain_iff {enc : ServerEncoding} (hhigh : HighCodes enc) (beyond : ℤ → Bool)
    (input : List UInt8) (σ : Type) (parse : σ → TreToken → Except ScanError σ) (start : σ) :
    (∀ ts parser, Reached enc beyond input parse start ts parser →
      ∀ e ∈ (treTokenizeNext enc beyond input ts).events, e.InDomain) ↔
      ∀ ts parser, Reached enc beyond input parse start ts parser → BraceSafe enc input ts :=
  forall₃_congr fun _ _ _ => inDomain_iff_braceSafe hhigh

/-! ## UTF-8 -/

/-- `pg_utf_mblen`. -/
def utf8Mblen (b : UInt8) : ℕ :=
  if b < 0x80 then 1 else if b < 0xC0 then 1 else if b < 0xE0 then 2 else if b < 0xF0 then 3
  else if b < 0xF8 then 4 else 1

/-- A byte behind the first one. -/
def isUtf8Tail (b : UInt8) : Bool := decide (0x80 ≤ b ∧ b ≤ 0xBF)

/-- The second byte, which the first one restricts further. -/
def isUtf8Second (first b : UInt8) : Bool :=
  if first = 0xE0 then decide (0xA0 ≤ b ∧ b ≤ 0xBF)
  else if first = 0xED then decide (0x80 ≤ b ∧ b ≤ 0x9F)
  else if first = 0xF0 then decide (0x90 ≤ b ∧ b ≤ 0xBF)
  else if first = 0xF4 then decide (0x80 ≤ b ∧ b ≤ 0x8F)
  else isUtf8Tail b

/-- The first byte. -/
def isUtf8First (b : UInt8) : Bool := decide (b < 0x80 ∨ 0xC2 ≤ b ∧ b ≤ 0xF4)

/-- `pg_utf8_islegal`. -/
def utf8Legal : List UInt8 → Bool
  | [a] => isUtf8First a
  | [a, b] => isUtf8Second a b && isUtf8First a
  | [a, b, c] => isUtf8Tail c && isUtf8Second a b && isUtf8First a
  | [a, b, c, d] => isUtf8Tail d && isUtf8Tail c && isUtf8Second a b && isUtf8First a
  | _ => false

/-- The first character of `pg_utf2wchar_with_len`. -/
def utf8Wchar : List UInt8 → ℕ
  | [a] => a.toNat
  | [a, b] => a.toNat % 32 * 64 + b.toNat % 64
  | [a, b, c] => a.toNat % 16 * 4096 + b.toNat % 64 * 64 + c.toNat % 64
  | [a, b, c, d] => a.toNat % 8 * 262144 + b.toNat % 64 * 4096 + c.toNat % 64 * 64 + d.toNat % 64
  | _ => 0

/-- UTF-8. -/
def utf8Encoding : ServerEncoding where
  name := "UTF8"
  mblenOrIncomplete := fun s => some (utf8Mblen (s.headD 0))
  verifymbchar := fun s =>
    if utf8Mblen (s.headD 0) ≤ s.length ∧ utf8Legal (s.take (utf8Mblen (s.headD 0))) then
      utf8Mblen (s.headD 0)
    else -1
  mb2wchar := fun s => UInt32.ofNat (utf8Wchar s)
  mblen_pos := by
    intro s len hlen
    obtain rfl := Option.some.inj hlen
    unfold utf8Mblen
    split_ifs <;> decide

/-- The first byte of a character tells its length. -/
theorem utf8Mblen_eq (b : UInt8) : utf8Mblen b =
    if b.toNat < 192 then 1 else if b.toNat < 224 then 2 else if b.toNat < 240 then 3
    else if b.toNat < 248 then 4 else 1 := by
  unfold utf8Mblen
  simp only [UInt8.lt_iff_toNat_lt, UInt8.reduceToNat]
  split_ifs <;> omega

/-- The first byte of a UTF-8 sequence that is no ASCII byte. -/
theorem toNat_of_isUtf8First {b : UInt8} (h : isUtf8First b = true) (hb : 128 ≤ b.toNat) :
    194 ≤ b.toNat ∧ b.toNat ≤ 244 := by
  simp only [isUtf8First, decide_eq_true_eq, UInt8.lt_iff_toNat_lt, UInt8.le_iff_toNat_le,
    UInt8.reduceToNat] at h
  omega

/-- The second byte makes up for a first one without value. -/
theorem toNat_of_isUtf8Second {a b : UInt8} (h : isUtf8Second a b = true) :
    b.toNat < 192 ∧ (a.toNat = 224 → 160 ≤ b.toNat) ∧ (a.toNat = 240 → 144 ≤ b.toNat) := by
  unfold isUtf8Second isUtf8Tail at h
  simp only [← UInt8.toNat_inj, UInt8.reduceToNat] at h
  split_ifs at h <;>
    simp only [decide_eq_true_eq, UInt8.le_iff_toNat_le, UInt8.reduceToNat] at h <;> omega

/-- A legal character of more than one byte is above 127. -/
theorem utf8Wchar_bounds {b : UInt8} {rest : List UInt8} (hb : 128 ≤ b.toNat)
    (hlegal : utf8Legal (b :: rest) = true) (hlength : (b :: rest).length = utf8Mblen b) :
    128 ≤ utf8Wchar (b :: rest) ∧ utf8Wchar (b :: rest) < 2 ^ 31 := by
  have hbyte := b.toNat_lt
  rw [utf8Mblen_eq] at hlength
  match rest with
  | [] =>
    have hfirst := toNat_of_isUtf8First hlegal hb
    simp only [List.length_singleton] at hlength
    split_ifs at hlength <;> omega
  | [b2] =>
    obtain ⟨-, hfirst⟩ := Bool.and_eq_true_iff.mp hlegal
    have hfirst := toNat_of_isUtf8First hfirst hb
    simp only [List.length_cons, List.length_nil] at hlength
    simp only [utf8Wchar]
    split_ifs at hlength <;> omega
  | [b2, b3] =>
    obtain ⟨hlegal, -⟩ := Bool.and_eq_true_iff.mp hlegal
    have hsecond := toNat_of_isUtf8Second (Bool.and_eq_true_iff.mp hlegal).2
    simp only [List.length_cons, List.length_nil] at hlength
    simp only [utf8Wchar]
    split_ifs at hlength <;> omega
  | [b2, b3, b4] =>
    obtain ⟨hlegal, -⟩ := Bool.and_eq_true_iff.mp hlegal
    have hsecond := toNat_of_isUtf8Second (Bool.and_eq_true_iff.mp hlegal).2
    simp only [List.length_cons, List.length_nil] at hlength
    simp only [utf8Wchar]
    split_ifs at hlength <;> omega
  | _ :: _ :: _ :: _ :: _ => cases hlegal

/-- The tables accept what is legal. -/
theorem utf8_verifymbchar {b : UInt8} {rest : List UInt8} (hlength : (b :: rest).length = utf8Mblen b) :
    utf8Encoding.verifymbchar (b :: rest) =
      if utf8Legal (b :: rest) = true then (utf8Mblen b : ℤ) else -1 := by
  change (if utf8Mblen b ≤ (b :: rest).length ∧ utf8Legal ((b :: rest).take (utf8Mblen b)) = true then
    (utf8Mblen b : ℤ) else -1) = _
  rw [← hlength, List.take_length]
  simp only [le_refl, true_and]

/-- No code point of UTF-8 is folded down. -/
theorem decodeChar_utf8 {b : UInt8} (hb : ¬b < 0x80) (s : List UInt8) :
    decodeChar utf8Encoding (b :: s) =
      if (b :: s).length < utf8Mblen b then .error .truncated
      else if utf8Legal ((b :: s).take (utf8Mblen b)) = true then
        .ok (utf8Mblen b, UInt32.ofNat (utf8Wchar ((b :: s).take (utf8Mblen b))))
      else .error .invalid := by
  have hmblen : utf8Encoding.mblenOrIncomplete (b :: s) = some (utf8Mblen b) := rfl
  have hpos := utf8Encoding.mblen_pos _ _ hmblen
  rw [decodeChar, if_neg hb, hmblen]
  dsimp only
  by_cases hshort : (b :: s).length < utf8Mblen b
  · rw [if_pos hshort, if_pos hshort]
  rw [if_neg hshort, if_neg hshort]
  -- What is looked at is the first byte with some of the others.
  obtain ⟨n, hn⟩ := Nat.exists_eq_succ_of_ne_zero hpos.ne'
  have htake : (b :: s).take (utf8Mblen b) = b :: s.take n := by rw [hn, List.take_succ_cons]
  have hlength : (b :: s.take n).length = utf8Mblen b := by
    rw [← htake, List.length_take]
    omega
  rw [htake, utf8_verifymbchar hlength]
  by_cases hlegal : utf8Legal (b :: s.take n) = true
  · have hhigh : 128 ≤ b.toNat := UInt8.le_iff_toNat_le.mp (UInt8.not_lt.mp hb)
    have hmax := (utf8Wchar_bounds hhigh hlegal hlength).2
    have hw : (utf8Encoding.mb2wchar (b :: s.take n)).toNat = utf8Wchar (b :: s.take n) := by
      change (UInt32.ofNat _).toNat = _
      rw [UInt32.toNat_ofNat']
      exact Nat.mod_eq_of_lt (by omega)
    have hfold : ¬0x7FFFFFFF < utf8Encoding.mb2wchar (b :: s.take n) := by
      have hlimit : (0x7FFFFFFF : UInt32).toNat = 2 ^ 31 - 1 := rfl
      rw [UInt32.lt_iff_toNat_lt, hw]
      omega
    rw [if_pos hlegal, if_pos hlegal, if_neg (not_not.mpr rfl), if_neg hfold]
    rfl
  · rw [if_neg hlegal, if_neg hlegal, if_pos (by omega)]

/-- What a character above 127 is read from. -/
theorem decodeChar_utf8_eq_ok {b : UInt8} (hb : ¬b < 0x80) {s : List UInt8} {len : ℕ} {w : UInt32} :
    decodeChar utf8Encoding (b :: s) = .ok (len, w) ↔
      len = utf8Mblen b ∧ len ≤ (b :: s).length ∧ utf8Legal ((b :: s).take len) = true ∧
        w = UInt32.ofNat (utf8Wchar ((b :: s).take len)) := by
  rw [decodeChar_utf8 hb]
  constructor
  · intro h
    split_ifs at h with hshort hlegal
    obtain ⟨rfl, rfl⟩ := Prod.mk.inj (Except.ok.inj h)
    exact ⟨rfl, not_lt.mp hshort, hlegal, rfl⟩
  · rintro ⟨rfl, hlength, hlegal, rfl⟩
    rw [if_neg (not_lt.mpr hlength), if_pos hlegal]

/-- A multibyte character of UTF-8 is none of ASCII. -/
theorem utf8_highCodes : HighCodes utf8Encoding := by
  intro b s len w hb hdecode
  have hhigh : 128 ≤ b.toNat := UInt8.le_iff_toNat_le.mp hb
  obtain ⟨hlen, hlength, hlegal, rfl⟩ := (decodeChar_utf8_eq_ok (UInt8.not_lt.mpr hb)).mp hdecode
  obtain ⟨n, rfl⟩ : ∃ n, len = n + 1 := Nat.exists_eq_succ_of_ne_zero (decodeChar_lt hdecode).1.ne'
  rw [List.take_succ_cons] at hlegal ⊢
  have htake : (b :: s.take n).length = utf8Mblen b := by
    rw [List.length_cons] at hlength
    rw [← hlen, List.length_cons, List.length_take]
    omega
  obtain ⟨hlow, hmax⟩ := utf8Wchar_bounds hhigh hlegal htake
  rw [UInt32.toNat_ofNat', Nat.mod_eq_of_lt (by omega)]
  exact hlow

/-- In UTF-8, for the pattern "a{2}". -/
theorem classify_inDomain_utf8 :
    (∀ ts parser,
      Reached utf8Encoding (fun _ => false) [97, 123, 50, 125] pgTreRxParse .start ts parser →
      ∀ e ∈ (treTokenizeNext utf8Encoding (fun _ => false) [97, 123, 50, 125] ts).events, e.InDomain) ↔
      ∀ ts parser,
        Reached utf8Encoding (fun _ => false) [97, 123, 50, 125] pgTreRxParse .start ts parser →
        BraceSafe utf8Encoding [97, 123, 50, 125] ts :=
  classify_inDomain_iff utf8_highCodes (fun _ => false) [97, 123, 50, 125] ParserState
    pgTreRxParse .start

/-- The pattern "a{Ā", whose last character is the code point 256, has `isdigit` called for it. -/
theorem classify_outOfDomain :
    ¬∀ ts parser,
      Reached utf8Encoding (fun _ => false) [97, 123, 196, 128] pgTreRxParse .start ts parser →
      ∀ e ∈ (treTokenizeNext utf8Encoding (fun _ => false) [97, 123, 196, 128] ts).events,
        e.InDomain := by
  intro h
  have hbrace : ∃ parser, Reached utf8Encoding (fun _ => false) [97, 123, 196, 128] pgTreRxParse .start
      { initTokenizer with pos := 2, mode := .brace, braceDepth := 1 } parser :=
    ⟨_, .next (t := .lbrace) (.next (t := .literal 97) .init rfl rfl) rfl rfl⟩
  obtain ⟨parser, hreached⟩ := hbrace
  have hdigit := h _ _ hreached (.classify 256) (List.mem_cons_of_mem _ List.mem_cons_self)
  exact absurd hdigit.2 (by decide)

end PgTre.Positional
