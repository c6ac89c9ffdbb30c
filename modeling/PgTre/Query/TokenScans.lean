import PgTre.Query.TokenDomain

/-!
# The scans of both tokenizers

What the tokenizer by positions reads, skips and parses is what the tokenizer on the rest of the input
does: the position stands for the bytes behind it. With enough turns no loop ends early.
-/

namespace PgTre.Positional

open Traced

/-- The character that the tables begin the bytes with, and the bytes after it. -/
def decodeMbOf (tables : ServerEncoding) (b : UInt8) (bytes : List UInt8) :
    Option (CodePoint × List UInt8) :=
  match decodeChar tables (b :: bytes) with
  | .error _ => none
  | .ok (len, w) => some (w.toNat, (b :: bytes).drop len)

/-- The tables decode as the encoding does. -/
structure Agrees (tables : ServerEncoding) (enc : Encoding) : Prop where
  name_eq : tables.name = enc.name
  decode_eq : ∀ b bytes, ¬b < 128 → enc.decodeMb b bytes = decodeMbOf tables b bytes

section

variable {tables : ServerEncoding} {enc : Encoding} {beyond : ℤ → Bool} {input : List UInt8}
  {pos fuel : ℕ}

/-! ## Reading -/

/-- A read gives the byte at its position. -/
theorem result_readAt : (readAt input pos).result = .ok (input.getD pos 0) := rfl

/-- The byte at the position is the first one of the rest. -/
theorem result_byteAt : (byteAt input pos).result = .ok (input.drop pos).head? := by
  unfold byteAt
  split_ifs with hpos
  · rw [List.drop_eq_getElem_cons hpos, List.head?_cons, ← List.getD_eq_getElem _ 0 hpos]
    rfl
  · rw [List.drop_eq_nil_of_le (not_lt.mp hpos)]
    rfl

/-- What a suffix begins with is what stands at its position. -/
theorem drop_succ_of_drop_eq_cons {b : UInt8} {rest : List UInt8} (h : input.drop pos = b :: rest) :
    pos < input.length ∧ input.getD pos 0 = b ∧ input.drop (pos + 1) = rest := by
  have hpos : pos < input.length := by
    by_contra hle
    rw [List.drop_eq_nil_of_le (not_lt.mp hle)] at h
    cases h
  rw [List.drop_eq_getElem_cons hpos, List.cons.injEq] at h
  refine ⟨hpos, ?_, h.2⟩
  rw [List.getD_eq_getElem _ 0 hpos]
  exact h.1

/-- A guarded read gives the head of what is left. -/
theorem result_byteAt_of_drop_eq {rest : List UInt8} (h : input.drop pos = rest) :
    (byteAt input pos).result = .ok rest.head? := by
  rw [result_byteAt, h]

/-- What is left is as long as the distance to the end. -/
theorem drop_length_eq {rest : List UInt8} (h : input.drop pos = rest) :
    input.length - pos = rest.length := by
  rw [← h, List.length_drop]

/-- A character is read by both. -/
theorem result_nextChar (hagrees : Agrees tables enc) :
    match enc.nextChar (input.drop pos) with
    | .ended => input.length ≤ pos
    | .invalid => pos < input.length ∧
        (nextChar tables input pos).result = .error enc.invalidSequence
    | .char c rest => ∃ p, charAt tables input pos = some ((c : ℤ), p) ∧ input.drop p = rest := by
  cases hdrop : input.drop pos with
  | nil => exact List.drop_eq_nil_iff.mp hdrop
  | cons b rest =>
    obtain ⟨hpos, -, hnext⟩ := drop_succ_of_drop_eq_cons hdrop
    by_cases hb : b < 128
    · rw [Encoding.nextChar_ascii hb]
      refine ⟨pos + 1, ?_, hnext⟩
      rw [charAt_eq hdrop, decodeChar, if_pos hb]
      simp only [UInt8.toNat_toUInt32]
    · have hdecode := hagrees.decode_eq b rest hb
      rw [Encoding.nextChar, if_neg hb, hdecode, decodeMbOf]
      cases hchar : decodeChar tables (b :: rest) with
      | error e =>
        refine ⟨hpos, ?_⟩
        unfold nextChar cpstreamNext Encoding.invalidSequence
        rw [if_neg (not_le.mpr hpos), if_neg (not_le.mpr hpos), hdrop, hchar, ← hagrees.name_eq]
        rfl
      | ok r =>
        obtain ⟨len, w⟩ := r
        refine ⟨pos + len, ?_, ?_⟩
        · rw [charAt_eq hdrop, hchar]
        · rw [← List.drop_drop, hdrop]

/-- A byte that comes next is dropped. -/
theorem result_skipByte (b : UInt8) (hpos : pos ≤ input.length) :
    ∃ p, (skipByte input b pos).result = .ok p ∧ pos ≤ p ∧ p ≤ input.length ∧
      input.drop p = dropByte b (input.drop pos) := by
  have hresult : (skipByte input b pos).result =
      .ok (if (input.drop pos).head? = some b then pos + 1 else pos) := by
    rw [skipByte, result_bind result_byteAt]
    rfl
  obtain ⟨hle, hend⟩ := (skipByte_ensures hpos).result _ hresult
  refine ⟨_, hresult, hle, hend, ?_⟩
  cases hdrop : input.drop pos with
  | nil => simp [dropByte, hdrop]
  | cons b' rest =>
    simp only [List.head?_cons, Option.some.injEq, dropByte]
    split_ifs
    · exact (drop_succ_of_drop_eq_cons hdrop).2.2
    · exact hdrop

/-! ## Loops -/

/-- The search for the end of a name finds the end that the list has. -/
theorem result_findNamedEnd {delim : UInt8} (hfuel : input.length < fuel + pos) (hfuel' : 0 < fuel) :
    ∃ last, (findNamedEnd input delim fuel pos).result = .ok last ∧
      match namedEnd delim (input.drop pos) with
      | none => input.length ≤ last + 1
      | some rest => last + 1 < input.length ∧ input.drop (last + 2) = rest := by
  induction fuel generalizing pos with
  | zero => omega
  | succ fuel ih =>
    unfold findNamedEnd
    by_cases hnext : pos + 1 < input.length
    · rw [if_pos hnext]
      obtain ⟨b, hb⟩ : ∃ b, input.drop pos = b :: input.drop (pos + 1) :=
        ⟨_, List.drop_eq_getElem_cons (by omega)⟩
      obtain ⟨b', hb'⟩ : ∃ b', input.drop (pos + 1) = b' :: input.drop (pos + 2) :=
        ⟨_, List.drop_eq_getElem_cons hnext⟩
      have hread := (drop_succ_of_drop_eq_cons hb).2.1
      have hread' := (drop_succ_of_drop_eq_cons hb').2.1
      have hrest := @ih (pos + 1) (by omega) (by omega)
      rw [result_bind result_readAt, hread, hb, hb', namedEnd, ← hb']
      by_cases hdelim : b = delim
      · rw [if_pos hdelim, result_bind result_readAt, hread']
        by_cases hclose : b' = byte ']'
        · rw [if_pos hclose, if_pos ⟨hdelim, hclose⟩]
          exact ⟨pos, rfl, hnext, rfl⟩
        · rw [if_neg hclose, if_neg fun h => hclose h.2]
          exact hrest
      · rw [if_neg hdelim, if_neg fun h => hdelim h.1]
        exact hrest
    · rw [if_neg hnext]
      refine ⟨pos, rfl, ?_⟩
      cases hdrop : input.drop pos with
      | nil => exact not_lt.mp hnext
      | cons b rest =>
        have hlength := drop_length_eq hdrop
        rw [List.length_cons] at hlength
        have hnil : rest = [] := List.length_eq_zero_iff.mp (by omega)
        rw [hnil]
        exact not_lt.mp hnext

/-- The group is closed where the one on the rest of the input is, if it is. -/
def Closes (input : List UInt8) (r : Except ScanError (Bool × ℕ)) : Option (List UInt8) → Prop
  | none => ∃ p, r = .ok (false, p)
  | some rest => ∃ p, r = .ok (true, p) ∧ input.drop p = rest

/-- From every position behind this one on both loops close the group alike. -/
def ClosesBehind (input : List UInt8) (fuel n pos : ℕ) : Prop :=
  ∀ depth inBracket p, pos < p →
    Closes input (skipGroupLoop input fuel depth inBracket p).result
      (PgTre.skipGroupLoop n depth inBracket (input.drop p))

section

variable {n depth : ℕ} {c : UInt8} {rest : List UInt8}

/-- Behind a backslash the next byte is skipped. -/
theorem closes_backslash {inBracket : Bool} (hdrop : input.drop pos = c :: rest)
    (hslash : c = byte '\\') (hbehind : ClosesBehind input fuel n pos) :
    Closes input (skipGroupLoop input (fuel + 1) depth inBracket pos).result
      (PgTre.skipGroupLoop (n + 1) depth inBracket (c :: rest)) := by
  obtain ⟨hpos, hread, hnext⟩ := drop_succ_of_drop_eq_cons hdrop
  have hskip : rest.drop 1 =
      input.drop (if pos + 1 < input.length then pos + 1 + 1 else pos + 1) := by
    split_ifs with hlt
    · rw [← hnext, List.drop_drop]
    · rw [← hnext, List.drop_drop, List.drop_eq_nil_of_le (by omega),
        List.drop_eq_nil_of_le (by omega)]
  rw [skipGroupLoop, if_pos hpos, result_bind result_readAt, hread]
  unfold PgTre.skipGroupLoop
  dsimp only
  rw [if_pos hslash, if_pos hslash, hskip]
  apply hbehind
  split_ifs <;> omega

/-- In a bracket a class may begin, or the bracket ends. -/
theorem closes_inBracket (hdrop : input.drop pos = c :: rest) (hslash : c ≠ byte '\\')
    (hbehind : ClosesBehind input fuel n pos) :
    Closes input (skipGroupLoop input (fuel + 1) depth true pos).result
      (PgTre.skipGroupLoop (n + 1) depth true (c :: rest)) := by
  obtain ⟨hpos, hread, hnext⟩ := drop_succ_of_drop_eq_cons hdrop
  have hmember : ∀ inBracket, Closes input (skipGroupLoop input fuel depth inBracket (pos + 1)).result
      (PgTre.skipGroupLoop n depth inBracket rest) := by
    intro inBracket
    rw [← hnext]
    exact hbehind _ _ _ (Nat.lt_succ_self pos)
  rw [skipGroupLoop, if_pos hpos, result_bind result_readAt, hread]
  unfold PgTre.skipGroupLoop
  dsimp only
  rw [if_neg hslash, if_neg hslash, if_pos rfl, if_pos rfl]
  by_cases hopen : c = byte '['
  · have hstay : decide (c ≠ byte ']') = true := by rw [hopen]; decide
    rw [if_pos hopen, result_bind result_byteAt, hnext, hstay]
    cases rest with
    | nil => exact hmember true
    | cons delim rest =>
      obtain ⟨-, -, hclass⟩ := drop_succ_of_drop_eq_cons hnext
      dsimp only [List.head?_cons]
      by_cases hnamed : isNamedDelim delim = true
      · obtain ⟨last, hlast, hend⟩ :=
          @result_findNamedEnd input (pos + 1 + 1) (input.length + 1) delim (by omega) (by omega)
        have hle := (@findNamedEnd_ensures input (pos + 1 + 1) (input.length + 1) delim (by omega)
          (by omega)).result _ hlast
        rw [if_pos hnamed, if_pos ⟨hopen, hnamed⟩, result_bind hlast]
        rw [hclass] at hend
        cases hclose : namedEnd delim rest with
        | none =>
          rw [hclose] at hend
          dsimp only at hend
          rw [Option.getD_none, ← List.drop_eq_nil_of_le (show input.length ≤ last + 2 by omega)]
          exact hbehind _ _ _ (by omega)
        | some rest' =>
          rw [hclose] at hend
          rw [Option.getD_some, ← hend.2]
          exact hbehind _ _ _ (by omega)
      · rw [if_neg hnamed, if_neg fun h => hnamed h.2]
        exact hmember true
  · rw [if_neg hopen]
    cases rest with
    | nil => exact hmember _
    | cons delim rest =>
      dsimp only
      rw [if_neg fun h => hopen h.1]
      exact hmember _

/-- Outside of brackets a bracket may begin, or the parentheses are counted. -/
theorem closes_outside (hdrop : input.drop pos = c :: rest) (hslash : c ≠ byte '\\')
    (hbehind : ClosesBehind input fuel n pos) :
    Closes input (skipGroupLoop input (fuel + 1) depth false pos).result
      (PgTre.skipGroupLoop (n + 1) depth false (c :: rest)) := by
  obtain ⟨hpos, hread, hnext⟩ := drop_succ_of_drop_eq_cons hdrop
  have hcount : ∀ depth, Closes input (skipGroupLoop input fuel depth false (pos + 1)).result
      (PgTre.skipGroupLoop n depth false rest) := by
    intro depth
    rw [← hnext]
    exact hbehind _ _ _ (Nat.lt_succ_self pos)
  rw [skipGroupLoop, if_pos hpos, result_bind result_readAt, hread]
  unfold PgTre.skipGroupLoop
  dsimp only
  rw [if_neg hslash, if_neg hslash, if_neg Bool.false_ne_true, if_neg Bool.false_ne_true]
  by_cases hopen : c = byte '['
  · obtain ⟨p, hp, hle, hend, hcaret⟩ :=
      result_skipByte (byte '^') (show pos + 1 ≤ input.length from hpos)
    obtain ⟨p', hp', hle', -, hfirst⟩ := result_skipByte (byte ']') hend
    rw [if_pos hopen, if_pos hopen, result_bind hp, result_bind hp', ← hnext, ← hcaret, ← hfirst]
    exact hbehind _ _ _ (hle.trans hle')
  rw [if_neg hopen, if_neg hopen]
  by_cases hparen : c = byte '('
  · rw [if_pos hparen, if_pos hparen]
    exact hcount _
  rw [if_neg hparen, if_neg hparen]
  by_cases hclose : c = byte ')'
  · rw [if_pos hclose, if_pos hclose]
    by_cases hdepth : depth = 1
    · rw [if_pos hdepth, if_pos hdepth]
      exact ⟨_, rfl, hnext⟩
    · rw [if_neg hdepth, if_neg hdepth]
      exact hcount _
  rw [if_neg hclose, if_neg hclose]
  exact hcount _

end

/-- With enough turns both loops close the group alike. -/
theorem closes_skipGroupLoop {n depth : ℕ} {inBracket : Bool} (hfuel : input.length < fuel + pos)
    (hfuel' : 0 < fuel) (hn : input.length < n + pos) (hn' : 0 < n) :
    Closes input (skipGroupLoop input fuel depth inBracket pos).result
      (PgTre.skipGroupLoop n depth inBracket (input.drop pos)) := by
  induction fuel generalizing n depth inBracket pos with
  | zero => omega
  | succ fuel ih =>
    obtain ⟨n, rfl⟩ : ∃ n', n = n' + 1 := ⟨n - 1, by omega⟩
    cases hdrop : input.drop pos with
    | nil =>
      rw [skipGroupLoop, if_neg (not_lt.mpr (List.drop_eq_nil_iff.mp hdrop))]
      exact ⟨pos, rfl⟩
    | cons c rest =>
      have hpos := (drop_succ_of_drop_eq_cons hdrop).1
      have hbehind : ClosesBehind input fuel n pos := by
        intro depth inBracket p hlt
        exact ih (by omega) (by omega) (by omega) (by omega)
      by_cases hslash : c = byte '\\'
      · exact closes_backslash hdrop hslash hbehind
      cases inBracket with
      | true => exact closes_inBracket hdrop hslash hbehind
      | false => exact closes_outside hdrop hslash hbehind

/-- Skipping a group closes where the list says. -/
theorem closes_skipGroup (hpos : pos ≤ input.length) :
    Closes input (skipGroup input pos).result (PgTre.skipGroup (input.drop pos)) := by
  refine closes_skipGroupLoop (by omega) (by omega) ?_ (by omega)
  rw [List.length_drop]
  omega

/-! ## Escapes and integers -/

/-- Beyond its domain `isdigit` finds no digits. -/
def noneBeyond : ℤ → Bool := fun _ => false

/-- The scan ends like the one on the rest of the input. -/
def Leads {α : Type} (input : List UInt8) (r : Except ScanError (α × ℕ)) :
    Except ScanError (α × List UInt8) → Prop
  | .error e => r = .error e
  | .ok (a, rest) => ∃ p, r = .ok (a, p) ∧ input.drop p = rest

/-- A code of the table is classified by it. -/
theorem result_classify {table : CodePoint → Bool} {c : ℕ} (h : c ≤ 255) :
    (classify beyond table c).result = .ok (table c) := by
  change Except.ok (if (c : ℤ) = -1 then false else if 0 ≤ (c : ℤ) ∧ (c : ℤ) ≤ 255 then
    table (c : ℤ).toNat else beyond c) = _
  rw [if_neg (by omega), if_pos (by omega), Int.toNat_natCast]

/-- A character beyond the domain is no digit either way. -/
theorem result_classify_isDigit (c : ℕ) :
    (classify noneBeyond isDigit c).result = .ok (isDigit c) := by
  by_cases h : c ≤ 255
  · exact result_classify h
  · have hother : isDigit c = false := by
      rw [← Bool.not_eq_true, isDigit_eq_true]
      omega
    change Except.ok (if (c : ℤ) = -1 then false else if 0 ≤ (c : ℤ) ∧ (c : ℤ) ≤ 255 then
      isDigit (c : ℤ).toNat else false) = _
    rw [if_neg (by omega), if_neg (by omega), hother]

/-- Skipping a code drops the bytes that the list drops. -/
theorem result_skipCode {c : ℕ} (hfuel : input.length < fuel + pos) (hfuel' : 0 < fuel) :
    ∃ p, (skipCode noneBeyond input c fuel pos).result = .ok p ∧
      input.drop p = if c ∈ [cp 'x', cp 'u', cp 'U', cp '0'] then
        (input.drop pos).dropWhile isCodeByte else input.drop pos := by
  induction fuel generalizing pos with
  | zero => omega
  | succ fuel ih =>
    unfold skipCode
    cases hdrop : input.drop pos with
    | nil =>
      rw [if_neg (not_lt.mpr (List.drop_eq_nil_iff.mp hdrop))]
      exact ⟨pos, rfl, by simpa using hdrop⟩
    | cons b rest =>
      obtain ⟨hpos, hread, hnext⟩ := drop_succ_of_drop_eq_cons hdrop
      have hbyte : b.toNat ≤ 255 := by
        have := b.toNat_lt
        omega
      rw [if_pos hpos, result_bind result_readAt, hread, result_bind (result_classify hbyte)]
      have hcode : isCodeByte b = true ↔ isXDigit b.toNat = true ∨ b = byte '{' ∨ b = byte '}' := by
        simp only [isCodeByte, Bool.or_eq_true, decide_eq_true_eq]
      have hmem : c ∈ [cp 'x', cp 'u', cp 'U', cp '0'] ↔
          ((c : ℤ) = cp 'x' ∨ (c : ℤ) = cp 'u' ∨ (c : ℤ) = cp 'U' ∨ (c : ℤ) = cp '0') := by
        simp only [List.mem_cons, List.not_mem_nil, or_false, Nat.cast_inj]
      by_cases hc : c ∈ [cp 'x', cp 'u', cp 'U', cp '0']
      · rw [if_pos hc]
        by_cases hb : isCodeByte b = true
        · obtain ⟨p, hp, hrest⟩ := @ih (pos + 1) (by omega) (by omega)
          rw [if_pos ⟨hcode.mp hb, hmem.mp hc⟩, List.dropWhile_cons, if_pos hb]
          rw [if_pos hc, hnext] at hrest
          exact ⟨p, hp, hrest⟩
        · rw [if_neg fun h => hb (hcode.mpr h.1), List.dropWhile_cons, if_neg hb]
          exact ⟨pos, rfl, hdrop⟩
      · rw [if_neg hc, if_neg fun h => hc (hmem.mpr h.2)]
        exact ⟨pos, rfl, hdrop⟩

/-- An escaped punctuation character is none that means something else. -/
theorem escapedPunctuation_plain : ∀ c ∈ escapedPunctuation,
    ¬(c = cp '<' ∨ c = cp '>') ∧ ¬(c < 128 ∧ isAlnum c = true) := by
  decide

/-- An escape is parsed as on the list. -/
theorem result_parseEscape (hagrees : Agrees tables enc) :
    Leads input (parseEscape tables noneBeyond input pos).result
      (PgTre.parseEscape enc (input.drop pos)) := by
  have hnext := @result_nextChar tables enc input pos hagrees
  unfold PgTre.parseEscape
  cases hchar : enc.nextChar (input.drop pos) with
  | ended =>
    rw [hchar] at hnext
    have hread : (nextChar tables input pos).result = .ok (-1, pos) := by
      rw [nextChar, if_pos hnext]
      rfl
    change (parseEscape tables noneBeyond input pos).result = _
    rw [parseEscape, result_bind hread]
    rfl
  | invalid =>
    rw [hchar] at hnext
    change (parseEscape tables noneBeyond input pos).result = _
    rw [parseEscape, result_bind_error hnext.2]
  | char c rest =>
    rw [hchar] at hnext
    obtain ⟨p, hread, hrest⟩ := hnext
    have hbounds := charAt_bounds hread
    rw [parseEscape, result_bind (charAt_eq_some.mp hread).1]
    dsimp only
    have hcast : ∀ {d : CodePoint}, (c : ℤ) = d ↔ c = d := Nat.cast_inj
    have hreturn : ∀ esc : Escape,
        Leads input (pure (esc, p) : Scan (Escape × ℕ)).result (.ok (esc, rest)) :=
      fun esc => ⟨p, rfl, hrest⟩
    by_cases hn : c = cp 'n'
    · rw [if_pos hn, if_pos (hcast.mpr hn)]
      exact hreturn _
    rw [if_neg hn, if_neg (mt hcast.mp hn)]
    by_cases ht : c = cp 't'
    · rw [if_pos ht, if_pos (hcast.mpr ht)]
      exact hreturn _
    rw [if_neg ht, if_neg (mt hcast.mp ht)]
    by_cases hr : c = cp 'r'
    · rw [if_pos hr, if_pos (hcast.mpr hr)]
      exact hreturn _
    rw [if_neg hr, if_neg (mt hcast.mp hr)]
    have hshorthand : c ∈ [cp 'd', cp 'D', cp 'w', cp 'W', cp 's', cp 'S'] ↔
        ((c : ℤ) = cp 'd' ∨ (c : ℤ) = cp 'D' ∨ (c : ℤ) = cp 'w' ∨ (c : ℤ) = cp 'W' ∨
          (c : ℤ) = cp 's' ∨ (c : ℤ) = cp 'S') := by
      simp only [List.mem_cons, List.not_mem_nil, or_false, Nat.cast_inj]
    by_cases hs : c ∈ [cp 'd', cp 'D', cp 'w', cp 'W', cp 's', cp 'S']
    · rw [if_pos hs, if_pos (hshorthand.mp hs)]
      exact hreturn _
    rw [if_neg hs, if_neg (mt hshorthand.mpr hs), if_neg (show ¬(c : ℤ) = -1 by omega),
      Int.toNat_natCast]
    by_cases hpunctuation : c ∈ escapedPunctuation
    · obtain ⟨hanchor, halnum⟩ := escapedPunctuation_plain c hpunctuation
      rw [if_pos hpunctuation, if_neg hanchor, if_neg halnum]
      exact hreturn _
    rw [if_neg hpunctuation]
    by_cases hanchor : c = cp '<' ∨ c = cp '>'
    · rw [if_pos hanchor, if_pos (hanchor.imp hcast.mpr hcast.mpr)]
      exact hreturn _
    rw [if_neg hanchor, if_neg (mt (Or.imp hcast.mp hcast.mp) hanchor)]
    have hguard : (0 ≤ (c : ℤ) ∧ (c : ℤ) < 128) ↔ c < 128 :=
      ⟨fun h => by exact_mod_cast h.2, fun h => ⟨hbounds.1, by exact_mod_cast h⟩⟩
    by_cases hascii : c < 128
    · rw [if_pos (hguard.mpr hascii), result_bind (result_classify (hascii.le.trans (by decide)))]
      by_cases halnum : isAlnum c = true
      · obtain ⟨q, hq, hcode⟩ :=
          @result_skipCode input p (input.length + 1) c (by omega) (by omega)
        rw [if_pos halnum, if_pos ⟨hascii, halnum⟩, result_bind hq]
        rw [hrest] at hcode
        exact ⟨q, rfl, hcode⟩
      · have hnot : ¬(c < 128 ∧ isAlnum c = true) := fun h => halnum h.2
        rw [if_neg halnum, if_neg hnot]
        exact hreturn _
    · have hnot : ¬(c < 128 ∧ isAlnum c = true) := fun h => hascii h.1
      rw [if_neg (mt hguard.mp hascii), if_neg hnot]
      exact hreturn _

/-- Peeking sees the character. -/
theorem result_peekChar {c : ℤ} {p : ℕ} (hchar : charAt tables input pos = some (c, p)) :
    (peekChar tables input pos).result = .ok c := by
  rw [peekChar_result, (charAt_eq_some.mp hchar).1]
  rfl

/-- How the loop of `parse_integer` ends. -/
theorem result_parseIntegerLoop (hagrees : Agrees tables enc) (hhigh : HighCodes tables) {val : ℤ}
    {gotDigit : Bool} (hfuel : input.length < fuel + pos) (hfuel' : 0 < fuel) :
    match (parseIntegerLoop tables noneBeyond input fuel val gotDigit pos).result with
    | .error e => PgTre.parseIntegerLoop enc val gotDigit (input.drop pos) = .error e
    | .ok r => PgTre.parseIntegerLoop enc val gotDigit (input.drop pos) =
        if r.2.1 = true then .ok (r.1, input.drop r.2.2)
        else .error (.syntaxError (some "expected digit in repetition count")) := by
  induction fuel generalizing val gotDigit pos with
  | zero => omega
  | succ fuel ih =>
    unfold parseIntegerLoop
    have hnext := @result_nextChar tables enc input pos hagrees
    cases hdrop : input.drop pos with
    | nil =>
      have hpeek : (peekChar tables input pos).result = .ok (-1) := by
        rw [peekChar, if_pos (List.drop_eq_nil_iff.mp hdrop)]
        rfl
      rw [result_bind hpeek, if_pos rfl]
      simp only [result_pure, PgTre.parseIntegerLoop, hdrop]
    | cons b rest =>
      rw [hdrop] at hnext
      have hpos := (drop_succ_of_drop_eq_cons hdrop).1
      by_cases hdigit : isDigit b.toNat = true
      · have hascii : b < 128 := by
          have hbound := (isDigit_eq_true.mp hdigit).2
          rw [UInt8.lt_iff_toNat_lt]
          exact hbound.trans_lt (by decide)
        rw [Encoding.nextChar_ascii hascii] at hnext
        obtain ⟨p, hchar, hrest⟩ := hnext
        obtain ⟨-, rfl⟩ := digitAt_of_charAt hhigh hchar hdigit
        rw [result_bind (result_peekChar hchar), if_neg (charAt_eq_some.mp hchar).2,
          result_bind (result_classify_isDigit _), if_pos hdigit,
          result_bind (charAt_eq_some.mp hchar).1, PgTre.parseIntegerLoop, if_pos hdigit, ← hrest]
        exact ih (by omega) (by omega)
      · rw [PgTre.parseIntegerLoop, if_neg hdigit]
        cases hdecoded : enc.nextChar (b :: rest) with
        | ended =>
          rw [hdecoded] at hnext
          exact absurd hpos (not_lt.mpr hnext)
        | invalid =>
          rw [hdecoded] at hnext
          have hpeek : (peekChar tables input pos).result = .error enc.invalidSequence := by
            rw [peekChar_result, hnext.2]
            rfl
          rw [result_bind_error hpeek]
        | char c rest' =>
          rw [hdecoded] at hnext
          obtain ⟨p, hchar, -⟩ := hnext
          have hother : ¬isDigit c = true := by
            intro h
            obtain ⟨b', rest'', hdrop', hdigit'⟩ := (digitAt_of_charAt hhigh hchar h).1
            rw [hdrop, List.cons.injEq] at hdrop'
            exact hdigit (hdrop'.1 ▸ hdigit')
          rw [result_bind (result_peekChar hchar), if_neg (charAt_eq_some.mp hchar).2,
            result_bind (result_classify_isDigit _), if_neg hother]
          simp only [result_pure, hdrop]

/-- An integer is parsed as on the list. -/
theorem result_parseInteger (hagrees : Agrees tables enc) (hhigh : HighCodes tables) :
    Leads input (parseInteger tables noneBeyond input pos).result
      (PgTre.parseInteger enc (input.drop pos)) := by
  have hloop := @result_parseIntegerLoop tables enc input pos (input.length + 1) hagrees hhigh 0 false
    (by omega) (by omega)
  unfold PgTre.parseInteger parseInteger
  cases hr : (parseIntegerLoop tables noneBeyond input (input.length + 1) 0 false pos).result with
  | error e =>
    rw [hr] at hloop
    rw [hloop, result_bind_error hr]
    rfl
  | ok r =>
    rw [hr] at hloop
    rw [hloop, result_bind hr]
    split_ifs
    · exact ⟨_, rfl, rfl⟩
    · rfl

end

end PgTre.Positional
