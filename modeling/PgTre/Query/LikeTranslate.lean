import PgTre.Query.Tokens

/-!
# Patterns of the other operators

`src/query/like_translate.c` turns the right-hand side of `LIKE` and `=` into a regular expression,
byte by byte. Whatever is special in a regular expression gets a backslash, and the result is text
of the encoding again.
-/

namespace PgTre

/-- The bytes `append_escaped` escapes. -/
def metaBytes : List UInt8 :=
  [byte '.', byte '*', byte '+', byte '?', byte '(', byte ')', byte '[', byte ']', byte '{',
    byte '}', byte '^', byte '$', byte '|', byte '\\']

/-- `append_escaped`. -/
def appendEscaped (b : UInt8) : List UInt8 :=
  if b ∈ metaBytes then [byte '\\', b] else [b]

/-- `pg_tre_like_to_regex`. -/
def likeToRegex (escape : UInt8) : List UInt8 → List UInt8
  | [] => []
  | b :: rest =>
      if escape ≠ 0 ∧ b = escape then
        match rest with
        | [] => appendEscaped escape
        | b' :: rest => appendEscaped b' ++ likeToRegex escape rest
      else if b = byte '%' then byte '.' :: byte '*' :: likeToRegex escape rest
      else if b = byte '_' then byte '.' :: likeToRegex escape rest
      else appendEscaped b ++ likeToRegex escape rest

/-- `pg_tre_literal_to_regex`. -/
def literalToRegex (lit : List UInt8) : List UInt8 :=
  byte '^' :: (lit.flatMap appendEscaped ++ [byte '$'])

section

variable {enc : Encoding} {escape b : UInt8} {bytes tail rest rest' : List UInt8}

/-- The metacharacters are ASCII. -/
theorem metaBytes_ascii : ∀ b ∈ metaBytes, b < 128 := by
  have hall : metaBytes.all (fun b => decide (b < 128)) = true := by rfl
  intro b hb
  simpa using List.all_eq_true.mp hall b hb

/-- A byte outside ASCII is not escaped. -/
theorem appendEscaped_high (hb : ¬b < 128) : appendEscaped b = [b] := by
  rw [appendEscaped, if_neg fun hmeta => hb (metaBytes_ascii b hmeta)]

/-- An ASCII byte before valid text is valid. -/
theorem Encoding.Valid.cons (hb : b < 128) (h : enc.Valid rest) : enc.Valid (b :: rest) :=
  .char (Encoding.nextChar_ascii hb rest) h

/-- An ASCII byte, escaped or not, before characters. -/
theorem Encoding.Valid.escaped (hb : b < 128) (h : enc.Valid rest) :
    enc.Valid (appendEscaped b ++ rest) := by
  unfold appendEscaped
  split
  · exact .cons (by decide) (.cons hb h)
  · exact .cons hb h

/-- A character of several bytes before other characters. -/
theorem Encoding.Valid.move {c : CodePoint} (hb : ¬b < 128)
    (h : enc.nextChar (b :: (tail ++ rest)) = .char c rest) (hrest : enc.Valid rest') :
    enc.Valid (b :: (tail ++ rest')) := by
  rw [Encoding.nextChar, if_neg hb] at h
  cases hdecode : enc.decodeMb b (tail ++ rest) with
  | none => simp [hdecode] at h
  | some r =>
    obtain ⟨c', rest''⟩ := r
    simp only [hdecode] at h
    cases h
    have hmoved : enc.nextChar (b :: (tail ++ rest')) = .char c rest' := by
      rw [Encoding.nextChar, if_neg hb, enc.apart hdecode rest']
    exact .char hmoved hrest

/-- A byte that is no escape is translated by itself. -/
theorem likeToRegex_plain (hb : ¬(escape ≠ 0 ∧ b = escape)) :
    likeToRegex escape (b :: rest) =
      if b = byte '%' then byte '.' :: byte '*' :: likeToRegex escape rest
      else if b = byte '_' then byte '.' :: likeToRegex escape rest
      else appendEscaped b ++ likeToRegex escape rest := by
  rw [likeToRegex.eq_def]
  simp only [if_neg hb]

/-- A byte behind the escape is taken literally. -/
theorem likeToRegex_escape (hescape : escape ≠ 0) (b : UInt8) (rest : List UInt8) :
    likeToRegex escape (escape :: b :: rest) = appendEscaped b ++ likeToRegex escape rest := by
  rw [likeToRegex.eq_def]
  simp [hescape]

/-- Bytes above 127 are copied. -/
theorem likeToRegex_high (hescape : escape < 128) (htail : ∀ b' ∈ tail, 128 ≤ b') :
    likeToRegex escape (tail ++ rest) = tail ++ likeToRegex escape rest := by
  induction tail with
  | nil => rfl
  | cons b tail ih =>
    have hb : ¬b < 128 := UInt8.not_lt.mpr (htail b (by simp))
    have hne : ∀ {x : UInt8}, x < 128 → b ≠ x := fun hx heq => hb (heq ▸ hx)
    rw [List.cons_append, likeToRegex_plain fun h => hne hescape h.2,
      if_neg (hne (by decide)), if_neg (hne (by decide)), appendEscaped_high hb,
      ih fun b' hb' => htail b' (List.mem_cons_of_mem _ hb')]
    rfl

/-- Bytes outside ASCII are left alone. -/
theorem flatMap_high (htail : ∀ b' ∈ tail, 128 ≤ b') : tail.flatMap appendEscaped = tail := by
  induction tail with
  | nil => rfl
  | cons b tail ih =>
    have hb : ¬b < 128 := UInt8.not_lt.mpr (htail b (by simp))
    rw [List.flatMap_cons, appendEscaped_high hb,
      ih fun b' hb' => htail b' (List.mem_cons_of_mem _ hb')]
    rfl

/-- The regular expression of a `LIKE` pattern is text of the encoding. -/
theorem likeToRegex_valid (hescape : escape < 128) (h : enc.Valid bytes) :
    enc.Valid (likeToRegex escape bytes) := by
  induction hn : bytes.length using Nat.strong_induction_on generalizing bytes with
  | _ n ih =>
    cases h with
    | nil => exact .nil
    | @char bytes rest c hchar hrest =>
      obtain ⟨b, tail, rfl, hlow, hhigh⟩ := Encoding.nextChar_eq_char hchar
      simp only [List.length_cons, List.length_append] at hn
      by_cases hb : b < 128
      · obtain rfl := hlow hb
        rw [List.nil_append]
        by_cases hesc : escape ≠ 0 ∧ b = escape
        · obtain ⟨hzero, rfl⟩ := hesc
          cases hrest with
          | nil =>
            have hlast : likeToRegex b [b] = appendEscaped b ++ [] := by
              simp [likeToRegex, hzero]
            rw [hlast]
            exact .escaped hb .nil
          | @char rest rest' c' hchar' hrest' =>
            -- the character behind the escape is taken as it is, with all its bytes
            obtain ⟨b', tail', rfl, hlow', hhigh'⟩ := Encoding.nextChar_eq_char hchar'
            simp only [List.length_cons, List.length_append] at hn
            rw [likeToRegex_escape hzero, likeToRegex_high hb hhigh']
            have hrec := ih rest'.length (by omega) hrest' rfl
            by_cases hb' : b' < 128
            · rw [hlow' hb', List.nil_append]
              exact .escaped hb' hrec
            · have hmoved : enc.Valid (b' :: (tail' ++ likeToRegex b rest')) :=
                .move hb' hchar' hrec
              rw [appendEscaped_high hb']
              exact hmoved
        · have hrec := ih rest.length (by omega) hrest rfl
          rw [likeToRegex_plain hesc]
          split_ifs
          · exact .cons (by decide) (.cons (by decide) hrec)
          · exact .cons (by decide) hrec
          · exact .escaped hb hrec
      · have hall : ∀ b' ∈ b :: tail, 128 ≤ b' := by
          intro b' hb'
          rcases List.mem_cons.mp hb' with rfl | hb'
          · exact UInt8.not_lt.mp hb
          · exact hhigh b' hb'
        have hcopy : likeToRegex escape (b :: (tail ++ rest)) =
            b :: (tail ++ likeToRegex escape rest) :=
          @likeToRegex_high escape (b :: tail) rest hescape hall
        rw [hcopy]
        exact .move hb hchar (ih rest.length (by omega) hrest rfl)

/-- The regular expression of a literal is text of the encoding. -/
theorem literalToRegex_valid (h : enc.Valid bytes) : enc.Valid (literalToRegex bytes) := by
  refine .cons (by decide) ?_
  induction h with
  | nil => exact .cons (by decide) .nil
  | @char bytes rest c hchar hrest ih =>
    obtain ⟨b, tail, rfl, hlow, hhigh⟩ := Encoding.nextChar_eq_char hchar
    rw [List.flatMap_cons, List.flatMap_append, flatMap_high hhigh]
    by_cases hb : b < 128
    · rw [hlow hb, List.nil_append, List.append_assoc]
      exact .escaped hb ih
    · have hmoved : enc.Valid (b :: (tail ++ (rest.flatMap appendEscaped ++ [byte '$']))) :=
        .move hb hchar ih
      rw [appendEscaped_high hb, List.append_assoc, List.append_assoc]
      exact hmoved

end

end PgTre
