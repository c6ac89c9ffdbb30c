import Mathlib.Data.Nat.Bitwise

/-!
# Characters of the database encoding

`pg_tre_decode_char` of `src/util/utf8.c` decodes the first character of some bytes with the tables of
PostgreSQL for the encoding of the database. The trigrams of a text and the tokens of a pattern are made
of such characters, which are `int32` values that are not negative.
-/

namespace PgTre

/-- The encoding of the database: PostgreSQL's tables for it. A character has at least one byte. -/
structure ServerEncoding where
  name : String
  /-- `pg_encoding_mblen_or_incomplete`; `none` is `INT_MAX`. -/
  mblenOrIncomplete : List UInt8 → Option ℕ
  /-- `pg_encoding_verifymbchar`. -/
  verifymbchar : List UInt8 → ℤ
  /-- The first character of `pg_encoding_mb2wchar_with_len`. -/
  mb2wchar : List UInt8 → UInt32
  mblen_pos : ∀ s len, mblenOrIncomplete s = some len → 0 < len

/-- The negative results of `pg_tre_decode_char`. -/
inductive DecodeFailure where
  | invalid
  | truncated
deriving DecidableEq

/-- `pg_tre_decode_char`: the length of the first character, and the character. One above the range
of `int32` is folded down. -/
def decodeChar (enc : ServerEncoding) (s : List UInt8) : Except DecodeFailure (ℕ × UInt32) :=
  match s with
  | [] => .error .truncated
  | c :: _ =>
      if c < 0x80 then .ok (1, c.toUInt32)
      else
        match enc.mblenOrIncomplete s with
        | none => .error .truncated
        | some len =>
            if s.length < len then .error .truncated
            else if enc.verifymbchar (s.take len) ≠ len then .error .invalid
            else
              let w := enc.mb2wchar (s.take len)
              .ok (len, if 0x7FFFFFFF < w then (w &&& 0x00FFFFFF) ||| 0x40000000 else w)

/-- A character is never negative as an `int32`. -/
theorem decodeChar_lt {enc : ServerEncoding} {s : List UInt8} {len : ℕ} {w : UInt32}
    (h : decodeChar enc s = .ok (len, w)) : 0 < len ∧ len ≤ s.length ∧ w.toNat < 2 ^ 31 := by
  unfold decodeChar at h
  cases s with
  | nil => cases h
  | cons c s =>
    dsimp only at h
    by_cases hascii : c < 0x80
    · rw [if_pos hascii] at h
      cases h
      refine ⟨by omega, by simp only [List.length_cons]; omega, ?_⟩
      have := c.toNat_lt
      rw [UInt8.toNat_toUInt32]
      omega
    · rw [if_neg hascii] at h
      cases hlen : enc.mblenOrIncomplete (c :: s) with
      | none =>
        rw [hlen] at h
        cases h
      | some n =>
        rw [hlen] at h
        dsimp only at h
        by_cases hshort : (c :: s).length < n
        · rw [if_pos hshort] at h
          cases h
        · rw [if_neg hshort] at h
          by_cases hverify : enc.verifymbchar ((c :: s).take n) ≠ n
          · rw [if_pos hverify] at h
            cases h
          · rw [if_neg hverify] at h
            cases h
            refine ⟨enc.mblen_pos _ _ hlen, by omega, ?_⟩
            split
            next =>
              rw [UInt32.toNat_or, UInt32.toNat_and]
              refine Nat.or_lt_two_pow ?_ ?_
              · refine lt_of_le_of_lt Nat.and_le_right ?_
                decide
              · decide
            next hle =>
              rw [UInt32.lt_iff_toNat_lt] at hle
              have hmax : (0x7FFFFFFF : UInt32).toNat = 2 ^ 31 - 1 := rfl
              omega

/-- Below 2 ^ 31 the signed reading is the number. -/
theorem toInt_of_lt {w : UInt32} (h : w.toNat < 2 ^ 31) : w.toInt32.toInt = w.toNat := by
  exact BitVec.toInt_eq_toNat_of_lt (by
    change 2 * w.toNat < 2 ^ 32
    omega)

end PgTre
