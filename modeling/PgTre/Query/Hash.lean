import Mathlib.Data.UInt

/-!
# Trigram hashes and keys

`src/util/hash.c` maps a trigram of code points to the 64-bit hash under which its
posting is stored, and `include/pg_tre/hash.h` maps it to the order-preserving key of
the SuRF filter. PostgreSQL's `murmurhash32` and `hash_combine` are the ones of
`common/hashfn.h`.
-/

namespace PgTre

/-- A character as the index sees it: a code point of the database encoding, always
non-negative (`pg_tre_decode_char` folds every character into the range of `int32`). -/
abbrev CodePoint := ℕ

/-- Three consecutive code points. -/
abbrev Trigram := CodePoint × CodePoint × CodePoint

instance : LawfulBEq Trigram := inferInstanceAs (LawfulBEq (CodePoint × CodePoint × CodePoint))

/-- `murmurhash32` of `common/hashfn.h`. -/
def murmurhash32 (data : UInt32) : UInt32 :=
  let h := data ^^^ (data >>> 16)
  let h := h * 0x85ebca6b
  let h := h ^^^ (h >>> 13)
  let h := h * 0xc2b2ae35
  h ^^^ (h >>> 16)

/-- `hash_combine` of `common/hashfn.h`. -/
def hashCombine (a b : UInt32) : UInt32 :=
  a ^^^ (b + (0x9e3779b9 : UInt32) + (a <<< 6) + (a >>> 2))

/-- `pg_tre_hash_trigram_cp`: the lower half hashes the first two code points, the upper
half all three. -/
def hashTrigramCp (t : Trigram) : UInt64 :=
  let h1 := hashCombine (murmurhash32 (UInt32.ofNat t.1)) (UInt32.ofNat t.2.1)
  let h2 := hashCombine h1 (UInt32.ofNat t.2.2)
  h1.toUInt64 ||| (h2.toUInt64 <<< 32)

/-- `PG_TRE_CP_BITS`. -/
def cpBits : ℕ := 21

/-- `pg_tre_trigram_key_cp`: the three code points packed into 21 bits each, so that keys
are ordered as the trigrams are. -/
def trigramKeyCp (t : Trigram) : ℕ :=
  ((t.1 % 2 ^ cpBits) <<< (2 * cpBits)) ||| ((t.2.1 % 2 ^ cpBits) <<< cpBits) |||
    (t.2.2 % 2 ^ cpBits)

end PgTre
