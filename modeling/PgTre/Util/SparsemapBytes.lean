import Mathlib.Algebra.Group.Nat.Even
import Mathlib.Tactic.SplitIfs

/-!
# The words of a sparsemap

`src/util/sparsemap.c` stores a map in words of eight bytes. A vector of 64 numbers is one word, and its
two flags say whether the word is empty, full or written out.
-/

namespace PgTre.Sparsemap

/-! ## Words -/

/-- The lowest `k` bytes of a number, the lowest one first. -/
def wordBytes : ℕ → ℕ → List UInt8
  | 0, _ => []
  | k + 1, n => UInt8.ofNat n :: wordBytes k (n / 256)

/-- A word of eight bytes. -/
def word (n : ℕ) : List UInt8 := wordBytes 8 n

/-- The number in some bytes. -/
def ofBytes : List UInt8 → ℕ
  | [] => 0
  | b :: bytes => b.toNat + 256 * ofBytes bytes

/-- There are as many bytes as asked for. -/
@[simp] theorem length_wordBytes (k n : ℕ) : (wordBytes k n).length = k := by
  induction k generalizing n with
  | zero => rfl
  | succ k ih => rw [wordBytes, List.length_cons, ih]

/-- A word takes eight bytes. -/
@[simp] theorem length_word (n : ℕ) : (word n).length = 8 := length_wordBytes 8 n

/-- The number of the bytes is cut to their width. -/
theorem ofBytes_wordBytes (k n : ℕ) : ofBytes (wordBytes k n) = n % 256 ^ k := by
  induction k generalizing n with
  | zero => simp [wordBytes, ofBytes, Nat.mod_one]
  | succ k ih =>
    have hpow : 256 ^ (k + 1) = 256 * 256 ^ k := pow_succ' 256 k
    rw [wordBytes, ofBytes, ih, hpow, Nat.mod_mul]
    rfl

/-! ## Vectors -/

/-- The payload of a vector with all bits set. -/
def onesVector : ℕ := 2 ^ 64 - 1

/-- `SM_PAYLOAD_ZEROS`, `SM_PAYLOAD_ONES` or `SM_PAYLOAD_MIXED`. -/
def payloadFlags (v : ℕ) : ℕ := if v = 0 then 0 else if v = onesVector then 3 else 2

/-- A flag is one of four. -/
theorem payloadFlags_lt (v : ℕ) : payloadFlags v < 4 := by
  unfold payloadFlags
  split_ifs <;> decide

end PgTre.Sparsemap
