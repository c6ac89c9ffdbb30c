import Mathlib.Data.Nat.Bitwise
import Mathlib.Tactic.Ring
import Mathlib.Order.Compare

/-!
# Big-endian bytes

A list of bytes is read as a number with the first byte in front. Lists of one length are in the order
of their numbers when they are compared byte by byte, as `memcmp` does, so that a key of several
numbers is compared by the first of them that differs.
-/

namespace BigEndian

/-! ## Values -/

/-- The number of the bytes. -/
def value (bytes : List UInt8) : ℕ := bytes.foldl (fun n b => 256 * n + b.toNat) 0

/-- The last bytes of a number that takes `k` of them. -/
def bytesOf : ℕ → ℕ → List UInt8
  | 0, _ => []
  | k + 1, n => UInt8.ofNat (n / 256 ^ k) :: bytesOf k n

/-- No byte, no value. -/
@[simp] theorem value_nil : value [] = 0 := rfl

/-- What was read before is in front of the bytes. -/
theorem value_foldl (bytes : List UInt8) (n : ℕ) :
    bytes.foldl (fun n b => 256 * n + b.toNat) n = n * 256 ^ bytes.length + value bytes := by
  induction bytes generalizing n with
  | nil => simp
  | cons b bytes ih =>
    have hvalue : value (b :: bytes) = (256 * 0 + b.toNat) * 256 ^ bytes.length + value bytes := by
      rw [value, List.foldl_cons, ih]
    rw [List.foldl_cons, ih, hvalue, List.length_cons, Nat.pow_succ]
    ring

/-- The first byte is the most significant one. -/
theorem value_cons (b : UInt8) (bytes : List UInt8) :
    value (b :: bytes) = b.toNat * 256 ^ bytes.length + value bytes := by
  rw [value, List.foldl_cons, value_foldl, Nat.mul_zero, Nat.zero_add]

/-- A value fits in its bytes. -/
theorem value_lt_pow (bytes : List UInt8) : value bytes < 256 ^ bytes.length := by
  induction bytes with
  | nil => simp
  | cons b bytes ih =>
    have hb : b.toNat + 1 ≤ 256 := b.toNat_lt
    rw [value_cons, List.length_cons, Nat.pow_succ, Nat.mul_comm _ 256]
    calc b.toNat * 256 ^ bytes.length + value bytes
        < b.toNat * 256 ^ bytes.length + 256 ^ bytes.length := Nat.add_lt_add_left ih _
      _ = (b.toNat + 1) * 256 ^ bytes.length := by ring
      _ ≤ 256 * 256 ^ bytes.length := Nat.mul_le_mul_right _ hb

/-- There are as many bytes as asked for. -/
@[simp] theorem length_bytesOf (k n : ℕ) : (bytesOf k n).length = k := by
  induction k with
  | zero => rfl
  | succ k ih => rw [bytesOf, List.length_cons, ih]

/-- The bytes have the number that they were written for. -/
theorem value_bytesOf (k n : ℕ) : value (bytesOf k n) = n % 256 ^ k := by
  induction k with
  | zero => rw [bytesOf, value_nil, Nat.pow_zero, Nat.mod_one]
  | succ k ih =>
    rw [bytesOf, value_cons, length_bytesOf, ih, UInt8.toNat_ofNat', Nat.mod_pow_succ (b := 256),
      Nat.add_comm, Nat.mul_comm]

/-! ## `memcmp` -/

/-- `memcmp`. -/
def memcmp : List UInt8 → List UInt8 → Ordering
  | x :: xs, y :: ys => if x < y then .lt else if y < x then .gt else memcmp xs ys
  | _, _ => .eq

variable {xs ys xs' ys' : List UInt8}

/-- Bytes are compared like the numbers they are. -/
theorem memcmp_eq_compare (h : xs.length = ys.length) :
    memcmp xs ys = compare (value xs) (value ys) := by
  induction xs generalizing ys with
  | nil =>
    obtain rfl := List.length_eq_zero_iff.mp h.symm
    rfl
  | cons x xs ih =>
    cases ys with
    | nil => cases h
    | cons y ys =>
      have hlength : xs.length = ys.length := Nat.succ.inj h
      have hx := value_lt_pow xs
      have hy := value_lt_pow ys
      rw [memcmp, value_cons, value_cons, ← hlength]
      rw [← hlength] at hy
      simp only [UInt8.lt_iff_toNat_lt]
      rcases Nat.lt_trichotomy x.toNat y.toNat with hlt | heq | hgt
      · have hstep := Nat.mul_le_mul_right (256 ^ xs.length) hlt
        rw [Nat.succ_mul] at hstep
        rw [if_pos hlt, eq_comm, compare_lt_iff_lt]
        omega
      · rw [heq, if_neg (lt_irrefl _), if_neg (lt_irrefl _), ih hlength]
        rcases Nat.lt_trichotomy (value xs) (value ys) with hlt | hsame | hgt
        · rw [compare_lt_iff_lt.mpr hlt, eq_comm, compare_lt_iff_lt]
          omega
        · rw [hsame, compare_eq_iff_eq.mpr rfl, compare_eq_iff_eq.mpr rfl]
        · rw [compare_gt_iff_gt.mpr hgt, eq_comm, compare_gt_iff_gt]
          omega
      · have hstep := Nat.mul_le_mul_right (256 ^ xs.length) hgt
        rw [Nat.succ_mul] at hstep
        rw [if_neg (lt_asymm hgt), if_pos hgt, eq_comm, compare_gt_iff_gt]
        omega

/-- The front parts decide, unless they are the same. -/
theorem memcmp_append (h : xs.length = ys.length) :
    memcmp (xs ++ xs') (ys ++ ys') = (memcmp xs ys).then (memcmp xs' ys') := by
  induction xs generalizing ys with
  | nil =>
    obtain rfl := List.length_eq_zero_iff.mp h.symm
    rfl
  | cons x xs ih =>
    cases ys with
    | nil => cases h
    | cons y ys =>
      rw [List.cons_append, List.cons_append, memcmp, memcmp]
      split_ifs with hlt hgt
      · rfl
      · rfl
      · exact ih (Nat.succ.inj h)

end BigEndian
