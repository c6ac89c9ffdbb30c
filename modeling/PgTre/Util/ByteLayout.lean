import PgTre.Util.SparsemapBytes

/-!
# Fields and records in bytes

Structures lie in bytes one behind the other. A field is read at its offset, with the lowest byte of
a number first, and records of one width form an array. A region that is written keeps every region
beside it.
-/

namespace PgTre.Layout

open Sparsemap

/-- The bytes of a region. -/
def bytesAt (bytes : List UInt8) (off len : ℕ) : List UInt8 := (bytes.drop off).take len

/-- The number in a field of `k` bytes. -/
def numberAt (bytes : List UInt8) (off k : ℕ) : ℕ := ofBytes (bytesAt bytes off k)

/-- A region overwritten. -/
def putBytes (bytes : List UInt8) (off : ℕ) (region : List UInt8) : List UInt8 :=
  bytes.take off ++ region ++ bytes.drop (off + region.length)

section

variable {xs ys bytes region : List UInt8} {off len off' len' : ℕ}

/-- A region inside the bytes is as long as asked for. -/
theorem length_bytesAt (h : off + len ≤ bytes.length) : (bytesAt bytes off len).length = len := by
  rw [bytesAt, List.length_take, List.length_drop]
  omega

/-- A region that lies within the first bytes. -/
theorem bytesAt_append_left (h : off + len ≤ xs.length) :
    bytesAt (xs ++ ys) off len = bytesAt xs off len := by
  rw [bytesAt, List.drop_append_of_le_length (by omega), List.take_append_of_le_length, bytesAt]
  rw [List.length_drop]
  omega

/-- A region behind the first bytes. -/
theorem bytesAt_append_right (h : off = xs.length + off') :
    bytesAt (xs ++ ys) off len = bytesAt ys off' len := by
  rw [bytesAt, h, List.drop_append, List.drop_eq_nil_of_le (by omega), List.nil_append,
    Nat.add_sub_cancel_left, bytesAt]

/-- The region of the first bytes. -/
theorem bytesAt_append_self (h : len = xs.length) : bytesAt (xs ++ ys) 0 len = xs := by
  rw [bytesAt, List.drop_zero, h, List.take_left']
  rfl

/-- The whole is a region of itself. -/
theorem bytesAt_self (h : len = xs.length) : bytesAt xs 0 len = xs := by
  rw [bytesAt, List.drop_zero, h, List.take_length]

/-- A region and what comes behind it. -/
theorem bytesAt_append_drop (bytes : List UInt8) (off len : ℕ) :
    bytesAt bytes off len ++ bytes.drop (off + len) = bytes.drop off := by
  rw [bytesAt, ← List.drop_drop, List.take_append_drop]

/-- A region of a region. -/
theorem bytesAt_bytesAt (h : off' + len' ≤ len) :
    bytesAt (bytesAt bytes off len) off' len' = bytesAt bytes (off + off') len' := by
  rw [bytesAt, bytesAt, bytesAt, List.drop_take, List.take_take, List.drop_drop,
    Nat.min_eq_left (by omega)]

/-- Putting a region in place keeps the length. -/
@[simp] theorem length_putBytes (h : off + region.length ≤ bytes.length) :
    (putBytes bytes off region).length = bytes.length := by
  rw [putBytes, List.length_append, List.length_append, List.length_take, List.length_drop]
  omega

/-- The region that was written. -/
theorem bytesAt_putBytes_self (h : off ≤ bytes.length) :
    bytesAt (putBytes bytes off region) off region.length = region := by
  have hlen : (bytes.take off).length = off := by
    rw [List.length_take]
    omega
  rw [putBytes, List.append_assoc, bytesAt_append_right
    (show off = (bytes.take off).length + 0 by omega)]
  exact bytesAt_append_self rfl

/-- A region beside the one that was written. -/
theorem bytesAt_putBytes_of_disjoint (hfit : off + region.length ≤ bytes.length)
    (h : off' + len' ≤ off ∨ off + region.length ≤ off') :
    bytesAt (putBytes bytes off region) off' len' = bytesAt bytes off' len' := by
  have hlen : (bytes.take off).length = off := by
    rw [List.length_take]
    omega
  rcases h with h | h
  · rw [putBytes, List.append_assoc, bytesAt_append_left (by omega)]
    conv_rhs => rw [← List.take_append_drop off bytes]
    rw [bytesAt_append_left (by omega)]
  · obtain ⟨n, rfl⟩ := Nat.exists_eq_add_of_le h
    have hfront : (bytes.take off ++ region).length = off + region.length := by
      rw [List.length_append, hlen]
    rw [putBytes, bytesAt_append_right (show off + region.length + n = _ + n by rw [hfront])]
    rw [bytesAt, List.drop_drop, bytesAt]

end

/-! ## Numbers -/

section

variable {xs ys : List UInt8} {off k n : ℕ}

/-- A number is read as it was written. -/
theorem numberAt_wordBytes (hoff : off = xs.length) (hn : n < 256 ^ k) :
    numberAt (xs ++ (wordBytes k n ++ ys)) off k = n := by
  have h := @bytesAt_append_right xs (wordBytes k n ++ ys) off k 0 (by omega)
  rw [numberAt, h, bytesAt_append_self (length_wordBytes k n).symm, ofBytes_wordBytes,
    Nat.mod_eq_of_lt hn]

/-- A field of a region. -/
theorem numberAt_bytesAt {bytes : List UInt8} {off' len : ℕ} (h : off' + k ≤ len) :
    numberAt (bytesAt bytes off len) off' k = numberAt bytes (off + off') k := by
  rw [numberAt, bytesAt_bytesAt h, numberAt]

end

/-! ## Arrays -/

section

variable {α : Type} {encode : α → List UInt8} {w : ℕ}

/-- The width of an array of records. -/
theorem length_flatMap_records (h : ∀ a, (encode a).length = w) (records : List α) :
    (records.flatMap encode).length = w * records.length := by
  induction records with
  | nil => rfl
  | cons a records ih =>
    rw [List.flatMap_cons, List.length_append, h, ih, List.length_cons, Nat.mul_succ]
    omega

/-- A record of an array. -/
theorem bytesAt_flatMap_records (h : ∀ a, (encode a).length = w) {records : List α} {i : ℕ}
    (hi : i < records.length) (ys : List UInt8) :
    bytesAt (records.flatMap encode ++ ys) (w * i) w = encode records[i] := by
  have hsplit : records.flatMap encode = (records.take i).flatMap encode ++
      (encode records[i] ++ (records.drop (i + 1)).flatMap encode) := by
    rw [← List.flatMap_cons, ← List.flatMap_append, ← List.drop_eq_getElem_cons hi,
      List.take_append_drop]
  have hfront : w * i = ((records.take i).flatMap encode).length + 0 := by
    rw [length_flatMap_records h, List.length_take, Nat.min_eq_left (by omega), Nat.add_zero]
  rw [hsplit, List.append_assoc, bytesAt_append_right hfront, List.append_assoc]
  exact bytesAt_append_self (h _).symm

end

end PgTre.Layout
