import Mathlib.Data.UInt
import Mathlib.Data.Int.Basic
import Mathlib.Tactic.IntervalCases
import Mathlib.Tactic.Ring

/-!
# Decimal numbers in byte strings

Numbers are printed as `printf` does with `%d` and read as `strtol` and `scanf` do: blanks before the
number are skipped, a sign may stand in front of it, and it ends before the first byte that is no digit.
-/

namespace Decimal

/-- The value of a digit. -/
def digitValue (b : UInt8) : Option ℕ :=
  if 48 ≤ b.toNat ∧ b.toNat ≤ 57 then some (b.toNat - 48) else none

/-- The byte of a digit. -/
def digitByte (d : ℕ) : UInt8 := UInt8.ofNat (48 + d)

/-- `isspace` in the C locale. -/
def isSpace (b : UInt8) : Bool := decide (9 ≤ b.toNat ∧ b.toNat ≤ 13) || decide (b.toNat = 32)

/-- The digits of a number, without leading zeros. -/
def natBytes (n : ℕ) : List UInt8 := (Nat.toDigits 10 n).map fun c => UInt8.ofNat c.toNat

/-- `%d`. -/
def intBytes : ℤ → List UInt8
  | .ofNat n => natBytes n
  | .negSucc n => 45 :: natBytes (n + 1)

/-- The number at the start of some bytes, onto what was read before, and the rest. -/
def readDigits : ℕ → List UInt8 → ℕ × List UInt8
  | acc, [] => (acc, [])
  | acc, b :: bytes =>
      match digitValue b with
      | none => (acc, b :: bytes)
      | some d => readDigits (10 * acc + d) bytes

/-- A number without a sign. -/
def readNat : List UInt8 → Option (ℕ × List UInt8)
  | [] => none
  | b :: bytes =>
      match digitValue b with
      | none => none
      | some d => some (readDigits d bytes)

/-- A number with or without a sign. -/
def readSigned : List UInt8 → Option (ℤ × List UInt8)
  | [] => none
  | b :: bytes =>
      if b = 45 then (readNat bytes).map fun r => (-(r.1 : ℤ), r.2)
      else if b = 43 then (readNat bytes).map fun r => ((r.1 : ℤ), r.2)
      else (readNat (b :: bytes)).map fun r => ((r.1 : ℤ), r.2)

/-- A number behind blanks. -/
def readInt (bytes : List UInt8) : Option (ℤ × List UInt8) := readSigned (bytes.dropWhile isSpace)

section

/-- No digit follows. -/
def Ends (bytes : List UInt8) : Prop := ∀ b ∈ bytes.head?, digitValue b = none

/-- A number may end the input. -/
@[simp] theorem ends_nil : Ends [] := by simp [Ends]

/-- A written digit is read back. -/
theorem digitValue_digitByte {d : ℕ} (h : d < 10) : digitValue (digitByte d) = some d := by
  interval_cases d <;> rfl

/-- A digit is no space. -/
theorem isSpace_digitByte {d : ℕ} (h : d < 10) : isSpace (digitByte d) = false := by
  interval_cases d <;> rfl

/-- A digit is no sign. -/
theorem digitByte_ne {d : ℕ} (h : d < 10) : digitByte d ≠ 45 ∧ digitByte d ≠ 43 := by
  interval_cases d <;> decide

/-- The last digit comes off the end. -/
theorem natBytes_eq (n : ℕ) :
    natBytes n = (if n < 10 then [] else natBytes (n / 10)) ++ [digitByte (n % 10)] := by
  have hchar : ∀ d < 10, UInt8.ofNat d.digitChar.toNat = digitByte d := by
    intro d hd
    interval_cases d <;> rfl
  unfold natBytes
  rw [Nat.toDigits_eq_if (by decide)]
  split_ifs with hlt
  · rw [List.map_singleton, hchar n hlt, Nat.mod_eq_of_lt hlt, List.nil_append]
  · rw [List.map_append, List.map_singleton, hchar _ (Nat.mod_lt _ (by decide))]

/-- Digits are read one after the other. -/
theorem readDigits_natBytes (n acc : ℕ) (rest : List UInt8) :
    readDigits acc (natBytes n ++ rest) = readDigits (acc * 10 ^ (natBytes n).length + n) rest := by
  induction n using Nat.strong_induction_on generalizing acc rest with
  | _ n ih =>
    rw [natBytes_eq]
    have hdigit := digitValue_digitByte (Nat.mod_lt n (by decide : 0 < 10))
    split_ifs with hlt
    · rw [List.nil_append, List.singleton_append, readDigits, hdigit, Nat.mod_eq_of_lt hlt]
      simp [Nat.mul_comm]
    · rw [List.append_assoc, ih (n / 10) (by omega), List.singleton_append, readDigits, hdigit]
      dsimp only
      congr 1
      rw [List.length_append, List.length_singleton, pow_succ]
      have hsplit := Nat.div_add_mod n 10
      calc 10 * (acc * 10 ^ (natBytes (n / 10)).length + n / 10) + n % 10
          = acc * (10 ^ (natBytes (n / 10)).length * 10) + (10 * (n / 10) + n % 10) := by ring
        _ = acc * (10 ^ (natBytes (n / 10)).length * 10) + n := by rw [hsplit]

/-- Reading stops where the digits end. -/
theorem readDigits_ends {acc : ℕ} {rest : List UInt8} (h : Ends rest) :
    readDigits acc rest = (acc, rest) := by
  cases rest with
  | nil => rfl
  | cons b rest => rw [readDigits, h b rfl]

/-- A printed number starts with a digit. -/
theorem natBytes_head (n : ℕ) : ∃ d < 10, ∃ bytes, natBytes n = digitByte d :: bytes := by
  induction n using Nat.strong_induction_on with
  | _ n ih =>
    rw [natBytes_eq]
    split_ifs with hlt
    · exact ⟨n % 10, Nat.mod_lt _ (by decide), [], rfl⟩
    · obtain ⟨d, hd, bytes, hbytes⟩ := ih (n / 10) (by omega)
      exact ⟨d, hd, bytes ++ [digitByte (n % 10)], by rw [hbytes]; rfl⟩

/-- A written natural number is read back. -/
theorem readNat_natBytes (n : ℕ) {rest : List UInt8} (h : Ends rest) :
    readNat (natBytes n ++ rest) = some (n, rest) := by
  have hread := readDigits_natBytes n 0 rest
  rw [Nat.zero_mul, Nat.zero_add, readDigits_ends h] at hread
  obtain ⟨d, hd, bytes, hbytes⟩ := natBytes_head n
  rw [hbytes, List.cons_append] at hread ⊢
  rw [readDigits, digitValue_digitByte hd, Nat.mul_zero] at hread
  dsimp only at hread
  rw [Nat.zero_add] at hread
  rw [readNat, digitValue_digitByte hd]
  exact congrArg some hread

/-- A printed number is read back. -/
theorem readInt_intBytes (v : ℤ) {rest : List UInt8} (h : Ends rest) :
    readInt (intBytes v ++ rest) = some (v, rest) := by
  cases v with
  | ofNat n =>
    have hread := readNat_natBytes n h
    obtain ⟨d, hd, bytes, hbytes⟩ := natBytes_head n
    rw [intBytes, readInt]
    rw [hbytes, List.cons_append] at hread ⊢
    rw [List.dropWhile_cons_of_neg (by simp [isSpace_digitByte hd]), readSigned,
      if_neg (digitByte_ne hd).1, if_neg (digitByte_ne hd).2, hread]
    rfl
  | negSucc n =>
    rw [intBytes, readInt, List.cons_append, List.dropWhile_cons_of_neg (by decide), readSigned,
      if_pos rfl, readNat_natBytes (n + 1) h]
    rfl

/-- The bytes of a number without a sign are digits. -/
theorem mem_natBytes {n : ℕ} {b : UInt8} (h : b ∈ natBytes n) : ∃ d < 10, b = digitByte d := by
  induction n using Nat.strong_induction_on with
  | _ n ih =>
    rw [natBytes_eq] at h
    split_ifs at h with hlt
    · exact ⟨n % 10, Nat.mod_lt _ (by decide), List.mem_singleton.mp h⟩
    · rcases List.mem_append.mp h with h | h
      · exact ih (n / 10) (by omega) h
      · exact ⟨n % 10, Nat.mod_lt _ (by decide), List.mem_singleton.mp h⟩

/-- A written integer has digits and a minus sign only. -/
theorem mem_intBytes {v : ℤ} {b : UInt8} (h : b ∈ intBytes v) : b = 45 ∨ ∃ d < 10, b = digitByte d := by
  cases v with
  | ofNat n => exact Or.inr (mem_natBytes h)
  | negSucc n => exact (List.mem_cons.mp h).imp_right mem_natBytes

/-- A number below a power of ten has as many digits at most. -/
theorem length_natBytes_le {n k : ℕ} (hk : 0 < k) (h : n < 10 ^ k) : (natBytes n).length ≤ k := by
  induction k generalizing n with
  | zero => omega
  | succ k ih =>
    rw [natBytes_eq, List.length_append, List.length_singleton]
    split_ifs with hlt
    · rw [List.length_nil]
      omega
    · have hpos : 0 < k := by
        by_contra hzero
        obtain rfl : k = 0 := by omega
        omega
      have hdiv : n / 10 < 10 ^ k := by
        rw [pow_succ] at h
        omega
      have := ih hpos hdiv
      omega

/-- An integer below a power of ten takes a sign more. -/
theorem length_intBytes_le {v : ℤ} {k : ℕ} (hk : 0 < k) (h : v.natAbs < 10 ^ k) :
    (intBytes v).length ≤ k + 1 := by
  cases v with
  | ofNat n =>
    have : (natBytes n).length ≤ k := length_natBytes_le hk h
    rw [intBytes]
    omega
  | negSucc n =>
    have : (natBytes (n + 1)).length ≤ k := length_natBytes_le hk h
    rw [intBytes, List.length_cons]
    omega

/-- Every integer is written with a byte. -/
theorem intBytes_ne_nil (v : ℤ) : intBytes v ≠ [] := by
  cases v with
  | ofNat n =>
    obtain ⟨d, hd, bytes, hbytes⟩ := natBytes_head n
    rw [intBytes, hbytes]
    exact List.cons_ne_nil _ _
  | negSucc n => exact List.cons_ne_nil _ _

end

end Decimal
