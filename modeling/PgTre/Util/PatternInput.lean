import PgTre.Util.TypePattern

/-!
# The numbers of a pattern's input

A `tre_pattern` is read from a text or a message, or made from arguments. The numbers of its input are
unbounded where a text writes them, and the fields of the value are of the type `int32`.
-/

namespace PgTre

open Decimal Layout Sparsemap

/-- A number of a message, with the highest byte first. -/
def messageInt (buf : List UInt8) (i : ℕ) : ℤ := toInt32 (ofBytes (bytesAt buf (4 * i) 4).reverse)

/-- `pq_copymsgbytes`: the next bytes of a message, and those behind them. -/
def pqCopymsgbytes (buf : List UInt8) (len : ℕ) : Except PgError (List UInt8 × List UInt8) :=
  if buf.length < len then .error ⟨"insufficient data left in message"⟩
  else .ok (buf.take len, buf.drop len)

/-- `pq_getmsgint` for a number of four bytes. -/
def pqGetmsgint (buf : List UInt8) : Except PgError (ℤ × List UInt8) := do
  let (bytes, rest) ← pqCopymsgbytes buf 4
  return (toInt32 (ofBytes bytes.reverse), rest)

/-- `tre_pattern_recv`. -/
def trePatternRecv (buf : List UInt8) : Except PgError TrePatternValue := do
  let (maxCost, buf) ← pqGetmsgint buf
  let (costIns, buf) ← pqGetmsgint buf
  let (costDel, buf) ← pqGetmsgint buf
  let (costSubst, buf) ← pqGetmsgint buf
  let (flags, buf) ← pqGetmsgint buf
  let (patternLen, buf) ← pqGetmsgint buf
  if patternLen < 0 ∨ 10485760 < patternLen then throw ⟨"invalid pattern length in tre_pattern"⟩
  let (pattern, _) ← pqCopymsgbytes buf patternLen.toNat
  return ⟨maxCost, costIns, costDel, costSubst, flags, pattern⟩

/-- Where a value comes from. -/
inductive PatternInput
  | text (str : List UInt8)
  | message (buf : List UInt8)
  | make (pattern : List UInt8)
  | makeK (pattern : List UInt8) (maxCost : ℤ)
  | makeFull (pattern : List UInt8) (maxCost costIns costDel costSubst : ℤ)

/-- The value that the entry point of an input makes of it. -/
def PatternInput.accept : PatternInput → Except PgError TrePatternValue
  | text str => trePatternIn str
  | message buf => trePatternRecv buf
  | make pattern => .ok (trePatternMake pattern)
  | makeK pattern maxCost => trePatternMakeK pattern maxCost
  | makeFull pattern maxCost costIns costDel costSubst =>
      trePatternMakeFull pattern maxCost costIns costDel costSubst

/-! ## What is written -/

/-- The budget and the three costs. -/
@[ext] structure PatternNumbers where
  maxCost : ℤ
  costIns : ℤ
  costDel : ℤ
  costSubst : ℤ
  deriving DecidableEq

def TrePatternValue.numbers (pat : TrePatternValue) : PatternNumbers :=
  ⟨pat.maxCost, pat.costIns, pat.costDel, pat.costSubst⟩

def PatternNumbers.map (f : ℤ → ℤ) (w : PatternNumbers) : PatternNumbers :=
  ⟨f w.maxCost, f w.costIns, f w.costDel, f w.costSubst⟩

def PatternNumbers.All (P : ℤ → Prop) (w : PatternNumbers) : Prop :=
  P w.maxCost ∧ P w.costIns ∧ P w.costDel ∧ P w.costSubst

/-- The numbers behind the `@` of a text, where they are written as the format asks. -/
def writtenNumbers (bytes : List UInt8) : Option PatternNumbers :=
  let number := (splitNumbers bytes).1
  if number.length = 0 ∨ 32 ≤ number.length then none
  else
    match readInt number with
    | some (v, []) =>
        match (splitNumbers bytes).2 with
        | none => some ⟨v, 1, 1, 1⟩
        | some costs => (scanCosts costs).map fun c => ⟨v, c.1, c.2.1, c.2.2⟩
    | _ => none

/-- The numbers that an input gives, or the defaults of those it leaves out. A text or a message that
does not have the format gives none. -/
def PatternInput.written : PatternInput → Option PatternNumbers
  | text str =>
      match splitByte 64 str with
      | none => some ⟨0, 1, 1, 1⟩
      | some (_, numbers) => writtenNumbers numbers
  | message buf =>
      if 24 ≤ buf.length ∧ 0 ≤ messageInt buf 5 ∧ messageInt buf 5 ≤ 10485760 ∧
          24 + messageInt buf 5 ≤ buf.length then
        some ⟨messageInt buf 0, messageInt buf 1, messageInt buf 2, messageInt buf 3⟩
      else none
  | make _ => some ⟨0, 1, 1, 1⟩
  | makeK _ maxCost => some ⟨maxCost, 1, 1, 1⟩
  | makeFull _ maxCost costIns costDel costSubst => some ⟨maxCost, costIns, costDel, costSubst⟩

/-- A value holds the numbers of its input, and none of them is negative. -/
def PatternInput.Valid (i : PatternInput) : Prop :=
  ∀ pat, i.accept = .ok pat → i.written = some pat.numbers ∧ pat.numbers.All (0 ≤ ·)

/-- A number that a field holds and that is not negative. -/
def InRange (v : ℤ) : Prop := 0 ≤ v ∧ v < 2 ^ 31

/-- A budget whose low 32 bits have the sign bit set. One that is no `long` stands for the nearest
one. -/
def SignBit (v : ℤ) : Prop := 2 ^ 63 ≤ v ∨ (-(2 ^ 63) ≤ v ∧ 2 ^ 31 ≤ v % 2 ^ 32)

instance (v : ℤ) : Decidable (SignBit v) := inferInstanceAs (Decidable (_ ∨ _))

/-- The inputs whose numbers are kept: those of the constructors, messages without a negative number,
and texts with a budget that is turned away for its sign bit or with numbers that all fit. -/
def PatternInput.Kept : PatternInput → Prop
  | text str => ∀ w ∈ (text str).written, SignBit w.maxCost ∨ w.All InRange
  | message buf => ∀ w ∈ (message buf).written, w.All InRange
  | _ => True

/-! ## The narrowing cast -/

section

variable {v : ℤ}

/-- A number as `strtol` and a cast make it. -/
def narrow (v : ℤ) : ℤ := toInt32 (clampLong v)

/-- Narrowing gives an `int32`. -/
theorem isInt32_narrow (v : ℤ) : IsInt32 (narrow v) := isInt32_toInt32 _

/-- A number in range is not narrowed. -/
theorem narrow_of_inRange (h : InRange v) : narrow v = v := by
  have hfits : IsInt32 v := ⟨by have := h.1; omega, h.2⟩
  rw [narrow, clampLong_of_isInt32 hfits, toInt32_of_isInt32 hfits]

/-- A number that the cast keeps and that is not negative is in range. -/
theorem inRange_iff : InRange v ↔ narrow v = v ∧ 0 ≤ narrow v := by
  constructor
  · intro h
    rw [narrow_of_inRange h]
    exact ⟨rfl, h.1⟩
  · rintro ⟨hsame, hnonneg⟩
    have hfits := isInt32_narrow v
    rw [hsame] at hfits hnonneg
    exact ⟨hnonneg, hfits.2⟩

/-- A narrowed number is negative when its sign bit is set. -/
theorem narrow_neg_iff : narrow v < 0 ↔ SignBit v := by
  unfold narrow toInt32 clampLong SignBit Int.bmod
  norm_num
  split_ifs <;> omega

end

/-! ## The entry points -/

/-- The numbers of the value that an input makes. -/
def PatternInput.made (i : PatternInput) : Option PatternNumbers :=
  i.accept.toOption.map TrePatternValue.numbers

section

variable {i : PatternInput} {str buf : List UInt8}

/-- An input is valid when its numbers come back from the value made of them, none negative. -/
theorem PatternInput.valid_iff_made :
    i.Valid ↔ ∀ n ∈ i.made, i.written = some n ∧ n.All (0 ≤ ·) := by
  unfold PatternInput.Valid PatternInput.made
  cases i.accept with
  | error e => simp [Except.toOption]
  | ok pat => simp [Except.toOption]

/-- A text makes a value of the numbers it writes, each cut to the low 32 bits, unless the budget
becomes negative. -/
theorem made_text :
    (PatternInput.text str).made =
      ((PatternInput.text str).written.filter fun w => ¬SignBit w.maxCost).map
        (PatternNumbers.map narrow) := by
  have hone : toInt32 (clampLong 1) = 1 := by decide
  rw [PatternInput.made, PatternInput.accept, trePatternIn, parseTrePattern, PatternInput.written]
  cases splitByte 64 str with
  | none => rfl
  | some parts =>
    dsimp only
    rw [writtenNumbers, strtol]
    by_cases hlen : (splitNumbers parts.2).1.length = 0 ∨ 32 ≤ (splitNumbers parts.2).1.length
    · rw [if_pos hlen, if_pos hlen]
      rfl
    · rw [if_neg hlen, if_neg hlen]
      rcases hread : readInt (splitNumbers parts.2).1 with _ | ⟨v, _ | ⟨b, rest⟩⟩
      · -- nothing is read, and the buffer is not empty
        have hnonempty : (splitNumbers parts.2).1 ≠ [] :=
          List.length_eq_zero_iff.not.mp (not_or.mp hlen).1
        dsimp only
        rw [if_pos (Or.inl hnonempty)]
        rfl
      · dsimp only
        by_cases hsign : SignBit v
        · have hneg : toInt32 (clampLong v) < 0 := narrow_neg_iff.mpr hsign
          rw [if_pos (Or.inr hneg)]
          rcases (splitNumbers parts.2).2 with _ | costs
          · simp [Except.toOption, hsign]
          · rcases hscan : scanCosts costs with _ | ⟨ins, del, subst⟩ <;>
              simp [Except.toOption, hsign, hscan]
        · have hnonneg : ¬toInt32 (clampLong v) < 0 := narrow_neg_iff.not.mpr hsign
          rw [if_neg (not_or.mpr ⟨not_not.mpr rfl, hnonneg⟩)]
          rcases (splitNumbers parts.2).2 with _ | costs
          · simp [Except.toOption, hsign, TrePatternValue.numbers, PatternNumbers.map, hone, narrow]
          · rcases hscan : scanCosts costs with _ | ⟨ins, del, subst⟩ <;>
              simp [Except.toOption, hsign, hscan, TrePatternValue.numbers, PatternNumbers.map, narrow]
      · dsimp only
        rw [if_pos (Or.inl (List.cons_ne_nil _ _))]
        rfl

/-- The next number of a message, where it is not cut off before. -/
theorem toOption_pqGetmsgint_bind (i : ℕ) (f : ℤ × List UInt8 → Except PgError TrePatternValue) :
    (pqGetmsgint (buf.drop (4 * i)) >>= f).toOption =
      if 4 * (i + 1) ≤ buf.length then (f (messageInt buf i, buf.drop (4 * (i + 1)))).toOption
      else none := by
  rw [pqGetmsgint, pqCopymsgbytes, List.length_drop]
  split_ifs with hshort hfull hfull
  · omega
  · rfl
  · rw [List.drop_drop]
    rfl
  · omega

/-- A message makes a value of the numbers it gives. -/
theorem made_message : (PatternInput.message buf).made = (PatternInput.message buf).written := by
  have hfirst := @toOption_pqGetmsgint_bind buf 0
  rw [Nat.mul_zero, List.drop_zero] at hfirst
  rw [PatternInput.made, PatternInput.accept, trePatternRecv, PatternInput.written, hfirst]
  simp only [toOption_pqGetmsgint_bind]
  simp only [Nat.reduceAdd, Nat.reduceMul]
  by_cases hlen : 24 ≤ buf.length
  · iterate 6 rw [if_pos (by omega)]
    by_cases hpattern : messageInt buf 5 < 0 ∨ 10485760 < messageInt buf 5
    · rw [if_pos hpattern, if_neg (by omega)]
      rfl
    · rw [if_neg hpattern, pqCopymsgbytes, List.length_drop]
      split_ifs with hshort hfits hfits
      · omega
      · rfl
      · simp only [bind, Except.bind, pure, Except.pure, Except.toOption, Option.map_some,
          TrePatternValue.numbers]
      · omega
  · have hnone : ¬(24 ≤ buf.length ∧ 0 ≤ messageInt buf 5 ∧ messageInt buf 5 ≤ 10485760 ∧
        24 + messageInt buf 5 ≤ buf.length) := fun h => hlen h.1
    simp only [if_neg hlen, if_neg hnone, ite_self]
    rfl

/-- The cast changes a number that is not negative after it, or the number is in range. -/
theorem all_narrow_iff {w : PatternNumbers} :
    w = w.map narrow ∧ (w.map narrow).All (0 ≤ ·) ↔ w.All InRange := by
  obtain ⟨maxCost, costIns, costDel, costSubst⟩ := w
  simp only [PatternNumbers.map, PatternNumbers.All, PatternNumbers.mk.injEq, inRange_iff,
    @eq_comm ℤ (narrow _)]
  tauto

/-- A value holds the numbers of its input, none of them negative, exactly when the input is one whose
numbers are kept. -/
theorem PatternInput.valid_iff_kept (i : PatternInput) : i.Valid ↔ i.Kept := by
  cases i with
  | text str =>
    rw [valid_iff_made, made_text, PatternInput.Kept]
    cases (PatternInput.text str).written with
    | none => simp
    | some w =>
      by_cases hsign : SignBit w.maxCost
      · simp [hsign]
      · simp [hsign, all_narrow_iff]
  | message buf =>
    have hrange : ∀ j, InRange (messageInt buf j) ↔ 0 ≤ messageInt buf j := by
      intro j
      exact and_iff_left (isInt32_toInt32 _).2
    rw [valid_iff_made, made_message, PatternInput.Kept, PatternInput.written]
    split_ifs
    · simp [PatternNumbers.All, hrange]
    · simp
  | make pattern =>
    refine iff_of_true ?_ trivial
    rintro pat hpat
    obtain rfl := Except.ok.inj hpat
    exact ⟨rfl, le_refl 0, Int.zero_le_ofNat 1, Int.zero_le_ofNat 1, Int.zero_le_ofNat 1⟩
  | makeK pattern maxCost =>
    refine iff_of_true ?_ trivial
    rintro pat hpat
    rw [PatternInput.accept, trePatternMakeK] at hpat
    split_ifs at hpat with hneg
    obtain rfl := Except.ok.inj hpat
    exact ⟨rfl, not_lt.mp hneg, Int.zero_le_ofNat 1, Int.zero_le_ofNat 1, Int.zero_le_ofNat 1⟩
  | makeFull pattern maxCost costIns costDel costSubst =>
    refine iff_of_true ?_ trivial
    rintro pat hpat
    rw [PatternInput.accept, trePatternMakeFull] at hpat
    split_ifs at hpat with hneg
    obtain rfl := Except.ok.inj hpat
    refine ⟨rfl, ?_⟩
    simp only [not_or, not_lt] at hneg
    exact hneg

/-- A negative cost of a text, a budget of which the low 32 bits are kept, and a negative budget of a
message all become values. -/
theorem PatternInput.not_valid_examples :
    ¬(PatternInput.text [97, 64, 49, 58, 45, 49, 44, 49, 44, 49]).Valid ∧
    ¬(PatternInput.text [97, 64, 52, 50, 57, 52, 57, 54, 55, 50, 57, 54]).Valid ∧
    ¬(PatternInput.message
      [255, 255, 255, 255, 0, 0, 0, 1, 0, 0, 0, 1, 0, 0, 0, 1, 0, 0, 0, 0, 0, 0, 0, 0]).Valid := by
  refine ⟨?_, ?_, ?_⟩
  · intro h
    have hins := (h ⟨1, -1, 1, 1, 0, [97]⟩ rfl).2.2.1
    exact absurd hins (by decide)
  · intro h
    have hcost := congrArg (Option.map PatternNumbers.maxCost) (h ⟨0, 1, 1, 1, 0, [97]⟩ rfl).1
    exact absurd hcost (by decide)
  · intro h
    rw [PatternInput.valid_iff_made, made_message] at h
    have hcost := (h ⟨-1, 1, 1, 1⟩ (by decide)).2.1
    exact absurd hcost (by decide)

end

end PgTre
