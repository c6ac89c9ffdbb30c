import PgTre.Util.Decimal
import PgTre.Util.ByteLayout
import PgTre.Pages.RunCatalog

/-!
# The type `tre_pattern`

A value of the type is a pattern with an edit budget and three costs. `src/util/type_pattern.c` reads
and writes it as text, where the budget stands behind the pattern after an `@` and the costs after a
colon, and as a message, and makes it from the arguments of the constructors.
-/

namespace PgTre

open Decimal

/-- `TrePatternValue`, without the length of the pattern. -/
structure TrePatternValue where
  maxCost : ℤ
  costIns : ℤ
  costDel : ℤ
  costSubst : ℤ
  flags : ℤ
  pattern : List UInt8
  deriving DecidableEq

/-- A value of `int32`. -/
def IsInt32 (v : ℤ) : Prop := -(2 ^ 31) ≤ v ∧ v < 2 ^ 31

instance (v : ℤ) : Decidable (IsInt32 v) := inferInstanceAs (Decidable (_ ∧ _))

/-- A cast to `int`. -/
def toInt32 (v : ℤ) : ℤ := Int.bmod v (2 ^ 32)

/-- A number as a `long`, which stands for the nearest one when it is out of range. -/
def clampLong (v : ℤ) : ℤ := max (-(2 ^ 63)) (min v (2 ^ 63 - 1))

/-- `strtol` in base 10: the number and what is behind it. Without a number nothing is read. -/
def strtol (bytes : List UInt8) : ℤ × List UInt8 :=
  match readInt bytes with
  | none => (0, bytes)
  | some (v, rest) => (clampLong v, rest)

/-- `sscanf` with `%d,%d,%d`, when it converts all three. -/
def scanCosts (bytes : List UInt8) : Option (ℤ × ℤ × ℤ) := do
  let (ins, bytes) ← readInt bytes
  let bytes ← if bytes.head? = some 44 then some bytes.tail else none
  let (del, bytes) ← readInt bytes
  let bytes ← if bytes.head? = some 44 then some bytes.tail else none
  let (subst, _) ← readInt bytes
  return (ins, del, subst)

/-- The bytes before and behind the first occurrence of a byte. -/
def splitByte (c : UInt8) : List UInt8 → Option (List UInt8 × List UInt8)
  | [] => none
  | b :: bytes =>
      if b = c then some ([], bytes)
      else (splitByte c bytes).map fun r => (b :: r.1, r.2)

/-- The bytes for the budget in what is behind the `@`, and those for the costs. -/
def splitNumbers (bytes : List UInt8) : List UInt8 × Option (List UInt8) :=
  match splitByte 58 bytes with
  | none => (bytes, none)
  | some (number, costs) => (number, some costs)

/-- `parse_tre_pattern`. A number that does not fit an `int` loses its high bits. -/
def parseTrePattern (str : List UInt8) : Except PgError TrePatternValue :=
  match splitByte 64 str with
  | none => .ok ⟨0, 1, 1, 1, 0, str⟩
  | some (pattern, numbers) =>
      let number := (splitNumbers numbers).1
      if number.length = 0 ∨ 32 ≤ number.length then .error ⟨"invalid tre_pattern format"⟩
      else
        let maxCost := toInt32 (strtol number).1
        if (strtol number).2 ≠ [] ∨ maxCost < 0 then
          .error ⟨"invalid edit distance in tre_pattern"⟩
        else
          match (splitNumbers numbers).2 with
          | none => .ok ⟨maxCost, 1, 1, 1, 0, pattern⟩
          | some costs =>
              match scanCosts costs with
              | none => .error ⟨"invalid cost specification in tre_pattern"⟩
              | some (ins, del, subst) =>
                  .ok ⟨maxCost, toInt32 (clampLong ins), toInt32 (clampLong del),
                    toInt32 (clampLong subst), 0, pattern⟩

/-- `format_tre_pattern`. -/
def formatTrePattern (pat : TrePatternValue) : List UInt8 :=
  pat.pattern ++
    if 0 < pat.maxCost then
      64 :: intBytes pat.maxCost ++
        if pat.costIns ≠ 1 ∨ pat.costDel ≠ 1 ∨ pat.costSubst ≠ 1 then
          58 :: intBytes pat.costIns ++ 44 :: intBytes pat.costDel ++ 44 :: intBytes pat.costSubst
        else []
    else []

/-- `tre_pattern_in`. -/
def trePatternIn (str : List UInt8) : Except PgError TrePatternValue := parseTrePattern str

/-- `tre_pattern_out`. -/
def trePatternOut (pat : TrePatternValue) : List UInt8 := formatTrePattern pat

/-- `tre_pattern_make`. -/
def trePatternMake (pattern : List UInt8) : TrePatternValue := ⟨0, 1, 1, 1, 0, pattern⟩

/-- `tre_pattern_make_k`. -/
def trePatternMakeK (pattern : List UInt8) (maxCost : ℤ) : Except PgError TrePatternValue :=
  if maxCost < 0 then .error ⟨"max_cost must be non-negative"⟩ else .ok ⟨maxCost, 1, 1, 1, 0, pattern⟩

/-- `tre_pattern_make_full`. -/
def trePatternMakeFull (pattern : List UInt8) (maxCost costIns costDel costSubst : ℤ) :
    Except PgError TrePatternValue :=
  if maxCost < 0 ∨ costIns < 0 ∨ costDel < 0 ∨ costSubst < 0 then
    .error ⟨"cost values must be non-negative"⟩
  else .ok ⟨maxCost, costIns, costDel, costSubst, 0, pattern⟩

/-! ## Splitting -/

section

variable {c : UInt8} {bytes before behind : List UInt8}

/-- A byte that is not there does not split. -/
theorem splitByte_eq_none : splitByte c bytes = none ↔ c ∉ bytes := by
  induction bytes with
  | nil => simp [splitByte]
  | cons b bytes ih =>
    rw [splitByte]
    split_ifs with hb
    · simp [hb]
    · simp [ih, Ne.symm hb]

/-- What is behind the first occurrence may have others. -/
theorem splitByte_append (h : c ∉ before) :
    splitByte c (before ++ c :: behind) = some (before, behind) := by
  induction before with
  | nil => simp [splitByte]
  | cons b before ih =>
    obtain ⟨hb, hbefore⟩ := not_or.mp (List.mem_cons.not.mp h)
    rw [List.cons_append, splitByte, if_neg (Ne.symm hb), ih hbefore]
    rfl

/-- The bytes split at the first occurrence. -/
theorem splitByte_eq_some (h : splitByte c bytes = some (before, behind)) :
    bytes = before ++ c :: behind ∧ c ∉ before := by
  induction bytes generalizing before with
  | nil => cases h
  | cons b bytes ih =>
    rw [splitByte] at h
    split_ifs at h with hb
    · obtain ⟨rfl, rfl⟩ := Prod.mk.inj (Option.some.inj h)
      exact ⟨by rw [hb]; rfl, List.not_mem_nil⟩
    · obtain ⟨r, hr, hcons⟩ := Option.map_eq_some_iff.mp h
      obtain ⟨rfl, rfl⟩ := Prod.mk.inj hcons
      obtain ⟨rfl, hbefore⟩ := ih hr
      exact ⟨rfl, List.mem_cons.not.mpr (not_or.mpr ⟨Ne.symm hb, hbefore⟩)⟩

/-- An `int32` is not cut. -/
theorem toInt32_of_isInt32 {v : ℤ} (h : IsInt32 v) : toInt32 v = v := by
  obtain ⟨hlow, hhigh⟩ := h
  exact Int.bmod_eq_of_le (by omega) (by omega)

/-- A cut number is an `int32`. -/
theorem isInt32_toInt32 (v : ℤ) : IsInt32 (toInt32 v) := by
  have hlow := @Int.le_bmod v (2 ^ 32) (by decide)
  have hhigh := @Int.bmod_lt v (2 ^ 32) (by decide)
  unfold IsInt32 toInt32
  omega

/-- An `int32` is not clamped. -/
theorem clampLong_of_isInt32 {v : ℤ} (h : IsInt32 v) : clampLong v = v := by
  obtain ⟨hlow, hhigh⟩ := h
  unfold clampLong
  omega

end

/-! ## Text and back -/

/-- The values that `tre_pattern_in` and the constructors make. Their texts hold no zero byte and their
numbers are of the type `int4`. -/
inductive Constructed : TrePatternValue → Prop
  | text {str : List UInt8} {pat : TrePatternValue} :
      0 ∉ str → trePatternIn str = .ok pat → Constructed pat
  | make {pattern : List UInt8} : 0 ∉ pattern → Constructed (trePatternMake pattern)
  | makeK {pattern : List UInt8} {maxCost : ℤ} {pat : TrePatternValue} :
      0 ∉ pattern → IsInt32 maxCost → trePatternMakeK pattern maxCost = .ok pat → Constructed pat
  | makeFull {pattern : List UInt8} {maxCost costIns costDel costSubst : ℤ} {pat : TrePatternValue} :
      0 ∉ pattern → IsInt32 maxCost → IsInt32 costIns → IsInt32 costDel → IsInt32 costSubst →
      trePatternMakeFull pattern maxCost costIns costDel costSubst = .ok pat → Constructed pat

/-- The numbers of a value fit their fields, and its budget is not negative. -/
structure TrePatternValue.Fits (pat : TrePatternValue) : Prop where
  maxCost : IsInt32 pat.maxCost
  maxCost_nonneg : 0 ≤ pat.maxCost
  costIns : IsInt32 pat.costIns
  costDel : IsInt32 pat.costDel
  costSubst : IsInt32 pat.costSubst
  flags : pat.flags = 0

section

variable {str : List UInt8} {pat : TrePatternValue}

/-- What the parser returns: the pattern ends before the first `@`, and the numbers fit. -/
theorem parseTrePattern_ok (h : parseTrePattern str = .ok pat) : 64 ∉ pat.pattern ∧ pat.Fits := by
  have hone : IsInt32 1 := by decide
  have hzero : IsInt32 0 := by decide
  rw [parseTrePattern] at h
  split at h
  case h_1 hsplit =>
    obtain rfl := Except.ok.inj h
    exact ⟨splitByte_eq_none.mp hsplit, ⟨hzero, le_refl 0, hone, hone, hone, rfl⟩⟩
  case h_2 pattern numbers hsplit =>
    have hpattern := (splitByte_eq_some hsplit).2
    dsimp only at h
    split_ifs at h with hlen hnumber
    obtain ⟨hrest, hneg⟩ := not_or.mp hnumber
    split at h
    · obtain rfl := Except.ok.inj h
      exact ⟨hpattern, ⟨isInt32_toInt32 _, not_lt.mp hneg, hone, hone, hone, rfl⟩⟩
    · split at h
      · cases h
      · obtain rfl := Except.ok.inj h
        exact ⟨hpattern, ⟨isInt32_toInt32 _, not_lt.mp hneg, isInt32_toInt32 _, isInt32_toInt32 _,
          isInt32_toInt32 _, rfl⟩⟩

/-- What the constructor makes fits in its fields. -/
theorem Constructed.fits (h : Constructed pat) : pat.Fits := by
  have hone : IsInt32 1 := by decide
  have hzero : IsInt32 0 := by decide
  cases h with
  | text _ hparse => exact (parseTrePattern_ok hparse).2
  | make _ => exact ⟨hzero, le_refl 0, hone, hone, hone, rfl⟩
  | makeK _ hcost hmake =>
    rw [trePatternMakeK] at hmake
    split_ifs at hmake with hneg
    obtain rfl := Except.ok.inj hmake
    exact ⟨hcost, not_lt.mp hneg, hone, hone, hone, rfl⟩
  | makeFull _ hcost hins hdel hsubst hmake =>
    rw [trePatternMakeFull] at hmake
    split_ifs at hmake with hneg
    obtain rfl := Except.ok.inj hmake
    exact ⟨hcost, not_lt.mp (not_or.mp hneg).1, hins, hdel, hsubst, rfl⟩

/-- A printed number holds no separator. -/
theorem colon_notMem_intBytes (v : ℤ) : 58 ∉ intBytes v := by
  intro h
  rcases mem_intBytes h with h | ⟨d, hd, h⟩
  · exact absurd h (by decide)
  · interval_cases d <;> exact absurd h (by decide)

/-- A printed number fits the buffer of the parser. -/
theorem length_intBytes {v : ℤ} (h : IsInt32 v) :
    ¬((intBytes v).length = 0 ∨ 32 ≤ (intBytes v).length) := by
  obtain ⟨hlow, hhigh⟩ := h
  have hsome : (intBytes v).length ≠ 0 := List.length_eq_zero_iff.not.mpr (intBytes_ne_nil v)
  have := @length_intBytes_le v 10 (by decide) (by omega)
  omega

/-- A number alone has no costs. -/
theorem splitNumbers_number (v : ℤ) : splitNumbers (intBytes v) = (intBytes v, none) := by
  rw [splitNumbers, splitByte_eq_none.mpr (colon_notMem_intBytes v)]

/-- The costs stand behind the colon. -/
theorem splitNumbers_costs (v : ℤ) (costs : List UInt8) :
    splitNumbers (intBytes v ++ 58 :: costs) = (intBytes v, some costs) := by
  rw [splitNumbers, splitByte_append (colon_notMem_intBytes v)]

/-- A written integer is read back whole. -/
theorem strtol_intBytes {v : ℤ} (h : IsInt32 v) : strtol (intBytes v) = (v, []) := by
  have hread := readInt_intBytes v ends_nil
  rw [List.append_nil] at hread
  rw [strtol, hread]
  exact congrArg (·, []) (clampLong_of_isInt32 h)

/-- Written costs are read back. -/
theorem scanCosts_intBytes (ins del subst : ℤ) :
    scanCosts (intBytes ins ++ 44 :: intBytes del ++ 44 :: intBytes subst) =
      some (ins, del, subst) := by
  have hcomma : ∀ bytes : List UInt8, Ends (44 :: bytes) := by
    intro bytes b hb
    obtain rfl := Option.some.inj hb
    rfl
  have hlast := readInt_intBytes subst ends_nil
  rw [List.append_nil] at hlast
  simp only [scanCosts, List.append_assoc, List.cons_append, readInt_intBytes _ (hcomma _), hlast,
    Option.bind_eq_bind, Option.bind_some, List.head?_cons, List.tail_cons, if_true, Option.pure_def]

/-- A budget that is read back, with costs that are read back or left out. -/
theorem parseTrePattern_numbers {pattern numbers : List UInt8} {k : ℤ} (hpattern : 64 ∉ pattern)
    (hk : IsInt32 k) (hnonneg : 0 ≤ k) (hnumbers : splitNumbers numbers = (intBytes k, none)) :
    parseTrePattern (pattern ++ 64 :: numbers) = .ok ⟨k, 1, 1, 1, 0, pattern⟩ := by
  have hlength := length_intBytes hk
  rw [parseTrePattern, splitByte_append hpattern]
  dsimp only
  rw [hnumbers, strtol_intBytes hk, toInt32_of_isInt32 hk, if_neg hlength,
    if_neg (not_or.mpr ⟨not_not.mpr rfl, not_lt.mpr hnonneg⟩)]

/-- A written pattern with costs is read back. -/
theorem parseTrePattern_costs {pattern numbers : List UInt8} {k ins del subst : ℤ}
    (hpattern : 64 ∉ pattern) (hk : IsInt32 k) (hnonneg : 0 ≤ k) (hins : IsInt32 ins)
    (hdel : IsInt32 del) (hsubst : IsInt32 subst)
    (hnumbers : splitNumbers numbers =
      (intBytes k, some (intBytes ins ++ 44 :: intBytes del ++ 44 :: intBytes subst))) :
    parseTrePattern (pattern ++ 64 :: numbers) = .ok ⟨k, ins, del, subst, 0, pattern⟩ := by
  have hlength := length_intBytes hk
  rw [parseTrePattern, splitByte_append hpattern]
  dsimp only
  rw [hnumbers, strtol_intBytes hk, toInt32_of_isInt32 hk, if_neg hlength,
    if_neg (not_or.mpr ⟨not_not.mpr rfl, not_lt.mpr hnonneg⟩)]
  dsimp only
  rw [scanCosts_intBytes]
  dsimp only
  rw [clampLong_of_isInt32 hins, clampLong_of_isInt32 hdel, clampLong_of_isInt32 hsubst,
    toInt32_of_isInt32 hins, toInt32_of_isInt32 hdel, toInt32_of_isInt32 hsubst]

/-- A budget that is written is read back, and so are the costs. -/
theorem parseTrePattern_format (hpattern : 64 ∉ pat.pattern) (hfits : pat.Fits)
    (hpos : 0 < pat.maxCost) :
    parseTrePattern (formatTrePattern pat) = .ok pat := by
  obtain ⟨hcost, hnonneg, hins, hdel, hsubst, hflags⟩ := hfits
  obtain ⟨k, ins, del, subst, flags, pattern⟩ := pat
  obtain rfl : flags = 0 := hflags
  rw [formatTrePattern, if_pos hpos]
  split_ifs with hcosts
  · exact parseTrePattern_costs hpattern hcost hnonneg hins hdel hsubst (splitNumbers_costs k _)
  · obtain ⟨hone, hother⟩ := not_or.mp hcosts
    obtain ⟨htwo, hthree⟩ := not_or.mp hother
    obtain rfl : ins = 1 := not_not.mp hone
    obtain rfl : del = 1 := not_not.mp htwo
    obtain rfl : subst = 1 := not_not.mp hthree
    refine parseTrePattern_numbers hpattern hcost hnonneg ?_
    exact (congrArg splitNumbers (List.append_nil _)).trans (splitNumbers_number k)

/-- A value comes back from its text when the pattern holds no `@` and, where no budget is written,
the costs are those of a value without them. -/
theorem trePatternIn_trePatternOut_iff (h : Constructed pat) :
    trePatternIn (trePatternOut pat) = .ok pat ↔
      64 ∉ pat.pattern ∧
        (pat.maxCost = 0 → pat.costIns = 1 ∧ pat.costDel = 1 ∧ pat.costSubst = 1) := by
  have hfits := h.fits
  rw [trePatternIn, trePatternOut]
  constructor
  · intro hback
    have hpattern := (parseTrePattern_ok hback).1
    refine ⟨hpattern, ?_⟩
    intro hcost
    rw [formatTrePattern, hcost, if_neg (lt_irrefl 0), List.append_nil, parseTrePattern,
      splitByte_eq_none.mpr hpattern] at hback
    obtain hpat := Except.ok.inj hback
    rw [← hpat]
    exact ⟨rfl, rfl, rfl⟩
  · rintro ⟨hpattern, hcosts⟩
    rcases lt_or_eq_of_le hfits.maxCost_nonneg with hpos | hzero
    · exact parseTrePattern_format hpattern hfits hpos
    · obtain ⟨hins, hdel, hsubst⟩ := hcosts hzero.symm
      have hflags := hfits.flags
      rw [formatTrePattern, ← hzero, if_neg (lt_irrefl 0), List.append_nil, parseTrePattern,
        splitByte_eq_none.mpr hpattern]
      cases pat
      simp_all only

/-- A second cost that is written only behind a budget. -/
theorem trePatternIn_trePatternOut_full :
    trePatternIn (trePatternOut ⟨1, 2, 1, 1, 0, [97]⟩) = .ok ⟨1, 2, 1, 1, 0, [97]⟩ :=
  (trePatternIn_trePatternOut_iff
    (@Constructed.makeFull [97] 1 2 1 1 _ (by decide) (by decide) (by decide) (by decide) (by decide)
      rfl)).mpr ⟨by decide, by decide⟩

/-- The pattern `a@b` of a constructor is no text of the type, and without a budget the costs are not
written. -/
theorem trePatternIn_trePatternOut_ne :
    (Constructed (trePatternMake [97, 64, 98]) ∧
      trePatternIn (trePatternOut (trePatternMake [97, 64, 98])) ≠ .ok (trePatternMake [97, 64, 98])) ∧
    Constructed ⟨0, 2, 1, 1, 0, [97]⟩ ∧
      trePatternIn (trePatternOut ⟨0, 2, 1, 1, 0, [97]⟩) ≠ .ok ⟨0, 2, 1, 1, 0, [97]⟩ := by
  refine ⟨⟨Constructed.make (by decide), ?_⟩, ?_, ?_⟩
  · intro h
    cases h
  · exact @Constructed.makeFull [97] 0 2 1 1 _ (by decide) (by decide) (by decide) (by decide)
      (by decide) rfl
  · intro h
    cases h

end

end PgTre
