import PgTre.Query.Linearizer
import PgTre.Query.NumberRange

/-!
# The members of a character class

`normalize_class` of `src/query/regex_ast.c` sorts the ranges of a class and merges those that overlap
or touch. What it leaves has the members of the ranges it was given, with a gap between one range and
the next. `run_append_class` relies on this: it lists the members of a small class one range after the
other, in an array with room for `CLASS_EXPAND_MAX`.
-/

namespace PgTre

/-- A range has the code point. -/
def Covers (rs : List (CodePoint × CodePoint)) (c : CodePoint) : Prop :=
  ∃ r ∈ rs, r.1 ≤ c ∧ c ≤ r.2

/-- Membership in a class is membership in one of its ranges. -/
theorem RegexClass.contains_iff {cs : RegexClass} {c : CodePoint} :
    cs.contains c = true ↔ Covers cs.ranges c := by
  simp [RegexClass.contains, Covers]

/-- A range list covers by its first range or by the others. -/
theorem covers_cons {r : CodePoint × CodePoint} {rs : List (CodePoint × CodePoint)} {c : CodePoint} :
    Covers (r :: rs) c ↔ (r.1 ≤ c ∧ c ≤ r.2) ∨ Covers rs c := by
  simp [Covers]

/-- Two range lists cover by the first or by the second. -/
theorem covers_append {rs ss : List (CodePoint × CodePoint)} {c : CodePoint} :
    Covers (rs ++ ss) c ↔ Covers rs c ∨ Covers ss c := by
  simp only [Covers, List.mem_append, or_and_right, exists_or]

/-- The order of the ranges does not matter. -/
theorem covers_perm {rs ss : List (CodePoint × CodePoint)} {c : CodePoint} (h : rs.Perm ss) :
    Covers rs c ↔ Covers ss c := by
  unfold Covers
  simp only [h.mem_iff]

/-! ## The merge -/

section

variable {last : CodePoint × CodePoint} {rs : List (CodePoint × CodePoint)}

/-- Two ranges that overlap or touch are merged into one without other members. -/
theorem covers_merged {r : CodePoint × CodePoint} {c : CodePoint} (hbegins : last.1 ≤ r.1)
    (htouch : r.1 ≤ last.2 + 1) :
    (last.1 ≤ c ∧ c ≤ if last.2 < r.2 then r.2 else last.2) ↔
      (last.1 ≤ c ∧ c ≤ last.2) ∨ (r.1 ≤ c ∧ c ≤ r.2) := by
  unfold CodePoint at *
  split_ifs with hlonger
  · omega
  · omega

/-- Merging sorted ranges leaves their members alone. -/
theorem mergeRanges_covers (hsorted : (last :: rs).Pairwise fun r s => r.1 ≤ s.1)
    (hvalid : ∀ r ∈ last :: rs, r.1 ≤ r.2) (c : CodePoint) :
    Covers (mergeRanges last rs) c ↔ Covers (last :: rs) c := by
  induction rs generalizing last with
  | nil => rw [mergeRanges]
  | cons r rs ih =>
    obtain ⟨hbegins, htail⟩ := List.pairwise_cons.mp hsorted
    obtain ⟨hr, hrest⟩ := List.pairwise_cons.mp htail
    have hlast := hvalid last List.mem_cons_self
    have hbegin := hbegins r List.mem_cons_self
    unfold mergeRanges
    split
    · rename_i htouch
      rw [ih, covers_cons, covers_cons, covers_cons, covers_merged hbegin htouch, or_assoc]
      · rw [List.pairwise_cons]
        exact ⟨fun s hs => hbegins s (List.mem_cons_of_mem _ hs), hrest⟩
      · intro s hs
        rcases List.mem_cons.mp hs with rfl | hs
        · dsimp only
          split_ifs with hlonger
          · exact hlast.trans hlonger.le
          · exact hlast
        · exact hvalid s (List.mem_cons_of_mem _ (List.mem_cons_of_mem _ hs))
    · rw [covers_cons, ih htail fun s hs => hvalid s (List.mem_cons_of_mem _ hs), ← covers_cons]

/-- A range that is not merged begins behind a gap. -/
theorem mergeRanges_apart (hsorted : (last :: rs).Pairwise fun r s => r.1 ≤ s.1) :
    (mergeRanges last rs).Pairwise fun r s => r.2 + 1 < s.1 := by
  induction rs generalizing last with
  | nil => exact List.pairwise_singleton _ _
  | cons r rs ih =>
    obtain ⟨hbegins, htail⟩ := List.pairwise_cons.mp hsorted
    obtain ⟨-, hrest⟩ := List.pairwise_cons.mp htail
    unfold mergeRanges
    split
    · apply ih
      rw [List.pairwise_cons]
      exact ⟨fun s hs => hbegins s (List.mem_cons_of_mem _ hs), hrest⟩
    · rename_i htouch
      rw [List.pairwise_cons]
      refine ⟨fun s hs => ?_, ih htail⟩
      exact (not_le.mp htouch).trans_le (mergeRanges_le htail s hs)

end

/-! ## `normalize_class` -/

/-- The ranges that are left have the members of those that were given. -/
theorem normalizeRanges_covers {rs : List (CodePoint × CodePoint)} (hvalid : ∀ r ∈ rs, r.1 ≤ r.2)
    (c : CodePoint) : Covers (normalizeRanges rs) c ↔ Covers rs c := by
  have hperm := exchangeSort_perm rs.length rs
  have hsorted := exchangeSort_sorted rs.length rs le_rfl
  rw [← covers_perm hperm]
  unfold normalizeRanges
  cases hsort : exchangeSort rs.length rs with
  | nil => rfl
  | cons r rs' =>
    rw [hsort] at hperm hsorted
    exact mergeRanges_covers hsorted (fun s hs => hvalid s (hperm.mem_iff.mp hs)) c

/-- They are in order, with gaps between them. -/
theorem normalizeRanges_apart (rs : List (CodePoint × CodePoint)) :
    (normalizeRanges rs).Pairwise fun r s => r.2 + 1 < s.1 := by
  have hsorted := exchangeSort_sorted rs.length rs le_rfl
  unfold normalizeRanges
  cases hsort : exchangeSort rs.length rs with
  | nil => exact List.Pairwise.nil
  | cons r rs' =>
    rw [hsort] at hsorted
    exact mergeRanges_apart hsorted

/-- The union has the members of either class. -/
theorem classUnion_contains (a b : RegexClass) (c : CodePoint) :
    (classUnion a b).contains c = true ↔ a.contains c = true ∨ b.contains c = true := by
  rw [RegexClass.contains_iff, RegexClass.contains_iff, RegexClass.contains_iff, ← covers_append]
  refine normalizeRanges_covers ?_ c
  intro r hr
  rcases List.mem_append.mp hr with hr | hr
  · exact a.valid r hr
  · exact b.valid r hr

/-! ## `run_append_class` -/

/-- The first loop counts what the second one writes, and gives up above the limit. -/
theorem classTotal_eq_some {ranges : List (CodePoint × CodePoint)} {total n : ℕ}
    (h : classTotal total ranges = some n) (htotal : total ≤ classExpandMax) :
    n ≤ classExpandMax ∧
      n = total + (ranges.flatMap fun r => List.range' r.1 (r.2 + 1 - r.1)).length := by
  induction ranges generalizing total with
  | nil =>
    cases h
    exact ⟨htotal, rfl⟩
  | cons r ranges ih =>
    unfold classTotal at h
    dsimp only at h
    split_ifs at h with hlarge
    obtain ⟨hle, heq⟩ := ih h (not_lt.mp hlarge)
    refine ⟨hle, ?_⟩
    rw [heq, List.flatMap_cons, List.length_append, List.length_range', Nat.add_assoc]

/-- The second loop writes the members in ascending order. -/
theorem classMembers_ascending (cs : RegexClass) : (classMembers cs).Pairwise (· < ·) := by
  unfold classMembers
  rw [List.pairwise_flatMap]
  refine ⟨fun r _ => List.pairwise_lt_range', ?_⟩
  refine cs.sorted.imp_of_mem ?_
  intro r s hr _ hbefore x hx y hy
  have hvalid := cs.valid r hr
  have hx := (List.mem_range'_1.mp hx).2
  have hy := (List.mem_range'_1.mp hy).1
  unfold CodePoint at *
  omega

/-! ## In `int32` -/

/-- The merge with the sum of the source. -/
def mergeRanges32 (last : CodePoint × CodePoint) :
    List (CodePoint × CodePoint) → List (CodePoint × CodePoint)
  | [] => [last]
  | r :: rs =>
      if (r.1 : ℤ) ≤ wrap32 (last.2 + 1) then
        mergeRanges32 (last.1, if last.2 < r.2 then r.2 else last.2) rs
      else last :: mergeRanges32 r rs

/-- The first loop of `run_append_class` with the sums of the source. -/
def classTotal32 : ℤ → List (CodePoint × CodePoint) → Option ℤ
  | total, [] => some total
  | total, r :: rest =>
      let total := wrap32 (total + wrap32 (wrap32 (r.2 - r.1) + 1))
      if (classExpandMax : ℤ) < total then none else classTotal32 total rest

/-- No range ends with the largest `int32`. `pg_tre_decode_char` gives no such character. -/
def BelowMax (rs : List (CodePoint × CodePoint)) : Prop := ∀ r ∈ rs, (r.2 : ℤ) < int32Max

/-- Then the end of a range has a successor. -/
theorem wrap32_successor {hi : CodePoint} (h : (hi : ℤ) < int32Max) :
    wrap32 (hi + 1) = (hi : ℤ) + 1 := by
  have hmax : int32Max = 2 ^ 31 - 1 := rfl
  exact wrap32_eq_self (by omega) (by omega)

/-- Below the maximum the `int32` sums do not wrap. -/
theorem mergeRanges32_eq {last : CodePoint × CodePoint} {rs : List (CodePoint × CodePoint)}
    (h : BelowMax (last :: rs)) : mergeRanges32 last rs = mergeRanges last rs := by
  induction rs generalizing last with
  | nil => rfl
  | cons r rs ih =>
    obtain ⟨hlast, htail⟩ := List.forall_mem_cons.mp h
    obtain ⟨hr, hrest⟩ := List.forall_mem_cons.mp htail
    unfold mergeRanges32 mergeRanges
    rw [wrap32_successor hlast]
    by_cases htouch : r.1 ≤ last.2 + 1
    · rw [if_pos (by exact_mod_cast htouch), if_pos htouch]
      apply ih
      refine List.forall_mem_cons.mpr ⟨?_, hrest⟩
      dsimp only
      split_ifs with hlonger
      · exact hr
      · exact hlast
    · rw [if_neg (by exact_mod_cast htouch), if_neg htouch, ih htail]

/-- The ranges ascend apart, so that the sums stay below the ends of the ranges counted. -/
theorem classTotal32_eq {ranges : List (CodePoint × CodePoint)} {total : ℕ} (hmax : BelowMax ranges)
    (hvalid : ∀ r ∈ ranges, r.1 ≤ r.2) (hsorted : ranges.Pairwise fun r s => r.2 < s.1)
    (htotal : ∀ r ∈ ranges, total ≤ r.1) :
    classTotal32 total ranges = (classTotal total ranges).map fun n => (n : ℤ) := by
  induction ranges generalizing total with
  | nil => rfl
  | cons r ranges ih =>
    obtain ⟨hr, hrest⟩ := List.forall_mem_cons.mp hmax
    obtain ⟨hbefore, hpairs⟩ := List.pairwise_cons.mp hsorted
    have hcounted := htotal r List.mem_cons_self
    have hle := hvalid r List.mem_cons_self
    have hlimit : int32Max = 2 ^ 31 - 1 := rfl
    have hsum : wrap32 (total + wrap32 (wrap32 (r.2 - r.1) + 1)) =
        ((total + (r.2 + 1 - r.1) : ℕ) : ℤ) := by
      unfold CodePoint at *
      rw [wrap32_eq_self (x := (r.2 : ℤ) - r.1) (by omega) (by omega),
        wrap32_eq_self (x := (r.2 : ℤ) - r.1 + 1) (by omega) (by omega),
        wrap32_eq_self (by omega) (by omega)]
      omega
    unfold classTotal32 classTotal
    dsimp only
    rw [hsum]
    by_cases hlarge : classExpandMax < total + (r.2 + 1 - r.1)
    · rw [if_pos (by exact_mod_cast hlarge), if_pos hlarge]
      rfl
    · rw [if_neg (by exact_mod_cast hlarge), if_neg hlarge]
      apply ih hrest (fun s hs => hvalid s (List.mem_cons_of_mem _ hs)) hpairs
      intro s hs
      have hnext := hbefore s hs
      unfold CodePoint at *
      omega

/-! ## The result -/

/-- What is left of any ranges is sorted, with gaps between the ranges, and has exactly their members;
so has the union of two classes; and a class that becomes a position of a run is written within
`CLASS_EXPAND_MAX` places, each member once and nothing else. The sums in `int32` are these. -/
theorem classes_normalized :
    (∀ (rs : List (CodePoint × CodePoint)) (hvalid : ∀ r ∈ rs, r.1 ≤ r.2),
      ((normalizeClass rs hvalid).ranges.Pairwise fun r s => r.2 + 1 < s.1) ∧
        (∀ r ∈ (normalizeClass rs hvalid).ranges, r.1 ≤ r.2) ∧
          ∀ c, (normalizeClass rs hvalid).contains c = true ↔ ∃ r ∈ rs, r.1 ≤ c ∧ c ≤ r.2) ∧
      (∀ (a b : RegexClass) (c : CodePoint),
        (classUnion a b).contains c = true ↔ a.contains c = true ∨ b.contains c = true) ∧
      (∀ (negated : Bool) (cs : RegexClass) (p : RunPos), classPos negated cs = some p →
        p.length ≤ classExpandMax ∧ p.Nodup ∧ ∀ c, c ∈ p ↔ cs.contains c = true) ∧
      (∀ (last : CodePoint × CodePoint) (rs : List (CodePoint × CodePoint)),
        BelowMax (last :: rs) → mergeRanges32 last rs = mergeRanges last rs) ∧
      ∀ cs : RegexClass, BelowMax cs.ranges →
        classTotal32 0 cs.ranges = (classTotal 0 cs.ranges).map fun n => (n : ℤ) := by
  refine ⟨fun rs hvalid => ⟨normalizeRanges_apart rs, (normalizeClass rs hvalid).valid, ?_⟩,
    classUnion_contains, ?_, fun last rs => mergeRanges32_eq, ?_⟩
  · intro c
    rw [RegexClass.contains_iff]
    exact normalizeRanges_covers hvalid c
  · intro negated cs p hp
    obtain ⟨-, rfl⟩ := classPos_eq_some hp
    refine ⟨?_, (classMembers_ascending cs).imp Nat.ne_of_lt, fun c => mem_classMembers⟩
    unfold classPos at hp
    split_ifs at hp with hneg
    cases htotal : classTotal 0 cs.ranges with
    | none => simp [htotal] at hp
    | some total =>
      obtain ⟨hle, heq⟩ := classTotal_eq_some htotal (Nat.zero_le _)
      rw [Nat.zero_add] at heq
      exact heq ▸ hle
  · intro cs hmax
    exact classTotal32_eq hmax cs.valid cs.sorted fun r _ => Nat.zero_le r.1

/-- The ranges of `[d-fa-cx]`. -/
def threeRanges : List (CodePoint × CodePoint) := [(100, 102), (97, 99), (120, 120)]

/-- None of them is empty. -/
theorem threeRanges_valid : ∀ r ∈ threeRanges, r.1 ≤ r.2 := by decide

/-- Of these ranges two are left, and as a position of a run they have seven places. -/
theorem classes_normalized_threeRanges :
    (normalizeClass threeRanges threeRanges_valid).ranges = [(97, 102), (120, 120)] ∧
    (∀ c, (normalizeClass threeRanges threeRanges_valid).contains c = true ↔
      ∃ r ∈ threeRanges, r.1 ≤ c ∧ c ≤ r.2) ∧
    (∃ p, classPos false (normalizeClass threeRanges threeRanges_valid) = some p ∧ p.length = 7 ∧
      p.Nodup) ∧
    mergeRanges32 (97, 99) [(100, 102), (120, 120)] = mergeRanges (97, 99) [(100, 102), (120, 120)] ∧
    classTotal32 0 (normalizeClass threeRanges threeRanges_valid).ranges =
      (classTotal 0 (normalizeClass threeRanges threeRanges_valid).ranges).map fun n => (n : ℤ) := by
  have hranges : (normalizeClass threeRanges threeRanges_valid).ranges = [(97, 102), (120, 120)] := by
    decide
  obtain ⟨hnormal, -, hpos, hmerge, htotal⟩ := classes_normalized
  have hp : classPos false (normalizeClass threeRanges threeRanges_valid) =
      some [97, 98, 99, 100, 101, 102, 120] := by decide
  refine ⟨hranges, (hnormal threeRanges threeRanges_valid).2.2,
    ⟨_, hp, rfl, (hpos false _ _ hp).2.1⟩,
    hmerge (97, 99) [(100, 102), (120, 120)] (by unfold BelowMax; decide), htotal _ ?_⟩
  rw [hranges]
  unfold BelowMax
  decide

end PgTre
