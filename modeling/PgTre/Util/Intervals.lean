import Mathlib.Data.Finset.Sort

/-!
# Intervals in order

Half-open intervals of numbers, none of them empty, in order and without overlap, and the numbers that
they cover.
-/

namespace PgTre

/-- A number is in one of the intervals. -/
def Covered (rs : List (ℕ × ℕ)) (n : ℕ) : Prop := ∃ r ∈ rs, r.1 ≤ n ∧ n < r.2

/-- The intervals are not empty, and each ends before the next starts. -/
def Ordered (rs : List (ℕ × ℕ)) : Prop :=
  (∀ r ∈ rs, r.1 < r.2) ∧ rs.Pairwise fun r s => r.2 ≤ s.1

section

variable {rs ss : List (ℕ × ℕ)} {r s : ℕ × ℕ} {n : ℕ}

/-- No interval covers nothing. -/
theorem not_covered_nil (n : ℕ) : ¬Covered [] n := by
  rintro ⟨r, hr, -⟩
  cases hr

/-- A list covers by its first interval or by the others. -/
@[simp] theorem covered_cons : Covered (r :: rs) n ↔ (r.1 ≤ n ∧ n < r.2) ∨ Covered rs n := by
  unfold Covered
  rw [List.exists_mem_cons_iff]

/-- Two lists cover by the first or by the second. -/
theorem covered_append : Covered (rs ++ ss) n ↔ Covered rs n ∨ Covered ss n := by
  unfold Covered
  simp only [List.mem_append, or_and_right, exists_or]

/-- The empty list is ordered. -/
theorem ordered_nil : Ordered [] := ⟨fun _ hr => absurd hr List.not_mem_nil, List.Pairwise.nil⟩

/-- An ordered list begins with an interval before the others. -/
theorem ordered_cons : Ordered (r :: rs) ↔ r.1 < r.2 ∧ (∀ s ∈ rs, r.2 ≤ s.1) ∧ Ordered rs := by
  unfold Ordered
  rw [List.forall_mem_cons, List.pairwise_cons]
  tauto

/-- Two lists are ordered together when the first ends before the second. -/
theorem ordered_append : Ordered (rs ++ ss) ↔
    Ordered rs ∧ Ordered ss ∧ ∀ r ∈ rs, ∀ s ∈ ss, r.2 ≤ s.1 := by
  unfold Ordered
  rw [List.forall_mem_append, List.pairwise_append]
  tauto

/-- The first interval is not empty. -/
theorem Ordered.head (h : Ordered (r :: rs)) : r.1 < r.2 := (ordered_cons.mp h).1

/-- The other intervals are ordered. -/
theorem Ordered.tail (h : Ordered (r :: rs)) : Ordered rs := (ordered_cons.mp h).2.2

/-- The others start behind the first. -/
theorem Ordered.le_start (h : Ordered (r :: rs)) (hs : s ∈ rs) : r.2 ≤ s.1 :=
  (ordered_cons.mp h).2.1 s hs

/-- The numbers of the later intervals are after the first. -/
theorem Ordered.le_of_covered (h : Ordered (r :: rs)) (hn : Covered rs n) : r.2 ≤ n := by
  obtain ⟨s, hs, hle, -⟩ := hn
  exact (h.le_start hs).trans hle

/-- The first interval starts before all numbers. -/
theorem Ordered.head_le (h : Ordered rs) (hn : Covered rs n) : ∃ r ∈ rs.head?, r.1 ≤ n := by
  cases rs with
  | nil => exact absurd hn (not_covered_nil n)
  | cons r rs =>
    refine ⟨r, rfl, ?_⟩
    rcases covered_cons.mp hn with hn | hn
    · exact hn.1
    · exact h.head.le.trans (h.le_of_covered hn)

/-- Two intervals, one right after the other, in one. -/
theorem Ordered.join (h : Ordered (r :: s :: rs)) (hrs : s.1 = r.2) : Ordered ((r.1, s.2) :: rs) ∧
    ∀ n, Covered ((r.1, s.2) :: rs) n ↔ Covered (r :: s :: rs) n := by
  have hr := h.head
  have hs := h.tail.head
  constructor
  · exact ordered_cons.mpr ⟨by dsimp only; omega, fun t ht => h.tail.le_start ht, h.tail.tail⟩
  · intro n
    rw [covered_cons, covered_cons, covered_cons, ← or_assoc]
    apply or_congr_left
    dsimp only
    omega

/-! ## The last interval first -/

/-- The intervals in order, up to a number, with the last one first. -/
def Descends : ℕ → List (ℕ × ℕ) → Prop
  | _, [] => True
  | f, r :: rs => r.1 < r.2 ∧ r.2 ≤ f ∧ Descends r.1 rs

variable {f f' lo hi : ℕ}

/-- What descends from a bound descends from a larger one. -/
theorem Descends.mono (h : Descends f rs) (hle : f ≤ f') : Descends f' rs := by
  cases rs with
  | nil => trivial
  | cons r rs => exact ⟨h.1, h.2.1.trans hle, h.2.2⟩

/-- Every interval ends at the bound or before it. -/
theorem Descends.le (h : Descends f rs) (hr : r ∈ rs) : r.2 ≤ f := by
  induction rs generalizing f with
  | nil => cases hr
  | cons s rs ih =>
    rcases List.mem_cons.mp hr with rfl | hr
    · exact h.2.1
    · exact (ih h.2.2 hr).trans (h.1.le.trans h.2.1)

/-- The first interval first. -/
theorem Descends.ordered (h : Descends f rs) : Ordered rs.reverse := by
  induction rs generalizing f with
  | nil => exact ordered_nil
  | cons r rs ih =>
    rw [List.reverse_cons, ordered_append]
    refine ⟨ih h.2.2, ordered_cons.mpr ⟨h.1, fun s hs => absurd hs List.not_mem_nil, ordered_nil⟩,
      fun s hs t ht => ?_⟩
    rw [List.mem_singleton.mp ht]
    exact h.2.2.le (List.mem_reverse.mp hs)

/-- The order does not matter for what is covered. -/
theorem covered_reverse : Covered rs.reverse n ↔ Covered rs n := by
  unfold Covered
  simp only [List.mem_reverse]

end

end PgTre
