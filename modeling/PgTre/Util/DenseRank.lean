import Mathlib.Data.Finset.Card
import Mathlib.Order.Basic

/-!
# Dense ranks

The rank of a value is the number of smaller values in a finite set. A list that is read in
ascending order meets the values of a set by rank: the rank goes up by one with each new value, and
the ranks of the values before do not change.
-/

namespace DenseRank

variable {α : Type*} [LinearOrder α] {s : Finset α} {x y h : α}

/-- The number of smaller values. -/
def rank (s : Finset α) (x : α) : ℕ := (s.filter (fun y => y < x)).card

/-- Every element has rank 0 in the empty set. -/
@[simp] theorem rank_empty : rank (∅ : Finset α) x = 0 := rfl

/-- A member counts for every greater value. -/
theorem rank_lt_rank (hx : x ∈ s) (hxy : x < y) : rank s x < rank s y := by
  refine Finset.card_lt_card (Finset.ssubset_iff_of_subset ?_ |>.mpr ⟨x, ?_, ?_⟩)
  · intro z hz
    obtain ⟨hzs, hzx⟩ := Finset.mem_filter.mp hz
    exact Finset.mem_filter.mpr ⟨hzs, hzx.trans hxy⟩
  · exact Finset.mem_filter.mpr ⟨hx, hxy⟩
  · exact fun hmem => lt_irrefl x (Finset.mem_filter.mp hmem).2

/-- Members differ in rank. -/
theorem rank_inj (hx : x ∈ s) (hy : y ∈ s) : rank s x = rank s y ↔ x = y := by
  constructor
  · intro heq
    rcases lt_trichotomy x y with hlt | hxy | hgt
    · exact absurd heq (rank_lt_rank hx hlt).ne
    · exact hxy
    · exact absurd heq.symm (rank_lt_rank hy hgt).ne
  · rintro rfl
    rfl

/-- A value counts for the greater ones only. -/
theorem rank_insert_of_le (hxh : x ≤ h) : rank (insert h s) x = rank s x := by
  unfold rank
  rw [Finset.filter_insert, if_neg (not_lt.mpr hxh)]

/-- The rank above the greatest member. -/
theorem rank_of_lt (hx : x ∈ s) (hgreatest : ∀ z ∈ s, z ≤ x) (hxh : x < h) :
    rank s h = rank s x + 1 := by
  have hsplit : s.filter (fun z => z < h) = insert x (s.filter (fun z => z < x)) := by
    ext z
    simp only [Finset.mem_filter, Finset.mem_insert]
    constructor
    · rintro ⟨hzs, -⟩
      rcases (hgreatest z hzs).lt_or_eq with hlt | heq
      · exact .inr ⟨hzs, hlt⟩
      · exact .inl heq
    · rintro (rfl | ⟨hzs, hzx⟩)
      · exact ⟨hx, hxh⟩
      · exact ⟨hzs, hzx.trans hxh⟩
  unfold rank
  rw [hsplit, Finset.card_insert_of_notMem]
  exact fun hmem => lt_irrefl x (Finset.mem_filter.mp hmem).2

end DenseRank
