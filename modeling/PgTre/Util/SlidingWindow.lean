import Mathlib.Algebra.Order.Field.Rat
import Mathlib.Data.Finset.Card
import Mathlib.Data.Finset.Max
import Mathlib.Order.Interval.Finset.Nat
import Mathlib.Tactic.FieldSimp
import Mathlib.Tactic.Linarith

/-!
# Sliding windows

A window over a sequence grows at its right end and shrinks at its left end. The distinct values
in it are counted with the help of marks that hold the last position of each value: a value enters
the window if it has no mark, and leaves it with the position that its mark names.
-/

namespace SlidingWindow

section

variable {α : Type*} (f : ℕ → α)

/-- No later position of the window has the value at `p`. -/
def IsLast (a b p : ℕ) : Prop := a ≤ p ∧ p < b ∧ ∀ r, p < r → r < b → f r ≠ f p

/-- The marks are the last positions of the values in the window. -/
def Marked (a b : ℕ) (last : α → Option ℕ) : Prop :=
  ∀ t p, last t = some p ↔ IsLast f a b p ∧ f p = t

/-- The empty window has no marks. -/
theorem marked_empty (a : ℕ) : Marked f a a (fun _ => none) := by
  intro t p
  constructor
  · intro h
    cases h
  · rintro ⟨⟨hap, hpa, -⟩, -⟩
    omega

/-! ## Counting values -/

variable [DecidableEq α]

/-- The values at the positions from `a` up to, and without, `b`. -/
def values (a b : ℕ) : Finset α := (Finset.Ico a b).image f

/-- The number of values in the window that satisfy `P`. -/
def count (P : α → Bool) (a b : ℕ) : ℕ := ((values f a b).filter (fun t => P t = true)).card

variable {f} {P : α → Bool} {a b c : ℕ}

/-- The values of a window, member by member. -/
theorem mem_values {t : α} : t ∈ values f a b ↔ ∃ p, a ≤ p ∧ p < b ∧ f p = t := by
  simp only [values, Finset.mem_image, Finset.mem_Ico, and_assoc]

/-- An empty window has no value. -/
@[simp] theorem values_self : values f a a = ∅ := by
  simp [values]

/-- An empty window counts nothing. -/
@[simp] theorem count_self : count f P a a = 0 := by
  simp [count]

/-- The window grows at its right end. -/
theorem values_succ_right (hab : a ≤ b) : values f a (b + 1) = insert (f b) (values f a b) := by
  ext t
  simp only [Finset.mem_insert, mem_values]
  constructor
  · rintro ⟨p, hap, hpb, rfl⟩
    rcases Nat.lt_succ_iff_lt_or_eq.mp hpb with hlt | rfl
    · exact .inr ⟨p, hap, hlt, rfl⟩
    · exact .inl rfl
  · rintro (rfl | ⟨p, hap, hpb, rfl⟩)
    · exact ⟨b, hab, by omega, rfl⟩
    · exact ⟨p, hap, by omega, rfl⟩

/-- The window shrinks at its left end. -/
theorem values_eq_insert (hab : a < b) : values f a b = insert (f a) (values f (a + 1) b) := by
  ext t
  simp only [Finset.mem_insert, mem_values]
  constructor
  · rintro ⟨p, hap, hpb, rfl⟩
    rcases Nat.eq_or_lt_of_le hap with rfl | hlt
    · exact .inl rfl
    · exact .inr ⟨p, hlt, hpb, rfl⟩
  · rintro (rfl | ⟨p, hap, hpb, rfl⟩)
    · exact ⟨a, le_rfl, hab, rfl⟩
    · exact ⟨p, by omega, hpb, rfl⟩

/-- The first position is the last one of its value if the value is gone without it. -/
theorem isLast_start (hab : a < b) : IsLast f a b a ↔ f a ∉ values f (a + 1) b := by
  rw [mem_values]
  constructor
  · rintro ⟨-, -, hlater⟩ ⟨p, hap, hpb, heq⟩
    exact hlater p hap hpb heq
  · intro habsent
    exact ⟨le_rfl, hab, fun r har hrb heq => habsent ⟨r, har, hrb, heq⟩⟩

/-- A value is counted when it enters the window. -/
theorem count_succ_right (hab : a ≤ b) :
    count f P a (b + 1) =
      count f P a b + if f b ∉ values f a b ∧ P (f b) = true then 1 else 0 := by
  unfold count
  rw [values_succ_right hab, Finset.filter_insert]
  by_cases hP : P (f b) = true
  · rw [if_pos hP]
    by_cases hmem : f b ∈ values f a b
    · have hfilter : f b ∈ (values f a b).filter (fun t => P t = true) :=
        Finset.mem_filter.mpr ⟨hmem, hP⟩
      rw [Finset.insert_eq_of_mem hfilter, if_neg (fun h => h.1 hmem), Nat.add_zero]
    · have hfilter : f b ∉ (values f a b).filter (fun t => P t = true) :=
        fun h => hmem (Finset.mem_filter.mp h).1
      rw [Finset.card_insert_of_notMem hfilter, if_pos ⟨hmem, hP⟩]
  · rw [if_neg hP, if_neg (fun h => hP h.2), Nat.add_zero]

/-- A value is no longer counted when its last position leaves the window. -/
theorem count_succ_left (hab : a < b) :
    count f P (a + 1) b + (if f a ∉ values f (a + 1) b ∧ P (f a) = true then 1 else 0) =
      count f P a b := by
  unfold count
  rw [values_eq_insert hab, Finset.filter_insert]
  by_cases hP : P (f a) = true
  · rw [if_pos hP]
    by_cases hmem : f a ∈ values f (a + 1) b
    · have hfilter : f a ∈ (values f (a + 1) b).filter (fun t => P t = true) :=
        Finset.mem_filter.mpr ⟨hmem, hP⟩
      rw [Finset.insert_eq_of_mem hfilter, if_neg (fun h => h.1 hmem), Nat.add_zero]
    · have hfilter : f a ∉ (values f (a + 1) b).filter (fun t => P t = true) :=
        fun h => hmem (Finset.mem_filter.mp h).1
      rw [Finset.card_insert_of_notMem hfilter, if_pos ⟨hmem, hP⟩]
  · rw [if_neg hP, if_neg (fun h => hP h.2), Nat.add_zero]

/-- A condition only leaves values out. -/
theorem count_le : count f P a b ≤ count f (fun _ => true) a b :=
  Finset.card_le_card (Finset.monotone_filter_right _ fun _ _ _ => rfl)

/-- Nothing is counted where no value satisfies the condition. -/
theorem count_eq_zero (hnone : ∀ p, a ≤ p → p < b → P (f p) = false) : count f P a b = 0 := by
  unfold count
  rw [Finset.card_eq_zero, Finset.filter_eq_empty_iff]
  intro t ht
  obtain ⟨p, hap, hpb, rfl⟩ := mem_values.mp ht
  rw [hnone p hap hpb]
  exact Bool.false_ne_true

/-- A window that is not empty has a value. -/
theorem count_true_pos (hab : a < b) : 0 < count f (fun _ => true) a b := by
  unfold count
  rw [Finset.card_pos]
  exact ⟨f a, Finset.mem_filter.mpr ⟨mem_values.mpr ⟨a, le_rfl, hab, rfl⟩, rfl⟩⟩

/-- Adjacent windows without a value in common. -/
theorem count_add (hab : a ≤ b) (hbc : b ≤ c) (hinj : Set.InjOn f (Set.Ico a c)) :
    count f P a b + count f P b c = count f P a c := by
  have hdisjoint : Disjoint (values f a b) (values f b c) := by
    rw [Finset.disjoint_left]
    intro t hleft hright
    obtain ⟨p, hap, hpb, rfl⟩ := mem_values.mp hleft
    obtain ⟨r, hbr, hrc, heq⟩ := mem_values.mp hright
    have hrp : r = p := hinj ⟨by omega, hrc⟩ ⟨hap, by omega⟩ heq
    omega
  have hunion : values f a c = values f a b ∪ values f b c := by
    unfold values
    rw [← Finset.image_union, Finset.Ico_union_Ico_eq_Ico hab hbc]
  unfold count
  rw [hunion, Finset.filter_union, Finset.card_union_of_disjoint]
  exact Finset.disjoint_filter_filter hdisjoint

/-! ## Marks -/

/-- Each value in the window has a last position. -/
theorem exists_isLast {t : α} (ht : t ∈ values f a b) : ∃ p, IsLast f a b p ∧ f p = t := by
  obtain ⟨p₀, hap₀, hp₀b, hp₀⟩ := mem_values.mp ht
  have hne : ((Finset.Ico a b).filter (fun p => f p = t)).Nonempty :=
    ⟨p₀, Finset.mem_filter.mpr ⟨Finset.mem_Ico.mpr ⟨hap₀, hp₀b⟩, hp₀⟩⟩
  obtain ⟨p, hp, hmax⟩ := Finset.exists_max_image _ id hne
  simp only [Finset.mem_filter, Finset.mem_Ico, id] at hp hmax
  refine ⟨p, ⟨hp.1.1, hp.1.2, ?_⟩, hp.2⟩
  intro r hpr hrb heq
  have hle := hmax r ⟨⟨by omega, hrb⟩, heq.trans hp.2⟩
  omega

/-- A value has a mark if it is in the window. -/
theorem Marked.eq_none_iff {last : α → Option ℕ} (h : Marked f a b last) {t : α} :
    last t = none ↔ t ∉ values f a b := by
  constructor
  · intro hnone hmem
    obtain ⟨p, hp, hval⟩ := exists_isLast hmem
    rw [(h t p).mpr ⟨hp, hval⟩] at hnone
    cases hnone
  · intro hmem
    cases hlast : last t with
    | none => rfl
    | some p =>
      obtain ⟨⟨hap, hpb, -⟩, hval⟩ := (h t p).mp hlast
      exact absurd (mem_values.mpr ⟨p, hap, hpb, hval⟩) hmem

/-- The new position is the last one of its value. -/
theorem Marked.record {last : α → Option ℕ} (h : Marked f a b last) (hab : a ≤ b) :
    Marked f a (b + 1) (Function.update last (f b) (some b)) := by
  intro t p
  by_cases ht : t = f b
  · subst ht
    rw [Function.update_self, Option.some.injEq]
    constructor
    · rintro rfl
      exact ⟨⟨hab, by omega, fun r hr hrb => by omega⟩, rfl⟩
    · rintro ⟨⟨-, hpb, hlater⟩, hval⟩
      by_contra hne
      exact hlater b (by omega) (by omega) hval.symm
  · rw [Function.update_of_ne ht, h t p]
    constructor
    · rintro ⟨⟨hap, hpb, hlater⟩, rfl⟩
      refine ⟨⟨hap, by omega, ?_⟩, rfl⟩
      intro r hpr hrb
      rcases Nat.lt_succ_iff_lt_or_eq.mp hrb with hlt | rfl
      · exact hlater r hpr hlt
      · exact fun heq => ht heq.symm
    · rintro ⟨⟨hap, hpb, hlater⟩, rfl⟩
      have hpne : p ≠ b := by
        rintro rfl
        exact ht rfl
      exact ⟨⟨hap, by omega, fun r hpr hrb => hlater r hpr (by omega)⟩, rfl⟩

/-- The mark of a position that leaves the window is undone. -/
theorem Marked.forget {last : α → Option ℕ} (h : Marked f a b last) :
    Marked f (a + 1) b
      (if last (f a) = some a then Function.update last (f a) none else last) := by
  -- a last position after the first one stays a last position
  have hstays (p : ℕ) (hne : p ≠ a) : IsLast f a b p ↔ IsLast f (a + 1) b p := by
    constructor
    · rintro ⟨hap, hpb, hlater⟩
      exact ⟨by omega, hpb, hlater⟩
    · rintro ⟨hap, hpb, hlater⟩
      exact ⟨by omega, hpb, hlater⟩
  have hgone : ¬IsLast f (a + 1) b a := fun hlast => by
    have := hlast.1
    omega
  intro t p
  split_ifs with hmark
  · by_cases ht : t = f a
    · subst ht
      rw [Function.update_self]
      refine iff_of_false (by simp) ?_
      rintro ⟨hlast, hval⟩
      have hne : p ≠ a := by
        rintro rfl
        exact hgone hlast
      have heq := (h (f a) p).mpr ⟨(hstays p hne).mpr hlast, hval⟩
      rw [hmark] at heq
      exact hne (Option.some.inj heq).symm
    · rw [Function.update_of_ne ht, h t p]
      by_cases hp : p = a
      · subst hp
        exact iff_of_false (fun hlast => ht hlast.2.symm) (fun hlast => ht hlast.2.symm)
      · rw [hstays p hp]
  · rw [h t p]
    by_cases hp : p = a
    · subst hp
      refine iff_of_false ?_ (fun hlast => hgone hlast.1)
      rintro ⟨hlast, rfl⟩
      exact hmark ((h (f p) p).mpr ⟨hlast, rfl⟩)
    · rw [hstays p hp]

end

/-! ## Ratios -/

/-- Let the windows from `a` split at `l`: `x₁` and `z₁` are counted before `l`, and `x₂`, `z₂` or
`x₃`, `z₃` after it, up to two right ends. If leaving out the part before `l` pays at the first
right end, where the ratio is at most `M`, then it cannot cost anything at the second. -/
theorem ratio_exchange {u x₁ z₁ x₂ z₂ x₃ z₃ M : ℚ} (hz₁ : 0 ≤ z₁) (hpos₁₂ : 0 < u + (z₁ + z₂))
    (hpos₂ : 0 < u + z₂) (hpos₃ : 0 < u + z₃) (hpos₁₃ : 0 < u + (z₁ + z₃))
    (hpays : (x₁ + x₂) / (u + (z₁ + z₂)) < x₂ / (u + z₂)) (hle₂ : x₂ / (u + z₂) ≤ M)
    (hle₃ : x₃ / (u + z₃) ≤ M) : (x₁ + x₃) / (u + (z₁ + z₃)) < M := by
  rw [div_lt_div_iff₀ hpos₁₂ hpos₂] at hpays
  rw [div_le_iff₀ hpos₂] at hle₂
  rw [div_le_iff₀ hpos₃] at hle₃
  rw [div_lt_iff₀ hpos₁₃]
  have hpart : x₁ * (u + z₂) < M * z₁ * (u + z₂) := by
    have hmul := mul_le_mul_of_nonneg_right hle₂ hz₁
    linarith
  have hx₁ : x₁ < M * z₁ := lt_of_mul_lt_mul_right hpart hpos₂.le
  linarith

end SlidingWindow
