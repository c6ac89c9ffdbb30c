import Mathlib.Data.Finset.Sort

/-!
# The next member of a set

A search for the least member of a set after some bound, put together from searches of its parts, and
the list that repeated searches give.
-/

namespace PgTre

/-- A number is after a bound, which may be missing. -/
def After (lower : Option ℕ) (n : ℕ) : Prop := ∀ l ∈ lower, l < n

instance (lower : Option ℕ) (n : ℕ) : Decidable (After lower n) :=
  inferInstanceAs (Decidable (∀ l ∈ lower, l < n))

/-- The result of a search for the least number after a bound that has some property. -/
def IsNext (P : ℕ → Prop) (lower : Option ℕ) : Option ℕ → Prop
  | none => ∀ n, P n → ¬After lower n
  | some m => P m ∧ After lower m ∧ ∀ n, P n → After lower n → m ≤ n

section

variable {P Q : ℕ → Prop} {lower r : Option ℕ} {m n : ℕ}

/-- Without a lower bound every number comes after. -/
@[simp] theorem after_none : After none n := fun _ h => by cases h

/-- With a lower bound the larger numbers come after. -/
@[simp] theorem after_some {l : ℕ} : After (some l) n ↔ l < n := by
  unfold After
  constructor
  · intro h
    exact h l rfl
  · intro h k hk
    exact Option.some.inj hk ▸ h

/-- What comes after stays after when it grows. -/
theorem After.of_le (h : After lower m) (hle : m ≤ n) : After lower n :=
  fun l hl => (h l hl).trans_le hle

/-- A search that finds nothing. -/
theorem isNext_none (h : ∀ n, P n → ¬After lower n) : IsNext P lower none := h

/-- The next number depends on the numbers alone. -/
theorem IsNext.congr (h : IsNext P lower r) (hPQ : ∀ n, P n ↔ Q n) : IsNext Q lower r := by
  cases r with
  | none => exact fun n hn => h n ((hPQ n).mpr hn)
  | some m => exact ⟨(hPQ m).mp h.1, h.2.1, fun n hn => h.2.2 n ((hPQ n).mpr hn)⟩

/-- Members that are not after the bound do not matter. -/
theorem IsNext.skip (h : IsNext P lower r) (hQ : ∀ n, Q n → ¬After lower n) :
    IsNext (fun n => Q n ∨ P n) lower r := by
  cases r with
  | none =>
    rintro n (hn | hn)
    · exact hQ n hn
    · exact h n hn
  | some m =>
    refine ⟨Or.inr h.1, h.2.1, ?_⟩
    rintro n (hn | hn) hafter
    · exact absurd hafter (hQ n hn)
    · exact h.2.2 n hn hafter

/-- The first part that has a next member has the next member of all parts, if the parts are in
order. -/
theorem isNext_findSome? {α : Type*} {l : List α} {P : α → ℕ → Prop} {f : α → Option ℕ}
    (hf : ∀ a ∈ l, IsNext (P a) lower (f a))
    (hord : l.Pairwise fun a b => ∀ m n, P a m → P b n → m < n) :
    IsNext (fun n => ∃ a ∈ l, P a n) lower (l.findSome? f) := by
  induction l with
  | nil =>
    rintro n ⟨a, ha, -⟩
    cases ha
  | cons a l ih =>
    have ha := hf a List.mem_cons_self
    obtain ⟨hlt, hord⟩ := List.pairwise_cons.mp hord
    have hrest := ih (fun b hb => hf b (List.mem_cons_of_mem _ hb)) hord
    have hcons : ∀ n, (∃ b ∈ a :: l, P b n) ↔ P a n ∨ ∃ b ∈ l, P b n :=
      fun n => List.exists_mem_cons_iff ..
    cases hfa : f a with
    | none =>
      rw [hfa] at ha
      rw [List.findSome?_cons_of_isNone (by rw [hfa]; rfl)]
      exact (hrest.skip ha).congr fun n => (hcons n).symm
    | some m =>
      rw [hfa] at ha
      rw [List.findSome?_cons_of_isSome (by rw [hfa]; rfl), hfa]
      refine ⟨(hcons m).mpr (Or.inl ha.1), ha.2.1, fun n hn hafter => ?_⟩
      rcases (hcons n).mp hn with hPn | ⟨b, hb, hPn⟩
      · exact ha.2.2 n hPn hafter
      · exact (hlt b hb m n ha.1 hPn).le

end

/-! ## Enumeration -/

/-- Repeated searches, each after what the last one found. A search may keep a state for the next. -/
def enumerate {σ : Type*} (next : Option ℕ → σ → Option ℕ × σ) : ℕ → Option ℕ → σ → List ℕ
  | 0, _, _ => []
  | fuel + 1, lower, st =>
      match (next lower st).1 with
      | none => []
      | some m => m :: enumerate next fuel (some m) (next lower st).2

/-- Repeated searches list the members after a bound, in order and each once. -/
theorem enumerate_eq_sort {σ : Type*} {next : Option ℕ → σ → Option ℕ × σ} {s : Finset ℕ}
    {Inv : Option ℕ → σ → Prop}
    (hnext : ∀ lower st, Inv lower st → IsNext (· ∈ s) lower (next lower st).1 ∧
      ∀ m, (next lower st).1 = some m → Inv (some m) (next lower st).2)
    (fuel : ℕ) {lower : Option ℕ} {st : σ} (hinv : Inv lower st)
    (hfuel : (s.filter (After lower)).card < fuel) :
    enumerate next fuel lower st = (s.filter (After lower)).sort (· ≤ ·) := by
  induction fuel generalizing lower st with
  | zero => exact absurd hfuel (Nat.not_lt_zero _)
  | succ fuel ih =>
    obtain ⟨hisnext, hstep⟩ := hnext lower st hinv
    rw [enumerate]
    cases hfound : (next lower st).1 with
    | none =>
      rw [hfound] at hisnext
      have hempty : s.filter (After lower) = ∅ := Finset.filter_eq_empty_iff.mpr hisnext
      rw [hempty, Finset.sort_empty]
    | some m =>
      rw [hfound] at hisnext
      obtain ⟨hm, hafter, hleast⟩ := hisnext
      have hnot : m ∉ s.filter (After (some m)) := by simp
      have hinsert : s.filter (After lower) = insert m (s.filter (After (some m))) := by
        ext n
        rw [Finset.mem_insert, Finset.mem_filter, Finset.mem_filter, after_some]
        constructor
        · rintro ⟨hn, hlow⟩
          rcases (hleast n hn hlow).eq_or_lt with heq | hlt
          · exact Or.inl heq.symm
          · exact Or.inr ⟨hn, hlt⟩
        · rintro (rfl | ⟨hn, hlt⟩)
          · exact ⟨hm, hafter⟩
          · exact ⟨hn, hafter.of_le hlt.le⟩
      have hcard : (s.filter (After (some m))).card < fuel := by
        rw [hinsert, Finset.card_insert_of_notMem hnot] at hfuel
        omega
      have hle : ∀ n ∈ s.filter (After (some m)), m ≤ n := fun n hn =>
        (after_some.mp (Finset.mem_filter.mp hn).2).le
      dsimp only
      rw [hinsert, Finset.sort_insert _ hle hnot, ih (hstep m hfound) hcard]

end PgTre
