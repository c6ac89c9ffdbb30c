import Mathlib.Data.List.Forall2
import Mathlib.Data.List.Infix

/-!
# Windows of three consecutive elements

A list is observed only through the triples of consecutive elements it contains.
This file defines those windows and the preorder `Shadow`: one list shadows
another when replacing the second by the first, in any surroundings, never
produces a window that was not there before. Shadowing composes along append and
lets a power of a list stand for any higher power of it.
-/

namespace Strings

variable {α : Type*}

/-- The triples of consecutive elements of a list, from left to right. -/
def windows : List α → List (α × α × α)
  | a :: b :: c :: l => (a, b, c) :: windows (b :: c :: l)
  | _ => []

/-- A window occurs exactly when its three elements stand at consecutive indices. -/
theorem mem_windows_iff {l : List α} {a b c : α} :
    (a, b, c) ∈ windows l ↔
      ∃ i, l[i]? = some a ∧ l[i + 1]? = some b ∧ l[i + 2]? = some c := by
  induction l with
  | nil => simp [windows]
  | cons x l ih =>
    cases l with
    | nil => simp [windows]
    | cons y l =>
      cases l with
      | nil => simp [windows]
      | cons z l =>
        simp only [windows, List.mem_cons, Prod.mk.injEq]
        constructor
        · rintro (⟨rfl, rfl, rfl⟩ | hmem)
          · exact ⟨0, by simp⟩
          · obtain ⟨i, hi⟩ := ih.mp hmem
            exact ⟨i + 1, by simpa using hi⟩
        · rintro ⟨i, ha, hb, hc⟩
          cases i with
          | zero => left; simp_all
          | succ i => exact Or.inr (ih.mpr ⟨i, by simpa using ha, by simpa using hb, by simpa using hc⟩)

/-- Windows survive in every list that contains the given one as a prefix of a suffix. -/
theorem windows_subset_append (x l y : List α) : windows l ⊆ windows (x ++ l ++ y) := by
  rintro ⟨a, b, c⟩ hmem
  obtain ⟨i, ha, hb, hc⟩ := mem_windows_iff.mp hmem
  have hshift (j : ℕ) {e : α} (h : l[j]? = some e) : (x ++ l ++ y)[x.length + j]? = some e := by
    obtain ⟨hj, -⟩ := List.getElem?_eq_some_iff.mp h
    rw [List.append_assoc, List.getElem?_append_right (by omega), Nat.add_sub_cancel_left,
      List.getElem?_append_left hj, h]
  exact mem_windows_iff.mpr ⟨x.length + i, hshift i ha, hshift (i + 1) hb, hshift (i + 2) hc⟩

/-- Windows survive in every list with the given one as an infix. -/
theorem windows_subset_of_isInfix {l₁ l₂ : List α} (h : l₁ <:+: l₂) : windows l₁ ⊆ windows l₂ := by
  obtain ⟨x, y, rfl⟩ := h
  exact windows_subset_append x l₁ y

/-- A window of a prefix is a window of the whole. -/
theorem windows_subset_left (l y : List α) : windows l ⊆ windows (l ++ y) :=
  windows_subset_of_isInfix (List.prefix_append l y).isInfix

/-- A window of a suffix is a window of the whole. -/
theorem windows_subset_right (x l : List α) : windows l ⊆ windows (x ++ l) :=
  windows_subset_of_isInfix (List.suffix_append x l).isInfix

/-- No window reaches across a middle part of two elements or more: it lies on one
side of it or on the other. -/
theorem windows_append_cases {x m y : List α} (hm : 2 ≤ m.length) {w : α × α × α}
    (hw : w ∈ windows (x ++ m ++ y)) : w ∈ windows (x ++ m) ∨ w ∈ windows (m ++ y) := by
  obtain ⟨a, b, c⟩ := w
  obtain ⟨i, ha, hb, hc⟩ := mem_windows_iff.mp hw
  by_cases hi : i + 2 < (x ++ m).length
  · left
    rw [List.getElem?_append_left (by omega)] at ha hb hc
    exact mem_windows_iff.mpr ⟨i, ha, hb, hc⟩
  · right
    rw [List.length_append] at hi
    have hback (j : ℕ) {e : α} (hj : x.length ≤ j) (h : (x ++ m ++ y)[j]? = some e) :
        (m ++ y)[j - x.length]? = some e := by
      rwa [List.append_assoc, List.getElem?_append_right hj] at h
    refine mem_windows_iff.mpr ⟨i - x.length, hback i (by omega) ha, ?_, ?_⟩
    · rw [show i - x.length + 1 = i + 1 - x.length by omega]
      exact hback _ (by omega) hb
    · rw [show i - x.length + 2 = i + 2 - x.length by omega]
      exact hback _ (by omega) hc

/-- Lists related element by element have their windows related in the same way. -/
theorem windows_of_forall₂ {β : Type*} {R : α → β → Prop} {l : List α} {l' : List β}
    (h : List.Forall₂ R l l') {a b c : β} (hw : (a, b, c) ∈ windows l') :
    ∃ x y z, (x, y, z) ∈ windows l ∧ R x a ∧ R y b ∧ R z c := by
  obtain ⟨i, ha, hb, hc⟩ := mem_windows_iff.mp hw
  have hat (j : ℕ) {e : β} (hj : l'[j]? = some e) : ∃ x, l[j]? = some x ∧ R x e := by
    obtain ⟨hlt, rfl⟩ := List.getElem?_eq_some_iff.mp hj
    have hlt' : j < l.length := by rwa [h.length_eq]
    exact ⟨l[j], List.getElem?_eq_getElem hlt', h.get hlt' hlt⟩
  obtain ⟨x, hx, hxa⟩ := hat i ha
  obtain ⟨y, hy, hyb⟩ := hat (i + 1) hb
  obtain ⟨z, hz, hzc⟩ := hat (i + 2) hc
  exact ⟨x, y, z, mem_windows_iff.mpr ⟨i, hx, hy, hz⟩, hxa, hyb, hzc⟩

/-- `Shadow p q`: in any surroundings, the windows seen with `p` in place are among
those seen with `q` in place. -/
def Shadow (p q : List α) : Prop :=
  ∀ x y, windows (x ++ p ++ y) ⊆ windows (x ++ q ++ y)

/-- `ShadowLeft p q`: the same where nothing stands before. -/
def ShadowLeft (p q : List α) : Prop :=
  ∀ y, windows (p ++ y) ⊆ windows (q ++ y)

/-- A run shadows itself. -/
theorem Shadow.refl (p : List α) : Shadow p p := fun _ _ => List.Subset.refl _

/-- Shadows of shadows are shadows. -/
theorem Shadow.trans {p q r : List α} (hpq : Shadow p q) (hqr : Shadow q r) : Shadow p r :=
  fun x y => List.Subset.trans (hpq x y) (hqr x y)

/-- Shadowing is a congruence for append. -/
theorem Shadow.append {p p' q q' : List α} (h : Shadow p q) (h' : Shadow p' q') :
    Shadow (p ++ p') (q ++ q') := by
  intro x y
  have hfirst := h x (p' ++ y)
  have hsecond := h' (x ++ q) y
  simp only [List.append_assoc] at hfirst hsecond ⊢
  exact List.Subset.trans hfirst hsecond

/-- A run shadows itself on the left. -/
theorem ShadowLeft.refl (p : List α) : ShadowLeft p p := fun _ => List.Subset.refl _

/-- What follows a shadowed beginning may itself be shadowed. -/
theorem ShadowLeft.append {p p' q q' : List α} (h : ShadowLeft p q) (h' : Shadow p' q') :
    ShadowLeft (p ++ p') (q ++ q') := by
  intro y
  have hfirst := h (p' ++ y)
  have hsecond := h' q y
  simp only [List.append_assoc] at hfirst hsecond ⊢
  exact List.Subset.trans hfirst hsecond

/-- The windows of the shadowing list itself. -/
theorem ShadowLeft.windows_subset {p q : List α} (h : ShadowLeft p q) : windows p ⊆ windows q := by
  simpa using h []

/-- A beginning can be dropped from the shadowed side. -/
theorem ShadowLeft.prepend {p q : List α} (h : ShadowLeft p q) (x : List α) :
    ShadowLeft p (x ++ q) := by
  intro y
  rw [List.append_assoc]
  exact List.Subset.trans (h y) (windows_subset_right x (q ++ y))

/-- Copies of a list, one after the other. -/
def power (p : List α) (k : ℕ) : List α := (List.replicate k p).flatten

/-- One more copy is put in front. -/
theorem power_succ (p : List α) (k : ℕ) : power p (k + 1) = p ++ power p k := by
  simp [power, List.replicate_succ]

/-- One copy is the list itself. -/
@[simp] theorem power_one (p : List α) : power p 1 = p := by simp [power]

/-- Copies add up. -/
theorem power_add (p : List α) (j k : ℕ) : power p (j + k) = power p j ++ power p k := by
  simp [power, ← List.replicate_append_replicate]

/-- The length of the copies. -/
@[simp] theorem length_power (p : List α) (k : ℕ) : (power p k).length = k * p.length := by
  simp [power]

/-- Copies of nothing are nothing. -/
@[simp] theorem power_nil (k : ℕ) : power ([] : List α) k = [] := by
  simp [power]

/-- The copies hold only elements of the list. -/
theorem mem_of_mem_power {p : List α} {k : ℕ} {x : α} (h : x ∈ power p k) : x ∈ p := by
  obtain ⟨l, hl, hmem⟩ := List.mem_flatten.mp h
  rwa [List.eq_of_mem_replicate hl] at hmem

/-- Fewer copies shadow more copies, as soon as the fewer copies have two elements:
then no window reaches from before them to after them. -/
theorem shadow_power {p : List α} {k n : ℕ} (hkn : k ≤ n) (hlen : 2 ≤ (power p k).length) :
    Shadow (power p k) (power p n) := by
  intro x y w hw
  obtain ⟨j, rfl⟩ := Nat.exists_eq_add_of_le hkn
  rcases windows_append_cases hlen hw with hleft | hright
  · rw [power_add]
    have h := windows_subset_left (x ++ power p k) (power p j ++ y) hleft
    simpa only [List.append_assoc] using h
  · rw [Nat.add_comm, power_add]
    have h := windows_subset_right (x ++ power p j) (power p k ++ y) hright
    simpa only [List.append_assoc] using h

end Strings
