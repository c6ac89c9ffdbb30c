import Mathlib.Data.List.Basic
import Mathlib.Order.Lattice
import Mathlib.Order.MinMax

/-!
# Routing by first keys

A list that is sorted by its keys is cut into parts, and each part is filed under its first key. The
part for a key is the last one whose first key is at most that key. Whatever the list has under the
key is in this part.
-/

namespace PgTre.Routing

section

variable {κ α β γ : Type} [LinearOrder κ]

/-- The part filed under the last key that is at most `k`. The search stops at a greater key. -/
def route (k : κ) : β → List (κ × β) → β
  | found, [] => found
  | found, (first, b) :: rest => if first ≤ k then route k b rest else found

/-- The key of the first entry. -/
def firstKey (key : α → κ) (d : κ) (items : List α) : κ := (items.head?.map key).getD d

variable {key : α → κ} {d k : κ}

/-- No entry has a key below the first one. -/
theorem firstKey_le {items : List α} (hsorted : items.Pairwise fun a b => key a < key b) {a : α}
    (ha : a ∈ items) : firstKey key d items ≤ key a := by
  cases items with
  | nil => simp at ha
  | cons b items =>
    rcases List.mem_cons.mp ha with rfl | ha
    · exact le_rfl
    · exact le_of_lt ((List.pairwise_cons.mp hsorted).1 a ha)

/-- A part and the entries of the parts behind it. -/
theorem sorted_cons_part {part : β × List α} {parts : List (β × List α)}
    (hsorted : ((part :: parts).flatMap Prod.snd).Pairwise fun a b => key a < key b) :
    (part.2.Pairwise fun a b => key a < key b) ∧
      ((parts.flatMap Prod.snd).Pairwise fun a b => key a < key b) ∧
      ∀ a ∈ part.2, ∀ b ∈ parts.flatMap Prod.snd, key a < key b := by
  rw [List.flatMap_cons] at hsorted
  exact List.pairwise_append.mp hsorted

/-- Either all keys of the parts are above `k` and the search keeps what it has, or it ends with a
part that has every entry of key `k`. -/
theorem route_cases {parts : List (β × List α)} (hne : ∀ p ∈ parts, p.2 ≠ [])
    (hsorted : (parts.flatMap Prod.snd).Pairwise fun a b => key a < key b) (found : β) :
    (route k found (parts.map fun p => (firstKey key d p.2, p.1)) = found ∧
      ∀ a ∈ parts.flatMap Prod.snd, key a ≠ k) ∨
    ∃ p ∈ parts, route k found (parts.map fun p => (firstKey key d p.2, p.1)) = p.1 ∧
      firstKey key d p.2 ≤ k ∧ ∀ a ∈ parts.flatMap Prod.snd, key a = k → a ∈ p.2 := by
  induction parts generalizing found with
  | nil => simp [route]
  | cons p parts ih =>
    obtain ⟨hfirst, hrest, hbefore⟩ := sorted_cons_part hsorted
    simp only [List.map_cons, route, List.flatMap_cons]
    split_ifs with hle
    · right
      rcases ih (fun p' hp' => hne p' (List.mem_cons_of_mem p hp')) hrest p.1 with
        ⟨hroute, hno⟩ | ⟨p', hp', hroute, hle', hall⟩
      · refine ⟨p, List.mem_cons_self, hroute, hle, ?_⟩
        intro a ha heq
        rcases List.mem_append.mp ha with ha | ha
        · exact ha
        · exact absurd heq (hno a ha)
      · refine ⟨p', List.mem_cons_of_mem p hp', hroute, hle', ?_⟩
        intro a ha heq
        rcases List.mem_append.mp ha with ha | ha
        · -- The first entry of the later part is above all of this one.
          have hlt : key a < firstKey key d p'.2 := by
            cases hitems : p'.2 with
            | nil => exact absurd hitems (hne p' (List.mem_cons_of_mem p hp'))
            | cons c items =>
              apply hbefore a ha c
              apply List.mem_flatMap.mpr
              exact ⟨p', hp', by rw [hitems]; exact List.mem_cons_self⟩
          exact absurd (lt_of_lt_of_le hlt hle') (by rw [heq]; exact lt_irrefl k)
        · exact hall a ha heq
    · left
      refine ⟨rfl, ?_⟩
      intro a ha heq
      apply hle
      rcases List.mem_append.mp ha with ha | ha
      · exact le_of_le_of_eq (firstKey_le hfirst ha) heq
      · obtain ⟨b, hb⟩ := List.exists_mem_of_ne_nil _ (hne p List.mem_cons_self)
        have hlt := lt_of_le_of_lt (@firstKey_le _ _ _ key d _ hfirst b hb) (hbefore b hb a ha)
        exact le_of_lt (lt_of_lt_of_eq hlt heq)

/-- In a sorted list there is one entry of a key. -/
theorem find?_eq_some_of_sorted {items : List α} (hsorted : items.Pairwise fun a b => key a < key b)
    {a : α} (ha : a ∈ items) (hkey : key a = k) :
    items.find? (fun b => decide (key b = k)) = some a := by
  induction items with
  | nil => simp at ha
  | cons b items ih =>
    obtain ⟨hb, hitems⟩ := List.pairwise_cons.mp hsorted
    rcases List.mem_cons.mp ha with rfl | ha
    · simp [hkey]
    · have hne : key b ≠ k := ne_of_lt (lt_of_lt_of_eq (hb a ha) hkey)
      rw [List.find?_cons_of_neg (by simpa using hne)]
      exact ih hitems ha

/-- The search in one part stands for the search in all of them. -/
theorem find?_eq_of_part {items part : List α} (hsorted : items.Pairwise fun a b => key a < key b)
    (hpart : ∀ a ∈ part, a ∈ items) (hall : ∀ a ∈ items, key a = k → a ∈ part) :
    items.find? (fun b => decide (key b = k)) = part.find? fun b => decide (key b = k) := by
  cases hfind : part.find? fun b => decide (key b = k) with
  | none =>
    rw [List.find?_eq_none] at hfind ⊢
    intro a ha hkey
    exact hfind a (hall a ha (by simpa using hkey)) hkey
  | some a =>
    have hkey := List.find?_some hfind
    exact find?_eq_some_of_sorted hsorted (hpart a (List.mem_of_find?_eq_some hfind))
      (by simpa using hkey)

end

end PgTre.Routing
