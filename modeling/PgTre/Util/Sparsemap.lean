import Mathlib.Data.Finset.Union

/-!
# Sparsemaps

The set operations of the sparsemap library as its header documents them. An empty result is
`NULL`, and so is a failed allocation, which is not modelled. Code that reads `NULL` as one of the
two is wrong about the other.
-/

namespace PgTre

/-- A pointer to a sparsemap: `NULL` is `none`. An allocated map may be empty. -/
abbrev Sm := Option (Finset ℕ)

/-- The members of a map, `NULL` read as the empty one. -/
def smMembers (sm : Sm) : Finset ℕ := sm.getD ∅

/-- No map, no members. -/
@[simp] theorem smMembers_none : smMembers none = ∅ := rfl

/-- The members of a map. -/
@[simp] theorem smMembers_some (s : Finset ℕ) : smMembers (some s) = s := rfl

/-- `sm_union` when no allocation fails: `NULL` if both maps are empty. -/
def smUnion (a b : Finset ℕ) : Sm := if a ∪ b = ∅ then none else some (a ∪ b)

/-- `sm_intersection` when no allocation fails: `NULL` if the result would be empty. -/
def smIntersection (a b : Finset ℕ) : Sm := if a ∩ b = ∅ then none else some (a ∩ b)

/-- The members of a union. -/
theorem smMembers_smUnion (a b : Finset ℕ) : smMembers (smUnion a b) = a ∪ b := by
  unfold smUnion
  split_ifs with hempty
  · exact hempty.symm
  · exact smMembers_some _

/-- How the scan collects maps: a missing one is skipped, the first is taken over, and each
further one is united with what is there. -/
def smAccumulate (accum sm : Sm) : Sm :=
  match accum, sm with
  | accum, none => accum
  | none, some s => some s
  | some a, some s => smUnion a s

/-- Collecting adds the members of the map. -/
@[simp] theorem smMembers_smAccumulate (accum sm : Sm) :
    smMembers (smAccumulate accum sm) = smMembers accum ∪ smMembers sm := by
  cases sm with
  | none => simp [smAccumulate]
  | some s =>
    cases accum with
    | none => simp [smAccumulate]
    | some a => exact smMembers_smUnion a s

/-- A loop that collects a map for each element of a list has the members of all of them. -/
theorem mem_foldl_smAccumulate {α : Type*} {f : α → Sm} {l : List α} {accum : Sm} {tid : ℕ} :
    tid ∈ smMembers (l.foldl (fun accum x => smAccumulate accum (f x)) accum) ↔
      tid ∈ smMembers accum ∨ ∃ x ∈ l, tid ∈ smMembers (f x) := by
  induction l generalizing accum with
  | nil => simp
  | cons x l ih =>
    rw [List.foldl_cons, ih, smMembers_smAccumulate, Finset.mem_union]
    constructor
    · rintro ((haccum | hx) | ⟨y, hy, hmem⟩)
      · exact Or.inl haccum
      · exact Or.inr ⟨x, List.mem_cons_self, hx⟩
      · exact Or.inr ⟨y, List.mem_cons_of_mem _ hy, hmem⟩
    · rintro (haccum | ⟨y, hy, hmem⟩)
      · exact Or.inl (Or.inl haccum)
      · rcases List.mem_cons.mp hy with rfl | hy
        · exact Or.inl (Or.inr hmem)
        · exact Or.inr ⟨y, hy, hmem⟩

end PgTre
