import Mathlib.Data.List.Range
import Mathlib.Logic.Function.Iterate
import Mathlib.Order.MinMax
import Mathlib.Data.Nat.Basic

/-!
# Recursion on a bounded stack

A recursive procedure whose depth is explicit. A call that checks the stack fails beyond the limit,
one that does not goes on. A walk keeps the greatest depth it has come to beside its result, which is
absent once a check has failed. The calls that the unguarded procedure makes decide both.
-/

namespace StackWalk

variable {α β : Type*}

/-- The deepest call of a procedure, and its result unless a check of the stack failed. -/
structure Walk (α : Type*) where
  deepest : ℕ
  result : Option α

/-- A result without further calls. -/
def Walk.pure (a : α) : Walk α := ⟨0, some a⟩

/-- One procedure after the other. -/
def Walk.bind (w : Walk α) (f : α → Walk β) : Walk β :=
  match w.result with
  | none => ⟨w.deepest, none⟩
  | some a => ⟨max w.deepest (f a).deepest, (f a).result⟩

/-- A procedure applied to its own result a number of times. -/
def Walk.times (f : α → Walk α) : ℕ → α → Walk α
  | 0, a => .pure a
  | n + 1, a => (times f n a).bind f

/-- A call at depth `d` that does not check the stack. -/
def Walk.entered (d : ℕ) (body : Walk α) : Walk α := ⟨max d body.deepest, body.result⟩

/-- A call at depth `d` that checks the stack first. -/
def Walk.checked (limit d : ℕ) (body : Walk α) : Walk α :=
  if limit < d then ⟨d, none⟩ else .entered d body

/-- A call by its depth, with or without a check. -/
inductive Call where
  | checked (depth : ℕ)
  | unchecked (depth : ℕ)

/-- No check fails among the calls. -/
def Passes (limit : ℕ) (calls : List Call) : Prop := ∀ d, .checked d ∈ calls → d ≤ limit

/-- The calls without a check, up to the first one that fails its check, come no deeper than a call
that fails its check would. -/
def Stays (limit : ℕ) : List Call → Prop
  | [] => True
  | .checked d :: calls => d ≤ limit → Stays limit calls
  | .unchecked d :: calls => d ≤ limit + 1 ∧ Stays limit calls

/-- Two runs of calls pass when both do. -/
theorem passes_append {limit : ℕ} {cs cs' : List Call} :
    Passes limit (cs ++ cs') ↔ Passes limit cs ∧ Passes limit cs' := by
  simp [Passes, or_imp, forall_and]

/-- A checked call passes within the limit. -/
@[simp] theorem passes_checked {limit d : ℕ} {cs : List Call} :
    Passes limit (.checked d :: cs) ↔ d ≤ limit ∧ Passes limit cs := by
  simp [Passes, or_imp, forall_and]

/-- An unchecked call passes. -/
@[simp] theorem passes_unchecked {limit d : ℕ} {cs : List Call} :
    Passes limit (.unchecked d :: cs) ↔ Passes limit cs := by simp [Passes]

/-- A checked call past the limit ends the walk, one within it goes on. -/
@[simp] theorem stays_checked {limit d : ℕ} {cs : List Call} :
    Stays limit (.checked d :: cs) ↔ (d ≤ limit → Stays limit cs) := Iff.rfl

/-- An unchecked call stays one past the limit at most. -/
@[simp] theorem stays_unchecked {limit d : ℕ} {cs : List Call} :
    Stays limit (.unchecked d :: cs) ↔ d ≤ limit + 1 ∧ Stays limit cs := Iff.rfl

/-- No call passes. -/
@[simp] theorem passes_nil {limit : ℕ} : Passes limit [] := by simp [Passes]

/-- No call stays. -/
@[simp] theorem stays_nil {limit : ℕ} : Stays limit [] := trivial

/-- The later calls are made if no check fails among the earlier ones. -/
theorem stays_append {limit : ℕ} {cs cs' : List Call} :
    Stays limit (cs ++ cs') ↔ Stays limit cs ∧ (Passes limit cs → Stays limit cs') := by
  induction cs with
  | nil => simp
  | cons c cs ih =>
    cases c with
    | checked d =>
      rw [List.cons_append, stays_checked, stays_checked, ih, passes_checked]
      tauto
    | unchecked d =>
      rw [List.cons_append, stays_unchecked, stays_unchecked, ih, passes_unchecked]
      tauto

/-- The walk is one of a procedure that makes these calls, as far as the first check that fails, and
returns `a` if none does. -/
structure Walk.Runs (limit : ℕ) (w : Walk α) (a : α) (calls : List Call) : Prop where
  returns : Passes limit calls → w.result = some a
  deepest : w.deepest ≤ limit + 1 ↔ Stays limit calls
  fails : ¬ Passes limit calls → w.result = none

section

variable {limit d : ℕ} {a : α} {b : β} {cs cs' : List Call} {w : Walk α} {f : α → Walk β}

/-- A value alone makes no call. -/
theorem Walk.Runs.pure : (Walk.pure a).Runs limit a [] :=
  ⟨fun _ => rfl, by simp [Walk.pure], fun h => absurd passes_nil h⟩

/-- A call that returns at once, made by one that has passed its check. -/
theorem Walk.Runs.returned (hd : d ≤ limit + 1) : (⟨d, some a⟩ : Walk α).Runs limit a [] :=
  ⟨fun _ => rfl, by simp [hd], fun h => absurd passes_nil h⟩

/-- One procedure after the other makes the calls of both. -/
theorem Walk.Runs.bind (h : w.Runs limit a cs) (h' : (f a).Runs limit b cs') :
    (w.bind f).Runs limit b (cs ++ cs') := by
  by_cases hcs : Passes limit cs
  · have hbind : w.bind f = ⟨max w.deepest (f a).deepest, (f a).result⟩ := by
      rw [Walk.bind, h.returns hcs]
    rw [hbind]
    refine ⟨fun hpass => h'.returns (passes_append.mp hpass).2, ?_, fun hfail => ?_⟩
    · rw [max_le_iff, h.deepest, h'.deepest, stays_append]
      exact and_congr_right fun _ => (imp_iff_right hcs).symm
    · exact h'.fails fun hcs' => hfail (passes_append.mpr ⟨hcs, hcs'⟩)
  · have hbind : w.bind f = ⟨w.deepest, none⟩ := by
      rw [Walk.bind, h.fails hcs]
    rw [hbind]
    refine ⟨fun hpass => absurd (passes_append.mp hpass).1 hcs, ?_, fun _ => rfl⟩
    rw [h.deepest, stays_append]
    exact (and_iff_left fun hpass => absurd hpass hcs).symm

/-- A call without a check. -/
theorem Walk.Runs.entered (h : w.Runs limit a cs) :
    (Walk.entered d w).Runs limit a (.unchecked d :: cs) := by
  refine ⟨fun hpass => h.returns (passes_unchecked.mp hpass), ?_, fun hfail => ?_⟩
  · rw [Walk.entered, max_le_iff, h.deepest, stays_unchecked]
  · exact h.fails fun hpass => hfail (passes_unchecked.mpr hpass)

/-- A call with a check, made by one that has passed its own. -/
theorem Walk.Runs.checked (hd : d ≤ limit + 1) (h : d ≤ limit → w.Runs limit a cs) :
    (Walk.checked limit d w).Runs limit a (.checked d :: cs) := by
  rcases Nat.lt_or_ge limit d with hdeep | hin
  · have hfail : ¬ Passes limit (.checked d :: cs) := fun hpass =>
      absurd (passes_checked.mp hpass).1 (Nat.not_le.mpr hdeep)
    rw [Walk.checked, if_pos hdeep]
    refine ⟨fun hpass => absurd hpass hfail, ?_, fun _ => rfl⟩
    exact iff_of_true hd (stays_checked.mpr fun hin => absurd hin (Nat.not_le.mpr hdeep))
  · have hw := h hin
    rw [Walk.checked, if_neg (Nat.not_lt.mpr hin)]
    refine ⟨fun hpass => hw.returns (passes_checked.mp hpass).2, ?_, fun hfail => ?_⟩
    · rw [Walk.entered, max_le_iff, hw.deepest, stays_checked, imp_iff_right hin]
      exact and_iff_right hd
    · exact hw.fails fun hpass => hfail (passes_checked.mpr ⟨hin, hpass⟩)

/-- A repetition makes the calls of each round. -/
theorem Walk.Runs.times {f : α → Walk α} {g : α → α} {calls : α → List Call} {n : ℕ}
    (h : ∀ a, (f a).Runs limit (g a) (calls a)) (a : α) :
    (Walk.times f n a).Runs limit (g^[n] a) ((List.range n).flatMap fun i => calls (g^[i] a)) := by
  induction n with
  | zero => exact .pure
  | succ n ih =>
    rw [List.range_succ, List.flatMap_append, Function.iterate_succ_apply']
    simpa [Walk.times] using ih.bind (h (g^[n] a))

/-- A walk comes at most one call beyond the limit, and does not fail where `p` holds: this is so
exactly when the calls without a check stay that near until a check fails, and none fails where `p`
holds. -/
theorem Walk.Runs.bounded_iff (h : w.Runs limit a cs) {p : Prop} :
    (w.deepest ≤ limit + 1 ∧ (p → w.result ≠ none)) ↔ Stays limit cs ∧ (p → Passes limit cs) := by
  rw [h.deepest]
  refine and_congr_right fun _ => forall_congr' fun _ => ?_
  by_cases hpass : Passes limit cs
  · simp [h.returns hpass, hpass]
  · simp [h.fails hpass, hpass]

end

end StackWalk
