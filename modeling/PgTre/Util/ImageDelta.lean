import Mathlib.Logic.Function.Basic
import Mathlib.Tactic.SplitIfs

/-!
# Logged differences

A change to a block is logged as its new image or as the places at which the image differs from the
one before. Replaying differences brings back the new image if and only if storage already has it
wherever nothing is said.
-/

namespace ImageDelta

section

variable {ι α : Type*} [DecidableEq α]

/-- The places at which an image has changed. -/
def diff (old new : ι → α) : ι → Option α := fun i => if old i = new i then none else some (new i)

/-- The differences laid over an image. -/
def patch (delta : ι → Option α) (image : ι → α) : ι → α := fun i => (delta i).getD (image i)

variable {old new image : ι → α}

/-- What is not logged has to be there already. -/
theorem patch_diff_eq_iff :
    patch (diff old new) image = new ↔ ∀ i, old i = new i → image i = new i := by
  rw [funext_iff]
  refine forall_congr' fun i => ?_
  unfold patch diff
  split_ifs with hsame
  · exact ⟨fun h _ => h, fun h => h hsame⟩
  · exact ⟨fun _ h => absurd h hsame, fun _ => rfl⟩

end

/-! ## Records -/

/-- What a record has for a block. -/
inductive Change (ι α : Type*) where
  | whole (new : ι → α)
  | delta (changed : ι → Option α)

/-- A change, replayed. -/
def Change.apply {ι α : Type*} : Change ι α → (ι → α) → ι → α
  | .whole new, _ => new
  | .delta changed, image => patch changed image

/-- A record: the changes of some blocks. -/
abbrev Record (β ι α : Type*) := β → Option (Change ι α)

section

variable {β ι α : Type*}

/-- A record, replayed. -/
def redo (storage : β → ι → α) (record : Record β ι α) : β → ι → α :=
  fun b => (record b).elim (storage b) fun change => change.apply (storage b)

/-- A log, replayed in its order. -/
def replay (storage : β → ι → α) (log : List (Record β ι α)) : β → ι → α := log.foldl redo storage

/-- The last record is redone last. -/
theorem replay_append (storage : β → ι → α) (log : List (Record β ι α)) (record : Record β ι α) :
    replay storage (log ++ [record]) = redo (replay storage log) record := by
  simp [replay, List.foldl_append]

/-- The new image of a block, and whether all of it is logged. -/
structure Registered (ι α : Type*) where
  full : Bool
  new : ι → α

variable [DecidableEq α]

/-- The change of a block that had the image `old` when it was registered. -/
def Registered.change (r : Registered ι α) (old : ι → α) : Change ι α :=
  if r.full = true then .whole r.new else .delta (diff old r.new)

/-- The record of the registered blocks. -/
def recordOf (buffers : β → ι → α) (regs : β → Option (Registered ι α)) : Record β ι α :=
  fun b => (regs b).map fun r => r.change (buffers b)

/-- The buffers after the record. -/
def newBuffers (buffers : β → ι → α) (regs : β → Option (Registered ι α)) : β → ι → α :=
  fun b => (regs b).elim (buffers b) Registered.new

/-- A record is enough for a registered block if all of the block is logged, or if storage has what
did not change. -/
def Registered.Enough (r : Registered ι α) (old stored : ι → α) : Prop :=
  r.full = true ∨ ∀ i, old i = r.new i → stored i = r.new i

/-- A registered change applies exactly when the old image has enough. -/
theorem Registered.apply_change_iff {r : Registered ι α} {old stored : ι → α} :
    (r.change old).apply stored = r.new ↔ r.Enough old stored := by
  unfold Registered.change Registered.Enough
  split_ifs with hfull
  · exact iff_of_true rfl (.inl hfull)
  · rw [Change.apply, patch_diff_eq_iff]
    exact ⟨.inr, fun h => h.resolve_left hfull⟩

/-- Replaying a record brings storage up to date if and only if it is enough for each block that was
registered, and storage was up to date for the others. -/
theorem redo_eq_newBuffers_iff {storage buffers : β → ι → α} {regs : β → Option (Registered ι α)} :
    redo storage (recordOf buffers regs) = newBuffers buffers regs ↔
      (∀ b r, regs b = some r → r.Enough (buffers b) (storage b)) ∧
        ∀ b, regs b = none → storage b = buffers b := by
  rw [funext_iff]
  constructor
  · intro h
    constructor
    · intro b r hr
      have hb := h b
      simp only [redo, recordOf, newBuffers, hr, Option.map_some, Option.elim_some] at hb
      exact Registered.apply_change_iff.mp hb
    · intro b hnone
      have hb := h b
      simpa only [redo, recordOf, newBuffers, hnone, Option.map_none, Option.elim_none] using hb
  · rintro ⟨henough, hothers⟩ b
    cases hr : regs b with
    | none =>
      simp only [redo, recordOf, newBuffers, hr, Option.map_none, Option.elim_none]
      exact hothers b hr
    | some r =>
      simp only [redo, recordOf, newBuffers, hr, Option.map_some, Option.elim_some]
      exact Registered.apply_change_iff.mpr (henough b r hr)

end

end ImageDelta
