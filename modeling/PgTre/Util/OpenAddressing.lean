import Mathlib.Logic.Function.Iterate
import Mathlib.Data.Nat.Find
import Mathlib.Data.Finset.Card

/-!
# Open addressing

A table of slots is searched from the slot of a hash on, one slot after the other and around at
the end, until a slot fits: one that is free, or one that holds the key. The search of a table
with a free slot ends.
-/

namespace OpenAddressing

/-- The first slot on the way from `slot` that `stop` accepts, among the next `probes` ones. -/
def probe (next : ℕ → ℕ) (stop : ℕ → Bool) : ℕ → ℕ → Option ℕ
  | 0, _ => none
  | probes + 1, slot => if stop slot then some slot else probe next stop probes (next slot)

variable {next : ℕ → ℕ} {stop : ℕ → Bool} {cap probes slot s : ℕ}

/-- What a search finds: the slots before it on the way are not accepted. -/
theorem probe_eq_some_iff :
    probe next stop probes slot = some s ↔
      ∃ d < probes, next^[d] slot = s ∧ stop s = true ∧ ∀ e < d, stop (next^[e] slot) = false := by
  induction probes generalizing slot with
  | zero => simp [probe]
  | succ probes ih =>
    rw [probe]
    cases hstop : stop slot with
    | true =>
      rw [if_pos rfl]
      constructor
      · intro h
        cases h
        exact ⟨0, by omega, rfl, hstop, by omega⟩
      · rintro ⟨d, -, hd, -, hbefore⟩
        cases d with
        | zero => rw [← hd, Function.iterate_zero, id]
        | succ d =>
          have hfirst := hbefore 0 (by omega)
          rw [Function.iterate_zero, id, hstop] at hfirst
          cases hfirst
    | false =>
      rw [if_neg Bool.false_ne_true, ih]
      constructor
      · rintro ⟨d, hd, hs, hstop', hbefore⟩
        refine ⟨d + 1, by omega, hs, hstop', ?_⟩
        intro e he
        cases e with
        | zero => exact hstop
        | succ e => exact hbefore e (by omega)
      · rintro ⟨d, hd, hs, hstop', hbefore⟩
        cases d with
        | zero =>
          rw [Function.iterate_zero, id] at hs
          rw [hs, hstop'] at hstop
          cases hstop
        | succ d =>
          exact ⟨d, by omega, hs, hstop', fun e he => hbefore (e + 1) (by omega)⟩

/-- Going around a table. -/
theorem iterate_succ_mod (hslot : slot < cap) (d : ℕ) :
    (fun i => (i + 1) % cap)^[d] slot = (slot + d) % cap := by
  induction d with
  | zero => rw [Function.iterate_zero, id, Nat.add_zero, Nat.mod_eq_of_lt hslot]
  | succ d ih => rw [Function.iterate_succ_apply', ih, Nat.mod_add_mod, Nat.add_assoc]

/-- Every slot is on the way from any other one. -/
theorem exists_distance (hslot : slot < cap) (hs : s < cap) :
    ∃ d < cap, (slot + d) % cap = s := by
  by_cases h : slot ≤ s
  · refine ⟨s - slot, by omega, ?_⟩
    rw [Nat.add_sub_cancel' h, Nat.mod_eq_of_lt hs]
  · refine ⟨s + cap - slot, by omega, ?_⟩
    have hsum : slot + (s + cap - slot) = s + cap := by omega
    rw [hsum, Nat.add_mod_right, Nat.mod_eq_of_lt hs]

/-- A search around the table ends at a slot that fits, when there is one. -/
theorem exists_probe_eq_some (hslot : slot < cap) (hexists : ∃ s < cap, stop s = true) :
    ∃ s, probe (fun i => (i + 1) % cap) stop cap slot = some s ∧ s < cap ∧ stop s = true := by
  obtain ⟨s, hs, hstop⟩ := hexists
  obtain ⟨d, hd, hds⟩ := exists_distance hslot hs
  have hsome : ∃ d, stop ((slot + d) % cap) = true := ⟨d, by rw [hds]; exact hstop⟩
  refine ⟨(slot + Nat.find hsome) % cap, ?_, Nat.mod_lt _ (by omega), Nat.find_spec hsome⟩
  rw [probe_eq_some_iff]
  refine ⟨Nat.find hsome, ?_, iterate_succ_mod hslot _, Nat.find_spec hsome, ?_⟩
  · have hle := Nat.find_min' hsome (by rw [hds]; exact hstop)
    omega
  · intro e he
    rw [iterate_succ_mod hslot]
    exact Bool.eq_false_of_not_eq_true (Nat.find_min hsome he)

/-- A table that is not full has a free slot. -/
theorem exists_free {used : ℕ → Prop} [DecidablePred used] {n : ℕ}
    (hused : ((Finset.range cap).filter used).card ≤ n) (hn : n < cap) : ∃ s < cap, ¬used s := by
  by_contra hnone
  push Not at hnone
  have hall : (Finset.range cap).filter used = Finset.range cap :=
    Finset.filter_true_of_mem fun s hs => hnone s (Finset.mem_range.mp hs)
  rw [hall, Finset.card_range] at hused
  omega

/-- Filling one slot uses at most one more. -/
theorem card_used_le {used used' : ℕ → Prop} [DecidablePred used] [DecidablePred used'] {n : ℕ}
    (hused : ((Finset.range cap).filter used).card ≤ n)
    (hone : ∀ i, i ≠ s → used' i → used i) : ((Finset.range cap).filter used').card ≤ n + 1 := by
  have hsubset : (Finset.range cap).filter used' ⊆ insert s ((Finset.range cap).filter used) := by
    intro i hi
    rw [Finset.mem_filter] at hi
    rw [Finset.mem_insert, Finset.mem_filter]
    by_cases heq : i = s
    · exact .inl heq
    · exact .inr ⟨hi.1, hone i heq hi.2⟩
  have hcard := (Finset.card_le_card hsubset).trans (Finset.card_insert_le _ _)
  omega

end OpenAddressing
