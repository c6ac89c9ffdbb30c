import PgTre.Am.CandidateSet
import Mathlib.Data.Nat.Bitwise

/-!
# The crack cache

With `pg_tre.crack_on_read` a scan keeps the union of a trigram's postings over all runs in an
open-addressing table, so that a trigram which occurs several times in a query is looked up once.
The table has at least twice as many slots as the query has trigrams. So every probe ends, and the
candidates are those of a scan without the cache.
-/

namespace PgTre

/-- `CrackCacheEntry`. -/
structure CrackCacheEntry where
  hash : UInt64
  used : Bool
  present : Bool
  runsSm : Sm

/-- A slot after `MemoryContextAllocZero`. -/
def CrackCacheEntry.zero : CrackCacheEntry := ⟨0, false, false, none⟩

/-- `CrackCache`. It has no slots when it is disabled. -/
structure CrackCache where
  slots : List CrackCacheEntry

/-- The capacity of the table. -/
def CrackCache.cap (cc : CrackCache) : ℕ := cc.slots.length

/-- The loop `while (cap < total * 2) cap <<= 1`. -/
def growCap (cap goal : ℕ) : ℕ :=
  if 0 < cap ∧ cap < goal then growCap (cap <<< 1) goal else cap
termination_by goal - cap
decreasing_by
  rw [Nat.shiftLeft_eq]
  omega

/-- The number of trigrams a query lists. -/
def TrigramQuery.nAlts (q : TrigramQuery) : ℕ := (q.conjuncts.map (·.alts.length)).sum

/-- `crack_cache_init`. -/
def crackCacheInit (crackOnRead : Bool) (q : TrigramQuery) : CrackCache :=
  if crackOnRead = false ∨ q.conjuncts = [] then ⟨[]⟩
  else if q.nAlts = 0 then ⟨[]⟩
  else ⟨List.replicate (growCap 8 (q.nAlts * 2)) .zero⟩

/-- The loop of `crack_cache_slot` for a number of probes, from a slot on. -/
def crackCacheProbe (cc : CrackCache) (hash : UInt64) : ℕ → ℕ → Option ℕ
  | 0, _ => none
  | fuel + 1, i =>
      match cc.slots[i]? with
      | none => none
      | some e =>
          if e.used = false ∨ e.hash = hash then some i
          else crackCacheProbe cc hash fuel ((i + 1) &&& (cc.cap - 1))

/-- `crack_cache_slot`: the slot of the hash or the one to fill. After as many probes as there are
slots the loop would begin anew and never end. -/
def crackCacheSlot (cc : CrackCache) (hash : UInt64) : Option ℕ :=
  crackCacheProbe cc hash cc.cap (hash.toNat % 2 ^ 32 &&& (cc.cap - 1))

/-- `resolve_trigram_runs`, with `none` for a probe that does not end. Copies succeed. -/
def resolveTrigramRunsCracked (idx : ScanIndex) (h : UInt64) (cc : CrackCache) :
    Option (Sm × CrackCache) :=
  if cc.slots = [] then some (resolveTrigramRuns idx h, cc)
  else
    match crackCacheSlot cc h with
    | none => none
    | some i =>
        match cc.slots[i]? with
        | none => none
        | some slot =>
            if slot.used then some (if slot.present then slot.runsSm else none, cc)
            else
              let sm := resolveTrigramRuns idx h
              some (sm, ⟨cc.slots.set i ⟨h, true, sm.isSome, sm⟩⟩)

/-- The loop of `resolve_conjunct_with_overlay`. -/
def resolveAltsCracked (idx : ScanIndex) (ov : List PendingOverlayEntry) :
    List TrigramDisjunct → Sm → CrackCache → Option (Sm × CrackCache)
  | [], accum, cc => some (accum, cc)
  | a :: rest, accum, cc =>
      match resolveTrigramRunsCracked idx a.trigramHash cc with
      | none => none
      | some (sm, cc) =>
          resolveAltsCracked idx ov rest
            (smAccumulate accum (smAccumulate sm (overlayLookup ov a.trigramHash))) cc

/-- `resolve_conjunct_with_overlay` with the cache. -/
def resolveConjunctCracked (idx : ScanIndex) (ov : List PendingOverlayEntry) (conj : TrigramConjunct)
    (cc : CrackCache) : Option (Sm × CrackCache) :=
  resolveAltsCracked idx ov conj.alts none cc

/-- The loop over what must hold together, resolving as it goes. -/
def conjoinCracked (idx : ScanIndex) (ov : List PendingOverlayEntry) :
    List TrigramConjunct → Sm → CrackCache → Option (Sm × CrackCache)
  | [], result, cc => some (result, cc)
  | conj :: rest, result, cc =>
      match resolveConjunctCracked idx ov conj cc with
      | none => none
      | some (none, cc) => some (none, cc)
      | some (some sm, cc) =>
          match result with
          | none => conjoinCracked idx ov rest (some sm) cc
          | some result =>
              match smIntersection result sm with
              | none => some (none, cc)
              | some merged => conjoinCracked idx ov rest (some merged) cc

/-- The loop over the pieces, resolving as it goes. -/
def unitePiecesCracked (idx : ScanIndex) (ov : List PendingOverlayEntry) :
    List TrigramConjunct → Sm → CrackCache → Option (Except PgError Sm)
  | [], result, _ => some (.ok result)
  | piece :: rest, result, cc =>
      match conjoinCracked idx ov (piece.alts.map fun a => ⟨[a]⟩) none cc with
      | none => none
      | some (none, cc) => unitePiecesCracked idx ov rest result cc
      | some (some sm, cc) =>
          match result with
          | none => unitePiecesCracked idx ov rest (some sm) cc
          | some result =>
              match smUnion result sm with
              | none => some (.error ⟨"out of memory"⟩)
              | some u => unitePiecesCracked idx ov rest (some u) cc

/-- `tre_compute_candidate_sm` with either setting of `pg_tre.crack_on_read`. -/
def treComputeCandidateSmCracked (crackOnRead : Bool) (idx : ScanIndex) (q : TrigramQuery) :
    Option (Except PgError (Sm × Bool)) :=
  if q.alwaysTrue then some (.ok (none, true))
  else
    match overlayBuild idx q with
    | .error e => some (.error e)
    | .ok ov =>
        let cc := crackCacheInit crackOnRead q
        match q.mode with
        | .cnf => (conjoinCracked idx ov q.conjuncts none cc).map fun r => .ok (r.1, false)
        | .pieces => (unitePiecesCracked idx ov q.conjuncts none cc).map fun r =>
            match r with
            | .error e => .error e
            | .ok result => .ok (result, false)
        | .dnf => some (.ok (dnfArm idx ov q.conjuncts, false))

/-! ## The table -/

/-- The number of used slots. -/
def CrackCache.nUsed (cc : CrackCache) : ℕ := cc.slots.countP (·.used)

/-- The table is good for a number of further trigrams: what it keeps is right, its capacity is a
power of two, and there will be room. -/
structure CrackCache.Good (cc : CrackCache) (idx : ScanIndex) (left : ℕ) : Prop where
  right : ∀ e ∈ cc.slots, e.used = true →
    e.runsSm = resolveTrigramRuns idx e.hash ∧ e.present = (resolveTrigramRuns idx e.hash).isSome
  power : cc.slots = [] ∨ ∃ m, cc.cap = 2 ^ m
  room : cc.slots = [] ∨ cc.nUsed + left < cc.cap

section

variable {idx : ScanIndex} {cc : CrackCache} {left : ℕ}

/-- A table good for some trigrams is good for fewer. -/
theorem CrackCache.Good.mono (h : cc.Good idx left) {left' : ℕ} (hle : left' ≤ left) :
    cc.Good idx left' := by
  refine ⟨h.right, h.power, ?_⟩
  rcases h.room with hnil | hroom
  · exact Or.inl hnil
  · exact Or.inr (by omega)

/-- Doubling keeps powers of two. -/
theorem growCap_power {cap goal : ℕ} (h : ∃ m, cap = 2 ^ m) : ∃ m, growCap cap goal = 2 ^ m := by
  fun_induction growCap cap goal with
  | case1 cap hlt ih =>
    obtain ⟨m, rfl⟩ := h
    exact ih ⟨m + 1, by rw [Nat.shiftLeft_eq, ← pow_add]⟩
  | case2 cap hge => exact h

/-- The loop ends above the goal. -/
theorem le_growCap {cap goal : ℕ} (hpos : 0 < cap) : goal ≤ growCap cap goal := by
  fun_induction growCap cap goal with
  | case1 cap hlt ih =>
    apply ih
    rw [Nat.shiftLeft_eq]
    omega
  | case2 cap hge => omega

/-- The new table is good for all trigrams of the query. -/
theorem crackCacheInit_good (crackOnRead : Bool) (idx : ScanIndex) (q : TrigramQuery) :
    (crackCacheInit crackOnRead q).Good idx q.nAlts := by
  unfold crackCacheInit
  split_ifs with hoff hempty
  · exact ⟨by simp, Or.inl rfl, Or.inl rfl⟩
  · exact ⟨by simp, Or.inl rfl, Or.inl rfl⟩
  · have hcap := @le_growCap 8 (q.nAlts * 2) (by omega)
    refine ⟨?_, Or.inr ?_, Or.inr ?_⟩
    · intro e he hused
      rw [List.eq_of_mem_replicate he] at hused
      cases hused
    · simpa [CrackCache.cap] using growCap_power ⟨3, rfl⟩
    · have hunused : CrackCacheEntry.zero.used = false := rfl
      simp only [CrackCache.nUsed, CrackCache.cap, List.countP_replicate, hunused,
        List.length_replicate]
      simp only [Bool.false_eq_true, if_false]
      omega

/-- Masking with a power of two less one is the remainder. -/
theorem mask_eq_mod {m : ℕ} (hcap : cc.cap = 2 ^ m) (i : ℕ) : i &&& (cc.cap - 1) = i % cc.cap := by
  rw [hcap, Nat.and_two_pow_sub_one_eq_mod]

/-- A probe that ends has found a slot that is free or has the hash. -/
theorem crackCacheProbe_eq_some {hash : UInt64} {fuel i j : ℕ}
    (h : crackCacheProbe cc hash fuel i = some j) :
    ∃ e, cc.slots[j]? = some e ∧ (e.used = false ∨ e.hash = hash) := by
  induction fuel generalizing i with
  | zero => cases h
  | succ fuel ih =>
    rw [crackCacheProbe] at h
    cases hslot : cc.slots[i]? with
    | none => simp [hslot] at h
    | some e =>
      simp only [hslot] at h
      split_ifs at h with hfound
      · obtain rfl := Option.some.inj h
        exact ⟨e, hslot, hfound⟩
      · exact ih h

/-- A probe finds the first free slot ahead of it, if it finds nothing before. -/
theorem crackCacheProbe_ne_none {m : ℕ} (hcap : cc.cap = 2 ^ m) {hash : UInt64} {fuel i k : ℕ}
    {e : CrackCacheEntry} (hi : i < cc.cap) (hk : k < fuel)
    (hfree : cc.slots[(i + k) % cc.cap]? = some e) (hunused : e.used = false) :
    crackCacheProbe cc hash fuel i ≠ none := by
  induction fuel generalizing i k with
  | zero => omega
  | succ fuel ih =>
    rw [crackCacheProbe]
    cases hslot : cc.slots[i]? with
    | none =>
      rw [List.getElem?_eq_none_iff] at hslot
      unfold CrackCache.cap at hi
      omega
    | some e' =>
      dsimp only
      split_ifs with hfound
      · simp
      · cases k with
        | zero =>
          rw [Nat.add_zero, Nat.mod_eq_of_lt hi, hslot, Option.some.injEq] at hfree
          rw [hfree] at hfound
          exact absurd (Or.inl hunused) hfound
        | succ k =>
          rw [mask_eq_mod hcap]
          refine ih (Nat.mod_lt _ (by omega)) (by omega : k < fuel) ?_
          rw [Nat.mod_add_mod, Nat.add_right_comm, Nat.add_assoc, ← hfree]

/-- With room in the table every probe ends. -/
theorem crackCacheSlot_eq_some (hpower : ∃ m, cc.cap = 2 ^ m) (hroom : cc.nUsed < cc.cap)
    (hash : UInt64) : ∃ i e, crackCacheSlot cc hash = some i ∧ cc.slots[i]? = some e ∧
      (e.used = false ∨ e.hash = hash) := by
  obtain ⟨m, hcap⟩ := hpower
  have hfree : ∃ e ∈ cc.slots, e.used = false := by
    by_contra hall
    push Not at hall
    have hfull : cc.nUsed = cc.cap := by
      rw [CrackCache.nUsed, CrackCache.cap, List.countP_eq_length]
      intro e he
      simpa using hall e he
    omega
  obtain ⟨e, he, hunused⟩ := hfree
  obtain ⟨j, hj⟩ := List.mem_iff_getElem?.mp he
  have hjlt : j < cc.cap := (List.getElem?_eq_some_iff.mp hj).1
  have hstart : hash.toNat % 2 ^ 32 &&& (cc.cap - 1) < cc.cap := by
    rw [mask_eq_mod hcap]
    exact Nat.mod_lt _ (by omega)
  have hahead : ((hash.toNat % 2 ^ 32 &&& (cc.cap - 1)) +
      (j + cc.cap - (hash.toNat % 2 ^ 32 &&& (cc.cap - 1))) % cc.cap) % cc.cap = j := by
    rw [Nat.add_mod_mod, Nat.add_sub_cancel' (by omega), Nat.add_mod_right, Nat.mod_eq_of_lt hjlt]
  have hfound : crackCacheSlot cc hash ≠ none :=
    crackCacheProbe_ne_none hcap hstart (Nat.mod_lt _ (by omega)) (by rw [hahead]; exact hj) hunused
  obtain ⟨i, hi⟩ := Option.ne_none_iff_exists'.mp hfound
  obtain ⟨e', he', hgood⟩ := crackCacheProbe_eq_some hi
  exact ⟨i, e', hi, he', hgood⟩

/-- A slot that is filled with the union for its trigram keeps the table good. -/
theorem CrackCache.Good.set (h : cc.Good idx (left + 1)) {i : ℕ} (hi : i < cc.slots.length)
    {hash : UInt64} {present : Bool} {sm : Sm} (hsm : sm = PgTre.resolveTrigramRuns idx hash)
    (hpresent : present = (PgTre.resolveTrigramRuns idx hash).isSome) :
    CrackCache.Good ⟨cc.slots.set i ⟨hash, true, present, sm⟩⟩ idx left := by
  have hne : cc.slots ≠ [] := fun hnil => by simp [hnil] at hi
  refine ⟨fun e he hused => ?_, Or.inr ?_, Or.inr ?_⟩
  · rcases List.mem_or_eq_of_mem_set he with hold | rfl
    · exact h.right e hold hused
    · exact ⟨hsm, hpresent⟩
  · simpa [CrackCache.cap] using h.power.resolve_left hne
  · have hroom := h.room.resolve_left hne
    have hcount : (cc.slots.set i ⟨hash, true, present, sm⟩).countP (·.used) ≤
        cc.slots.countP (·.used) + 1 := by
      rw [List.countP_set hi]
      simp only [if_true]
      omega
    simp only [CrackCache.nUsed, CrackCache.cap, List.length_set] at hroom hcount ⊢
    omega

/-- A used slot holds the union for the trigram, and a free one is filled with it. -/
theorem CrackCache.Good.resolveTrigramRuns (h : cc.Good idx (left + 1)) (hash : UInt64) :
    ∃ cc', resolveTrigramRunsCracked idx hash cc = some (PgTre.resolveTrigramRuns idx hash, cc') ∧
      cc'.Good idx left := by
  unfold resolveTrigramRunsCracked
  by_cases hnil : cc.slots = []
  · exact ⟨cc, by rw [if_pos hnil], h.mono (Nat.le_succ left)⟩
  have hroom := h.room.resolve_left hnil
  obtain ⟨i, e, hslot, he, hgood⟩ :=
    crackCacheSlot_eq_some (h.power.resolve_left hnil) (by omega) hash
  have hmem := List.mem_of_getElem? he
  simp only [if_neg hnil, hslot, he]
  by_cases hused : e.used = true
  · obtain ⟨hruns, hpresent⟩ := h.right e hmem hused
    have hhash : e.hash = hash := by
      rcases hgood with hfree | hhash
      · rw [hused] at hfree
        cases hfree
      · exact hhash
    refine ⟨cc, ?_, h.mono (Nat.le_succ left)⟩
    rw [if_pos hused, hruns, hpresent, hhash]
    cases PgTre.resolveTrigramRuns idx hash with
    | none => rfl
    | some sm => rfl
  · exact ⟨_, by rw [if_neg hused], h.set (List.getElem?_eq_some_iff.mp he).1 rfl rfl⟩

/-! ## The loops -/

/-- The loop over the alternatives, from an accumulated map on. -/
theorem CrackCache.Good.resolveAlts (ov : List PendingOverlayEntry) {alts : List TrigramDisjunct}
    (h : cc.Good idx (left + alts.length)) (accum : Sm) :
    ∃ cc', resolveAltsCracked idx ov alts accum cc = some (alts.foldl (fun accum a =>
        smAccumulate accum (smAccumulate (PgTre.resolveTrigramRuns idx a.trigramHash)
          (overlayLookup ov a.trigramHash))) accum, cc') ∧ cc'.Good idx left := by
  induction alts generalizing accum cc with
  | nil => exact ⟨cc, rfl, h⟩
  | cons a alts ih =>
    obtain ⟨cc₁, hstep, hgood⟩ := h.resolveTrigramRuns a.trigramHash
    obtain ⟨cc', hrest, hgood'⟩ := ih hgood (smAccumulate accum
      (smAccumulate (PgTre.resolveTrigramRuns idx a.trigramHash) (overlayLookup ov a.trigramHash)))
    refine ⟨cc', ?_, hgood'⟩
    rw [resolveAltsCracked, hstep]
    exact hrest

/-- A conjunct resolves to the same map. -/
theorem CrackCache.Good.resolveConjunct (ov : List PendingOverlayEntry) {conj : TrigramConjunct}
    (h : cc.Good idx (left + conj.alts.length)) :
    ∃ cc', resolveConjunctCracked idx ov conj cc =
      some (resolveConjunctWithOverlay idx ov conj, cc') ∧ cc'.Good idx left :=
  h.resolveAlts ov none

/-- The loop over conjuncts ends with the same map, whether it stops early or not. -/
theorem CrackCache.Good.conjoin (ov : List PendingOverlayEntry) {conjs : List TrigramConjunct}
    (h : cc.Good idx (left + (conjs.map (·.alts.length)).sum)) (result : Sm) :
    ∃ cc', conjoinCracked idx ov conjs result cc =
      some (smConjoin (conjs.map (resolveConjunctWithOverlay idx ov)) result, cc') ∧
        cc'.Good idx left := by
  induction conjs generalizing result cc with
  | nil => exact ⟨cc, rfl, h⟩
  | cons conj conjs ih =>
    rw [List.map_cons, List.sum_cons] at h
    obtain ⟨cc₁, hstep, hgood⟩ := (h.mono (by omega) :
      cc.Good idx (left + (conjs.map (·.alts.length)).sum + conj.alts.length)).resolveConjunct ov
    rw [conjoinCracked, hstep, List.map_cons]
    cases hmap : resolveConjunctWithOverlay idx ov conj with
    | none => exact ⟨cc₁, rfl, hgood.mono (by omega)⟩
    | some sm =>
      cases result with
      | none => exact ih hgood (some sm)
      | some result =>
        simp only [smConjoin]
        cases smIntersection result sm with
        | none => exact ⟨cc₁, rfl, hgood.mono (by omega)⟩
        | some merged => exact ih hgood (some merged)

/-- The loop over pieces ends with the same map or the same error. -/
theorem CrackCache.Good.unitePieces (ov : List PendingOverlayEntry) {pieces : List TrigramConjunct}
    (h : cc.Good idx (left + (pieces.map (·.alts.length)).sum)) (result : Sm) :
    unitePiecesCracked idx ov pieces result cc = some (smUnitePieces (pieces.map fun piece =>
      smConjoin (piece.alts.map fun a => resolveConjunctWithOverlay idx ov ⟨[a]⟩) none) result) := by
  induction pieces generalizing result cc with
  | nil => rfl
  | cons piece pieces ih =>
    have hlen : ((piece.alts.map fun a => (⟨[a]⟩ : TrigramConjunct)).map (·.alts.length)).sum =
        piece.alts.length := by
      simp [Function.comp_def]
    rw [List.map_cons, List.sum_cons] at h
    obtain ⟨cc₁, hstep, hgood⟩ := @CrackCache.Good.conjoin idx cc
      (left + (pieces.map (·.alts.length)).sum) ov (piece.alts.map fun a => ⟨[a]⟩)
      (by rw [hlen]; exact h.mono (by omega)) none
    rw [List.map_map, Function.comp_def] at hstep
    rw [unitePiecesCracked, hstep, List.map_cons]
    cases hmap : smConjoin (piece.alts.map fun a => resolveConjunctWithOverlay idx ov ⟨[a]⟩) none with
    | none => exact ih hgood result
    | some sm =>
      cases result with
      | none => exact ih hgood (some sm)
      | some result =>
        simp only [smUnitePieces]
        cases smUnion result sm with
        | none => rfl
        | some u => exact ih hgood (some u)

end

/-- The cache changes nothing: with either setting the scan ends with the same candidates. -/
theorem treComputeCandidateSmCracked_eq (crackOnRead : Bool) (idx : ScanIndex) (q : TrigramQuery) :
    treComputeCandidateSmCracked crackOnRead idx q = some (treComputeCandidateSm idx q) := by
  have hgood : (crackCacheInit crackOnRead q).Good idx (0 + (q.conjuncts.map (·.alts.length)).sum) := by
    rw [Nat.zero_add]
    exact crackCacheInit_good crackOnRead idx q
  unfold treComputeCandidateSmCracked treComputeCandidateSm
  split_ifs with htrue
  · rfl
  · cases overlayBuild idx q with
    | error e => rfl
    | ok ov =>
      dsimp only
      cases q.mode with
      | cnf =>
        obtain ⟨cc', hloop, -⟩ := hgood.conjoin ov none
        simp only [hloop, Option.map_some]
      | dnf => rfl
      | pieces =>
        rw [hgood.unitePieces ov none]
        cases smUnitePieces (q.conjuncts.map fun piece =>
            smConjoin (piece.alts.map fun a => resolveConjunctWithOverlay idx ov ⟨[a]⟩) none) none with
        | error e => simp only [Option.map_some]
        | ok result => simp only [Option.map_some]

end PgTre
