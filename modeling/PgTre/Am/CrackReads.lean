import PgTre.Am.ScanMemory

/-!
# Calls through the crack cache

`resolve_trigram_runs` is called for one trigram of a query after the other, in any order and any
number of times. The cache keeps what a first call read. A copy out of the cache or into it may
fail, and then the runs are read again. Whatever copies fail, each call returns what it returns
without the cache.

A slot that is filled stays, so that a search for its hash ends there ever after. Hence no hash has
two slots, and the table never fills up.
-/

namespace PgTre

open Allocating

/-! ## Reading the runs -/

/-- A union that raises on failure has no guarded request. -/
theorem unguarded_requestUnion (a b : Finset ℕ) : (requestUnion false a b).Unguarded :=
  ⟨rfl, fun _ => trivial⟩

/-- The accumulating union has no guarded request. -/
theorem unguarded_requestAccumulate (accum sm : Sm) : (requestAccumulate accum sm).Unguarded := by
  cases sm with
  | none => trivial
  | some s =>
    cases accum with
    | none => trivial
    | some a => exact unguarded_requestUnion a s

/-- The carry of one leaf has no guarded request. -/
theorem unguarded_carryLeafRequesting (root : BlockNumber) (slots : List Sm) (sm : Finset ℕ) :
    (carryLeafRequesting root slots sm).Unguarded := by
  induction slots generalizing sm with
  | nil => trivial
  | cons slot slots ih =>
    cases slot with
    | none => trivial
    | some a =>
      rw [carryLeafRequesting]
      apply (unguarded_requestUnion a sm).bind
      intro u
      cases u with
      | none => trivial
      | some merged =>
        apply (ih merged).bind
        intro result
        cases result with
        | error stop => trivial
        | ok slots => trivial

/-- The carry over all leaves has no guarded request. -/
theorem unguarded_carryLeavesRequesting (root : BlockNumber) (leaves : List (Finset ℕ))
    (slots : List Sm) : (carryLeavesRequesting root leaves slots).Unguarded := by
  induction leaves generalizing slots with
  | nil => trivial
  | cons leaf leaves ih =>
    rw [carryLeavesRequesting]
    apply (unguarded_obtain? leaf).bind
    intro copy
    cases copy with
    | none => trivial
    | some sm =>
      apply (unguarded_carryLeafRequesting root slots sm).bind
      intro result
      cases result with
      | error stop => trivial
      | ok slots => exact ih slots

/-- The fold of the slots has no guarded request. -/
theorem unguarded_foldSlotsRequesting (slots : List Sm) (sm : Sm) :
    (foldSlotsRequesting slots sm).Unguarded := by
  induction slots generalizing sm with
  | nil => trivial
  | cons slot slots ih =>
    cases slot with
    | none => exact ih sm
    | some a =>
      cases sm with
      | none => exact ih (some a)
      | some s =>
        rw [foldSlotsRequesting]
        apply (unguarded_requestUnion a s).bind
        intro u
        cases u with
        | none => trivial
        | some merged => exact ih (some merged)

/-- A part of the scan has no way out of a request that fails, and raises errors at most. -/
structure Plain {α : Type} (m : Scanning α) : Prop where
  unguarded : m.run.Unguarded
  errors : ∀ e, m.run.met = .error e → e.IsError

/-- A value alone is plain. -/
theorem Plain.pure {α : Type} (a : α) : Plain (Pure.pure a : Scanning α) :=
  ⟨trivial, by rintro e ⟨⟩⟩

/-- Lifting an unguarded computation gives a plain one. -/
theorem Plain.lift {α : Type} {m : Allocating α} (h : m.Unguarded) :
    Plain (liftM m : Scanning α) where
  unguarded := h.bind fun _ => trivial
  errors := by
    intro e he
    have hmet : (liftM m : Scanning α).run.met = .ok m.met := met_bind m _
    rw [hmet] at he
    cases he

/-- Plain computations compose. -/
theorem Plain.bind {α β : Type} {m : Scanning α} {f : α → Scanning β} (h : Plain m)
    (hf : ∀ a, Plain (f a)) : Plain (m >>= f) where
  unguarded := by
    apply h.unguarded.bind
    intro result
    cases result with
    | error e => trivial
    | ok a => exact (hf a).unguarded
  errors := by
    intro e he
    have hmet : (m >>= f).run.met = (ExceptT.bindCont f m.run.met).met := met_bind m.run _
    rw [hmet] at he
    cases hresult : m.run.met with
    | error e' =>
      rw [hresult] at he
      cases he
      exact h.errors _ hresult
    | ok a =>
      rw [hresult] at he
      exact (hf a).errors e he

/-- Reading one posting is plain. -/
theorem plain_materialize (posting : StoredPosting) : Plain (materialize posting) := by
  unfold materialize
  split_ifs with hnil
  · exact .lift (unguarded_obtain? ∅)
  · apply Plain.bind (.lift (unguarded_carryLeavesRequesting _ _ _))
    intro result
    cases result with
    | ok slots => exact .lift (unguarded_foldSlotsRequesting slots none)
    | error stop =>
      cases stop with
      | null => exact .pure none
      | error e => exact ⟨trivial, by rintro e ⟨⟩; trivial⟩

/-- Uniting the runs' postings is plain. -/
theorem plain_uniteRuns (idx : StoredIndex) (h : UInt64) (runs : List PgTreRun) (sm : Sm) :
    Plain (uniteRuns idx h runs sm) := by
  induction runs generalizing sm with
  | nil => exact .pure sm
  | cons run rest ih =>
    rw [uniteRuns]
    split_ifs with hskip
    · exact ih sm
    · have hlookup : Plain (lookupRoot idx run.rootUpper h) := by
        unfold lookupRoot
        cases (idx.treeAt run.rootUpper).lookup h with
        | none => exact .pure none
        | some s => exact plain_materialize _
      apply hlookup.bind
      intro found
      apply (Plain.lift (unguarded_requestAccumulate sm found)).bind
      exact ih

/-- What a call reads of an index that stays as it is. -/
def readRuns (idx : StoredIndex) (h : UInt64) : Except ScanStop Sm :=
  (uniteRuns idx h idx.iterate none).run.met

/-! ## The cache -/

/-- What a slot answers. -/
def CrackCacheEntry.answer (e : CrackCacheEntry) : Sm := if e.present then e.runsSm else none

/-- The cache answers for trigrams of the query alone, each search for one it answers for ends at
its slot, and it has more slots than the query has trigrams. -/
structure CrackCache.Serves (cc : CrackCache) (idx : StoredIndex) (q : TrigramQuery) : Prop where
  answers : ∀ e ∈ cc.slots, e.used = true → readRuns idx e.hash = .ok e.answer
  listed : ∀ e ∈ cc.slots, e.used = true → q.Lists e.hash
  found : ∀ i e, cc.slots[i]? = some e → e.used = true → crackCacheSlot cc e.hash = some i
  power : cc.slots = [] ∨ ∃ m, cc.cap = 2 ^ m
  room : cc.slots = [] ∨ q.nAlts < cc.cap

section

variable {idx : StoredIndex} {q : TrigramQuery} {cc : CrackCache}

/-- The hashes the cache answers for. -/
def CrackCache.usedHashes (cc : CrackCache) : List UInt64 := (cc.slots.filter (·.used)).map (·.hash)

/-- Each of them has one slot. -/
theorem CrackCache.Serves.nodup_usedHashes (h : cc.Serves idx q) : cc.usedHashes.Nodup := by
  have hdistinct : cc.slots.Pairwise fun e e' => e.used = true → e'.used = true → e.hash ≠ e'.hash := by
    rw [List.pairwise_iff_getElem]
    intro i j hi hj hlt hused hused' heq
    have hfirst := h.found i _ (List.getElem?_eq_getElem hi) hused
    have hsecond := h.found j _ (List.getElem?_eq_getElem hj) hused'
    rw [heq, hsecond] at hfirst
    have hij := Option.some.inj hfirst
    omega
  unfold CrackCache.usedHashes List.Nodup
  rw [List.pairwise_map, List.pairwise_filter]
  exact hdistinct.imp fun hne hused hused' => hne hused hused'

/-- There are no more of them than the query lists. -/
theorem CrackCache.Serves.nUsed_le (h : cc.Serves idx q) : cc.nUsed ≤ q.nAlts := by
  let listed := q.conjuncts.flatMap fun c => c.alts.map (·.trigramHash)
  have hsub : cc.usedHashes ⊆ listed := by
    intro hash hmem
    obtain ⟨e, he, rfl⟩ := List.mem_map.mp hmem
    obtain ⟨hmem, hused⟩ := List.mem_filter.mp he
    obtain ⟨c, hc, a, ha, heq⟩ := h.listed e hmem hused
    apply List.mem_flatMap.mpr
    exact ⟨c, hc, List.mem_map.mpr ⟨a, ha, heq⟩⟩
  have hle := (List.subperm_of_subset h.nodup_usedHashes hsub).length_le
  have hused : cc.usedHashes.length = cc.nUsed := by
    rw [CrackCache.usedHashes, List.length_map, CrackCache.nUsed, List.countP_eq_length_filter]
  have hlisted : listed.length = q.nAlts := by
    simp [listed, TrigramQuery.nAlts, List.length_flatMap]
  omega

/-- The new cache serves the query. -/
theorem crackCacheInit_serves (crackOnRead : Bool) (idx : StoredIndex) (q : TrigramQuery) :
    (crackCacheInit crackOnRead q).Serves idx q := by
  have hgood := crackCacheInit_good crackOnRead idx.toScanIndex q
  have hunused : ∀ e ∈ (crackCacheInit crackOnRead q).slots, ¬e.used = true := by
    intro e he hused
    unfold crackCacheInit at he
    split_ifs at he
    · simp at he
    · simp at he
    · rw [List.eq_of_mem_replicate he] at hused
      cases hused
  refine ⟨fun e he hused => ?_, fun e he hused => ?_, fun i e hget hused => ?_, hgood.power, ?_⟩
  · exact absurd hused (hunused e he)
  · exact absurd hused (hunused e he)
  · exact absurd hused (hunused e (List.mem_of_getElem? hget))
  · apply hgood.room.imp_right
    intro hroom
    omega

/-- Filling a free slot keeps what a probe finds elsewhere, and what it finds there. -/
theorem crackCacheProbe_set {entry slot : CrackCacheEntry} {i : ℕ} (hfree : cc.slots[i]? = some slot)
    (hunused : slot.used = false) {hash : UInt64} {fuel s j : ℕ}
    (hprobe : crackCacheProbe cc hash fuel s = some j) (hj : j = i → entry.hash = hash) :
    crackCacheProbe ⟨cc.slots.set i entry⟩ hash fuel s = some j := by
  have hi : i < cc.slots.length := (List.getElem?_eq_some_iff.mp hfree).1
  induction fuel generalizing s with
  | zero => cases hprobe
  | succ fuel ih =>
    rw [crackCacheProbe] at hprobe ⊢
    by_cases hs : s = i
    · subst hs
      simp only [hfree, hunused, true_or, if_true, Option.some.injEq] at hprobe
      have hentry := hj hprobe.symm
      subst hprobe
      simp only [List.getElem?_set_self hi, hentry, or_true, if_true]
    · have hsame : (cc.slots.set i entry)[s]? = cc.slots[s]? := List.getElem?_set_ne fun h => hs h.symm
      simp only [hsame]
      cases hget : cc.slots[s]? with
      | none => simp [hget] at hprobe
      | some e =>
        simp only [hget] at hprobe ⊢
        split_ifs at hprobe ⊢ with hstop
        · exact hprobe
        · have hcap : (⟨cc.slots.set i entry⟩ : CrackCache).cap = cc.cap := by simp [CrackCache.cap]
          rw [hcap]
          exact ih hprobe

/-- A slot that is filled with what was read keeps the cache. -/
theorem CrackCache.Serves.fill (hserves : cc.Serves idx q) {i : ℕ} {slot entry : CrackCacheEntry}
    (hprobe : crackCacheSlot cc entry.hash = some i) (hfree : cc.slots[i]? = some slot)
    (hunused : slot.used = false) (hlists : q.Lists entry.hash)
    (hread : readRuns idx entry.hash = .ok entry.answer) :
    CrackCache.Serves ⟨cc.slots.set i entry⟩ idx q := by
  have hi : i < cc.slots.length := (List.getElem?_eq_some_iff.mp hfree).1
  have hne : cc.slots ≠ [] := by
    intro hnil
    simp [hnil] at hi
  have hcap : (⟨cc.slots.set i entry⟩ : CrackCache).cap = cc.cap := by simp [CrackCache.cap]
  constructor
  · intro e he hused
    rcases List.mem_or_eq_of_mem_set he with hold | rfl
    · exact hserves.answers e hold hused
    · exact hread
  · intro e he hused
    rcases List.mem_or_eq_of_mem_set he with hold | rfl
    · exact hserves.listed e hold hused
    · exact hlists
  · intro j e hget hused
    unfold crackCacheSlot at hprobe ⊢
    rw [hcap]
    by_cases hj : j = i
    · subst hj
      rw [List.getElem?_set_self hi, Option.some.injEq] at hget
      subst hget
      exact crackCacheProbe_set hfree hunused hprobe fun _ => rfl
    · rw [List.getElem?_set_ne fun h => hj h.symm] at hget
      exact crackCacheProbe_set hfree hunused (hserves.found j e hget hused) fun h => absurd h hj
  · apply Or.inr
    rw [hcap]
    exact hserves.power.resolve_left hne
  · apply Or.inr
    rw [hcap]
    exact hserves.room.resolve_left hne

/-- A call through the cache returns what was read, and the cache goes on serving. -/
theorem CrackCache.Serves.resolveRuns (hserves : cc.Serves idx q) {h : UInt64} (hlists : q.Lists h) :
    (PgTre.resolveRuns idx h cc).run.Ensures true fun r =>
      match r with
      | .ok r => readRuns idx h = .ok r.1 ∧ r.2.Serves idx q
      | .error e => readRuns idx h = .error e := by
  have hread : (uniteRuns idx h idx.iterate none).run.Ensures true (· = readRuns idx h) :=
    (plain_uniteRuns idx h idx.iterate none).unguarded.ensures
  have hagain : (do pure (← uniteRuns idx h idx.iterate none, cc) : Scanning _).run.Ensures true
      fun r => match r with
      | .ok r => readRuns idx h = .ok r.1 ∧ r.2.Serves idx q
      | .error e => readRuns idx h = .error e := by
    apply Ensures.bind hread
    intro result hresult
    cases result with
    | error e => exact hresult.symm
    | ok sm => exact ⟨hresult.symm, hserves⟩
  unfold PgTre.resolveRuns
  by_cases hnil : cc.slots = []
  · rw [if_pos hnil]
    exact hagain
  have hroom := hserves.room.resolve_left hnil
  have hused := hserves.nUsed_le
  obtain ⟨i, slot, hslot, hget, hstop⟩ :=
    crackCacheSlot_eq_some (hserves.power.resolve_left hnil) (by omega) h
  simp only [if_neg hnil, hslot, hget]
  by_cases hfilled : slot.used = true
  · have hhash : slot.hash = h := hstop.resolve_left (by simp [hfilled])
    have hanswer := hserves.answers slot (List.mem_of_getElem? hget) hfilled
    rw [hhash, CrackCacheEntry.answer] at hanswer
    rw [if_pos hfilled]
    cases hruns : (if slot.present then slot.runsSm else none) with
    | none =>
      rw [hruns] at hanswer
      exact ⟨hanswer, hserves⟩
    | some runsSm =>
      rw [hruns] at hanswer
      -- The copy for the caller may fail, and then the runs are read again.
      exact ⟨⟨hanswer, hserves⟩, fun _ _ => hagain⟩
  · have hunused : slot.used = false := by simpa using hfilled
    rw [if_neg hfilled]
    apply Ensures.bind hread
    intro result hresult
    cases result with
    | error e => exact hresult.symm
    | ok sm =>
      cases sm with
      | none =>
        exact ⟨hresult.symm, @CrackCache.Serves.fill idx q cc hserves i slot ⟨h, true, false, none⟩
          hslot hget hunused hlists hresult.symm⟩
      | some s =>
        -- So may the copy for the cache, and then the slot stays free.
        exact ⟨⟨hresult.symm, @CrackCache.Serves.fill idx q cc hserves i slot ⟨h, true, true, some s⟩
          hslot hget hunused hlists hresult.symm⟩, fun _ _ => ⟨hresult.symm, hserves⟩⟩

end

/-! ## A sequence of calls -/

/-- The calls for the given hashes, one after the other, and what they return. -/
def resolveAll (idx : StoredIndex) : List UInt64 → CrackCache → Scanning (List Sm)
  | [], _ => pure []
  | h :: hs, cc => do
      let r ← resolveRuns idx h cc
      let rest ← resolveAll idx hs r.2
      pure (r.1 :: rest)

/-- Without the cache the calls read the runs, one after the other. -/
def readAll (idx : StoredIndex) (hs : List UInt64) : Except ScanStop (List Sm) :=
  hs.mapM (readRuns idx)

/-- A serving cache resolves every listed hash to what the index holds of it. -/
theorem CrackCache.Serves.resolveAll {idx : StoredIndex} {q : TrigramQuery} {cc : CrackCache}
    (hserves : cc.Serves idx q) {hs : List UInt64} (hlists : ∀ h ∈ hs, q.Lists h) :
    (PgTre.resolveAll idx hs cc).run.Ensures true (· = readAll idx hs) := by
  induction hs generalizing cc with
  | nil => exact rfl
  | cons h hs ih =>
    obtain ⟨hhead, htail⟩ := List.forall_mem_cons.mp hlists
    rw [PgTre.resolveAll, readAll, List.mapM_cons]
    apply Ensures.bind (hserves.resolveRuns hhead)
    intro result hresult
    cases result with
    | error e =>
      rw [hresult]
      exact rfl
    | ok r =>
      rw [hresult.1]
      apply Ensures.bind (ih hresult.2 htail)
      intro rest hrest
      rw [hrest, readAll]
      cases hs.mapM (readRuns idx) with
      | error e => exact rfl
      | ok sms => exact rfl

/-- No call of the sequence goes round the table for ever. -/
theorem readAll_error {idx : StoredIndex} {hs : List UInt64} {e : ScanStop}
    (h : readAll idx hs = .error e) : e.IsError := by
  induction hs with
  | nil => cases h
  | cons hash hs ih =>
    rw [readAll, List.mapM_cons] at h
    cases hread : readRuns idx hash with
    | error e' =>
      rw [hread] at h
      cases h
      exact (plain_uniteRuns idx hash idx.iterate none).errors _ hread
    | ok sm =>
      rw [hread] at h
      apply ih
      rw [readAll]
      cases hrest : hs.mapM (readRuns idx) with
      | error e' =>
        rw [hrest] at h
        exact h
      | ok sms =>
        rw [hrest] at h
        cases h

/-- Whatever copies fail, the calls return with the cache what they return without it, and every
search of the cache ends. -/
theorem resolveAll_cached_eq (idx : StoredIndex) (q : TrigramQuery) (hs : List UInt64)
    (hlists : ∀ h ∈ hs, q.Lists h) (fails : ℕ → Bool)
    (hcopies : (resolveAll idx hs (crackCacheInit true q)).run.Spared fails 0) :
    let outcome := ((resolveAll idx hs (crackCacheInit true q)).run.run fails 0).1
    outcome = ((resolveAll idx hs (crackCacheInit false q)).run.run (fun _ => false) 0).1 ∧
      ∀ e, outcome = .error e → e.IsError := by
  have hcached := ((crackCacheInit_serves true idx q).resolveAll hlists).run hcopies
  have huncached := ((crackCacheInit_serves false idx q).resolveAll hlists).run_met
    (fun _ => rfl : ∀ n : ℕ, (fun _ => false) n = false) (n := 0)
  constructor
  · rw [hcached, huncached]
  · intro e he
    rw [hcached] at he
    exact readAll_error he

/-- The first copy into the cache fails, and a later one out of it. -/
def copyFails (n : ℕ) : Bool := n == 1 || n == 4

/-- Three calls for the same trigram all find the row, although the first copy into the cache fails
and the copy out of it as well. -/
theorem resolveAll_cached_eq_failing :
    let cached := resolveAll (singleRowIndex 0) [0, 0, 0] (crackCacheInit true (repeatedQuery 0 1))
    cached.run.Spared copyFails 0 ∧
      (cached.run.run copyFails 0).1 = .ok [some {1}, some {1}, some {1}] := by
  have hinit : crackCacheInit true (repeatedQuery 0 1) = ⟨List.replicate 8 .zero⟩ := by
    simp [crackCacheInit, repeatedQuery, TrigramQuery.nAlts, growCap]
  have hlists : ∀ h ∈ [(0 : UInt64), 0, 0], (repeatedQuery 0 1).Lists h := by
    intro h hmem
    obtain rfl : h = 0 := by simpa using hmem
    exact ⟨_, List.mem_singleton_self _, _, List.mem_singleton_self _, rfl⟩
  have hcopies : (resolveAll (singleRowIndex 0) [0, 0, 0]
      (crackCacheInit true (repeatedQuery 0 1))).run.Spared copyFails 0 := by
    rw [hinit]
    apply And.intro (fun _ => rfl)
    apply And.intro (fun h => by cases h)
    apply And.intro (fun _ => rfl)
    apply And.intro (fun h => by cases h)
    apply And.intro (fun h => by cases h)
    apply And.intro (fun _ => rfl)
    trivial
  have heq := (resolveAll_cached_eq (singleRowIndex 0) (repeatedQuery 0 1) [0, 0, 0] hlists copyFails
    hcopies).1
  exact ⟨hcopies, heq.trans rfl⟩

end PgTre
