import PgTre.Util.TypePattern
import Mathlib.Data.Fintype.Basic
import Mathlib.Logic.Relation

/-!
# The cache of compiled patterns

A session keeps 32 compiled patterns. A scan pins the one it uses, so that looking up other patterns
does not evict it, and gives it back when it is done. The matcher's allocator hands out addresses, and
an address that was freed may come again.
-/

namespace PgTre

/-- `TRE_CACHE_SLOTS`. -/
abbrev treCacheSlots : ℕ := 32

/-- `TRE_MAX_PATTERN_LEN`. -/
def treMaxPatternLen : ℕ := 64 * 1024

/-- The address of a compiled pattern. -/
abbrev CompiledHandle := ℕ

/-- `TreCacheSlot`. -/
@[ext] structure TreCacheSlot where
  pattern : List UInt8
  collation : ℕ
  compiled : Option CompiledHandle
  lastUsed : ℕ
  pinned : ℤ

/-- A slot as `palloc0` and `evict_slot` leave it. -/
def TreCacheSlot.vacant : TreCacheSlot := ⟨[], 0, none, 0, 0⟩

/-- `cache_slots` and `cache_clock`. -/
structure TreCache where
  slots : Fin treCacheSlots → TreCacheSlot
  clock : ℕ

/-- The next value of `cache_clock`. -/
def TreCache.tick (cache : TreCache) : ℕ := (cache.clock + 1) % 2 ^ 64

/-- A slot replaced. -/
def TreCache.put (cache : TreCache) (i : Fin treCacheSlots) (slot : TreCacheSlot) (clock : ℕ) :
    TreCache :=
  ⟨Function.update cache.slots i slot, clock⟩

/-- The slot that was put is read back. -/
@[simp] theorem TreCache.put_slots_self (cache : TreCache) (i : Fin treCacheSlots) (slot : TreCacheSlot)
    (clock : ℕ) : (cache.put i slot clock).slots i = slot := by
  rw [put]
  dsimp only
  rw [Function.update_self]

/-- Putting a slot leaves the others alone. -/
theorem TreCache.put_slots_of_ne {cache : TreCache} {i j : Fin treCacheSlots} (h : j ≠ i)
    (slot : TreCacheSlot) (clock : ℕ) : (cache.put i slot clock).slots j = cache.slots j := by
  rw [put]
  dsimp only
  rw [Function.update_of_ne h]

/-- The search through the entries. -/
def TreCache.find (cache : TreCache) (pattern : List UInt8) (collation : ℕ) :
    Option (Fin treCacheSlots) :=
  (List.finRange treCacheSlots).find? fun i =>
    (cache.slots i).compiled.isSome && decide ((cache.slots i).collation = collation) &&
      decide ((cache.slots i).pattern = pattern)

/-- The slot that was used longer ago. -/
def TreCache.older (cache : TreCache) (target : Option (Fin treCacheSlots)) (i : Fin treCacheSlots) :
    Fin treCacheSlots :=
  match target with
  | none => i
  | some j => if (cache.slots i).lastUsed < (cache.slots j).lastUsed then i else j

/-- The search for an empty slot, or the least recently used one that is not pinned. -/
def TreCache.targetFrom (cache : TreCache) :
    List (Fin treCacheSlots) → Option (Fin treCacheSlots) → Option (Fin treCacheSlots)
  | [], target => target
  | i :: rest, target =>
      if (cache.slots i).compiled = none then some i
      else if 0 < (cache.slots i).pinned then cache.targetFrom rest target
      else cache.targetFrom rest (some (cache.older target i))

def TreCache.target (cache : TreCache) : Option (Fin treCacheSlots) :=
  cache.targetFrom (List.finRange treCacheSlots) none

/-- What becomes of `tre_compile_pattern`, with what is checked before and after it: an error, or a
compiled pattern with a number of states. -/
inductive CompileResult
  | failed (e : PgError)
  | compiled (h : CompiledHandle) (numStates : ℤ)

/-- What an operation on the cache does: the handle it returns, the cache it leaves, the compiled
pattern that was allocated, and the one that was freed. -/
structure CacheEffect where
  result : Except PgError (Option CompiledHandle)
  cache : TreCache
  allocated : Option CompiledHandle
  freed : Option CompiledHandle

/-- `tre_cache_lookup_internal` behind a miss. Without memory for the copy of the pattern the slot stays
empty and the compiled pattern is lost. -/
def TreCache.store (cache : TreCache) (pattern : List UInt8) (collation : ℕ) (pin memory : Bool)
    (h : CompiledHandle) : CacheEffect :=
  match cache.target with
  | none => ⟨.ok (some h), cache, some h, none⟩
  | some i =>
      let freed := (cache.slots i).compiled
      if memory then
        ⟨.ok (some h), cache.put i ⟨pattern, collation, some h, cache.tick, if pin then 1 else 0⟩
          cache.tick, some h, freed⟩
      else ⟨.error ⟨"out of memory"⟩, cache.put i .vacant cache.clock, some h, freed⟩

/-- `tre_cache_lookup_internal`. -/
def TreCache.lookupInternal (maxNfaStates : ℤ) (cache : TreCache) (pattern : List UInt8) (collation : ℕ)
    (pin : Bool) (compile : CompileResult) (memory : Bool) : CacheEffect :=
  if treMaxPatternLen < pattern.length then
    let len := pattern.length
    let limit := treMaxPatternLen
    ⟨.error ⟨s!"pg_tre: regex pattern length {len} exceeds maximum {limit}"⟩, cache, none, none⟩
  else
    match cache.find pattern collation with
    | some i =>
        let slot := cache.slots i
        let pinned := if pin then toInt32 (slot.pinned + 1) else slot.pinned
        ⟨.ok slot.compiled, cache.put i { slot with lastUsed := cache.tick, pinned := pinned }
          cache.tick, none, none⟩
    | none =>
        match compile with
        | .failed e => ⟨.error e, cache, none, none⟩
        | .compiled h numStates =>
            if numStates < 0 then
              ⟨.error ⟨s!"pg_tre: compiled regex reported an invalid NFA state count ({numStates})"⟩,
                cache, some h, some h⟩
            else if maxNfaStates < numStates then
              ⟨.error ⟨s!"pg_tre: regex compiles to {numStates} NFA states, " ++
                s!"exceeding pg_tre.max_nfa_states = {maxNfaStates}"⟩, cache, some h, some h⟩
            else cache.store pattern collation pin memory h

/-- `tre_cache_release` of a handle. -/
def TreCache.release (cache : TreCache) (h : CompiledHandle) : CacheEffect :=
  match (List.finRange treCacheSlots).find? fun i => decide ((cache.slots i).compiled = some h) with
  | some i =>
      let slot := cache.slots i
      let pinned := if 0 < slot.pinned then slot.pinned - 1 else slot.pinned
      ⟨.ok none, cache.put i { slot with pinned := pinned } cache.clock, none, none⟩
  | none => ⟨.ok none, cache, none, some h⟩

/-! ## A session -/

/-- The cache, what is compiled at each address, and how often each handle is held by a caller that
pinned it. -/
structure CacheSession where
  cache : TreCache
  heap : CompiledHandle → Option (List UInt8 × ℕ)
  pins : CompiledHandle → ℕ

/-- `tre_cache_lookup` and `tre_cache_lookup_pinned`, and `tre_cache_release`. -/
inductive CacheOp
  | lookup (pattern : List UInt8) (collation : ℕ) (pin : Bool) (compile : CompileResult) (memory : Bool)
  | release (h : CompiledHandle)

/-- A compiled pattern lies where none is, and a handle is released for a pin that is held. -/
def CacheOp.Allowed (s : CacheSession) : CacheOp → Prop
  | lookup _ _ _ compile _ => ∀ h numStates, compile = .compiled h numStates → s.heap h = none
  | release h => 0 < s.pins h

def CacheOp.effect (maxNfaStates : ℤ) (s : CacheSession) : CacheOp → CacheEffect
  | lookup pattern collation pin compile memory =>
      s.cache.lookupInternal maxNfaStates pattern collation pin compile memory
  | release h => s.cache.release h

/-- What lies at the addresses once the operation has compiled its pattern, before anything is freed. -/
def CacheOp.compiledHeap (s : CacheSession) (eff : CacheEffect) :
    CacheOp → CompiledHandle → Option (List UInt8 × ℕ)
  | lookup pattern collation _ _ _ =>
      match eff.allocated with
      | none => s.heap
      | some h => Function.update s.heap h (some (pattern, collation))
  | release _ => s.heap

/-- The pins that are held, with the one that the operation takes or gives back. -/
def CacheOp.pinsAfter (s : CacheSession) (eff : CacheEffect) : CacheOp → CompiledHandle → ℕ
  | lookup _ _ pin _ _ =>
      match pin, eff.result with
      | true, .ok (some h) => Function.update s.pins h (s.pins h + 1)
      | _, _ => s.pins
  | release h => Function.update s.pins h (s.pins h - 1)

/-- The session after an effect of an operation. -/
def CacheOp.after (s : CacheSession) (op : CacheOp) (eff : CacheEffect) : CacheSession where
  cache := eff.cache
  heap :=
    match eff.freed with
    | none => op.compiledHeap s eff
    | some h => Function.update (op.compiledHeap s eff) h none
  pins := op.pinsAfter s eff

def CacheOp.run (maxNfaStates : ℤ) (s : CacheSession) (op : CacheOp) : CacheSession :=
  op.after s (op.effect maxNfaStates s)

/-- `tre_cache_init`. -/
def CacheSession.start : CacheSession := ⟨⟨fun _ => .vacant, 0⟩, fun _ => none, fun _ => 0⟩

/-- The sessions that operations lead to, all of them with a property. -/
inductive CacheReachable (maxNfaStates : ℤ) (ok : CacheSession → Prop) : CacheSession → Prop
  | start : CacheReachable maxNfaStates ok .start
  | step {s : CacheSession} (op : CacheOp) : CacheReachable maxNfaStates ok s → op.Allowed s →
      ok (op.run maxNfaStates s) → CacheReachable maxNfaStates ok (op.run maxNfaStates s)

/-- One operation after another. -/
def CacheSession.Step (maxNfaStates : ℤ) (s t : CacheSession) : Prop :=
  ∃ op : CacheOp, op.Allowed s ∧ t = op.run maxNfaStates s

/-- A counter of pins has not run over. -/
def CacheSession.FewPins (s : CacheSession) : Prop := ∀ h, s.pins h < 2 ^ 31

/-! ## What an operation can do -/

/-- The outcomes of a lookup. -/
inductive LookupOutcome (cache : TreCache) (pattern : List UInt8) (collation : ℕ) (pin : Bool)
    (compile : CompileResult) (memory : Bool) : CacheEffect → Prop
  | refused (e : PgError) : LookupOutcome cache pattern collation pin compile memory
    ⟨.error e, cache, none, none⟩
  | hit (i : Fin treCacheSlots) (h : CompiledHandle) : (cache.slots i).compiled = some h →
      (cache.slots i).pattern = pattern → (cache.slots i).collation = collation →
      LookupOutcome cache pattern collation pin compile memory
        ⟨.ok (some h), cache.put i { cache.slots i with
            lastUsed := cache.tick
            pinned := if pin then toInt32 ((cache.slots i).pinned + 1) else (cache.slots i).pinned }
              cache.tick, none, none⟩
  | rejected (e : PgError) (h : CompiledHandle) (n : ℤ) : compile = .compiled h n →
      LookupOutcome cache pattern collation pin compile memory ⟨.error e, cache, some h, some h⟩
  | uncached (h : CompiledHandle) (n : ℤ) : compile = .compiled h n →
      (∀ i, (cache.slots i).compiled ≠ none ∧ 0 < (cache.slots i).pinned) →
      LookupOutcome cache pattern collation pin compile memory ⟨.ok (some h), cache, some h, none⟩
  | stored (i : Fin treCacheSlots) (h : CompiledHandle) (n : ℤ) : compile = .compiled h n →
      ((cache.slots i).compiled = none ∨ (cache.slots i).pinned ≤ 0) →
      LookupOutcome cache pattern collation pin compile memory
        ⟨.ok (some h), cache.put i ⟨pattern, collation, some h, cache.tick, if pin then 1 else 0⟩
          cache.tick, some h, (cache.slots i).compiled⟩
  | noMemory (e : PgError) (i : Fin treCacheSlots) (h : CompiledHandle) (n : ℤ) : memory = false →
      compile = .compiled h n →
      ((cache.slots i).compiled = none ∨ (cache.slots i).pinned ≤ 0) →
      LookupOutcome cache pattern collation pin compile memory
        ⟨.error e, cache.put i .vacant cache.clock, some h, (cache.slots i).compiled⟩

section

variable {cache : TreCache} {pattern : List UInt8} {collation : ℕ}

/-- A slot that is found is compiled from the pattern under the collation. -/
theorem TreCache.find_eq_some {i : Fin treCacheSlots} (h : cache.find pattern collation = some i) :
    (∃ c, (cache.slots i).compiled = some c) ∧ (cache.slots i).pattern = pattern ∧
      (cache.slots i).collation = collation := by
  have hfound := List.find?_some h
  simp only [Bool.and_eq_true, decide_eq_true_eq, Option.isSome_iff_exists] at hfound
  exact ⟨hfound.1.1, hfound.2, hfound.1.2⟩

/-- The older of a slot and a target is one of the two. -/
theorem TreCache.older_eq_or (cache : TreCache) (target : Option (Fin treCacheSlots))
    (i : Fin treCacheSlots) : cache.older target i = i ∨ some (cache.older target i) = target := by
  cases target with
  | none => exact Or.inl rfl
  | some j =>
    rw [older]
    split_ifs
    · exact Or.inl rfl
    · exact Or.inr rfl

/-- The slot to use is empty or not pinned. -/
theorem TreCache.targetFrom_eq_some {l : List (Fin treCacheSlots)} {target : Option (Fin treCacheSlots)}
    (htarget : ∀ j, target = some j → (cache.slots j).compiled = none ∨ (cache.slots j).pinned ≤ 0)
    {i : Fin treCacheSlots} (h : cache.targetFrom l target = some i) :
    (cache.slots i).compiled = none ∨ (cache.slots i).pinned ≤ 0 := by
  induction l generalizing target with
  | nil => exact htarget i h
  | cons j l ih =>
    rw [targetFrom] at h
    split_ifs at h with hempty hpinned
    · obtain rfl := Option.some.inj h
      exact Or.inl hempty
    · exact ih htarget h
    · refine ih ?_ h
      rintro k hk
      obtain rfl := Option.some.inj hk
      rcases TreCache.older_eq_or cache target j with hold | hold
      · rw [hold]
        exact Or.inr (not_lt.mp hpinned)
      · exact htarget _ hold.symm

/-- Without a slot to use every one is taken and pinned. -/
theorem TreCache.targetFrom_eq_none {l : List (Fin treCacheSlots)} {target : Option (Fin treCacheSlots)}
    (h : cache.targetFrom l target = none) :
    target = none ∧ ∀ i ∈ l, (cache.slots i).compiled ≠ none ∧ 0 < (cache.slots i).pinned := by
  induction l generalizing target with
  | nil => exact ⟨h, by simp⟩
  | cons j l ih =>
    rw [targetFrom] at h
    split_ifs at h with hempty hpinned
    · obtain ⟨htarget, hrest⟩ := ih h
      exact ⟨htarget, List.forall_mem_cons.mpr ⟨⟨hempty, hpinned⟩, hrest⟩⟩
    · exact absurd (ih h).1 (Option.some_ne_none _)

/-- Every lookup has one of the outcomes. -/
theorem lookupOutcome (maxNfaStates : ℤ) (cache : TreCache) (pattern : List UInt8) (collation : ℕ)
    (pin : Bool) (compile : CompileResult) (memory : Bool) :
    LookupOutcome cache pattern collation pin compile memory
      (cache.lookupInternal maxNfaStates pattern collation pin compile memory) := by
  unfold TreCache.lookupInternal
  by_cases hlen : treMaxPatternLen < pattern.length
  · rw [if_pos hlen]
    exact .refused _
  · rw [if_neg hlen]
    cases hfind : cache.find pattern collation with
    | some i =>
      obtain ⟨⟨h, hcompiled⟩, hpattern, hcollation⟩ := TreCache.find_eq_some hfind
      have hhit := @LookupOutcome.hit cache pattern collation pin compile memory i h hcompiled
          hpattern hcollation
      rw [← hcompiled] at hhit
      exact hhit
    | none =>
      cases hcompile : compile with
      | failed e => exact .refused e
      | compiled h n =>
        dsimp only
        split_ifs with hneg hmany
        · exact .rejected _ h n rfl
        · exact .rejected _ h n rfl
        · unfold TreCache.store
          cases htarget : cache.target with
          | none =>
            have hall := (TreCache.targetFrom_eq_none htarget).2
            exact .uncached h n rfl fun i => hall i (List.mem_finRange i)
          | some i =>
            have hfree := TreCache.targetFrom_eq_some (fun j hj => by cases hj) htarget
            dsimp only
            cases memory with
            | true => exact .stored i h n rfl hfree
            | false => exact .noMemory _ i h n rfl rfl hfree

/-- The outcomes of a release. -/
theorem release_cases (cache : TreCache) (h : CompiledHandle) :
    (∃ i, (cache.slots i).compiled = some h ∧
      cache.release h = ⟨.ok none, cache.put i { cache.slots i with
        pinned := if 0 < (cache.slots i).pinned then (cache.slots i).pinned - 1
          else (cache.slots i).pinned } cache.clock, none, none⟩) ∨
    (∀ i, (cache.slots i).compiled ≠ some h) ∧ cache.release h = ⟨.ok none, cache, none, some h⟩ := by
  unfold TreCache.release
  cases hfind : (List.finRange treCacheSlots).find? fun i =>
    decide ((cache.slots i).compiled = some h) with
  | some i =>
    have hfound := List.find?_some hfind
    exact Or.inl ⟨i, of_decide_eq_true hfound, rfl⟩
  | none =>
    refine Or.inr ⟨fun i hi => ?_, rfl⟩
    exact List.find?_eq_none.mp hfind i (List.mem_finRange i) (decide_eq_true hi)

end

/-! ## Ownership -/

/-- The entries of the cache are compiled from their keys, and each counts the pins that are held on its
handle. A handle outside the cache that is held has one pin. -/
structure CacheSession.Sound (s : CacheSession) : Prop where
  distinct : ∀ i j h, (s.cache.slots i).compiled = some h → (s.cache.slots j).compiled = some h → i = j
  compiled : ∀ i h, (s.cache.slots i).compiled = some h →
    s.heap h = some ((s.cache.slots i).pattern, (s.cache.slots i).collation)
  counted : ∀ i h, (s.cache.slots i).compiled = some h → (s.cache.slots i).pinned = s.pins h
  uncached : ∀ h, 0 < s.pins h → (∀ i, (s.cache.slots i).compiled ≠ some h) →
    s.pins h = 1 ∧ s.heap h ≠ none

section

variable {s : CacheSession} {h : CompiledHandle}

/-- A handle that is held is compiled. -/
theorem CacheSession.Sound.live (hs : s.Sound) (hpins : 0 < s.pins h) : s.heap h ≠ none := by
  by_cases hcached : ∀ i, (s.cache.slots i).compiled ≠ some h
  · exact (hs.uncached h hpins hcached).2
  · push Not at hcached
    obtain ⟨i, hi⟩ := hcached
    rw [hs.compiled i h hi]
    exact Option.some_ne_none _

/-- Nobody holds an address where nothing is compiled, and it is in no slot. -/
theorem CacheSession.Sound.fresh (hs : s.Sound) (hheap : s.heap h = none) :
    s.pins h = 0 ∧ ∀ i, (s.cache.slots i).compiled ≠ some h := by
  constructor
  · by_contra hpins
    exact hs.live (Nat.pos_of_ne_zero hpins) hheap
  · intro i hi
    rw [hs.compiled i h hi] at hheap
    cases hheap

/-- An entry that is not pinned is held by nobody. -/
theorem CacheSession.Sound.unheld (hs : s.Sound) {i : Fin treCacheSlots}
    (hfree : (s.cache.slots i).compiled = none ∨ (s.cache.slots i).pinned ≤ 0)
    (hcompiled : (s.cache.slots i).compiled = some h) : s.pins h = 0 := by
  rcases hfree with hnone | hpinned
  · rw [hnone] at hcompiled
    cases hcompiled
  · rw [hs.counted i h hcompiled] at hpinned
    omega

/-- An entry that is used again keeps its handle, with as many pins as its counter says. -/
theorem CacheSession.Sound.retouch (hs : s.Sound) {i : Fin treCacheSlots} {lastUsed clock m : ℕ}
    (hcompiled : (s.cache.slots i).compiled = some h) :
    CacheSession.Sound ⟨s.cache.put i { s.cache.slots i with lastUsed := lastUsed, pinned := m } clock,
      s.heap, Function.update s.pins h m⟩ := by
  have hslot : ∀ j, ((s.cache.put i { s.cache.slots i with lastUsed := lastUsed, pinned := m }
      clock).slots j).compiled = (s.cache.slots j).compiled ∧
      ((s.cache.put i { s.cache.slots i with lastUsed := lastUsed, pinned := m } clock).slots
        j).pattern = (s.cache.slots j).pattern ∧
      ((s.cache.put i { s.cache.slots i with lastUsed := lastUsed, pinned := m } clock).slots
        j).collation = (s.cache.slots j).collation := by
    intro j
    by_cases hj : j = i
    · subst hj
      simp [TreCache.put]
    · simp [TreCache.put, Function.update_of_ne hj]
  refine ⟨?_, ?_, ?_, ?_⟩
  · intro j k c hj hk
    rw [(hslot j).1] at hj
    rw [(hslot k).1] at hk
    exact hs.distinct j k c hj hk
  · intro j c hj
    rw [(hslot j).1] at hj
    rw [(hslot j).2.1, (hslot j).2.2]
    exact hs.compiled j c hj
  · intro j c hj
    rw [(hslot j).1] at hj
    by_cases hji : j = i
    · subst hji
      obtain rfl : h = c := Option.some.inj (hcompiled.symm.trans hj)
      simp [TreCache.put]
    · have hne : c ≠ h := by
        rintro rfl
        exact hji (hs.distinct j i c hj hcompiled)
      simp only [TreCache.put, Function.update_of_ne hji, Function.update_of_ne hne]
      exact hs.counted j c hj
  · intro c hc hno
    have hne : c ≠ h := by
      rintro rfl
      exact hno i ((hslot i).1.trans hcompiled)
    dsimp only at hc ⊢
    rw [Function.update_of_ne hne] at hc ⊢
    exact hs.uncached c hc fun j hj => hno j ((hslot j).1.trans hj)

/-- What happens to a handle outside the cache, as long as it is held at most once and not freed
while it is held. -/
theorem CacheSession.Sound.outside (hs : s.Sound) (hno : ∀ i, (s.cache.slots i).compiled ≠ some h)
    (label : Option (List UInt8 × ℕ)) {m : ℕ} (hm : 0 < m → m = 1 ∧ label ≠ none) :
    CacheSession.Sound ⟨s.cache, Function.update s.heap h label, Function.update s.pins h m⟩ := by
  have hother : ∀ i c, (s.cache.slots i).compiled = some c → c ≠ h := by
    rintro i c hi rfl
    exact hno i hi
  refine ⟨hs.distinct, ?_, ?_, ?_⟩
  · intro i c hi
    dsimp only
    rw [Function.update_of_ne (hother i c hi)]
    exact hs.compiled i c hi
  · intro i c hi
    dsimp only
    rw [Function.update_of_ne (hother i c hi)]
    exact hs.counted i c hi
  · intro c hc hout
    dsimp only at hc ⊢
    by_cases hch : c = h
    · subst hch
      rw [Function.update_self] at hc ⊢
      rw [Function.update_self]
      exact hm hc
    · rw [Function.update_of_ne hch] at hc ⊢
      rw [Function.update_of_ne hch]
      exact hs.uncached c hc hout

/-- A pattern compiled at an address where none was, outside the cache, held at most once. -/
theorem CacheSession.Sound.adopt (hs : s.Sound) (hheap : s.heap h = none)
    (label : List UInt8 × ℕ) {m : ℕ} (hm : m ≤ 1) :
    CacheSession.Sound ⟨s.cache, Function.update s.heap h (some label), Function.update s.pins h m⟩ :=
  hs.outside (hs.fresh hheap).2 (some label) fun hpos => ⟨by omega, Option.some_ne_none label⟩

/-- A handle outside the cache is freed when its pin is given back. -/
theorem CacheSession.Sound.drop (hs : s.Sound) (hno : ∀ i, (s.cache.slots i).compiled ≠ some h) :
    CacheSession.Sound ⟨s.cache, Function.update s.heap h none, Function.update s.pins h 0⟩ :=
  hs.outside hno none fun hpos => absurd hpos (lt_irrefl 0)

/-- A slot that is not pinned is emptied. -/
theorem CacheSession.Sound.clear (hs : s.Sound) {i : Fin treCacheSlots} {clock : ℕ}
    (hfree : (s.cache.slots i).compiled = none ∨ (s.cache.slots i).pinned ≤ 0) :
    CacheSession.Sound ⟨s.cache.put i .vacant clock, s.heap, s.pins⟩ := by
  have hself : ((s.cache.put i .vacant clock).slots i).compiled = none := by
    simp [TreCache.put, TreCacheSlot.vacant]
  have hother : ∀ j, j ≠ i → (s.cache.put i .vacant clock).slots j = s.cache.slots j :=
    fun j hj => Function.update_of_ne hj _ _
  have hold : ∀ j c, ((s.cache.put i .vacant clock).slots j).compiled = some c → j ≠ i := by
    rintro j c hj rfl
    rw [hself] at hj
    cases hj
  refine ⟨?_, ?_, ?_, ?_⟩
  · intro j k c hj hk
    have hji := hold j c hj
    have hki := hold k c hk
    dsimp only at hj hk
    rw [hother j hji] at hj
    rw [hother k hki] at hk
    exact hs.distinct j k c hj hk
  · intro j c hj
    have hji := hold j c hj
    dsimp only at hj ⊢
    rw [hother j hji] at hj ⊢
    exact hs.compiled j c hj
  · intro j c hj
    have hji := hold j c hj
    dsimp only at hj ⊢
    rw [hother j hji] at hj ⊢
    exact hs.counted j c hj
  · intro c hc hout
    refine hs.uncached c hc fun j hj => ?_
    by_cases hji : j = i
    · subst hji
      exact absurd (hs.unheld hfree hj) hc.ne'
    · exact hout j (by dsimp only; rw [hother j hji]; exact hj)

/-- `evict_slot` on an entry that is not pinned. -/
theorem CacheSession.Sound.evict (hs : s.Sound) {i : Fin treCacheSlots} {clock : ℕ}
    (hfree : (s.cache.slots i).compiled = none ∨ (s.cache.slots i).pinned ≤ 0)
    (hcompiled : (s.cache.slots i).compiled = some h) :
    CacheSession.Sound ⟨s.cache.put i .vacant clock, Function.update s.heap h none, s.pins⟩ := by
  have hunheld := hs.unheld hfree hcompiled
  have hclear := @CacheSession.Sound.clear s hs i clock hfree
  have hno : ∀ j, ((s.cache.put i .vacant clock).slots j).compiled ≠ some h := by
    intro j hj
    by_cases hji : j = i
    · rw [hji] at hj
      simp [TreCache.put, TreCacheSlot.vacant] at hj
    · simp only [TreCache.put, Function.update_of_ne hji] at hj
      exact hji (hs.distinct j i h hj hcompiled)
  have hdrop := hclear.drop hno
  rwa [show Function.update s.pins h 0 = s.pins by rw [← hunheld, Function.update_eq_self]] at hdrop

/-- A handle outside the cache put into an empty slot with the pins that are held on it. -/
theorem CacheSession.Sound.place (hs : s.Sound) {i : Fin treCacheSlots} {pattern : List UInt8}
    {collation lastUsed clock : ℕ} (hempty : (s.cache.slots i).compiled = none)
    (hno : ∀ i, (s.cache.slots i).compiled ≠ some h) (hheap : s.heap h = some (pattern, collation)) :
    CacheSession.Sound ⟨s.cache.put i ⟨pattern, collation, some h, lastUsed, s.pins h⟩ clock, s.heap,
      s.pins⟩ := by
  have hself : ((s.cache.put i ⟨pattern, collation, some h, lastUsed, s.pins h⟩ clock).slots i) =
      ⟨pattern, collation, some h, lastUsed, s.pins h⟩ := Function.update_self i _ _
  have hother : ∀ j, j ≠ i →
      (s.cache.put i ⟨pattern, collation, some h, lastUsed, s.pins h⟩ clock).slots j =
        s.cache.slots j :=
    fun j hj => Function.update_of_ne hj _ _
  refine ⟨?_, ?_, ?_, ?_⟩
  · intro j k c hj hk
    dsimp only at hj hk
    by_cases hji : j = i
    · by_cases hki : k = i
      · rw [hji, hki]
      · subst hji
        rw [hself] at hj
        rw [hother k hki] at hk
        exact absurd (hk.trans hj.symm) (hno k)
    · by_cases hki : k = i
      · subst hki
        rw [hself] at hk
        rw [hother j hji] at hj
        exact absurd (hj.trans hk.symm) (hno j)
      · rw [hother j hji] at hj
        rw [hother k hki] at hk
        exact hs.distinct j k c hj hk
  · intro j c hj
    dsimp only at hj ⊢
    by_cases hji : j = i
    · subst hji
      rw [hself] at hj ⊢
      rw [← Option.some.inj hj]
      exact hheap
    · rw [hother j hji] at hj ⊢
      exact hs.compiled j c hj
  · intro j c hj
    dsimp only at hj ⊢
    by_cases hji : j = i
    · subst hji
      rw [hself] at hj ⊢
      rw [← Option.some.inj hj]
    · rw [hother j hji] at hj ⊢
      exact hs.counted j c hj
  · intro c hc hout
    refine hs.uncached c hc fun j hj => ?_
    by_cases hji : j = i
    · rw [hji, hempty] at hj
      cases hj
    · exact hout j (by dsimp only; rw [hother j hji]; exact hj)

/-- A pattern compiled into an empty slot. -/
theorem CacheSession.Sound.fill (hs : s.Sound) {i : Fin treCacheSlots} {pattern : List UInt8}
    {collation lastUsed clock m : ℕ} (hempty : (s.cache.slots i).compiled = none)
    (hheap : s.heap h = none) (hm : m ≤ 1) :
    CacheSession.Sound ⟨s.cache.put i ⟨pattern, collation, some h, lastUsed, m⟩ clock,
      Function.update s.heap h (some (pattern, collation)), Function.update s.pins h m⟩ := by
  have hadopt := hs.adopt hheap (pattern, collation) hm
  have hplace := @CacheSession.Sound.place _ h hadopt i pattern collation lastUsed clock hempty
    (hs.fresh hheap).2 (Function.update_self h _ _)
  dsimp only at hplace
  rwa [Function.update_self] at hplace

/-- A pattern compiled into a slot that is empty or evicted. -/
theorem CacheSession.Sound.refill (hs : s.Sound) {i : Fin treCacheSlots} {pattern : List UInt8}
    {collation lastUsed clock m : ℕ}
    (hfree : (s.cache.slots i).compiled = none ∨ (s.cache.slots i).pinned ≤ 0)
    (hheap : s.heap h = none) (hm : m ≤ 1) :
    CacheSession.Sound ⟨s.cache.put i ⟨pattern, collation, some h, lastUsed, m⟩ clock,
      match (s.cache.slots i).compiled with
      | none => Function.update s.heap h (some (pattern, collation))
      | some c => Function.update (Function.update s.heap h (some (pattern, collation))) c none,
      Function.update s.pins h m⟩ := by
  have hput : (s.cache.put i .vacant clock).put i ⟨pattern, collation, some h, lastUsed, m⟩ clock =
      s.cache.put i ⟨pattern, collation, some h, lastUsed, m⟩ clock := by
    simp only [TreCache.put, Function.update_idem]
  have hempty : ((s.cache.put i .vacant clock).slots i).compiled = none := by
    simp [TreCache.put, TreCacheSlot.vacant]
  cases hcompiled : (s.cache.slots i).compiled with
  | none =>
    have hfill := @CacheSession.Sound.fill _ h (@CacheSession.Sound.clear s hs i clock hfree) i pattern
      collation lastUsed clock m hempty hheap hm
    dsimp only at hfill
    rwa [hput] at hfill
  | some c =>
    have hne : h ≠ c := by
      rintro rfl
      exact (hs.fresh hheap).2 i hcompiled
    have hgone : Function.update s.heap c none h = none := by rw [Function.update_of_ne hne, hheap]
    have hfill := @CacheSession.Sound.fill _ h
      (@CacheSession.Sound.evict s c hs i clock hfree hcompiled) i pattern collation lastUsed clock m
      hempty hgone hm
    dsimp only at hfill
    rw [hput, Function.update_comm hne.symm] at hfill
    exact hfill

/-- A lookup keeps the invariant, unless a counter runs over. -/
theorem CacheSession.Sound.lookup (hs : s.Sound) {pattern : List UInt8} {collation : ℕ}
    {pin memory : Bool} {compile : CompileResult} {eff : CacheEffect}
    (hallowed : (CacheOp.lookup pattern collation pin compile memory).Allowed s)
    (hout : LookupOutcome s.cache pattern collation pin compile memory eff)
    (hfew : ((CacheOp.lookup pattern collation pin compile memory).after s eff).FewPins) :
    ((CacheOp.lookup pattern collation pin compile memory).after s eff).Sound := by
  cases hout with
  | refused e => cases pin <;> exact hs
  | hit i h hcompiled hpattern hcollation =>
    have hcount := hs.counted i h hcompiled
    cases pin with
    | false =>
      have hsame := @CacheSession.Sound.retouch s h hs i s.cache.tick s.cache.tick (s.pins h) hcompiled
      rw [Function.update_eq_self, ← hcount] at hsame
      exact hsame
    | true =>
      have hlt : s.pins h + 1 < 2 ^ 31 := by
        have := hfew h
        simp only [CacheOp.after, CacheOp.pinsAfter, Function.update_self] at this
        exact this
      have hnext : toInt32 ((s.cache.slots i).pinned + 1) = ((s.pins h + 1 : ℕ) : ℤ) := by
        rw [hcount, toInt32_of_isInt32 ⟨by omega, by omega⟩]
        push_cast
        rfl
      have hmore := @CacheSession.Sound.retouch s h hs i s.cache.tick s.cache.tick
          (s.pins h + 1) hcompiled
      rw [← hnext] at hmore
      exact hmore
  | rejected e h n hcompile =>
    have hheap := hallowed h n hcompile
    have hback : Function.update (Function.update s.heap h (some (pattern, collation))) h
        none = s.heap := by
      rw [Function.update_idem, ← hheap, Function.update_eq_self]
    have hafter : (CacheOp.lookup pattern collation pin compile memory).after s
        ⟨.error e, s.cache, some h, some h⟩ = s := by
      cases pin <;> simp only [CacheOp.after, CacheOp.compiledHeap, CacheOp.pinsAfter, hback]
    rw [hafter]
    exact hs
  | uncached h n hcompile hall =>
    have hheap := hallowed h n hcompile
    have hpins := (hs.fresh hheap).1
    cases pin with
    | false =>
      have hadopt := hs.adopt hheap (pattern, collation) (Nat.zero_le 1)
      rw [← hpins, Function.update_eq_self] at hadopt
      exact hadopt
    | true =>
      have hadopt := hs.adopt hheap (pattern, collation) (le_refl 1)
      rw [show (1 : ℕ) = s.pins h + 1 by rw [hpins]] at hadopt
      exact hadopt
  | stored i h n hcompile hfree =>
    have hheap := hallowed h n hcompile
    have hpins := (hs.fresh hheap).1
    cases pin with
    | false =>
      have hfill := @CacheSession.Sound.refill s h hs i pattern collation s.cache.tick
        s.cache.tick 0 hfree hheap (Nat.zero_le 1)
      rw [show Function.update s.pins h 0 = s.pins by rw [← hpins, Function.update_eq_self]] at hfill
      exact hfill
    | true =>
      have hfill := @CacheSession.Sound.refill s h hs i pattern collation s.cache.tick
        s.cache.tick 1 hfree hheap (le_refl 1)
      rw [show Function.update s.pins h 1 =
        Function.update s.pins h (s.pins h + 1) by rw [hpins]] at hfill
      exact hfill
  | noMemory e i h n hmemory hcompile hfree =>
    have hheap := hallowed h n hcompile
    have hpins : Function.update s.pins h 0 = s.pins := by
      rw [← (hs.fresh hheap).1, Function.update_eq_self]
    have hafter : (CacheOp.lookup pattern collation pin compile memory).pinsAfter s
        ⟨.error e, s.cache.put i .vacant s.cache.clock, some h,
          (s.cache.slots i).compiled⟩ = s.pins := by
      cases pin <;> rfl
    rw [CacheOp.after, hafter]
    cases hcompiled : (s.cache.slots i).compiled with
    | none =>
      have hadopt := (@CacheSession.Sound.clear s hs i s.cache.clock hfree).adopt hheap
        (pattern, collation) (Nat.zero_le 1)
      dsimp only at hadopt
      rwa [hpins] at hadopt
    | some c =>
      have hne : h ≠ c := by
        rintro rfl
        exact (hs.fresh hheap).2 i hcompiled
      have hgone : Function.update s.heap c none h = none := by rw [Function.update_of_ne hne, hheap]
      have hadopt := (@CacheSession.Sound.evict s c hs i s.cache.clock hfree hcompiled).adopt hgone
        (pattern, collation) (Nat.zero_le 1)
      dsimp only at hadopt
      rw [hpins, Function.update_comm hne.symm] at hadopt
      exact hadopt

/-- So does a release. -/
theorem CacheSession.Sound.release (hs : s.Sound) (hallowed : (CacheOp.release h).Allowed s) :
    ((CacheOp.release h).after s (s.cache.release h)).Sound := by
  have hheld : 0 < s.pins h := hallowed
  rcases release_cases s.cache h with ⟨i, hcompiled, heff⟩ | ⟨hno, heff⟩
  · have hcount := hs.counted i h hcompiled
    have hpos : 0 < (s.cache.slots i).pinned := by omega
    have hnext : (s.cache.slots i).pinned - 1 = ((s.pins h - 1 : ℕ) : ℤ) := by omega
    have hless := @CacheSession.Sound.retouch s h hs i (s.cache.slots i).lastUsed s.cache.clock
      (s.pins h - 1) hcompiled
    rw [heff, if_pos hpos, hnext]
    exact hless
  · have hone := (hs.uncached h hheld hno).1
    have hdrop := hs.drop hno
    rw [heff]
    rw [show (0 : ℕ) = s.pins h - 1 by omega] at hdrop
    exact hdrop

/-- Every session in which no counter has run over is sound. -/
theorem CacheReachable.sound {maxNfaStates : ℤ} {s : CacheSession}
    (h : CacheReachable maxNfaStates CacheSession.FewPins s) : s.Sound := by
  induction h with
  | start =>
    refine ⟨?_, ?_, ?_, ?_⟩
    · intro i j c hi
      cases hi
    · intro i c hi
      cases hi
    · intro i c hi
      cases hi
    · intro c hc
      exact absurd hc (lt_irrefl 0)
  | step op _ hallowed hfew ih =>
    cases op with
    | lookup pattern collation pin compile memory =>
      exact ih.lookup hallowed (lookupOutcome maxNfaStates _ pattern collation pin compile memory) hfew
    | release h => exact ih.release hallowed

end

/-! ## What is freed, and what is returned -/

/-- A handle is in the cache or held by a caller. -/
def CacheSession.Kept (s : CacheSession) (h : CompiledHandle) : Prop :=
  (∃ i, (s.cache.slots i).compiled = some h) ∨ 0 < s.pins h

/-- A lookup neither keeps nor frees what it has compiled: it is not pinned and every slot is, or there
is no memory for the copy of the pattern. -/
def CacheOp.Leaks (maxNfaStates : ℤ) (s : CacheSession) (op : CacheOp) (h : CompiledHandle) : Prop :=
  (op.effect maxNfaStates s).allocated = some h ∧
    ∃ pattern collation pin compile memory, op = .lookup pattern collation pin compile memory ∧
      (pin = false ∧ (∀ i, (s.cache.slots i).compiled ≠ none ∧ 0 < (s.cache.slots i).pinned) ∨
        memory = false ∧ ∃ e, (op.effect maxNfaStates s).result = .error e)

/-- An operation frees at most what is compiled and held by nobody: an entry it evicts, a handle outside
the cache whose pin it gives back, or a pattern it has just compiled and does not return. It does free
an entry that it evicts and a handle outside the cache whose last pin it gives back, and whatever is
compiled after it and was kept before, or is new, is kept or leaked. What is held stays compiled, and a
lookup returns a handle of its pattern and collation. -/
structure CacheOp.Owned (maxNfaStates : ℤ) (s : CacheSession) (op : CacheOp) : Prop where
  freed_compiled : ∀ h, (op.effect maxNfaStates s).freed = some h →
    op.compiledHeap s (op.effect maxNfaStates s) h ≠ none
  freed_unheld : ∀ h, (op.effect maxNfaStates s).freed = some h → (op.run maxNfaStates s).pins h = 0
  freed_cause : ∀ h, (op.effect maxNfaStates s).freed = some h →
    (∃ i, (s.cache.slots i).compiled = some h ∧ s.pins h = 0) ∨
    (op = .release h ∧ ∀ i, (s.cache.slots i).compiled ≠ some h) ∨
    ((op.effect maxNfaStates s).allocated = some h ∧ ∃ e, (op.effect maxNfaStates s).result = .error e)
  freed_gone : ∀ h, (op.effect maxNfaStates s).freed = some h → (op.run maxNfaStates s).heap h = none
  evicted_freed : ∀ i h, (s.cache.slots i).compiled = some h →
    (∀ j, ((op.run maxNfaStates s).cache.slots j).compiled ≠ some h) →
    (op.effect maxNfaStates s).freed = some h
  released_freed : ∀ h, op = .release h → (∀ i, (s.cache.slots i).compiled ≠ some h) →
    (op.effect maxNfaStates s).freed = some h
  accounted : ∀ h, (op.run maxNfaStates s).heap h ≠ none → (s.heap h ≠ none → s.Kept h) →
    (op.run maxNfaStates s).Kept h ∨ op.Leaks maxNfaStates s h
  held : ∀ h, 0 < (op.run maxNfaStates s).pins h → (op.run maxNfaStates s).heap h ≠ none
  returned : ∀ pattern collation pin compile memory,
    op = .lookup pattern collation pin compile memory →
    ∀ r, (op.effect maxNfaStates s).result = .ok r →
      ∃ h, r = some h ∧ (op.run maxNfaStates s).heap h = some (pattern, collation)

section

variable {s : CacheSession} {h : CompiledHandle} {pattern : List UInt8} {collation : ℕ}
  {pin memory : Bool} {compile : CompileResult} {eff : CacheEffect}

/-- Compiling a pattern leaves the others. -/
theorem compiledHeap_ne_none (op : CacheOp) (hheap : s.heap h ≠ none) :
    op.compiledHeap s eff h ≠ none := by
  cases op with
  | release => exact hheap
  | lookup pattern collation pin compile memory =>
    unfold CacheOp.compiledHeap
    cases eff.allocated with
    | none => exact hheap
    | some c =>
      by_cases hc : h = c
      · rw [hc]
        dsimp only
        rw [Function.update_self]
        exact Option.some_ne_none _
      · dsimp only
        rwa [Function.update_of_ne hc]

/-- A pin changes only by being taken on what is returned. -/
theorem pinsAfter_lookup_eq (hreturned : eff.result ≠ .ok (some h)) :
    (CacheOp.lookup pattern collation pin compile memory).pinsAfter s eff h = s.pins h := by
  obtain ⟨result, cache, allocated, freed⟩ := eff
  cases pin with
  | false => rfl
  | true =>
    rcases result with e | _ | c
    · rfl
    · rfl
    · have hne : h ≠ c := by
        rintro rfl
        exact hreturned rfl
      exact Function.update_of_ne hne _ _

/-- What a lookup frees was compiled, is held by nobody, and is not what it returns. -/
theorem LookupOutcome.freed (hs : s.Sound)
    (hallowed : (CacheOp.lookup pattern collation pin compile memory).Allowed s)
    (hout : LookupOutcome s.cache pattern collation pin compile memory eff)
    (hfreed : eff.freed = some h) :
    (CacheOp.lookup pattern collation pin compile memory).compiledHeap s eff h ≠ none ∧
      s.pins h = 0 ∧ eff.result ≠ .ok (some h) ∧
      ((∃ i, (s.cache.slots i).compiled = some h ∧ s.pins h = 0) ∨
        (eff.allocated = some h ∧ ∃ e, eff.result = .error e)) := by
  cases hout with
  | refused e => cases hfreed
  | hit i c hcompiled hpattern hcollation => cases hfreed
  | rejected e c n hcompile =>
    obtain rfl : c = h := Option.some.inj hfreed
    refine ⟨?_, (hs.fresh (hallowed c n hcompile)).1, by simp, Or.inr ⟨rfl, e, rfl⟩⟩
    rw [CacheOp.compiledHeap]
    dsimp only
    rw [Function.update_self]
    exact Option.some_ne_none _
  | uncached c n hcompile hall => cases hfreed
  | stored i c n hcompile hfree =>
    have hunheld := hs.unheld hfree hfreed
    have hlive : s.heap h ≠ none := by
      rw [hs.compiled i h hfreed]
      exact Option.some_ne_none _
    refine ⟨compiledHeap_ne_none _ hlive, hunheld, ?_, Or.inl ⟨i, hfreed, hunheld⟩⟩
    rintro hresult
    obtain rfl : c = h := Option.some.inj (Except.ok.inj hresult)
    exact hlive (hallowed c n hcompile)
  | noMemory e i c n hmemory hcompile hfree =>
    have hunheld := hs.unheld hfree hfreed
    have hlive : s.heap h ≠ none := by
      rw [hs.compiled i h hfreed]
      exact Option.some_ne_none _
    exact ⟨compiledHeap_ne_none _ hlive, hunheld, by simp, Or.inl ⟨i, hfreed, hunheld⟩⟩

/-- What a lookup returns is compiled from its pattern and collation. -/
theorem LookupOutcome.returned (hs : s.Sound)
    (hallowed : (CacheOp.lookup pattern collation pin compile memory).Allowed s)
    (hout : LookupOutcome s.cache pattern collation pin compile memory eff) {r : Option CompiledHandle}
    (hresult : eff.result = .ok r) :
    ∃ h, r = some h ∧
      ((CacheOp.lookup pattern collation pin compile memory).after s eff).heap h =
        some (pattern, collation) := by
  cases hout with
  | refused e => cases hresult
  | hit i c hcompiled hpattern hcollation =>
    refine ⟨c, (Except.ok.inj hresult).symm, ?_⟩
    rw [← hpattern, ← hcollation]
    exact hs.compiled i c hcompiled
  | rejected e c n hcompile => cases hresult
  | uncached c n hcompile hall =>
    exact ⟨c, (Except.ok.inj hresult).symm, Function.update_self c _ _⟩
  | stored i c n hcompile hfree =>
    refine ⟨c, (Except.ok.inj hresult).symm, ?_⟩
    cases hold : (s.cache.slots i).compiled with
    | none => exact Function.update_self c _ _
    | some old =>
      have hne : c ≠ old := by
        rintro rfl
        exact (hs.fresh (hallowed c n hcompile)).2 i hold
      exact (Function.update_of_ne hne _ _).trans (Function.update_self c _ _)
  | noMemory e i c n hmemory hcompile hfree => cases hresult

/-- What is held after a lookup is compiled. -/
theorem LookupOutcome.held (hs : s.Sound)
    (hallowed : (CacheOp.lookup pattern collation pin compile memory).Allowed s)
    (hout : LookupOutcome s.cache pattern collation pin compile memory eff)
    (hheld : 0 < ((CacheOp.lookup pattern collation pin compile memory).after s eff).pins h) :
    ((CacheOp.lookup pattern collation pin compile memory).after s eff).heap h ≠ none := by
  by_cases hresult : eff.result = .ok (some h)
  · obtain ⟨c, hc, hheap⟩ := hout.returned hs hallowed hresult
    obtain rfl := Option.some.inj hc
    rw [hheap]
    exact Option.some_ne_none _
  · have hsame := @pinsAfter_lookup_eq s h pattern collation pin memory compile eff hresult
    have hpins : 0 < s.pins h := by
      rw [← hsame]
      exact hheld
    have hcompiled := @compiledHeap_ne_none s h eff
      (CacheOp.lookup pattern collation pin compile memory) (hs.live hpins)
    cases hfreed : eff.freed with
    | none =>
      simp only [CacheOp.after, hfreed]
      exact hcompiled
    | some c =>
      have hne : h ≠ c := by
        rintro rfl
        exact absurd (hout.freed hs hallowed hfreed).2.1 hpins.ne'
      simp only [CacheOp.after, hfreed, Function.update_of_ne hne]
      exact hcompiled

/-- What an operation frees is not compiled after it. -/
theorem CacheOp.after_heap_freed {op : CacheOp} (hfreed : eff.freed = some h) :
    (op.after s eff).heap h = none := by
  unfold CacheOp.after
  rw [hfreed]
  exact Function.update_self h _ _

/-- An entry leaves the cache in a lookup only by being freed. -/
theorem LookupOutcome.evicted (hout : LookupOutcome s.cache pattern collation pin compile memory eff)
    {i : Fin treCacheSlots} (hslot : (s.cache.slots i).compiled = some h)
    (hgone : ∀ j, (eff.cache.slots j).compiled ≠ some h) : eff.freed = some h := by
  have hgone := hgone i
  cases hout with
  | refused e => exact absurd hslot hgone
  | hit j c hcompiled hpattern hcollation =>
    by_cases hj : i = j
    · rw [hj, TreCache.put_slots_self] at hgone
      exact absurd (hj ▸ hslot) hgone
    · rw [TreCache.put_slots_of_ne hj] at hgone
      exact absurd hslot hgone
  | rejected e c n hcompile => exact absurd hslot hgone
  | uncached c n hcompile hall => exact absurd hslot hgone
  | stored j c n hcompile hfree =>
    by_cases hj : i = j
    · exact hj ▸ hslot
    · rw [TreCache.put_slots_of_ne hj] at hgone
      exact absurd hslot hgone
  | noMemory e j c n hmemory hcompile hfree =>
    by_cases hj : i = j
    · exact hj ▸ hslot
    · rw [TreCache.put_slots_of_ne hj] at hgone
      exact absurd hslot hgone

/-- A lookup gives back no pin. -/
theorem pins_le_pinsAfter_lookup (h : CompiledHandle) :
    s.pins h ≤ (CacheOp.lookup pattern collation pin compile memory).pinsAfter s eff h := by
  by_cases hresult : eff.result = .ok (some h)
  · obtain ⟨result, cache, allocated, freed⟩ := eff
    obtain rfl : result = .ok (some h) := hresult
    cases pin with
    | false => exact le_rfl
    | true => exact (Nat.le_succ _).trans (Function.update_self h (s.pins h + 1) s.pins).ge
  · exact (pinsAfter_lookup_eq hresult).ge

/-- What is kept before a lookup and not freed by it is kept after it. -/
theorem LookupOutcome.kept (hout : LookupOutcome s.cache pattern collation pin compile memory eff)
    (hkept : s.Kept h) (hfreed : eff.freed ≠ some h) :
    ((CacheOp.lookup pattern collation pin compile memory).after s eff).Kept h := by
  rcases hkept with ⟨i, hi⟩ | hpins
  · left
    by_contra hgone
    push Not at hgone
    exact hfreed (hout.evicted hi hgone)
  · exact Or.inr (hpins.trans_le (@pins_le_pinsAfter_lookup s pattern collation pin memory
      compile eff h))

/-- What is compiled after a lookup is kept, if what was compiled before it was, unless the lookup
leaks it. -/
theorem LookupOutcome.accounted
    (hout : LookupOutcome s.cache pattern collation pin compile memory eff)
    (hheap : ((CacheOp.lookup pattern collation pin compile memory).after s eff).heap h ≠ none)
    (hkept : s.heap h ≠ none → s.Kept h) :
    ((CacheOp.lookup pattern collation pin compile memory).after s eff).Kept h ∨
      eff.allocated = some h ∧
        (pin = false ∧ (∀ i, (s.cache.slots i).compiled ≠ none ∧ 0 < (s.cache.slots i).pinned) ∨
          memory = false ∧ ∃ e, eff.result = .error e) := by
  have hfreed : eff.freed ≠ some h := fun hfreed => hheap (CacheOp.after_heap_freed hfreed)
  by_cases hold : s.heap h = none
  · -- the pattern is new
    have hallocated : eff.allocated = some h := by
      have hcompiled : (CacheOp.lookup pattern collation pin compile memory).compiledHeap s
          eff h ≠ none := by
        intro hnone
        refine hheap ?_
        unfold CacheOp.after
        cases hwhich : eff.freed with
        | none => exact hnone
        | some c =>
          have hne : h ≠ c := by
            rintro rfl
            exact hfreed hwhich
          exact (Function.update_of_ne hne _ _).trans hnone
      unfold CacheOp.compiledHeap at hcompiled
      cases hwhich : eff.allocated with
      | none =>
        rw [hwhich] at hcompiled
        exact absurd hold hcompiled
      | some c =>
        rw [hwhich] at hcompiled
        by_contra hne
        exact hcompiled ((Function.update_of_ne (fun heq => hne (congrArg some heq.symm)) _
          _).trans hold)
    cases hout with
    | refused e => cases hallocated
    | hit i c hcompiled hpattern hcollation => cases hallocated
    | rejected e c n hcompile => exact absurd hallocated hfreed
    | uncached c n hcompile hall =>
      obtain rfl : c = h := Option.some.inj hallocated
      cases pin with
      | false => exact Or.inr ⟨rfl, Or.inl ⟨rfl, hall⟩⟩
      | true =>
        exact Or.inl
          (Or.inr ((Nat.succ_pos _).trans_le (Function.update_self c (s.pins c + 1) s.pins).ge))
    | stored i c n hcompile hfree =>
      obtain rfl : c = h := Option.some.inj hallocated
      exact Or.inl (Or.inl ⟨i, congrArg TreCacheSlot.compiled (TreCache.put_slots_self _ i _ _)⟩)
    | noMemory e i c n hmemory hcompile hfree =>
      exact Or.inr ⟨hallocated, Or.inr ⟨hmemory, e, rfl⟩⟩
  · exact Or.inl (hout.kept (hkept hold) hfreed)

end

section

variable {maxNfaStates : ℤ} {s : CacheSession}

/-- A release leaves every entry in its slot. -/
theorem release_compiled (cache : TreCache) (h : CompiledHandle) (j : Fin treCacheSlots) :
    ((cache.release h).cache.slots j).compiled = (cache.slots j).compiled := by
  rcases release_cases cache h with ⟨i, -, heff⟩ | ⟨-, heff⟩
  · rw [heff]
    dsimp only
    by_cases hj : j = i
    · rw [hj, TreCache.put_slots_self]
    · rw [TreCache.put_slots_of_ne hj]
  · rw [heff]

/-- What is kept before a release and not freed by it is kept after it. -/
theorem kept_release {h c : CompiledHandle} (hkept : s.Kept c)
    (hfreed : (s.cache.release h).freed ≠ some c) :
    ((CacheOp.release h).run maxNfaStates s).Kept c := by
  rcases hkept with ⟨j, hj⟩ | hpins
  · exact Or.inl ⟨j, (release_compiled s.cache h j).trans hj⟩
  · by_cases hc : c = h
    · rcases release_cases s.cache h with ⟨i, hi, -⟩ | ⟨-, heff⟩
      · exact Or.inl ⟨i, (release_compiled s.cache h i).trans (hc ▸ hi)⟩
      · exact absurd (by rw [heff, hc]) hfreed
    · exact Or.inr (hpins.trans_le (Function.update_of_ne hc _ _).ge)

/-- What a release frees is its handle, which is in no slot. -/
theorem eq_of_freed_release {cache : TreCache} {h c : CompiledHandle}
    (hc : (cache.release h).freed = some c) : c = h ∧ ∀ i, (cache.slots i).compiled ≠ some h := by
  rcases release_cases cache h with ⟨i, -, heff⟩ | ⟨hno, heff⟩
  · rw [heff] at hc
    cases hc
  · rw [heff] at hc
    exact ⟨(Option.some.inj hc).symm, hno⟩

/-- A release gives back one pin, and frees only a handle outside the cache. -/
theorem owned_release (hs : s.Sound) {h : CompiledHandle} (hallowed : (CacheOp.release h).Allowed s) :
    (CacheOp.release h).Owned maxNfaStates s := by
  have hheld : 0 < s.pins h := hallowed
  have hsound := hs.release hallowed
  refine ⟨?_, ?_, ?_, fun c hc => CacheOp.after_heap_freed hc, ?_, ?_, ?_, ?_, by simp⟩
  · intro c hc
    obtain ⟨rfl, -⟩ := eq_of_freed_release hc
    exact hs.live hheld
  · intro c hc
    obtain ⟨rfl, hno⟩ := eq_of_freed_release hc
    have hone := (hs.uncached c hheld hno).1
    exact (Function.update_self c _ _).trans (by rw [hone])
  · intro c hc
    obtain ⟨rfl, hno⟩ := eq_of_freed_release hc
    exact Or.inr (Or.inl ⟨rfl, hno⟩)
  · intro i c hi hgone
    exact absurd ((release_compiled s.cache h i).trans hi) (hgone i)
  · intro c hop hno
    obtain rfl := CacheOp.release.inj hop
    rcases release_cases s.cache h with ⟨i, hi, -⟩ | ⟨-, heff⟩
    · exact absurd hi (hno i)
    · rw [CacheOp.effect, heff]
  · intro c hheap hkept
    have hfreed : (s.cache.release h).freed ≠ some c :=
      fun hfreed => hheap (CacheOp.after_heap_freed hfreed)
    have hold : s.heap c ≠ none := by
      rcases release_cases s.cache h with ⟨i, -, heff⟩ | ⟨-, heff⟩
      · rw [CacheOp.run, CacheOp.effect, heff] at hheap
        exact hheap
      · rw [CacheOp.run, CacheOp.effect, heff] at hheap
        rw [heff] at hfreed
        exact fun hnone => hheap ((Function.update_of_ne (fun heq => hfreed (congrArg some heq.symm))
          _ _).trans hnone)
    exact Or.inl (kept_release (hkept hold) hfreed)
  · intro c hc
    exact hsound.live hc

/-- A lookup frees nothing that is held, and loses nothing unless it leaks it. -/
theorem owned_lookup (hs : s.Sound) {pattern : List UInt8} {collation : ℕ} {pin memory : Bool}
    {compile : CompileResult}
    (hallowed : (CacheOp.lookup pattern collation pin compile memory).Allowed s) :
    (CacheOp.lookup pattern collation pin compile memory).Owned maxNfaStates s := by
  have hout := lookupOutcome maxNfaStates s.cache pattern collation pin compile memory
  refine ⟨?_, ?_, ?_, fun c hc => CacheOp.after_heap_freed hc, fun i c => hout.evicted,
    fun c hop => (by cases hop), ?_, ?_, ?_⟩
  · intro c hc
    exact (hout.freed hs hallowed hc).1
  · intro c hc
    obtain ⟨-, hunheld, hresult, -⟩ := hout.freed hs hallowed hc
    have hsame := @pinsAfter_lookup_eq s c pattern collation pin memory compile _ hresult
    exact hsame.trans hunheld
  · intro c hc
    obtain ⟨-, -, -, hcause⟩ := hout.freed hs hallowed hc
    exact hcause.imp_right Or.inr
  · intro c hheap hkept
    refine (hout.accounted hheap hkept).imp_right fun hleak => ?_
    exact ⟨hleak.1, pattern, collation, pin, compile, memory, rfl, hleak.2⟩
  · intro c hc
    exact hout.held hs hallowed hc
  · rintro pattern' collation' pin' compile' memory' hop r hresult
    obtain ⟨rfl, rfl, rfl, rfl, rfl⟩ := CacheOp.lookup.inj hop
    exact hout.returned hs hallowed hresult

/-- Every operation in a session in which no counter has run over respects who owns what. -/
theorem owned_of_sound (hs : s.Sound) {op : CacheOp} (hallowed : op.Allowed s) :
    op.Owned maxNfaStates s := by
  cases op with
  | lookup pattern collation pin compile memory => exact owned_lookup hs hallowed
  | release c => exact owned_release hs hallowed

/-- Sessions with a stronger property. -/
theorem CacheReachable.mono {ok ok' : CacheSession → Prop} (hok : ∀ s, ok s → ok' s)
    (h : CacheReachable maxNfaStates ok s) : CacheReachable maxNfaStates ok' s := by
  induction h with
  | start => exact .start
  | step op _ hallowed hstep ih => exact .step op ih hallowed (hok _ hstep)

/-- An earlier operation of the session has leaked a handle. -/
def CacheSession.Leaked (maxNfaStates : ℤ) (s : CacheSession) (h : CompiledHandle) : Prop :=
  ∃ (s₀ : CacheSession) (op : CacheOp), CacheReachable maxNfaStates CacheSession.FewPins s₀ ∧
    op.Allowed s₀ ∧ op.Leaks maxNfaStates s₀ h ∧
    Relation.ReflTransGen (CacheSession.Step maxNfaStates) (op.run maxNfaStates s₀) s

/-- What is compiled is in the cache or held, unless an earlier operation has leaked it. -/
theorem CacheReachable.kept_or_leaked (h : CacheReachable maxNfaStates CacheSession.FewPins s)
    {c : CompiledHandle} (hheap : s.heap c ≠ none) : s.Kept c ∨ s.Leaked maxNfaStates c := by
  induction h with
  | start => exact absurd rfl hheap
  | @step s op hreached hallowed hfew ih =>
    by_cases hold : s.heap c ≠ none ∧ ¬ s.Kept c
    · obtain ⟨s₀, op₀, hreached₀, hallowed₀, hleaks, hsteps⟩ := (ih hold.1).resolve_left hold.2
      exact Or.inr ⟨s₀, op₀, hreached₀, hallowed₀, hleaks, hsteps.tail ⟨op, hallowed, rfl⟩⟩
    · rw [not_and, not_not] at hold
      refine ((owned_of_sound hreached.sound hallowed).accounted c hheap hold).imp_right
        fun hleaks => ?_
      exact ⟨s, op, hreached, hallowed, hleaks, .refl⟩

end

/-! ## A full cache -/

/-- One byte as a pattern. -/
def bytePattern (k : ℕ) : List UInt8 := [UInt8.ofNat k]

/-- The lookup of a byte under the collation 0, whose compiled pattern lies at the address of that
number. -/
def lookupByte (k : ℕ) (pin : Bool) : CacheOp := .lookup (bytePattern k) 0 pin (.compiled k 1) true

/-- Another lookup of the first byte, for which nothing has to be compiled. -/
def pinFirst : CacheOp := .lookup (bytePattern 0) 0 true (.compiled 1 1) true

/-- The bytes below `k` are in the first slots, the first of them pinned `n` times and the others
once. -/
structure Filled (n k : ℕ) (s : CacheSession) : Prop where
  compiled : ∀ i, i.val < k → (s.cache.slots i).compiled = some i.val
  pattern : ∀ i, i.val < k → (s.cache.slots i).pattern = bytePattern i.val
  collation : ∀ i, i.val < k → (s.cache.slots i).collation = 0
  pinned : ∀ i, i.val < k → (s.cache.slots i).pinned = if i.val = 0 then toInt32 n else 1
  vacant : ∀ i, k ≤ i.val → (s.cache.slots i).compiled = none
  heap : ∀ h, k ≤ h → s.heap h = none
  pins : s.pins 0 = n
  unpinned : ∀ h, k ≤ h → s.pins h = 0
  pins_le : ∀ h, s.pins h ≤ max n 1

section

variable {n k : ℕ} {s : CacheSession}

/-- The byte patterns are told apart. -/
theorem bytePattern_inj {i j : ℕ} (hi : i ≤ 32) (hj : j ≤ 32)
    (h : bytePattern i = bytePattern j) : i = j := by
  have hbyte := congrArg UInt8.toNat (List.cons.inj h).1
  rw [UInt8.toNat_ofNat', UInt8.toNat_ofNat'] at hbyte
  omega

/-- The search finds nothing that is in no slot. -/
theorem Filled.find_eq_none (h : Filled n k s) (hk : k ≤ 32) :
    s.cache.find (bytePattern k) 0 = none := by
  cases hfind : s.cache.find (bytePattern k) 0 with
  | none => rfl
  | some i =>
    obtain ⟨⟨c, hc⟩, hpattern, -⟩ := TreCache.find_eq_some hfind
    by_cases hi : i.val < k
    · rw [h.pattern i hi] at hpattern
      have := bytePattern_inj (by omega) hk hpattern
      omega
    · rw [h.vacant i (not_lt.mp hi)] at hc
      cases hc

/-- The first empty slot is used. -/
theorem TreCache.targetFrom_append {cache : TreCache} {l l' : List (Fin treCacheSlots)}
    {i : Fin treCacheSlots} (hfull : ∀ j ∈ l, (cache.slots j).compiled ≠ none)
    (hempty : (cache.slots i).compiled = none) (target : Option (Fin treCacheSlots)) :
    cache.targetFrom (l ++ i :: l') target = some i := by
  induction l generalizing target with
  | nil => rw [List.nil_append, targetFrom, if_pos hempty]
  | cons j l ih =>
    obtain ⟨hj, hrest⟩ := List.forall_mem_cons.mp hfull
    rw [List.cons_append, targetFrom, if_neg hj]
    split_ifs
    · exact ih hrest target
    · exact ih hrest _

/-- Pinned slots are passed over. -/
theorem TreCache.targetFrom_pinned {cache : TreCache} {l : List (Fin treCacheSlots)}
    (hpinned : ∀ j ∈ l, (cache.slots j).compiled ≠ none ∧ 0 < (cache.slots j).pinned)
    (target : Option (Fin treCacheSlots)) : cache.targetFrom l target = target := by
  induction l with
  | nil => rfl
  | cons j l ih =>
    obtain ⟨hj, hrest⟩ := List.forall_mem_cons.mp hpinned
    rw [targetFrom, if_neg hj.1, if_pos hj.2, ih hrest]

/-- In a cache filled so far the next slot is the target. -/
theorem Filled.target_eq (h : Filled n k s) (hk : k < treCacheSlots) :
    s.cache.target = some ⟨k, hk⟩ := by
  have hlen : k < (List.finRange treCacheSlots).length := by
    rw [List.length_finRange]
    exact hk
  have hsplit : List.finRange treCacheSlots = (List.finRange treCacheSlots).take k ++
      ⟨k, hk⟩ :: (List.finRange treCacheSlots).drop (k + 1) := by
    conv_lhs => rw [← List.take_append_drop k (List.finRange treCacheSlots)]
    rw [List.drop_eq_getElem_cons hlen, List.getElem_finRange]
    rfl
  rw [TreCache.target, hsplit]
  refine TreCache.targetFrom_append ?_ (h.vacant _ le_rfl) none
  intro j hj
  obtain ⟨m, hm, hget⟩ := List.getElem_of_mem hj
  rw [List.length_take] at hm
  rw [List.getElem_take, List.getElem_finRange] at hget
  have hval : j.val = m := by
    rw [← hget]
    rfl
  rw [h.compiled j (by omega)]
  exact Option.some_ne_none _

/-- A byte that is in no slot is compiled. -/
theorem effect_lookupByte {pin : Bool} (hfind : s.cache.find (bytePattern k) 0 = none) :
    (lookupByte k pin).effect 1 s = s.cache.store (bytePattern k) 0 pin true k := by
  have hlen : ¬treMaxPatternLen < (bytePattern k).length := by
    unfold bytePattern treMaxPatternLen
    rw [List.length_singleton]
    omega
  rw [lookupByte, CacheOp.effect, TreCache.lookupInternal, if_neg hlen, hfind]
  dsimp only
  rw [if_neg (by omega), if_neg (lt_irrefl 1)]

/-- The next byte goes into the next slot. -/
theorem Filled.next (h : Filled n k s) (hpos : 0 < k) (hk : k < treCacheSlots) :
    Filled n (k + 1) ((lookupByte k true).run 1 s) := by
  have heff : (lookupByte k true).effect 1 s =
      ⟨.ok (some k), s.cache.put ⟨k, hk⟩ ⟨bytePattern k, 0, some k, s.cache.tick, 1⟩ s.cache.tick,
        some k, none⟩ := by
    rw [effect_lookupByte (h.find_eq_none hk.le), TreCache.store, h.target_eq hk]
    dsimp only
    rw [h.vacant ⟨k, hk⟩ le_rfl]
    rfl
  have hself : ((lookupByte k true).run 1 s).cache.slots ⟨k, hk⟩ =
      ⟨bytePattern k, 0, some k, s.cache.tick, 1⟩ := by
    rw [CacheOp.run, heff]
    exact TreCache.put_slots_self _ _ _ _
  have hother : ∀ i : Fin treCacheSlots, i.val ≠ k →
      ((lookupByte k true).run 1 s).cache.slots i = s.cache.slots i := by
    intro i hi
    rw [CacheOp.run, heff]
    exact TreCache.put_slots_of_ne (fun heq => hi (congrArg Fin.val heq)) _ _
  have hcase : ∀ i : Fin treCacheSlots, i.val < k + 1 → i = ⟨k, hk⟩ ∨ i.val < k := by
    intro i hi
    rcases Nat.lt_succ_iff_lt_or_eq.mp hi with hlt | heq
    · exact Or.inr hlt
    · exact Or.inl (Fin.ext heq)
  refine ⟨?_, ?_, ?_, ?_, ?_, ?_, ?_, ?_, ?_⟩
  · intro i hi
    rcases hcase i hi with rfl | hlt
    · rw [hself]
    · rw [hother i hlt.ne]
      exact h.compiled i hlt
  · intro i hi
    rcases hcase i hi with rfl | hlt
    · rw [hself]
    · rw [hother i hlt.ne]
      exact h.pattern i hlt
  · intro i hi
    rcases hcase i hi with rfl | hlt
    · rw [hself]
    · rw [hother i hlt.ne]
      exact h.collation i hlt
  · intro i hi
    rcases hcase i hi with rfl | hlt
    · rw [hself, if_neg hpos.ne']
    · rw [hother i hlt.ne]
      exact h.pinned i hlt
  · intro i hi
    rw [hother i (by omega)]
    exact h.vacant i (by omega)
  · intro c hc
    have hne : c ≠ k := by omega
    have hheap : ((lookupByte k true).run 1 s).heap c = s.heap c := by
      rw [CacheOp.run, heff]
      exact Function.update_of_ne hne _ _
    rw [hheap]
    exact h.heap c (by omega)
  · have hpins : ((lookupByte k true).run 1 s).pins 0 = s.pins 0 := by
      rw [CacheOp.run, heff]
      exact Function.update_of_ne hpos.ne _ _
    rw [hpins]
    exact h.pins
  · intro c hc
    have hne : c ≠ k := by omega
    have hpins : ((lookupByte k true).run 1 s).pins c = s.pins c := by
      rw [CacheOp.run, heff]
      exact Function.update_of_ne hne _ _
    rw [hpins]
    exact h.unpinned c (by omega)
  · intro c
    rw [CacheOp.run, heff]
    by_cases hc : c = k
    · rw [hc]
      refine (Function.update_self k _ _).le.trans ?_
      rw [h.unpinned k le_rfl]
      exact le_max_right n 1
    · exact (Function.update_of_ne hc _ _).le.trans (h.pins_le c)

/-- The cast of a sum does not see an earlier cast. -/
theorem toInt32_toInt32_add (v w : ℤ) : toInt32 (toInt32 v + w) = toInt32 (v + w) :=
  Int.bmod_add_bmod

/-- A byte in the cache is pinned once more. -/
theorem Filled.again (h : Filled n 1 s) : Filled (n + 1) 1 (pinFirst.run 1 s) := by
  have hzero : ∀ i : Fin treCacheSlots, i.val < 1 → i = 0 := fun i hi => Fin.ext (Nat.lt_one_iff.mp hi)
  have hfind : s.cache.find (bytePattern 0) 0 = some 0 := by
    cases hfind : s.cache.find (bytePattern 0) 0 with
    | none =>
      refine absurd ?_ (List.find?_eq_none.mp hfind 0 (List.mem_finRange 0))
      simp only [h.compiled 0 Nat.one_pos, h.collation 0 Nat.one_pos, h.pattern 0 Nat.one_pos]
      rfl
    | some i =>
      obtain ⟨⟨c, hc⟩, -, -⟩ := TreCache.find_eq_some hfind
      by_cases hi : i.val < 1
      · rw [hzero i hi]
      · rw [h.vacant i (not_lt.mp hi)] at hc
        cases hc
  have hlen : ¬treMaxPatternLen < (bytePattern 0).length := by
    unfold bytePattern treMaxPatternLen
    rw [List.length_singleton]
    omega
  have heff : pinFirst.effect 1 s = ⟨.ok (s.cache.slots 0).compiled,
      s.cache.put 0 { s.cache.slots 0 with
        lastUsed := s.cache.tick
        pinned := toInt32 ((s.cache.slots 0).pinned + 1) } s.cache.tick, none, none⟩ := by
    rw [pinFirst, CacheOp.effect, TreCache.lookupInternal, if_neg hlen, hfind]
    rfl
  have hcompiled := h.compiled 0 Nat.one_pos
  have hself : (pinFirst.run 1 s).cache.slots 0 = { s.cache.slots 0 with
      lastUsed := s.cache.tick
      pinned := toInt32 ((s.cache.slots 0).pinned + 1) } := by
    rw [CacheOp.run, heff]
    exact TreCache.put_slots_self _ 0 _ _
  have hother : ∀ i : Fin treCacheSlots, i ≠ 0 →
      (pinFirst.run 1 s).cache.slots i = s.cache.slots i := by
    intro i hi
    rw [CacheOp.run, heff]
    exact TreCache.put_slots_of_ne hi _ _
  have hpins : (pinFirst.run 1 s).pins = Function.update s.pins 0 (s.pins 0 + 1) := by
    rw [CacheOp.run, heff, hcompiled]
    rfl
  have hheap : (pinFirst.run 1 s).heap = s.heap := by
    rw [CacheOp.run, heff]
    rfl
  refine ⟨?_, ?_, ?_, ?_, ?_, ?_, ?_, ?_, ?_⟩
  · intro i hi
    rw [hzero i hi, hself]
    exact hcompiled
  · intro i hi
    rw [hzero i hi, hself]
    exact h.pattern 0 Nat.one_pos
  · intro i hi
    rw [hzero i hi, hself]
    exact h.collation 0 Nat.one_pos
  · intro i hi
    have hold := h.pinned 0 Nat.one_pos
    rw [if_pos (show (0 : Fin treCacheSlots).val = 0 from rfl)] at hold
    rw [hzero i hi, hself, if_pos (show (0 : Fin treCacheSlots).val = 0 from rfl)]
    dsimp only
    rw [hold, toInt32_toInt32_add]
    push_cast
    rfl
  · intro i hi
    have hne : i ≠ 0 := by
      rintro rfl
      exact absurd hi (by decide)
    rw [hother i hne]
    exact h.vacant i hi
  · intro c hc
    rw [hheap]
    exact h.heap c hc
  · rw [hpins, Function.update_self, h.pins]
  · intro c hc
    have hne : c ≠ 0 := by omega
    rw [hpins, Function.update_of_ne hne]
    exact h.unpinned c hc
  · intro c
    rw [hpins]
    by_cases hc : c = 0
    · rw [hc, Function.update_self, h.pins]
      exact le_max_left _ 1
    · rw [Function.update_of_ne hc]
      exact (h.pins_le c).trans (max_le_max_right 1 (Nat.le_succ n))

/-- A session starts with every slot empty. -/
theorem filled_start : Filled 1 1 ((lookupByte 0 true).run 1 .start) := by
  have hfind : CacheSession.start.cache.find (bytePattern 0) 0 = none := rfl
  have htarget : CacheSession.start.cache.target = some 0 := rfl
  have heff : (lookupByte 0 true).effect 1 .start =
      ⟨.ok (some 0), CacheSession.start.cache.put 0 ⟨bytePattern 0, 0, some 0, 1, 1⟩ 1,
        some 0, none⟩ := by
    rw [effect_lookupByte hfind, TreCache.store, htarget]
    rfl
  have hzero : ∀ i : Fin treCacheSlots, i.val < 1 → i = 0 := fun i hi => Fin.ext (Nat.lt_one_iff.mp hi)
  have hself : ((lookupByte 0 true).run 1 .start).cache.slots 0 = ⟨bytePattern 0, 0, some 0, 1, 1⟩ := by
    rw [CacheOp.run, heff]
    exact TreCache.put_slots_self _ 0 _ _
  refine ⟨?_, ?_, ?_, ?_, ?_, ?_, ?_, ?_, ?_⟩
  · intro i hi
    rw [hzero i hi, hself]
    rfl
  · intro i hi
    rw [hzero i hi, hself]
    rfl
  · intro i hi
    rw [hzero i hi, hself]
  · intro i hi
    rw [hzero i hi, hself]
    rfl
  · intro i hi
    have hne : i ≠ 0 := by
      rintro rfl
      exact absurd hi (by decide)
    rw [CacheOp.run, heff]
    exact congrArg TreCacheSlot.compiled (TreCache.put_slots_of_ne hne _ _)
  · intro c hc
    have hne : c ≠ 0 := by omega
    rw [CacheOp.run, heff]
    exact Function.update_of_ne hne _ _
  · rw [CacheOp.run, heff]
    rfl
  · intro c hc
    have hne : c ≠ 0 := by omega
    rw [CacheOp.run, heff]
    exact Function.update_of_ne hne _ _
  · intro c
    rw [CacheOp.run, heff]
    by_cases hc : c = 0
    · rw [hc]
      exact le_refl 1
    · exact (Function.update_of_ne hc _ _).le.trans (Nat.zero_le _)

/-- The first byte can be pinned any number of times before the others are compiled. -/
theorem exists_filled (n k : ℕ) (hk : k < treCacheSlots) :
    ∃ s, CacheReachable 1 (fun s => ∀ h, s.pins h ≤ n + 1) s ∧ Filled (n + 1) (k + 1) s := by
  have hbound : ∀ {n k s}, Filled (n + 1) k s → ∀ h, s.pins h ≤ n + 1 := fun hfilled h =>
    (hfilled.pins_le h).trans (max_le le_rfl (Nat.succ_pos _))
  induction k with
  | zero =>
    induction n with
    | zero =>
      refine ⟨_, CacheReachable.step (lookupByte 0 true) .start ?_ (hbound filled_start), filled_start⟩
      intro h m _
      rfl
    | succ n ih =>
      obtain ⟨s, hreached, hfilled⟩ := ih
      refine ⟨_, CacheReachable.step pinFirst
        (hreached.mono fun s hs h => (hs h).trans (Nat.le_succ _)) ?_ (hbound hfilled.again),
          hfilled.again⟩
      rintro h m hcompile
      obtain ⟨rfl, -⟩ := CompileResult.compiled.inj hcompile
      exact hfilled.heap 1 le_rfl
  | succ k ih =>
    obtain ⟨s, hreached, hfilled⟩ := ih (by omega)
    have hnext := hfilled.next (Nat.succ_pos k) hk
    refine ⟨_, CacheReachable.step (lookupByte (k + 1) true) hreached ?_ (hbound hnext), hnext⟩
    rintro h m hcompile
    obtain ⟨rfl, -⟩ := CompileResult.compiled.inj hcompile
    exact hfilled.heap (k + 1) le_rfl

/-- All slots but the first are pinned once. -/
theorem Filled.rest_pinned (h : Filled n treCacheSlots s) {i : Fin treCacheSlots} (hi : i.val ≠ 0) :
    (s.cache.slots i).compiled ≠ none ∧ 0 < (s.cache.slots i).pinned := by
  constructor
  · rw [h.compiled i i.isLt]
    exact Option.some_ne_none _
  · rw [h.pinned i i.isLt, if_neg hi]
    exact Int.one_pos

/-- The first slot is used when its counter has run over. -/
theorem Filled.target_wrapped (h : Filled n treCacheSlots s) (hn : toInt32 n ≤ 0) :
    s.cache.target = some 0 := by
  have hempty : (s.cache.slots 0).compiled ≠ none := by
    rw [h.compiled 0 (by decide)]
    exact Option.some_ne_none _
  have hpinned : ¬0 < (s.cache.slots 0).pinned := by
    rw [h.pinned 0 (by decide), if_pos (show (0 : Fin treCacheSlots).val = 0 from rfl)]
    exact not_lt.mpr hn
  have hlist : List.finRange treCacheSlots = 0 :: (List.finRange 31).map Fin.succ := List.finRange_succ
  rw [TreCache.target, hlist, TreCache.targetFrom, if_neg hempty, if_neg hpinned]
  refine TreCache.targetFrom_pinned ?_ _
  intro j hj
  obtain ⟨i, -, rfl⟩ := List.mem_map.mp hj
  exact h.rest_pinned (Nat.succ_ne_zero i)

/-- No slot is used when the first one is pinned too. -/
theorem Filled.target_full (h : Filled n treCacheSlots s) (hn : 0 < toInt32 n) :
    s.cache.target = none := by
  refine TreCache.targetFrom_pinned ?_ none
  intro i _
  by_cases hi : i.val = 0
  · constructor
    · rw [h.compiled i i.isLt]
      exact Option.some_ne_none _
    · rw [h.pinned i i.isLt, if_pos hi]
      exact hn
  · exact h.rest_pinned hi

/-- A lookup in a cache filled so far is allowed. -/
theorem Filled.allowed (h : Filled n k s) (pin : Bool) : (lookupByte k pin).Allowed s := by
  rintro c m hcompile
  obtain ⟨rfl, -⟩ := CompileResult.compiled.inj hcompile
  exact h.heap k le_rfl

/-- The first byte's only pin is given back. -/
theorem Filled.released (h : Filled 1 treCacheSlots s) :
    Filled 0 treCacheSlots ((CacheOp.release 0).run 1 s) := by
  have hval : ∀ i : Fin treCacheSlots, (s.cache.slots i).compiled = some 0 → i = 0 := by
    intro i hi
    rw [h.compiled i i.isLt] at hi
    exact Fin.ext (Option.some.inj hi)
  have hzero := h.compiled 0 (by decide)
  have heff : s.cache.release 0 = ⟨.ok none,
      s.cache.put 0 { s.cache.slots 0 with pinned := 0 } s.cache.clock,
      none, none⟩ := by
    rcases release_cases s.cache 0 with ⟨i, hi, heff⟩ | ⟨hno, -⟩
    · have hone : (s.cache.slots 0).pinned = 1 := h.pinned 0 (by decide)
      rw [heff, hval i hi, hone]
      rfl
    · exact absurd hzero (hno 0)
  have hself : ((CacheOp.release 0).run 1 s).cache.slots 0 = { s.cache.slots 0 with pinned := 0 } := by
    rw [CacheOp.run, CacheOp.effect, heff]
    exact TreCache.put_slots_self _ 0 _ _
  have hother : ∀ i : Fin treCacheSlots, i ≠ 0 →
      ((CacheOp.release 0).run 1 s).cache.slots i = s.cache.slots i := by
    intro i hi
    rw [CacheOp.run, CacheOp.effect, heff]
    exact TreCache.put_slots_of_ne hi _ _
  have hsame : ∀ i, (((CacheOp.release 0).run 1 s).cache.slots i).compiled =
      (s.cache.slots i).compiled ∧
      (((CacheOp.release 0).run 1 s).cache.slots i).pattern = (s.cache.slots i).pattern ∧
      (((CacheOp.release 0).run 1 s).cache.slots i).collation = (s.cache.slots i).collation := by
    intro i
    by_cases hi : i = 0
    · rw [hi, hself]
      exact ⟨rfl, rfl, rfl⟩
    · rw [hother i hi]
      exact ⟨rfl, rfl, rfl⟩
  have hheap : ((CacheOp.release 0).run 1 s).heap = s.heap := by
    rw [CacheOp.run, CacheOp.effect, heff]
    rfl
  have hpins : ((CacheOp.release 0).run 1 s).pins = Function.update s.pins 0 (s.pins 0 - 1) := rfl
  refine ⟨?_, ?_, ?_, ?_, ?_, ?_, ?_, ?_, ?_⟩
  · intro i hi
    rw [(hsame i).1]
    exact h.compiled i hi
  · intro i hi
    rw [(hsame i).2.1]
    exact h.pattern i hi
  · intro i hi
    rw [(hsame i).2.2]
    exact h.collation i hi
  · intro i hi
    by_cases hi' : i = 0
    · rw [hi', hself]
      rfl
    · have hne : i.val ≠ 0 := fun heq => hi' (Fin.ext heq)
      rw [hother i hi', h.pinned i hi, if_neg hne, if_neg hne]
  · intro i hi
    exact absurd i.isLt (not_lt.mpr hi)
  · intro c hc
    rw [hheap]
    exact h.heap c hc
  · rw [hpins, Function.update_self, h.pins]
  · intro c hc
    have hne : c ≠ 0 := by
      rintro rfl
      exact absurd hc (by decide)
    rw [hpins, Function.update_of_ne hne]
    exact h.unpinned c hc
  · intro c
    rw [hpins]
    by_cases hc : c = 0
    · rw [hc, Function.update_self, h.pins]
      exact Nat.zero_le _
    · rw [Function.update_of_ne hc]
      exact h.pins_le c

end

/-- In every session in which each handle has been pinned fewer than `2 ^ 31` times at once, what is
compiled is in the cache or held unless it was leaked, and every operation respects who owns the
compiled patterns. -/
theorem CacheReachable.owned {maxNfaStates : ℤ} {s : CacheSession}
    (h : CacheReachable maxNfaStates CacheSession.FewPins s) :
    (∀ c, s.heap c ≠ none → s.Kept c ∨ s.Leaked maxNfaStates c) ∧
      ∀ op : CacheOp, op.Allowed s → op.Owned maxNfaStates s :=
  ⟨fun _ hheap => h.kept_or_leaked hheap, fun _ hallowed => owned_of_sound h.sound hallowed⟩

/-- A session fills the cache with pinned patterns. It then looks up another one, which is freed
when its pin is given back, or it gives back the pin of the first pattern, which the other one
evicts. -/
theorem CacheReachable.owned_evicted :
    ∃ s, Filled 1 treCacheSlots s ∧ CacheReachable 1 CacheSession.FewPins s ∧
      ((∀ c, ((lookupByte 32 true).run 1 s).heap c ≠ none →
          ((lookupByte 32 true).run 1 s).Kept c ∨ ((lookupByte 32 true).run 1 s).Leaked 1 c) ∧
        (CacheOp.release 32).Owned 1 ((lookupByte 32 true).run 1 s)) ∧
      ((∀ c, ((CacheOp.release 0).run 1 s).heap c ≠ none →
          ((CacheOp.release 0).run 1 s).Kept c ∨ ((CacheOp.release 0).run 1 s).Leaked 1 c) ∧
        (lookupByte 32 true).Owned 1 ((CacheOp.release 0).run 1 s)) ∧
      ((CacheOp.release 32).effect 1 ((lookupByte 32 true).run 1 s)).freed = some 32 ∧
      ((lookupByte 32 true).effect 1 ((CacheOp.release 0).run 1 s)).freed = some 0 := by
  have hfew : ∀ s : CacheSession, (∀ h, s.pins h ≤ 1) → s.FewPins := fun s hs h =>
    (hs h).trans_lt (show 1 < 2 ^ 31 by decide)
  obtain ⟨s, hreached, hfilled⟩ := exists_filled 0 31 (by decide)
  have hreached := hreached.mono hfew
  have hreleased := hfilled.released
  have hafter : CacheReachable 1 CacheSession.FewPins ((CacheOp.release 0).run 1 s) :=
    .step _ hreached (show 0 < s.pins 0 from hfilled.pins ▸ Nat.one_pos)
      (hfew _ fun h => hreleased.pins_le h)
  have heff : (lookupByte 32 true).effect 1 s = ⟨.ok (some 32), s.cache, some 32, none⟩ := by
    rw [effect_lookupByte (hfilled.find_eq_none le_rfl), TreCache.store,
      hfilled.target_full (by decide)]
  have hpins : ((lookupByte 32 true).run 1 s).pins = Function.update s.pins 32 (s.pins 32 + 1) := by
    rw [CacheOp.run, heff]
    rfl
  have hone : ((lookupByte 32 true).run 1 s).pins 32 = 1 := by
    rw [hpins, Function.update_self, hfilled.unpinned 32 le_rfl]
  have horphan : CacheReachable 1 CacheSession.FewPins ((lookupByte 32 true).run 1 s) := by
    refine .step _ hreached (hfilled.allowed true) (hfew _ fun h => ?_)
    by_cases hh : h = 32
    · rw [hh, hone]
    · rw [hpins, Function.update_of_ne hh]
      exact hfilled.pins_le h
  refine ⟨s, hfilled, hreached, ⟨horphan.owned.1, horphan.owned.2 _ ?_⟩,
    ⟨hafter.owned.1, hafter.owned.2 _ (hreleased.allowed true)⟩, ?_, ?_⟩
  · exact Nat.one_pos.trans_le hone.ge
  · rcases release_cases ((lookupByte 32 true).run 1 s).cache 32 with ⟨i, hi, -⟩ | ⟨-, hrelease⟩
    · rw [CacheOp.run, heff] at hi
      have hval := Option.some.inj ((hfilled.compiled i i.isLt).symm.trans hi)
      exact absurd i.isLt (hval ▸ lt_irrefl 32)
    · rw [CacheOp.effect, hrelease]
  · rw [effect_lookupByte (hreleased.find_eq_none le_rfl), TreCache.store,
      hreleased.target_wrapped (by decide)]
    exact hreleased.compiled 0 (by decide)

/-! ## What is lost -/

/-- A compiled pattern that is in no slot and that nobody holds. -/
structure CacheSession.Lost (s : CacheSession) (h : CompiledHandle) : Prop where
  compiled : s.heap h ≠ none
  unheld : s.pins h = 0
  nowhere : ∀ i, (s.cache.slots i).compiled ≠ some h

section

variable {maxNfaStates : ℤ} {s t : CacheSession} {h : CompiledHandle}

/-- A slot that changes does not get it. -/
theorem CacheSession.Lost.put (hlost : s.Lost h) {i j : Fin treCacheSlots} {slot : TreCacheSlot}
    {clock : ℕ} (hslot : slot.compiled ≠ some h) :
    ((s.cache.put i slot clock).slots j).compiled ≠ some h := by
  by_cases hj : j = i
  · rw [hj, TreCache.put_slots_self]
    exact hslot
  · rw [TreCache.put_slots_of_ne hj]
    exact hlost.nowhere j

/-- A lookup does not find it. -/
theorem CacheSession.Lost.lookup (hlost : s.Lost h) {pattern : List UInt8} {collation : ℕ}
    {pin memory : Bool} {compile : CompileResult} {eff : CacheEffect}
    (hallowed : (CacheOp.lookup pattern collation pin compile memory).Allowed s)
    (hout : LookupOutcome s.cache pattern collation pin compile memory eff) :
    ((CacheOp.lookup pattern collation pin compile memory).after s eff).Lost h := by
  have hfresh : ∀ c n, compile = .compiled c n → c ≠ h := by
    rintro c n hcompile rfl
    exact hlost.compiled (hallowed c n hcompile)
  have hcompiled := @compiledHeap_ne_none s h eff
    (CacheOp.lookup pattern collation pin compile memory) hlost.compiled
  have hfreed : eff.freed ≠ some h := by
    cases hout with
    | refused e => simp
    | hit i c hc hpattern hcollation => simp
    | rejected e c n hcompile => simpa using hfresh c n hcompile
    | uncached c n hcompile hall => simp
    | stored i c n hcompile hfree => exact hlost.nowhere i
    | noMemory e i c n hmemory hcompile hfree => exact hlost.nowhere i
  have hresult : eff.result ≠ .ok (some h) := by
    cases hout with
    | refused e => simp
    | hit i c hc hpattern hcollation =>
      have hne : c ≠ h := by
        rintro rfl
        exact hlost.nowhere i hc
      simpa using hne
    | rejected e c n hcompile => simp
    | uncached c n hcompile hall => simpa using hfresh c n hcompile
    | stored i c n hcompile hfree => simpa using hfresh c n hcompile
    | noMemory e i c n hmemory hcompile hfree => simp
  refine ⟨?_, ?_, ?_⟩
  · unfold CacheOp.after
    dsimp only
    cases hwhich : eff.freed with
    | none => exact hcompiled
    | some c =>
      have hne : h ≠ c := by
        rintro rfl
        exact hfreed hwhich
      dsimp only
      rw [Function.update_of_ne hne]
      exact hcompiled
  · have hsame := @pinsAfter_lookup_eq s h pattern collation pin memory compile eff hresult
    exact hsame.trans hlost.unheld
  · intro j
    cases hout with
    | refused e => exact hlost.nowhere j
    | hit i c hc hpattern hcollation => exact hlost.put (hlost.nowhere i)
    | rejected e c n hcompile => exact hlost.nowhere j
    | uncached c n hcompile hall => exact hlost.nowhere j
    | stored i c n hcompile hfree => exact hlost.put (by simpa using hfresh c n hcompile)
    | noMemory e i c n hmemory hcompile hfree => exact hlost.put (by simp [TreCacheSlot.vacant])

/-- It is never freed. -/
theorem CacheSession.Lost.step (hlost : s.Lost h) (hstep : CacheSession.Step maxNfaStates s t) :
    t.Lost h := by
  obtain ⟨op, hallowed, rfl⟩ := hstep
  cases op with
  | lookup pattern collation pin compile memory =>
    exact hlost.lookup hallowed (lookupOutcome maxNfaStates _ pattern collation pin compile memory)
  | release c =>
    have hne : h ≠ c := by
      rintro rfl
      exact absurd hlost.unheld (show 0 < s.pins h from hallowed).ne'
    have hpins : ((CacheOp.release c).run maxNfaStates s).pins h = s.pins h :=
      Function.update_of_ne hne _ _
    rcases release_cases s.cache c with ⟨i, hi, heff⟩ | ⟨-, heff⟩
    · refine ⟨?_, hpins.trans hlost.unheld, ?_⟩
      · rw [CacheOp.run, CacheOp.effect, heff]
        exact hlost.compiled
      · intro j
        rw [CacheOp.run, CacheOp.effect, heff]
        exact hlost.put (hlost.nowhere i)
    · refine ⟨?_, hpins.trans hlost.unheld, ?_⟩
      · rw [CacheOp.run, CacheOp.effect, heff]
        exact fun hheap => hlost.compiled ((Function.update_of_ne hne _ _).symm.trans hheap)
      · intro j
        rw [CacheOp.run, CacheOp.effect, heff]
        exact hlost.nowhere j

/-- What is lost stays lost. -/
theorem CacheSession.Lost.later (hlost : s.Lost h)
    (hsteps : Relation.ReflTransGen (CacheSession.Step maxNfaStates) s t) : t.Lost h := by
  induction hsteps with
  | refl => exact hlost
  | tail _ hstep ih => exact ih.step hstep

/-- The pin of a handle is forgotten when its counter runs over, and a pattern that is looked up without
a pin while every slot is pinned is never freed. -/
theorem CacheReachable.not_owned :
    (∃ (s : CacheSession) (op : CacheOp), CacheReachable 1 (fun _ => True) s ∧ op.Allowed s ∧
      ∃ h, (op.effect 1 s).freed = some h ∧ 0 < (op.run 1 s).pins h) ∧
    ∃ s h, CacheReachable 1 (fun _ => True) s ∧
      ∀ t, Relation.ReflTransGen (CacheSession.Step 1) s t → t.Lost h := by
  constructor
  · obtain ⟨s, hreached, hfilled⟩ := exists_filled (2 ^ 31 - 1) 31 (by decide)
    have htarget := Filled.target_wrapped hfilled (by decide)
    have heff : ((lookupByte 32 true).effect 1 s).freed = some 0 := by
      rw [effect_lookupByte (hfilled.find_eq_none le_rfl), TreCache.store, htarget]
      exact hfilled.compiled 0 (by decide)
    have hresult : ((lookupByte 32 true).effect 1 s).result = .ok (some 32) := by
      rw [effect_lookupByte (hfilled.find_eq_none le_rfl), TreCache.store, htarget]
      rfl
    have hpins : ((lookupByte 32 true).run 1 s).pins 0 = s.pins 0 := by
      have hne : ((lookupByte 32 true).effect 1 s).result ≠ .ok (some 0) := by
        rw [hresult]
        simp
      exact @pinsAfter_lookup_eq s 0 (bytePattern 32) 0 true true (.compiled 32 1) _ hne
    refine ⟨s, lookupByte 32 true, hreached.mono fun _ _ => trivial, hfilled.allowed true, 0, heff, ?_⟩
    rw [hpins, hfilled.pins]
    exact Nat.succ_pos _
  · obtain ⟨s, hreached, hfilled⟩ := exists_filled 0 31 (by decide)
    have htarget := Filled.target_full hfilled (by decide)
    have heff : (lookupByte 32 false).effect 1 s = ⟨.ok (some 32), s.cache, some 32, none⟩ := by
      rw [effect_lookupByte (hfilled.find_eq_none le_rfl), TreCache.store, htarget]
    refine ⟨(lookupByte 32 false).run 1 s, 32,
      CacheReachable.step _ (hreached.mono fun _ _ => trivial) (hfilled.allowed false) trivial, ?_⟩
    intro t hsteps
    refine CacheSession.Lost.later ?_ hsteps
    rw [CacheOp.run, heff]
    refine ⟨?_, hfilled.unpinned 32 le_rfl, ?_⟩
    · have hheap : Function.update s.heap 32 (some (bytePattern 32, 0)) 32 = some (bytePattern 32, 0) :=
        Function.update_self 32 _ s.heap
      exact fun hnone => absurd (hheap.symm.trans hnone) (Option.some_ne_none _)
    · intro i hi
      have hval := Option.some.inj ((hfilled.compiled i i.isLt).symm.trans hi)
      have hlt : i.val < 32 := i.isLt
      omega

end

end PgTre
