import PgTre.Query.WordSimilarity
import Mathlib.Tactic.Ring

/-!
# The search for the most similar extent

`iterate_word_sim` keeps the distinct and the common trigrams from its lower bound on. After each
position at which an extent may end, the lower bound is the first one with the greatest ratio among
those that were left, and the numbers are those of the extent from there.
-/

namespace PgTre

open SlidingWindow

variable {inp : WordSimInput}

/-! ## The ratio of an extent -/

/-- The number of distinct trigrams from `a` up to `b`. -/
def WordSimInput.distinct (inp : WordSimInput) (a b : ℕ) : ℕ :=
  count inp.trg2indexes (fun _ => true) a b

/-- The number of distinct trigrams from `a` up to `b` that the first string has too. -/
def WordSimInput.common (inp : WordSimInput) (a b : ℕ) : ℕ :=
  count inp.trg2indexes inp.found a b

/-- The similarity of the extent from `a` up to `b`. -/
def WordSimInput.ratio (inp : WordSimInput) (a b : ℕ) : ℚ :=
  (inp.common a b : ℤ) / (inp.ulen1 + inp.distinct a b - inp.common a b : ℤ)

/-- What `calc_word_sim` takes care of: common trigrams are trigrams of the first string, and the
second string begins with a word. -/
structure WordSimInput.Bounded (inp : WordSimInput) : Prop where
  common_le : ∀ a b, b ≤ inp.len2 → inp.common a b ≤ inp.ulen1
  isLower_zero : 0 < inp.len2 → inp.isLower 0 = true

/-- The divisor of a similarity is positive. -/
theorem WordSimInput.Bounded.divisor_pos (hinp : inp.Bounded) {a b : ℕ} (hab : a < b)
    (hb : b ≤ inp.len2) : (0 : ℤ) < inp.ulen1 + inp.distinct a b - inp.common a b := by
  have hcommon := hinp.common_le a b hb
  have hle : inp.common a b ≤ inp.distinct a b := count_le
  have hpos : 0 < inp.distinct a b := count_true_pos hab
  omega

/-- The similarity of an extent is defined. -/
theorem WordSimInput.Bounded.smlr_eq (hinp : inp.Bounded) {a b : ℕ} (hab : a < b)
    (hb : b ≤ inp.len2) : inp.smlr (inp.common a b) (inp.distinct a b) = some (inp.ratio a b) := by
  unfold WordSimInput.smlr
  rw [if_neg (hinp.divisor_pos hab hb).ne']
  rfl

/-! ## The loop over the lower bounds -/

/-- The loop over the lower bounds from `l` on has come to `a`, for extents that end before `e`. -/
structure Shrinking.Valid (inp : WordSimInput) (l e a : ℕ) (s : Shrinking) : Prop where
  tmpUlen2 : s.tmpUlen2 = inp.distinct a e
  tmpCount : s.tmpCount = inp.common a e
  le_lower : l ≤ s.lower
  lower_lt : s.lower < e
  isLower : inp.isLower s.lower = true
  ulen2 : s.ulen2 = inp.distinct s.lower e
  count : s.count = inp.common s.lower e
  smlrCur : s.smlrCur = inp.ratio s.lower e
  best : ∀ l', l ≤ l' → l' < a → inp.isLower l' = true → inp.ratio l' e ≤ s.smlrCur
  first : ∀ l', l ≤ l' → l' < s.lower → inp.isLower l' = true → inp.ratio l' e < s.smlrCur

variable {l e a : ℕ} {s : Shrinking}

/-- A lower bound is taken if it beats the ones before. -/
theorem Shrinking.Valid.tryLower (hs : s.Valid inp l e a) (hinp : inp.Bounded) (hla : l ≤ a)
    (hae : a < e) (he : e ≤ inp.len2) :
    ∃ s', inp.tryLower s a = some s' ∧ s'.Valid inp l e a ∧
      (inp.isLower a = true → inp.ratio a e ≤ s'.smlrCur) := by
  unfold WordSimInput.tryLower
  by_cases hlower : inp.isLower a = true
  · rw [if_pos hlower, hs.tmpCount, hs.tmpUlen2, hinp.smlr_eq hae he, Option.map_some]
    refine ⟨_, rfl, ?_⟩
    split_ifs with hbetter
    · refine ⟨⟨rfl, rfl, hla, hae, hlower, rfl, rfl, rfl, ?_, ?_⟩, fun _ => le_rfl⟩
      · intro l' hll' hl'a hl'
        exact (hs.best l' hll' hl'a hl').trans hbetter.le
      · intro l' hll' hl'a hl'
        exact (hs.best l' hll' hl'a hl').trans_lt hbetter
    · exact ⟨hs, fun _ => not_lt.mp hbetter⟩
  · rw [if_neg hlower]
    exact ⟨s, rfl, hs, fun h => absurd h hlower⟩

/-- A trigram leaves the extent with its last position. -/
theorem Shrinking.Valid.leaveLower (hs : s.Valid inp l e a) {lastpos : ℕ → Option ℕ}
    (hmarked : Marked inp.trg2indexes l e lastpos) (hla : l ≤ a) (hae : a < e)
    (htried : inp.isLower a = true → inp.ratio a e ≤ s.smlrCur) :
    (inp.leaveLower lastpos s a).Valid inp l e (a + 1) := by
  have hlast : lastpos (inp.trg2indexes a) = some a ↔
      inp.trg2indexes a ∉ values inp.trg2indexes (a + 1) e := by
    rw [hmarked, ← isLast_start hae]
    constructor
    · rintro ⟨⟨-, -, hlater⟩, -⟩
      exact ⟨le_rfl, hae, hlater⟩
    · rintro ⟨-, -, hlater⟩
      exact ⟨⟨hla, hae, hlater⟩, rfl⟩
  have hdistinct : inp.distinct (a + 1) e +
      (if lastpos (inp.trg2indexes a) = some a then 1 else 0) = inp.distinct a e := by
    simpa only [WordSimInput.distinct, hlast, and_true] using
      count_succ_left (f := inp.trg2indexes) (P := fun _ => true) hae
  have hcommon : inp.common (a + 1) e +
      (if lastpos (inp.trg2indexes a) = some a ∧ inp.found (inp.trg2indexes a) = true then 1 else 0)
        = inp.common a e := by
    simpa only [WordSimInput.common, hlast] using
      count_succ_left (f := inp.trg2indexes) (P := inp.found) hae
  have hbest : ∀ l', l ≤ l' → l' < a + 1 → inp.isLower l' = true → inp.ratio l' e ≤ s.smlrCur := by
    intro l' hll' hl'a hl'
    rcases Nat.lt_succ_iff_lt_or_eq.mp hl'a with hlt | rfl
    · exact hs.best l' hll' hlt hl'
    · exact htried hl'
  have htmpUlen2 := hs.tmpUlen2
  have htmpCount := hs.tmpCount
  unfold WordSimInput.leaveLower
  by_cases hmark : lastpos (inp.trg2indexes a) = some a
  · rw [if_pos hmark] at hdistinct ⊢
    refine ⟨?_, ?_, hs.le_lower, hs.lower_lt, hs.isLower, hs.ulen2, hs.count, hs.smlrCur, hbest,
      hs.first⟩
    · dsimp only
      omega
    · dsimp only
      by_cases hfound : inp.found (inp.trg2indexes a) = true
      · rw [if_pos ⟨hmark, hfound⟩] at hcommon
        rw [if_pos hfound]
        omega
      · rw [if_neg (fun h => hfound h.2)] at hcommon
        rw [if_neg hfound]
        omega
  · rw [if_neg hmark] at hdistinct ⊢
    rw [if_neg (fun h => hmark h.1)] at hcommon
    refine ⟨?_, ?_, hs.le_lower, hs.lower_lt, hs.isLower, hs.ulen2, hs.count, hs.smlrCur, hbest,
      hs.first⟩
    · omega
    · omega

/-- The loop tries the lower bounds up to the last position. -/
theorem WordSimInput.Bounded.shrink (hinp : inp.Bounded) (hs : s.Valid inp l (a + 1) l)
    {lastpos : ℕ → Option ℕ} (hmarked : Marked inp.trg2indexes l (a + 1) lastpos) (hla : l ≤ a)
    (ha : a < inp.len2) :
    ∃ s', inp.shrink lastpos s l a = some s' ∧ s'.Valid inp l (a + 1) (a + 1) := by
  have hrun (n : ℕ) (hn : l + n ≤ a + 1) :
      ∃ s', (List.range' l n).foldlM (fun s tmpLower =>
          (inp.tryLower s tmpLower).map fun s => inp.leaveLower lastpos s tmpLower) s = some s' ∧
        s'.Valid inp l (a + 1) (l + n) := by
    induction n with
    | zero => exact ⟨s, rfl, hs⟩
    | succ n ih =>
      obtain ⟨s', hrun', hs'⟩ := ih (by omega)
      obtain ⟨s'', htry, hs'', htried⟩ := hs'.tryLower hinp (by omega) (by omega) (by omega)
      refine ⟨inp.leaveLower lastpos s'' (l + n), ?_,
        hs''.leaveLower hmarked (by omega) (by omega) htried⟩
      rw [List.range'_1_concat, List.foldlM_append, hrun']
      simp only [List.foldlM_cons, List.foldlM_nil, htry, Option.map_some, Option.bind_eq_bind,
        Option.bind_some, Option.pure_def]
  obtain ⟨s', hrun', hs'⟩ := hrun (a + 1 - l) (by omega)
  rw [show l + (a + 1 - l) = a + 1 from by omega] at hs'
  exact ⟨s', hrun', hs'⟩

/-- The marks before the new lower bound are undone. -/
theorem WordSimInput.marked_unmark {lastpos : ℕ → Option ℕ}
    (hmarked : Marked inp.trg2indexes l e lastpos) (n : ℕ) :
    Marked inp.trg2indexes (l + n) e ((List.range' l n).foldl inp.unmark lastpos) := by
  induction n with
  | zero => exact hmarked
  | succ n ih =>
    rw [List.range'_1_concat, List.foldl_append]
    exact ih.forget

/-! ## The loop over the positions -/

/-- The loop has come to position `i`. -/
structure WordSimState.Valid (inp : WordSimInput) (i : ℕ) (s : WordSimState) : Prop where
  ulen2 : s.ulen2 = inp.distinct (s.lower.getD i) i
  count : s.count = inp.common (s.lower.getD i) i
  marked : Marked inp.trg2indexes (s.lower.getD i) i s.lastpos
  lower_le : ∀ l, s.lower = some l → l ≤ i
  isLower : ∀ l, s.lower = some l → 0 < inp.len2 → inp.isLower l = true
  unseen : s.lower = none →
    inp.strict = false ∧ ∀ p < i, inp.found (inp.trg2indexes p) = false
  smlrMax : s.smlrMax = 0 ∨ ∃ a b, a < b ∧ b ≤ i ∧ inp.isLower a = true ∧
    inp.isUpper (b - 1) = true ∧ s.smlrMax = inp.ratio a b

/-- The extents that end at position `i` have been tried, from the lower bound of `s` on, and `l` is
the new one. -/
structure WordSimInput.Tried (inp : WordSimInput) (i l : ℕ) (s s' : WordSimState) : Prop where
  lower : s'.lower = some l
  ge : s.lower.getD i ≤ l
  le : l ≤ i
  isLower : inp.isLower l = true
  best : ∀ l', s.lower.getD i ≤ l' → l' ≤ i → inp.isLower l' = true →
    inp.ratio l' (i + 1) ≤ inp.ratio l (i + 1)
  first : ∀ l', s.lower.getD i ≤ l' → l' < l → inp.isLower l' = true →
    inp.ratio l' (i + 1) < inp.ratio l (i + 1)
  smlrMax : s'.smlrMax = max s.smlrMax (inp.ratio l (i + 1))

/-- What one turn of the loop does to the lower bound and to the maximum. -/
inductive WordSimInput.Turn (inp : WordSimInput) (i : ℕ) (s s' : WordSimState) : Prop where
  | tried (l : ℕ) (hupper : inp.isUpper i = true) (htried : inp.Tried i l s s')
  | passed (hupper : inp.isUpper i = false) (hlower : s'.lower = s.lower)
      (hmax : s'.smlrMax = s.smlrMax)

variable {i : ℕ} {w w' : WordSimState}

/-- A position has been counted and marked. -/
structure WordSimState.Entered (inp : WordSimInput) (i : ℕ) (w w' : WordSimState) : Prop where
  lower : w'.lower = w.lower
  smlrMax : w'.smlrMax = w.smlrMax
  ulen2 : w'.ulen2 = inp.distinct (w.lower.getD i) (i + 1)
  count : w'.count = inp.common (w.lower.getD i) (i + 1)
  marked : Marked inp.trg2indexes (w.lower.getD i) (i + 1) w'.lastpos

/-- The lower bound is at most the position, also if there is none yet. -/
theorem WordSimState.Valid.getD_le (hw : w.Valid inp i) : w.lower.getD i ≤ i := by
  cases hlower : w.lower with
  | none => exact le_rfl
  | some l => exact hw.lower_le l hlower

/-- The numbers of the extent that the position extends. -/
theorem WordSimState.Valid.enter (hw : w.Valid inp i)
    (hcounts : w.lower.isSome = true ∨ inp.found (inp.trg2indexes i) = true) :
    w.Entered inp i (inp.enter w i) := by
  have hle := hw.getD_le
  have hnew : (w.lastpos (inp.trg2indexes i)).isNone = true ↔
      inp.trg2indexes i ∉ values inp.trg2indexes (w.lower.getD i) i := by
    rw [Option.isNone_iff_eq_none, hw.marked.eq_none_iff]
  have hdistinct : inp.distinct (w.lower.getD i) (i + 1) = inp.distinct (w.lower.getD i) i +
      if (w.lastpos (inp.trg2indexes i)).isNone = true then 1 else 0 := by
    simpa only [WordSimInput.distinct, hnew, and_true] using
      count_succ_right (f := inp.trg2indexes) (P := fun _ => true) hle
  have hcommon : inp.common (w.lower.getD i) (i + 1) = inp.common (w.lower.getD i) i +
      if (w.lastpos (inp.trg2indexes i)).isNone = true ∧ inp.found (inp.trg2indexes i) = true
        then 1 else 0 := by
    simpa only [WordSimInput.common, hnew] using
      count_succ_right (f := inp.trg2indexes) (P := inp.found) hle
  have hulen2 := hw.ulen2
  have hcount := hw.count
  unfold WordSimInput.enter
  rw [if_pos (by simpa using hcounts)]
  refine ⟨rfl, rfl, ?_, ?_, hw.marked.record hle⟩
  · dsimp only
    rw [hdistinct]
    split_ifs <;> omega
  · dsimp only
    rw [hcommon]
    simp only [Bool.and_eq_true]
    split_ifs <;> omega

/-- A single position has one trigram. -/
theorem WordSimInput.distinct_single (inp : WordSimInput) (i : ℕ) :
    inp.distinct i (i + 1) = 1 := by
  simp [WordSimInput.distinct, count_succ_right]

/-- The extents that end at the position are tried. -/
theorem WordSimState.Valid.tryUpper (hw : w.Valid inp i) (hinp : inp.Bounded) (hi : i < inp.len2)
    (hupper : inp.isUpper i = true) (hentered : w.Entered inp i w') :
    ∃ w'' l, inp.tryUpper w' i = some w'' ∧ w''.Valid inp (i + 1) ∧ inp.Tried i l w w'' := by
  have hle := hw.getD_le
  have hulen2 : (if w'.lower.isNone then 1 else w'.ulen2) =
      inp.distinct (w.lower.getD i) (i + 1) := by
    rw [hentered.lower, hentered.ulen2]
    cases hlower : w.lower with
    | none => exact (congrArg Nat.cast (inp.distinct_single i)).symm
    | some l => rfl
  have hlower : inp.isLower (w.lower.getD i) = true := by
    cases hlower : w.lower with
    | none =>
      unfold WordSimInput.isLower
      rw [(hw.unseen hlower).1]
      rfl
    | some l => exact hw.isLower l hlower (by omega)
  have hstart : Shrinking.Valid inp (w.lower.getD i) (i + 1) (w.lower.getD i)
      ⟨inp.ratio (w.lower.getD i) (i + 1), inp.distinct (w.lower.getD i) (i + 1),
        inp.common (w.lower.getD i) (i + 1), w.lower.getD i,
        inp.distinct (w.lower.getD i) (i + 1), inp.common (w.lower.getD i) (i + 1)⟩ :=
    ⟨rfl, rfl, le_rfl, by dsimp only; omega, hlower, rfl, rfl, rfl,
      fun l' hge hlt => absurd hlt (not_lt.mpr hge), fun l' hge hlt => absurd hlt (not_lt.mpr hge)⟩
  obtain ⟨r, hshrink, hr⟩ := hinp.shrink hstart hentered.marked hle hi
  have hmarked := inp.marked_unmark hentered.marked (r.lower - w.lower.getD i)
  rw [Nat.add_sub_of_le hr.le_lower] at hmarked
  have htry : inp.tryUpper w' i = some
      { lastpos := (List.range' (w.lower.getD i) (r.lower - w.lower.getD i)).foldl inp.unmark
          w'.lastpos
        ulen2 := r.ulen2
        count := r.count
        lower := some r.lower
        smlrMax := max w.smlrMax r.smlrCur } := by
    rw [hentered.lower] at hulen2
    unfold WordSimInput.tryUpper
    simp only [hentered.lower, hulen2, hentered.count, hentered.smlrMax]
    rw [hinp.smlr_eq (by omega) (by omega), Option.bind_some, hshrink, Option.map_some]
  refine ⟨_, r.lower, htry, ⟨hr.ulen2, hr.count, hmarked, ?_, ?_, ?_, ?_⟩, ?_⟩
  · rintro l hl
    cases hl
    exact hr.lower_lt.le
  · rintro l hl -
    cases hl
    exact hr.isLower
  · intro h
    cases h
  · dsimp only
    rcases max_choice w.smlrMax r.smlrCur with hmax | hmax
    · rw [hmax]
      rcases hw.smlrMax with hzero | ⟨a, b, hab, hb, ha, hb', hratio⟩
      · exact .inl hzero
      · exact .inr ⟨a, b, hab, by omega, ha, hb', hratio⟩
    · rw [hmax, hr.smlrCur]
      exact .inr ⟨r.lower, i + 1, hr.lower_lt, le_rfl, hr.isLower, hupper, rfl⟩
  · have hlt := hr.lower_lt
    refine ⟨rfl, hr.le_lower, by omega, hr.isLower, ?_, ?_, by rw [hr.smlrCur]⟩
    · intro l' hge hle' hl'
      rw [← hr.smlrCur]
      exact hr.best l' hge (by omega) hl'
    · intro l' hge hlt' hl'
      rw [← hr.smlrCur]
      exact hr.first l' hge hlt' hl'

/-- A trial that is not due leaves an extent with its lower bound. -/
theorem WordSimState.Valid.extend (hw : w.Valid inp i) (hentered : w.Entered inp i w')
    (hsome : w.lower = some l) : w'.Valid inp (i + 1) := by
  obtain ⟨hlower, hmax, hulen2, hcount, hmarked⟩ := hentered
  rw [hsome] at hlower hulen2 hcount hmarked
  refine ⟨by rwa [hlower], by rwa [hlower], by rwa [hlower], ?_, ?_, ?_, ?_⟩
  · intro l' hl'
    have hle := hw.lower_le l' (by rw [hsome, ← hlower, hl'])
    omega
  · intro l' hl'
    exact hw.isLower l' (by rw [hsome, ← hlower, hl'])
  · intro hnone
    rw [hlower] at hnone
    cases hnone
  · rw [hmax]
    rcases hw.smlrMax with hzero | ⟨a, b, hab, hb, ha, hb', hratio⟩
    · exact .inl hzero
    · exact .inr ⟨a, b, hab, by omega, ha, hb', hratio⟩

/-- Before the first common trigram, positions are passed over. -/
theorem WordSimState.Valid.pass (hw : w.Valid inp i) (hnone : w.lower = none)
    (hfound : inp.found (inp.trg2indexes i) = false) : w.Valid inp (i + 1) := by
  obtain ⟨hulen2, hcount, hmarked, -, -, hunseen, hmax⟩ := hw
  rw [hnone] at hulen2 hcount hmarked
  have hlast : w.lastpos = fun _ => none := by
    funext t
    exact hmarked.eq_none_iff.mpr (by simp)
  have hempty (k : ℕ) : inp.distinct k k = 0 ∧ inp.common k k = 0 := ⟨count_self, count_self⟩
  refine ⟨?_, ?_, ?_, ?_, ?_, ?_, ?_⟩
  · rw [hulen2, hnone, Option.getD_none, Option.getD_none, (hempty i).1, (hempty (i + 1)).1]
  · rw [hcount, hnone, Option.getD_none, Option.getD_none, (hempty i).2, (hempty (i + 1)).2]
  · rw [hlast]
    rw [hnone]
    exact marked_empty _ _
  · intro l hl
    rw [hnone] at hl
    cases hl
  · intro l hl
    rw [hnone] at hl
    cases hl
  · intro _
    refine ⟨(hunseen hnone).1, ?_⟩
    intro p hp
    rcases Nat.lt_succ_iff_lt_or_eq.mp hp with hlt | rfl
    · exact (hunseen hnone).2 p hlt
    · exact hfound
  · rcases hmax with hzero | ⟨a, b, hab, hb, ha, hb', hratio⟩
    · exact .inl hzero
    · exact .inr ⟨a, b, hab, by omega, ha, hb', hratio⟩

/-- One turn of the loop. -/
theorem WordSimState.Valid.step (hw : w.Valid inp i) (hinp : inp.Bounded) (hi : i < inp.len2) :
    ∃ w', inp.step w i = some w' ∧ w'.Valid inp (i + 1) ∧ inp.Turn i w w' := by
  unfold WordSimInput.step
  cases hupper : inp.isUpper i with
  | true =>
    have hcounts : w.lower.isSome = true ∨ inp.found (inp.trg2indexes i) = true := by
      cases hlower : w.lower with
      | none =>
        unfold WordSimInput.isUpper at hupper
        rw [(hw.unseen hlower).1] at hupper
        exact .inr hupper
      | some l => exact .inl rfl
    obtain ⟨w', l, htry, hw', htried⟩ := hw.tryUpper hinp hi hupper (hw.enter hcounts)
    exact ⟨w', htry, hw', .tried l hupper htried⟩
  | false =>
    cases hlower : w.lower with
    | none =>
      have hfound : inp.found (inp.trg2indexes i) = false := by
        unfold WordSimInput.isUpper at hupper
        rwa [(hw.unseen hlower).1] at hupper
      have hkeep : inp.enter w i = w := by
        unfold WordSimInput.enter
        exact if_neg (by simp [hlower, hfound])
      rw [hkeep]
      exact ⟨w, rfl, hw.pass hlower hfound, .passed hupper rfl rfl⟩
    | some l =>
      have hentered := hw.enter (.inl (by rw [hlower]; rfl))
      exact ⟨inp.enter w i, rfl, hw.extend hentered hlower,
        .passed hupper hentered.lower hentered.smlrMax⟩

/-- Nothing is counted before the first position. -/
theorem WordSimInput.Bounded.init_valid (hinp : inp.Bounded) : inp.init.Valid inp 0 := by
  have hlower : inp.init.lower.getD 0 = 0 := by
    unfold WordSimInput.init
    split_ifs <;> rfl
  have hsome : ∀ l, inp.init.lower = some l → l = 0 := by
    intro l hl
    rwa [hl] at hlower
  refine ⟨?_, ?_, ?_, ?_, ?_, ?_, .inl rfl⟩
  · rw [hlower]
    exact (congrArg Nat.cast count_self).symm
  · rw [hlower]
    exact (congrArg Nat.cast count_self).symm
  · rw [hlower]
    exact marked_empty _ _
  · intro l hl
    exact (hsome l hl).le
  · intro l hl hpos
    rw [hsome l hl]
    exact hinp.isLower_zero hpos
  · intro hnone
    refine ⟨?_, fun p hp => absurd hp (Nat.not_lt_zero p)⟩
    by_contra hstrict
    simp [WordSimInput.init, hstrict] at hnone

/-- The loop gets through without a division by zero, and keeps what every turn keeps. -/
theorem WordSimInput.Bounded.run (hinp : inp.Bounded) {Q : ℕ → WordSimState → Prop}
    (hinit : Q 0 inp.init)
    (hturn : ∀ i w w', i < inp.len2 → w.Valid inp i → inp.Turn i w w' → Q i w → Q (i + 1) w')
    (hi : i ≤ inp.len2) :
    ∃ w, (List.range i).foldlM inp.step inp.init = some w ∧ w.Valid inp i ∧ Q i w := by
  induction i with
  | zero => exact ⟨inp.init, rfl, hinp.init_valid, hinit⟩
  | succ i ih =>
    obtain ⟨w, hrun, hw, hQ⟩ := ih (by omega)
    obtain ⟨w', hstep, hw', hturned⟩ := hw.step hinp (by omega)
    refine ⟨w', ?_, hw', hturn i w w' (by omega) hw hturned hQ⟩
    rw [List.range_succ, List.foldlM_append, hrun]
    simp [hstep]

/-! ## The greatest ratio -/

/-- The trigrams of the second string are pairwise distinct. -/
def WordSimInput.Injective (inp : WordSimInput) : Prop :=
  Set.InjOn inp.trg2indexes (Set.Iio inp.len2)

/-- The loop has found a ratio of at least `r`, or it still finds one that ends at `b`. -/
def WordSimState.Covers (inp : WordSimInput) (r : ℚ) (b i : ℕ) (w : WordSimState) : Prop :=
  r ≤ w.smlrMax ∨ i < b ∧ ∃ a, a < b ∧ inp.isLower a = true ∧ r ≤ inp.ratio a b ∧
    ∀ l, w.lower = some l → l ≤ a

variable {b c d : ℕ}

/-- The trigrams that the first string does not have. -/
def WordSimInput.uncommon (inp : WordSimInput) (a b : ℕ) : ℚ :=
  inp.distinct a b - inp.common a b

/-- The count of uncommon trigrams is not negative. -/
theorem WordSimInput.uncommon_nonneg (inp : WordSimInput) (a b : ℕ) : 0 ≤ inp.uncommon a b := by
  unfold WordSimInput.uncommon
  have hle : (inp.common a b : ℚ) ≤ inp.distinct a b := Nat.cast_le.mpr count_le
  linarith

/-- The ratio with the common and the other trigrams apart. -/
theorem WordSimInput.ratio_eq (inp : WordSimInput) (a b : ℕ) :
    inp.ratio a b = inp.common a b / (inp.ulen1 + inp.uncommon a b) := by
  unfold WordSimInput.ratio WordSimInput.uncommon
  push_cast
  rw [add_sub_assoc]

/-- The divisor of a nonempty extent is positive. -/
theorem WordSimInput.Bounded.divisor_pos' (hinp : inp.Bounded) (hab : a < b) (hb : b ≤ inp.len2) :
    0 < (inp.ulen1 : ℚ) + inp.uncommon a b := by
  have hpos : (0 : ℚ) < ((inp.ulen1 + inp.distinct a b - inp.common a b : ℤ) : ℚ) :=
    Int.cast_pos.mpr (hinp.divisor_pos hab hb)
  unfold WordSimInput.uncommon
  push_cast at hpos
  linarith

/-- Distinct trigrams are counted on each side of a position. -/
theorem WordSimInput.Injective.common_add (hinj : inp.Injective) (hab : a ≤ b) (hbc : b ≤ c)
    (hc : c ≤ inp.len2) : inp.common a b + inp.common b c = inp.common a c := by
  refine count_add hab hbc (hinj.mono fun p hp => ?_)
  exact hp.2.trans_le hc

/-- The uncommon trigrams of adjacent extents add up. -/
theorem WordSimInput.Injective.uncommon_add (hinj : inp.Injective) (hab : a ≤ b) (hbc : b ≤ c)
    (hc : c ≤ inp.len2) : inp.uncommon a b + inp.uncommon b c = inp.uncommon a c := by
  have hdistinct : inp.distinct a b + inp.distinct b c = inp.distinct a c := by
    refine count_add hab hbc (hinj.mono fun p hp => ?_)
    exact hp.2.trans_le hc
  have hcommon := hinj.common_add hab hbc hc
  unfold WordSimInput.uncommon
  rw [← hdistinct, ← hcommon]
  push_cast
  ring

/-- If an extent that ends at `c` is better from `b` on than from `a` on, and both are below a
ratio, then the extents that end at `d` are below it from `a` on if they are from `b` on. -/
theorem WordSimInput.Injective.exchange (hinj : inp.Injective) (hinp : inp.Bounded) {r : ℚ}
    (hab : a ≤ b) (hbc : b < c) (hcd : c ≤ d) (hd : d ≤ inp.len2)
    (hpays : inp.ratio a c < inp.ratio b c) (hc : inp.ratio b c ≤ r) (hbd : inp.ratio b d ≤ r) :
    inp.ratio a d < r := by
  rw [inp.ratio_eq b c] at hc
  rw [inp.ratio_eq b d] at hbd
  rw [inp.ratio_eq a c, inp.ratio_eq b c, ← hinj.common_add hab hbc.le (by omega),
    ← hinj.uncommon_add hab hbc.le (by omega)] at hpays
  rw [inp.ratio_eq a d, ← hinj.common_add hab (by omega) hd, ← hinj.uncommon_add hab (by omega) hd]
  push_cast at hpays ⊢
  refine ratio_exchange (inp.uncommon_nonneg a b) ?_ (hinp.divisor_pos' hbc (by omega))
    (hinp.divisor_pos' (by omega) hd) ?_ hpays hc hbd
  · rw [hinj.uncommon_add hab hbc.le (by omega)]
    exact hinp.divisor_pos' (by omega) (by omega)
  · rw [hinj.uncommon_add hab (by omega) hd]
    exact hinp.divisor_pos' (by omega) hd

/-- Only trigrams that the first string does not have are left out. -/
theorem WordSimInput.Bounded.ratio_le_ratio (hinp : inp.Bounded) (hcd : c < d) (hd : d ≤ inp.len2)
    (hcommon : inp.common a b = inp.common c d) (huncommon : inp.uncommon c d ≤ inp.uncommon a b) :
    inp.ratio a b ≤ inp.ratio c d := by
  rw [inp.ratio_eq, inp.ratio_eq, hcommon]
  refine div_le_div_of_nonneg_left (Nat.cast_nonneg _) (hinp.divisor_pos' hcd hd) ?_
  linarith

/-- An extent may begin after trigrams that the first string does not have. -/
theorem WordSimInput.Injective.ratio_trim_left (hinj : inp.Injective) (hinp : inp.Bounded)
    (hab : a ≤ b) (hbc : b < c) (hc : c ≤ inp.len2)
    (hnone : ∀ p, a ≤ p → p < b → inp.found (inp.trg2indexes p) = false) :
    inp.ratio a c ≤ inp.ratio b c := by
  have hzero : inp.common a b = 0 := count_eq_zero hnone
  have hcommon := hinj.common_add hab hbc.le hc
  have huncommon := hinj.uncommon_add hab hbc.le hc
  have hnonneg := inp.uncommon_nonneg a b
  exact hinp.ratio_le_ratio hbc hc (by omega) (by linarith)

/-- An extent may end before trigrams that the first string does not have. -/
theorem WordSimInput.Injective.ratio_trim_right (hinj : inp.Injective) (hinp : inp.Bounded)
    (hab : a < b) (hbc : b ≤ c) (hc : c ≤ inp.len2)
    (hnone : ∀ p, b ≤ p → p < c → inp.found (inp.trg2indexes p) = false) :
    inp.ratio a c ≤ inp.ratio a b := by
  have hzero : inp.common b c = 0 := count_eq_zero hnone
  have hcommon := hinj.common_add hab.le hbc hc
  have huncommon := hinj.uncommon_add hab.le hbc hc
  have hnonneg := inp.uncommon_nonneg b c
  exact hinp.ratio_le_ratio hab (by omega) (by omega) (by linarith)

/-- A trial begins at or before an extent that is still to be found, or passes over positions that
do not count. -/
theorem WordSimState.Valid.exists_start (hw : w.Valid inp i) (hinp : inp.Bounded)
    (hinj : inp.Injective) (hab : a < b) (hib : i < b) (hb : b ≤ inp.len2)
    (ha : inp.isLower a = true) (hlower : ∀ l, w.lower = some l → l ≤ a) :
    ∃ a', w.lower.getD i ≤ a' ∧ a' < b ∧ inp.isLower a' = true ∧
      inp.ratio a b ≤ inp.ratio a' b := by
  cases hnone : w.lower with
  | some l => exact ⟨a, hlower l hnone, hab, ha, le_rfl⟩
  | none =>
    obtain ⟨hstrict, hunseen⟩ := hw.unseen hnone
    by_cases hia : i ≤ a
    · exact ⟨a, hia, hab, ha, le_rfl⟩
    · refine ⟨i, le_rfl, hib, ?_, ?_⟩
      · unfold WordSimInput.isLower
        rw [hstrict]
        rfl
      · exact hinj.ratio_trim_left hinp (by omega) hib hb fun p _ hpi => hunseen p hpi

/-- A turn does not lose the extents that end at `b`. -/
theorem WordSimState.Covers.turn {r : ℚ} (hcovers : w.Covers inp r b i) (hw : w.Valid inp i)
    (hinp : inp.Bounded) (hinj : inp.Injective) (hturn : inp.Turn i w w') (hb : b ≤ inp.len2)
    (hupper : inp.isUpper (b - 1) = true) : w'.Covers inp r b (i + 1) := by
  rcases hturn with ⟨l, -, htried⟩ | ⟨hpassed, hlower', hmax⟩
  · have hratio : inp.ratio l (i + 1) ≤ w'.smlrMax := by
      rw [htried.smlrMax]
      exact le_max_right _ _
    rcases hcovers with hfound | ⟨hib, a₀, hab₀, ha₀, hr₀, hlower⟩
    · left
      rw [htried.smlrMax]
      exact hfound.trans (le_max_left _ _)
    obtain ⟨a, hstart, hab, ha, hle⟩ := hw.exists_start hinp hinj hab₀ hib hb ha₀ hlower
    have hr := hr₀.trans hle
    by_cases hend : i + 1 = b
    · -- the extent ends here, and is tried
      left
      rw [← hend] at hr
      exact (hr.trans (htried.best a hstart (by omega) ha)).trans hratio
    by_cases hla : l ≤ a
    · refine .inr ⟨by omega, a, hab, ha, hr, ?_⟩
      intro l' hl'
      rw [htried.lower] at hl'
      cases hl'
      exact hla
    · -- the bound moves past the start of the extent: one of the two from there on is as good
      have hpays := htried.first a hstart (by omega) ha
      by_cases hhere : r ≤ inp.ratio l (i + 1)
      · exact .inl (hhere.trans hratio)
      by_cases hthere : inp.ratio a b ≤ inp.ratio l b
      · have hli := htried.le
        refine .inr ⟨by omega, l, by omega, htried.isLower, hr.trans hthere, ?_⟩
        intro l' hl'
        rw [htried.lower] at hl'
        cases hl'
        exact le_rfl
      · have hli := htried.le
        have hlt := hinj.exchange hinp (by omega : a ≤ l) (by omega) (by omega : i + 1 ≤ b) hb hpays
          ((not_le.mp hhere).le.trans hr) (not_le.mp hthere).le
        exact absurd hlt (lt_irrefl _)
  · rcases hcovers with hfound | ⟨hib, a, hab, ha, hr, hlower⟩
    · left
      rwa [hmax]
    · have hne : i ≠ b - 1 := by
        rintro rfl
        rw [hpassed] at hupper
        cases hupper
      refine .inr ⟨by omega, a, hab, ha, hr, ?_⟩
      rwa [hlower']

/-- The result of the search is the ratio of an extent that was tried, and for distinct trigrams
none of these has a greater one. -/
theorem WordSimInput.Bounded.iterate_eq (hinp : inp.Bounded) {len : ℕ} (hlen : len ≠ 0) :
    ∃ r, inp.iterate len = some r ∧
      (r = 0 ∨ ∃ a b, a < b ∧ b ≤ inp.len2 ∧ inp.isLower a = true ∧
        inp.isUpper (b - 1) = true ∧ r = inp.ratio a b) ∧
      (inp.Injective → ∀ a b, a < b → b ≤ inp.len2 → inp.isLower a = true →
        inp.isUpper (b - 1) = true → inp.ratio a b ≤ r) := by
  obtain ⟨w, hrun, hw, hcovers⟩ := hinp.run (i := inp.len2)
    (Q := fun i w => inp.Injective → ∀ a b, a < b → b ≤ inp.len2 → inp.isLower a = true →
      inp.isUpper (b - 1) = true → w.Covers inp (inp.ratio a b) b i)
    (by
      intro _ a b hab _ ha _
      refine .inr ⟨by omega, a, hab, ha, le_rfl, ?_⟩
      intro l hl
      have hle := hinp.init_valid.lower_le l hl
      omega)
    (by
      intro i w w' _ hw hturn hcovers hinj a b hab hb ha hupper
      exact (hcovers hinj a b hab hb ha hupper).turn hw hinp hinj hturn hb hupper)
    le_rfl
  refine ⟨w.smlrMax, ?_, hw.smlrMax, ?_⟩
  · unfold WordSimInput.iterate
    rw [if_neg hlen, hrun, Option.map_some]
  · intro hinj a b hab hb ha hupper
    rcases hcovers hinj a b hab hb ha hupper with hle | ⟨hlt, -⟩
    · exact hle
    · omega

end PgTre
