import PgTre.Query.Extract

/-!
# What the linearizer does to the run

The walk of `lin_append_node` either leaves the run unbroken, appending positions that do
not depend on where it started, or breaks it, leaving a run that does not depend on what
stood before. `RegexAst.shape` computes which, and the positions. `RunShape.Reads` states
what these positions say about matched text: some list of positions that the text fits,
element by element, has every window of the run.
-/

namespace PgTre

open Strings

/-- The effect of a walk on the run: whether it broke the run, and the positions appended,
or left after the last break. -/
structure RunShape where
  flushed : Bool
  run : List RunPos

/-- One walk after another. -/
def RunShape.append (s t : RunShape) : RunShape :=
  if t.flushed = true then t else ⟨s.flushed, s.run ++ t.run⟩

/-- The same walk a positive number of times. -/
def RunShape.copies (s : RunShape) (k : ℕ) : RunShape :=
  ⟨s.flushed, if s.flushed = true then s.run else power s.run k⟩

/-- The run after the walk, from the run before it. -/
def RunShape.apply (s : RunShape) (run : List RunPos) : List RunPos :=
  if s.flushed = true then s.run else run ++ s.run

/-- The effect of `lin_append_node` on the run. -/
def RegexAst.shape : RegexAst → RunShape
  | .literal c => ⟨false, [[c]]⟩
  | .any => ⟨true, []⟩
  | .charclass negated cs =>
      match classPos negated cs with
      | some p => ⟨false, [p]⟩
      | none => ⟨true, []⟩
  | .anchor _ => ⟨false, []⟩
  | .concat l r => l.shape.append r.shape
  | .alt _ _ => ⟨true, []⟩
  | .rep child m n =>
      let s := child.shape.copies (repCopies child m n)
      if m = 0 ∨ (n ≠ some m ∧ repCopies child m n = 1 ∧ s.flushed = false ∧ s.run.length ≤ 1) then
        ⟨true, []⟩
      else s
  | .approx child _ => child.shape

/-- Every `APPROX` node the linearizer visits has budget zero; it does not visit the child
of a repetition that may be empty. -/
def RegexAst.budgetsZero : RegexAst → Bool
  | .concat l r | .alt l r => l.budgetsZero && r.budgetsZero
  | .rep child m _ => decide (m = 0) || child.budgetsZero
  | .approx child k => decide (k = 0) && child.budgetsZero
  | _ => true

/-- A tree without `APPROX` nodes visits none. -/
theorem RegexAst.budgetsZero_of_approxFree {ast : RegexAst} (h : ast.approxFree = true) :
    ast.budgetsZero = true := by
  induction ast with
  | literal | any | charclass | anchor => rfl
  | concat l r ihl ihr | alt l r ihl ihr =>
    simp only [approxFree, Bool.and_eq_true] at h
    simp only [budgetsZero, ihl h.1, ihr h.2, Bool.and_self]
  | rep child m n ih => simp [budgetsZero, ih h]
  | approx => simp [approxFree] at h

/-- Every `APPROX` node that the linearizer visits from `lc` has budget zero; after an overflow of the
accumulator it visits none. -/
def RegexAst.walkBudgetsZero (fanout : ℕ) : RegexAst → LinCtx → Bool
  | .concat l r, lc =>
      lc.acc.overflowed ||
        (l.walkBudgetsZero fanout lc && r.walkBudgetsZero fanout (linAppendNode fanout l lc))
  | .alt l r, lc =>
      let branch : LinCtx := { run := [], acc := .init, flushes := lc.flushes }
      lc.acc.overflowed || (l.walkBudgetsZero fanout branch && r.walkBudgetsZero fanout branch)
  | .rep child m n, lc =>
      lc.acc.overflowed || decide (m = 0) ||
        (List.range (repCopies child m n)).all fun i =>
          child.walkBudgetsZero fanout ((linAppendNode fanout child)^[i] lc)
  | .approx child k, lc =>
      lc.acc.overflowed || (decide (k = 0) && child.walkBudgetsZero fanout lc)
  | _, _ => true

/-- Where all budgets are zero, those that are visited are. -/
theorem RegexAst.walkBudgetsZero_of_budgetsZero {fanout : ℕ} {ast : RegexAst}
    (h : ast.budgetsZero = true) (lc : LinCtx) : ast.walkBudgetsZero fanout lc = true := by
  induction ast generalizing lc with
  | literal | any | charclass | anchor => rfl
  | concat l r ihl ihr | alt l r ihl ihr =>
    simp only [budgetsZero, Bool.and_eq_true] at h
    simp only [walkBudgetsZero, ihl h.1, ihr h.2, Bool.and_self, Bool.or_true]
  | rep child m n ih =>
    by_cases hm : m = 0
    · simp [walkBudgetsZero, hm]
    · simp only [budgetsZero, hm, decide_false, Bool.false_or] at h
      simp [walkBudgetsZero, ih h]
  | approx child k ih =>
    simp only [budgetsZero, Bool.and_eq_true] at h
    simp only [walkBudgetsZero, h.1, ih h.2, Bool.and_self, Bool.or_true]

/-- The budgets outside of alternations, which break the run, are zero. -/
def RegexAst.runBudgetsZero : RegexAst → Bool
  | .concat l r => l.runBudgetsZero && r.runBudgetsZero
  | .rep child m _ => decide (m = 0) || child.runBudgetsZero
  | .approx child k => decide (k = 0) && child.runBudgetsZero
  | _ => true

/-! ## The number of inlined copies -/

/-- At most as many copies are inlined as are required. -/
theorem repCopies_le (child : RegexAst) (m : ℕ) (n : Option ℕ) : repCopies child m n ≤ m := by
  unfold repCopies repInlineMax
  split_ifs <;> omega

/-- A required repetition is inlined at least once. -/
theorem repCopies_pos (child : RegexAst) {m : ℕ} (n : Option ℕ) (hm : m ≠ 0) :
    1 ≤ repCopies child m n := by
  unfold repCopies repInlineMax
  split_ifs <;> omega

/-- A single inlined copy stands for a minimum of one. -/
theorem eq_one_of_repCopies_eq_one {child : RegexAst} {m : ℕ} {n : Option ℕ}
    (h : repCopies child m n = 1) : m = 1 := by
  unfold repCopies repInlineMax at h
  split_ifs at h <;> omega

/-! ## The walk has the computed shape -/

/-- The walk from `lc` to `lc'` had the effect `s` on the run and on the count of flushes. -/
def LinCtx.Follows (lc lc' : LinCtx) (s : RunShape) : Prop :=
  lc'.run = s.apply lc.run ∧ (s.flushed = false → lc'.flushes = lc.flushes) ∧
    (s.flushed = true → lc.flushes < lc'.flushes)

/-- Two stretches of the linearizer make one. -/
theorem LinCtx.Follows.append {lc lc' lc'' : LinCtx} {s t : RunShape} (h : lc.Follows lc' s)
    (h' : lc'.Follows lc'' t) : lc.Follows lc'' (s.append t) := by
  obtain ⟨hrun, hkeep, hflush⟩ := h
  obtain ⟨hrun', hkeep', hflush'⟩ := h'
  have hmono : lc.flushes ≤ lc'.flushes := by
    cases hs : s.flushed with
    | false => rw [hkeep hs]
    | true => exact (hflush hs).le
  cases ht : t.flushed with
  | true =>
    have hst : s.append t = t := by rw [RunShape.append, if_pos ht]
    rw [hst]
    refine ⟨?_, fun hf => ?_, fun _ => ?_⟩
    · rw [hrun']
      simp only [RunShape.apply, ht, if_true]
    · rw [ht] at hf
      cases hf
    · have := hflush' ht
      omega
  | false =>
    have hst : s.append t = ⟨s.flushed, s.run ++ t.run⟩ := by
      rw [RunShape.append, if_neg (by simp [ht])]
    rw [hst]
    refine ⟨?_, fun hf => ?_, fun hf => ?_⟩
    · rw [hrun', hrun]
      cases hs : s.flushed <;> simp [RunShape.apply, ht, hs]
    · rw [hkeep' ht, hkeep hf]
    · rw [hkeep' ht]
      exact hflush hf

/-- Repeating a shape is appending it once more. -/
theorem RunShape.copies_succ (s : RunShape) {k : ℕ} : (s.copies k).append s = s.copies (k + 1) := by
  cases hs : s.flushed with
  | true =>
    rw [append, if_pos hs]
    obtain ⟨f, r⟩ := s
    simp_all [copies]
  | false =>
    rw [append, if_neg (by simp [hs])]
    simp [copies, hs, power_add]

/-- One more copy may be added at the front. -/
theorem RunShape.copies_succ' (s : RunShape) {k : ℕ} :
    s.append (s.copies (k + 1)) = s.copies (k + 1 + 1) := by
  cases hs : s.flushed with
  | true => simp [append, copies, hs]
  | false => simp [append, copies, hs, power_succ s.run (k + 1)]

/-- One copy is the shape itself. -/
theorem RunShape.copies_one (s : RunShape) : s.copies 1 = s := by
  obtain ⟨f, r⟩ := s
  cases f <;> simp [copies]

/-- After an overflow nothing is emitted. -/
theorem runEmit_of_overflowed {fanout : ℕ} {run : List RunPos} {acc : TrigramAccum}
    (h : acc.overflowed = true) : runEmit fanout run acc = acc := by
  unfold runEmit
  induction windows run with
  | nil => rfl
  | cons w l ih =>
    have hw : emitWindow fanout acc w = acc := by
      unfold emitWindow accumAdd accumAddOr
      split
      · rw [if_pos h]
      · simp [h]
    rw [List.foldl_cons, hw, ih]

/-- An emission that ends without overflow started without one. -/
theorem overflowed_eq_false_of_runEmit {fanout : ℕ} {run : List RunPos} {acc : TrigramAccum}
    (h : (runEmit fanout run acc).overflowed = false) : acc.overflowed = false := by
  by_contra hover
  rw [Bool.not_eq_false] at hover
  rw [runEmit_of_overflowed hover, hover] at h
  cases h

/-- After an overflow the walk does nothing. -/
theorem linAppendNode_of_overflowed {fanout : ℕ} {ast : RegexAst} {lc : LinCtx}
    (h : lc.acc.overflowed = true) : linAppendNode fanout ast lc = lc := by
  cases ast <;> simp [linAppendNode, h]

/-- A walk that ends without overflow started without one. -/
theorem overflowed_eq_false_of_walk {fanout : ℕ} {ast : RegexAst} {lc : LinCtx}
    (h : (linAppendNode fanout ast lc).acc.overflowed = false) : lc.acc.overflowed = false := by
  by_contra hover
  rw [Bool.not_eq_false] at hover
  rw [linAppendNode_of_overflowed hover, hover] at h
  cases h

/-- The budgets that decide about the run are visited by a walk that ends without overflow. -/
theorem RegexAst.runBudgetsZero_of_walk {fanout : ℕ} {ast : RegexAst} {lc : LinCtx}
    (hzero : ast.walkBudgetsZero fanout lc = true)
    (h : (linAppendNode fanout ast lc).acc.overflowed = false) : ast.runBudgetsZero = true := by
  have hstart := overflowed_eq_false_of_walk h
  induction ast generalizing lc with
  | literal | any | charclass | anchor | alt => rfl
  | concat l r ihl ihr =>
    simp only [walkBudgetsZero, hstart, Bool.false_or, Bool.and_eq_true] at hzero
    simp only [linAppendNode, hstart, Bool.false_eq_true, if_false] at h
    have hmid := overflowed_eq_false_of_walk h
    rw [runBudgetsZero, ihl hzero.1 hmid hstart, ihr hzero.2 h hmid, Bool.and_self]
  | rep child m n ih =>
    by_cases hm : m = 0
    · simp [runBudgetsZero, hm]
    obtain ⟨k, hk⟩ := Nat.exists_eq_add_of_le' (repCopies_pos child n hm)
    simp only [walkBudgetsZero, hstart, hm, decide_false, Bool.false_or, List.all_eq_true,
      List.mem_range] at hzero
    simp only [linAppendNode, hstart, Bool.false_eq_true, if_false, hm, hk] at h
    have hend : ((linAppendNode fanout child)^[k + 1] lc).acc.overflowed = false := by
      split_ifs at h
      · exact overflowed_eq_false_of_runEmit h
      · exact h
    rw [Function.iterate_succ_apply'] at hend
    rw [runBudgetsZero, ih (hzero k (by omega)) hend (overflowed_eq_false_of_walk hend), Bool.or_true]
  | approx child k ih =>
    simp only [walkBudgetsZero, hstart, Bool.false_or, Bool.and_eq_true] at hzero
    simp only [linAppendNode, hstart, Bool.false_eq_true, if_false] at h
    rw [runBudgetsZero, hzero.1, ih hzero.2 h hstart, Bool.and_self]

/-- Appending a child again and again follows its shape as often. -/
private theorem iterate_follows {fanout : ℕ} {child : RegexAst} {s : RunShape} {lc : LinCtx} {k : ℕ}
    (hchild : ∀ lc, (linAppendNode fanout child lc).acc.overflowed = false →
      lc.Follows (linAppendNode fanout child lc) s)
    (h : ((linAppendNode fanout child)^[k + 1] lc).acc.overflowed = false) :
    lc.Follows ((linAppendNode fanout child)^[k + 1] lc) (s.copies (k + 1)) := by
  induction k with
  | zero =>
    rw [Function.iterate_one] at h ⊢
    rw [RunShape.copies_one]
    exact hchild lc h
  | succ k ih =>
    rw [Function.iterate_succ_apply'] at h ⊢
    have hbefore := overflowed_eq_false_of_walk h
    rw [← RunShape.copies_succ]
    exact (ih hbefore).append (hchild _ h)

/-- The test the walk makes after inlining a single copy, read off the shape. -/
theorem LinCtx.Follows.short_iff {lc lc' : LinCtx} {s : RunShape} (h : lc.Follows lc' s) :
    (lc'.flushes = lc.flushes ∧ lc'.run.length ≤ lc.run.length + 1) ↔
      (s.flushed = false ∧ s.run.length ≤ 1) := by
  obtain ⟨hrun, hkeep, hflush⟩ := h
  cases hs : s.flushed with
  | true =>
    have hlt := hflush hs
    constructor
    · rintro ⟨heq, -⟩
      omega
    · rintro ⟨hfalse, -⟩
      cases hfalse
  | false =>
    have hlen : lc'.run.length = lc.run.length + s.run.length := by
      rw [hrun, RunShape.apply, if_neg (by simp [hs]), List.length_append]
    have heq := hkeep hs
    constructor
    · rintro ⟨-, hle⟩
      exact ⟨rfl, by omega⟩
    · rintro ⟨-, hle⟩
      exact ⟨heq, by omega⟩

/-- A flush leaves the empty run and counts. -/
theorem LinCtx.Follows.flush {lc lc' : LinCtx} {s : RunShape} (h : lc.Follows lc' s) (fanout : ℕ) :
    lc.Follows (runFlush fanout lc') ⟨true, []⟩ := by
  refine ⟨?_, fun hf => ?_, fun _ => ?_⟩
  · simp [runFlush, RunShape.apply]
  · cases hf
  · obtain ⟨-, hkeep, hflush⟩ := h
    simp only [runFlush]
    cases hs : s.flushed with
    | false => exact Nat.lt_succ_of_le (hkeep hs).ge
    | true => exact (hflush hs).trans (Nat.lt_succ_self _)

/-- Appending nothing follows the empty shape. -/
theorem LinCtx.Follows.refl (lc : LinCtx) : lc.Follows lc ⟨false, []⟩ := by
  simp [LinCtx.Follows, RunShape.apply]

/-- Unless the accumulator overflows, the walk over a tree has the tree's shape. -/
theorem linAppendNode_follows {fanout : ℕ} {ast : RegexAst} {lc : LinCtx}
    (h : (linAppendNode fanout ast lc).acc.overflowed = false) :
    lc.Follows (linAppendNode fanout ast lc) ast.shape := by
  have hstart := overflowed_eq_false_of_walk h
  have hflushed := (LinCtx.Follows.refl lc).flush fanout
  induction ast generalizing lc with
  | literal c => simp [linAppendNode, hstart, LinCtx.Follows, RegexAst.shape, RunShape.apply,
    runAppendCp]
  | any => simpa [linAppendNode, hstart, RegexAst.shape] using hflushed
  | charclass negated cs =>
    cases hpos : classPos negated cs with
    | none => simpa [linAppendNode, hstart, RegexAst.shape, hpos] using hflushed
    | some p => simp [linAppendNode, hstart, hpos, LinCtx.Follows, RegexAst.shape, RunShape.apply]
  | anchor => exact LinCtx.Follows.refl lc
  | concat l r ihl ihr =>
    simp only [linAppendNode, hstart, Bool.false_eq_true, if_false] at h ⊢
    have hmid := overflowed_eq_false_of_walk h
    have hleft := ihl hmid hstart hflushed
    exact hleft.append (ihr h hmid ((LinCtx.Follows.refl _).flush fanout))
  | alt => simpa [linAppendNode, hstart, LinCtx.Follows, RegexAst.shape] using hflushed
  | rep child m n ih =>
    by_cases hm : m = 0
    · simpa [linAppendNode, hstart, hm, RegexAst.shape] using hflushed
    obtain ⟨k, hk⟩ := Nat.exists_eq_add_of_le' (repCopies_pos child n hm)
    simp only [linAppendNode, hstart, Bool.false_eq_true, if_false, hm, hk] at h ⊢
    have hend : ((linAppendNode fanout child)^[k + 1] lc).acc.overflowed = false := by
      split_ifs at h
      · exact overflowed_eq_false_of_runEmit h
      · exact h
    have hiter := iterate_follows (fun lc hlc => ih hlc (overflowed_eq_false_of_walk hlc)
      ((LinCtx.Follows.refl _).flush fanout)) hend
    simp only [RegexAst.shape, hk, hm, false_or, hiter.short_iff]
    split_ifs
    · exact hiter.flush fanout
    · exact hiter
  | approx child k ih =>
    simp only [linAppendNode, hstart, Bool.false_eq_true, if_false] at h ⊢
    exact ih h hstart hflushed

/-! ## What a shape says about matched text -/

/-- The text holds, position by position, a character the position allows. -/
def Fits (w : List CodePoint) (Q : List RunPos) : Prop :=
  List.Forall₂ (· ∈ ·) w Q

/-- Fitting runs join. -/
theorem Fits.append {u v : List CodePoint} {P Q : List RunPos} (hu : Fits u P) (hv : Fits v Q) :
    Fits (u ++ v) (P ++ Q) :=
  List.rel_append hu hv

/-- The text that led to a shape: all of it, or what follows the last break, fits positions
that the run shadows. -/
def RunShape.Reads (s : RunShape) (w : List CodePoint) : Prop :=
  if s.flushed = true then ∃ v q Q, w = v ++ q ∧ Fits q Q ∧ ShadowLeft s.run Q
  else ∃ Q, Fits w Q ∧ Shadow s.run Q

/-- A broken shape is read by a text that ends with its run. -/
theorem RunShape.reads_broken {run : List RunPos} {w : List CodePoint} :
    RunShape.Reads ⟨true, run⟩ w ↔ ∃ v q Q, w = v ++ q ∧ Fits q Q ∧ ShadowLeft run Q := by
  simp [Reads]

/-- An unbroken shape is read by its run alone. -/
theorem RunShape.reads_unbroken {run : List RunPos} {w : List CodePoint} :
    RunShape.Reads ⟨false, run⟩ w ↔ ∃ Q, Fits w Q ∧ Shadow run Q := by
  simp [Reads]

/-- After a break any text may have been read. -/
theorem RunShape.reads_break (w : List CodePoint) : RunShape.Reads ⟨true, []⟩ w :=
  reads_broken.mpr ⟨w, [], [], by simp, List.Forall₂.nil, ShadowLeft.refl []⟩

/-- An unbroken shape reads a text that fits its run. -/
theorem RunShape.reads_of_fits {w : List CodePoint} {run : List RunPos} (h : Fits w run) :
    RunShape.Reads ⟨false, run⟩ w :=
  reads_unbroken.mpr ⟨run, h, Shadow.refl run⟩

/-- Texts read one after the other are read by the appended shapes. -/
theorem RunShape.Reads.append {s t : RunShape} {u v : List CodePoint} (hs : s.Reads u)
    (ht : t.Reads v) : (s.append t).Reads (u ++ v) := by
  obtain ⟨fs, rs⟩ := s
  obtain ⟨ft, rt⟩ := t
  cases ft with
  | true =>
    obtain ⟨v₁, q, Q, rfl, hfit, hshadow⟩ := reads_broken.mp ht
    simp only [RunShape.append, if_true]
    exact reads_broken.mpr ⟨u ++ v₁, q, Q, by simp, hfit, hshadow⟩
  | false =>
    obtain ⟨Q, hfit, hshadow⟩ := reads_unbroken.mp ht
    simp only [RunShape.append, Bool.false_eq_true, if_false]
    cases fs with
    | true =>
      obtain ⟨u₁, q, P, rfl, hfit', hshadow'⟩ := reads_broken.mp hs
      exact reads_broken.mpr ⟨u₁, q ++ v, P ++ Q, by simp, hfit'.append hfit, hshadow'.append hshadow⟩
    | false =>
      obtain ⟨P, hfit', hshadow'⟩ := reads_unbroken.mp hs
      exact reads_unbroken.mpr ⟨P ++ Q, hfit'.append hfit, hshadow'.append hshadow⟩

/-- Fewer copies read what more copies read, unless a window could reach across all of
the fewer ones. -/
theorem RunShape.Reads.fewer {s : RunShape} {w : List CodePoint} {k n : ℕ}
    (h : (s.copies n).Reads w) (hkn : k ≤ n)
    (hk : s.flushed = false → k = n ∨ s.run = [] ∨ 2 ≤ k * s.run.length) :
    (s.copies k).Reads w := by
  obtain ⟨f, run⟩ := s
  cases f with
  | true => simpa [copies] using h
  | false =>
    simp only [copies, Bool.false_eq_true, if_false] at h ⊢
    obtain ⟨Q, hfit, hshadow⟩ := reads_unbroken.mp h
    refine reads_unbroken.mpr ⟨Q, hfit, ?_⟩
    rcases hk rfl with rfl | hnil | hlen
    · exact hshadow
    · have hnil : run = [] := hnil
      simpa only [hnil, power_nil] using hshadow
    · have hpow : Shadow (power run k) (power run n) := shadow_power hkn (by simpa using hlen)
      exact hpow.trans hshadow

/-- Iterated matches are read by as many copies of the shape. -/
theorem RunShape.reads_iterated {M : List CodePoint → List CodePoint → List CodePoint → Prop}
    {s : RunShape} (hM : ∀ {pre u post}, M pre u post → s.Reads u) {n : ℕ}
    {pre w post : List CodePoint} (h : Iterated M (n + 1) pre w post) : (s.copies (n + 1)).Reads w := by
  induction n generalizing pre w with
  | zero =>
    obtain ⟨u, v, rfl, hu, hv⟩ := h
    have hv : v = [] := hv
    rw [hv, List.append_nil, copies_one]
    exact hM hu
  | succ n ih =>
    obtain ⟨u, v, rfl, hu, hv⟩ := h
    rw [← copies_succ']
    exact (hM hu).append (ih hv)

/-- The members of a small class are the characters it contains. -/
theorem mem_classMembers {cs : RegexClass} {c : CodePoint} :
    c ∈ classMembers cs ↔ cs.contains c = true := by
  simp only [classMembers, RegexClass.contains, List.mem_flatMap, List.any_eq_true,
    decide_eq_true_eq, List.mem_range'_1]
  constructor
  · rintro ⟨r, hr, hlo, hhi⟩
    have hvalid := cs.valid r hr
    exact ⟨r, hr, hlo, by unfold CodePoint at *; omega⟩
  · rintro ⟨r, hr, hlo, hhi⟩
    exact ⟨r, hr, hlo, by unfold CodePoint at *; omega⟩

/-- A class that stands as a run position stands for its own members. -/
theorem classPos_eq_some {negated : Bool} {cs : RegexClass} {p : RunPos}
    (h : classPos negated cs = some p) : negated = false ∧ p = classMembers cs := by
  unfold classPos at h
  split_ifs at h with hneg
  split at h
  · cases h
  · split_ifs at h
    exact ⟨by simpa using hneg, (Option.some.inj h).symm⟩

/-- Unless an inlined copy can be reached across, the copies inlined for a repetition read
every number of copies the repetition allows. -/
theorem copies_suffice {child : RegexAst} {m : ℕ} {n : Option ℕ} {count : ℕ} {s : RunShape}
    (hm : m ≠ 0) (hcount : m ≤ count) (hbound : ∀ bound, n = some bound → count ≤ bound)
    (hlong : ¬ (n ≠ some m ∧ repCopies child m n = 1 ∧ s.flushed = false ∧ s.run.length ≤ 1))
    (hs : s.flushed = false) :
    repCopies child m n = count ∨ s.run = [] ∨ 2 ≤ repCopies child m n * s.run.length := by
  have hpos := repCopies_pos child n hm
  by_cases hrun : s.run = []
  · exact Or.inr (Or.inl hrun)
  have hlen : 1 ≤ s.run.length := List.length_pos_iff.mpr hrun
  by_cases hone : repCopies child m n = 1
  · have hmone := eq_one_of_repCopies_eq_one hone
    by_cases hfixed : n = some m
    · left
      have := hbound m hfixed
      omega
    · right; right
      have hlen' : ¬ s.run.length ≤ 1 := fun hle => hlong ⟨hfixed, hone, hs, hle⟩
      rw [hone]
      omega
  · right; right
    calc 2 ≤ repCopies child m n * 1 := by omega
      _ ≤ repCopies child m n * s.run.length := Nat.mul_le_mul_left _ hlen

/-- The shape of a tree whose budgets outside of alternations are zero reads every text the tree
matches. -/
theorem RegexAst.shape_reads {ast : RegexAst} (hzero : ast.runBudgetsZero = true)
    {pre w post : List CodePoint} (h : ast.Matches pre w post) : ast.shape.Reads w := by
  induction ast generalizing pre w post with
  | literal c =>
    have hw : w = [c] := h
    rw [hw]
    exact RunShape.reads_of_fits (List.Forall₂.cons (by simp) List.Forall₂.nil)
  | any => exact RunShape.reads_break w
  | charclass negated cs =>
    obtain ⟨c, rfl, hc⟩ := h
    cases hpos : classPos negated cs with
    | none =>
      rw [shape, hpos]
      exact RunShape.reads_break _
    | some p =>
      obtain ⟨rfl, rfl⟩ := classPos_eq_some hpos
      rw [shape, hpos]
      have hmem : c ∈ classMembers cs := mem_classMembers.mpr (by simpa using hc)
      exact RunShape.reads_of_fits (List.Forall₂.cons hmem List.Forall₂.nil)
  | anchor which =>
    have hw : w = [] := by cases which <;> exact h.1
    rw [hw]
    exact RunShape.reads_of_fits List.Forall₂.nil
  | concat l r ihl ihr =>
    simp only [runBudgetsZero, Bool.and_eq_true] at hzero
    obtain ⟨u, v, rfl, hu, hv⟩ := h
    exact (ihl hzero.1 hu).append (ihr hzero.2 hv)
  | alt l r => exact RunShape.reads_break w
  | rep child m n ih =>
    rw [shape]
    split_ifs with hcond
    · exact RunShape.reads_break w
    obtain ⟨hm, hlong⟩ := not_or.mp hcond
    simp only [runBudgetsZero, hm, decide_false, Bool.false_or] at hzero
    obtain ⟨count, hcount, hbound, hiter⟩ := h
    obtain ⟨j, rfl⟩ : ∃ j, count = j + 1 := ⟨count - 1, by omega⟩
    have hreads := RunShape.reads_iterated (fun h => ih hzero h) hiter
    refine hreads.fewer ((repCopies_le child m n).trans hcount) fun hs => ?_
    refine copies_suffice hm hcount hbound ?_ hs
    rintro ⟨hfixed, hone, -, hlen⟩
    refine hlong ⟨hfixed, hone, ?_⟩
    rw [hone, RunShape.copies_one]
    exact ⟨hs, hlen⟩
  | approx child k ih =>
    simp only [runBudgetsZero, Bool.and_eq_true, decide_eq_true_eq] at hzero
    obtain ⟨v, hv, hedits⟩ := h
    rw [hzero.1] at hedits
    rw [← hedits.eq_of_zero]
    exact ih hzero.2 hv

end PgTre
