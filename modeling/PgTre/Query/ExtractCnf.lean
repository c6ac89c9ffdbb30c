import PgTre.Query.Linearizer

/-!
# Soundness of the exact CNF extraction

While the linearizer walks a tree along a match of it, every trigram and every OR-group in
the accumulator is met by the text, and the current run shadows positions the text has just
passed. `LinCtx.Sound` states this, each node of the tree keeps it, and the conjuncts of the
query are the accumulator's entries.
-/

namespace PgTre

open Strings

/-- The text meets every requirement of the accumulator. -/
def TrigramAccum.MetBy (acc : TrigramAccum) (t : List CodePoint) : Prop :=
  (∀ x ∈ acc.tris, x ∈ windows t) ∧ ∀ group ∈ acc.ors, ∃ x ∈ group, x ∈ windows t

/-- The empty accumulator is met by every text. -/
theorem TrigramAccum.init_metBy (t : List CodePoint) : TrigramAccum.init.MetBy t := by
  simp [MetBy, init]

/-- Adding a trigram of the text. -/
theorem TrigramAccum.MetBy.accumAdd {acc : TrigramAccum} {t : List CodePoint} (h : acc.MetBy t)
    (fanout : ℕ) {x : Trigram} (hx : x ∈ windows t) : (accumAdd fanout acc x).MetBy t := by
  obtain ⟨htris, hors⟩ := h
  unfold PgTre.accumAdd
  split_ifs with hover hmem hfull
  · exact ⟨htris, hors⟩
  · exact ⟨htris, hors⟩
  · exact ⟨htris, hors⟩
  · refine ⟨fun y hy => ?_, hors⟩
    rcases List.mem_append.mp hy with hy | hy
    · exact htris y hy
    · rw [List.mem_singleton.mp hy]
      exact hx

/-- Adding trigrams of the text one after the other. -/
theorem TrigramAccum.MetBy.foldl_accumAdd {acc : TrigramAccum} {t : List CodePoint}
    (h : acc.MetBy t) (fanout : ℕ) {xs : List Trigram} (hxs : ∀ x ∈ xs, x ∈ windows t) :
    (xs.foldl (PgTre.accumAdd fanout) acc).MetBy t := by
  induction xs generalizing acc with
  | nil => exact h
  | cons x xs ih =>
    obtain ⟨hx, hxs⟩ := List.forall_mem_cons.mp hxs
    exact ih (h.accumAdd fanout hx) hxs

/-- Adding a group with a trigram of the text. -/
theorem TrigramAccum.MetBy.accumAddOr {acc : TrigramAccum} {t : List CodePoint} (h : acc.MetBy t)
    {group : List Trigram} (hgroup : ∃ x ∈ group, x ∈ windows t) :
    (accumAddOr acc group).MetBy t := by
  obtain ⟨htris, hors⟩ := h
  unfold PgTre.accumAddOr
  split_ifs with hfull
  · exact ⟨htris, hors⟩
  · refine ⟨htris, fun g hg => ?_⟩
    rcases List.mem_append.mp hg with hg | hg
    · exact hors g hg
    · rw [List.mem_singleton.mp hg]
      exact hgroup

/-- The combinations of a window are those of its positions' members. -/
theorem mem_windowAlts {a b c : RunPos} {x y z : CodePoint} :
    (x, y, z) ∈ windowAlts a b c ↔ x ∈ a ∧ y ∈ b ∧ z ∈ c := by
  unfold windowAlts
  simp

/-- Emitting a window one of whose combinations the text has. -/
theorem TrigramAccum.MetBy.emitWindow {acc : TrigramAccum} {t : List CodePoint} (h : acc.MetBy t)
    (fanout : ℕ) {a b c : RunPos} {x y z : CodePoint} (hx : x ∈ a) (hy : y ∈ b) (hz : z ∈ c)
    (hwin : (x, y, z) ∈ windows t) : (emitWindow fanout acc (a, b, c)).MetBy t := by
  unfold PgTre.emitWindow
  split
  next heq =>
    obtain ⟨rfl, rfl, rfl⟩ : a = _ ∧ b = _ ∧ c = _ := by simpa using heq
    rw [List.mem_singleton] at hx hy hz
    subst hx hy hz
    exact h.accumAdd fanout hwin
  next heq =>
    obtain ⟨rfl, rfl, rfl⟩ : a = _ ∧ b = _ ∧ c = _ := by simpa using heq
    split_ifs
    · exact h.accumAddOr ⟨_, mem_windowAlts.mpr ⟨hx, hy, hz⟩, hwin⟩
    · exact h

/-- Every window of a run the text was read by has a combination in the text. -/
theorem exists_mem_windows_of_reads {run : List RunPos} {u : List CodePoint}
    (h : RunShape.Reads ⟨true, run⟩ u) {a b c : RunPos} (hw : (a, b, c) ∈ windows run) :
    ∃ x y z, x ∈ a ∧ y ∈ b ∧ z ∈ c ∧ (x, y, z) ∈ windows u := by
  obtain ⟨v, q, Q, rfl, hfit, hshadow⟩ := RunShape.reads_broken.mp h
  obtain ⟨x, y, z, hmem, hx, hy, hz⟩ := windows_of_forall₂ hfit (hshadow.windows_subset hw)
  exact ⟨x, y, z, hx, hy, hz, windows_subset_right v q hmem⟩

/-- Emitting a run the text was read by. -/
theorem TrigramAccum.MetBy.runEmit {acc : TrigramAccum} {t u : List CodePoint} (h : acc.MetBy t)
    (fanout : ℕ) {run : List RunPos} (hrun : RunShape.Reads ⟨true, run⟩ u) (hbegin : u <+: t) :
    (runEmit fanout run acc).MetBy t := by
  have hwins : ∀ w ∈ windows run, ∃ x y z, x ∈ w.1 ∧ y ∈ w.2.1 ∧ z ∈ w.2.2 ∧ (x, y, z) ∈ windows t := by
    rintro ⟨a, b, c⟩ hw
    obtain ⟨x, y, z, hx, hy, hz, hmem⟩ := exists_mem_windows_of_reads hrun hw
    exact ⟨x, y, z, hx, hy, hz, windows_subset_of_isInfix hbegin.isInfix hmem⟩
  unfold PgTre.runEmit
  generalize windows run = ws at hwins
  induction ws generalizing acc with
  | nil => exact h
  | cons w ws ih =>
    obtain ⟨⟨x, y, z, hx, hy, hz, hmem⟩, hrest⟩ := List.forall_mem_cons.mp hwins
    exact ih (h.emitWindow fanout hx hy hz hmem) hrest

/-! ## The invariant of the walk -/

/-- The walk has reached the end of `u` in the text `t`: the accumulator is met by `t`, and
until an overflow the run was read by `u`. -/
structure LinCtx.Sound (lc : LinCtx) (u t : List CodePoint) : Prop where
  metBy : lc.acc.MetBy t
  reads : lc.acc.overflowed = false → RunShape.Reads ⟨true, lc.run⟩ u

/-- Emitting the current run keeps the accumulator met. -/
theorem LinCtx.Sound.metBy_runEmit {lc : LinCtx} {u t : List CodePoint} (h : lc.Sound u t)
    (fanout : ℕ) (hbegin : u <+: t) : (runEmit fanout lc.run lc.acc).MetBy t := by
  cases hover : lc.acc.overflowed with
  | true =>
    rw [runEmit_of_overflowed hover]
    exact h.metBy
  | false => exact h.metBy.runEmit fanout (h.reads hover) hbegin

/-- The run the walk leaves, once its accumulator part is known. -/
theorem LinCtx.Sound.walk {lc : LinCtx} {pre w post t : List CodePoint} (h : lc.Sound pre t)
    {fanout : ℕ} {ast : RegexAst} (hzero : ast.walkBudgetsZero fanout lc = true)
    (hmatch : ast.Matches pre w post) (hacc : (linAppendNode fanout ast lc).acc.MetBy t) :
    (linAppendNode fanout ast lc).Sound (pre ++ w) t := by
  refine ⟨hacc, fun hend => ?_⟩
  have hreads := (h.reads (overflowed_eq_false_of_walk hend)).append
    (ast.shape_reads (RegexAst.runBudgetsZero_of_walk hzero hend) hmatch)
  rw [(linAppendNode_follows hend).1]
  have hshape : RunShape.append ⟨true, lc.run⟩ ast.shape = ⟨true, ast.shape.apply lc.run⟩ := by
    cases hs : ast.shape with
    | mk flushed run => cases flushed <;> simp [RunShape.append, RunShape.apply]
  rwa [hshape] at hreads

/-- Copies of a node inlined along as many matches of it. -/
theorem LinCtx.Sound.iterate {fanout : ℕ} {child : RegexAst} {t : List CodePoint}
    (hchild : ∀ {lc : LinCtx} {pre w post : List CodePoint},
      child.walkBudgetsZero fanout lc = true → lc.Sound pre t →
      child.Matches pre w post → t = pre ++ (w ++ post) →
        (linAppendNode fanout child lc).Sound (pre ++ w) t)
    {k count : ℕ} (hk : k ≤ count) {lc : LinCtx}
    (hzero : ∀ i < k, child.walkBudgetsZero fanout ((linAppendNode fanout child)^[i] lc) = true)
    {pre w post : List CodePoint} (h : lc.Sound pre t)
    (hiter : Iterated child.Matches count pre w post) (ht : t = pre ++ (w ++ post)) :
    ∃ u, u <+: t ∧ ((linAppendNode fanout child)^[k] lc).Sound u t := by
  induction k generalizing count lc pre w with
  | zero => exact ⟨pre, by simp [ht], h⟩
  | succ k ih =>
    obtain ⟨count, rfl⟩ : ∃ j, count = j + 1 := ⟨count - 1, by omega⟩
    obtain ⟨u, v, rfl, hu, hv⟩ := hiter
    have hfirst := hchild (hzero 0 (Nat.succ_pos k)) h hu (by simpa using ht)
    rw [Function.iterate_succ_apply]
    exact ih (by omega) (fun i hi => hzero (i + 1) (Nat.succ_lt_succ hi)) hfirst hv (by simpa using ht)

/-- A trigram required by both branches is met when one branch occurs. -/
private theorem metBy_alt {fanout : ℕ} {a b acc : TrigramAccum} {t : List CodePoint}
    (hbranch : a.MetBy t ∨ b.MetBy t) (hacc : acc.MetBy t) :
    ((a.tris.filter (· ∈ b.tris)).foldl (accumAdd fanout) acc).MetBy t := by
  refine hacc.foldl_accumAdd fanout fun x hx => ?_
  obtain ⟨hxa, hxb⟩ := List.mem_filter.mp hx
  rcases hbranch with ha | hb
  · exact ha.1 x hxa
  · exact hb.1 x (of_decide_eq_true hxb)

/-- Walking a tree whose visited budgets are zero along a match of it keeps the accumulator
met by the text. -/
theorem LinCtx.Sound.metBy_linAppendNode {fanout : ℕ} {ast : RegexAst}
    {lc : LinCtx} (hzero : ast.walkBudgetsZero fanout lc = true) {pre w post t : List CodePoint}
    (h : lc.Sound pre t) (hmatch : ast.Matches pre w post) (ht : t = pre ++ (w ++ post)) :
    (linAppendNode fanout ast lc).acc.MetBy t := by
  induction ast generalizing lc pre w post with
  | anchor => exact h.metBy
  | literal c =>
    rw [PgTre.linAppendNode]
    split_ifs
    · exact h.metBy
    · exact h.metBy
  | any =>
    rw [PgTre.linAppendNode]
    split_ifs
    · exact h.metBy
    · exact h.metBy_runEmit fanout ⟨w ++ post, ht.symm⟩
  | charclass negated cs =>
    rw [PgTre.linAppendNode]
    split_ifs
    · exact h.metBy
    · cases classPos negated cs with
      | none => exact h.metBy_runEmit fanout ⟨w ++ post, ht.symm⟩
      | some p => exact h.metBy
  | concat l r ihl ihr =>
    obtain ⟨u, v, rfl, hu, hv⟩ := hmatch
    rw [PgTre.linAppendNode]
    split_ifs with hover
    · exact h.metBy
    · simp only [RegexAst.walkBudgetsZero, hover, Bool.false_or, Bool.and_eq_true] at hzero
      have hleft := h.walk hzero.1 hu (ihl hzero.1 h hu (by simpa using ht))
      exact ihr hzero.2 hleft hv (by simpa using ht)
  | alt l r ihl ihr =>
    rw [PgTre.linAppendNode]
    split_ifs with hover
    · exact h.metBy
    · simp only [RegexAst.walkBudgetsZero, hover, Bool.false_or, Bool.and_eq_true] at hzero
      have hstart : LinCtx.Sound ⟨[], .init, lc.flushes⟩ pre t :=
        ⟨TrigramAccum.init_metBy t, fun _ => RunShape.reads_break pre⟩
      have hbegin : pre ++ w <+: t := ⟨post, by simp [ht]⟩
      refine metBy_alt ?_ (h.metBy_runEmit fanout ⟨w ++ post, ht.symm⟩)
      rcases hmatch with hl | hr
      · left
        exact (hstart.walk hzero.1 hl (ihl hzero.1 hstart hl ht)).metBy_runEmit fanout hbegin
      · right
        exact (hstart.walk hzero.2 hr (ihr hzero.2 hstart hr ht)).metBy_runEmit fanout hbegin
  | rep child m n ih =>
    rw [PgTre.linAppendNode]
    split_ifs with hover hm
    · exact h.metBy
    · exact h.metBy_runEmit fanout ⟨w ++ post, ht.symm⟩
    · simp only [RegexAst.walkBudgetsZero, hover, hm, decide_false, Bool.false_or, List.all_eq_true,
        List.mem_range] at hzero
      obtain ⟨count, hcount, -, hiter⟩ := hmatch
      obtain ⟨u, hbegin, hsound⟩ := LinCtx.Sound.iterate
        (fun hzero h hmatch ht => h.walk hzero hmatch (ih hzero h hmatch ht))
        ((repCopies_le child m n).trans hcount) hzero h hiter ht
      simp only []
      split_ifs
      · exact hsound.metBy_runEmit fanout hbegin
      · exact hsound.metBy
  | approx child k ih =>
    rw [PgTre.linAppendNode]
    split_ifs with hover
    · exact h.metBy
    · simp only [RegexAst.walkBudgetsZero, hover, Bool.false_or, Bool.and_eq_true,
        decide_eq_true_eq] at hzero
      obtain ⟨v, hv, hedits⟩ := hmatch
      rw [hzero.1] at hedits
      obtain rfl := hedits.eq_of_zero
      exact ih hzero.2 h hv ht

/-- What the whole walk and the final emission leave in the accumulator. -/
theorem metBy_of_occursIn {fanout : ℕ} {ast : RegexAst}
    (hzero : ast.walkBudgetsZero fanout ⟨[], .init, 0⟩ = true) {t : List CodePoint}
    (h : ast.OccursIn t) :
    (runEmit fanout (linearize fanout ast).run (linearize fanout ast).acc).MetBy t := by
  obtain ⟨pre, w, post, ht, hmatch⟩ := h
  have hstart : LinCtx.Sound ⟨[], .init, 0⟩ pre t :=
    ⟨TrigramAccum.init_metBy t, fun _ => RunShape.reads_break pre⟩
  have hwalk : (linearize fanout ast).Sound (pre ++ w) t :=
    hstart.walk hzero hmatch (hstart.metBy_linAppendNode hzero hmatch ht)
  exact hwalk.metBy_runEmit fanout ⟨post, by simp [ht]⟩

/-! ## The query -/

/-- A text that meets the accumulator satisfies every conjunct built from it. -/
theorem TrigramAccum.MetBy.accumToQuery {acc : TrigramAccum} {t : List CodePoint} (h : acc.MetBy t)
    (maxCost : ℤ) (out : TrigramQuery) :
    ∀ c ∈ (accumToQuery acc maxCost out).conjuncts, ∃ a ∈ c.alts, HasTrigram t a.trigramHash := by
  intro c hc
  unfold PgTre.accumToQuery at hc
  split_ifs at hc
  · simp at hc
  rcases List.mem_append.mp hc with hc | hc
  · obtain ⟨x, hx, rfl⟩ := List.mem_map.mp hc
    exact ⟨plainDisjunct x, by simp, x, h.1 x hx, rfl⟩
  · obtain ⟨group, hgroup, rfl⟩ := List.mem_map.mp hc
    obtain ⟨x, hx, hmem⟩ := h.2 group hgroup
    exact ⟨plainDisjunct x, List.mem_map_of_mem hx, x, hmem, rfl⟩

/-- Recording the SuRF range leaves the conjuncts alone. -/
@[simp] theorem recordSurfRange_conjuncts (root : RegexAst) (maxCost : ℤ) (q : TrigramQuery) :
    (recordSurfRange root maxCost q).conjuncts = q.conjuncts := by
  unfold recordSurfRange
  split_ifs
  · cases extractAnchoredPrefixKey root <;> rfl
  · rfl

/-- Recording the SuRF range leaves the mode alone. -/
@[simp] theorem recordSurfRange_mode (root : RegexAst) (maxCost : ℤ) (q : TrigramQuery) :
    (recordSurfRange root maxCost q).mode = q.mode := by
  unfold recordSurfRange
  split_ifs
  · cases extractAnchoredPrefixKey root <;> rfl
  · rfl

/-- The two outcomes of an exact extraction: the pieces of one unbroken run, or the
accumulator's conjuncts. -/
theorem regexExtractQuery_zero_cases {s : Settings} {root : RegexAst} {q : TrigramQuery}
    (h : regexExtractQuery s root 0 = .ok q) :
    ((linearize s.maxExtractionFanout root).flushes = 0 ∧
        (linearize s.maxExtractionFanout root).acc.overflowed = false ∧
        ∃ q', tryBuildRunPieces (linearize s.maxExtractionFanout root).run 0 .zero = some q' ∧
          q = recordSurfRange root 0 q') ∨
      q = recordSurfRange root 0 { accumToQuery (runEmit s.maxExtractionFanout
        (linearize s.maxExtractionFanout root).run (linearize s.maxExtractionFanout root).acc) 0 .zero
        with mode := .cnf } := by
  simp only [regexExtractQuery, lt_irrefl, if_false] at h
  split at h
  next q' hq' =>
    left
    split_ifs at hq' with hcond
    exact ⟨hcond.1, hcond.2, q', hq', by simpa using h.symm⟩
  next =>
    right
    simpa using h.symm

/-- What `try_build_run_pieces` builds when it succeeds. -/
theorem tryBuildRunPieces_eq_some {run : List RunPos} {maxCost : ℤ} {out q : TrigramQuery}
    (h : tryBuildRunPieces run maxCost out = some q) :
    q.mode = .pieces ∧ q.alwaysTrue = false ∧ ∃ prod, piecesProduct 1 run = some prod ∧
      q.conjuncts = (List.range prod).map (fun p =>
        ⟨(windows (chosenString run ((nextDigits run)^[p] (List.replicate run.length 0)))).map
          plainDisjunct⟩) := by
  unfold tryBuildRunPieces at h
  cases hprod : piecesProduct 1 run with
  | none => simp [hprod] at h
  | some prod =>
    simp only [hprod] at h
    split_ifs at h
    rw [← Option.some.inj h]
    exact ⟨rfl, rfl, prod, rfl, rfl⟩

/-- Every conjunct of a CNF query extracted at cost zero from a tree whose visited budgets
are zero is met by every text the tree occurs in. -/
theorem cnf_met_of_walk {s : Settings} {ast : RegexAst} {t : List CodePoint} {q : TrigramQuery}
    (hzero : ast.walkBudgetsZero s.maxExtractionFanout ⟨[], .init, 0⟩ = true)
    (hoccurs : ast.OccursIn t) (hq : regexExtractQuery s ast 0 = .ok q) (hmode : q.mode = .cnf) :
    ∀ c ∈ q.conjuncts, ∃ a ∈ c.alts, HasTrigram t a.trigramHash := by
  rcases regexExtractQuery_zero_cases hq with ⟨-, -, q', hpieces, rfl⟩ | rfl
  · rw [recordSurfRange_mode, (tryBuildRunPieces_eq_some hpieces).1] at hmode
    cases hmode
  · rw [recordSurfRange_conjuncts]
    exact (metBy_of_occursIn hzero hoccurs).accumToQuery 0 .zero

/-- Every conjunct of a CNF query extracted at cost zero from a tree whose budgets are zero is met
by every text the tree occurs in. -/
theorem cnf_met_of_budgetsZero {s : Settings} {ast : RegexAst} {t : List CodePoint}
    {q : TrigramQuery} (hzero : ast.budgetsZero = true) (hoccurs : ast.OccursIn t)
    (hq : regexExtractQuery s ast 0 = .ok q) (hmode : q.mode = .cnf) :
    ∀ c ∈ q.conjuncts, ∃ a ∈ c.alts, HasTrigram t a.trigramHash :=
  cnf_met_of_walk (RegexAst.walkBudgetsZero_of_budgetsZero hzero _) hoccurs hq hmode

/-- Soundness of the exact CNF extraction: a text with a substring matched by a tree without
`APPROX` nodes has, for every conjunct of the extracted CNF query, the trigram of one of its
alternatives. An `always_true` query has no conjuncts, so nothing is asked about that flag. -/
theorem regexExtractQuery_cnf_sound (s : Settings) (ast : RegexAst) (t : List CodePoint)
    (q : TrigramQuery) (hfree : ast.approxFree = true) (hoccurs : ast.OccursIn t)
    (hq : regexExtractQuery s ast 0 = .ok q) (hmode : q.mode = .cnf) :
    ∀ c ∈ q.conjuncts, ∃ a ∈ c.alts, HasTrigram t a.trigramHash :=
  cnf_met_of_budgetsZero (RegexAst.budgetsZero_of_approxFree hfree) hoccurs hq hmode

/-- The pattern `abc[de].`: a run with a class, then a break. -/
def abcClassAny : RegexAst :=
  .concat (.concat (.concat (.literal 97) (.literal 98))
    (.concat (.literal 99) (.charclass false ⟨[(100, 101)], by decide, by decide⟩))) .any

/-- At `abc[de].` and the text `xabcez` both conjuncts are met. -/
theorem regexExtractQuery_cnf_sound_abcClassAny :
    ∃ q, regexExtractQuery ⟨256, 4⟩ abcClassAny 0 = .ok q ∧ q.mode = .cnf ∧ q.alwaysTrue = false ∧
      q.conjuncts.length = 2 ∧
      ∀ c ∈ q.conjuncts, ∃ a ∈ c.alts, HasTrigram [120, 97, 98, 99, 101, 122] a.trigramHash := by
  have hoccurs : abcClassAny.OccursIn [120, 97, 98, 99, 101, 122] := by
    refine ⟨[120], [97, 98, 99, 101, 122], [], rfl, ?_⟩
    refine ⟨[97, 98, 99, 101], [122], rfl, ?_, 122, rfl⟩
    refine ⟨[97, 98], [99, 101], rfl, ⟨[97], [98], rfl, rfl, rfl⟩, ?_⟩
    exact ⟨[99], [101], rfl, rfl, 101, rfl, by decide⟩
  refine ⟨_, rfl, rfl, rfl, rfl, ?_⟩
  exact regexExtractQuery_cnf_sound ⟨256, 4⟩ abcClassAny _ _ rfl hoccurs rfl rfl

end PgTre
