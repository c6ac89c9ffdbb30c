import PgTre.Query.ExtractCnf

/-!
# The exact pieces of one run

A pattern that linearizes to one unbroken run is turned into one piece for every string the
run expands to. The mixed-radix counter of `try_build_run_pieces` reaches every such string,
so the pieces are sound as soon as the windows of some such string are in every match. This
holds when every repetition of a class with two or more members is inlined in full, and
fails on `a[bc]{3}d`, which is linearized as `a[bc][bc]d`.
-/

namespace PgTre

open Strings

/-- A position some character fits is not empty. -/
theorem Fits.ne_nil {d : List CodePoint} {run : List RunPos} (h : Fits d run) :
    ∀ pos ∈ run, pos ≠ [] := by
  induction h with
  | nil => simp
  | cons hc _ ih => exact List.forall_mem_cons.mpr ⟨List.ne_nil_of_mem hc, ih⟩

/-- A run without choices is fitted by one string only. -/
theorem Fits.unique {d d' : List CodePoint} {run : List RunPos} (h : Fits d run) (h' : Fits d' run)
    (hone : ∀ pos ∈ run, pos.length ≤ 1) : d = d' := by
  induction h generalizing d' with
  | nil =>
    cases h'
    rfl
  | @cons c pos d run hc _ ih =>
    obtain ⟨hpos, hone⟩ := List.forall_mem_cons.mp hone
    cases h' with
    | @cons c' _ d' _ hc' hd' =>
      have hchar : c = c' := by
        obtain ⟨x, rfl⟩ : ∃ x, pos = [x] := by
          have hlen := List.length_pos_of_mem hc
          exact List.length_eq_one_iff.mp (by omega)
        rw [List.mem_singleton.mp hc, List.mem_singleton.mp hc']
      rw [hchar, ih hd' hone]

/-! ## The counter -/

/-- The digits of `p` in the mixed radix given by the sizes of the positions. -/
def radixDigits : List RunPos → ℕ → List ℕ
  | [], _ => []
  | pos :: run, p => p % pos.length :: radixDigits run (p / pos.length)

/-- The digits of 0 are zeros. -/
theorem radixDigits_zero (run : List RunPos) : radixDigits run 0 = List.replicate run.length 0 := by
  induction run with
  | nil => rfl
  | cons pos run ih => simp [radixDigits, ih, List.replicate_succ]

/-- One increment of the counter is addition of one. -/
theorem nextDigits_radixDigits {run : List RunPos} (hrun : ∀ pos ∈ run, pos ≠ []) (p : ℕ) :
    nextDigits run (radixDigits run p) = radixDigits run (p + 1) := by
  induction run generalizing p with
  | nil => rfl
  | cons pos run ih =>
    obtain ⟨hpos, hrun⟩ := List.forall_mem_cons.mp hrun
    have hlen : 0 < pos.length := List.length_pos_iff.mpr hpos
    have hdigit : p % pos.length < pos.length := Nat.mod_lt p hlen
    have hsplit : pos.length * (p / pos.length) + p % pos.length = p := Nat.div_add_mod p pos.length
    simp only [radixDigits, nextDigits]
    split_ifs with hcarry
    · have hnext : p + 1 = pos.length * (p / pos.length) + (p % pos.length + 1) := by omega
      have hmod : (p + 1) % pos.length = p % pos.length + 1 := by
        rw [hnext, Nat.mul_add_mod, Nat.mod_eq_of_lt hcarry]
      have hdiv : (p + 1) / pos.length = p / pos.length := by
        rw [hnext, Nat.mul_add_div hlen, Nat.div_eq_of_lt hcarry, Nat.add_zero]
      rw [hmod, hdiv]
    · have hnext : p + 1 = pos.length * (p / pos.length + 1) := by
        rw [Nat.mul_succ]
        omega
      have hmod : (p + 1) % pos.length = 0 := by rw [hnext, Nat.mul_mod_right]
      have hdiv : (p + 1) / pos.length = p / pos.length + 1 := by
        rw [hnext, Nat.mul_div_cancel_left _ hlen]
      rw [hmod, hdiv, ih hrun]

/-- After `p` increments from zero the counter shows the digits of `p`. -/
theorem iterate_nextDigits {run : List RunPos} (hrun : ∀ pos ∈ run, pos ≠ []) (p : ℕ) :
    (nextDigits run)^[p] (List.replicate run.length 0) = radixDigits run p := by
  induction p with
  | zero => rw [Function.iterate_zero, id_eq, radixDigits_zero]
  | succ p ih => rw [Function.iterate_succ_apply', ih, nextDigits_radixDigits hrun]

/-- Every string the run expands to is selected by some value of the counter. -/
theorem exists_chosenString_eq {run : List RunPos} {d : List CodePoint} (h : Fits d run) :
    ∃ p < (run.map List.length).prod, chosenString run (radixDigits run p) = d := by
  induction h with
  | nil => exact ⟨0, by simp, rfl⟩
  | @cons c pos d run hc _ ih =>
    obtain ⟨p, hp, hchosen⟩ := ih
    obtain ⟨i, hi, rfl⟩ := List.getElem_of_mem hc
    refine ⟨i + pos.length * p, ?_, ?_⟩
    · rw [List.map_cons, List.prod_cons]
      calc i + pos.length * p < pos.length + pos.length * p := by omega
        _ = pos.length * (p + 1) := by rw [Nat.mul_succ, Nat.add_comm]
        _ ≤ pos.length * (run.map List.length).prod := Nat.mul_le_mul_left _ hp
    · have hmod : (i + pos.length * p) % pos.length = i := by
        rw [Nat.add_mul_mod_self_left, Nat.mod_eq_of_lt hi]
      have hdiv : (i + pos.length * p) / pos.length = p := by
        rw [Nat.add_mul_div_left _ _ (by omega), Nat.div_eq_of_lt hi, Nat.zero_add]
      simp only [chosenString, radixDigits, List.zipWith_cons_cons, hmod, hdiv] at hchosen ⊢
      rw [hchosen]
      simp [hi]

/-- The number of pieces is the number of strings the run expands to. -/
theorem piecesProduct_eq_some {run : List RunPos} {start prod : ℕ}
    (h : piecesProduct start run = some prod) : prod = start * (run.map List.length).prod := by
  induction run generalizing start with
  | nil => simpa [piecesProduct, eq_comm] using h
  | cons pos run ih =>
    simp only [piecesProduct] at h
    split_ifs at h
    rw [ih h, List.map_cons, List.prod_cons, Nat.mul_assoc]

/-- Every string the run expands to has its piece in the query. -/
theorem exists_piece {run : List RunPos} {maxCost : ℤ} {out q : TrigramQuery}
    (hq : tryBuildRunPieces run maxCost out = some q) {d : List CodePoint} (hd : Fits d run) :
    ⟨(windows d).map plainDisjunct⟩ ∈ q.conjuncts := by
  obtain ⟨-, -, prod, hprod, hconj⟩ := tryBuildRunPieces_eq_some hq
  obtain ⟨p, hp, rfl⟩ := exists_chosenString_eq hd
  rw [hconj, ← iterate_nextDigits hd.ne_nil p]
  refine List.mem_map.mpr ⟨p, List.mem_range.mpr ?_, rfl⟩
  rw [piecesProduct_eq_some hprod, Nat.one_mul]
  exact hp

/-! ## The pieces of a match -/

/-- Somewhere in the tree stands a class with two or more members. -/
def RegexAst.hasChoice : RegexAst → Bool
  | .charclass _ cs => decide (1 < (classMembers cs).length)
  | .concat l r | .alt l r => l.hasChoice || r.hasChoice
  | .rep child _ _ | .approx child _ => child.hasChoice
  | _ => false

/-- Every repetition of a child with a choice is fixed and inlined with all of its copies. -/
def RegexAst.classRepsInlined : RegexAst → Bool
  | .concat l r | .alt l r => l.classRepsInlined && r.classRepsInlined
  | .rep child m n =>
      (!child.hasChoice || decide (n = some m ∧ repCopies child m n = m)) && child.classRepsInlined
  | .approx child _ => child.classRepsInlined
  | _ => true

/-- The windows of some string the positions expand to stay in the text wherever it stands. -/
def Spelled (w : List CodePoint) (P : List RunPos) : Prop :=
  ∃ d, Fits d P ∧ Shadow d w

/-- Spelled runs join. -/
theorem Spelled.append {u v : List CodePoint} {P Q : List RunPos} (hu : Spelled u P)
    (hv : Spelled v Q) : Spelled (u ++ v) (P ++ Q) := by
  obtain ⟨d, hfit, hshadow⟩ := hu
  obtain ⟨e, hfit', hshadow'⟩ := hv
  exact ⟨d ++ e, hfit.append hfit', hshadow.append hshadow'⟩

/-- Iterated matches are spelled by as many copies of the positions. -/
theorem spelled_iterated {M : List CodePoint → List CodePoint → List CodePoint → Prop}
    {P : List RunPos} (hM : ∀ {pre u post}, M pre u post → Spelled u P) {n : ℕ}
    {pre w post : List CodePoint} (h : Iterated M n pre w post) : Spelled w (power P n) := by
  induction n generalizing pre w with
  | zero =>
    have hw : w = [] := h
    rw [hw]
    exact ⟨[], List.Forall₂.nil, Shadow.refl []⟩
  | succ n ih =>
    obtain ⟨u, v, rfl, hu, hv⟩ := h
    rw [power_succ]
    exact (hM hu).append (ih hv)

/-- A fitting run fits as often as it is repeated. -/
theorem Fits.power {d : List CodePoint} {P : List RunPos} (h : Fits d P) (n : ℕ) :
    Fits (power d n) (power P n) := by
  induction n with
  | zero => exact List.Forall₂.nil
  | succ n ih =>
    rw [power_succ, power_succ]
    exact h.append ih

/-- Without choices, fewer copies of the positions spell what more copies spell, unless a
window could reach across all of the fewer ones. -/
theorem Spelled.fewer {w : List CodePoint} {P : List RunPos} {d : List CodePoint} {k n : ℕ}
    (h : Spelled w (power P n)) (hd : Fits d P) (hone : ∀ pos ∈ P, pos.length ≤ 1) (hkn : k ≤ n)
    (hk : k = n ∨ P = [] ∨ 2 ≤ k * P.length) : Spelled w (power P k) := by
  obtain ⟨e, hfit, hshadow⟩ := h
  have honePower : ∀ pos ∈ power P n, pos.length ≤ 1 :=
    fun pos hpos => hone pos (mem_of_mem_power hpos)
  obtain rfl : e = power d n := hfit.unique (hd.power n) honePower
  refine ⟨power d k, hd.power k, ?_⟩
  have hlen : d.length = P.length := hd.length_eq
  rcases hk with rfl | rfl | hlong
  · exact hshadow
  · obtain rfl : d = [] := List.length_eq_zero_iff.mp hlen
    simpa using hshadow
  · have hpow : Shadow (power d k) (power d n) := shadow_power hkn (by simpa [hlen] using hlong)
    exact hpow.trans hshadow

/-- A tree without choices contributes only single characters. -/
theorem RegexAst.length_le_one_of_mem_shape {ast : RegexAst} (h : ast.hasChoice = false) :
    ∀ pos ∈ ast.shape.run, pos.length ≤ 1 := by
  induction ast with
  | literal c => simp [shape]
  | any => simp [shape]
  | charclass negated cs =>
    cases hpos : classPos negated cs with
    | none => simp [shape, hpos]
    | some p =>
      obtain ⟨-, rfl⟩ := classPos_eq_some hpos
      simpa [shape, hpos, hasChoice] using h
  | anchor => simp [shape]
  | concat l r ihl ihr =>
    simp only [hasChoice, Bool.or_eq_false_iff] at h
    intro pos hpos
    simp only [shape, RunShape.append] at hpos
    split_ifs at hpos
    · exact ihr h.2 pos hpos
    · rcases List.mem_append.mp hpos with hpos | hpos
      · exact ihl h.1 pos hpos
      · exact ihr h.2 pos hpos
  | alt => simp [shape]
  | rep child m n ih =>
    intro pos hpos
    rw [shape] at hpos
    split_ifs at hpos with hbreak
    · simp at hpos
    · simp only [RunShape.copies] at hpos
      split_ifs at hpos with hflushed
      · exact ih h pos hpos
      · exact ih h pos (mem_of_mem_power hpos)
  | approx child k ih => exact ih h

/-- A match of a tree that leaves the run unbroken and inlines its class repetitions is
spelled by the run. -/
theorem RegexAst.spelled_shape {ast : RegexAst} (hzero : ast.runBudgetsZero = true)
    (hreps : ast.classRepsInlined = true) (hkeep : ast.shape.flushed = false)
    {pre w post : List CodePoint} (h : ast.Matches pre w post) : Spelled w ast.shape.run := by
  induction ast generalizing pre w post with
  | literal c =>
    have hw : w = [c] := h
    rw [hw]
    exact ⟨[c], List.Forall₂.cons (by simp) List.Forall₂.nil, Shadow.refl _⟩
  | any => simp [shape] at hkeep
  | charclass negated cs =>
    obtain ⟨c, rfl, hc⟩ := h
    cases hpos : classPos negated cs with
    | none => simp [shape, hpos] at hkeep
    | some p =>
      obtain ⟨rfl, rfl⟩ := classPos_eq_some hpos
      rw [shape, hpos]
      have hmem : c ∈ classMembers cs := mem_classMembers.mpr (by simpa using hc)
      exact ⟨[c], List.Forall₂.cons hmem List.Forall₂.nil, Shadow.refl _⟩
  | anchor which =>
    have hw : w = [] := by cases which <;> exact h.1
    rw [hw]
    exact ⟨[], List.Forall₂.nil, Shadow.refl []⟩
  | concat l r ihl ihr =>
    simp only [runBudgetsZero, Bool.and_eq_true] at hzero
    simp only [classRepsInlined, Bool.and_eq_true] at hreps
    rw [shape, RunShape.append] at hkeep ⊢
    split_ifs at hkeep ⊢ with hright
    · simp [hright] at hkeep
    obtain ⟨u, v, rfl, hu, hv⟩ := h
    exact (ihl hzero.1 hreps.1 hkeep hu).append (ihr hzero.2 hreps.2 (by simpa using hright) hv)
  | alt => simp [shape] at hkeep
  | rep child m n ih =>
    rw [shape] at hkeep ⊢
    split_ifs at hkeep ⊢ with hbreak
    obtain ⟨hm, hlong⟩ := not_or.mp hbreak
    simp only [runBudgetsZero, hm, decide_false, Bool.false_or] at hzero
    simp only [classRepsInlined, Bool.and_eq_true, Bool.or_eq_true, Bool.not_eq_true',
      decide_eq_true_eq] at hreps
    obtain ⟨hinlined, hreps⟩ := hreps
    have hchild : child.shape.flushed = false := hkeep
    simp only [RunShape.copies, hchild, Bool.false_eq_true, if_false]
    obtain ⟨count, hcount, hbound, hiter⟩ := h
    have hall := spelled_iterated (fun h => ih hzero hreps hchild h) hiter
    rcases hinlined with hnone | ⟨hfixed, hcopies⟩
    · obtain ⟨j, rfl⟩ : ∃ j, count = j + 1 := ⟨count - 1, by omega⟩
      obtain ⟨u, v, -, hu, -⟩ := hiter
      obtain ⟨d, hd, -⟩ := ih hzero hreps hchild hu
      refine hall.fewer hd (RegexAst.length_le_one_of_mem_shape hnone)
        ((repCopies_le child m n).trans hcount) (copies_suffice hm hcount hbound ?_ hchild)
      rintro ⟨hvar, hone, -, hlen⟩
      refine hlong ⟨hvar, hone, ?_⟩
      rw [hone, RunShape.copies_one]
      exact ⟨hchild, hlen⟩
    · have hexact : count = m := le_antisymm (hbound m hfixed) hcount
      rw [hcopies, ← hexact]
      exact hall
  | approx child k ih =>
    simp only [runBudgetsZero, Bool.and_eq_true, decide_eq_true_eq] at hzero
    obtain ⟨v, hv, hedits⟩ := h
    rw [hzero.1] at hedits
    obtain rfl := hedits.eq_of_zero
    exact ih hzero.2 hreps hkeep hv

/-- An unbroken walk over the whole tree leaves the tree's own run. -/
theorem linearize_run_of_unbroken {fanout : ℕ} {ast : RegexAst}
    (hflushes : (linearize fanout ast).flushes = 0)
    (hover : (linearize fanout ast).acc.overflowed = false) :
    ast.shape.flushed = false ∧ (linearize fanout ast).run = ast.shape.run := by
  obtain ⟨hrun, -, hbroken⟩ := linAppendNode_follows hover
  have hkeep : ast.shape.flushed = false := by
    by_contra hflushed
    have hlt : 0 < (linearize fanout ast).flushes := hbroken (by simpa using hflushed)
    omega
  refine ⟨hkeep, ?_⟩
  rw [linearize, hrun, RunShape.apply, if_neg (by simp [hkeep]), List.nil_append]

/-- Some piece of a PIECES query extracted at cost zero is complete in every text the tree
occurs in, when visited budgets are zero and class repetitions are inlined. -/
theorem pieces_met_of_walk {s : Settings} {ast : RegexAst} {t : List CodePoint} {q : TrigramQuery}
    (hzero : ast.walkBudgetsZero s.maxExtractionFanout ⟨[], .init, 0⟩ = true)
    (hreps : ast.classRepsInlined = true) (hoccurs : ast.OccursIn t)
    (hq : regexExtractQuery s ast 0 = .ok q) (hmode : q.mode = .pieces) :
    ∃ c ∈ q.conjuncts, ∀ a ∈ c.alts, HasTrigram t a.trigramHash := by
  rcases regexExtractQuery_zero_cases hq with ⟨hflushes, hover, q', hpieces, rfl⟩ | rfl
  · obtain ⟨hkeep, hrun⟩ := linearize_run_of_unbroken hflushes hover
    obtain ⟨pre, w, post, rfl, hmatch⟩ := hoccurs
    obtain ⟨d, hfit, hshadow⟩ :=
      ast.spelled_shape (RegexAst.runBudgetsZero_of_walk hzero hover) hreps hkeep hmatch
    rw [← hrun] at hfit
    refine ⟨_, by simpa using exists_piece hpieces hfit, fun a ha => ?_⟩
    obtain ⟨x, hx, rfl⟩ := List.mem_map.mp ha
    refine ⟨x, ?_, rfl⟩
    have hsub := hshadow pre post (windows_subset_append pre d post hx)
    rwa [List.append_assoc] at hsub
  · simp at hmode

/-- Some piece of a PIECES query extracted at cost zero is complete in every text the tree
occurs in, when budgets are zero and class repetitions are inlined. -/
theorem pieces_met_of_budgetsZero {s : Settings} {ast : RegexAst} {t : List CodePoint}
    {q : TrigramQuery} (hzero : ast.budgetsZero = true) (hreps : ast.classRepsInlined = true)
    (hoccurs : ast.OccursIn t) (hq : regexExtractQuery s ast 0 = .ok q) (hmode : q.mode = .pieces) :
    ∃ c ∈ q.conjuncts, ∀ a ∈ c.alts, HasTrigram t a.trigramHash :=
  pieces_met_of_walk (RegexAst.walkBudgetsZero_of_budgetsZero hzero _) hreps hoccurs hq hmode

/-- Soundness of the exact PIECES extraction for trees without `APPROX` nodes whose class
repetitions are inlined in full: some piece of the query has all of its trigrams in every text
that contains a match. -/
theorem regexExtractQuery_pieces_sound (s : Settings) (ast : RegexAst) (t : List CodePoint)
    (q : TrigramQuery) (hfree : ast.approxFree = true) (hreps : ast.classRepsInlined = true)
    (hoccurs : ast.OccursIn t) (hq : regexExtractQuery s ast 0 = .ok q) (hmode : q.mode = .pieces) :
    ∃ c ∈ q.conjuncts, ∀ a ∈ c.alts, HasTrigram t a.trigramHash :=
  pieces_met_of_budgetsZero (RegexAst.budgetsZero_of_approxFree hfree) hreps hoccurs hq hmode

/-- The class `[bc]`. -/
def classBc : RegexAst := .charclass false ⟨[(98, 99)], by decide, by decide⟩

/-- The pattern `a[bc]{n}d`. -/
def aClassRepD (n : ℕ) : RegexAst :=
  .concat (.concat (.literal 97) (.rep classBc n (some n))) (.literal 100)

/-- The pattern `a[bc]{2}d` on the text `abcd`: the class repetition is inlined in full. -/
theorem regexExtractQuery_pieces_sound_two :
    ∃ q, regexExtractQuery ⟨256, 4⟩ (aClassRepD 2) 0 = .ok q ∧ q.mode = .pieces ∧
      (aClassRepD 2).classRepsInlined = true ∧
      ∃ c ∈ q.conjuncts, ∀ a ∈ c.alts, HasTrigram [97, 98, 99, 100] a.trigramHash := by
  have hoccurs : (aClassRepD 2).OccursIn [97, 98, 99, 100] := by
    refine ⟨[], [97, 98, 99, 100], [], rfl, [97, 98, 99], [100], rfl, ?_, rfl⟩
    refine ⟨[97], [98, 99], rfl, rfl, 2, le_rfl, by simp, ?_⟩
    exact ⟨[98], [99], rfl, ⟨98, rfl, by decide⟩, [99], [], rfl, ⟨99, rfl, by decide⟩, rfl⟩
  refine ⟨_, rfl, rfl, by decide, ?_⟩
  exact regexExtractQuery_pieces_sound ⟨256, 4⟩ (aClassRepD 2) _ _ rfl (by decide) hoccurs rfl rfl

/-- The pattern `a[bc]{3}d` on the text `abcbd`: two copies of the class are inlined, and no
piece is complete in the text the pattern matches. -/
theorem pieces_incomplete_three :
    ∃ q, regexExtractQuery ⟨256, 4⟩ (aClassRepD 3) 0 = .ok q ∧ q.mode = .pieces ∧
      (aClassRepD 3).approxFree = true ∧ (aClassRepD 3).OccursIn [97, 98, 99, 98, 100] ∧
      ¬ ∃ c ∈ q.conjuncts, ∀ a ∈ c.alts, HasTrigram [97, 98, 99, 98, 100] a.trigramHash := by
  have hoccurs : (aClassRepD 3).OccursIn [97, 98, 99, 98, 100] := by
    refine ⟨[], [97, 98, 99, 98, 100], [], rfl, [97, 98, 99, 98], [100], rfl, ?_, rfl⟩
    refine ⟨[97], [98, 99, 98], rfl, rfl, 3, le_rfl, by simp, ?_⟩
    exact ⟨[98], [99, 98], rfl, ⟨98, rfl, by decide⟩, [99], [98], rfl, ⟨99, rfl, by decide⟩,
      [98], [], rfl, ⟨98, rfl, by decide⟩, rfl⟩
  exact ⟨_, rfl, rfl, rfl, hoccurs, by decide +kernel⟩

end PgTre
