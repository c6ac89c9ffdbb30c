import PgTre.Query.Tiling

/-!
# Soundness of the exact pieces for approximate patterns

`tile_pieces` cuts the literal runs of a pattern into `k + 1` disjoint pieces. Every string
the pattern matches spells the linearized buffer, a separator standing for any text, so the
pieces occur in it one after the other, and one of them survives `k` edits.
-/

namespace PgTre

open Strings

/-! ## The buffer -/

/-- `Spells buf w`: the text `w` has the literals of the buffer in order, with any text in the
place of a separator. -/
inductive Spells : List (Option CodePoint) → List CodePoint → Prop
  | nil : Spells [] []
  | literal (c : CodePoint) {buf : List (Option CodePoint)} {w : List CodePoint} :
      Spells buf w → Spells (some c :: buf) (c :: w)
  | gap (x : List CodePoint) {buf : List (Option CodePoint)} {w : List CodePoint} :
      Spells buf w → Spells (none :: buf) (x ++ w)

/-- Spelled buffers join. -/
theorem Spells.append {buf buf' : List (Option CodePoint)} {w w' : List CodePoint}
    (h : Spells buf w) (h' : Spells buf' w') : Spells (buf ++ buf') (w ++ w') := by
  induction h with
  | nil => exact h'
  | literal c _ ih => exact .literal c ih
  | gap x _ ih =>
    rw [List.append_assoc]
    exact .gap x ih

/-- A text that spells a concatenated buffer splits at the seam. -/
theorem Spells.split {buf buf' : List (Option CodePoint)} {w : List CodePoint}
    (h : Spells (buf ++ buf') w) : ∃ u v, w = u ++ v ∧ Spells buf u ∧ Spells buf' v := by
  induction buf generalizing w with
  | nil => exact ⟨[], w, rfl, .nil, h⟩
  | cons e buf ih =>
    rw [List.cons_append] at h
    cases h with
    | literal c h =>
      obtain ⟨u, v, rfl, hu, hv⟩ := ih h
      exact ⟨c :: u, v, rfl, .literal c hu, hv⟩
    | gap x h =>
      obtain ⟨u, v, rfl, hu, hv⟩ := ih h
      exact ⟨x ++ u, v, by rw [List.append_assoc], .gap x hu, hv⟩

/-- A buffer of literals is spelled by its own text only. -/
theorem Spells.eq_of_literals {p w : List CodePoint} (h : Spells (p.map some) w) : w = p := by
  induction p generalizing w with
  | nil =>
    cases h
    rfl
  | cons c p ih =>
    cases h with
    | literal _ h => rw [ih h]

/-- Every string a tree matches spells the tree's buffer. -/
theorem spells_of_matches {ast : RegexAst} {cap : ℕ} {buf : List (Option CodePoint)}
    (hbuf : linearizeLiterals ast cap = some buf) {pre w post : List CodePoint}
    (h : ast.Matches pre w post) : Spells buf w := by
  induction ast generalizing cap buf pre w post with
  | literal c =>
    have hw : w = [c] := h
    simp only [linearizeLiterals] at hbuf
    split_ifs at hbuf
    rw [hw, ← Option.some.inj hbuf]
    exact .literal c .nil
  | anchor which =>
    have hw : w = [] := by cases which <;> exact h.1
    rw [hw, ← Option.some.inj hbuf]
    exact .nil
  | concat l r ihl ihr =>
    obtain ⟨u, v, rfl, hu, hv⟩ := h
    simp only [linearizeLiterals, Option.bind_eq_bind, Option.bind_eq_some_iff] at hbuf
    obtain ⟨left, hleft, right, hright, hbuf⟩ := hbuf
    rw [← Option.some.inj hbuf]
    exact (ihl hleft hu).append (ihr hright hv)
  | any | charclass | alt | rep | approx =>
    simp only [linearizeLiterals] at hbuf
    split_ifs at hbuf
    rw [← Option.some.inj hbuf]
    have hgap := Spells.gap w .nil
    rwa [List.append_nil] at hgap

/-! ## Pieces of the buffer -/

/-- The entries `buf[a .. b)`. -/
def slice (buf : List (Option CodePoint)) (a b : ℕ) : List (Option CodePoint) :=
  (buf.drop a).take (b - a)

/-- A piece: a stretch of at least three literals of the buffer with no separator, hence of
one literal run. -/
structure LiteralPiece (buf : List (Option CodePoint)) where
  start : ℕ
  stop : ℕ
  text : List CodePoint
  /-- The piece has at least three characters. -/
  long : start + 3 ≤ stop
  /-- The buffer holds the piece's characters from `start` to `stop`. -/
  literal : slice buf start stop = text.map some
  /-- The piece lies within the buffer. -/
  length : text.length = stop - start

/-- The trigrams of a piece as the query lists them. -/
def LiteralPiece.conjunct {buf : List (Option CodePoint)} (p : LiteralPiece buf) :
    TrigramConjunct where
  alts := (windows p.text).map
    (fun t => { trigramHash := hashTrigramCp t, minOffset := 0, maxOffset := int32Max })

/-- Pieces between two positions of the buffer, each starting where the one before it ended
or later. -/
def ChainOf {buf : List (Option CodePoint)} : ℕ → ℕ → List (LiteralPiece buf) → Prop
  | lo, hi, [] => lo ≤ hi
  | lo, hi, p :: ps => lo ≤ p.start ∧ ChainOf p.stop hi ps

variable {buf : List (Option CodePoint)}

/-- A chain of pieces runs forwards. -/
theorem ChainOf.le {lo hi : ℕ} {ps : List (LiteralPiece buf)} (h : ChainOf lo hi ps) : lo ≤ hi := by
  induction ps generalizing lo with
  | nil => exact h
  | cons p ps ih =>
    obtain ⟨hstart, hrest⟩ := h
    have hlong := p.long
    have hstop := ih hrest
    omega

/-- Adjacent chains join. -/
theorem ChainOf.append {lo mid hi : ℕ} {ps qs : List (LiteralPiece buf)} (hp : ChainOf lo mid ps)
    (hq : ChainOf mid hi qs) : ChainOf lo hi (ps ++ qs) := by
  induction ps generalizing lo with
  | nil =>
    cases qs with
    | nil => exact le_trans hp hq
    | cons q qs => exact ⟨le_trans hp hq.1, hq.2⟩
  | cons p ps ih => exact ⟨hp.1, ih hp.2⟩

/-- Pieces of a chain are disjoint. -/
theorem ChainOf.pairwise {lo hi : ℕ} {ps : List (LiteralPiece buf)} (h : ChainOf lo hi ps) :
    (∀ p ∈ ps, lo ≤ p.start) ∧ ps.Pairwise (fun p q => p.stop ≤ q.start) := by
  induction ps generalizing lo with
  | nil => simp
  | cons p ps ih =>
    obtain ⟨hstart, hrest⟩ := h
    obtain ⟨hall, hpair⟩ := ih hrest
    refine ⟨List.forall_mem_cons.mpr ⟨hstart, fun q hq => ?_⟩, List.pairwise_cons.mpr ⟨hall, hpair⟩⟩
    have hlong := p.long
    have hqstart := hall q hq
    omega

/-- The pieces of a chain occur one after the other in every text that spells the buffer. -/
theorem ChainOf.embeds {lo hi : ℕ} {ps : List (LiteralPiece buf)} (h : ChainOf lo hi ps)
    {w : List CodePoint} (hw : Spells (buf.drop lo) w) : Embeds (ps.map (·.text)) w := by
  induction ps generalizing lo w with
  | nil => exact .nil w
  | cons p ps ih =>
    obtain ⟨hstart, hrest⟩ := h
    have hlong := p.long
    have hcut : buf.drop lo =
        (buf.drop lo).take (p.start - lo) ++ (p.text.map some ++ buf.drop p.stop) := by
      have hslice : p.text.map some ++ buf.drop p.stop = buf.drop p.start := by
        rw [← p.literal, slice]
        have hsplit := List.take_append_drop (p.stop - p.start) (buf.drop p.start)
        rwa [List.drop_drop, show p.start + (p.stop - p.start) = p.stop by omega] at hsplit
      rw [hslice]
      have hsplit := List.take_append_drop (p.start - lo) (buf.drop lo)
      rw [List.drop_drop, show lo + (p.start - lo) = p.start by omega] at hsplit
      exact hsplit.symm
    rw [hcut] at hw
    obtain ⟨x, v, rfl, -, hv⟩ := hw.split
    obtain ⟨u, v, rfl, hu, hv⟩ := hv.split
    rw [hu.eq_of_literals]
    exact .cons x p.text (ih hrest hv)

/-! ## The segments of the literal runs -/

/-- A slice of a slice is a slice. -/
theorem slice_slice {a b c d : ℕ} (hac : a ≤ c) (hdb : d ≤ b) :
    slice buf c d = ((slice buf a b).drop (c - a)).take (d - c) := by
  unfold slice
  rw [List.drop_take, List.drop_drop, List.take_take, show a + (c - a) = c by omega,
    show min (d - c) (b - a - (c - a)) = d - c by omega]

/-- A stretch of a piece is a piece. -/
def LiteralPiece.sub (r : LiteralPiece buf) (a b : ℕ) (hstart : r.start ≤ a) (hlong : a + 3 ≤ b)
    (hstop : b ≤ r.stop) : LiteralPiece buf where
  start := a
  stop := b
  text := (r.text.drop (a - r.start)).take (b - a)
  long := hlong
  literal := by
    rw [slice_slice hstart hstop, r.literal, ← List.map_drop, ← List.map_take]
  length := by
    have hlength := r.length
    rw [List.length_take, List.length_drop]
    omega

/-- The bounds of a piece, as the source's loops pass them on. -/
def LiteralPiece.bounds (p : LiteralPiece buf) : ℕ × ℕ := (p.start, p.stop)

/-- A stretch of literals between known parts of the buffer is a piece when long enough. -/
theorem exists_run {pre l : List (Option CodePoint)} {cs : List CodePoint}
    (hbuf : buf = pre ++ (cs.map some ++ l)) (hlen : 3 ≤ cs.length) :
    ∃ r : LiteralPiece buf, r.start = pre.length ∧ r.stop = pre.length + cs.length := by
  refine ⟨⟨pre.length, pre.length + cs.length, cs, by omega, ?_, by omega⟩, rfl, rfl⟩
  simp [slice, hbuf]

/-- The literal runs form a chain. -/
theorem literalRuns_chain {pre : List (Option CodePoint)} {cs : List CodePoint}
    {l : List (Option CodePoint)} (hbuf : buf = pre ++ (cs.map some ++ l)) :
    ∃ rs : List (LiteralPiece buf), ChainOf pre.length buf.length rs ∧
      literalRuns pre.length cs.length l = rs.map (fun r => (r.start, r.stop - r.start)) := by
  induction l generalizing pre cs with
  | nil =>
    rw [literalRuns]
    split_ifs with hlen
    · obtain ⟨r, hstart, hstop⟩ := exists_run hbuf hlen
      refine ⟨[r], ⟨hstart.ge, ?_⟩, by simp [hstart, hstop]⟩
      simp [ChainOf, hstop, hbuf]
    · exact ⟨[], by simp [ChainOf, hbuf], rfl⟩
  | cons e l ih =>
    cases e with
    | some c =>
      have hbuf' : buf = pre ++ ((cs ++ [c]).map some ++ l) := by simp [hbuf]
      have h := ih hbuf'
      simpa [literalRuns] using h
    | none =>
      have hbuf' : buf = (pre ++ cs.map some ++ [none]) ++ (([] : List CodePoint).map some ++ l) := by
        simp [hbuf]
      obtain ⟨rs, hchain, hruns⟩ := ih hbuf'
      have hlength : (pre ++ cs.map some ++ [none]).length = pre.length + cs.length + 1 := by
        simp [Nat.add_assoc]
      rw [hlength] at hchain hruns
      have hruns' : literalRuns (pre.length + cs.length + 1) 0 l =
          rs.map (fun r => (r.start, r.stop - r.start)) := hruns
      rw [literalRuns, hruns']
      split_ifs with hlen
      · obtain ⟨r, hstart, hstop⟩ := exists_run hbuf hlen
        have hnext : ChainOf r.stop (pre.length + cs.length + 1) ([] : List (LiteralPiece buf)) := by
          simp only [ChainOf]
          omega
        exact ⟨r :: rs, ⟨hstart.ge, hnext.append hchain⟩, by simp [hstart, hstop]⟩
      · have hskip : ChainOf pre.length (pre.length + cs.length + 1)
            ([] : List (LiteralPiece buf)) := by
          simp only [ChainOf]
          omega
        exact ⟨rs, hskip.append hchain, rfl⟩

/-- The even split of a run into pieces of three characters or more. -/
theorem runSegments_chain (r : LiteralPiece buf) {n : ℕ} (hn : 3 * n ≤ r.stop - r.start) :
    ∃ ps : List (LiteralPiece buf), ChainOf r.start r.stop ps ∧
      runSegments (r.start, r.stop - r.start) n = ps.map (·.bounds) := by
  have hlong := r.long
  rcases Nat.eq_zero_or_pos n with rfl | hpos
  · exact ⟨[], by simp only [ChainOf]; omega, rfl⟩
  have hbegin : ∀ m ≤ n, ∃ ps : List (LiteralPiece buf),
      ChainOf r.start (r.start + (r.stop - r.start) * m / n) ps ∧
        (List.range m).map (fun p => (r.start + (r.stop - r.start) * p / n,
          r.start + (r.stop - r.start) * (p + 1) / n)) = ps.map (·.bounds) := by
    intro m hm
    induction m with
    | zero => exact ⟨[], by simp [ChainOf], rfl⟩
    | succ m ih =>
      obtain ⟨ps, hchain, hps⟩ := ih (by omega)
      have hstep : (r.stop - r.start) * m / n + 3 ≤ (r.stop - r.start) * (m + 1) / n := by
        calc (r.stop - r.start) * m / n + 3 = ((r.stop - r.start) * m + 3 * n) / n := by
              rw [Nat.add_mul_div_right _ _ hpos]
          _ ≤ (r.stop - r.start) * (m + 1) / n := by
              refine Nat.div_le_div_right ?_
              rw [Nat.mul_succ]
              omega
      have hend : (r.stop - r.start) * (m + 1) / n ≤ r.stop - r.start :=
        Nat.div_le_of_le_mul (by rw [Nat.mul_comm n]; exact Nat.mul_le_mul_left _ hm)
      let p := r.sub (r.start + (r.stop - r.start) * m / n)
        (r.start + (r.stop - r.start) * (m + 1) / n) (Nat.le_add_right _ _) (by omega) (by omega)
      refine ⟨ps ++ [p], hchain.append ⟨le_refl _, le_refl _⟩, ?_⟩
      rw [List.range_succ, List.map_append, hps, List.map_append]
      rfl
  obtain ⟨ps, hchain, hps⟩ := hbegin n le_rfl
  refine ⟨ps, ?_, hps⟩
  rwa [Nat.mul_div_cancel _ hpos, show r.start + (r.stop - r.start) = r.stop by omega] at hchain

/-- The pieces handed out to the runs of a chain form a chain of as many pieces. -/
theorem segments_chain {rs : List (LiteralPiece buf)} {pieces : List ℕ} {lo hi : ℕ}
    (hchain : ChainOf lo hi rs)
    (hpieces : List.Forall₂ (fun r n => 3 * n ≤ r.stop - r.start) rs pieces) :
    ∃ ps : List (LiteralPiece buf), ps.length = pieces.sum ∧ ChainOf lo hi ps ∧
      ((rs.map (fun r => (r.start, r.stop - r.start))).zip pieces).flatMap
        (fun rp => runSegments rp.1 rp.2) = ps.map (·.bounds) := by
  induction hpieces generalizing lo with
  | nil => exact ⟨[], rfl, hchain, rfl⟩
  | @cons r n rs pieces hn _ ih =>
    obtain ⟨hstart, hrest⟩ := hchain
    obtain ⟨ps, hps, hmap⟩ := runSegments_chain r hn
    obtain ⟨qs, hlen, hqs, hmap'⟩ := ih hrest
    have hcount : ps.length = n := by simpa [runSegments] using (congrArg List.length hmap).symm
    have hbefore : ChainOf lo r.start ([] : List (LiteralPiece buf)) := hstart
    refine ⟨ps ++ qs, by simp [hcount, hlen], (hbefore.append hps).append hqs, ?_⟩
    rw [List.map_cons, List.zip_cons_cons, List.flatMap_cons, hmap, hmap', List.map_append]

/-! ## Handing out the pieces -/

/-- The run picked has room for one more piece of three characters. -/
theorem pickRun_eq_some {r i : ℕ} {l : List ((ℕ × ℕ) × ℕ)} {best : Option (ℕ × ℕ × ℕ)}
    (h : pickRun r l best = some i) :
    (∃ b, best = some b ∧ b.1 = i) ∨
      ∃ j run parts, i = r + j ∧ l[j]? = some (run, parts) ∧ 3 * (parts + 1) ≤ run.2 := by
  induction l generalizing r best with
  | nil =>
    left
    simpa [pickRun] using h
  | cons x l ih =>
    obtain ⟨⟨start, len⟩, parts⟩ := x
    unfold pickRun at h
    dsimp only at h
    split_ifs at h with hroom
    · rcases ih h with ⟨b, hb, rfl⟩ | ⟨j, run, parts', rfl, hj, hfit⟩
      · right
        obtain rfl := Option.some.inj hb
        exact ⟨0, (start, len), parts, rfl, rfl, hroom.1⟩
      · right
        exact ⟨j + 1, run, parts', by omega, by simpa using hj, hfit⟩
    · rcases ih h with hbest | ⟨j, run, parts', rfl, hj, hfit⟩
      · exact Or.inl hbest
      · right
        exact ⟨j + 1, run, parts', by omega, by simpa using hj, hfit⟩

/-- Relatedness survives a change of one place. -/
private theorem forall₂_set {α β : Type*} {R : α → β → Prop} {l : List α} {l' : List β}
    (h : List.Forall₂ R l l') {i : ℕ} {b : β} (hb : ∀ a, l[i]? = some a → R a b) :
    List.Forall₂ R l (l'.set i b) := by
  induction h generalizing i with
  | nil => exact .nil
  | cons hab hrest ih =>
    cases i with
    | zero => exact .cons (hb _ rfl) hrest
    | succ i => exact .cons hab (ih fun a ha => hb a (by simpa using ha))

/-- Raising one place raises the sum by one. -/
private theorem sum_set {l : List ℕ} {i n : ℕ} (h : l[i]? = some n) :
    (l.set i (n + 1)).sum = l.sum + 1 := by
  induction l generalizing i with
  | nil => simp at h
  | cons x l ih =>
    cases i with
    | zero =>
      obtain rfl : x = n := by simpa using h
      simp only [List.set_cons_zero, List.sum_cons]
      omega
    | succ i =>
      simp only [List.set_cons_succ, List.sum_cons, ih (by simpa using h)]
      omega

/-- Every run keeps three characters for each of its pieces, and all pieces are handed out. -/
theorem handOut_eq_some {runs : List (ℕ × ℕ)} {want : ℕ} {pieces pieces' : List ℕ}
    (hroom : List.Forall₂ (fun run n => 3 * n ≤ run.2) runs pieces)
    (h : handOut runs want pieces = some pieces') :
    List.Forall₂ (fun run n => 3 * n ≤ run.2) runs pieces' ∧ pieces'.sum = pieces.sum + want := by
  induction want generalizing pieces with
  | zero =>
    obtain rfl := Option.some.inj h
    exact ⟨hroom, rfl⟩
  | succ want ih =>
    rw [handOut] at h
    cases hpick : pickRun 0 (runs.zip pieces) none with
    | none => simp [hpick] at h
    | some best =>
      simp only [hpick] at h
      obtain ⟨b, hb, -⟩ | ⟨j, run, parts, hbest, hj, hfit⟩ := pickRun_eq_some hpick
      · cases hb
      rw [Nat.zero_add] at hbest
      subst hbest
      obtain ⟨hrun, hparts⟩ := List.getElem?_zip_eq_some.mp hj
      rw [List.getD_eq_getElem?_getD, hparts, Option.getD_some] at h
      have hset : List.Forall₂ (fun run n => 3 * n ≤ run.2) runs (pieces.set best (parts + 1)) := by
        refine forall₂_set hroom fun run' hrun' => ?_
        obtain rfl : run = run' := by simpa [hrun] using hrun'
        exact hfit
      obtain ⟨hroom', hsum⟩ := ih hset h
      exact ⟨hroom', by rw [hsum, sum_set hparts]; omega⟩

/-! ## The query -/

/-- Starting from no pieces, exactly the wanted number is handed out. -/
theorem handOut_replicate_eq_some {runs : List (ℕ × ℕ)} {want : ℕ} {pieces : List ℕ}
    (h : handOut runs want (List.replicate runs.length 0) = some pieces) :
    List.Forall₂ (fun run n => 3 * n ≤ run.2) runs pieces ∧ pieces.sum = want := by
  have hstart : List.Forall₂ (fun (run : ℕ × ℕ) n => 3 * n ≤ run.2) runs
      (List.replicate runs.length 0) := by
    clear h
    induction runs with
    | nil => exact .nil
    | cons run runs ih => exact .cons (by simp) ih
  obtain ⟨hroom, hsum⟩ := handOut_eq_some hstart h
  exact ⟨hroom, by simpa using hsum⟩

/-- The segments of a linearized buffer are the bounds of a chain of as many pieces as
wanted. -/
theorem pieceSegments_eq_some {want : ℕ} {segs : List (ℕ × ℕ)}
    (h : pieceSegments buf want = some segs) :
    ∃ ps : List (LiteralPiece buf), ps.length = want ∧ ChainOf 0 buf.length ps ∧
      segs = ps.map (·.bounds) := by
  obtain ⟨rs, hchain, hruns⟩ : ∃ rs : List (LiteralPiece buf), ChainOf 0 buf.length rs ∧
      literalRuns 0 0 buf = rs.map (fun r => (r.start, r.stop - r.start)) :=
    @literalRuns_chain buf [] [] buf rfl
  unfold pieceSegments at h
  dsimp only at h
  split_ifs at h
  cases hout : handOut (literalRuns 0 0 buf) want (List.replicate (literalRuns 0 0 buf).length 0) with
  | none => simp [hout] at h
  | some pieces =>
    simp only [hout, Option.some.injEq] at h
    obtain ⟨hroom, hsum⟩ := handOut_replicate_eq_some hout
    rw [hruns] at hroom h
    obtain ⟨ps, hlen, hps, hmap⟩ := segments_chain hchain (List.forall₂_map_left_iff.mp hroom)
    exact ⟨ps, hlen.trans hsum, hps, by rw [← h, hmap]⟩

/-- The conjunct written for the bounds of a piece lists the piece's trigrams. -/
theorem LiteralPiece.pieceConjunct_bounds (p : LiteralPiece buf) :
    pieceConjunct buf p.bounds = p.conjunct := by
  have htext : ((buf.drop p.start).take (p.stop - p.start)).map (·.getD 0) = p.text := by
    have hslice : (buf.drop p.start).take (p.stop - p.start) = p.text.map some := p.literal
    rw [hslice, List.map_map]
    exact List.map_id _
  simp only [pieceConjunct, bounds, conjunct, htext]

/-- Soundness of approximate extraction by pieces. When `tile_pieces` succeeds, `k` lies
between 1 and 64, the query has exactly `k + 1` pieces, each a stretch of at least three
literals of one run, pairwise disjoint in the pattern, and every text with a substring within
`k` edits of a match has all trigrams of one piece. -/
theorem tilePieces_sound (ast : RegexAst) (k : ℤ) (out q : TrigramQuery)
    (h : tilePieces ast k out = some q) :
    1 ≤ k ∧ k ≤ 64 ∧ q.mode = .pieces ∧ ∃ buf, linearizeLiterals ast spineCap = some buf ∧
      ∃ ps : List (LiteralPiece buf), (ps.length : ℤ) = k + 1 ∧
        ps.Pairwise (fun p p' => p.stop ≤ p'.start) ∧ q.conjuncts = ps.map (·.conjunct) ∧
        ∀ t, ast.OccursWithin k.toNat t →
          (∃ p ∈ ps, windows p.text ⊆ windows t) ∧ q.SatisfiedBy t := by
  unfold tilePieces at h
  split_ifs at h with hk
  cases hbuf : linearizeLiterals ast spineCap with
  | none => simp [hbuf] at h
  | some buf =>
    simp only [hbuf] at h
    cases hsegs : pieceSegments buf (k + 1).toNat with
    | none => simp [hsegs] at h
    | some segs =>
      obtain ⟨ps, hlen, hchain, rfl⟩ := pieceSegments_eq_some hsegs
      simp only [hsegs, List.map_map, Function.comp_def, LiteralPiece.pieceConjunct_bounds,
        Option.some.injEq] at h
      subst h
      refine ⟨by omega, by omega, rfl, buf, rfl, ps, by omega, hchain.pairwise.2, rfl, ?_⟩
      rintro t ⟨x, s, y, rfl, before, w, after, hmatch, hedits⟩
      have hembeds := hchain.embeds (spells_of_matches hbuf hmatch)
      have hfewer : k.toNat < (ps.map (·.text)).length := by
        rw [List.length_map, hlen]
        omega
      obtain ⟨text, htext, hinside⟩ := hedits.piece_survives hembeds hfewer
      obtain ⟨p, hp, rfl⟩ := List.mem_map.mp htext
      have hsub : windows p.text ⊆ windows (x ++ (s ++ y)) :=
        windows_subset_of_isInfix (hinside.trans ⟨x, y, by simp⟩)
      refine ⟨⟨p, hp, hsub⟩, Or.inr ⟨p.conjunct, List.mem_map_of_mem hp, fun a ha => ?_⟩⟩
      obtain ⟨g, hg, rfl⟩ := List.mem_map.mp ha
      exact ⟨g, hsub hg, rfl⟩

/-- The pattern `abcdef`. -/
def abcdef : RegexAst := (RegexAst.literal 97).followedBy [98, 99, 100, 101, 102]

/-- One edit away from `abcdef` stands `abcdzf`: of the pieces `abc` and `def` the first is in
the text. -/
theorem tilePieces_sound_abcdef :
    ∃ q, tilePieces abcdef 1 .zero = some q ∧ q.conjuncts.length = 2 ∧
      q.SatisfiedBy [120, 97, 98, 99, 100, 122, 102] := by
  have hwithin : abcdef.OccursWithin 1 [120, 97, 98, 99, 100, 122, 102] := by
    refine ⟨[120], [97, 98, 99, 100, 122, 102], [], rfl, [], [97, 98, 99, 100, 101, 102], [], ?_, ?_⟩
    · exact @RegexAst.followedBy_matches (.literal 97) _ [97] _ _ rfl
    · exact .keep _ (.keep _ (.keep _ (.keep _ (.subst _ _ (Edits.refl 0 _)))))
  refine ⟨_, rfl, rfl, ?_⟩
  obtain ⟨-, -, -, buf, -, ps, -, -, -, hsound⟩ := tilePieces_sound abcdef 1 .zero _ rfl
  exact (hsound _ hwithin).2

end PgTre
