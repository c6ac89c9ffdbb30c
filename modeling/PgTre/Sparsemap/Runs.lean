import PgTre.Util.Intervals
import PgTre.Sparsemap.Union

/-!
# The runs of a map

`__sm_run_iter_t` of `src/util/sparsemap.c`: the numbers of a map as half-open intervals. A chunk is
decoded into its runs, and runs that touch are joined, within a chunk and from one chunk to the next.
-/

namespace PgTre.Sparsemap

/-! ## Decoding a chunk -/

/-- The runs decoded so far, with the last one first, and the one that may still grow. -/
structure Decoder where
  opened : Option (ℕ × ℕ)
  runs : List (ℕ × ℕ)

/-- The run that may grow is done. -/
def Decoder.close (d : Decoder) : Decoder := ⟨none, d.opened.toList ++ d.runs⟩

/-- Some more numbers: the run grows, or a new one is opened. -/
def Decoder.extend (d : Decoder) (lo hi : ℕ) : Decoder :=
  match d.opened with
  | none => ⟨some (lo, hi), d.runs⟩
  | some r => if r.2 = lo then ⟨some (r.1, hi), d.runs⟩ else ⟨some (lo, hi), r :: d.runs⟩

/-- The bits of a stored vector. -/
def decodeBits (d : Decoder) (base w : ℕ) : Decoder :=
  (List.range 64).foldl (fun d b => if w.testBit b then d.extend (base + b) (base + b + 1) else d) d

/-- One vector of a sparse chunk. -/
def decodeVector (c : Chunk) (d : Decoder) (v : ℕ) : Decoder :=
  let base := c.start + v * 64
  if flagsAt c.desc v = 3 then d.extend base (base + 64)
  else if flagsAt c.desc v = 2 then decodeBits d base (c.vecs.getD (mixedBefore c.desc v) 0)
  else d.close

/-- `__sm_run_decode_chunk`. -/
def decodeChunk (c : Chunk) : List (ℕ × ℕ) :=
  if c.isRle then
    if 0 < rleLength c.desc then [(c.start, c.start + rleLength c.desc)] else []
  else ((List.range 32).foldl (decodeVector c) ⟨none, []⟩).close.runs.reverse

/-- The runs that `__sm_run_next_raw` yields. -/
def rawRuns (cs : List Chunk) : List (ℕ × ℕ) := cs.flatMap decodeChunk

/-- The loop of `__sm_run_next`: a run takes over the next ones as long as they touch. -/
def joinRun (r : ℕ × ℕ) : List (ℕ × ℕ) → (ℕ × ℕ) × List (ℕ × ℕ)
  | [] => (r, [])
  | s :: rs => if s.1 = r.2 then joinRun (r.1, s.2) rs else (r, s :: rs)

/-- `__sm_run_next`: a run and what is left. A run that was read ahead is left. -/
def runNext : List (ℕ × ℕ) → List (ℕ × ℕ)
  | [] => []
  | r :: rs => (joinRun r rs).1 :: (joinRun r rs).2

/-! ## What is decoded -/

/-- The runs of a decoder, up to a number. -/
def Decodes (d : Decoder) (f : ℕ) (P : ℕ → Prop) : Prop :=
  Descends f d.close.runs ∧ ∀ n, Covered d.close.runs n ↔ P n

section

variable {d : Decoder} {c : Chunk} {cs : List Chunk} {r s : ℕ × ℕ} {rs : List (ℕ × ℕ)}
  {P Q : ℕ → Prop} {f f' lo hi base w n : ℕ}

/-- The bound of what is decoded may be raised. -/
theorem Decodes.mono (h : Decodes d f P) (hle : f ≤ f') : Decodes d f' P := ⟨h.1.mono hle, h.2⟩

/-- What is decoded depends on the members alone. -/
theorem Decodes.congr (h : Decodes d f P) (hPQ : ∀ n, P n ↔ Q n) : Decodes d f Q :=
  ⟨h.1, fun n => (h.2 n).trans (hPQ n)⟩

/-- Closing the open run changes no member. -/
theorem Decodes.close (h : Decodes d f P) : Decodes d.close f P := h

/-- Some more numbers after the runs. -/
theorem Decodes.extend (h : Decodes d f P) (hf : f ≤ lo) (hlt : lo < hi) :
    Decodes (d.extend lo hi) hi fun n => P n ∨ lo ≤ n ∧ n < hi := by
  obtain ⟨opened, runs⟩ := d
  obtain ⟨hdesc, hcov⟩ := h
  cases opened with
  | none =>
    refine ⟨⟨hlt, le_rfl, hdesc.mono hf⟩, fun n => ?_⟩
    exact covered_cons.trans ((or_congr_right (hcov n)).trans or_comm)
  | some r =>
    have hr : r.1 < r.2 := hdesc.1
    have hrf : r.2 ≤ f := hdesc.2.1
    unfold Decoder.extend
    dsimp only
    by_cases htouch : r.2 = lo
    · rw [if_pos htouch]
      refine ⟨⟨show r.1 < hi by omega, le_rfl, hdesc.2.2⟩, fun n => ?_⟩
      refine Iff.trans ?_ (or_congr_left (hcov n))
      show Covered ((r.1, hi) :: runs) n ↔ Covered (r :: runs) n ∨ lo ≤ n ∧ n < hi
      rw [covered_cons, covered_cons, or_right_comm]
      apply or_congr_left
      dsimp only
      omega
    · rw [if_neg htouch]
      refine ⟨⟨hlt, le_rfl, hdesc.mono hf⟩, fun n => ?_⟩
      exact covered_cons.trans ((or_congr_right (hcov n)).trans or_comm)

/-- The bits of a vector. -/
theorem decodeBits_spec (h : Decodes d f P) (hf : f ≤ base) : Decodes (decodeBits d base w) (base + 64)
    fun n => P n ∨ base ≤ n ∧ n < base + 64 ∧ w.testBit (n - base) = true := by
  have hbits : ∀ k, Decodes ((List.range k).foldl (fun d b =>
      if w.testBit b then d.extend (base + b) (base + b + 1) else d) d) (base + k)
        fun n => P n ∨ base ≤ n ∧ n < base + k ∧ w.testBit (n - base) = true := by
    intro k
    induction k with
    | zero => exact (h.mono hf).congr fun n => (or_iff_left (by omega)).symm
    | succ k ih =>
      rw [List.range_succ, List.foldl_append, List.foldl_cons, List.foldl_nil]
      have hsucc : ∀ n, base ≤ n ∧ n < base + (k + 1) ∧ w.testBit (n - base) = true ↔
          (base ≤ n ∧ n < base + k ∧ w.testBit (n - base) = true) ∨
            n = base + k ∧ w.testBit k = true := by
        intro n
        by_cases heq : n = base + k
        · subst heq
          rw [Nat.add_sub_cancel_left]
          simp
        · rw [or_iff_left (fun hn => heq hn.1)]
          have hlt : n < base + (k + 1) ↔ n < base + k := by omega
          rw [hlt]
      by_cases hbit : w.testBit k = true
      · rw [if_pos hbit]
        refine (ih.extend le_rfl (Nat.lt_succ_self _)).congr fun n => ?_
        rw [hsucc, or_assoc]
        apply or_congr_right
        apply or_congr_right
        rw [and_iff_left hbit]
        omega
      · rw [if_neg hbit]
        refine (ih.mono (Nat.le_succ _)).congr fun n => ?_
        have hsame : (n = base + k ∧ w.testBit k = true) ↔ False :=
          iff_of_false (fun hn => hbit hn.2) id
        rw [hsucc, hsame, or_false]
  exact hbits 64

/-- One vector. -/
theorem decodeVector_spec {v : ℕ} (h : Decodes d f P) (hf : f ≤ c.start + v * 64) :
    Decodes (decodeVector c d v) (c.start + (v + 1) * 64) fun n => P n ∨
      c.start + v * 64 ≤ n ∧ n < c.start + (v + 1) * 64 ∧
        (c.words v).testBit (n - (c.start + v * 64)) = true := by
  have hend : c.start + (v + 1) * 64 = c.start + v * 64 + 64 := by omega
  rw [hend]
  unfold decodeVector Chunk.words
  dsimp only
  by_cases hones : flagsAt c.desc v = 3
  · rw [if_pos hones, if_neg (by omega), if_pos hones]
    refine (h.extend hf (by omega)).congr fun n => or_congr_right ?_
    rw [testBit_onesVector, decide_eq_true_eq]
    omega
  · rw [if_neg hones]
    by_cases hmixed : flagsAt c.desc v = 2
    · rw [if_pos hmixed, if_pos hmixed]
      exact decodeBits_spec h hf
    · rw [if_neg hmixed, if_neg hmixed, if_neg hones]
      refine (h.close.mono (by omega)).congr fun n => (or_iff_left ?_).symm
      rw [Nat.zero_testBit]
      simp

/-- The runs of a chunk. -/
theorem decodeChunk_spec (hc : c.Ok) : Ordered (decodeChunk c) ∧
    (∀ n, Covered (decodeChunk c) n ↔ c.Holds n) ∧
    ∀ r ∈ decodeChunk c, c.start ≤ r.1 ∧ r.2 ≤ c.stop := by
  have hsome : Ordered (decodeChunk c) ∧ ∀ n, Covered (decodeChunk c) n ↔ c.Holds n := by
    unfold decodeChunk
    by_cases hrle : c.isRle
    · rw [if_pos hrle]
      by_cases hpos : 0 < rleLength c.desc
      · rw [if_pos hpos]
        refine ⟨ordered_cons.mpr ⟨?_, fun s hs => absurd hs List.not_mem_nil, ordered_nil⟩, fun n => ?_⟩
        · dsimp only
          omega
        · rw [covered_cons, or_iff_left (not_covered_nil n), hc.holds_of_rle hrle]
      · rw [if_neg hpos]
        refine ⟨ordered_nil, fun n => ?_⟩
        rw [hc.holds_of_rle hrle, iff_false_left (not_covered_nil n)]
        omega
    · rw [if_neg hrle]
      have hvectors : ∀ k, Decodes ((List.range k).foldl (decodeVector c) ⟨none, []⟩)
          (c.start + k * 64) fun n => c.start ≤ n ∧ n < c.start + k * 64 ∧
            (c.words ((n - c.start) / 64)).testBit ((n - c.start) % 64) = true := by
        intro k
        induction k with
        | zero =>
          exact ⟨trivial, fun n => iff_of_false (not_covered_nil n) (by omega)⟩
        | succ k ih =>
          rw [List.range_succ, List.foldl_append, List.foldl_cons, List.foldl_nil]
          refine (decodeVector_spec ih le_rfl).congr fun n => ?_
          by_cases hin : c.start + k * 64 ≤ n ∧ n < c.start + (k + 1) * 64
          · have hdiv : (n - c.start) / 64 = k := by omega
            have hmod : (n - c.start) % 64 = n - (c.start + k * 64) := by omega
            rw [hdiv, hmod]
            constructor
            · rintro (hn | hn)
              · omega
              · exact ⟨by omega, hn.2.1, hn.2.2⟩
            · rintro ⟨-, -, hbit⟩
              exact Or.inr ⟨hin.1, hin.2, hbit⟩
          · rw [or_iff_left (fun hn => hin ⟨hn.1, hn.2.1⟩)]
            have hlt : (c.start ≤ n ∧ n < c.start + (k + 1) * 64) ↔
                c.start ≤ n ∧ n < c.start + k * 64 := by omega
            rw [← and_assoc, ← and_assoc, hlt]
      obtain ⟨hdesc, hcov⟩ := hvectors 32
      refine ⟨hdesc.ordered, fun n => ?_⟩
      rw [covered_reverse, hcov, hc.holds_of_sparse hrle, InWindow]
  refine ⟨hsome.1, hsome.2, fun r hr => ?_⟩
  have hlt := hsome.1.1 r hr
  have hfirst := (hsome.2 r.1).mp ⟨r, hr, le_rfl, hlt⟩
  have hlast := (hsome.2 (r.2 - 1)).mp ⟨r, hr, by omega, by omega⟩
  exact ⟨hfirst.1, by have := hlast.2.1; omega⟩

/-- The runs of a map. -/
theorem rawRuns_spec (h : Laid cs) : Ordered (rawRuns cs) ∧ ∀ n, Covered (rawRuns cs) n ↔ Has cs n := by
  induction cs with
  | nil => exact ⟨ordered_nil, fun n => iff_of_false (not_covered_nil n) (not_has_nil n)⟩
  | cons c cs ih =>
    obtain ⟨hord, hcov⟩ := ih h.tail
    obtain ⟨hord', hcov', hin⟩ := decodeChunk_spec h.head
    have hcons : rawRuns (c :: cs) = decodeChunk c ++ rawRuns cs := rfl
    rw [hcons, ordered_append]
    refine ⟨⟨hord', hord, fun r hr s hs => ?_⟩, fun n => ?_⟩
    · have hlt := hord.1 s hs
      have hn := (hcov s.1).mp ⟨s, hs, le_rfl, hlt⟩
      exact (hin r hr).2.trans (h.le_of_has hn)
    · rw [covered_append, has_cons, hcov, hcov']

/-- Joining runs keeps their numbers. -/
theorem joinRun_spec (h : Ordered (r :: rs)) : Ordered ((joinRun r rs).1 :: (joinRun r rs).2) ∧
    (∀ n, Covered ((joinRun r rs).1 :: (joinRun r rs).2) n ↔ Covered (r :: rs) n) ∧
    (joinRun r rs).1.1 = r.1 ∧ (joinRun r rs).2.length ≤ rs.length := by
  induction rs generalizing r with
  | nil => exact ⟨h, fun n => Iff.rfl, rfl, le_rfl⟩
  | cons s rs ih =>
    rw [joinRun]
    by_cases htouch : s.1 = r.2
    · rw [if_pos htouch]
      obtain ⟨hord, hcov⟩ := h.join htouch
      obtain ⟨hord', hcov', hfirst, hlen⟩ := ih hord
      exact ⟨hord', fun n => (hcov' n).trans (hcov n), hfirst, hlen.trans (Nat.le_succ _)⟩
    · rw [if_neg htouch]
      exact ⟨h, fun n => Iff.rfl, rfl, le_rfl⟩

/-- The next run and what is left have the numbers of the runs. -/
theorem runNext_spec (h : Ordered rs) : Ordered (runNext rs) ∧
    (∀ n, Covered (runNext rs) n ↔ Covered rs n) ∧ (runNext rs).length ≤ rs.length := by
  cases rs with
  | nil => exact ⟨h, fun n => Iff.rfl, le_rfl⟩
  | cons r rs =>
    obtain ⟨hord, hcov, -, hlen⟩ := joinRun_spec h
    exact ⟨hord, hcov, Nat.succ_le_succ hlen⟩

end

end PgTre.Sparsemap
