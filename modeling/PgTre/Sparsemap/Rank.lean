import PgTre.Sparsemap.Lookup
import Mathlib.Data.Nat.Count

/-!
# Counting in a sparsemap

`sm_rank` and `sm_cardinality` of `src/util/sparsemap.c` on maps with chunks. Only the numbers that
are in a map are counted here, and what else `__sm_chunk_rank` reports is left out.
-/

namespace PgTre.Sparsemap

/-! ## Words -/

/-- `SM_POPCOUNT64`. -/
def popcount (w : ℕ) : ℕ := Nat.count (fun b => w.testBit b = true) 64

/-- The bits from a position on. -/
def fromMask (lo : ℕ) : ℕ :=
  if lo = 0 then onesVector else onesVector ^^^ (onesVector >>> (64 - if 64 ≤ lo then 64 else lo))

/-- The bits up to a position. -/
def toMask (hi : ℕ) : ℕ := if hi = 63 then onesVector else 2 ^ (hi + 1) - 1

/-! ## Counting -/

/-- The loop of `__sm_chunk_rank` over the vectors of a sparse chunk, `k` of them from number `i` on.
The positions are relative to the vector, and `amt` is what is counted so far. -/
def rankLoop (c : Chunk) : ℕ → ℕ → ℕ → ℕ → ℕ → ℕ
  | 0, _, _, _, amt => amt
  | k + 1, i, lo, hi, amt =>
      if flagsAt c.desc i = 0 then
        if 64 ≤ hi then rankLoop c k (i + 1) (if 64 ≤ lo then lo - 64 else 0) (hi - 64) amt else amt
      else if flagsAt c.desc i = 3 then
        if 64 ≤ hi then
          rankLoop c k (i + 1) (if 64 ≤ lo then lo - 64 else 0) (hi - 64)
            (if 64 ≤ lo then amt else amt + (64 - lo))
        else if hi < lo then rankLoop c k (i + 1) (lo - hi) hi amt
        else amt + (hi + 1 - lo)
      else if flagsAt c.desc i = 2 then
        let w := c.vecs.getD (c.position i) 0
        if 64 ≤ hi then
          rankLoop c k (i + 1) (if 64 < lo then lo - 64 else 0) (hi - 64)
            (amt + popcount (w &&& fromMask lo))
        else amt + popcount (w &&& (toMask hi &&& fromMask lo))
      else rankLoop c k (i + 1) lo hi amt

/-- `__sm_chunk_rank` for the bits that are set, from one position to another. -/
def chunkRank (c : Chunk) (lo hi : ℕ) : ℕ :=
  if c.capacity ≤ lo then 0
  else if c.isRle then
    let last := rleLength c.desc - 1
    let hi := if c.capacity ≤ hi then c.capacity - 1 else hi
    if lo ≤ last then (if last < hi then last else hi) - lo + 1 else 0
  else rankLoop c 32 0 lo hi 0

/-- `__sm_rank_vec` for the bits that are set. -/
def rankVec (lo hi : ℕ) : List Chunk → ℕ
  | [] => 0
  | c :: cs =>
      let span := c.capacity - 1
      let chunkHi := if 2 ^ 64 - 1 - span < c.start then 2 ^ 64 - 1 else c.start + span
      if hi < c.start then 0
      else if chunkHi < lo then rankVec lo hi cs
      else
        chunkRank c ((if c.start < lo then lo else c.start) - c.start)
          ((if hi < chunkHi then hi else chunkHi) - c.start) + rankVec lo hi cs

/-- `sm_rank`. -/
def rank (cs : List Chunk) (lo hi : ℕ) : ℕ := if hi < lo then 0 else rankVec lo hi cs

/-- `sm_cardinality`, without the count that is kept. -/
def cardinality (cs : List Chunk) : ℕ := rank cs 0 (2 ^ 64 - 1)

section

variable {c : Chunk} {cs : List Chunk} {i j lo hi : ℕ}

/-- The bits from a position on. -/
theorem testBit_fromMask (lo : ℕ) (hj : j < 64) : (fromMask lo).testBit j = decide (lo ≤ j) := by
  unfold fromMask
  by_cases hzero : lo = 0
  · rw [if_pos hzero, testBit_onesVector, decide_eq_decide]
    omega
  · rw [if_neg hzero, Nat.testBit_xor, Nat.testBit_shiftRight, testBit_onesVector,
      testBit_onesVector, decide_eq_true hj, Bool.true_xor, ← decide_not, decide_eq_decide]
    split_ifs <;> omega

/-- The bits up to a position. -/
theorem testBit_toMask (hj : j < 64) : (toMask hi).testBit j = decide (j ≤ hi) := by
  unfold toMask
  by_cases hfull : hi = 63
  · rw [if_pos hfull, testBit_onesVector, decide_eq_decide]
    omega
  · rw [if_neg hfull, Nat.testBit_two_pow_sub_one, decide_eq_decide]
    omega

/-- The count depends on the numbers counted. -/
theorem count_congr {p q : ℕ → Prop} [DecidablePred p] [DecidablePred q] {m : ℕ}
    (h : ∀ n < m, p n ↔ q n) : Nat.count p m = Nat.count q m :=
  (Nat.count_mono_left fun n hn => (h n hn).mp).antisymm
    (Nat.count_mono_left fun n hn => (h n hn).mpr)

/-- The positions between two others. -/
theorem count_between (lo hi m : ℕ) :
    Nat.count (fun n => lo ≤ n ∧ n ≤ hi) m = (if m ≤ hi then m else hi + 1) - lo := by
  induction m with
  | zero => simp
  | succ m ih =>
    rw [Nat.count_succ, ih]
    split_ifs <;> omega

/-- The bits of `k` vectors of a chunk from number `i` on that are between two positions. -/
def countBits (c : Chunk) (k i lo hi : ℕ) : ℕ :=
  Nat.count (fun n => (lo ≤ n ∧ n ≤ hi) ∧ (c.words (i + n / 64)).testBit (n % 64) = true) (64 * k)

/-- The bits of one vector between two positions. -/
def vectorCount (w lo hi : ℕ) : ℕ :=
  Nat.count (fun n => (lo ≤ n ∧ n ≤ hi) ∧ w.testBit n = true) 64

/-- A word is counted before the words behind it. -/
theorem countBits_succ (c : Chunk) (k i lo hi : ℕ) :
    countBits c (k + 1) i lo hi = vectorCount (c.words i) lo hi +
      if 64 ≤ hi then countBits c k (i + 1) (lo - 64) (hi - 64) else 0 := by
  have hlen : 64 * (k + 1) = 64 + 64 * k := by omega
  rw [countBits, hlen, Nat.count_add]
  refine congrArg₂ (· + ·) (count_congr fun n hn => ?_) ?_
  · rw [Nat.div_eq_of_lt hn, Nat.mod_eq_of_lt hn, add_zero]
  · by_cases hfar : 64 ≤ hi
    · rw [if_pos hfar]
      refine count_congr fun n _ => ?_
      have hdiv : i + (64 + n) / 64 = i + 1 + n / 64 := by omega
      have hmod : (64 + n) % 64 = n % 64 := by omega
      have hbounds : (lo ≤ 64 + n ∧ 64 + n ≤ hi) ↔ lo - 64 ≤ n ∧ n ≤ hi - 64 := by omega
      rw [hdiv, hmod, hbounds]
    · rw [if_neg hfar]
      exact Nat.count_of_forall_not fun n _ => by omega

/-- An empty vector counts nothing. -/
theorem vectorCount_zero (lo hi : ℕ) : vectorCount 0 lo hi = 0 := by
  refine Nat.count_of_forall_not fun n _ => ?_
  rw [Nat.zero_testBit]
  exact fun hn => Bool.false_ne_true hn.2

/-- A full vector counts its range. -/
theorem vectorCount_ones (lo hi : ℕ) :
    vectorCount onesVector lo hi = (if 64 ≤ hi then 64 else hi + 1) - lo := by
  rw [← count_between]
  refine count_congr fun n hn => ?_
  rw [testBit_onesVector, decide_eq_true_eq]
  exact and_iff_left hn

/-- A count with the masks is a count between the positions. -/
theorem popcount_mask {w m : ℕ} (hm : ∀ j < 64, m.testBit j = decide (lo ≤ j ∧ j ≤ hi)) :
    popcount (w &&& m) = vectorCount w lo hi := by
  refine count_congr fun n hn => ?_
  rw [Nat.testBit_and, hm n hn, Bool.and_eq_true, decide_eq_true_eq, and_comm]

/-- The loop counts the bits between the positions. -/
theorem rankLoop_eq (hc : c.Ok) (h : ¬c.isRle) (k : ℕ) {amt : ℕ} (hk : i + k = 32) (hle : lo ≤ hi) :
    rankLoop c k i lo hi amt = amt + countBits c k i lo hi := by
  induction k generalizing i lo hi amt with
  | zero => simp [rankLoop, countBits]
  | succ k ih =>
    have hflags := flagsAt_lt c.desc i
    have hsome := hc.sparse h i (by omega)
    have hlo : (if 64 ≤ lo then lo - 64 else 0) = lo - 64 := by split_ifs <;> omega
    rw [rankLoop, countBits_succ]
    by_cases hzero : flagsAt c.desc i = 0
    · have hword : c.words i = 0 := by rw [Chunk.words, if_neg (by omega), if_neg (by omega)]
      rw [if_pos hzero, hword, vectorCount_zero, zero_add]
      by_cases hfar : 64 ≤ hi
      · rw [if_pos hfar, if_pos hfar, hlo, ih (by omega) (by omega)]
      · rw [if_neg hfar, if_neg hfar, add_zero]
    rw [if_neg hzero]
    by_cases hones : flagsAt c.desc i = 3
    · have hword : c.words i = onesVector := by rw [Chunk.words, if_neg (by omega), if_pos hones]
      rw [if_pos hones, hword, vectorCount_ones]
      by_cases hfar : 64 ≤ hi
      · rw [if_pos hfar, if_pos hfar, if_pos hfar, hlo, ih (by omega) (by omega)]
        split_ifs <;> omega
      · rw [if_neg hfar, if_neg (by omega), if_neg hfar, if_neg hfar]
        omega
    rw [if_neg hones]
    have hmixed : flagsAt c.desc i = 2 := by omega
    have hword : c.words i = c.vecs.getD (c.position i) 0 := by
      rw [Chunk.words, if_pos hmixed, Chunk.position, if_neg (by omega), if_neg h]
    rw [if_pos hmixed, ← hword]
    dsimp only
    by_cases hfar : 64 ≤ hi
    · have hlo' : (if 64 < lo then lo - 64 else 0) = lo - 64 := by split_ifs <;> omega
      have hcount : popcount (c.words i &&& fromMask lo) = vectorCount (c.words i) lo hi := by
        apply popcount_mask
        intro j hj
        rw [testBit_fromMask lo hj, decide_eq_decide]
        omega
      rw [if_pos hfar, if_pos hfar, hlo', ih (by omega) (by omega), hcount, add_assoc]
    · have hcount : popcount (c.words i &&& (toMask hi &&& fromMask lo)) =
          vectorCount (c.words i) lo hi := by
        apply popcount_mask
        intro j hj
        rw [Nat.testBit_and, testBit_fromMask lo hj, testBit_toMask hj,
          ← Bool.decide_and, decide_eq_decide]
        omega
      rw [if_neg hfar, if_neg hfar, hcount, add_zero]

/-- The count of a chunk, between two positions in it. -/
theorem chunkRank_eq (hc : c.Ok) (hle : lo ≤ hi) (hhi : hi < c.capacity) : chunkRank c lo hi =
    Nat.count (fun n => (lo ≤ n ∧ n ≤ hi) ∧ c.isSet n = true) c.capacity := by
  unfold chunkRank
  rw [if_neg (by omega)]
  by_cases h : c.isRle
  · have hset : ∀ n, c.isSet n = true ↔ n < rleLength c.desc := by
      intro n
      rw [Chunk.isSet, if_pos h, decide_eq_true_eq]
    have hpos : 0 < rleLength c.desc := by
      obtain ⟨n, hn⟩ := hc.nonempty
      rw [hc.holds_of_rle h] at hn
      omega
    have hlen : rleLength c.desc ≤ c.capacity := by
      rw [Chunk.capacity_of_rle h]
      exact (hc.rle h).2.1
    have hmin : Nat.count (fun n => (lo ≤ n ∧ n ≤ hi) ∧ c.isSet n = true) c.capacity =
        Nat.count (fun n => lo ≤ n ∧ n ≤ min hi (rleLength c.desc - 1)) c.capacity := by
      refine count_congr fun n _ => ?_
      rw [hset]
      omega
    have hin : ¬c.capacity ≤ hi := Nat.not_le.mpr hhi
    rw [if_pos h, hmin, count_between, if_neg hin]
    dsimp only
    split_ifs <;> omega
  · rw [if_neg h, rankLoop_eq hc h 32 rfl hle, zero_add, hc.capacity_of_sparse h]
    refine count_congr fun n hn => ?_
    rw [Chunk.isSet_of_sparse h hn, zero_add]

/-- The numbers of a chunk between two others. -/
theorem card_chunk (c : Chunk) (lo hi : ℕ) :
    (((Finset.range c.stop).filter fun n => c.Holds n).filter fun n => lo ≤ n ∧ n ≤ hi).card =
      Nat.count (fun n => (lo ≤ c.start + n ∧ c.start + n ≤ hi) ∧ c.isSet n = true) c.capacity := by
  have hbefore : Nat.count (fun n => c.Holds n ∧ lo ≤ n ∧ n ≤ hi) c.start = 0 :=
    Nat.count_of_forall_not fun n hn hholds => absurd hholds.1.1 (Nat.not_le.mpr hn)
  rw [Finset.filter_filter, ← Nat.count_eq_card_filter_range, Chunk.stop, Nat.count_add, hbefore,
    zero_add]
  refine count_congr fun n hn => ?_
  rw [Chunk.Holds, Chunk.stop, Nat.add_sub_cancel_left]
  constructor
  · rintro ⟨⟨-, -, hset⟩, hbounds⟩
    exact ⟨hbounds, hset⟩
  · rintro ⟨hbounds, hset⟩
    exact ⟨⟨Nat.le_add_right _ _, by omega, hset⟩, hbounds⟩

/-- The members of a list are those of the first chunk and of the others. -/
theorem members_cons (c : Chunk) (cs : List Chunk) :
    members (c :: cs) = ((Finset.range c.stop).filter fun n => c.Holds n) ∪ members cs := rfl

/-- The count between two numbers. -/
theorem rankVec_eq (h : Laid cs) (hle : lo ≤ hi) :
    rankVec lo hi cs = ((members cs).filter fun n => lo ≤ n ∧ n ≤ hi).card := by
  induction cs with
  | nil => rfl
  | cons c cs ih =>
    have hlt := h.head.start_lt_stop
    have hstop := h.head.stop_lt
    have hdisj : Disjoint ((Finset.range c.stop).filter fun n => c.Holds n) (members cs) := by
      rw [Finset.disjoint_left]
      intro n hn hcs
      have hbefore := Finset.mem_range.mp (Finset.mem_filter.mp hn).1
      have hafter := h.le_of_has (mem_members.mp hcs)
      omega
    have hchunk := card_chunk c lo hi
    have hsplit : ((members (c :: cs)).filter fun n => lo ≤ n ∧ n ≤ hi).card =
        (((Finset.range c.stop).filter fun n => c.Holds n).filter fun n => lo ≤ n ∧ n ≤ hi).card +
          ((members cs).filter fun n => lo ≤ n ∧ n ≤ hi).card := by
      rw [members_cons, Finset.filter_union, Finset.card_union_of_disjoint
        (Finset.disjoint_filter_filter hdisj)]
    have hsum : c.stop = c.start + c.capacity := rfl
    have hclamp : ¬2 ^ 64 - 1 - (c.capacity - 1) < c.start := by omega
    rw [rankVec, hsplit, ← ih h.tail, hchunk, if_neg hclamp]
    by_cases hbefore : hi < c.start
    · have hnone : rankVec lo hi cs = 0 := by
        rw [ih h.tail, Finset.card_eq_zero, Finset.filter_eq_empty_iff]
        intro n hn hbounds
        have hafter := h.le_of_has (mem_members.mp hn)
        omega
      rw [if_pos hbefore, hnone, add_zero, Nat.count_of_forall_not fun n _ => by omega]
    rw [if_neg hbefore]
    by_cases hafter : c.start + (c.capacity - 1) < lo
    · rw [if_pos hafter, Nat.count_of_forall_not fun n _ => by omega, zero_add]
    · rw [if_neg hafter]
      refine congrArg (· + rankVec lo hi cs) ?_
      rw [chunkRank_eq h.head (by split_ifs <;> omega) (by split_ifs <;> omega)]
      refine count_congr fun n hn => and_congr_left fun _ => ?_
      split_ifs <;> omega

/-- The rank counts the members of its range. -/
theorem rank_eq (h : Laid cs) (lo hi : ℕ) :
    rank cs lo hi = ((members cs).filter fun n => lo ≤ n ∧ n ≤ hi).card := by
  unfold rank
  by_cases hlt : hi < lo
  · rw [if_pos hlt, eq_comm, Finset.card_eq_zero, Finset.filter_eq_empty_iff]
    intro n _ hbounds
    omega
  · rw [if_neg hlt, rankVec_eq h (Nat.le_of_not_lt hlt)]

/-- `sm_rank` counts the numbers of a map between two others, and `sm_cardinality` counts all. -/
theorem rank_cardinality_spec (h : Laid cs) :
    (∀ lo hi, rank cs lo hi = ((members cs).filter fun n => lo ≤ n ∧ n ≤ hi).card) ∧
      cardinality cs = (members cs).card := by
  refine ⟨rank_eq h, ?_⟩
  have hall : (members cs).filter (fun n => 0 ≤ n ∧ n ≤ 2 ^ 64 - 1) = members cs := by
    refine Finset.filter_true_of_mem fun n hn => ?_
    obtain ⟨c, hc, -, hstop, -⟩ := mem_members.mp hn
    have hlt := (h.1 c hc).stop_lt
    omega
  rw [cardinality, rank_eq h, hall]

end

end PgTre.Sparsemap
