import PgTre.Sparsemap.Chunks
import Mathlib.Data.List.Basic

/-!
# Windows of a sparsemap

The set operations of `src/util/sparsemap.c` work on windows of 32 vectors: a sparse chunk or a part
of a run is expanded, the vectors are combined, and what comes out is encoded as a sparse chunk.
-/

namespace PgTre.Sparsemap

/-! ## Encoding -/

/-- The flags that `__sm_encode_sparse_chunk` finds for a vector. -/
def slotFlags (words : ℕ → ℕ) (cap : ℕ → Bool) (i : ℕ) : ℕ :=
  if cap i then payloadFlags (words i) else 1

/-- `__sm_encode_sparse_chunk`, with the start of the chunk: no chunk if no number is in it. -/
def encodeSparse (start : ℕ) (words : ℕ → ℕ) (cap : ℕ → Bool) : Option Chunk :=
  -- The last vector always has room: without it the chunk would read as a run.
  let words' := fun i => if i = 31 ∧ cap 31 = false then 0 else words i
  let flags := slotFlags words' fun i => cap i || i == 31
  if (List.range 32).any fun i => 2 ≤ flags i then
    some ⟨start, packFlags ((List.range 32).map flags),
      ((List.range 32).filter fun i => flags i == 2).map words'⟩
  else none

/-- What is kept of a list is found by counting what is kept before it. -/
theorem getD_filter_range {k i : ℕ} {p : ℕ → Bool} {f : ℕ → ℕ} (hi : i < k) (hp : p i = true) :
    (((List.range k).filter p).map f).getD ((List.range i).countP p) 0 = f i := by
  obtain ⟨m, rfl⟩ : ∃ m, k = i + (m + 1) := ⟨k - i - 1, by omega⟩
  have hlen : (((List.range i).filter p).map f).length = (List.range i).countP p := by
    rw [List.length_map, List.countP_eq_length_filter]
  rw [List.range_add, List.filter_append, List.map_append, List.getD_append_right _ _ _ _ hlen.le,
    hlen, Nat.sub_self, List.range_succ_eq_map, List.map_cons, add_zero,
    List.filter_cons_of_pos hp, List.map_cons, List.getD_cons_zero]

/-- No number is in a window. -/
def Blank (words : ℕ → ℕ) : Prop := ∀ i < 32, words i = 0

instance (words : ℕ → ℕ) : Decidable (Blank words) := inferInstanceAs (Decidable (∀ i < 32, _))

/-- The chunk with the numbers of a window. -/
def encoded (start : ℕ) (words : ℕ → ℕ) : Chunk :=
  ⟨start, packFlags ((List.range 32).map fun i => payloadFlags (words i)),
    ((List.range 32).filter fun i => payloadFlags (words i) == 2).map words⟩

/-- A full vector has the full flags. -/
theorem payloadFlags_eq_three {v : ℕ} : payloadFlags v = 3 ↔ v = onesVector := by
  unfold payloadFlags
  split_ifs with hzero hones
  · rw [hzero]
    decide
  · simp [hones]
  · simp [hones]

/-- A vector with a bit has a flag with the high bit. -/
theorem two_le_payloadFlags {v : ℕ} : 2 ≤ payloadFlags v ↔ v ≠ 0 := by
  unfold payloadFlags
  split_ifs with hzero hones <;> simp [hzero]

/-- No vector has the flags of a run. -/
theorem payloadFlags_ne_one (v : ℕ) : payloadFlags v ≠ 1 := by
  unfold payloadFlags
  split_ifs <;> decide

section

variable {words : ℕ → ℕ} {cap : ℕ → Bool} {start n i : ℕ}

/-- With room everywhere, the vectors are encoded as they are. -/
theorem encodeSparse_eq (hcap : ∀ i < 32, cap i = true) :
    encodeSparse start words cap =
      if Blank words then none else some (encoded start words) := by
  have hword : ∀ i, (if i = 31 ∧ cap 31 = false then 0 else words i) = words i := by
    intro i
    rw [if_neg]
    rw [hcap 31 (by decide)]
    simp
  have hflag : ∀ i < 32, slotFlags words (fun i => cap i || i == 31) i = payloadFlags (words i) := by
    intro i hi
    rw [slotFlags, if_pos (by rw [hcap i hi, Bool.true_or])]
  have hany : ((List.range 32).any fun i =>
      2 ≤ slotFlags words (fun i => cap i || i == 31) i) = true ↔ ¬Blank words := by
    rw [List.any_eq_true]
    constructor
    · rintro ⟨i, hi, hle⟩ hzero
      have hlt := List.mem_range.mp hi
      rw [decide_eq_true_eq, hflag i hlt, two_le_payloadFlags] at hle
      exact hle (hzero i hlt)
    · intro hne
      obtain ⟨i, hi, hnz⟩ : ∃ i < 32, words i ≠ 0 := by
        by_contra hall
        exact hne fun i hi => by_contra fun hnz => hall ⟨i, hi, hnz⟩
      refine ⟨i, List.mem_range.mpr hi, ?_⟩
      rw [decide_eq_true_eq, hflag i hi, two_le_payloadFlags]
      exact hnz
  have hmap : (List.range 32).map (slotFlags words fun i => cap i || i == 31) =
      (List.range 32).map fun i => payloadFlags (words i) :=
    List.map_congr_left fun i hi => hflag i (List.mem_range.mp hi)
  have hfilter : ((List.range 32).filter fun i =>
      slotFlags words (fun i => cap i || i == 31) i == 2) =
      (List.range 32).filter fun i => payloadFlags (words i) == 2 :=
    List.filter_congr fun i hi => by rw [hflag i (List.mem_range.mp hi)]
  unfold encodeSparse encoded
  simp only [hword, hany, hmap, hfilter]
  split_ifs with hzero <;> rfl

/-- The flags of an encoded window are those of its words. -/
theorem flagsAt_encoded (hi : i < 32) :
    flagsAt (encoded start words).desc i = payloadFlags (words i) := by
  have hpack : ∀ f ∈ (List.range 32).map fun i => payloadFlags (words i), f < 4 := by
    intro f hf
    obtain ⟨i, -, rfl⟩ := List.mem_map.mp hf
    exact payloadFlags_lt _
  rw [encoded, flagsAt_packFlags hpack, List.getD_eq_getElem?_getD]
  simp [hi]

/-- The descriptor of an encoded window fits in 64 bits. -/
theorem desc_encoded_lt (start : ℕ) (words : ℕ → ℕ) : (encoded start words).desc < 2 ^ 64 := by
  have hpack : ∀ f ∈ (List.range 32).map fun i => payloadFlags (words i), f < 4 := by
    intro f hf
    obtain ⟨i, -, rfl⟩ := List.mem_map.mp hf
    exact payloadFlags_lt _
  have hlt := packFlags_lt hpack
  rw [List.length_map, List.length_range] at hlt
  exact hlt

/-- The mixed slots of an encoded window are its mixed words. -/
theorem mixedBefore_encoded (hi : i ≤ 32) : mixedBefore (encoded start words).desc i =
    (List.range i).countP fun j => payloadFlags (words j) == 2 := by
  apply List.countP_congr
  intro j hj
  have hlt := List.mem_range.mp hj
  rw [flagsAt_encoded (by omega)]

/-- An encoded window is no run. -/
theorem not_isRle_encoded (start : ℕ) (words : ℕ → ℕ) : ¬(encoded start words).isRle := by
  rw [Chunk.isRle, flagsAt_encoded (by decide)]
  exact payloadFlags_ne_one _

/-- The vectors of a window are read as they were encoded. -/
theorem words_encoded (hi : i < 32) : (encoded start words).words i = words i := by
  rw [Chunk.words, flagsAt_encoded hi]
  by_cases hmixed : payloadFlags (words i) = 2
  · rw [if_pos hmixed, mixedBefore_encoded hi.le]
    exact getD_filter_range hi (by rw [hmixed]; rfl)
  · rw [if_neg hmixed]
    by_cases hones : payloadFlags (words i) = 3
    · rw [if_pos hones, payloadFlags_eq_three.mp hones]
    · rw [if_neg hones]
      by_contra hne
      have hle := two_le_payloadFlags.mpr (Ne.symm hne)
      have hflag := payloadFlags_lt (words i)
      omega

/-- An encoded window has room for 2048 numbers. -/
theorem capacity_encoded (start : ℕ) (words : ℕ → ℕ) : (encoded start words).capacity = 2048 := by
  have hcount :
      (List.range 32).countP (fun i => flagsAt (encoded start words).desc i == 1) = 0 := by
    rw [List.countP_eq_zero]
    intro i hi
    rw [flagsAt_encoded (List.mem_range.mp hi), beq_iff_eq]
    exact payloadFlags_ne_one _
  rw [Chunk.capacity, if_neg (not_isRle_encoded start words), hcount]

/-- An encoded window ends 2048 numbers behind its start. -/
theorem stop_encoded (start : ℕ) (words : ℕ → ℕ) :
    (encoded start words).stop = start + 2048 := by
  rw [Chunk.stop, capacity_encoded]
  rfl

/-- The encoded chunk has the numbers of the window. -/
theorem holds_encoded : (encoded start words).Holds n ↔ InWindow words start n := by
  have hrle := not_isRle_encoded start words
  have hstart : (encoded start words).start = start := rfl
  rw [Chunk.Holds, InWindow, stop_encoded, hstart]
  constructor
  · rintro ⟨hs, he, hset⟩
    rw [Chunk.isSet_of_sparse hrle (by omega), words_encoded (by omega)] at hset
    exact ⟨hs, he, hset⟩
  · rintro ⟨hs, he, hbit⟩
    refine ⟨hs, he, ?_⟩
    rw [Chunk.isSet_of_sparse hrle (by omega), words_encoded (by omega)]
    exact hbit

/-- A vector that is not zero has a number in the window. -/
theorem exists_inWindow (hw : words i < 2 ^ 64) (hi : i < 32) (hne : words i ≠ 0) :
    ∃ n, InWindow words start n := by
  obtain ⟨j, hj⟩ := Nat.exists_testBit_of_ne_zero hne
  have hj64 : j < 64 := by
    by_contra hge
    have hpow : words i < 2 ^ j := hw.trans_le (Nat.pow_le_pow_right (by decide) (by omega))
    rw [Nat.testBit_lt_two_pow hpow] at hj
    cases hj
  have hoff : start + (64 * i + j) - start = 64 * i + j := by omega
  have hdiv : (64 * i + j) / 64 = i := by omega
  have hmod : (64 * i + j) % 64 = j := by omega
  refine ⟨start + (64 * i + j), by omega, by omega, ?_⟩
  rw [hoff, hdiv, hmod]
  exact hj

/-- A window that is not blank is encoded as a well-formed chunk. -/
theorem ok_encoded (hw : ∀ i < 32, words i < 2 ^ 64) (hzero : ¬Blank words)
    (hstart : 2048 ∣ start) (hlt : start + 2048 < 2 ^ 64) : (encoded start words).Ok where
  aligned := hstart
  stop_lt := by
    rw [stop_encoded]
    exact hlt
  desc_lt := desc_encoded_lt start words
  rle := fun h => absurd h (not_isRle_encoded start words)
  sparse := by
    intro _ i hi
    rw [flagsAt_encoded hi]
    exact payloadFlags_ne_one _
  length := by
    intro _
    rw [mixedBefore_encoded le_rfl, encoded, List.length_map, List.countP_eq_length_filter]
  vecs_lt := by
    intro v hv
    obtain ⟨i, hi, rfl⟩ := List.mem_map.mp hv
    exact hw i (List.mem_range.mp (List.mem_of_mem_filter hi))
  nonempty := by
    obtain ⟨i, hi, hnz⟩ : ∃ i < 32, words i ≠ 0 := by
      by_contra hall
      exact hzero fun i hi => by_contra fun hnz => hall ⟨i, hi, hnz⟩
    obtain ⟨n, hn⟩ := @exists_inWindow words start i (hw i hi) hi hnz
    exact ⟨n, holds_encoded.mpr hn⟩

/-- Nothing is encoded only if the window is empty. -/
theorem encodeSparse_eq_none (hcap : ∀ i < 32, cap i = true)
    (h : encodeSparse start words cap = none) : ¬InWindow words start n := by
  rw [encodeSparse_eq hcap] at h
  rintro ⟨hstart, hstop, hbit⟩
  by_cases hzero : Blank words
  · rw [hzero _ (by omega), Nat.zero_testBit] at hbit
    cases hbit
  · rw [if_neg hzero] at h
    cases h

/-- What is encoded has the numbers of the window. -/
theorem encodeSparse_eq_some {c : Chunk} (hcap : ∀ i < 32, cap i = true)
    (hw : ∀ i < 32, words i < 2 ^ 64) (hstart : 2048 ∣ start) (hlt : start + 2048 < 2 ^ 64)
    (h : encodeSparse start words cap = some c) :
    c.Ok ∧ c.start = start ∧ c.stop = start + 2048 ∧ ¬c.isRle ∧
      ∀ n, c.Holds n ↔ InWindow words start n := by
  rw [encodeSparse_eq hcap] at h
  by_cases hzero : Blank words
  · rw [if_pos hzero] at h
    cases h
  · rw [if_neg hzero, Option.some.injEq] at h
    subst h
    exact ⟨ok_encoded hw hzero hstart hlt, rfl, stop_encoded start words,
      not_isRle_encoded start words, fun n => holds_encoded⟩

end

/-! ## Runs as vectors -/

/-- A shift of a word of 64 bits. -/
def shl (v k : ℕ) : ℕ := v <<< k % 2 ^ 64

/-- The mask of a vector that a run covers in part. -/
def boundaryMask (lo hi : ℕ) : ℕ :=
  if hi = 64 then shl onesVector lo
  else if lo = 0 then 2 ^ hi - 1
  else (2 ^ hi - 1) &&& shl onesVector lo

/-- `__sm_expand_rle_as_words`, without the flags. -/
def expandRle (c : Chunk) (target i : ℕ) : ℕ :=
  let slotStart := target + 64 * i
  let slotEnd := slotStart + 64
  let setStart := c.start
  let setEnd := setStart + rleLength c.desc
  if slotEnd ≤ setStart ∨ setEnd ≤ slotStart then 0
  else if setStart ≤ slotStart ∧ slotEnd ≤ setEnd then onesVector
  else
    boundaryMask (if slotStart < setStart then setStart - slotStart else 0)
      (if setEnd < slotEnd then setEnd - slotStart else 64)

/-- Rounding up to the end of a word goes past the number. -/
theorem lt_succ_or (b : ℕ) : b < (b ||| 63) + 1 := Nat.lt_succ_of_le Nat.left_le_or

/-- `n` bits from `b` on are set in the vector that has them. -/
def setBits (w : ℕ → ℕ) (b n i : ℕ) : ℕ :=
  if i = b / 64 then w i ||| shl (if n = 64 then onesVector else 2 ^ n - 1) (b % 64) else w i

/-- The loop of `__sm_append_window_bits`: the bits from `b` on are set, a vector at a time. -/
def windowLoop (b hi : ℕ) (w : ℕ → ℕ) : ℕ → ℕ :=
  if b < hi then
    windowLoop ((b ||| 63) + 1) hi (setBits w b (min hi ((b ||| 63) + 1) - b))
  else w
termination_by hi - b
decreasing_by
  have hlt := lt_succ_or b
  omega

section

variable {i j : ℕ}

/-- Every bit of the full vector is set. -/
theorem testBit_onesVector (j : ℕ) : onesVector.testBit j = decide (j < 64) := by
  rw [onesVector, Nat.testBit_two_pow_sub_one]

/-- A left shift moves the bits up. -/
theorem testBit_shl (v k : ℕ) (hj : j < 64) :
    (shl v k).testBit j = (decide (k ≤ j) && v.testBit (j - k)) := by
  rw [shl, Nat.testBit_mod_two_pow, Nat.testBit_shiftLeft, decide_eq_true hj, Bool.true_and]

/-- A left shift stays in 64 bits. -/
theorem shl_lt (v k : ℕ) : shl v k < 2 ^ 64 := Nat.mod_lt _ (by decide)

/-- The mask of a range has its bits. -/
theorem testBit_boundaryMask {lo hi : ℕ} (hj : j < 64) :
    (boundaryMask lo hi).testBit j = decide (lo ≤ j ∧ j < hi) := by
  unfold boundaryMask
  by_cases hfull : hi = 64
  · rw [if_pos hfull, testBit_shl _ _ hj, testBit_onesVector, ← Bool.decide_and, decide_eq_decide]
    omega
  · rw [if_neg hfull]
    by_cases hzero : lo = 0
    · rw [if_pos hzero, Nat.testBit_two_pow_sub_one, decide_eq_decide]
      omega
    · rw [if_neg hzero, Nat.testBit_and, Nat.testBit_two_pow_sub_one, testBit_shl _ _ hj,
        testBit_onesVector, ← Bool.decide_and, ← Bool.decide_and, decide_eq_decide]
      omega

/-- The mask of a range fits in 64 bits. -/
theorem boundaryMask_lt {lo hi : ℕ} (hhi : hi ≤ 64) : boundaryMask lo hi < 2 ^ 64 := by
  have hpow : 2 ^ hi ≤ 2 ^ 64 := Nat.pow_le_pow_right (by decide) hhi
  have hpos : 0 < 2 ^ hi := Nat.two_pow_pos hi
  unfold boundaryMask
  split_ifs
  · exact shl_lt _ _
  · omega
  · exact Nat.and_lt_two_pow _ (shl_lt _ _)

/-- The vectors of a run have the bits of its numbers. -/
theorem testBit_expandRle (c : Chunk) (target : ℕ) (hj : j < 64) :
    (expandRle c target i).testBit j =
      decide (c.start ≤ target + 64 * i + j ∧ target + 64 * i + j < c.start + rleLength c.desc) := by
  unfold expandRle
  dsimp only
  by_cases hout : target + 64 * i + 64 ≤ c.start ∨ c.start + rleLength c.desc ≤ target + 64 * i
  · rw [if_pos hout, Nat.zero_testBit, eq_comm, decide_eq_false_iff_not]
    omega
  · rw [if_neg hout]
    by_cases hin : c.start ≤ target + 64 * i ∧ target + 64 * i + 64 ≤ c.start + rleLength c.desc
    · rw [if_pos hin, testBit_onesVector, decide_eq_decide]
      omega
    · rw [if_neg hin, testBit_boundaryMask hj, decide_eq_decide]
      split_ifs <;> omega

/-- The words of an expanded run fit in 64 bits. -/
theorem expandRle_lt (c : Chunk) (target i : ℕ) : expandRle c target i < 2 ^ 64 := by
  unfold expandRle
  dsimp only
  split_ifs
  all_goals first | decide | exact boundaryMask_lt (by omega)

/-- The window of a run has its numbers. -/
theorem inWindow_expandRle {c : Chunk} {target n : ℕ} : InWindow (expandRle c target) target n ↔
    (target ≤ n ∧ n < target + 2048) ∧ c.start ≤ n ∧ n < c.start + rleLength c.desc := by
  rw [InWindow, testBit_expandRle _ _ (Nat.mod_lt _ (by decide)), decide_eq_true_eq]
  omega

/-- The end of the word that a number lies in. -/
theorem or_63 (b : ℕ) : b ||| 63 = b / 64 * 64 + 63 := by
  have hmod : b % 64 ||| 63 = 63 := by
    have hall : ∀ r < 64, r ||| 63 = 63 := by decide
    exact hall _ (Nat.mod_lt _ (by decide))
  have hdiv : 2 ^ 6 * (b / 64) + b % 64 = b := by omega
  have hb := Nat.two_pow_add_eq_or_of_lt (show b % 64 < 2 ^ 6 by omega) (b / 64)
  have hones := Nat.two_pow_add_eq_or_of_lt (show 63 < 2 ^ 6 by decide) (b / 64)
  calc b ||| 63 = (2 ^ 6 * (b / 64) ||| b % 64) ||| 63 := by rw [← hb, hdiv]
    _ = 2 ^ 6 * (b / 64) ||| 63 := by rw [Nat.or_assoc, hmod]
    _ = b / 64 * 64 + 63 := by
      rw [← hones]
      omega

/-- Setting bits adds their range. -/
theorem testBit_setBits (w : ℕ → ℕ) {b n : ℕ} (hn : b % 64 + n ≤ 64) (hj : j < 64) :
    (setBits w b n i).testBit j =
      ((w i).testBit j || decide (b ≤ 64 * i + j ∧ 64 * i + j < b + n)) := by
  have hmask : (if n = 64 then onesVector else 2 ^ n - 1).testBit (j - b % 64) =
      decide (j - b % 64 < n) := by
    split_ifs with hfull
    · rw [testBit_onesVector, hfull]
    · rw [Nat.testBit_two_pow_sub_one]
  unfold setBits
  by_cases hi : i = b / 64
  · rw [if_pos hi, Nat.testBit_or, testBit_shl _ _ hj, hmask]
    congr 1
    rw [← Bool.decide_and, decide_eq_decide]
    omega
  · rw [if_neg hi, decide_eq_false (by omega), Bool.or_false]

/-- Setting bits keeps the words in 64 bits. -/
theorem setBits_lt {w : ℕ → ℕ} (hw : ∀ i, w i < 2 ^ 64) (b n i : ℕ) : setBits w b n i < 2 ^ 64 := by
  unfold setBits
  by_cases hi : i = b / 64
  · rw [if_pos hi]
    exact Nat.or_lt_two_pow (hw i) (shl_lt _ _)
  · rw [if_neg hi]
    exact hw i

/-- The loop sets the bits from `b` to `hi`. -/
theorem testBit_windowLoop (b hi : ℕ) (w : ℕ → ℕ) (hj : j < 64) :
    (windowLoop b hi w i).testBit j =
      ((w i).testBit j || decide (b ≤ 64 * i + j ∧ 64 * i + j < hi)) := by
  induction b, w using windowLoop.induct hi with
  | case1 b w hlt ih =>
    have hor := or_63 b
    rw [windowLoop, if_pos hlt, ih, testBit_setBits w (by omega) hj, Bool.or_assoc]
    congr 1
    rw [← Bool.decide_or, decide_eq_decide]
    omega
  | case2 b w hge =>
    rw [windowLoop, if_neg hge, decide_eq_false (by omega), Bool.or_false]

/-- The loop over the window keeps the words in 64 bits. -/
theorem windowLoop_lt {b hi : ℕ} {w : ℕ → ℕ} (hw : ∀ i, w i < 2 ^ 64) (i : ℕ) :
    windowLoop b hi w i < 2 ^ 64 := by
  induction b, w using windowLoop.induct hi with
  | case1 b w hlt ih =>
    rw [windowLoop, if_pos hlt]
    exact ih (setBits_lt hw _ _)
  | case2 b w hge =>
    rw [windowLoop, if_neg hge]
    exact hw i

end

end PgTre.Sparsemap
