import PgTre.Sparsemap.Coalesce

/-!
# A bit set in a sparse chunk

`__sm_chunk_set_bit` of `src/util/sparsemap.c`, with the vector that `__sparsemap_add` makes room for
or takes away. A stored vector stands at the number of stored vectors before it, so that a vector
that comes or goes moves the later ones.
-/

namespace PgTre.Sparsemap

/-! ## Flags -/

/-- `SM_CHUNK_SET_FLAGS`. -/
def setFlags (desc i f : ℕ) : ℕ := desc % 4 ^ i + 4 ^ i * (f + 4 * (desc / 4 ^ (i + 1)))

section

variable {desc i f j k : ℕ}

/-- Setting a slot's flag changes that flag alone. -/
theorem flagsAt_setFlags (hf : f < 4) (desc i j : ℕ) :
    flagsAt (setFlags desc i f) j = if j = i then f else flagsAt desc j := by
  have hpos := Nat.pow_pos (show 0 < 4 by decide) (n := i)
  have hlow : desc % 4 ^ i < 4 ^ i := Nat.mod_lt _ hpos
  have hdiv : setFlags desc i f / 4 ^ i = f + 4 * (desc / 4 ^ (i + 1)) := by
    rw [setFlags, Nat.add_mul_div_left _ _ hpos, Nat.div_eq_of_lt hlow, zero_add]
  rcases lt_trichotomy j i with hlt | rfl | hgt
  · -- The flags before are those of the low part.
    have hsplit : 4 ^ i = 4 ^ (j + 1) * 4 ^ (i - (j + 1)) := by
      rw [← pow_add]
      congr 1
      omega
    have hmod : setFlags desc i f % 4 ^ (j + 1) = desc % 4 ^ (j + 1) := by
      rw [setFlags, hsplit, mul_assoc, Nat.add_mul_mod_self_left, Nat.mod_mul_right_mod]
    have hflag : ∀ d, flagsAt d j = d % 4 ^ (j + 1) / 4 ^ j := by
      intro d
      rw [flagsAt, pow_succ, Nat.mod_mul_right_div_self]
    rw [if_neg hlt.ne, hflag, hflag, hmod]
  · rw [if_pos rfl, flagsAt, hdiv]
    omega
  · have hsplit : 4 ^ j = 4 ^ i * (4 * 4 ^ (j - (i + 1))) := by
      rw [← pow_succ', ← pow_add]
      congr 1
      omega
    have hhigh : (f + 4 * (desc / 4 ^ (i + 1))) / 4 = desc / 4 ^ (i + 1) := by omega
    rw [if_neg hgt.ne', flagsAt, flagsAt, hsplit, ← Nat.div_div_eq_div_mul, hdiv,
      ← Nat.div_div_eq_div_mul, hhigh, ← Nat.div_div_eq_div_mul, ← Nat.div_div_eq_div_mul,
      Nat.div_div_eq_div_mul _ (4 ^ i) 4, pow_succ]

/-- A descriptor with a flag set fits in 64 bits. -/
theorem setFlags_lt (hdesc : desc < 2 ^ 64) (hi : i < 32) (hf : f < 4) :
    setFlags desc i f < 2 ^ 64 := by
  have hpos := Nat.pow_pos (show 0 < 4 by decide) (n := i)
  have hlow : desc % 4 ^ i < 4 ^ i := Nat.mod_lt _ hpos
  have hsplit : 4 ^ i * (4 * 4 ^ (31 - i)) = 2 ^ 64 := by
    rw [← pow_succ', ← pow_add, show i + (31 - i + 1) = 32 by omega]
    decide
  have hhigh : desc / 4 ^ (i + 1) < 4 ^ (31 - i) := by
    rw [Nat.div_lt_iff_lt_mul (Nat.pow_pos (by decide)), ← pow_add,
      show 31 - i + (i + 1) = 32 by omega]
    exact hdesc
  have hupper : f + 4 * (desc / 4 ^ (i + 1)) + 1 ≤ 4 * 4 ^ (31 - i) := by omega
  have hmul := Nat.mul_le_mul_left (4 ^ i) hupper
  rw [hsplit, Nat.mul_add, mul_one] at hmul
  unfold setFlags
  omega

/-- The stored vectors before some number, after a flag was set. -/
theorem mixedBefore_setFlags (hf : f < 4) (desc i k : ℕ) :
    mixedBefore (setFlags desc i f) k + (if i < k ∧ flagsAt desc i = 2 then 1 else 0) =
      mixedBefore desc k + if i < k ∧ f = 2 then 1 else 0 := by
  induction k with
  | zero => rfl
  | succ k ih =>
    rw [mixedBefore_succ, mixedBefore_succ, flagsAt_setFlags hf]
    by_cases hki : k = i
    · subst hki
      rw [if_neg (by omega), if_neg (by omega)] at ih
      rw [if_pos rfl]
      split_ifs <;> omega
    · rw [if_neg hki]
      split_ifs at ih ⊢ <;> omega

/-- More slots, more mixed ones. -/
theorem mixedBefore_mono (desc : ℕ) (h : j ≤ k) : mixedBefore desc j ≤ mixedBefore desc k := by
  induction k, h using Nat.le_induction with
  | base => exact le_rfl
  | succ k _ ih =>
    rw [mixedBefore_succ]
    omega

/-- A stored vector has a place of its own. -/
theorem mixedBefore_lt (h : j < k) (hmixed : flagsAt desc j = 2) :
    mixedBefore desc j < mixedBefore desc k := by
  have hmono := mixedBefore_mono desc (Nat.succ_le_of_lt h)
  rw [mixedBefore_succ, if_pos hmixed] at hmono
  omega

end

/-! ## Bits -/

namespace Chunk

/-- A bit set in a vector that is stored, or that becomes stored. -/
def storeBit (c : Chunk) (idx : ℕ) : Chunk :=
  let pos := c.position (idx / 64)
  if flagsAt c.desc (idx / 64) = 2 then
    ⟨c.start, c.desc, c.vecs.set pos (c.vecs.getD pos 0 ||| 2 ^ (idx % 64))⟩
  else ⟨c.start, setFlags c.desc (idx / 64) 2, c.vecs.insertIdx pos (2 ^ (idx % 64))⟩

/-- A vector that is no longer stored, since it is full. -/
def dropFull (c : Chunk) (bv : ℕ) : Chunk :=
  ⟨c.start, setFlags c.desc bv 3, c.vecs.eraseIdx (c.position bv)⟩

/-- `__sm_chunk_set_bit`, and `__sparsemap_add` with the position relative to the chunk. -/
def setBit (c : Chunk) (idx : ℕ) : Chunk :=
  if flagsAt c.desc (idx / 64) = 3 ∨ flagsAt c.desc (idx / 64) = 1 then c
  else
    let d := c.storeBit idx
    if d.vecs.getD (d.position (idx / 64)) 0 = onesVector then d.dropFull (idx / 64) else d

/-- The shape of a sparse chunk, which may be empty. -/
structure Sparse (c : Chunk) : Prop where
  aligned : 2048 ∣ c.start
  stop_lt : c.start + 2048 < 2 ^ 64
  desc_lt : c.desc < 2 ^ 64
  flags : ∀ i < 32, flagsAt c.desc i ≠ 1
  length : c.vecs.length = mixedBefore c.desc 32
  vecs_lt : ∀ v ∈ c.vecs, v < 2 ^ 64

section

variable {c : Chunk} {i bv idx n : ℕ}

/-- A sparse chunk is no run. -/
theorem Sparse.not_isRle (hc : c.Sparse) : ¬c.isRle := hc.flags 31 (by decide)

/-- A well-formed chunk that is no run is sparse. -/
theorem Ok.toSparse (hc : c.Ok) (h : ¬c.isRle) : c.Sparse where
  aligned := hc.aligned
  stop_lt := by
    have hlt := hc.stop_lt
    rw [stop, hc.capacity_of_sparse h] at hlt
    exact hlt
  desc_lt := hc.desc_lt
  flags := hc.sparse h
  length := hc.length h
  vecs_lt := hc.vecs_lt

/-- A sparse chunk has room for 2048 numbers. -/
theorem Sparse.capacity (hc : c.Sparse) : c.capacity = 2048 := by
  have hcount : (List.range 32).countP (fun i => flagsAt c.desc i == 1) = 0 := by
    rw [List.countP_eq_zero]
    intro i hi
    rw [beq_iff_eq]
    exact hc.flags i (List.mem_range.mp hi)
  rw [Chunk.capacity, if_neg hc.not_isRle, hcount]

/-- A sparse chunk ends 2048 numbers behind its start. -/
theorem Sparse.stop_eq (hc : c.Sparse) : c.stop = c.start + 2048 := by rw [stop, hc.capacity]

/-- A sparse chunk holds what its words have. -/
theorem Sparse.holds (hc : c.Sparse) : c.Holds n ↔ InWindow c.words c.start n := by
  rw [Holds, InWindow, hc.stop_eq]
  constructor
  · rintro ⟨hstart, hstop, hset⟩
    rw [isSet_of_sparse hc.not_isRle (by omega)] at hset
    exact ⟨hstart, hstop, hset⟩
  · rintro ⟨hstart, hstop, hbit⟩
    refine ⟨hstart, hstop, ?_⟩
    rw [isSet_of_sparse hc.not_isRle (by omega)]
    exact hbit

/-- A sparse chunk with a number is well formed. -/
theorem Sparse.ok (hc : c.Sparse) (h : ∃ n, c.Holds n) : c.Ok where
  aligned := hc.aligned
  stop_lt := by
    rw [hc.stop_eq]
    exact hc.stop_lt
  desc_lt := hc.desc_lt
  rle := fun hrle => absurd hrle hc.not_isRle
  sparse := fun _ => hc.flags
  length := fun _ => hc.length
  vecs_lt := hc.vecs_lt
  nonempty := h

/-- The vector of a slot stands behind the mixed slots before it. -/
theorem Sparse.position (hc : c.Sparse) (hbv : bv < 32) : c.position bv = mixedBefore c.desc bv := by
  rw [Chunk.position, if_neg (by omega), if_neg hc.not_isRle]

/-- The position of a slot lies in the vectors or at their end. -/
theorem Sparse.pos_le (hc : c.Sparse) (hbv : bv < 32) : c.position bv ≤ c.vecs.length := by
  rw [hc.position hbv, hc.length]
  exact mixedBefore_mono _ hbv.le

/-- A stored vector is there. -/
theorem Sparse.pos_lt (hc : c.Sparse) (hbv : bv < 32) (hmixed : flagsAt c.desc bv = 2) :
    c.position bv < c.vecs.length := by
  rw [hc.position hbv, hc.length]
  exact mixedBefore_lt hbv hmixed

/-- The vectors of a sparse chunk fit in 64 bits. -/
theorem Sparse.getD_lt (hc : c.Sparse) (pos : ℕ) : c.vecs.getD pos 0 < 2 ^ 64 := by
  rw [List.getD_eq_getElem?_getD]
  cases hget : c.vecs[pos]? with
  | none => decide
  | some v => exact hc.vecs_lt v (List.mem_of_getElem? hget)

/-- Storing a bit leaves the chunk sparse. -/
theorem sparse_storeBit (hc : c.Sparse) (hidx : idx < 2048)
    (hflag : flagsAt c.desc (idx / 64) = 0 ∨ flagsAt c.desc (idx / 64) = 2) :
    (c.storeBit idx).Sparse := by
  have hbv : idx / 64 < 32 := by omega
  have hbit : 2 ^ (idx % 64) < 2 ^ 64 :=
    Nat.pow_lt_pow_right (by decide) (Nat.mod_lt _ (by decide))
  unfold storeBit
  dsimp only
  by_cases hmixed : flagsAt c.desc (idx / 64) = 2
  · rw [if_pos hmixed]
    refine ⟨hc.aligned, hc.stop_lt, hc.desc_lt, hc.flags, ?_, fun v hv => ?_⟩
    · rw [List.length_set]
      exact hc.length
    · rcases List.mem_or_eq_of_mem_set hv with hv | rfl
      · exact hc.vecs_lt v hv
      · exact Nat.or_lt_two_pow (hc.getD_lt _) hbit
  · have hzero := hflag.resolve_right hmixed
    have hcount := mixedBefore_setFlags (show 2 < 4 by decide) c.desc (idx / 64) 32
    rw [if_neg (by omega), if_pos ⟨hbv, rfl⟩] at hcount
    rw [if_neg hmixed]
    refine ⟨hc.aligned, hc.stop_lt, setFlags_lt hc.desc_lt hbv (by decide), fun i hi => ?_, ?_,
      fun v hv => ?_⟩
    · rw [flagsAt_setFlags (by decide)]
      split_ifs
      · decide
      · exact hc.flags i hi
    · rw [List.length_insertIdx_of_le_length (hc.pos_le hbv), hc.length]
      exact hcount.symm
    · rcases (List.mem_insertIdx (hc.pos_le hbv)).mp hv with rfl | hv
      · exact hbit
      · exact hc.vecs_lt v hv

/-- The bit is set, and the other vectors are as they were. -/
theorem words_storeBit (hc : c.Sparse) (hidx : idx < 2048)
    (hflag : flagsAt c.desc (idx / 64) = 0 ∨ flagsAt c.desc (idx / 64) = 2) (hi : i < 32) :
    (c.storeBit idx).words i = if i = idx / 64 then c.words i ||| 2 ^ (idx % 64) else c.words i := by
  have hbv : idx / 64 < 32 := by omega
  unfold storeBit
  dsimp only
  by_cases hmixed : flagsAt c.desc (idx / 64) = 2
  · have hlt := hc.pos_lt hbv hmixed
    rw [if_pos hmixed, words, words]
    dsimp only
    by_cases hsame : i = idx / 64
    · subst hsame
      rw [if_pos rfl, if_pos hmixed, if_pos hmixed, hc.position hbv, ← hc.position hbv,
        List.getD_eq_getElem?_getD, List.getElem?_set_self hlt, Option.getD_some]
    · rw [if_neg hsame]
      by_cases hstored : flagsAt c.desc i = 2
      · have hne : c.position (idx / 64) ≠ mixedBefore c.desc i := by
          rw [hc.position hbv]
          rcases Nat.lt_or_gt_of_ne hsame with hlt' | hgt'
          · exact (mixedBefore_lt hlt' hstored).ne'
          · exact (mixedBefore_lt hgt' hmixed).ne
        rw [if_pos hstored, if_pos hstored, List.getD_eq_getElem?_getD, List.getElem?_set_ne hne,
          ← List.getD_eq_getElem?_getD]
      · rw [if_neg hstored, if_neg hstored]
  · have hzero := hflag.resolve_right hmixed
    have hle := hc.pos_le hbv
    have hcount := mixedBefore_setFlags (show 2 < 4 by decide) c.desc (idx / 64) i
    rw [hc.position hbv] at hle ⊢
    rw [if_neg (fun hand => hmixed hand.2), add_zero] at hcount
    rw [if_neg hmixed, words, words]
    dsimp only
    rw [flagsAt_setFlags (by decide), hcount]
    by_cases hsame : i = idx / 64
    · subst hsame
      rw [if_pos rfl, if_pos rfl, if_pos rfl, if_neg (by omega), if_neg (by omega), if_neg (by omega),
        add_zero, List.getD_eq_getElem?_getD, List.getElem?_insertIdx_self, if_pos hle,
        Option.getD_some, Nat.zero_or]
    · rw [if_neg hsame, if_neg hsame]
      by_cases hstored : flagsAt c.desc i = 2
      · rw [if_pos hstored, if_pos hstored, List.getD_eq_getElem?_getD, List.getD_eq_getElem?_getD]
        rcases Nat.lt_or_gt_of_ne hsame with hlt | hgt
        · rw [if_neg (by omega), add_zero, List.getElem?_insertIdx_of_lt (mixedBefore_lt hlt hstored)]
        · have hmono := mixedBefore_mono c.desc hgt.le
          rw [if_pos ⟨hgt, rfl⟩, List.getElem?_insertIdx_of_gt (by omega), Nat.add_sub_cancel]
      · rw [if_neg hstored, if_neg hstored]

/-- Dropping a full vector leaves the chunk sparse. -/
theorem sparse_dropFull (hc : c.Sparse) (hbv : bv < 32) (hmixed : flagsAt c.desc bv = 2) :
    (c.dropFull bv).Sparse := by
  have hcount := mixedBefore_setFlags (show 3 < 4 by decide) c.desc bv 32
  rw [if_pos ⟨hbv, hmixed⟩, if_neg (by omega)] at hcount
  have hlt := hc.pos_lt hbv hmixed
  refine ⟨hc.aligned, hc.stop_lt, setFlags_lt hc.desc_lt hbv (by decide), fun i hi => ?_, ?_,
    fun v hv => hc.vecs_lt v (List.mem_of_mem_eraseIdx hv)⟩
  · rw [dropFull, flagsAt_setFlags (by decide)]
    split_ifs
    · decide
    · exact hc.flags i hi
  · rw [dropFull, List.length_eraseIdx_of_lt hlt, hc.length]
    dsimp only
    omega

/-- A full vector that is no longer stored has its numbers still. -/
theorem words_dropFull (hc : c.Sparse) (hbv : bv < 32) (hmixed : flagsAt c.desc bv = 2)
    (hfull : c.words bv = onesVector) : (c.dropFull bv).words i = c.words i := by
  have hcount := mixedBefore_setFlags (show 3 < 4 by decide) c.desc bv i
  rw [if_neg (show ¬(bv < i ∧ 3 = 2) by omega), add_zero] at hcount
  by_cases hsame : i = bv
  · subst hsame
    rw [hfull, words, dropFull]
    dsimp only
    rw [flagsAt_setFlags (by decide), if_pos rfl, if_neg (by decide), if_pos rfl]
  · rw [words, words, dropFull]
    dsimp only
    rw [flagsAt_setFlags (by decide), if_neg hsame, hc.position hbv]
    by_cases hstored : flagsAt c.desc i = 2
    · rw [if_pos hstored, if_pos hstored, List.getD_eq_getElem?_getD, List.getD_eq_getElem?_getD]
      rcases Nat.lt_or_gt_of_ne hsame with hlt | hgt
      · rw [if_neg (by omega), add_zero] at hcount
        rw [hcount, List.getElem?_eraseIdx_of_lt (mixedBefore_lt hlt hstored)]
      · have hlt' := mixedBefore_lt hgt hmixed
        rw [if_pos ⟨hgt, hmixed⟩] at hcount
        rw [List.getElem?_eraseIdx_of_ge (by omega), hcount]
    · rw [if_neg hstored, if_neg hstored]

/-- Storing a bit leaves the start alone. -/
theorem start_storeBit (c : Chunk) (idx : ℕ) : (c.storeBit idx).start = c.start := by
  unfold storeBit
  dsimp only
  split_ifs <;> rfl

/-- The vector of the bit is stored. -/
theorem flagsAt_storeBit (c : Chunk) (idx : ℕ) : flagsAt (c.storeBit idx).desc (idx / 64) = 2 := by
  unfold storeBit
  dsimp only
  split_ifs with hmixed
  · exact hmixed
  · rw [flagsAt_setFlags (by decide), if_pos rfl]

/-- A window with one more bit. -/
theorem inWindow_setBit {w w' : ℕ → ℕ} {start : ℕ} (hidx : idx < 2048)
    (h : ∀ i < 32, w' i = if i = idx / 64 then w i ||| 2 ^ (idx % 64) else w i) :
    InWindow w' start n ↔ InWindow w start n ∨ n = start + idx := by
  unfold InWindow
  constructor
  · rintro ⟨hstart, hstop, hbit⟩
    rw [h _ (by omega)] at hbit
    split_ifs at hbit with hsame
    · rw [Nat.testBit_or, Bool.or_eq_true, Nat.testBit_two_pow, decide_eq_true_eq] at hbit
      rcases hbit with hbit | hbit
      · exact Or.inl ⟨hstart, hstop, hbit⟩
      · right
        omega
    · exact Or.inl ⟨hstart, hstop, hbit⟩
  · rintro (⟨hstart, hstop, hbit⟩ | rfl)
    · refine ⟨hstart, hstop, ?_⟩
      rw [h _ (by omega)]
      split_ifs
      · rw [Nat.testBit_or, hbit, Bool.true_or]
      · exact hbit
    · refine ⟨Nat.le_add_right _ _, by omega, ?_⟩
      rw [Nat.add_sub_cancel_left, h _ (by omega), if_pos rfl, Nat.testBit_or, Nat.testBit_two_pow_self,
        Bool.or_true]

/-- A chunk after a bit was set in a vector that is not full. -/
theorem Sparse.storeBit_spec (hc : c.Sparse) (hidx : idx < 2048)
    (hflag : flagsAt c.desc (idx / 64) = 0 ∨ flagsAt c.desc (idx / 64) = 2) :
    (c.storeBit idx).Sparse ∧
      ∀ n, (c.storeBit idx).Holds n ↔ c.Holds n ∨ n = c.start + idx := by
  have hsparse := sparse_storeBit hc hidx hflag
  refine ⟨hsparse, fun n => ?_⟩
  rw [hsparse.holds, hc.holds, start_storeBit]
  exact inWindow_setBit hidx fun i hi => words_storeBit hc hidx hflag hi

/-- A chunk after a bit was set. -/
theorem Sparse.setBit_spec (hc : c.Sparse) (hidx : idx < 2048) :
    (c.setBit idx).Sparse ∧ (c.setBit idx).start = c.start ∧
      ∀ n, (c.setBit idx).Holds n ↔ c.Holds n ∨ n = c.start + idx := by
  have hbv : idx / 64 < 32 := by omega
  have hflag := flagsAt_lt c.desc (idx / 64)
  have hne := hc.flags _ hbv
  unfold setBit
  by_cases hdone : flagsAt c.desc (idx / 64) = 3 ∨ flagsAt c.desc (idx / 64) = 1
  · rw [if_pos hdone]
    refine ⟨hc, rfl, fun n => ⟨Or.inl, ?_⟩⟩
    rintro (hn | rfl)
    · exact hn
    · rw [hc.holds, InWindow, Nat.add_sub_cancel_left, words, if_neg (by omega),
        if_pos (hdone.resolve_right hne), testBit_onesVector, decide_eq_true_eq]
      omega
  · rw [if_neg hdone]
    obtain ⟨hsparse, hholds⟩ := hc.storeBit_spec hidx (by omega)
    have hmixed := flagsAt_storeBit c idx
    have hstart := start_storeBit c idx
    dsimp only
    generalize c.storeBit idx = d at hsparse hholds hmixed hstart ⊢
    have hword : d.vecs.getD (d.position (idx / 64)) 0 = d.words (idx / 64) := by
      rw [words, if_pos hmixed, hsparse.position hbv]
    rw [hword]
    by_cases hfull : d.words (idx / 64) = onesVector
    · have hdrop := sparse_dropFull hsparse hbv hmixed
      rw [if_pos hfull]
      refine ⟨hdrop, hstart, fun n => ?_⟩
      have hwords : (d.dropFull (idx / 64)).words = d.words :=
        funext fun i => @words_dropFull d i (idx / 64) hsparse hbv hmixed hfull
      rw [← hholds, hdrop.holds, hsparse.holds, hwords]
      rfl
    · rw [if_neg hfull]
      exact ⟨hsparse, hstart, hholds⟩

end

end Chunk

end PgTre.Sparsemap
