import PgTre.Sparsemap.SetBit

/-!
# Adding a number to a sparsemap

`__sm_map_set` of `src/util/sparsemap.c` on maps with chunks: the chunk that has room for the number is
searched, a chunk is inserted if there is none, and a run-length chunk grows by one or is separated
into its run and the window of the number. Then runs are joined.
-/

namespace PgTre.Sparsemap

/-! ## The chunk of a number -/

/-- A chunk, those before it with the last one first, and those after it. -/
structure Place where
  before : List Chunk
  chunk : Chunk
  after : List Chunk

/-- The chunks around a place. -/
def Place.chunks (z : Place) : List Chunk := z.before.reverse ++ z.chunk :: z.after

/-- `__sm_get_chunk_offset`: the chunk that has room for a number, or the first one after it, or the
last one. -/
def locate (before : List Chunk) : List Chunk → ℕ → Option Place
  | [], _ => none
  | [c], _ => some ⟨before, c, []⟩
  | c :: d :: cs, idx =>
      if c.stop ≤ idx then locate (c :: before) (d :: cs) idx else some ⟨before, c, d :: cs⟩

/-- A new chunk with one number. -/
def freshChunk (idx : ℕ) : Chunk := Chunk.setBit ⟨idx / 2048 * 2048, 0, []⟩ (idx % 2048)

/-- `__sm_chunk_increase_capacity` up to the whole window. -/
def Chunk.increaseCapacity (c : Chunk) : Chunk :=
  ⟨c.start, packFlags ((List.range 32).map fun i =>
    if flagsAt c.desc i = 1 then 0 else flagsAt c.desc i), c.vecs⟩

/-! ## Separating a run -/

/-- The window of the end of a run: full vectors, and one for what is left. -/
def tailChunk (start amtOver : ℕ) : Chunk :=
  let firstZero := 2048 - amtOver
  let ones := if 64 ≤ amtOver then (2 ^ 64 - 1) &&& ((2 ^ 64 - 1) >>> (amtOver / 64 * 2))
    else 2 ^ 64 - 1
  if amtOver = 0 then ⟨start, 2 ^ 64 - 1, []⟩
  else if amtOver % 64 ≠ 0 then
    ⟨start, setFlags ones (firstZero / 64) 2, [2 ^ (firstZero % 64) - 1]⟩
  else ⟨start, ones, []⟩

/-- The run before the window of the number: a run-length chunk, or a sparse one if it is short. -/
def leftChunk (start length capacity : ℕ) : Chunk :=
  if 2048 < length then ⟨start, rleDesc capacity length, []⟩
  else
    let ones := if 64 ≤ length then (2 ^ 64 - 1) >>> ((32 - length / 64) * 2) else 0
    if length % 64 ≠ 0 then ⟨start, setFlags ones (length / 64) 2, [2 ^ (length % 64) - 1]⟩
    else ⟨start, ones, []⟩

/-- `__sm_separate_rle_chunk` for a number that is set after the end of the run, where the chunk has
room: the first of the new chunks, and the one after it. -/
def Chunk.separate (c : Chunk) (idx : ℕ) : Chunk × List Chunk :=
  let length := rleLength c.desc
  let aligned := idx / 2048 * 2048
  if aligned < c.start + length then
    let pivot := (tailChunk aligned (aligned + 2048 - (c.start + length))).storeBit (idx - aligned)
    if c.start < aligned then
      (leftChunk c.start (aligned - c.start) (aligned - c.start), [pivot])
    else (pivot, [])
  else
    let pivot := Chunk.storeBit ⟨aligned, 0, []⟩ (idx - aligned)
    if 0 < length then (leftChunk c.start length (aligned - c.start), [pivot]) else (pivot, [])

/-! ## Setting a number -/

/-- `__sm_map_set` in the chunk it has found, up to the joining of runs. -/
def setAt (z : Place) (idx : ℕ) : Place :=
  if idx < z.chunk.start then ⟨z.before, freshChunk idx, z.chunk :: z.after⟩
  else
    let rel := idx - z.chunk.start
    let c := if ¬z.chunk.isRle ∧ z.chunk.capacity < 2048 ∧ rel < 2048 then z.chunk.increaseCapacity
      else z.chunk
    if c.desc = 2 ^ 64 - 1 ∧ rel = 2048 then
      ⟨z.before, ⟨c.start, rleDesc (rleCapacityLimit c.start 2049 z.after.head?) 2049, []⟩, z.after⟩
    else if c.isRle ∧ rel ≤ c.capacity ∧ rel < rleLength c.desc then ⟨z.before, c, z.after⟩
    else if c.isRle ∧ rel ≤ c.capacity ∧ rel = rleLength c.desc then
      let capacity := if rleLength c.desc = c.capacity then
          rleCapacityLimit c.start (rleLength c.desc + 1) z.after.head?
        else c.capacity
      ⟨z.before, ⟨c.start, rleDesc capacity (rleLength c.desc + 1), []⟩, z.after⟩
    else if c.isRle ∧ rel < c.capacity then
      ⟨z.before, (c.separate idx).1, (c.separate idx).2 ++ z.after⟩
    else if c.capacity ≤ rel then ⟨c :: z.before, freshChunk idx, z.after⟩
    else ⟨z.before, c.setBit rel, z.after⟩

/-- `__sm_map_set` up to the joining of runs. -/
def setPlace (cs : List Chunk) (idx : ℕ) : Place :=
  match locate [] cs idx with
  | none => ⟨[], freshChunk idx, []⟩
  | some z => setAt z idx

/-- `__sm_map_set`. -/
def mapSet (cs : List Chunk) (idx : ℕ) : List Chunk :=
  let z := setPlace cs idx
  let r := coalesceChunk z.before z.chunk z.after (some idx)
  r.1.reverse ++ r.2.1 :: r.2.2

/-! ## The search -/

section

variable {before cs mid : List Chunk} {z : Place} {c d : Chunk} {idx n : ℕ}

/-- The chunk that is found is the last one, or has its end after the number, and the chunks before
have theirs before it. -/
theorem locate_spec (h : locate before cs idx = some z) (hbefore : ∀ d ∈ before, d.stop ≤ idx) :
    z.chunks = before.reverse ++ cs ∧ (∀ d ∈ z.before, d.stop ≤ idx) ∧
      (z.after = [] ∨ idx < z.chunk.stop) := by
  induction cs generalizing before with
  | nil => cases h
  | cons c cs ih =>
    cases cs with
    | nil =>
      cases h
      exact ⟨rfl, hbefore, Or.inl rfl⟩
    | cons d cs =>
      rw [locate] at h
      split_ifs at h with hpast
      · obtain ⟨hchunks, hz⟩ := ih h fun e he => (List.mem_cons.mp he).elim (fun heq => heq ▸ hpast)
          (hbefore e)
        exact ⟨by rw [hchunks, List.reverse_cons, List.append_assoc, List.singleton_append], hz⟩
      · cases h
        exact ⟨rfl, hbefore, Or.inr (Nat.lt_of_not_le hpast)⟩

/-- Only an empty map has no chunk to look at. -/
theorem locate_eq_none (h : locate before cs idx = none) : cs = [] := by
  induction cs generalizing before with
  | nil => rfl
  | cons c cs ih =>
    cases cs with
    | nil => cases h
    | cons d cs =>
      rw [locate] at h
      split_ifs at h
      exact absurd (ih h) (List.cons_ne_nil _ _)

/-! ## New chunks -/

/-- No flag of an empty descriptor is set. -/
theorem flagsAt_zero (i : ℕ) : flagsAt 0 i = 0 := by rw [flagsAt, Nat.zero_div]

/-- An aligned empty chunk is sparse. -/
theorem sparse_empty {start : ℕ} (hstart : 2048 ∣ start) (hlt : start + 2048 < 2 ^ 64) :
    Chunk.Sparse ⟨start, 0, []⟩ := by
  have hmixed : mixedBefore 0 32 = 0 := by decide
  refine ⟨hstart, hlt, Nat.two_pow_pos 64, fun i _ => ?_, hmixed.symm, fun v hv => by cases hv⟩
  rw [flagsAt_zero]
  decide

/-- An empty chunk holds nothing. -/
theorem not_holds_empty {start : ℕ} (h : Chunk.Sparse ⟨start, 0, []⟩) :
    ¬Chunk.Holds ⟨start, 0, []⟩ n := by
  rw [h.holds]
  rintro ⟨-, -, hbit⟩
  rw [Chunk.words, flagsAt_zero, if_neg (by decide), if_neg (by decide), Nat.zero_testBit] at hbit
  cases hbit

/-- A fresh chunk is aligned and holds its number alone. -/
theorem freshChunk_spec (hlt : idx + 2048 < 2 ^ 64) :
    (freshChunk idx).Ok ∧ (freshChunk idx).start = idx / 2048 * 2048 ∧
      (freshChunk idx).stop = idx / 2048 * 2048 + 2048 ∧ ∀ n, (freshChunk idx).Holds n ↔ n = idx := by
  have hempty := @sparse_empty (idx / 2048 * 2048) (dvd_mul_left _ _) (by omega)
  obtain ⟨hsparse, hstart, hholds⟩ := hempty.setBit_spec (Nat.mod_lt idx (by decide))
  have heq : idx / 2048 * 2048 + idx % 2048 = idx := by omega
  have hiff : ∀ n, (freshChunk idx).Holds n ↔ n = idx := by
    intro n
    rw [freshChunk, hholds, or_iff_right (not_holds_empty hempty)]
    dsimp only
    rw [heq]
  have hstop := hsparse.stop_eq
  rw [hstart] at hstop
  exact ⟨hsparse.ok ⟨idx, (hiff idx).mpr rfl⟩, hstart, hstop, hiff⟩

/-! ## Chunks that start with a run -/

/-- The last number before a multiple. -/
theorem mul_sub_one_div {a b : ℕ} (ha : 0 < a) (hb : 0 < b) : (a * b - 1) / a = b - 1 := by
  have hdiv := Nat.mul_sub_div 0 a b (Nat.mul_pos ha hb)
  rwa [zero_add, Nat.zero_div, zero_add] at hdiv

/-- The flags of full vectors, and none after them. -/
theorem flagsAt_ones (m i : ℕ) : flagsAt (4 ^ m - 1) i = if i < m then 3 else 0 := by
  unfold flagsAt
  by_cases hlt : i < m
  · have hsplit : 4 ^ m = 4 ^ i * (4 * 4 ^ (m - (i + 1))) := by
      rw [← pow_succ', ← pow_add]
      congr 1
      omega
    have hpos := Nat.pow_pos (show 0 < 4 by decide) (n := i)
    have hpos' := Nat.pow_pos (show 0 < 4 by decide) (n := m - (i + 1))
    rw [if_pos hlt, hsplit, mul_sub_one_div hpos (by omega)]
    omega
  · have hle : 4 ^ m ≤ 4 ^ i := Nat.pow_le_pow_right (by decide) (Nat.le_of_not_lt hlt)
    have hpos := Nat.pow_pos (show 0 < 4 by decide) (n := m)
    rw [if_neg hlt, Nat.div_eq_of_lt (by omega)]

/-- Shifting the full word leaves the remaining flags full. -/
theorem ones_shiftRight {k : ℕ} (hk : k ≤ 32) : (2 ^ 64 - 1) >>> (k * 2) = 4 ^ (32 - k) - 1 := by
  have hsplit : 2 ^ 64 = 2 ^ (k * 2) * 4 ^ (32 - k) := by
    rw [show (4 : ℕ) = 2 ^ 2 from rfl, ← pow_mul, ← pow_add]
    congr 1
    omega
  rw [Nat.shiftRight_eq_div_pow, hsplit,
    mul_sub_one_div (Nat.two_pow_pos _) (Nat.pow_pos (by decide))]

/-- The chunk of a run that starts where the chunk starts and is not longer than a window. -/
theorem prefix_spec {start len desc : ℕ} {vecs : List ℕ} (hstart : 2048 ∣ start)
    (hlt : start + 2048 < 2 ^ 64) (hlen : len ≤ 2048) (hdesc : desc < 2 ^ 64)
    (hflags : ∀ i, flagsAt desc i = if i < len / 64 then 3
      else if i = len / 64 ∧ len % 64 ≠ 0 then 2 else 0)
    (hvecs : vecs = if len % 64 ≠ 0 then [2 ^ (len % 64) - 1] else []) :
    Chunk.Sparse ⟨start, desc, vecs⟩ ∧
      ∀ n, Chunk.Holds ⟨start, desc, vecs⟩ n ↔ start ≤ n ∧ n < start + len := by
  have hfull : ∀ i < len / 64, flagsAt desc i = 3 := fun i hi => by rw [hflags, if_pos hi]
  have hpart : len % 64 ≠ 0 → flagsAt desc (len / 64) = 2 := fun hne => by
    rw [hflags, if_neg (lt_irrefl _), if_pos ⟨rfl, hne⟩]
  have hempty : ∀ i, len / 64 ≤ i → ¬(i = len / 64 ∧ len % 64 ≠ 0) → flagsAt desc i = 0 :=
    fun i hi hnot => by rw [hflags, if_neg (Nat.not_lt.mpr hi), if_neg hnot]
  have hmixed : ∀ k, mixedBefore desc k = if len / 64 < k ∧ len % 64 ≠ 0 then 1 else 0 := by
    intro k
    induction k with
    | zero => rfl
    | succ k ih =>
      rw [mixedBefore_succ, ih]
      by_cases hlow : k < len / 64
      · rw [hfull k hlow, if_neg (by omega), if_neg (by decide), if_neg (by omega)]
      · by_cases hlast : k = len / 64 ∧ len % 64 ≠ 0
        · rw [hlast.1, hpart hlast.2, if_neg (by omega), if_pos rfl,
            if_pos ⟨Nat.lt_succ_self _, hlast.2⟩]
        · have hzero : ¬(0 = 2) := by decide
          rw [hempty k (by omega) hlast]
          simp only [if_neg hzero, add_zero]
          split_ifs <;> omega
  have hsparse : Chunk.Sparse ⟨start, desc, vecs⟩ := by
    refine ⟨hstart, hlt, hdesc, fun i _ => ?_, ?_, fun v hv => ?_⟩
    · dsimp only
      rw [hflags]
      split_ifs <;> decide
    · dsimp only
      rw [hmixed, hvecs]
      split_ifs with h h' h'
      · rfl
      · omega
      · omega
      · rfl
    · dsimp only at hv
      rw [hvecs] at hv
      split_ifs at hv
      · rw [List.mem_singleton.mp hv]
        have hpow : 2 ^ (len % 64) < 2 ^ 64 :=
          Nat.pow_lt_pow_right (by decide) (Nat.mod_lt _ (by decide))
        omega
      · cases hv
  refine ⟨hsparse, fun n => ?_⟩
  have hwords : ∀ i, Chunk.words ⟨start, desc, vecs⟩ i = remWords len i := by
    intro i
    rw [Chunk.words, remWords]
    dsimp only
    by_cases hlow : i < len / 64
    · rw [hfull i hlow, if_neg (by decide), if_pos rfl, if_pos (by omega), if_pos (by omega)]
    · by_cases hlast : i = len / 64 ∧ len % 64 ≠ 0
      · have hrem : len - 64 * i = len % 64 := by omega
        have hbefore : mixedBefore desc i = 0 := by rw [hmixed, if_neg (by omega)]
        rw [hrem, hbefore, hvecs, hlast.1, hpart hlast.2, if_pos rfl, if_pos hlast.2, if_pos (by omega),
          if_neg (by omega), List.getD_cons_zero]
      · rw [hempty i (by omega) hlast, if_neg (by decide), if_neg (by decide), if_neg (by omega)]
  rw [hsparse.holds, InWindow]
  dsimp only
  rw [hwords, testBit_remWords _ (Nat.mod_lt _ (by decide)), decide_eq_true_eq]
  omega

/-- Full flags fit in a word. -/
theorem ones_lt (m : ℕ) (hm : m ≤ 32) : 4 ^ m - 1 < 2 ^ 64 := by
  have hpow : 4 ^ m ≤ 4 ^ 32 := Nat.pow_le_pow_right (by decide) hm
  have hpos := Nat.pow_pos (show 0 < 4 by decide) (n := m)
  have htop : (4 : ℕ) ^ 32 = 2 ^ 64 := by decide
  omega

/-- Full vectors up to the end of a run, and its last one stored. -/
theorem flagsAt_setFlags_ones {m len i : ℕ} (hm : len / 64 ≤ m) (hm' : m ≤ len / 64 + 1)
    (hpart : len % 64 ≠ 0) : flagsAt (setFlags (4 ^ m - 1) (len / 64) 2) i =
      if i < len / 64 then 3 else if i = len / 64 ∧ len % 64 ≠ 0 then 2 else 0 := by
  rw [flagsAt_setFlags (by decide), flagsAt_ones]
  split_ifs <;> omega

/-- Full flags, slot by slot. -/
theorem flagsAt_ones_of_dvd {len i : ℕ} (hpart : len % 64 = 0) : flagsAt (4 ^ (len / 64) - 1) i =
      if i < len / 64 then 3 else if i = len / 64 ∧ len % 64 ≠ 0 then 2 else 0 := by
  rw [flagsAt_ones]
  split_ifs <;> omega

/-- The tail of a run is a sparse chunk of its last numbers. -/
theorem tailChunk_spec {start amtOver : ℕ} (hstart : 2048 ∣ start) (hlt : start + 2048 < 2 ^ 64)
    (hamt : amtOver < 2048) :
    (tailChunk start amtOver).Sparse ∧ (tailChunk start amtOver).start = start ∧
      ∀ n, (tailChunk start amtOver).Holds n ↔ start ≤ n ∧ n < start + (2048 - amtOver) := by
  have hones : (if 64 ≤ amtOver then (2 ^ 64 - 1) &&& ((2 ^ 64 - 1) >>> (amtOver / 64 * 2))
      else 2 ^ 64 - 1) = 4 ^ (32 - amtOver / 64) - 1 := by
    split_ifs with hbig
    · rw [ones_shiftRight (by omega), Nat.and_comm, Nat.and_two_pow_sub_one_eq_mod,
        Nat.mod_eq_of_lt (ones_lt _ (by omega))]
    · rw [show amtOver / 64 = 0 by omega]
      decide
  unfold tailChunk
  dsimp only
  rw [hones]
  by_cases hzero : amtOver = 0
  · subst hzero
    rw [if_pos rfl]
    obtain ⟨hsparse, hholds⟩ := @prefix_spec start 2048 (4 ^ (2048 / 64) - 1) [] hstart hlt le_rfl
      (by decide) (fun i => flagsAt_ones_of_dvd (by decide)) rfl
    exact ⟨hsparse, rfl, hholds⟩
  rw [if_neg hzero]
  by_cases hpart : amtOver % 64 ≠ 0
  · rw [if_pos hpart]
    obtain ⟨hsparse, hholds⟩ := @prefix_spec start (2048 - amtOver)
      (setFlags (4 ^ (32 - amtOver / 64) - 1) ((2048 - amtOver) / 64) 2)
      [2 ^ ((2048 - amtOver) % 64) - 1] hstart hlt (Nat.sub_le _ _)
      (setFlags_lt (ones_lt _ (by omega)) (by omega) (by decide))
      (fun i => flagsAt_setFlags_ones (by omega) (by omega) (by omega)) (if_pos (by omega)).symm
    exact ⟨hsparse, rfl, hholds⟩
  · rw [if_neg hpart, show 32 - amtOver / 64 = (2048 - amtOver) / 64 by omega]
    obtain ⟨hsparse, hholds⟩ := @prefix_spec start (2048 - amtOver)
      (4 ^ ((2048 - amtOver) / 64) - 1) [] hstart hlt (Nat.sub_le _ _) (ones_lt _ (by omega))
      (fun i => flagsAt_ones_of_dvd (by omega)) (if_neg (by omega)).symm
    exact ⟨hsparse, rfl, hholds⟩

/-- The part of a run before a gap is a chunk of its first numbers. -/
theorem leftChunk_spec {start length capacity : ℕ} (hstart : 2048 ∣ start) (hcapacity : 2048 ∣ capacity)
    (hpos : 0 < length) (hle : length ≤ capacity) (hcap : capacity < 2 ^ 31)
    (hlt : start + capacity < 2 ^ 64) :
    (leftChunk start length capacity).Ok ∧ (leftChunk start length capacity).start = start ∧
      (leftChunk start length capacity).stop ≤ start + capacity ∧
      ∀ n, (leftChunk start length capacity).Holds n ↔ start ≤ n ∧ n < start + length := by
  have hones : length ≤ 2048 → (if 64 ≤ length then (2 ^ 64 - 1) >>> ((32 - length / 64) * 2) else 0) =
      4 ^ (length / 64) - 1 := by
    intro hshort
    split_ifs with hbig
    · rw [ones_shiftRight (by omega), show 32 - (32 - length / 64) = length / 64 by omega]
    · rw [show length / 64 = 0 by omega]
      rfl
  have hsparse : ∀ {desc : ℕ} {vecs : List ℕ}, Chunk.Sparse ⟨start, desc, vecs⟩ →
      (∀ n, Chunk.Holds ⟨start, desc, vecs⟩ n ↔ start ≤ n ∧ n < start + length) →
      Chunk.Ok ⟨start, desc, vecs⟩ ∧ start = start ∧ Chunk.stop ⟨start, desc, vecs⟩ ≤ start + capacity ∧
        ∀ n, Chunk.Holds ⟨start, desc, vecs⟩ n ↔ start ≤ n ∧ n < start + length := by
    intro desc vecs hs hholds
    have hstop := hs.stop_eq
    dsimp only at hstop
    exact ⟨hs.ok ⟨start, (hholds _).mpr ⟨le_rfl, by omega⟩⟩, rfl, by omega, hholds⟩
  unfold leftChunk
  by_cases hlong : 2048 < length
  · rw [if_pos hlong]
    obtain ⟨hok, hstop, hholds⟩ := ok_rle hstart hcapacity hpos hle hcap hlt
    exact ⟨hok, rfl, hstop.le, hholds⟩
  rw [if_neg hlong]
  dsimp only
  rw [hones (by omega)]
  by_cases hpart : length % 64 ≠ 0
  · rw [if_pos hpart]
    obtain ⟨hs, hholds⟩ := @prefix_spec start length (setFlags (4 ^ (length / 64) - 1) (length / 64) 2)
      [2 ^ (length % 64) - 1] hstart (by omega) (by omega)
      (setFlags_lt (ones_lt _ (by omega)) (by omega) (by decide))
      (fun i => flagsAt_setFlags_ones le_rfl (Nat.le_succ _) hpart) (if_pos hpart).symm
    exact hsparse hs hholds
  · rw [if_neg hpart]
    obtain ⟨hs, hholds⟩ := @prefix_spec start length (4 ^ (length / 64) - 1) [] hstart (by omega)
      (by omega) (ones_lt _ (by omega)) (fun i => flagsAt_ones_of_dvd (by omega)) (if_neg hpart).symm
    exact hsparse hs hholds

/-- A vector with room for a number is not full. -/
theorem Chunk.Sparse.flag_of_not_holds {c : Chunk} (hc : c.Sparse) {rel : ℕ} (hrel : rel < 2048)
    (hnot : ¬c.Holds (c.start + rel)) :
    flagsAt c.desc (rel / 64) = 0 ∨ flagsAt c.desc (rel / 64) = 2 := by
  have hflag := flagsAt_lt c.desc (rel / 64)
  have hne := hc.flags (rel / 64) (by omega)
  have hfull : flagsAt c.desc (rel / 64) ≠ 3 := by
    intro hthree
    apply hnot
    rw [hc.holds, InWindow, Nat.add_sub_cancel_left, Chunk.words, if_neg (by omega), if_pos hthree,
      testBit_onesVector, decide_eq_true_eq]
    omega
  omega

/-- A pivot: a window with one more number. -/
theorem Chunk.Sparse.pivot {c : Chunk} (hc : c.Sparse) (hin : c.start ≤ idx)
    (hlt : idx < c.start + 2048) (hnot : ¬c.Holds idx) : (c.storeBit (idx - c.start)).Ok ∧
      (c.storeBit (idx - c.start)).start = c.start ∧
      (c.storeBit (idx - c.start)).stop = c.start + 2048 ∧
      ∀ n, (c.storeBit (idx - c.start)).Holds n ↔ c.Holds n ∨ n = idx := by
  have heq : c.start + (idx - c.start) = idx := by omega
  have hflag := hc.flag_of_not_holds (show idx - c.start < 2048 by omega) (by rwa [heq])
  obtain ⟨hsparse, hholds⟩ := hc.storeBit_spec (by omega) hflag
  rw [heq] at hholds
  have hstart := Chunk.start_storeBit c (idx - c.start)
  refine ⟨hsparse.ok ⟨idx, (hholds idx).mpr (Or.inr rfl)⟩, hstart, ?_, hholds⟩
  rw [hsparse.stop_eq, hstart]

/-- The pieces of a run-length chunk: what it has before a window, and the window. -/
theorem separate_eq (hrle : c.isRle) (hok : c.Ok) (hidx : c.start + rleLength c.desc < idx)
    (hin : idx < c.stop) : ∃ base : Chunk, base.Sparse ∧ base.start = idx / 2048 * 2048 ∧
      (∀ n, base.Holds n ↔ c.Holds n ∧ idx / 2048 * 2048 ≤ n) ∧
      c.separate idx = if c.start < idx / 2048 * 2048 then
        (leftChunk c.start (min (rleLength c.desc) (idx / 2048 * 2048 - c.start))
          (idx / 2048 * 2048 - c.start), [base.storeBit (idx - idx / 2048 * 2048)])
        else (base.storeBit (idx - idx / 2048 * 2048), []) := by
  have haligned := hok.aligned
  have hdvd := hok.dvd_stop
  have hstop := hok.stop_lt
  have hholds := fun n => @Chunk.Ok.holds_of_rle c n hok hrle
  obtain ⟨m, hm⟩ := hok.nonempty
  rw [hholds] at hm
  have hdvd' : 2048 ∣ idx / 2048 * 2048 := dvd_mul_left _ _
  have hlt : idx / 2048 * 2048 + 2048 < 2 ^ 64 := by omega
  unfold Chunk.separate
  dsimp only
  by_cases htail : idx / 2048 * 2048 < c.start + rleLength c.desc
  · rw [if_pos htail]
    obtain ⟨hsparse, hstart, hbase⟩ := @tailChunk_spec (idx / 2048 * 2048)
      (idx / 2048 * 2048 + 2048 - (c.start + rleLength c.desc)) hdvd' hlt (by omega)
    refine ⟨_, hsparse, hstart, fun n => ?_, ?_⟩
    · rw [hbase, hholds]
      omega
    · rw [min_eq_right (by omega)]
  · rw [if_neg htail, if_pos (show 0 < rleLength c.desc by omega)]
    have hempty := sparse_empty hdvd' hlt
    refine ⟨_, hempty, rfl, fun n => ?_, ?_⟩
    · rw [iff_false_left (not_holds_empty hempty), hholds]
      omega
    · rw [if_pos (by omega), min_eq_left (by omega)]

/-- The run of a chunk, and the window of a number after it. -/
theorem separate_spec (hrle : c.isRle) (hok : c.Ok) (hidx : c.start + rleLength c.desc < idx)
    (hin : idx < c.stop) : Laid ((c.separate idx).1 :: (c.separate idx).2) ∧
      (∀ d ∈ (c.separate idx).1 :: (c.separate idx).2, c.start ≤ d.start ∧ d.stop ≤ c.stop) ∧
      (∀ n, Has ((c.separate idx).1 :: (c.separate idx).2) n ↔ c.Holds n ∨ n = idx) ∧
      ∀ d ∈ (c.separate idx).2, ∀ n, d.Holds n → n ≤ idx := by
  have haligned := hok.aligned
  have hdvd := hok.dvd_stop
  have hstop := hok.stop_lt
  have hsum : c.stop = c.start + rleCapacity c.desc := by rw [Chunk.stop, Chunk.capacity_of_rle hrle]
  have hcapacity : rleCapacity c.desc < 2 ^ 31 := Nat.mod_lt _ (by decide)
  have hholds := fun n => @Chunk.Ok.holds_of_rle c n hok hrle
  obtain ⟨m, hm⟩ := hok.nonempty
  rw [hholds] at hm
  obtain ⟨base, hbase, hstart, hin', hsep⟩ := separate_eq hrle hok hidx hin
  have hnot : ¬base.Holds idx := by
    rw [hin', hholds]
    omega
  obtain ⟨hokp, hstartp, hstopp, hholdsp⟩ := hbase.pivot (by omega) (by omega) hnot
  rw [hstart] at hokp hstartp hstopp hholdsp
  have hlast : ∀ n, (base.storeBit (idx - idx / 2048 * 2048)).Holds n → n ≤ idx := by
    intro n hn
    rw [hholdsp, hin', hholds] at hn
    omega
  rw [hsep]
  by_cases hleft : c.start < idx / 2048 * 2048
  · rw [if_pos hleft]
    obtain ⟨hokl, hstartl, hstopl, hholdsl⟩ := @leftChunk_spec c.start
      (min (rleLength c.desc) (idx / 2048 * 2048 - c.start)) (idx / 2048 * 2048 - c.start) haligned
      (by omega) (by omega) (Nat.min_le_right _ _) (by omega) (by omega)
    have hgap : c.start + (idx / 2048 * 2048 - c.start) = idx / 2048 * 2048 := by omega
    rw [hgap] at hstopl
    refine ⟨⟨fun d hd => ?_, ?_⟩, fun d hd => ?_, fun n => ?_, fun d hd => ?_⟩
    · rcases List.mem_cons.mp hd with rfl | hd
      · exact hokl
      · exact List.mem_singleton.mp hd ▸ hokp
    · refine List.pairwise_cons.mpr ⟨fun d hd => ?_, List.pairwise_singleton _ _⟩
      rw [List.mem_singleton.mp hd, hstartp]
      exact hstopl
    · rcases List.mem_cons.mp hd with rfl | hd
      · exact ⟨hstartl.ge, hstopl.trans (by omega)⟩
      · rw [List.mem_singleton.mp hd]
        exact ⟨by omega, by omega⟩
    · rw [has_cons, has_cons, or_iff_left (not_has_nil n), hholdsl, hholdsp, hin', hholds]
      omega
    · rw [List.mem_singleton.mp hd]
      exact hlast
  · rw [if_neg hleft]
    refine ⟨⟨fun d hd => ?_, List.pairwise_singleton _ _⟩, fun d hd => ?_, fun n => ?_,
      fun d hd => absurd hd List.not_mem_nil⟩
    · exact List.mem_singleton.mp hd ▸ hokp
    · rw [List.mem_singleton.mp hd]
      exact ⟨hstartp.ge.trans' (by omega), hstopp.le.trans (by omega)⟩
    · rw [has_cons, or_iff_left (not_has_nil n), hholdsp, hin', hholds]
      omega

/-! ## One more number in a place -/

/-- Some chunks are put where a chunk was, and the map has one more number. -/
theorem Place.replace (h : Laid z.chunks) (hmid : Laid mid)
    (hlow : ∀ d ∈ mid, ∀ x ∈ z.before, x.stop ≤ d.start)
    (hhigh : ∀ d ∈ mid, ∀ y ∈ z.after, d.stop ≤ y.start)
    (hhas : ∀ n, Has mid n ↔ z.chunk.Holds n ∨ n = idx) :
    Laid (z.before.reverse ++ (mid ++ z.after)) ∧
      ∀ n, Has (z.before.reverse ++ (mid ++ z.after)) n ↔ Has z.chunks n ∨ n = idx := by
  obtain ⟨hleft, hright, hbetween⟩ := laid_append.mp h
  constructor
  · refine laid_append.mpr ⟨hleft, laid_append.mpr ⟨hmid, hright.tail, hhigh⟩, fun x hx d hd => ?_⟩
    rcases List.mem_append.mp hd with hd | hd
    · exact hlow d hd x (List.mem_reverse.mp hx)
    · exact hbetween x hx d (List.mem_cons_of_mem _ hd)
  · intro n
    rw [Place.chunks, has_append, has_append, has_append, has_cons, hhas]
    tauto

/-- The run after a chunk is not cut short by a number before it. -/
theorem nextRunLength_of_lt {b : Chunk} (h : idx < b.start) :
    nextRunLength b (some idx) = b.runLength := by
  rw [nextRunLength, if_neg (by omega)]

/-- The run after a chunk is not cut short by its last number. -/
theorem nextRunLength_of_le {b : Chunk} (hb : b.Ok) (h : ∀ n, b.Holds n → n ≤ idx) :
    nextRunLength b (some idx) = b.runLength := by
  rw [nextRunLength, if_neg]
  rintro ⟨hstart, hlt⟩
  have hlast := h _ ((hb.holds_of_runLength (show 0 < b.runLength by omega)).mpr
    ⟨show b.start ≤ b.start + (b.runLength - 1) by omega, by omega⟩)
  omega

/-- A run with one more number. -/
theorem grow_spec {capacity : ℕ} (hc : c.Ok) (hrle : c.isRle) (hcapacity : 2048 ∣ capacity)
    (hle : rleLength c.desc + 1 ≤ capacity) (hlt : capacity < 2 ^ 31)
    (hstop : c.start + capacity < 2 ^ 64) :
    Chunk.Ok ⟨c.start, rleDesc capacity (rleLength c.desc + 1), []⟩ ∧
      Chunk.stop ⟨c.start, rleDesc capacity (rleLength c.desc + 1), []⟩ = c.start + capacity ∧
      ∀ n, Chunk.Holds ⟨c.start, rleDesc capacity (rleLength c.desc + 1), []⟩ n ↔
        c.Holds n ∨ n = c.start + rleLength c.desc := by
  obtain ⟨hok, hstop', hholds⟩ := ok_rle hc.aligned hcapacity (Nat.succ_pos _) hle hlt hstop
  refine ⟨hok, hstop', fun n => ?_⟩
  rw [hholds, hc.holds_of_rle hrle]
  omega

/-- The numbers of a chunk that is full. -/
theorem holds_of_full (hc : c.Ok) (hfull : c.desc = 2 ^ 64 - 1) :
    c.stop = c.start + 2048 ∧ ∀ n, c.Holds n ↔ c.start ≤ n ∧ n < c.start + 2048 := by
  have hrle : ¬c.isRle := by
    rw [Chunk.isRle, hfull]
    decide
  have hlen : c.runLength = 2048 := by
    rw [Chunk.runLength, if_neg hrle, hfull]
    rfl
  refine ⟨by rw [Chunk.stop, hc.capacity_of_sparse hrle], fun n => ?_⟩
  rw [hc.holds_of_runLength (by omega), hlen]

/-- A place after a number was set in its chunk. -/
structure Sets (z w : Place) (idx : ℕ) : Prop where
  laid : Laid w.chunks
  has : ∀ n, Has w.chunks n ↔ Has z.chunks n ∨ n = idx
  keeps : KeepsNext (some idx) w.after

/-- The place of a number, up to the end of the room for numbers. -/
structure Found (z : Place) (idx : ℕ) : Prop where
  laid : Laid z.chunks
  before : ∀ d ∈ z.before, d.stop ≤ idx
  after : z.after = [] ∨ idx < z.chunk.stop
  room : idx + 2048 < 2 ^ 64
  short : Short fun n => Has z.chunks n ∨ n = idx

/-- The chunk found is well formed. -/
theorem Found.ok (h : Found z idx) : z.chunk.Ok := (laid_append.mp h.laid).2.1.head

/-- The chunk found ends before the next ones. -/
theorem Found.stop_le_start (h : Found z idx) (hd : d ∈ z.after) : z.chunk.stop ≤ d.start :=
  (laid_append.mp h.laid).2.1.le_start hd

/-- The chunk found begins behind the ones before. -/
theorem Found.le_start (h : Found z idx) (hd : d ∈ z.before) : d.stop ≤ z.chunk.start :=
  (laid_append.mp h.laid).2.2 d (List.mem_reverse.mpr hd) _ List.mem_cons_self

/-- The chunks before end before the number's block. -/
theorem Found.le_aligned (h : Found z idx) (hd : d ∈ z.before) : d.stop ≤ idx / 2048 * 2048 := by
  have hok := (laid_append.mp h.laid).1.1 d (List.mem_reverse.mpr hd)
  have hdvd := hok.dvd_stop
  have hle := h.before d hd
  omega

/-- The number lies before the chunks after. -/
theorem Found.lt_start (h : Found z idx) (hd : d ∈ z.after) : idx < d.start := by
  have hstop := h.stop_le_start hd
  rcases h.after with hnil | hlt
  · rw [hnil] at hd
    cases hd
  · omega

/-- A number past the chunk found has no chunk behind it. -/
theorem Found.after_eq_nil (h : Found z idx) (hle : z.chunk.stop ≤ idx) : z.after = [] :=
  h.after.resolve_right (Nat.not_lt.mpr hle)

/-- A chunk in the place of another. -/
theorem Found.sets_one (h : Found z idx) {e : Chunk} (hok : e.Ok) (hstart : e.start = z.chunk.start)
    (hstop : ∀ y ∈ z.after, e.stop ≤ y.start) (hholds : ∀ n, e.Holds n ↔ z.chunk.Holds n ∨ n = idx) :
    Sets z ⟨z.before, e, z.after⟩ idx := by
  have hmid : Laid [e] := ⟨fun d hd => List.mem_singleton.mp hd ▸ hok, List.pairwise_singleton _ _⟩
  obtain ⟨hlaid, hhas⟩ := Place.replace h.laid hmid
    (fun d hd x hx => by rw [List.mem_singleton.mp hd, hstart]; exact h.le_start hx)
    (fun d hd y hy => by rw [List.mem_singleton.mp hd]; exact hstop y hy)
    (fun n => by rw [has_cons, or_iff_left (not_has_nil n)]; exact hholds n)
  exact ⟨hlaid, hhas, fun b hb => nextRunLength_of_lt (h.lt_start (List.mem_of_mem_head? hb))⟩

/-- A new chunk before the one that was found. -/
theorem Found.sets_before (h : Found z idx) (hlt : idx < z.chunk.start) :
    Sets z ⟨z.before, freshChunk idx, z.chunk :: z.after⟩ idx := by
  obtain ⟨hok, hstart, hstop, hholds⟩ := freshChunk_spec h.room
  have haligned := h.ok.aligned
  have hle : (freshChunk idx).stop ≤ z.chunk.start := by omega
  have hmid : Laid [freshChunk idx, z.chunk] := by
    refine ⟨fun d hd => ?_, List.pairwise_pair.mpr hle⟩
    rcases List.mem_cons.mp hd with rfl | hd
    · exact hok
    · exact List.mem_singleton.mp hd ▸ h.ok
  have hlow : ∀ d ∈ [freshChunk idx, z.chunk], ∀ x ∈ z.before, x.stop ≤ d.start := by
    intro d hd x hx
    rcases List.mem_cons.mp hd with rfl | hd
    · exact hstart ▸ h.le_aligned hx
    · rw [List.mem_singleton.mp hd]
      exact h.le_start hx
  have hhigh : ∀ d ∈ [freshChunk idx, z.chunk], ∀ y ∈ z.after, d.stop ≤ y.start := by
    intro d hd y hy
    have hy' := h.stop_le_start hy
    rcases List.mem_cons.mp hd with rfl | hd
    · exact hle.trans (h.ok.start_lt_stop.le.trans hy')
    · rwa [List.mem_singleton.mp hd]
  obtain ⟨hlaid, hhas⟩ := Place.replace h.laid hmid hlow hhigh fun n => by
    rw [has_cons, has_cons, or_iff_left (not_has_nil n), hholds, or_comm]
  refine ⟨hlaid, hhas, fun b hb => ?_⟩
  cases hb
  exact nextRunLength_of_lt hlt

/-- A new chunk after the last one. -/
theorem Found.sets_after (h : Found z idx) (hle : z.chunk.stop ≤ idx) :
    Sets z ⟨z.chunk :: z.before, freshChunk idx, z.after⟩ idx := by
  obtain ⟨hok, hstart, -, hholds⟩ := freshChunk_spec h.room
  have hdvd := h.ok.dvd_stop
  have hnil := h.after_eq_nil hle
  have hle' : z.chunk.stop ≤ (freshChunk idx).start := by omega
  have hmid : Laid [z.chunk, freshChunk idx] := by
    refine ⟨fun d hd => ?_, List.pairwise_pair.mpr hle'⟩
    rcases List.mem_cons.mp hd with rfl | hd
    · exact h.ok
    · exact List.mem_singleton.mp hd ▸ hok
  have hchunks : Place.chunks ⟨z.chunk :: z.before, freshChunk idx, z.after⟩ =
      z.before.reverse ++ ([z.chunk, freshChunk idx] ++ z.after) := by
    rw [Place.chunks, List.reverse_cons, List.append_assoc]
    rfl
  have hlow : ∀ d ∈ [z.chunk, freshChunk idx], ∀ x ∈ z.before, x.stop ≤ d.start := by
    intro d hd x hx
    rcases List.mem_cons.mp hd with rfl | hd
    · exact h.le_start hx
    · rw [List.mem_singleton.mp hd, hstart]
      exact h.le_aligned hx
  have hnone : ∀ y, y ∉ z.after := by
    rw [hnil]
    exact fun y => List.not_mem_nil
  obtain ⟨hlaid, hhas⟩ := Place.replace h.laid hmid hlow (fun d _ y hy => absurd hy (hnone y))
    fun n => by rw [has_cons, has_cons, or_iff_left (not_has_nil n), hholds]
  rw [← hchunks] at hlaid hhas
  exact ⟨hlaid, hhas, fun b hb => absurd (List.mem_of_mem_head? hb) (hnone b)⟩

/-- A run that is separated for a number after its end. -/
theorem Found.sets_separate (h : Found z idx) (hrle : z.chunk.isRle)
    (hidx : z.chunk.start + rleLength z.chunk.desc < idx) (hin : idx < z.chunk.stop) :
    Sets z ⟨z.before, (z.chunk.separate idx).1, (z.chunk.separate idx).2 ++ z.after⟩ idx := by
  obtain ⟨hlaid, hbounds, hhas, hlast⟩ := separate_spec hrle h.ok hidx hin
  obtain ⟨hlaid', hhas'⟩ := Place.replace h.laid hlaid
    (fun d hd x hx => (h.le_start hx).trans (hbounds d hd).1)
    (fun d hd y hy => (hbounds d hd).2.trans (h.stop_le_start hy)) hhas
  refine ⟨hlaid', hhas', fun b hb => ?_⟩
  rcases List.mem_append.mp (List.mem_of_mem_head? hb) with hb | hb
  · exact nextRunLength_of_le (hlaid.tail.1 b hb) (hlast b hb)
  · exact nextRunLength_of_lt (h.lt_start hb)

/-- A full chunk that becomes a run of one number more. -/
theorem Found.sets_full (h : Found z idx) (hfull : z.chunk.desc = 2 ^ 64 - 1)
    (hidx : idx = z.chunk.start + 2048) : Sets z ⟨z.before,
      ⟨z.chunk.start, rleDesc (rleCapacityLimit z.chunk.start 2049 z.after.head?) 2049, []⟩, z.after⟩
        idx := by
  obtain ⟨hstop, hholds⟩ := holds_of_full h.ok hfull
  have hroom := h.room
  have hnil := h.after_eq_nil (by omega)
  have hlimit : rleCapacityLimit z.chunk.start 2049 z.after.head? = 4096 := by
    rw [hnil]
    exact rleCapacityLimit_eq h.ok.aligned (by decide) fun d hd => by cases hd
  rw [hlimit]
  obtain ⟨hok, -, hholds'⟩ := @ok_rle z.chunk.start 4096 2049 h.ok.aligned (by decide) (by decide)
    (by decide) (by decide) (by omega)
  refine h.sets_one hok rfl (fun y hy => ?_) fun n => ?_
  · rw [hnil] at hy
    cases hy
  · rw [hholds', hholds]
    omega

/-- A run that grows by one number in some room. -/
theorem Found.sets_run {capacity : ℕ} (h : Found z idx) (hrle : z.chunk.isRle)
    (hidx : idx = z.chunk.start + rleLength z.chunk.desc) (hcapacity : 2048 ∣ capacity)
    (hle : rleLength z.chunk.desc + 1 ≤ capacity) (hlt : capacity < 2 ^ 31)
    (hroom : z.chunk.start + capacity < 2 ^ 64)
    (hafter : ∀ y ∈ z.after, z.chunk.start + capacity ≤ y.start) :
    Sets z ⟨z.before, ⟨z.chunk.start, rleDesc capacity (rleLength z.chunk.desc + 1), []⟩, z.after⟩
      idx := by
  obtain ⟨hok, hstop, hholds⟩ := grow_spec h.ok hrle hcapacity hle hlt hroom
  refine h.sets_one hok rfl (fun y hy => hstop ▸ hafter y hy) fun n => ?_
  rw [hholds, ← hidx]

/-- A run that grows by one number. -/
theorem Found.sets_grow (h : Found z idx) (hrle : z.chunk.isRle)
    (hidx : idx = z.chunk.start + rleLength z.chunk.desc) : Sets z ⟨z.before,
      ⟨z.chunk.start, rleDesc (if rleLength z.chunk.desc = z.chunk.capacity then
          rleCapacityLimit z.chunk.start (rleLength z.chunk.desc + 1) z.after.head?
        else z.chunk.capacity) (rleLength z.chunk.desc + 1), []⟩, z.after⟩ idx := by
  have hroom := h.room
  have hcapacity := Chunk.capacity_of_rle hrle
  have hlt : rleCapacity z.chunk.desc < 2 ^ 31 := Nat.mod_lt _ (by decide)
  have hle := (h.ok.rle hrle).2.1
  have hstop := h.ok.stop_lt
  have hsum : z.chunk.stop = z.chunk.start + z.chunk.capacity := rfl
  have hlen : idx + 1 - z.chunk.start ≤ 2 ^ 31 - 2048 := by
    apply h.short
    intro n hlo hhi
    rw [Place.chunks, has_append, has_cons, h.ok.holds_of_rle hrle]
    omega
  split_ifs with hfull
  · have hnil := h.after_eq_nil (by omega)
    have hlimit : rleCapacityLimit z.chunk.start (rleLength z.chunk.desc + 1) z.after.head? =
        (rleLength z.chunk.desc + 1 + 2047) / 2048 * 2048 := by
      rw [hnil]
      exact rleCapacityLimit_eq h.ok.aligned (by omega) fun d hd => by cases hd
    rw [hlimit]
    refine h.sets_run hrle hidx (dvd_mul_left _ _) (by omega) (by omega) (by omega) fun y hy => ?_
    rw [hnil] at hy
    cases hy
  · exact h.sets_run hrle hidx h.ok.dvd_capacity (by omega) (by omega) (hsum ▸ hstop) fun y hy =>
      hsum ▸ h.stop_le_start hy

/-- Setting a number in the chunk that was found. -/
theorem setAt_spec (h : Found z idx) : Sets z (setAt z idx) idx := by
  have hsum : z.chunk.stop = z.chunk.start + z.chunk.capacity := rfl
  unfold setAt
  by_cases hlow : idx < z.chunk.start
  · rw [if_pos hlow]
    exact h.sets_before hlow
  have hsame : ¬(¬z.chunk.isRle ∧ z.chunk.capacity < 2048 ∧ idx - z.chunk.start < 2048) := by
    rintro ⟨hrle, hlt, -⟩
    rw [h.ok.capacity_of_sparse hrle] at hlt
    omega
  rw [if_neg hlow]
  dsimp only
  rw [if_neg hsame]
  by_cases hfull : z.chunk.desc = 2 ^ 64 - 1 ∧ idx - z.chunk.start = 2048
  · rw [if_pos hfull]
    exact h.sets_full hfull.1 (by omega)
  rw [if_neg hfull]
  by_cases hin : z.chunk.isRle ∧ idx - z.chunk.start ≤ z.chunk.capacity ∧
      idx - z.chunk.start < rleLength z.chunk.desc
  · rw [if_pos hin]
    have hset : z.chunk.Holds idx := (h.ok.holds_of_rle hin.1).mpr (by omega)
    exact h.sets_one h.ok rfl (fun y hy => h.stop_le_start hy) fun n =>
      ⟨Or.inl, fun hn => hn.elim id fun heq => heq ▸ hset⟩
  rw [if_neg hin]
  by_cases hend : z.chunk.isRle ∧ idx - z.chunk.start ≤ z.chunk.capacity ∧
      idx - z.chunk.start = rleLength z.chunk.desc
  · rw [if_pos hend]
    exact h.sets_grow hend.1 (by omega)
  rw [if_neg hend]
  by_cases hsep : z.chunk.isRle ∧ idx - z.chunk.start < z.chunk.capacity
  · have hne : idx - z.chunk.start ≠ rleLength z.chunk.desc := fun heq => hend ⟨hsep.1, hsep.2.le, heq⟩
    have hge : rleLength z.chunk.desc ≤ idx - z.chunk.start :=
      Nat.le_of_not_lt fun hlt => hin ⟨hsep.1, hsep.2.le, hlt⟩
    rw [if_pos hsep]
    exact h.sets_separate hsep.1 (by omega) (by omega)
  rw [if_neg hsep]
  by_cases hpast : z.chunk.capacity ≤ idx - z.chunk.start
  · rw [if_pos hpast]
    exact h.sets_after (by omega)
  · have hrle : ¬z.chunk.isRle := fun hrle => hsep ⟨hrle, Nat.lt_of_not_le hpast⟩
    have hcapacity := h.ok.capacity_of_sparse hrle
    obtain ⟨hsparse, hstart, hholds⟩ :=
      (h.ok.toSparse hrle).setBit_spec (show idx - z.chunk.start < 2048 by omega)
    have heq : z.chunk.start + (idx - z.chunk.start) = idx := by omega
    rw [heq] at hholds
    have hstop : (z.chunk.setBit (idx - z.chunk.start)).stop = z.chunk.stop := by
      rw [hsparse.stop_eq, hstart, hsum, hcapacity]
    rw [if_neg hpast]
    exact h.sets_one (hsparse.ok ⟨idx, (hholds idx).mpr (Or.inr rfl)⟩) hstart
      (fun y hy => hstop ▸ h.stop_le_start hy) hholds

/-! ## One more number in a map -/

/-- Setting a number adds it to the chunks and keeps the next one. -/
theorem setPlace_spec (h : Laid cs) (hroom : idx + 2048 < 2 ^ 64)
    (hshort : Short fun n => Has cs n ∨ n = idx) : Laid (setPlace cs idx).chunks ∧
      (∀ n, Has (setPlace cs idx).chunks n ↔ Has cs n ∨ n = idx) ∧
      KeepsNext (some idx) (setPlace cs idx).after := by
  unfold setPlace
  cases hfound : locate [] cs idx with
  | none =>
    obtain ⟨hok, -, -, hholds⟩ := freshChunk_spec hroom
    rw [locate_eq_none hfound]
    refine ⟨⟨fun d hd => List.mem_singleton.mp hd ▸ hok, List.pairwise_singleton _ _⟩, fun n => ?_,
      fun b hb => by cases hb⟩
    rw [Place.chunks, has_append, has_cons, hholds]
    tauto
  | some z =>
    obtain ⟨hchunks, hbefore, hafter⟩ := locate_spec hfound fun d hd => by cases hd
    rw [List.reverse_nil, List.nil_append] at hchunks
    have hset := setAt_spec ⟨hchunks ▸ h, hbefore, hafter, hroom, hchunks ▸ hshort⟩
    exact ⟨hset.laid, hchunks ▸ hset.has, hset.keeps⟩

/-- `__sm_map_set` keeps the map in order, and the map has the numbers it had and the one that was set,
if no run has more numbers than a run-length chunk has room for. -/
theorem mapSet_spec (h : Laid cs) (hroom : idx + 2048 < 2 ^ 64)
    (hshort : Short fun n => n ∈ insert idx (members cs)) :
    Laid (mapSet cs idx) ∧ members (mapSet cs idx) = insert idx (members cs) := by
  have hiff : ∀ n, n ∈ insert idx (members cs) ↔ Has cs n ∨ n = idx := fun n => by
    rw [Finset.mem_insert, mem_members, or_comm]
  obtain ⟨hlaid, hhas, hkeeps⟩ := setPlace_spec h hroom (hshort.congr fun n => (hiff n).symm)
  obtain ⟨hlaid', hhas'⟩ :=
    coalesceChunk_spec hlaid (hshort.congr fun n => (hhas n).trans (hiff n).symm) hkeeps
  refine ⟨hlaid', Finset.ext fun n => ?_⟩
  rw [mem_members, hiff]
  exact (hhas' n).trans (hhas n)

/-- Numbers below the longest run have no longer one. -/
theorem short_of_lt {P : ℕ → Prop} (h : ∀ n, P n → n < 2 ^ 31 - 2048) : Short P := by
  intro lo hi hrun
  by_contra hnot
  have hlast := h _ (hrun (hi - 1) (by omega) (by omega))
  omega

/-! ## Numbers in any order -/

/-- What is short stays short with fewer members. -/
theorem Short.mono {P Q : ℕ → Prop} (h : Short P) (hQ : ∀ n, Q n → P n) : Short Q :=
  fun lo hi hrun => h lo hi fun n hlo hhi => hQ n (hrun n hlo hhi)

/-- Setting numbers one after the other, in any order and some of them more than once. -/
theorem foldl_mapSet_spec {ns : List ℕ} (h : Laid cs) (hroom : ∀ n ∈ ns, n + 2048 < 2 ^ 64)
    (hshort : Short fun n => n ∈ ns.toFinset ∪ members cs) :
    Laid (ns.foldl mapSet cs) ∧ members (ns.foldl mapSet cs) = ns.toFinset ∪ members cs := by
  induction ns generalizing cs with
  | nil => exact ⟨h, by simp⟩
  | cons n ns ih =>
    have hcons : (n :: ns).toFinset ∪ members cs = ns.toFinset ∪ insert n (members cs) := by
      rw [List.toFinset_cons, Finset.insert_union, Finset.union_insert]
    rw [hcons] at hshort ⊢
    obtain ⟨hlaid, hmembers⟩ := mapSet_spec h (hroom n List.mem_cons_self)
      (hshort.mono fun m hm => Finset.mem_union_right _ hm)
    rw [← hmembers] at hshort ⊢
    exact ih hlaid (fun m hm => hroom m (List.mem_cons_of_mem _ hm)) hshort

end

end PgTre.Sparsemap
