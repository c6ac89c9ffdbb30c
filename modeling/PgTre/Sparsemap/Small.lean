import PgTre.Sparsemap.AddMany
import PgTre.Sparsemap.Rank

/-!
# The two forms of a sparsemap

A map whose numbers are all below 1024 may be bare vectors from bit 0 on (`__sm_is_small`), and any
map may be chunks. `sm_add` and `sm_add_many_grow` of `src/util/sparsemap.c` go from one form to the
other by what takes fewer bytes.
-/

namespace PgTre.Sparsemap

/-! ## Small maps -/

/-- `SM_SMALL_MAX_WORDS`. -/
def smallMaxWords : ℕ := 16

/-- `SM_SMALL_MAX_BITS`. -/
def smallMaxBits : ℕ := smallMaxWords * 64

/-- `__sm_small_contains`. -/
def smallContains (ws : List ℕ) (idx : ℕ) : Bool :=
  if ws.length ≤ idx / 64 then false else (ws.getD (idx / 64) 0).testBit (idx % 64)

/-- `__sm_small_add`. Vectors that the number needs are made. -/
def smallAdd (ws : List ℕ) (idx : ℕ) : List ℕ :=
  let w := idx / 64
  let ws := if ws.length ≤ w then ws ++ List.replicate (w + 1 - ws.length) 0 else ws
  ws.set w (ws.getD w 0 ||| shl 1 (idx % 64))

/-- `__sm_small_maximum`, in the first vectors. -/
def smallMaximum (ws : List ℕ) : ℕ → ℕ
  | 0 => 0
  | i + 1 => if ws.getD i 0 ≠ 0 then i * 64 + Nat.log2 (ws.getD i 0) else smallMaximum ws i

/-- The loop of `__sm_small_is_run_from_zero`: the length so far, and whether the run has ended. -/
def runFromZero (len : ℕ) (ended : Bool) : List ℕ → Option ℕ
  | [] => if 0 < len then some len else none
  | w :: ws =>
      if ended then if w ≠ 0 then none else runFromZero len true ws
      else if w = onesVector then runFromZero (len + 64) false ws
      else if w = 0 then runFromZero len true ws
      else if w &&& (w + 1) ≠ 0 then none
      else runFromZero (len + popcount w) true ws

/-- `__sm_small_chunk_bytes`. -/
def smallChunkBytes (ws : List ℕ) : ℕ :=
  let sparse := 24 + ws.countP (fun w => w ≠ 0 && w ≠ onesVector) * 8
  match runFromZero 0 false ws with
  | none => sparse
  | some len => if len ≤ rleMax then if 24 < sparse then 24 else sparse else sparse

/-- `__sm_small_bytes`. -/
def smallBytes (nwords : ℕ) : ℕ := 8 + nwords * 8

/-- `__sm_small_is_better`. -/
def smallIsBetter (maxbit small chunk : ℕ) : Bool :=
  if smallMaxBits ≤ maxbit then false else chunk = 0 || small ≤ chunk

/-! ## From one form to the other -/

/-- The set bits of a vector, as `SM_CTZ64` finds them. -/
def setBitsOf (base w : ℕ) : List ℕ := ((List.range 64).filter fun b => w.testBit b).map (base + ·)

/-- The set bits of a small map. -/
def smallBits (ws : List ℕ) : List ℕ :=
  (List.range ws.length).flatMap fun i => setBitsOf (i * 64) (ws.getD i 0)

/-- `__sm_promote`. -/
def promote (ws : List ℕ) : List Chunk :=
  let each := (smallBits ws).foldl mapSet []
  match runFromZero 0 false ws with
  | none => each
  | some len =>
      if len ≤ rleMax ∧ 24 < 24 + (if len % 64 ≠ 0 then 8 else 0) then [⟨0, rleDesc 2048 len, []⟩]
      else each

/-- A map in one of its forms. -/
inductive SparseMap where
  | small (words : List ℕ)
  | chunked (chunks : List Chunk)

/-- The last vector of a chunk that is not empty. -/
def hiWord (c : Chunk) : ℕ → Option ℕ
  | 0 => none
  | k + 1 => if c.capFlags k ∧ c.words k ≠ 0 then some k else hiWord c k

/-- `__sm_try_demote`. The bytes of a map are its count, and the start and the words of a chunk. -/
def tryDemote (cs : List Chunk) : SparseMap :=
  match cs with
  | [c] =>
      if c.start ≠ 0 then .chunked [c]
      else if c.isRle then
        let length := rleLength c.desc
        if length = 0 ∨ smallMaxBits < length then .chunked [c]
        else
          let nwords := (length - 1) / 64 + 1
          if 16 + sizeWords c.desc * 8 < smallBytes nwords then .chunked [c]
          else .small ((List.range nwords).map (headWords 0 0 length))
      else
        match hiWord c 32 with
        | none => .chunked []
        | some hi =>
            let maxbit := hi * 64 + Nat.log2 (c.words hi)
            if smallMaxBits ≤ maxbit then .chunked [c]
            else
              let nwords := maxbit / 64 + 1
              if 16 + sizeWords c.desc * 8 < smallBytes nwords then .chunked [c]
              else .small ((List.range nwords).map c.words)
  | cs => .chunked cs

/-! ## Adding -/

/-- The smaller form of a small map. -/
def keepSmaller (ws : List ℕ) : SparseMap :=
  if smallIsBetter (smallMaximum ws ws.length) (smallBytes ws.length) (smallChunkBytes ws) then
    .small ws
  else .chunked (promote ws)

/-- `__sm_add_dispatch`. -/
def add (m : SparseMap) (idx : ℕ) : SparseMap :=
  match m with
  | .small ws =>
      if idx < smallMaxBits then keepSmaller (smallAdd ws idx)
      else tryDemote (mapSet (promote ws) idx)
  | .chunked [] =>
      if idx < smallMaxBits then keepSmaller (smallAdd [] idx) else tryDemote (mapSet [] idx)
  | .chunked cs => tryDemote (mapSet cs idx)

/-- `__sm_run_iter_init` and the runs that `__sm_run_next_raw` yields. -/
def rawRunsOf : SparseMap → List (ℕ × ℕ)
  | .small ws => ((List.range ws.length).foldl (fun d i => decodeBits d (i * 64) (ws.getD i 0))
      ⟨none, []⟩).close.runs.reverse
  | .chunked cs => rawRuns cs

/-- `sm_add_many_grow`. The new map takes the place of the old, in its smaller form. -/
def addMany (m : SparseMap) (arr : List ℕ) : SparseMap :=
  match arr with
  | [] => m
  | [idx] => add m idx
  | arr => tryDemote (addManyCore (rawRunsOf m) arr)

/-- `sm_contains`. -/
def containsIn (m : SparseMap) (idx : ℕ) : Bool :=
  match m with
  | .small ws => smallContains ws idx
  | .chunked cs => contains cs idx

/-! ## The numbers of a map -/

/-- A number is in the vectors of a small map. -/
def SmallHas (ws : List ℕ) (n : ℕ) : Prop := (ws.getD (n / 64) 0).testBit (n % 64) = true

/-- A small map that `sm_validate` accepts: no vector is missing and the last is not empty. -/
structure SmallOk (ws : List ℕ) : Prop where
  length_le : ws.length ≤ smallMaxWords
  words_lt : ∀ w ∈ ws, w < 2 ^ 64
  last_ne : ∀ w ∈ ws.getLast?, w ≠ 0

/-- A map in one of its forms. -/
def SparseMap.Ok : SparseMap → Prop
  | .small ws => SmallOk ws
  | .chunked cs => Laid cs

/-- A number is in a map. -/
def SparseMap.Has : SparseMap → ℕ → Prop
  | .small ws, n => SmallHas ws n
  | .chunked cs, n => Sparsemap.Has cs n

section

variable {ws : List ℕ} {cs : List Chunk} {m : SparseMap} {idx i j n w len : ℕ} {c : Chunk}

/-- The words of a small map fit in 64 bits. -/
theorem SmallOk.getD_lt (h : SmallOk ws) (i : ℕ) : ws.getD i 0 < 2 ^ 64 := by
  rw [List.getD_eq_getElem?_getD]
  cases hget : ws[i]? with
  | none => decide
  | some v => exact h.words_lt v (List.mem_of_getElem? hget)

/-- Past the words there is nothing. -/
theorem getD_of_length_le (h : ws.length ≤ i) : ws.getD i 0 = 0 := by
  rw [List.getD_eq_getElem?_getD, List.getElem?_eq_none h]
  rfl

/-- A number of a small map lies in one of its words. -/
theorem SmallHas.lt_length (h : SmallHas ws n) : n / 64 < ws.length := by
  by_contra hnot
  rw [SmallHas, getD_of_length_le (by omega), Nat.zero_testBit] at h
  cases h

/-- A small map has room for 1024 numbers. -/
theorem SmallHas.lt (h : SmallOk ws) (hn : SmallHas ws n) : n < 1024 := by
  have hlen := h.length_le
  have hlt := hn.lt_length
  unfold smallMaxWords at hlen
  omega

/-- A small map contains the numbers it has. -/
theorem smallContains_iff : smallContains ws idx = true ↔ SmallHas ws idx := by
  unfold smallContains
  split_ifs with hlen
  · exact iff_of_false (fun h => by cases h) fun h => absurd h.lt_length (by omega)
  · exact Iff.rfl

/-! ## Adding to a small map -/

/-- Adding a number changes its word alone. -/
theorem getD_smallAdd (ws : List ℕ) (idx i : ℕ) : (smallAdd ws idx).getD i 0 =
    if i = idx / 64 then ws.getD i 0 ||| shl 1 (idx % 64) else ws.getD i 0 := by
  have hgrown : ∀ i, (if ws.length ≤ idx / 64 then ws ++ List.replicate (idx / 64 + 1 - ws.length) 0
      else ws).getD i 0 = ws.getD i 0 := by
    intro i
    split_ifs with hlen
    · by_cases hi : i < ws.length
      · rw [List.getD_append _ _ _ _ hi]
      · rw [List.getD_append_right _ _ _ _ (by omega), @getD_of_length_le ws i (by omega),
          List.getD_eq_getElem?_getD, List.getElem?_replicate]
        split_ifs <;> rfl
    · rfl
  have hlen : idx / 64 < (if ws.length ≤ idx / 64 then
      ws ++ List.replicate (idx / 64 + 1 - ws.length) 0 else ws).length := by
    split_ifs
    · rw [List.length_append, List.length_replicate]
      omega
    · omega
  unfold smallAdd
  dsimp only
  generalize (if ws.length ≤ idx / 64 then ws ++ List.replicate (idx / 64 + 1 - ws.length) 0
    else ws) = grown at hgrown hlen ⊢
  rw [List.getD_eq_getElem?_getD, List.getElem?_set]
  by_cases hi : idx / 64 = i
  · rw [if_pos hi, if_pos hlen, if_pos hi.symm, Option.getD_some, hgrown, hi]
  · rw [if_neg hi, if_neg (Ne.symm hi), ← List.getD_eq_getElem?_getD, hgrown]

/-- Adding a number makes room for its word. -/
theorem length_smallAdd (ws : List ℕ) (idx : ℕ) :
    (smallAdd ws idx).length = max ws.length (idx / 64 + 1) := by
  unfold smallAdd
  dsimp only
  rw [List.length_set]
  split_ifs
  · rw [List.length_append, List.length_replicate]
    omega
  · omega

/-- The last vector is the one with the last number. -/
theorem getLast?_eq_getD (w : ℕ) : w ∈ ws.getLast? ↔ ws ≠ [] ∧ w = ws.getD (ws.length - 1) 0 := by
  rw [List.getLast?_eq_getElem?, List.getD_eq_getElem?_getD]
  cases ws with
  | nil => simp
  | cons v vs =>
    have hlt : (v :: vs).length - 1 < (v :: vs).length := by simp
    rw [List.getElem?_eq_getElem hlt]
    simp [eq_comm]

/-- Adding a number to a small map. -/
theorem smallAdd_spec (h : SmallOk ws) (hidx : idx < smallMaxBits) : SmallOk (smallAdd ws idx) ∧
    ∀ n, SmallHas (smallAdd ws idx) n ↔ SmallHas ws n ∨ n = idx := by
  have hlen := h.length_le
  unfold smallMaxBits smallMaxWords at hidx
  unfold smallMaxWords at hlen
  constructor
  · refine ⟨?_, fun w hw => ?_, fun w hw => ?_⟩
    · rw [length_smallAdd]
      unfold smallMaxWords
      omega
    · obtain ⟨i, hi, rfl⟩ := List.getElem_of_mem hw
      have hget : (smallAdd ws idx)[i] = (smallAdd ws idx).getD i 0 := by
        rw [List.getD_eq_getElem?_getD, List.getElem?_eq_getElem hi, Option.getD_some]
      rw [hget, getD_smallAdd]
      split_ifs
      · exact Nat.or_lt_two_pow (h.getD_lt i) (shl_lt _ _)
      · exact h.getD_lt i
    · obtain ⟨-, rfl⟩ := (getLast?_eq_getD w).mp hw
      rw [getD_smallAdd, length_smallAdd]
      split_ifs with hlast
      · intro hzero
        have hbit : (shl 1 (idx % 64)).testBit (idx % 64) = true := by
          rw [testBit_shl_one (Nat.mod_lt _ (by decide)),
            decide_eq_true rfl]
        rw [(Nat.or_eq_zero_iff.mp hzero).2, Nat.zero_testBit] at hbit
        cases hbit
      · have hmax : max ws.length (idx / 64 + 1) = ws.length := by omega
        have hne : ws ≠ [] := by
          rintro rfl
          rw [List.length_nil] at hmax
          omega
        rw [hmax]
        exact h.last_ne _ ((getLast?_eq_getD _).mpr ⟨hne, rfl⟩)
  · intro n
    unfold SmallHas
    rw [getD_smallAdd]
    split_ifs with hword
    · rw [Nat.testBit_or, Bool.or_eq_true,
        testBit_shl_one (Nat.mod_lt _ (by decide)), decide_eq_true_eq]
      apply or_congr_right
      omega
    · rw [or_iff_left]
      rintro rfl
      exact hword rfl

/-! ## From small to chunks -/

/-- The masks of the first bits are the vectors without a bit in common with their successors. -/
theorem eq_two_pow_sub_one (h : w &&& (w + 1) = 0) : ∃ k, w = 2 ^ k - 1 := by
  induction w using Nat.strong_induction_on with
  | _ w ih =>
    by_cases hzero : w = 0
    · exact ⟨0, hzero⟩
    have hhalf : w / 2 &&& (w + 1) / 2 = 0 := by
      rw [← Nat.and_div_two, h]
    rcases Nat.even_or_odd' w with ⟨v, heven | hodd⟩
    · have hsame : (w + 1) / 2 = w / 2 := by omega
      rw [hsame, Nat.and_self] at hhalf
      omega
    · have hsucc : (w + 1) / 2 = w / 2 + 1 := by omega
      rw [hsucc] at hhalf
      obtain ⟨k, hk⟩ := ih (w / 2) (by omega) hhalf
      have hpos := Nat.two_pow_pos k
      refine ⟨k + 1, ?_⟩
      rw [pow_succ]
      omega

/-- A word with its lowest bits set has as many bits. -/
theorem popcount_two_pow_sub_one {k : ℕ} (hk : k ≤ 64) : popcount (2 ^ k - 1) = k := by
  have hcount : ∀ m, Nat.count (fun b => (2 ^ k - 1).testBit b = true) m = min k m := by
    intro m
    induction m with
    | zero => simp
    | succ m ih =>
      rw [Nat.count_succ, ih, Nat.testBit_two_pow_sub_one]
      simp only [decide_eq_true_eq]
      split_ifs <;> omega
  rw [popcount, hcount, min_eq_left hk]

/-- A run that has ended is followed by empty words only. -/
theorem runFromZero_ended (h : runFromZero len true ws = some n) :
    n = len ∧ 0 < len ∧ ∀ w ∈ ws, w = 0 := by
  induction ws with
  | nil =>
    rw [runFromZero] at h
    split_ifs at h with hpos
    exact ⟨(Option.some.inj h).symm, hpos, fun w hw => absurd hw List.not_mem_nil⟩
  | cons w ws ih =>
    rw [runFromZero, if_pos rfl] at h
    split_ifs at h with hzero
    obtain ⟨heq, hpos, hall⟩ := ih h
    exact ⟨heq, hpos, fun v hv => (List.mem_cons.mp hv).elim
      (fun hvw => hvw ▸ not_not.mp hzero) (hall v)⟩

/-- Empty words are empty at every place. -/
theorem getD_eq_zero (h : ∀ w ∈ ws, w = 0) (i : ℕ) : ws.getD i 0 = 0 := by
  rw [List.getD_eq_getElem?_getD]
  cases hget : ws[i]? with
  | none => rfl
  | some v => exact h v (List.mem_of_getElem? hget)

/-- The vectors of a run from bit 0 on. -/
theorem runFromZero_spec (hws : ∀ w ∈ ws, w < 2 ^ 64) (h : runFromZero len false ws = some n) :
    len ≤ n ∧ 0 < n ∧ ∀ i, ∀ j < 64, (ws.getD i 0).testBit j = decide (64 * i + j < n - len) := by
  induction ws generalizing len with
  | nil =>
    rw [runFromZero] at h
    split_ifs at h with hpos
    cases h
    refine ⟨le_rfl, hpos, fun i j _ => ?_⟩
    rw [List.getD_nil, Nat.zero_testBit, decide_eq_false (by omega)]
  | cons w ws ih =>
    have hrest := fun v hv => hws v (List.mem_cons_of_mem w hv)
    have hw := hws w List.mem_cons_self
    rw [runFromZero, if_neg Bool.false_ne_true] at h
    split_ifs at h with hones hzero hmask
    · obtain ⟨hle, hpos, hbits⟩ := ih hrest h
      refine ⟨by omega, hpos, fun i j hj => ?_⟩
      cases i with
      | zero => rw [List.getD_cons_zero, hones, testBit_onesVector, decide_eq_decide]; omega
      | succ i => rw [List.getD_cons_succ, hbits i j hj, decide_eq_decide]; omega
    · obtain ⟨heq, hpos, hall⟩ := runFromZero_ended h
      refine ⟨heq.ge, by omega, fun i j hj => ?_⟩
      have hword : (w :: ws).getD i 0 = 0 := getD_eq_zero
        (fun v hv => (List.mem_cons.mp hv).elim (fun hvw => hvw ▸ hzero) (hall v)) i
      rw [hword, Nat.zero_testBit, decide_eq_false (by omega)]
    · obtain ⟨heq, hpos, hall⟩ := runFromZero_ended h
      obtain ⟨k, hk⟩ := eq_two_pow_sub_one (not_not.mp hmask)
      have hlt : k < 64 := by
        by_contra hnot
        have hpow : 2 ^ 64 ≤ 2 ^ k := Nat.pow_le_pow_right (by decide) (by omega)
        have hall' : w = onesVector := by
          unfold onesVector
          omega
        exact hones hall'
      have hcount : popcount w = k := by
        rw [hk]
        exact popcount_two_pow_sub_one hlt.le
      rw [hcount] at heq hpos
      refine ⟨by omega, by omega, fun i j hj => ?_⟩
      cases i with
      | zero => rw [List.getD_cons_zero, hk, Nat.testBit_two_pow_sub_one, decide_eq_decide]; omega
      | succ i =>
        rw [List.getD_cons_succ, getD_eq_zero hall, Nat.zero_testBit, decide_eq_false (by omega)]

/-- A small map lists the numbers it has. -/
theorem mem_smallBits : n ∈ smallBits ws ↔ SmallHas ws n := by
  unfold smallBits setBitsOf
  rw [List.mem_flatMap]
  constructor
  · rintro ⟨i, -, hn⟩
    obtain ⟨b, hb, rfl⟩ := List.mem_map.mp hn
    obtain ⟨hlt, hbit⟩ := List.mem_filter.mp hb
    have hlt' := List.mem_range.mp hlt
    have hdiv : (i * 64 + b) / 64 = i := by omega
    have hmod : (i * 64 + b) % 64 = b := by omega
    rw [SmallHas, hdiv, hmod]
    exact hbit
  · intro hn
    refine ⟨n / 64, List.mem_range.mpr hn.lt_length, List.mem_map.mpr ⟨n % 64, ?_, by omega⟩⟩
    exact List.mem_filter.mpr ⟨List.mem_range.mpr (Nat.mod_lt _ (by decide)), hn⟩

/-- The empty list is laid out. -/
theorem laid_nil : Laid [] := ⟨fun _ hc => absurd hc List.not_mem_nil, List.Pairwise.nil⟩

/-- The numbers of a small map are short. -/
theorem SmallOk.short (h : SmallOk ws) : Short fun n => SmallHas ws n :=
  short_of_lt fun _ hn => (hn.lt h).trans (by decide)

/-- A small map in chunks. -/
theorem promote_spec (h : SmallOk ws) :
    Laid (promote ws) ∧ ∀ n, Sparsemap.Has (promote ws) n ↔ SmallHas ws n := by
  have hset : ∀ n, n ∈ (smallBits ws).toFinset ∪ members [] ↔ SmallHas ws n := fun n => by
    rw [Finset.mem_union, List.mem_toFinset, mem_smallBits, mem_members, or_iff_left (not_has_nil n)]
  have heach : Laid ((smallBits ws).foldl mapSet []) ∧
      ∀ n, Sparsemap.Has ((smallBits ws).foldl mapSet []) n ↔ SmallHas ws n := by
    obtain ⟨hlaid, hmembers⟩ := foldl_mapSet_spec laid_nil
      (fun n hn => by have := (mem_smallBits.mp hn).lt h; omega) (h.short.congr hset)
    refine ⟨hlaid, fun n => ?_⟩
    rw [← mem_members, hmembers, hset]
  unfold promote
  dsimp only
  cases hrun : runFromZero 0 false ws with
  | none => exact heach
  | some len =>
    dsimp only
    by_cases hrle : len ≤ rleMax ∧ 24 < 24 + (if len % 64 ≠ 0 then 8 else 0)
    · rw [if_pos hrle]
      obtain ⟨-, hpos, hbits⟩ := runFromZero_spec h.words_lt hrun
      have hiff : ∀ n, SmallHas ws n ↔ n < len := fun n => by
        rw [SmallHas, hbits _ _ (Nat.mod_lt _ (by decide)), decide_eq_true_eq]
        omega
      have hlast := ((hiff (len - 1)).mpr (by omega)).lt h
      obtain ⟨hok, -, hholds⟩ := @ok_rle 0 2048 len (dvd_zero _) (dvd_refl _) hpos (by omega)
        (by decide) (by decide)
      refine ⟨⟨fun c hc => List.mem_singleton.mp hc ▸ hok, List.pairwise_singleton _ _⟩, fun n => ?_⟩
      rw [has_cons, or_iff_left (not_has_nil n), hholds, hiff]
      omega
    · rw [if_neg hrle]
      exact heach

/-! ## From chunks to small -/

/-- A mapped range, place by place. -/
theorem getD_map_range (f : ℕ → ℕ) (k i : ℕ) :
    ((List.range k).map f).getD i 0 = if i < k then f i else 0 := by
  rw [List.getD_eq_getElem?_getD, List.getElem?_map]
  split_ifs with hi
  · rw [List.getElem?_range hi, Option.map_some, Option.getD_some]
  · rw [List.getElem?_eq_none (by rw [List.length_range]; omega)]
    rfl

/-- A small map from its vectors. -/
theorem smallOk_map_range {f : ℕ → ℕ} {k : ℕ} (hk : k < 16) (hlt : ∀ i, f i < 2 ^ 64) (hne : f k ≠ 0) :
    SmallOk ((List.range (k + 1)).map f) := by
  refine ⟨?_, fun w hw => ?_, fun w hw => ?_⟩
  · rw [List.length_map, List.length_range]
    exact hk
  · obtain ⟨i, -, rfl⟩ := List.mem_map.mp hw
    exact hlt i
  · obtain ⟨-, rfl⟩ := (getLast?_eq_getD w).mp hw
    rw [List.length_map, List.length_range, Nat.add_sub_cancel, getD_map_range,
      if_pos (Nat.lt_succ_self k)]
    exact hne

/-- The vectors after the last one that is not empty are empty. -/
theorem hiWord_spec {k : ℕ} (h : hiWord c k = some i) :
    i < k ∧ c.words i ≠ 0 ∧ ∀ j < k, i < j → ¬(c.capFlags j = true ∧ c.words j ≠ 0) := by
  induction k with
  | zero => cases h
  | succ k ih =>
    rw [hiWord] at h
    split_ifs at h with hsome
    · cases h
      exact ⟨Nat.lt_succ_self _, hsome.2, fun j hj hij => by omega⟩
    · obtain ⟨hlt, hne, hrest⟩ := ih h
      refine ⟨by omega, hne, fun j hj hij => ?_⟩
      rcases Nat.lt_or_eq_of_le (Nat.le_of_lt_succ hj) with hlt' | rfl
      · exact hrest j hlt' hij
      · exact hsome

/-- With no high word the words below are empty. -/
theorem hiWord_eq_none {k : ℕ} (h : hiWord c k = none) :
    ∀ j < k, ¬(c.capFlags j = true ∧ c.words j ≠ 0) := by
  induction k with
  | zero => exact fun j hj => absurd hj (Nat.not_lt_zero j)
  | succ k ih =>
    rw [hiWord] at h
    split_ifs at h with hsome
    intro j hj
    rcases Nat.lt_or_eq_of_le (Nat.le_of_lt_succ hj) with hlt | rfl
    · exact ih h j hlt
    · exact hsome

/-- A run from bit 0 on in a small map. -/
theorem small_of_run (hpos : 0 < len) (hle : len ≤ 1024) :
    SmallOk ((List.range ((len - 1) / 64 + 1)).map (headWords 0 0 len)) ∧
      ∀ n, SmallHas ((List.range ((len - 1) / 64 + 1)).map (headWords 0 0 len)) n ↔ n < len := by
  have hbit : ∀ i, ∀ j < 64, (headWords 0 0 len i).testBit j = decide (64 * i + j < len) := by
    intro i j hj
    rw [testBit_headWords (le_refl 0) (Nat.zero_le len) hj, decide_eq_decide]
    omega
  refine ⟨smallOk_map_range (by omega) (headWords_lt 0 0 len) fun hzero => ?_, fun n => ?_⟩
  · have hlast := hbit ((len - 1) / 64) ((len - 1) % 64) (Nat.mod_lt _ (by decide))
    rw [hzero, Nat.zero_testBit] at hlast
    have hlt := of_decide_eq_false hlast.symm
    omega
  · rw [SmallHas, getD_map_range]
    split_ifs with hin
    · rw [hbit _ _ (Nat.mod_lt _ (by decide)), decide_eq_true_eq]
      omega
    · rw [Nat.zero_testBit]
      exact iff_of_false Bool.false_ne_true (by omega)

/-- A sparse chunk in a small map. -/
theorem small_of_sparse (hc : c.Ok) (hrle : ¬c.isRle) (hstart : c.start = 0)
    (hhi : hiWord c 32 = some i) (hlt : i < 16) : SmallOk ((List.range (i + 1)).map c.words) ∧
      ∀ n, SmallHas ((List.range (i + 1)).map c.words) n ↔ c.Holds n := by
  obtain ⟨-, hne, hrest⟩ := hiWord_spec hhi
  refine ⟨smallOk_map_range hlt (Chunk.words_lt hc.vecs_lt) hne, fun n => ?_⟩
  rw [SmallHas, getD_map_range, hc.holds_of_sparse hrle, InWindow, hstart, Nat.sub_zero]
  split_ifs with hin
  · exact ⟨fun hbit => ⟨Nat.zero_le n, by omega, hbit⟩, fun hbit => hbit.2.2⟩
  · rw [Nat.zero_testBit]
    refine iff_of_false Bool.false_ne_true ?_
    rintro ⟨-, hlt', hbit⟩
    have hcap := hc.capFlags_of_sparse hrle (show n / 64 < 32 by omega)
    have hzero : c.words (n / 64) = 0 := by
      by_contra hne'
      exact hrest (n / 64) (by omega) (by omega) ⟨hcap, hne'⟩
    rw [hzero, Nat.zero_testBit] at hbit
    cases hbit

/-- A map in chunks keeps its numbers when it goes small. -/
theorem tryDemote_spec (h : Laid cs) :
    (tryDemote cs).Ok ∧ ∀ n, (tryDemote cs).Has n ↔ Sparsemap.Has cs n := by
  match cs, h with
  | [], h => exact ⟨h, fun n => Iff.rfl⟩
  | _ :: _ :: _, h => exact ⟨h, fun n => Iff.rfl⟩
  | [c], h =>
    have hc := h.head
    have hsame : SparseMap.Ok (.chunked [c]) ∧
        ∀ n, SparseMap.Has (.chunked [c]) n ↔ Sparsemap.Has [c] n := ⟨h, fun n => Iff.rfl⟩
    have hone : ∀ n, Sparsemap.Has [c] n ↔ c.Holds n := fun n =>
      has_cons.trans (or_iff_left (not_has_nil n))
    unfold tryDemote
    dsimp only
    by_cases hstart : c.start ≠ 0
    · rw [if_pos hstart]
      exact hsame
    rw [if_neg hstart]
    have hstart' := not_not.mp hstart
    by_cases hrle : c.isRle
    · rw [if_pos hrle]
      by_cases hlong : rleLength c.desc = 0 ∨ smallMaxBits < rleLength c.desc
      · rw [if_pos hlong]
        exact hsame
      rw [if_neg hlong]
      by_cases hbytes : 16 + sizeWords c.desc * 8 < smallBytes ((rleLength c.desc - 1) / 64 + 1)
      · rw [if_pos hbytes]
        exact hsame
      rw [if_neg hbytes]
      unfold smallMaxBits smallMaxWords at hlong
      obtain ⟨hok, hhas⟩ := @small_of_run (rleLength c.desc) (by omega) (by omega)
      refine ⟨hok, fun n => (hhas n).trans ?_⟩
      rw [hone, hc.holds_of_rle hrle]
      omega
    · rw [if_neg hrle]
      cases hhi : hiWord c 32 with
      | none =>
        refine ⟨laid_nil, fun n => iff_of_false (not_has_nil n) fun hn => ?_⟩
        rw [hone, hc.holds_of_sparse hrle, InWindow] at hn
        obtain ⟨-, hlt, hbit⟩ := hn
        have hzero := hiWord_eq_none hhi ((n - c.start) / 64) (by omega)
        rw [hc.capFlags_of_sparse hrle (by omega)] at hzero
        rw [not_not.mp fun hne => hzero ⟨rfl, hne⟩, Nat.zero_testBit] at hbit
        cases hbit
      | some hi =>
        dsimp only
        have hlog : Nat.log2 (c.words hi) < 64 :=
          (Nat.log2_lt (hiWord_spec hhi).2.1).mpr (Chunk.words_lt hc.vecs_lt hi)
        by_cases hbig : smallMaxBits ≤ hi * 64 + Nat.log2 (c.words hi)
        · rw [if_pos hbig]
          exact hsame
        rw [if_neg hbig]
        have hwords : (hi * 64 + Nat.log2 (c.words hi)) / 64 + 1 = hi + 1 := by omega
        rw [hwords]
        by_cases hbytes : 16 + sizeWords c.desc * 8 < smallBytes (hi + 1)
        · rw [if_pos hbytes]
          exact hsame
        rw [if_neg hbytes]
        unfold smallMaxBits smallMaxWords at hbig
        obtain ⟨hok, hhas⟩ := small_of_sparse hc hrle hstart' hhi (by omega)
        exact ⟨hok, fun n => (hhas n).trans (hone n).symm⟩

/-! ## Adding to either form -/

/-- Keeping the smaller form keeps the numbers. -/
theorem keepSmaller_spec (h : SmallOk ws) :
    (keepSmaller ws).Ok ∧ ∀ n, (keepSmaller ws).Has n ↔ SmallHas ws n := by
  unfold keepSmaller
  split_ifs
  · exact ⟨h, fun n => Iff.rfl⟩
  · exact promote_spec h

/-- A number is added to the chunks, and the map may go small. -/
theorem tryDemote_mapSet (h : Laid cs) (hroom : idx + 2048 < 2 ^ 64)
    (hshort : Short fun n => Sparsemap.Has cs n ∨ n = idx) : (tryDemote (mapSet cs idx)).Ok ∧
      ∀ n, (tryDemote (mapSet cs idx)).Has n ↔ Sparsemap.Has cs n ∨ n = idx := by
  have hiff : ∀ n, n ∈ insert idx (members cs) ↔ Sparsemap.Has cs n ∨ n = idx := fun n => by
    rw [Finset.mem_insert, mem_members, or_comm]
  obtain ⟨hlaid, hmembers⟩ := mapSet_spec h hroom (hshort.congr hiff)
  obtain ⟨hok, hhas⟩ := tryDemote_spec hlaid
  refine ⟨hok, fun n => (hhas n).trans ?_⟩
  rw [← mem_members, hmembers, hiff]

/-- The empty small map is well formed. -/
theorem smallOk_nil : SmallOk [] :=
  ⟨Nat.zero_le _, fun _ hw => absurd hw List.not_mem_nil, fun _ hw => by cases hw⟩

/-- `sm_add` adds a number to a map in either form. -/
theorem add_spec (h : m.Ok) (hroom : idx + 2048 < 2 ^ 64) (hshort : Short fun n => m.Has n ∨ n = idx) :
    (add m idx).Ok ∧ ∀ n, (add m idx).Has n ↔ m.Has n ∨ n = idx := by
  have hsmall : ∀ {ws}, SmallOk ws → idx < smallMaxBits → (keepSmaller (smallAdd ws idx)).Ok ∧
      ∀ n, (keepSmaller (smallAdd ws idx)).Has n ↔ SmallHas ws n ∨ n = idx := by
    intro ws hws hidx
    obtain ⟨hok, hhas⟩ := smallAdd_spec hws hidx
    obtain ⟨hok', hhas'⟩ := keepSmaller_spec hok
    exact ⟨hok', fun n => (hhas' n).trans (hhas n)⟩
  match m, h, hshort with
  | .small ws, h, hshort =>
    unfold add
    dsimp only
    split_ifs with hidx
    · exact hsmall h hidx
    · obtain ⟨hlaid, hhas⟩ := promote_spec h
      obtain ⟨hok, hhas'⟩ :=
        tryDemote_mapSet hlaid hroom (hshort.congr fun n => or_congr_left (hhas n))
      exact ⟨hok, fun n => (hhas' n).trans (or_congr_left (hhas n))⟩
  | .chunked [], h, hshort =>
    unfold add
    dsimp only
    split_ifs with hidx
    · obtain ⟨hok, hhas⟩ := hsmall smallOk_nil hidx
      refine ⟨hok, fun n => (hhas n).trans (or_congr_left ?_)⟩
      exact iff_of_false (fun hn => absurd hn.lt_length (Nat.not_lt_zero _)) (not_has_nil n)
    · exact tryDemote_mapSet h hroom hshort
  | .chunked (c :: cs), h, hshort => exact tryDemote_mapSet h hroom hshort

/-- The runs of a small map. -/
theorem rawRuns_small (ws : List ℕ) : Ordered (rawRunsOf (.small ws)) ∧
    ∀ n, Covered (rawRunsOf (.small ws)) n ↔ SmallHas ws n := by
  have hvectors : ∀ k, Decodes ((List.range k).foldl (fun d i => decodeBits d (i * 64) (ws.getD i 0))
      ⟨none, []⟩) (k * 64) fun n => n < k * 64 ∧ SmallHas ws n := by
    intro k
    induction k with
    | zero => exact ⟨trivial, fun n => iff_of_false (not_covered_nil n) (by omega)⟩
    | succ k ih =>
      rw [List.range_succ, List.foldl_append, List.foldl_cons, List.foldl_nil]
      have hend : (k + 1) * 64 = k * 64 + 64 := by omega
      rw [hend]
      refine (decodeBits_spec ih le_rfl).congr fun n => ?_
      by_cases hin : k * 64 ≤ n ∧ n < k * 64 + 64
      · have hdiv : n / 64 = k := by omega
        have hmod : n % 64 = n - k * 64 := by omega
        rw [or_iff_right (by omega), SmallHas, hdiv, hmod]
        exact ⟨fun hn => ⟨hn.2.1, hn.2.2⟩, fun hn => ⟨hin.1, hn.1, hn.2⟩⟩
      · rw [or_iff_left (fun hn => hin ⟨hn.1, hn.2.1⟩)]
        apply and_congr_left
        omega
  obtain ⟨hdesc, hcov⟩ := hvectors ws.length
  refine ⟨hdesc.ordered, fun n => ?_⟩
  rw [rawRunsOf, covered_reverse, hcov]
  refine and_iff_right_of_imp fun hn => ?_
  have hlt := hn.lt_length
  omega

/-- The runs of a map in either form. -/
theorem rawRunsOf_spec (h : m.Ok) :
    Ordered (rawRunsOf m) ∧ Fits (rawRunsOf m) ∧ ∀ n, Covered (rawRunsOf m) n ↔ m.Has n := by
  cases m with
  | small ws =>
    obtain ⟨hord, hcov⟩ := rawRuns_small ws
    refine ⟨hord, fun r hr => ?_, hcov⟩
    have hlt := hord.1 r hr
    have hlast := ((hcov (r.2 - 1)).mp ⟨r, hr, by omega, by omega⟩).lt h
    omega
  | chunked cs =>
    obtain ⟨hord, hcov⟩ := rawRuns_spec h
    exact ⟨hord, fits_rawRuns h, hcov⟩

/-- `sm_add_many_grow` adds the numbers of an array to a map in either form. -/
theorem addMany_spec {arr : List ℕ} (h : m.Ok) (hroom : ∀ n ∈ arr, n + 2048 < 2 ^ 64)
    (hshort : Short fun n => m.Has n ∨ n ∈ arr) :
    (addMany m arr).Ok ∧ ∀ n, (addMany m arr).Has n ↔ m.Has n ∨ n ∈ arr := by
  match arr, hroom, hshort with
  | [], _, _ => exact ⟨h, fun n => (or_iff_left List.not_mem_nil).symm⟩
  | [idx], hroom, hshort =>
    have hone : ∀ n, m.Has n ∨ n ∈ [idx] ↔ m.Has n ∨ n = idx := fun n =>
      or_congr_right List.mem_singleton
    obtain ⟨hok, hhas⟩ := add_spec h (hroom idx (List.mem_singleton_self idx))
      (hshort.congr fun n => (hone n).symm)
    exact ⟨hok, fun n => (hhas n).trans (hone n).symm⟩
  | i :: j :: arr, hroom, hshort =>
    obtain ⟨hord, hfits, hcov⟩ := rawRunsOf_spec h
    have hiff : ∀ n, Covered (rawRunsOf m) n ∨ n ∈ i :: j :: arr ↔ m.Has n ∨ n ∈ i :: j :: arr :=
      fun n => or_congr_left (hcov n)
    obtain ⟨hlaid, hhas⟩ := addManyCore_spec hord hfits hroom (hshort.congr hiff)
    obtain ⟨hok, hhas'⟩ := tryDemote_spec hlaid
    exact ⟨hok, fun n => (hhas' n).trans ((hhas n).trans (hiff n))⟩

end

end PgTre.Sparsemap
