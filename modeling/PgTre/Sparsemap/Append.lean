import PgTre.Sparsemap.Windows
import Mathlib.Order.Interval.Finset.Nat

/-!
# The output of a set operation on sparsemaps

A set operation of `src/util/sparsemap.c` appends its chunks in ascending order. A run is cut at the
starts of chunks: whole chunks are appended in the run-length form, which the last chunk takes over
if it ends where the run starts, and what is left is appended as a sparse chunk.

The chunks appended so far are a list with the last one first.
-/

namespace PgTre.Sparsemap

/-! ## Full chunks -/

/-- The full vectors at the start of some vectors. -/
def leadingOnes : ℕ → ℕ → ℕ
  | 0, _ => 0
  | j + 1, w => if w % 4 = 3 then leadingOnes j (w / 4) + 1 else 0

/-- The bits set at the start of some bits. -/
def leadingBits : ℕ → ℕ → ℕ
  | 0, _ => 0
  | k + 1, v => if v % 2 = 1 then leadingBits k (v / 2) + 1 else 0

/-- No vector from `i` on has numbers. -/
def emptyFrom (desc i : ℕ) : Bool := (List.range 32).all fun j => j < i || flagsAt desc j < 2

/-- `__sm_chunk_get_run_length`. -/
def Chunk.runLength (c : Chunk) : ℕ :=
  if c.isRle then rleLength c.desc
  else if c.desc = 0 then 0
  else if c.desc = 2 ^ 64 - 1 then 2048
  else
    let full := leadingOnes 32 c.desc
    if full = 0 then 0
    else if 2 ≤ flagsAt c.desc full then
      let v := c.vecs.getD 0 0
      let bits := leadingBits 64 v
      if v / 2 ^ bits ≠ 0 then 0
      else if emptyFrom c.desc (full + 1) then 64 * full + bits else 0
    else if emptyFrom c.desc full then 64 * full else 0

/-- There are at most as many leading ones as slots asked for. -/
theorem leadingOnes_le (j w : ℕ) : leadingOnes j w ≤ j := by
  induction j generalizing w with
  | zero => rfl
  | succ j ih =>
    rw [leadingOnes]
    split_ifs
    · exact Nat.succ_le_succ (ih _)
    · exact Nat.zero_le _

/-- The flags of the next slot are those of the word shifted by one slot. -/
theorem flagsAt_succ (w i : ℕ) : flagsAt w (i + 1) = flagsAt (w / 4) i := by
  rw [flagsAt, flagsAt, pow_succ', ← Nat.div_div_eq_div_mul]

/-- A slot among the leading ones is full. -/
theorem flagsAt_of_lt_leadingOnes {j w i : ℕ} (h : i < leadingOnes j w) : flagsAt w i = 3 := by
  induction j generalizing w i with
  | zero => simp [leadingOnes] at h
  | succ j ih =>
    rw [leadingOnes] at h
    by_cases hw : w % 4 = 3
    · rw [if_pos hw] at h
      cases i with
      | zero => rw [flagsAt, pow_zero, Nat.div_one, hw]
      | succ i =>
        rw [flagsAt_succ]
        exact ih (by omega)
    · rw [if_neg hw] at h
      omega

/-- There are at most as many leading bits as asked for. -/
theorem leadingBits_le (k v : ℕ) : leadingBits k v ≤ k := by
  induction k generalizing v with
  | zero => rfl
  | succ k ih =>
    rw [leadingBits]
    split_ifs
    · exact Nat.succ_le_succ (ih _)
    · exact Nat.zero_le _

/-- A leading bit is set. -/
theorem testBit_of_lt_leadingBits {k v i : ℕ} (h : i < leadingBits k v) : v.testBit i = true := by
  induction k generalizing v i with
  | zero => simp [leadingBits] at h
  | succ k ih =>
    rw [leadingBits] at h
    by_cases hv : v % 2 = 1
    · rw [if_pos hv] at h
      cases i with
      | zero => rw [Nat.testBit_zero, hv, decide_eq_true rfl]
      | succ i =>
        rw [Nat.testBit_succ]
        exact ih (by omega)
    · rw [if_neg hv] at h
      omega

/-- A descriptor is full if all its vectors are. -/
theorem desc_eq_of_flags {desc : ℕ} (hlt : desc < 2 ^ 64) (h : ∀ i < 32, flagsAt desc i = 3) :
    desc = 2 ^ 64 - 1 := by
  have hmap : (List.range 32).map (flagsAt desc) = (List.range 32).map fun _ => 3 :=
    List.map_congr_left fun i hi => h i (List.mem_range.mp hi)
  have hpack := packFlags_flagsAt 32 (show desc < 4 ^ 32 from hlt)
  rw [hmap] at hpack
  rw [← hpack]
  decide

/-- The vector after the full ones is not full. -/
theorem flagsAt_leadingOnes {j w : ℕ} (h : leadingOnes j w < j) : flagsAt w (leadingOnes j w) ≠ 3 := by
  induction j generalizing w with
  | zero => exact absurd h (Nat.not_lt_zero _)
  | succ j ih =>
    rw [leadingOnes] at h ⊢
    by_cases hw : w % 4 = 3
    · rw [if_pos hw] at h ⊢
      rw [flagsAt_succ]
      exact ih (by omega)
    · rw [if_neg hw, flagsAt, pow_zero, Nat.div_one]
      exact hw

/-- A descriptor that is not full has fewer than 32 leading ones. -/
theorem leadingOnes_lt {desc : ℕ} (hlt : desc < 2 ^ 64) (hall : desc ≠ 2 ^ 64 - 1) :
    leadingOnes 32 desc < 32 := by
  refine lt_of_le_of_ne (leadingOnes_le 32 desc) fun hfull => ?_
  exact hall (desc_eq_of_flags hlt fun k hk =>
    flagsAt_of_lt_leadingOnes (lt_of_lt_of_eq hk hfull.symm))

/-- Behind the end no slot has bits. -/
theorem flagsAt_of_emptyFrom {desc i k : ℕ} (h : emptyFrom desc i = true) (hik : i ≤ k) (hk : k < 32) :
    flagsAt desc k < 2 := by
  have hat := List.all_eq_true.mp h k (List.mem_range.mpr hk)
  rw [Bool.or_eq_true, decide_eq_true_eq, decide_eq_true_eq] at hat
  omega

/-- The numbers of a sparse chunk that is a run. -/
theorem Chunk.Ok.testBit_of_runLength {c : Chunk} (hc : c.Ok) (h : ¬c.isRle) (hpos : 0 < c.runLength)
    {i j : ℕ} (hi : i < 32) (hj : j < 64) :
    (c.words i).testBit j = decide (64 * i + j < c.runLength) := by
  have hones : ∀ k, flagsAt c.desc k = 3 → (c.words k).testBit j = true := by
    intro k hk
    rw [Chunk.words, if_neg (by omega), if_pos hk, testBit_onesVector, decide_eq_true hj]
  have hzeros : ∀ k, flagsAt c.desc k < 2 → (c.words k).testBit j = false := by
    intro k hk
    rw [Chunk.words, if_neg (by omega), if_neg (by omega), Nat.zero_testBit]
  rw [Chunk.runLength, if_neg h] at hpos ⊢
  by_cases hzero : c.desc = 0
  · rw [if_pos hzero] at hpos
    exact absurd hpos (lt_irrefl 0)
  rw [if_neg hzero] at hpos ⊢
  by_cases hall : c.desc = 2 ^ 64 - 1
  · have hflags : ∀ k < 32, flagsAt (2 ^ 64 - 1) k = 3 := by decide
    rw [if_pos hall, hones i (hall ▸ hflags i hi), decide_eq_true (by omega)]
  rw [if_neg hall] at hpos ⊢
  dsimp only at hpos ⊢
  -- The run is full vectors and the ones at the start of the first stored vector.
  have hfull := leadingOnes_lt hc.desc_lt hall
  have hnot := flagsAt_leadingOnes hfull
  have hlead : ∀ k < leadingOnes 32 c.desc, flagsAt c.desc k = 3 :=
    fun k hk => flagsAt_of_lt_leadingOnes hk
  generalize leadingOnes 32 c.desc = full at hpos hfull hnot hlead ⊢
  have hflag := flagsAt_lt c.desc full
  by_cases hnone : full = 0
  · rw [if_pos hnone] at hpos
    exact absurd hpos (lt_irrefl 0)
  rw [if_neg hnone] at hpos ⊢
  by_cases hmixed : 2 ≤ flagsAt c.desc full
  · rw [if_pos hmixed] at hpos ⊢
    by_cases hgap : c.vecs.getD 0 0 / 2 ^ leadingBits 64 (c.vecs.getD 0 0) ≠ 0
    · rw [if_pos hgap] at hpos
      exact absurd hpos (lt_irrefl 0)
    rw [if_neg hgap] at hpos ⊢
    by_cases hempty : emptyFrom c.desc (full + 1) = true
    · rw [if_pos hempty]
      have hbits := leadingBits_le 64 (c.vecs.getD 0 0)
      rcases lt_trichotomy i full with hlt | rfl | hgt
      · rw [hones i (hlead i hlt), decide_eq_true (by omega)]
      · have hbefore : mixedBefore c.desc i = 0 := by
          rw [mixedBefore, List.countP_eq_zero]
          intro k hk
          rw [hlead k (List.mem_range.mp hk)]
          decide
        have hlt : c.vecs.getD 0 0 < 2 ^ leadingBits 64 (c.vecs.getD 0 0) := by
          rw [not_not, Nat.div_eq_zero_iff] at hgap
          exact hgap.resolve_left (Nat.two_pow_pos _).ne'
        rw [Chunk.words, if_pos (by omega), hbefore]
        by_cases hin : j < leadingBits 64 (c.vecs.getD 0 0)
        · rw [testBit_of_lt_leadingBits hin, decide_eq_true (by omega)]
        · rw [Nat.testBit_lt_two_pow (hlt.trans_le (Nat.pow_le_pow_right (by decide) (by omega))),
            decide_eq_false (by omega)]
      · rw [hzeros i (flagsAt_of_emptyFrom hempty hgt hi), decide_eq_false (by omega)]
    · rw [if_neg hempty] at hpos
      exact absurd hpos (lt_irrefl 0)
  · rw [if_neg hmixed] at hpos ⊢
    by_cases hempty : emptyFrom c.desc full = true
    · rw [if_pos hempty]
      by_cases hlt : i < full
      · rw [hones i (hlead i hlt), decide_eq_true (by omega)]
      · rw [hzeros i (flagsAt_of_emptyFrom hempty (by omega) hi), decide_eq_false (by omega)]
    · rw [if_neg hempty] at hpos
      exact absurd hpos (lt_irrefl 0)

/-- The run of a chunk fits in it. -/
theorem Chunk.Ok.runLength_le {c : Chunk} (hc : c.Ok) : c.runLength ≤ c.capacity := by
  by_cases hrle : c.isRle
  · rw [Chunk.runLength, if_pos hrle, Chunk.capacity_of_rle hrle]
    exact (hc.rle hrle).2.1
  · rw [hc.capacity_of_sparse hrle, Chunk.runLength, if_neg hrle]
    by_cases hall : c.desc = 2 ^ 64 - 1
    · split_ifs <;> omega
    · have hfull := leadingOnes_lt hc.desc_lt hall
      have hbits := leadingBits_le 64 (c.vecs.getD 0 0)
      dsimp only
      split_ifs <;> omega

/-- The numbers of a chunk that is a run. -/
theorem Chunk.Ok.holds_of_runLength {c : Chunk} (hc : c.Ok) (hpos : 0 < c.runLength) {n : ℕ} :
    c.Holds n ↔ c.start ≤ n ∧ n < c.start + c.runLength := by
  by_cases hrle : c.isRle
  · rw [hc.holds_of_rle hrle, Chunk.runLength, if_pos hrle]
  · have hle := hc.runLength_le
    rw [hc.capacity_of_sparse hrle] at hle
    rw [hc.holds_of_sparse hrle, InWindow]
    constructor
    · rintro ⟨hstart, hstop, hbit⟩
      rw [hc.testBit_of_runLength hrle hpos (by omega) (Nat.mod_lt _ (by decide)),
        decide_eq_true_eq] at hbit
      omega
    · rintro ⟨hstart, hlt⟩
      refine ⟨hstart, by omega, ?_⟩
      rw [hc.testBit_of_runLength hrle hpos (by omega) (Nat.mod_lt _ (by decide)),
        decide_eq_true_eq]
      omega

/-! ## Appending -/

/-- `__sm_append_rle_raw`. -/
def appendRleRaw (acc : List Chunk) (start capacity length : ℕ) : List Chunk :=
  ⟨start, rleDesc capacity length, []⟩ :: acc

/-- A run starts where the last chunk ends, and both fit into one chunk. -/
def Fuses (last : Chunk) (run start capacity length : ℕ) : Prop :=
  last.start + run = start ∧ run + length ≤ 0x7FFFFFFF ∧ start + capacity - last.start ≤ 0x7FFFFFFF

instance (last : Chunk) (run start capacity length : ℕ) :
    Decidable (Fuses last run start capacity length) := inferInstanceAs (Decidable (_ ∧ _ ∧ _))

/-- `__sm_append_rle_chunk`. A last chunk that is a run, or sparse and full, takes over the run. -/
def appendRleChunk : List Chunk → ℕ → ℕ → ℕ → List Chunk
  | [], start, capacity, length => appendRleRaw [] start capacity length
  | last :: acc, start, capacity, length =>
      if last.isRle then
        if Fuses last (rleLength last.desc) start capacity length then
          ⟨last.start, rleDesc (start + capacity - last.start) (rleLength last.desc + length),
            last.vecs⟩ :: acc
        else appendRleRaw (last :: acc) start capacity length
      else if last.runLength = last.capacity ∧ 0 < last.runLength ∧
          Fuses last last.runLength start capacity length then
        ⟨last.start, rleDesc (start + capacity - last.start) (last.runLength + length), []⟩ :: acc
      else appendRleRaw (last :: acc) start capacity length

/-- Appending what a window encodes to. -/
def appendEncoded (acc : List Chunk) : Option Chunk → List Chunk
  | none => acc
  | some c => c :: acc

/-- All vectors of a window are full. -/
def AllOnes (words : ℕ → ℕ) : Prop := ∀ i < 32, words i = onesVector

instance (words : ℕ → ℕ) : Decidable (AllOnes words) :=
  inferInstanceAs (Decidable (∀ i < 32, _))

/-- What `__sm_append_words_aligned` takes back: with `merge`, a last chunk with the same start. -/
def takeLast (acc : List Chunk) (wstart : ℕ) (w : ℕ → ℕ) (merge : Bool) :
    List Chunk × (ℕ → ℕ) :=
  match acc with
  | [] => ([], w)
  | last :: rest =>
      if merge = true ∧ last.start = wstart ∧ ¬last.isRle then
        (rest, fun i => w i ||| last.words i)
      else (last :: rest, w)

/-- `__sm_append_words_aligned`, and whether the window is full. -/
def appendWordsAligned (acc : List Chunk) (wstart : ℕ) (w : ℕ → ℕ) (merge : Bool) :
    List Chunk × Bool :=
  let last := takeLast acc wstart w merge
  if AllOnes last.2 then (appendRleChunk last.1 wstart 2048 2048, true)
  else (appendEncoded last.1 (encodeSparse wstart last.2 fun _ => true), false)

/-- `__sm_append_window_bits`. -/
def appendWindowBits (acc : List Chunk) (wstart lo hi : ℕ) (merge : Bool) : List Chunk × Bool :=
  appendWordsAligned acc wstart (windowLoop (lo - wstart) (hi - wstart) fun _ => 0) merge

/-- The largest capacity of a run. -/
def maxBody : ℕ := 0x7FFFFFFF / 2048 * 2048

/-- The whole chunks that one run holds. -/
def bodyPart (lo hi : ℕ) : ℕ := min ((hi - lo) / 2048 * 2048) maxBody

/-- A run of whole chunks is appended. Only the first may be taken over by the last chunk. -/
def appendRle (acc : List Chunk) (coalesce : Bool) (start full : ℕ) : List Chunk :=
  if coalesce then appendRleChunk acc start full full else appendRleRaw acc start full full

/-- The loop of `__sm_append_run`: the whole chunks, and where they end. -/
def appendBody (acc : List Chunk) (coalesce : Bool) (lo hi : ℕ) : List Chunk × ℕ :=
  if 2048 ≤ hi - lo then
    appendBody (appendRle acc coalesce lo (bodyPart lo hi)) false (lo + bodyPart lo hi) hi
  else (acc, lo)
termination_by hi - lo
decreasing_by
  unfold bodyPart maxBody
  omega

/-- `__sm_append_run`. -/
def appendRun (acc : List Chunk) (lo hi : ℕ) : List Chunk :=
  if hi ≤ lo then acc
  else
    let head := if lo % 2048 ≠ 0 then
        let wstart := lo - lo % 2048
        let headHi := if hi < wstart + 2048 then hi else wstart + 2048
        (appendWindowBits acc wstart lo headHi true, headHi)
      else ((acc, true), lo)
    let body := appendBody head.1.1 head.1.2 head.2 hi
    if hi ≤ body.2 then body.1 else (appendWindowBits body.1 body.2 body.2 hi false).1

/-! ## The emitter -/

/-- `__sm_emitter_t`: the chunks appended so far, and the window that waits. What its assertions
read is left out. -/
structure Emitter where
  acc : List Chunk
  pending : Option (ℕ × (ℕ → ℕ) × (ℕ → Bool))

/-- `__sm_emit_flush`. -/
def emitFlush (e : Emitter) : Emitter :=
  match e.pending with
  | none => e
  | some (start, words, cap) => ⟨appendEncoded e.acc (encodeSparse start words cap), none⟩

/-- `__sm_emit_words`. -/
def emitWords (e : Emitter) (start : ℕ) (words : ℕ → ℕ) (cap : ℕ → Bool) : Emitter :=
  match e.pending with
  | none => ⟨e.acc, some (start, words, cap)⟩
  | some (estart, ewords, ecap) =>
      if estart = start then
        ⟨e.acc, some (estart, fun i => if cap i then ewords i ||| words i else ewords i,
          fun i => ecap i || cap i)⟩
      else ⟨(emitFlush e).acc, some (start, words, cap)⟩

/-- The vectors of the part of a run that is left at its end. -/
def remWords (rem i : ℕ) : ℕ :=
  if 64 * i < rem then if 64 ≤ rem - 64 * i then onesVector else 2 ^ (rem - 64 * i) - 1 else 0

/-- The whole chunks of `__sm_emit_rle`. -/
def emitWhole (e : Emitter) (start full : ℕ) : Emitter :=
  if 0 < full then ⟨appendRleChunk (emitFlush e).acc start full full, none⟩ else e

/-- `__sm_emit_rle`. Its capacity is not read. -/
def emitRle (e : Emitter) (start length : ℕ) : Emitter :=
  let full := length / 2048 * 2048
  if length - full = 0 then emitWhole e start full
  else emitWords (emitWhole e start full) (start + full) (remWords (length - full)) fun _ => true

/-- The vectors of the part of a run that is left at its start, set a bit at a time. -/
def headWords (chunkStart lo headHi : ℕ) : ℕ → ℕ :=
  (List.range' lo (headHi - lo)).foldl
    (fun w bit i =>
      if i = (bit - chunkStart) / 64 then w i ||| shl 1 ((bit - chunkStart) % 64) else w i)
    fun _ => 0

/-- `__sm_emit_run`. -/
def emitRun (e : Emitter) (lo hi : ℕ) : Emitter :=
  if hi ≤ lo then e
  else
    let aligned := (lo + 2047) / 2048 * 2048
    let head := if lo < aligned then
        let headHi := if aligned < hi then aligned else hi
        let chunkStart := lo - lo % 2048
        (emitWords e chunkStart (headWords chunkStart lo headHi) fun _ => true, headHi)
      else (e, lo)
    if hi ≤ head.2 then head.1 else emitRle head.1 head.2 (hi - head.2)

/-- The mask of a cursor: the vectors before it are dropped, and the bits before it. -/
def maskFrom (words : ℕ → ℕ) (rel i : ℕ) : ℕ :=
  if i < rel / 64 then 0
  else if i = rel / 64 ∧ 0 < rel % 64 then words i &&& shl onesVector (rel % 64) else words i

/-- The mask of an end: the vectors after it are dropped, and the bits after it. -/
def maskTo (words : ℕ → ℕ) (rel i : ℕ) : ℕ :=
  if (rel + 63) / 64 ≤ i then 0
  else if i + 1 = (rel + 63) / 64 ∧ 0 < rel % 64 then words i &&& (2 ^ (rel % 64) - 1) else words i

/-- `__sm_emit_chunk_bits`. -/
def emitChunkBits (acc : List Chunk) (c : Chunk) (lo hi : ℕ) : List Chunk :=
  if hi ≤ lo then acc
  else if c.isRle then
    let setEnd := c.start + rleLength c.desc
    let emitStart := if c.start < lo then lo else c.start
    let emitEnd := if hi < setEnd then hi else setEnd
    if emitStart < emitEnd then (emitFlush (emitRun ⟨acc, none⟩ emitStart emitEnd)).acc else acc
  else
    appendEncoded acc (encodeSparse c.start
      (maskTo (maskFrom c.words (lo - c.start)) (hi - c.start))
      fun i => c.capFlags i && (lo - c.start) / 64 ≤ i && i < (hi - c.start + 63) / 64)

/-! ## The order of the output -/

/-- Some chunks hold a number. -/
def Has (cs : List Chunk) (n : ℕ) : Prop := ∃ c ∈ cs, c.Holds n

/-- The chunks appended so far are in order, and end before a number. -/
def Below : ℕ → List Chunk → Prop
  | _, [] => True
  | f, c :: acc => c.Ok ∧ c.stop ≤ f ∧ Below c.start acc

/-- Appending some numbers to the chunks keeps the order. -/
def Appended (acc : List Chunk) (P : ℕ → Prop) (f : ℕ) (acc' : List Chunk) : Prop :=
  Below f acc' ∧ ∀ n, Has acc' n ↔ Has acc n ∨ P n

section

variable {acc acc' acc'' : List Chunk} {c : Chunk} {P Q : ℕ → Prop} {f f' n start full : ℕ}

/-- No chunk, no number. -/
theorem not_has_nil (n : ℕ) : ¬Has [] n := by
  rintro ⟨c, hc, -⟩
  cases hc

/-- A list of chunks has the numbers of the first and of the others. -/
@[simp] theorem has_cons : Has (c :: acc) n ↔ c.Holds n ∨ Has acc n := by
  unfold Has
  rw [List.exists_mem_cons_iff]

/-- Two lists of chunks have the numbers of both. -/
theorem has_append : Has (acc ++ acc') n ↔ Has acc n ∨ Has acc' n := by
  unfold Has
  simp only [List.mem_append, or_and_right, exists_or]

/-- The numbers of some chunks. -/
def members (cs : List Chunk) : Finset ℕ :=
  cs.foldr (fun c s => ((Finset.range c.stop).filter fun n => c.Holds n) ∪ s) ∅

/-- The members are the numbers the chunks have. -/
theorem mem_members : n ∈ members acc ↔ Has acc n := by
  induction acc with
  | nil => simp [members, not_has_nil]
  | cons c acc ih =>
    have hcons : members (c :: acc) =
        ((Finset.range c.stop).filter fun n => c.Holds n) ∪ members acc := rfl
    rw [hcons, Finset.mem_union, Finset.mem_filter, Finset.mem_range, has_cons, ih]
    apply or_congr_left
    exact ⟨fun hn => hn.2, fun hn => ⟨hn.2.1, hn⟩⟩

/-- What lies below a bound lies below a larger one. -/
theorem Below.mono (h : Below f acc) (hle : f ≤ f') : Below f' acc := by
  cases acc with
  | nil => trivial
  | cons c acc => exact ⟨h.1, h.2.1.trans hle, h.2.2⟩

/-- Appended chunks lie below the new bound. -/
theorem Appended.below (h : Appended acc P f acc') : Below f acc' := h.1

/-- The new bound may be raised. -/
theorem Appended.mono (h : Appended acc P f acc') (hle : f ≤ f') : Appended acc P f' acc' :=
  ⟨h.1.mono hle, h.2⟩

/-- The numbers that are appended may be described in another way. -/
theorem Appended.congr (h : Appended acc P f acc') (hPQ : ∀ n, P n ↔ Q n) :
    Appended acc Q f acc' :=
  ⟨h.1, fun n => by rw [h.2, hPQ]⟩

/-- Appending composes. -/
theorem Appended.trans (h : Appended acc P f acc') (h' : Appended acc' Q f' acc'') :
    Appended acc (fun n => P n ∨ Q n) f' acc'' :=
  ⟨h'.1, fun n => by rw [h'.2, h.2, or_assoc]⟩

/-- Nothing is appended. -/
theorem Below.appended (h : Below f acc) (hP : ∀ n, ¬P n) : Appended acc P f acc :=
  ⟨h, fun n => by simp [hP n]⟩

/-- A chunk is appended. -/
theorem Below.appended_cons (h : Below f acc) (hc : c.Ok) (hf : f ≤ c.start) :
    Appended acc c.Holds c.stop (c :: acc) :=
  ⟨⟨hc, le_rfl, h.mono hf⟩, fun n => by rw [has_cons, or_comm]⟩

/-- A chunk in the run-length form. -/
theorem ok_rle {capacity length : ℕ} (hstart : 2048 ∣ start) (hcapacity : 2048 ∣ capacity)
    (hpos : 0 < length) (hle : length ≤ capacity) (hlt : capacity < 2 ^ 31)
    (hstop : start + capacity < 2 ^ 64) :
    Chunk.Ok ⟨start, rleDesc capacity length, []⟩ ∧
      Chunk.stop ⟨start, rleDesc capacity length, []⟩ = start + capacity ∧
      ∀ n, Chunk.Holds ⟨start, rleDesc capacity length, []⟩ n ↔ start ≤ n ∧ n < start + length := by
  have hrle : Chunk.isRle ⟨start, rleDesc capacity length, []⟩ := flagsAt_rleDesc _ _
  have hcap : Chunk.capacity ⟨start, rleDesc capacity length, []⟩ = capacity := by
    rw [Chunk.capacity_of_rle hrle]
    exact rleCapacity_rleDesc _ hlt
  have hlen := rleLength_rleDesc capacity (hle.trans_lt hlt)
  have hholds : ∀ n, Chunk.Holds ⟨start, rleDesc capacity length, []⟩ n ↔
      start ≤ n ∧ n < start + length := by
    intro n
    rw [Chunk.Holds, Chunk.stop, hcap, Chunk.isSet, if_pos hrle, decide_eq_true_eq]
    dsimp only
    rw [hlen]
    omega
  refine ⟨⟨hstart, ?_, rleDesc_lt _ _, ?_, fun h => absurd hrle h, fun h => absurd hrle h, ?_,
    start, (hholds _).mpr ⟨le_rfl, by omega⟩⟩, ?_, hholds⟩
  · rw [Chunk.stop, hcap]
    exact hstop
  · intro _
    dsimp only
    rw [rleCapacity_rleDesc _ hlt, hlen]
    exact ⟨hcapacity, hle, rfl⟩
  · intro v hv
    cases hv
  · rw [Chunk.stop, hcap]

/-- A full run of whole blocks is appended as one chunk. -/
theorem appendRleRaw_appended (h : Below f acc) (hf : f ≤ start) (hstart : 2048 ∣ start)
    (hfull : 2048 ∣ full) (hpos : 0 < full) (hlt : full < 2 ^ 31) (hstop : start + full < 2 ^ 64) :
    Appended acc (fun n => start ≤ n ∧ n < start + full) (start + full)
      (appendRleRaw acc start full full) := by
  obtain ⟨hok, hend, hholds⟩ := ok_rle hstart hfull hpos le_rfl hlt hstop
  have happ := h.appended_cons hok hf
  rw [hend] at happ
  exact happ.congr hholds

/-- A last chunk that is full up to the start of a run takes over the run. -/
theorem fuse_appended {run : ℕ} (h : Below f (c :: acc)) (hstart : 2048 ∣ start) (hfull : 2048 ∣ full)
    (hpos : 0 < full) (hstop : start + full < 2 ^ 64) (hrun : 0 < run)
    (hfuse : Fuses c run start full full)
    (hholds : ∀ n, c.Holds n ↔ c.start ≤ n ∧ n < c.start + run) :
    Appended (c :: acc) (fun n => start ≤ n ∧ n < start + full) (start + full)
      (⟨c.start, rleDesc (start + full - c.start) (run + full), []⟩ :: acc) := by
  obtain ⟨hc, hcstop, hacc⟩ := h
  obtain ⟨heq, hlen, hcap⟩ := hfuse
  have haligned := hc.aligned
  obtain ⟨hok, hend, hnew⟩ := @ok_rle c.start (start + full - c.start) (run + full) haligned
    (by omega) (by omega) (by omega) (by omega) (by omega)
  refine ⟨⟨hok, by rw [hend]; omega, hacc⟩, fun n => ?_⟩
  rw [has_cons, has_cons, hnew, hholds, or_right_comm]
  apply or_congr_left
  omega

/-- A run of whole chunks is appended, or taken over by the last chunk. -/
theorem appendRleChunk_appended (h : Below f acc) (hf : f ≤ start) (hstart : 2048 ∣ start)
    (hfull : 2048 ∣ full) (hpos : 0 < full) (hlt : full < 2 ^ 31) (hstop : start + full < 2 ^ 64) :
    Appended acc (fun n => start ≤ n ∧ n < start + full) (start + full)
      (appendRleChunk acc start full full) := by
  have hraw := appendRleRaw_appended h hf hstart hfull hpos hlt hstop
  cases acc with
  | nil => exact hraw
  | cons last acc =>
    have hlast := h.1
    rw [appendRleChunk]
    by_cases hrle : last.isRle
    · rw [if_pos hrle]
      by_cases hfuse : Fuses last (rleLength last.desc) start full full
      · have hholds := fun n => @Chunk.Ok.holds_of_rle last n hlast hrle
        have hrun : 0 < rleLength last.desc := by
          obtain ⟨n, hn⟩ := hlast.nonempty
          rw [hholds] at hn
          omega
        rw [if_pos hfuse, (hlast.rle hrle).2.2]
        exact fuse_appended h hstart hfull hpos hstop hrun hfuse hholds
      · rw [if_neg hfuse]
        exact hraw
    · rw [if_neg hrle]
      by_cases hfuse : last.runLength = last.capacity ∧ 0 < last.runLength ∧
          Fuses last last.runLength start full full
      · obtain ⟨hcap, hrun, hfuse'⟩ := hfuse
        have hlen : last.runLength = 2048 := by rw [hcap, hlast.capacity_of_sparse hrle]
        rw [if_pos ⟨hcap, hrun, hfuse'⟩]
        refine fuse_appended h hstart hfull hpos hstop hrun hfuse' fun n => ?_
        rw [hlast.holds_of_sparse hrle, hlen]
        constructor
        · rintro ⟨hs, he, -⟩
          exact ⟨hs, he⟩
        · rintro ⟨hs, he⟩
          refine ⟨hs, he, ?_⟩
          rw [hlast.testBit_of_runLength hrle (by omega) (by omega) (Nat.mod_lt _ (by decide)),
            decide_eq_true_eq]
          omega
      · rw [if_neg hfuse]
        exact hraw

section

variable {words : ℕ → ℕ}

/-- A window is appended as a sparse chunk, if it has numbers. -/
theorem appendEncoded_appended {cap : ℕ → Bool} (h : Below f acc) (hf : f ≤ start)
    (hstart : 2048 ∣ start) (hstop : start + 2048 < 2 ^ 64) (hcap : ∀ i < 32, cap i = true)
    (hw : ∀ i < 32, words i < 2 ^ 64) :
    Appended acc (InWindow words start) (start + 2048)
      (appendEncoded acc (encodeSparse start words cap)) := by
  cases henc : encodeSparse start words cap with
  | none =>
    exact (h.mono (hf.trans (Nat.le_add_right _ _))).appended fun n => encodeSparse_eq_none hcap henc
  | some c =>
    obtain ⟨hc, hcstart, hcstop, -, hholds⟩ := encodeSparse_eq_some hcap hw hstart hstop henc
    have happ := h.appended_cons hc (hcstart ▸ hf)
    rw [hcstop] at happ
    exact happ.congr hholds

/-- A window is appended, as a run if it is full. -/
theorem appendWordsAligned_appended (h : Below f acc) (hf : f ≤ start) (hstart : 2048 ∣ start)
    (hstop : start + 2048 < 2 ^ 64) (hw : ∀ i < 32, words i < 2 ^ 64) :
    Appended acc (InWindow words start) (start + 2048)
      (appendWordsAligned acc start words false).1 := by
  have hlast : takeLast acc start words false = (acc, words) := by
    cases acc with
    | nil => rfl
    | cons last rest =>
      rw [takeLast, if_neg]
      rintro ⟨hmerge, -⟩
      cases hmerge
  unfold appendWordsAligned
  rw [hlast]
  dsimp only
  by_cases hones : AllOnes words
  · rw [if_pos hones]
    refine (appendRleChunk_appended h hf hstart (dvd_refl 2048) (by decide) (by decide)
      hstop).congr fun n => ?_
    constructor
    · rintro ⟨hs, he⟩
      refine ⟨hs, he, ?_⟩
      rw [hones _ (by omega), testBit_onesVector, decide_eq_true (Nat.mod_lt _ (by decide))]
    · rintro ⟨hs, he, -⟩
      exact ⟨hs, he⟩
  · rw [if_neg hones]
    exact appendEncoded_appended h hf hstart hstop (fun _ _ => rfl) hw

end

/-- The numbers of one window are appended. -/
theorem appendWindowBits_appended {hi : ℕ} (h : Below f acc) (hf : f ≤ start)
    (hstart : 2048 ∣ start) (hstop : start + 2048 < 2 ^ 64) (hhi : hi ≤ start + 2048) :
    Appended acc (fun n => start ≤ n ∧ n < hi) (start + 2048)
      (appendWindowBits acc start start hi false).1 := by
  rw [appendWindowBits]
  refine (appendWordsAligned_appended h hf hstart hstop fun i _ =>
    windowLoop_lt (fun _ => by decide) i).congr fun n => ?_
  rw [InWindow, testBit_windowLoop _ _ _ (Nat.mod_lt _ (by decide)), Nat.zero_testBit,
    Bool.false_or, decide_eq_true_eq]
  omega

/-- The whole chunks that one run holds fit into its descriptor. -/
theorem bodyPart_spec {lo hi : ℕ} (hbig : 2048 ≤ hi - lo) :
    2048 ∣ bodyPart lo hi ∧ 0 < bodyPart lo hi ∧ bodyPart lo hi < 2 ^ 31 ∧
      bodyPart lo hi ≤ hi - lo := by
  unfold bodyPart maxBody
  omega

/-- The whole chunks of a run are appended. -/
theorem appendBody_appended {lo hi : ℕ} (coalesce : Bool) (h : Below f acc) (hf : f ≤ lo)
    (hlo : 2048 ∣ lo) (hle : lo ≤ hi) (hstop : hi < 2 ^ 64) :
    Appended acc (fun n => lo ≤ n ∧ n < (appendBody acc coalesce lo hi).2)
        (appendBody acc coalesce lo hi).2 (appendBody acc coalesce lo hi).1 ∧
      2048 ∣ (appendBody acc coalesce lo hi).2 ∧ lo ≤ (appendBody acc coalesce lo hi).2 ∧
      (appendBody acc coalesce lo hi).2 ≤ hi ∧ hi < (appendBody acc coalesce lo hi).2 + 2048 := by
  induction acc, coalesce, lo using appendBody.induct hi generalizing f with
  | case1 acc coalesce lo hbig ih =>
    obtain ⟨hfull, hpos, hlt, hbody⟩ := bodyPart_spec hbig
    have hstep : Appended acc (fun n => lo ≤ n ∧ n < lo + bodyPart lo hi) (lo + bodyPart lo hi)
        (appendRle acc coalesce lo (bodyPart lo hi)) := by
      cases coalesce with
      | true => exact appendRleChunk_appended h hf hlo hfull hpos hlt (by omega)
      | false => exact appendRleRaw_appended h hf hlo hfull hpos hlt (by omega)
    obtain ⟨happ, hdvd, hge, hend, hend'⟩ :=
      ih hstep.below le_rfl (dvd_add hlo hfull) (by omega)
    rw [appendBody, if_pos hbig]
    refine ⟨(hstep.trans happ).congr fun n => ?_, hdvd, by omega, hend, hend'⟩
    omega
  | case2 acc coalesce lo hsmall =>
    rw [appendBody, if_neg hsmall]
    exact ⟨(h.mono hf).appended fun n => by omega, hlo, le_rfl, hle, by omega⟩

/-- A run that starts where a chunk starts is appended. -/
theorem appendRun_appended {lo hi stop : ℕ} (h : Below f acc) (hf : f ≤ lo) (hlo : 2048 ∣ lo)
    (hlt : lo < hi) (hstop : 2048 ∣ stop) (hhi : hi ≤ stop) (hend : stop < 2 ^ 64) :
    Appended acc (fun n => lo ≤ n ∧ n < hi) stop (appendRun acc lo hi) := by
  have hmod : ¬lo % 2048 ≠ 0 := not_not.mpr (Nat.mod_eq_zero_of_dvd hlo)
  unfold appendRun
  rw [if_neg (by omega), if_neg hmod]
  obtain ⟨hbody, hdvd, hge, hle, hlt'⟩ :=
    appendBody_appended true h hf hlo hlt.le (hhi.trans_lt hend)
  dsimp only
  by_cases hdone : hi ≤ (appendBody acc true lo hi).2
  · rw [if_pos hdone]
    exact (hbody.mono (hle.trans hhi)).congr fun n => by omega
  · rw [if_neg hdone]
    have htail := appendWindowBits_appended hbody.below le_rfl hdvd (by omega) hlt'.le
    exact ((hbody.trans htail).mono (by omega)).congr fun n => by omega

/-- The remaining words have the bits below the remainder. -/
theorem testBit_remWords (rem : ℕ) {i j : ℕ} (hj : j < 64) :
    (remWords rem i).testBit j = decide (64 * i + j < rem) := by
  unfold remWords
  by_cases hin : 64 * i < rem
  · rw [if_pos hin]
    by_cases hfull : 64 ≤ rem - 64 * i
    · rw [if_pos hfull, testBit_onesVector, decide_eq_decide]
      omega
    · rw [if_neg hfull, Nat.testBit_two_pow_sub_one, decide_eq_decide]
      omega
  · rw [if_neg hin, Nat.zero_testBit, decide_eq_false (by omega)]

/-- The remaining words fit in 64 bits. -/
theorem remWords_lt (rem i : ℕ) : remWords rem i < 2 ^ 64 := by
  unfold remWords
  split_ifs with hin hfull
  · decide
  · have hpow : 2 ^ (rem - 64 * i) ≤ 2 ^ 64 := Nat.pow_le_pow_right (by decide) (by omega)
    have hpos := Nat.two_pow_pos (rem - 64 * i)
    omega
  · decide

/-- The whole chunks of a run go through the emitter. -/
theorem emitWhole_appended (h : Below f acc) (hf : f ≤ start) (hstart : 2048 ∣ start)
    (hfull : 2048 ∣ full) (hlt : full < 2 ^ 31) (hstop : start + full < 2 ^ 64) :
    ∃ acc', emitWhole ⟨acc, none⟩ start full = ⟨acc', none⟩ ∧
      Appended acc (fun n => start ≤ n ∧ n < start + full) (start + full) acc' := by
  unfold emitWhole
  by_cases hpos : 0 < full
  · rw [if_pos hpos]
    exact ⟨_, rfl, appendRleChunk_appended h hf hstart hfull hpos hlt hstop⟩
  · rw [if_neg hpos]
    exact ⟨acc, rfl, (h.mono (by omega)).appended fun n => by omega⟩

/-- A run that starts where a chunk starts goes through the emitter. -/
theorem emitRun_appended {lo hi stop : ℕ} (h : Below f acc) (hf : f ≤ lo) (hlo : 2048 ∣ lo)
    (hlt : lo < hi) (hlen : hi - lo < 2 ^ 31) (hstop : 2048 ∣ stop) (hhi : hi ≤ stop)
    (hend : stop < 2 ^ 64) :
    Appended acc (fun n => lo ≤ n ∧ n < hi) stop (emitFlush (emitRun ⟨acc, none⟩ lo hi)).acc := by
  have haligned : ¬lo < (lo + 2047) / 2048 * 2048 := by omega
  obtain ⟨acc', hwhole, happ⟩ := @emitWhole_appended acc f lo ((hi - lo) / 2048 * 2048) h hf hlo
    (dvd_mul_left _ _) (by omega) (by omega)
  have hemit : emitRun ⟨acc, none⟩ lo hi = emitRle ⟨acc, none⟩ lo (hi - lo) := by
    unfold emitRun
    rw [if_neg (by omega)]
    dsimp only
    rw [if_neg haligned]
    exact if_neg (by omega)
  rw [hemit]
  unfold emitRle
  dsimp only
  rw [hwhole]
  by_cases hrem : hi - lo - (hi - lo) / 2048 * 2048 = 0
  · rw [if_pos hrem]
    exact (happ.mono (by omega)).congr fun n => by omega
  · rw [if_neg hrem]
    have htail := appendEncoded_appended happ.below le_rfl (by omega) (by omega)
      (fun _ _ => rfl) fun i _ => remWords_lt (hi - lo - (hi - lo) / 2048 * 2048) i
    refine ((happ.trans htail).mono (by omega)).congr fun n => ?_
    rw [InWindow, testBit_remWords _ (Nat.mod_lt _ (by decide)), decide_eq_true_eq]
    omega

/-- What is left of a run from a cursor on is emitted. -/
theorem emitChunkBits_appended {lo hi : ℕ} (h : Below f acc) (hf : f ≤ lo) (hc : c.Ok)
    (hrle : c.isRle) (hlo : 2048 ∣ lo) (hhi : 2048 ∣ hi) (hle : lo ≤ hi) (hstop : hi ≤ c.stop) :
    Appended acc (fun n => c.Holds n ∧ lo ≤ n ∧ n < hi) hi (emitChunkBits acc c lo hi) := by
  have hholds := fun n => @Chunk.Ok.holds_of_rle c n hc hrle
  have hlen : rleLength c.desc < 2 ^ 31 := Nat.mod_lt _ (by decide)
  have hlt := hc.stop_lt
  have haligned := hc.aligned
  unfold emitChunkBits
  by_cases hempty : hi ≤ lo
  · rw [if_pos hempty]
    exact (h.mono (hf.trans hle)).appended fun n => by omega
  rw [if_neg hempty, if_pos hrle]
  dsimp only
  by_cases hsome : (if c.start < lo then lo else c.start) <
      if hi < c.start + rleLength c.desc then hi else c.start + rleLength c.desc
  · rw [if_pos hsome]
    refine (emitRun_appended h ?_ ?_ hsome ?_ hhi ?_ ?_).congr fun n => ?_
    · split_ifs <;> omega
    · split_ifs <;> omega
    · split_ifs <;> omega
    · split_ifs <;> omega
    · omega
    · rw [hholds]
      split_ifs <;> omega
  · rw [if_neg hsome]
    refine (h.mono (hf.trans hle)).appended fun n => ?_
    rw [hholds]
    split_ifs at hsome <;> omega

end

end PgTre.Sparsemap
