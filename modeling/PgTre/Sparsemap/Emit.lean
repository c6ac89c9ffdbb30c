import PgTre.Sparsemap.Union

/-!
# Runs through the emitter

`__sm_emit_run` of `src/util/sparsemap.c`, run after run. A run may start and end anywhere: what it has
of a window waits in the emitter, and the next run adds to it if it starts in the same window.
-/

namespace PgTre.Sparsemap

section

variable {e : Emitter} {acc : List Chunk} {words : ℕ → ℕ} {cap : ℕ → Bool} {P Q : ℕ → Prop}
  {f f' lo hi start full n : ℕ}

/-! ## The start of a run -/

/-- A shifted one has a single bit. -/
theorem testBit_shl_one {k j : ℕ} (hk : k < 64) : (shl 1 k).testBit j = decide (k = j) := by
  rw [shl, Nat.one_shiftLeft, Nat.mod_eq_of_lt (Nat.pow_lt_pow_right (by decide) hk),
    Nat.testBit_two_pow]

/-- The bits before the first whole block, one by one. -/
theorem testBit_headFold (chunkStart lo : ℕ) (hle : chunkStart ≤ lo) (k : ℕ) (w : ℕ → ℕ) (i : ℕ) {j : ℕ}
    (hj : j < 64) : (((List.range' lo k).foldl
      (fun w bit i => if i = (bit - chunkStart) / 64 then w i ||| shl 1 ((bit - chunkStart) % 64)
        else w i) w) i).testBit j =
      ((w i).testBit j || decide (lo ≤ chunkStart + 64 * i + j ∧
        chunkStart + 64 * i + j < lo + k)) := by
  induction k with
  | zero =>
    rw [List.range'_zero, List.foldl_nil, decide_eq_false (by omega), Bool.or_false]
  | succ k ih =>
    rw [List.range'_1_concat, List.foldl_append, List.foldl_cons, List.foldl_nil]
    have hbit := @testBit_shl_one ((lo + k - chunkStart) % 64) j (Nat.mod_lt _ (by decide))
    by_cases hi : i = (lo + k - chunkStart) / 64
    · rw [if_pos hi, Nat.testBit_or, ih, hbit, Bool.or_assoc, ← Bool.decide_or]
      congr 1
      rw [decide_eq_decide]
      omega
    · rw [if_neg hi, ih]
      congr 1
      rw [decide_eq_decide]
      omega

/-- The numbers that a run has before the first whole window. -/
theorem testBit_headWords {chunkStart headHi i j : ℕ} (hle : chunkStart ≤ lo) (hhi : lo ≤ headHi)
    (hj : j < 64) : (headWords chunkStart lo headHi i).testBit j =
      decide (lo ≤ chunkStart + 64 * i + j ∧ chunkStart + 64 * i + j < headHi) := by
  rw [headWords, testBit_headFold _ _ hle _ _ _ hj, Nat.zero_testBit, Bool.false_or,
    Nat.add_sub_cancel' hhi]

/-- The words of the head fit in 64 bits. -/
theorem headWords_lt (chunkStart lo headHi i : ℕ) : headWords chunkStart lo headHi i < 2 ^ 64 := by
  unfold headWords
  generalize List.range' lo (headHi - lo) = bits
  have hall : ∀ w : ℕ → ℕ, (∀ i, w i < 2 ^ 64) → ∀ i, (bits.foldl
      (fun w bit i => if i = (bit - chunkStart) / 64 then w i ||| shl 1 ((bit - chunkStart) % 64)
        else w i) w) i < 2 ^ 64 := by
    induction bits with
    | nil => exact fun w hw => hw
    | cons bit bits ih =>
      refine fun w hw => ih _ fun i => ?_
      dsimp only
      split_ifs
      · exact Nat.or_lt_two_pow (hw i) (shl_lt _ _)
      · exact hw i
  exact hall _ (fun _ => by decide) i

/-! ## What waits -/

/-- What was emitted so far, up to a number: the chunks, and the window that waits. -/
def Emits (e : Emitter) (f : ℕ) (P : ℕ → Prop) : Prop :=
  match e.pending with
  | none => Below f e.acc ∧ ∀ n, Has e.acc n ↔ P n
  | some (start, words, cap) =>
      2048 ∣ start ∧ start + 2048 < 2 ^ 64 ∧ start < f ∧ (∀ i < 32, cap i = true) ∧
        (∀ i < 32, words i < 2 ^ 64) ∧ Below start e.acc ∧
        ∀ n, Has e.acc n ∨ InWindow words start n ↔ P n

/-- What is emitted depends on the members alone. -/
theorem Emits.congr (h : Emits e f P) (hPQ : ∀ n, P n ↔ Q n) : Emits e f Q := by
  obtain ⟨acc, pending⟩ := e
  cases pending with
  | none => exact ⟨h.1, fun n => (h.2 n).trans (hPQ n)⟩
  | some window =>
    obtain ⟨hdvd, hlt, hin, hcap, hwords, hbelow, hhas⟩ := h
    exact ⟨hdvd, hlt, hin, hcap, hwords, hbelow, fun n => (hhas n).trans (hPQ n)⟩

/-- The bound of what is emitted may be raised. -/
theorem Emits.mono (h : Emits e f P) (hle : f ≤ f') : Emits e f' P := by
  obtain ⟨acc, pending⟩ := e
  cases pending with
  | none => exact ⟨h.1.mono hle, h.2⟩
  | some window =>
    obtain ⟨hdvd, hlt, hin, hrest⟩ := h
    exact ⟨hdvd, hlt, hin.trans_le hle, hrest⟩

/-- The chunks end before the window of a number that is after them. -/
theorem Below.of_window (h : Below f acc) (hstart : 2048 ∣ start) (hlt : f < start + 2048) :
    Below start acc := by
  cases acc with
  | nil => trivial
  | cons c acc =>
    have hdvd := h.1.dvd_stop
    have hle := h.2.1
    exact ⟨h.1, by omega, h.2.2⟩

/-- What waits is appended, before some other window. -/
theorem emitFlush_spec (h : Emits e f P) (hstart : 2048 ∣ start) (hlt : f < start + 2048)
    (hne : ∀ w ∈ e.pending, w.1 ≠ start) :
    Below start (emitFlush e).acc ∧ ∀ n, Has (emitFlush e).acc n ↔ P n := by
  obtain ⟨acc, pending⟩ := e
  cases pending with
  | none => exact ⟨h.1.of_window hstart hlt, h.2⟩
  | some window =>
    obtain ⟨estart, words, cap⟩ := window
    have hne' : estart ≠ start := hne _ rfl
    obtain ⟨hdvd, hend, hin, hcap, hwords, hbelow, hhas⟩ := h
    dsimp only at hdvd hend hin hcap hwords hbelow hhas
    obtain ⟨hbelow', hhas'⟩ := appendEncoded_appended hbelow le_rfl hdvd hend hcap hwords
    exact ⟨hbelow'.mono (by omega), fun n => (hhas' n).trans (hhas n)⟩

/-- What waits is no window after the last number. -/
theorem Emits.pending_ne (h : Emits e f P) (hle : f ≤ start) : ∀ w ∈ e.pending, w.1 ≠ start := by
  obtain ⟨acc, pending⟩ := e
  rintro w rfl
  have hin := h.2.2.1
  omega

/-- A window goes to the emitter, after what was emitted or into the window that waits. -/
theorem emitWords_spec (h : Emits e f P) (hstart : 2048 ∣ start) (hlt : f < start + 2048)
    (hend : start + 2048 < 2 ^ 64) (hwords : ∀ i < 32, words i < 2 ^ 64) (hf : start < f') :
    Emits (emitWords e start words fun _ => true) f' fun n => P n ∨ InWindow words start n := by
  obtain ⟨acc, pending⟩ := e
  cases pending with
  | none =>
    exact ⟨hstart, hend, hf, fun _ _ => rfl, hwords, h.1.of_window hstart hlt,
      fun n => or_congr_left (h.2 n)⟩
  | some window =>
    obtain ⟨estart, ewords, ecap⟩ := window
    unfold emitWords
    dsimp only
    by_cases hsame : estart = start
    · obtain ⟨hdvd, hend', hin, hcap, hwords', hbelow, hhas⟩ := h
      subst hsame
      rw [if_pos rfl]
      refine ⟨hdvd, hend', hf, fun i hi => Bool.or_true _, fun i hi => ?_, hbelow, fun n => ?_⟩
      · exact Nat.or_lt_two_pow (hwords' i hi) (hwords i hi)
      · exact (or_congr_right inWindow_or).trans (or_assoc.symm.trans (or_congr_left (hhas n)))
    · have hne : ∀ w ∈ (Emitter.mk acc (some (estart, ewords, ecap))).pending, w.1 ≠ start := by
        rintro w hw
        cases hw
        exact hsame
      obtain ⟨hbelow, hhas⟩ := emitFlush_spec h hstart hlt hne
      rw [if_neg hsame]
      exact ⟨hstart, hend, hf, fun _ _ => rfl, hwords, hbelow, fun n => or_congr_left (hhas n)⟩

/-- The whole windows of a run go to the emitter. -/
theorem emitWhole_spec (h : Emits e f P) (hf : f ≤ start) (hstart : 2048 ∣ start)
    (hfull : 2048 ∣ full) (hlt : full < 2 ^ 31) (hend : start + full < 2 ^ 64) :
    Emits (emitWhole e start full) (start + full) fun n => P n ∨ start ≤ n ∧ n < start + full := by
  unfold emitWhole
  by_cases hpos : 0 < full
  · rw [if_pos hpos]
    obtain ⟨hbelow, hhas⟩ := emitFlush_spec h hstart (by omega) (h.pending_ne hf)
    obtain ⟨hbelow', hhas'⟩ := appendRleChunk_appended hbelow le_rfl hstart hfull hpos hlt hend
    exact ⟨hbelow', fun n => (hhas' n).trans (or_congr_left (hhas n))⟩
  · rw [if_neg hpos]
    exact (h.mono (by omega)).congr fun n => (or_iff_left (by omega)).symm

/-- A run that starts where a window starts goes to the emitter. -/
theorem emitRle_spec {length : ℕ} (h : Emits e f P) (hf : f ≤ start) (hstart : 2048 ∣ start)
    (hlt : length < 2 ^ 31) (hend : start + length + 2047 < 2 ^ 64) :
    Emits (emitRle e start length) (start + length)
      fun n => P n ∨ start ≤ n ∧ n < start + length := by
  have hwhole := emitWhole_spec h hf hstart (dvd_mul_left 2048 (length / 2048)) (by omega) (by omega)
  unfold emitRle
  dsimp only
  by_cases hrem : length - length / 2048 * 2048 = 0
  · rw [if_pos hrem]
    exact (hwhole.mono (by omega)).congr fun n => or_congr_right (by omega)
  · rw [if_neg hrem]
    have hwords := @emitWords_spec _ (remWords (length - length / 2048 * 2048)) _
      (start + length / 2048 * 2048) (start + length) (start + length / 2048 * 2048) hwhole
      (by omega) (by omega) (by omega) (fun i _ => remWords_lt _ i) (by omega)
    refine hwords.congr fun n => or_assoc.trans (or_congr_right ?_)
    rw [InWindow, testBit_remWords _ (Nat.mod_lt _ (by decide)), decide_eq_true_eq]
    omega

/-- A run goes to the emitter, after what was emitted. -/
theorem emitRun_spec (h : Emits e f P) (hf : f ≤ lo) (hlt : hi - lo < 2 ^ 31)
    (hend : hi + 2047 < 2 ^ 64) (hne : lo < hi) :
    Emits (emitRun e lo hi) hi fun n => P n ∨ lo ≤ n ∧ n < hi := by
  unfold emitRun
  rw [if_neg (by omega)]
  dsimp only
  by_cases hhead : lo < (lo + 2047) / 2048 * 2048
  · have hmin : (if (lo + 2047) / 2048 * 2048 < hi then (lo + 2047) / 2048 * 2048 else hi) =
        min ((lo + 2047) / 2048 * 2048) hi := by
      split_ifs <;> omega
    rw [if_pos hhead]
    dsimp only
    rw [hmin]
    generalize hheadHi : min ((lo + 2047) / 2048 * 2048) hi = headHi
    have hwords := @emitWords_spec _ (headWords (lo - lo % 2048) lo headHi) _ f headHi
      (lo - lo % 2048) h (by omega) (by omega) (by omega) (fun i _ => headWords_lt _ _ _ i) (by omega)
    have hwords' : Emits (emitWords e (lo - lo % 2048) (headWords (lo - lo % 2048) lo headHi)
        fun _ => true) headHi fun n => P n ∨ lo ≤ n ∧ n < headHi := by
      refine hwords.congr fun n => or_congr_right ?_
      rw [InWindow, testBit_headWords (by omega) (by omega) (Nat.mod_lt _ (by decide)),
        decide_eq_true_eq]
      omega
    by_cases hdone : hi ≤ headHi
    · rw [if_pos hdone]
      exact (hwords'.mono (by omega)).congr fun n => or_congr_right (by omega)
    · rw [if_neg hdone]
      have hbody := @emitRle_spec _ _ headHi headHi (hi - headHi) hwords' le_rfl (by omega)
        (by omega) (by omega)
      exact (hbody.mono (by omega)).congr fun n => or_assoc.trans (or_congr_right (by omega))
  · rw [if_neg hhead]
    dsimp only
    rw [if_neg (by omega)]
    have hbody := @emitRle_spec _ _ f lo (hi - lo) h hf (by omega) hlt (by omega)
    exact (hbody.mono (by omega)).congr fun n => or_congr_right (by omega)

end

end PgTre.Sparsemap
