import PgTre.Sparsemap.Union

/-!
# Runs that grow together

`__sm_coalesce_chunk` and `__sm_coalesce_map` of `src/util/sparsemap.c`. A chunk that is one run goes
into the run that ends where it starts, and takes over the run that starts where it ends. The map has
the numbers it had, if no run has more numbers than a run-length chunk has room for.

A place in a map is given by the chunks before it, with the last one first, and those after it.
-/

namespace PgTre.Sparsemap

/-! ## Joining runs -/

/-- `SM_CHUNK_RLE_MAX_LENGTH` and `SM_CHUNK_RLE_MAX_CAPACITY`. -/
def rleMax : ℕ := 0x7FFFFFFF

/-- `__sm_chunk_rle_capacity_limit`: room for a run up to the end of a window, and not into the next
chunk. -/
def rleCapacityLimit (start length : ℕ) (next : Option Chunk) : ℕ :=
  let aligned := (start + length + 2047) / 2048 * 2048 - start
  let limited := match next with
    | some d => if d.start - start < aligned then d.start - start else aligned
    | none => aligned
  let enough := if limited < length then length else limited
  if rleMax < enough then rleMax else enough

/-- The run of a chunk and of the first numbers of the one that starts where it ends. -/
def joinRuns (a b : Chunk) (blen : ℕ) (next : Option Chunk) : Option Chunk :=
  let length := b.start + blen - a.start
  let capacity := rleCapacityLimit a.start length next
  if capacity < length then none else some ⟨a.start, rleDesc capacity length, []⟩

/-- `__sm_coalesce_chunk` with the chunk before. The search for the last number before the chunk finds
the chunk before only if it has room for it. -/
def coalesceLeft (before : List Chunk) (c : Chunk) (after : List Chunk) :
    Option (List Chunk × Chunk) :=
  match before with
  | [] => none
  | a :: before =>
      if c.start - 1 < a.stop ∧ 0 < a.runLength ∧ a.start + a.runLength = c.start ∧
          2048 + c.runLength < rleMax ∧ ¬(a.isRle ∧ a.capacity < a.runLength) then
        (joinRuns a c c.runLength after.head?).map fun d => (before, d)
      else none

/-- The length of the run after a chunk. When a number was set, the run counts up to it. -/
def nextRunLength (b : Chunk) : Option ℕ → ℕ
  | none => b.runLength
  | some idx =>
      if b.start ≤ idx ∧ idx - b.start + 1 < b.runLength then idx - b.start + 1 else b.runLength

/-- `__sm_coalesce_chunk` with the chunk after. -/
def coalesceRight (c : Chunk) (after : List Chunk) (idx : Option ℕ) :
    Option (Chunk × List Chunk) :=
  match after with
  | [] => none
  | b :: after =>
      let blen := nextRunLength b idx
      if (c.isRle ∨ c.desc = 2 ^ 64 - 1) ∧ blen ≠ 0 ∧ c.start + c.runLength = b.start ∧
          blen + c.runLength < rleMax ∧ ¬(b.isRle ∧ b.capacity < blen) then
        (joinRuns c b blen after.head?).map fun d => (d, after)
      else none

/-- `__sm_coalesce_chunk`: a chunk, those before and those after it. -/
def coalesceChunk (before : List Chunk) (c : Chunk) (after : List Chunk) (idx : Option ℕ) :
    List Chunk × Chunk × List Chunk :=
  if c.runLength = 0 ∨ (c.isRle ∧ c.capacity < c.runLength) then (before, c, after)
  else
    let left := (coalesceLeft before c after).getD (before, c)
    let right := (coalesceRight left.2 after idx).getD (left.2, after)
    (left.1, right)

section

variable {a b c d : Chunk} {before after : List Chunk} {idx next : Option ℕ}

/-- Joining to the left takes one chunk from the left. -/
theorem length_coalesceLeft {r : List Chunk × Chunk} (h : coalesceLeft before c after = some r) :
    r.1.length + 1 = before.length := by
  cases before with
  | nil => cases h
  | cons a before =>
    rw [coalesceLeft] at h
    split_ifs at h
    obtain ⟨d, -, rfl⟩ := Option.map_eq_some_iff.mp h
    rfl

/-- Joining to the right takes one chunk from the right. -/
theorem length_coalesceRight {r : Chunk × List Chunk} (h : coalesceRight c after idx = some r) :
    r.2.length + 1 = after.length := by
  cases after with
  | nil => cases h
  | cons b after =>
    rw [coalesceRight] at h
    split_ifs at h
    obtain ⟨d, -, rfl⟩ := Option.map_eq_some_iff.mp h
    rfl

/-- No chunk is added on either side. -/
theorem length_coalesceChunk (before : List Chunk) (c : Chunk) (after : List Chunk)
    (idx : Option ℕ) : (coalesceChunk before c after idx).1.length ≤ before.length ∧
      before.length ≤ (coalesceChunk before c after idx).1.length + 1 ∧
      (coalesceChunk before c after idx).2.2.length ≤ after.length := by
  unfold coalesceChunk
  split_ifs
  · exact ⟨le_rfl, Nat.le_succ _, le_rfl⟩
  · dsimp only
    have hleft : ((coalesceLeft before c after).getD (before, c)).1.length ≤ before.length ∧
        before.length ≤ ((coalesceLeft before c after).getD (before, c)).1.length + 1 := by
      cases hl : coalesceLeft before c after with
      | none => exact ⟨le_rfl, Nat.le_succ _⟩
      | some r =>
        have hlen := length_coalesceLeft hl
        rw [Option.getD_some]
        omega
    refine ⟨hleft.1, hleft.2, ?_⟩
    generalize (coalesceLeft before c after).getD (before, c) = left
    cases hr : coalesceRight left.2 after idx with
    | none => exact le_rfl
    | some r =>
      have hlen := length_coalesceRight hr
      rw [Option.getD_some]
      omega

end

/-- The loop of `__sm_coalesce_map`. The count of chunks is taken anew whenever some are joined, and
the loop also ends behind the last chunk. -/
def coalesceLoop (count : ℕ) (before rest : List Chunk) : List Chunk :=
  if count ≤ 1 then before.reverse ++ rest
  else
    match rest with
    | [] => before.reverse
    | c :: after =>
        let r := coalesceChunk before c after none
        let total := r.1.length + 1 + r.2.2.length
        if r.1.length < before.length then coalesceLoop total (r.2.1 :: r.1) r.2.2
        else if r.2.2.length < after.length then coalesceLoop total r.1 (r.2.1 :: r.2.2)
        else coalesceLoop (count - 1) (c :: before) after
termination_by before.length + 2 * rest.length
decreasing_by
  all_goals
    have hlen := length_coalesceChunk before c after none
    have hbefore : r.1.length = (coalesceChunk before c after none).1.length := rfl
    have hafter : r.2.2.length = (coalesceChunk before c after none).2.2.length := rfl
    simp only [List.length_cons]
    omega

/-- `__sm_coalesce_map`. -/
def coalesceMap (cs : List Chunk) : List Chunk := coalesceLoop cs.length [] cs

/-! ## Joined runs keep the map -/

/-- No run of the numbers is longer than a run-length chunk can be. -/
def Short (P : ℕ → Prop) : Prop := ∀ lo hi, (∀ n, lo ≤ n → n < hi → P n) → hi - lo ≤ 2 ^ 31 - 2048

section

variable {a b c d : Chunk} {before after xs ys cs : List Chunk} {start length blen n : ℕ}
  {next idx : Option ℕ} {P : ℕ → Prop}

/-- The room for a run in the last window before some limit. -/
theorem rleCapacityLimit_eq {next : Option Chunk} (hstart : 2048 ∣ start)
    (hlen : length ≤ 2 ^ 31 - 2048) (hnext : ∀ d ∈ next, 2048 ∣ d.start ∧ start + length ≤ d.start) :
    rleCapacityLimit start length next = (length + 2047) / 2048 * 2048 := by
  have haligned : (start + length + 2047) / 2048 * 2048 - start = (length + 2047) / 2048 * 2048 := by
    omega
  unfold rleCapacityLimit rleMax
  dsimp only
  rw [haligned]
  cases next with
  | none =>
    dsimp only
    split_ifs <;> omega
  | some d =>
    obtain ⟨hdvd, hle⟩ := hnext d rfl
    dsimp only
    split_ifs <;> omega

/-- Two runs, one after the other, joined. -/
theorem joinRuns_spec {next : Option Chunk} (ha : a.Ok) (hb : b.Ok) (hrun : 0 < a.runLength)
    (hadj : a.start + a.runLength = b.start) (hpos : 0 < blen) (hblen : blen ≤ b.capacity)
    (hlen : b.start + blen - a.start ≤ 2 ^ 31 - 2048)
    (hnext : ∀ e ∈ next, e.Ok ∧ b.stop ≤ e.start) (h : joinRuns a b blen next = some d) :
    d.Ok ∧ d.start = a.start ∧ d.stop ≤ b.stop ∧
      ∀ n, d.Holds n ↔ a.start ≤ n ∧ n < b.start + blen := by
  have hstop := hb.stop_lt
  have hdvd := hb.dvd_stop
  have haligned := ha.aligned
  have hsum : b.stop = b.start + b.capacity := rfl
  have hlimit : rleCapacityLimit a.start (b.start + blen - a.start) next =
      (b.start + blen - a.start + 2047) / 2048 * 2048 := by
    apply rleCapacityLimit_eq haligned hlen
    intro e he
    obtain ⟨hok, hle⟩ := hnext e he
    exact ⟨hok.aligned, by omega⟩
  unfold joinRuns at h
  dsimp only at h
  rw [hlimit] at h
  split_ifs at h
  obtain rfl := Option.some.inj h
  have hrle := @ok_rle a.start _ (b.start + blen - a.start) haligned
    (dvd_mul_left 2048 ((b.start + blen - a.start + 2047) / 2048)) (by omega) (by omega) (by omega)
    (by omega)
  obtain ⟨hok, hstop', hholds⟩ := hrle
  refine ⟨hok, rfl, by omega, fun n => ?_⟩
  rw [hholds]
  omega

/-- A chunk in the place of two. -/
theorem Laid.join (h : Laid (xs ++ a :: b :: ys)) (hd : d.Ok) (hstart : d.start = a.start)
    (hstop : d.stop ≤ b.stop) (hholds : ∀ n, d.Holds n ↔ a.Holds n ∨ b.Holds n) :
    Laid (xs ++ d :: ys) ∧ ∀ n, Has (xs ++ d :: ys) n ↔ Has (xs ++ a :: b :: ys) n := by
  obtain ⟨hxs, hrest, hbetween⟩ := laid_append.mp h
  constructor
  · refine laid_append.mpr ⟨hxs, ⟨fun e he => ?_, List.pairwise_cons.mpr ⟨fun e he => ?_, ?_⟩⟩,
      fun x hx e he => ?_⟩
    · rcases List.mem_cons.mp he with rfl | he
      · exact hd
      · exact hrest.1 e (by simp [he])
    · exact hstop.trans (hrest.tail.le_start he)
    · exact hrest.tail.tail.2
    · rcases List.mem_cons.mp he with rfl | he
      · exact hstart ▸ hbetween x hx a List.mem_cons_self
      · exact hbetween x hx e (by simp [he])
  · intro n
    rw [has_append, has_append, has_cons, has_cons, has_cons, hholds, or_assoc]

/-- Being short depends on the members alone. -/
theorem Short.congr {Q : ℕ → Prop} (h : Short P) (hPQ : ∀ n, Q n ↔ P n) : Short Q :=
  fun lo hi hrun => h lo hi fun n hlo hhi => (hPQ n).mp (hrun n hlo hhi)

/-- The chunks around the place of a chunk. -/
theorem Laid.around (h : Laid (xs ++ a :: b :: ys)) : a.Ok ∧ b.Ok ∧
    ∀ e ∈ ys.head?, e.Ok ∧ b.stop ≤ e.start := by
  have hrest := (laid_append.mp h).2.1
  exact ⟨hrest.head, hrest.tail.head, fun e he => ⟨hrest.tail.tail.1 e (List.mem_of_mem_head? he),
    hrest.tail.le_start (List.mem_of_mem_head? he)⟩⟩

/-- Joining the runs of two chunks keeps the numbers of the map. -/
theorem Laid.joinRuns (h : Laid (xs ++ a :: b :: ys)) (hshort : Short (Has (xs ++ a :: b :: ys)))
    (ha : 0 < a.runLength) (hb : 0 < b.runLength) (hadj : a.start + a.runLength = b.start)
    (hjoin : Sparsemap.joinRuns a b b.runLength ys.head? = some d) :
    Laid (xs ++ d :: ys) ∧ ∀ n, Has (xs ++ d :: ys) n ↔ Has (xs ++ a :: b :: ys) n := by
  obtain ⟨hoka, hokb, hnext⟩ := h.around
  have hholdsa := fun n => @Chunk.Ok.holds_of_runLength a hoka ha n
  have hholdsb := fun n => @Chunk.Ok.holds_of_runLength b hokb hb n
  have hlen : b.start + b.runLength - a.start ≤ 2 ^ 31 - 2048 := by
    apply hshort
    intro n hlo hhi
    rw [has_append, has_cons, has_cons, hholdsa, hholdsb]
    omega
  obtain ⟨hok, hstart, hstop, hholds⟩ :=
    joinRuns_spec hoka hokb ha hadj hb hokb.runLength_le hlen hnext hjoin
  refine h.join hok hstart hstop fun n => ?_
  rw [hholds, hholdsa, hholdsb]
  omega

/-- Joining to the left keeps the members. -/
theorem coalesceLeft_spec {r : List Chunk × Chunk} (h : Laid (before.reverse ++ c :: after))
    (hshort : Short (Has (before.reverse ++ c :: after))) (hpos : 0 < c.runLength)
    (hleft : coalesceLeft before c after = some r) :
    Laid (r.1.reverse ++ r.2 :: after) ∧
      ∀ n, Has (r.1.reverse ++ r.2 :: after) n ↔ Has (before.reverse ++ c :: after) n := by
  cases before with
  | nil => cases hleft
  | cons a before =>
    rw [List.reverse_cons, List.append_assoc, List.singleton_append] at h hshort ⊢
    rw [coalesceLeft] at hleft
    split_ifs at hleft with hcond
    obtain ⟨-, ha, hadj, -, -⟩ := hcond
    obtain ⟨d, hjoin, rfl⟩ := Option.map_eq_some_iff.mp hleft
    exact h.joinRuns hshort ha hpos hadj hjoin

/-- The number that was set does not cut the run after the chunk short. -/
def KeepsNext (idx : Option ℕ) (after : List Chunk) : Prop :=
  ∀ b ∈ after.head?, nextRunLength b idx = b.runLength

/-- Without a next number nothing is to be kept. -/
theorem keepsNext_none : KeepsNext none after := fun _ _ => rfl

/-- Joining to the right keeps the members. -/
theorem coalesceRight_spec {r : Chunk × List Chunk} (h : Laid (xs ++ c :: after))
    (hshort : Short (Has (xs ++ c :: after))) (hpos : 0 < c.runLength) (hkeeps : KeepsNext idx after)
    (hright : coalesceRight c after idx = some r) :
    Laid (xs ++ r.1 :: r.2) ∧ ∀ n, Has (xs ++ r.1 :: r.2) n ↔ Has (xs ++ c :: after) n := by
  cases after with
  | nil => cases hright
  | cons b after =>
    have hkeep := hkeeps b rfl
    rw [coalesceRight] at hright
    rw [hkeep] at hright
    split_ifs at hright with hcond
    obtain ⟨-, hb, hadj, -, -⟩ := hcond
    obtain ⟨d, hjoin, rfl⟩ := Option.map_eq_some_iff.mp hright
    exact h.joinRuns hshort hpos (Nat.pos_of_ne_zero hb) hadj hjoin

/-- Two runs join to a run. -/
theorem isRle_of_joinRuns {next : Option Chunk} (h : Sparsemap.joinRuns a b blen next = some d) :
    d.isRle := by
  unfold Sparsemap.joinRuns at h
  dsimp only at h
  split_ifs at h
  rw [← Option.some.inj h]
  exact flagsAt_rleDesc _ _

/-- The run that a chunk went into is not empty. -/
theorem runLength_coalesceLeft {r : List Chunk × Chunk} (hok : r.2.Ok)
    (hleft : coalesceLeft before c after = some r) : 0 < r.2.runLength := by
  cases before with
  | nil => cases hleft
  | cons a before =>
    rw [coalesceLeft] at hleft
    split_ifs at hleft
    obtain ⟨d, hjoin, rfl⟩ := Option.map_eq_some_iff.mp hleft
    have hrle := isRle_of_joinRuns hjoin
    obtain ⟨n, hn⟩ := hok.nonempty
    rw [hok.holds_of_rle hrle] at hn
    rw [Chunk.runLength, if_pos hrle]
    omega

/-- Coalescing a chunk keeps the map. -/
theorem coalesceChunk_spec (h : Laid (before.reverse ++ c :: after))
    (hshort : Short (Has (before.reverse ++ c :: after))) (hkeeps : KeepsNext idx after) :
    Laid ((coalesceChunk before c after idx).1.reverse ++
        (coalesceChunk before c after idx).2.1 :: (coalesceChunk before c after idx).2.2) ∧
      ∀ n, Has ((coalesceChunk before c after idx).1.reverse ++
          (coalesceChunk before c after idx).2.1 :: (coalesceChunk before c after idx).2.2) n ↔
        Has (before.reverse ++ c :: after) n := by
  unfold coalesceChunk
  split_ifs with hnone
  · exact ⟨h, fun n => Iff.rfl⟩
  · dsimp only
    have hpos : 0 < c.runLength := by
      push Not at hnone
      exact Nat.pos_of_ne_zero hnone.1
    obtain ⟨left, hleft, hlaid, hhas, hpos'⟩ :
        ∃ left, (coalesceLeft before c after).getD (before, c) = left ∧
          Laid (left.1.reverse ++ left.2 :: after) ∧
          (∀ n, Has (left.1.reverse ++ left.2 :: after) n ↔ Has (before.reverse ++ c :: after) n) ∧
          0 < left.2.runLength := by
      cases hl : coalesceLeft before c after with
      | none => exact ⟨_, rfl, h, fun n => Iff.rfl, hpos⟩
      | some r =>
        obtain ⟨hlaid, hhas⟩ := coalesceLeft_spec h hshort hpos hl
        exact ⟨r, rfl, hlaid, hhas, runLength_coalesceLeft (laid_append.mp hlaid).2.1.head hl⟩
    rw [hleft]
    cases hr : coalesceRight left.2 after idx with
    | none => exact ⟨hlaid, hhas⟩
    | some r =>
      obtain ⟨hlaid', hhas'⟩ := coalesceRight_spec hlaid (hshort.congr hhas) hpos' hkeeps hr
      exact ⟨hlaid', fun n => (hhas' n).trans (hhas n)⟩

/-- The loop keeps the map. -/
theorem coalesceLoop_spec (count : ℕ) {rest : List Chunk} (h : Laid (before.reverse ++ rest))
    (hshort : Short (Has (before.reverse ++ rest))) :
    Laid (coalesceLoop count before rest) ∧
      ∀ n, Has (coalesceLoop count before rest) n ↔ Has (before.reverse ++ rest) n := by
  fun_induction coalesceLoop count before rest with
  | case1 => exact ⟨h, fun n => Iff.rfl⟩
  | case2 => exact ⟨by simpa using h, fun n => by simp⟩
  | case3 count before hcount c after r total hleft ih =>
    obtain ⟨hlaid, hhas⟩ := coalesceChunk_spec h hshort keepsNext_none
    have heq : (r.2.1 :: r.1).reverse ++ r.2.2 = r.1.reverse ++ r.2.1 :: r.2.2 := by simp
    rw [heq] at ih
    obtain ⟨hlaid', hhas'⟩ := ih hlaid (hshort.congr hhas)
    exact ⟨hlaid', fun n => (hhas' n).trans (hhas n)⟩
  | case4 count before hcount c after r total hleft hright ih =>
    obtain ⟨hlaid, hhas⟩ := coalesceChunk_spec h hshort keepsNext_none
    obtain ⟨hlaid', hhas'⟩ := ih hlaid (hshort.congr hhas)
    exact ⟨hlaid', fun n => (hhas' n).trans (hhas n)⟩
  | case5 count before hcount c after r hleft hright ih =>
    have heq : (c :: before).reverse ++ after = before.reverse ++ c :: after := by simp
    rw [heq] at ih
    exact ih h hshort

/-- `__sm_coalesce_map` keeps the map. -/
theorem coalesceMap_spec (h : Laid cs) (hshort : Short (Has cs)) :
    Laid (coalesceMap cs) ∧ ∀ n, Has (coalesceMap cs) n ↔ Has cs n :=
  @coalesceLoop_spec [] cs.length cs h hshort

end

end PgTre.Sparsemap
