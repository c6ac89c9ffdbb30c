import PgTre.Sparsemap.Union
import PgTre.Util.Successor

/-!
# Reading a sparsemap

`sm_contains` and `sm_next_member` of `src/util/sparsemap.c` on maps with chunks.
-/

namespace PgTre.Sparsemap

/-! ## Membership -/

/-- `__sm_get_chunk_offset` without a cursor: the chunk that has room for a number, or the first one
after it, or the last one. -/
def chunkFor : List Chunk → ℕ → Option Chunk
  | [], _ => none
  | [c], _ => some c
  | c :: d :: cs, idx => if c.stop ≤ idx then chunkFor (d :: cs) idx else some c

/-- `sm_contains`. -/
def contains (cs : List Chunk) (idx : ℕ) : Bool :=
  match chunkFor cs idx with
  | none => false
  | some c =>
      if idx < c.start ∨ c.capacity ≤ idx - c.start then false else c.isSet (idx - c.start)

section

variable {c : Chunk} {cs : List Chunk} {n : ℕ}

/-- A lookup finds exactly the numbers of a map. -/
theorem contains_iff_mem_members (h : Laid cs) : contains cs n = true ↔ n ∈ members cs := by
  have hholds : ∀ c : Chunk, (if n < c.start ∨ c.capacity ≤ n - c.start then false
      else c.isSet (n - c.start)) = true ↔ c.Holds n := by
    intro c
    unfold Chunk.Holds Chunk.stop
    by_cases hout : n < c.start ∨ c.capacity ≤ n - c.start
    · rw [if_pos hout]
      constructor
      · intro hfalse
        cases hfalse
      · rintro ⟨hs, he, -⟩
        omega
    · rw [if_neg hout]
      constructor
      · intro hset
        exact ⟨by omega, by omega, hset⟩
      · rintro ⟨-, -, hset⟩
        exact hset
  rw [mem_members]
  induction cs with
  | nil => simp [contains, chunkFor, not_has_nil]
  | cons c cs ih =>
    cases cs with
    | nil =>
      rw [has_cons, or_iff_left (not_has_nil n)]
      exact hholds c
    | cons d cs =>
      by_cases hpast : c.stop ≤ n
      · have hnot : ¬c.Holds n := fun hc => absurd hc.2.1 (Nat.not_lt.mpr hpast)
        have heq : contains (c :: d :: cs) n = contains (d :: cs) n := by
          rw [contains, chunkFor, if_pos hpast]
          rfl
        rw [has_cons, or_iff_right hnot, heq]
        exact ih h.tail
      · have hnot : ¬Has (d :: cs) n := fun hd => hpast (h.le_of_has hd)
        rw [has_cons, or_iff_left hnot, contains, chunkFor, if_neg hpast]
        exact hholds c

end

/-! ## The next member -/

/-- `SM_CTZ64`. -/
def ctz (w : ℕ) : ℕ := ((List.range 64).find? fun b => w.testBit b).getD 64

/-- The bits of a stored vector that a bound rules out. -/
def skipBits (lower : Option ℕ) (vecLo : ℕ) : ℕ :=
  match lower with
  | none => 0
  | some l => if vecLo ≤ l then l - vecLo + 1 else 0

/-- The number that `__sm_chunk_next_set` finds in one vector. -/
def vectorNext (c : Chunk) (lower : Option ℕ) (v : ℕ) : Option ℕ :=
  let vecLo := c.start + v * 64
  let vecHi := vecLo + 63
  if ∃ l ∈ lower, vecHi ≤ l then none
  else if flagsAt c.desc v < 2 then none
  else if flagsAt c.desc v = 3 then
    match lower with
    | none => some vecLo
    | some l => if l < vecLo then some vecLo else some (l + 1)
  else
    let w := c.vecs.getD (c.position v) 0
    let skip := skipBits lower vecLo
    if 64 ≤ skip then none
    else if w &&& shl onesVector skip = 0 then none
    else some (vecLo + ctz (w &&& shl onesVector skip))

/-- `__sm_chunk_next_set`. A missing bound is `UINT64_MAX`, and so is a missing result. -/
def chunkNextSet (c : Chunk) (lower : Option ℕ) : Option ℕ :=
  if c.isRle then
    let length := rleLength c.desc
    if length = 0 then none
    else
      let runLo := c.start
      let runHi := c.start + length - 1
      match lower with
      | none => some runLo
      | some l => if runHi ≤ l then none else if l < runLo then some runLo else some (l + 1)
  else (List.range 32).findSome? (vectorNext c lower)

/-- The walk of `sm_next_member`, and the chunks from the one it stops at. -/
def nextFrom (lower : Option ℕ) : List Chunk → Option ℕ × List Chunk
  | [] => (none, [])
  | c :: cs =>
      if ∃ l ∈ lower, c.stop - 1 ≤ l then nextFrom lower cs
      else
        match chunkNextSet c lower with
        | some hit => (some hit, c :: cs)
        | none => nextFrom lower cs

/-- The chunks that `sm_next_member` walks: from the cursor on, if it is not after the last number. -/
def walkFrom (cs : List Chunk) (prev : Option ℕ) (cur : Option (List Chunk)) : List Chunk :=
  match prev, cur with
  | some p, some (c :: rest) => if c.start ≤ p then c :: rest else cs
  | _, _ => cs

/-- `sm_next_member` with a cursor, which is the chunks from the one it was left at. -/
def nextMember (cs : List Chunk) (prev : Option ℕ) (cur : Option (List Chunk)) :
    Option ℕ × Option (List Chunk) :=
  let found := nextFrom prev (walkFrom cs prev cur)
  (found.1, if found.1.isSome then some found.2 else cur)

section

variable {c : Chunk} {cs : List Chunk} {lower : Option ℕ} {n v : ℕ}

/-- The lowest bit of a word. -/
theorem ctz_spec {w : ℕ} (hne : w ≠ 0) (hlt : w < 2 ^ 64) :
    ctz w < 64 ∧ w.testBit (ctz w) = true ∧ ∀ j, w.testBit j = true → ctz w ≤ j := by
  obtain ⟨i, hi⟩ := Nat.exists_testBit_of_ne_zero hne
  have hi64 : i < 64 := by
    by_contra hge
    rw [Nat.testBit_lt_two_pow (hlt.trans_le (Nat.pow_le_pow_right (by decide) (by omega)))] at hi
    cases hi
  unfold ctz
  cases hfind : (List.range 64).find? fun b => w.testBit b with
  | none =>
    rw [List.find?_eq_none] at hfind
    exact absurd hi (hfind i (List.mem_range.mpr hi64))
  | some b =>
    obtain ⟨hb, hmem, hbefore⟩ := List.find?_range_eq_some.mp hfind
    refine ⟨List.mem_range.mp hmem, hb, fun j hj => ?_⟩
    by_contra hlt'
    have hnot := hbefore j (Nat.lt_of_not_le hlt')
    rw [hj] at hnot
    cases hnot

/-- The numbers of one vector. -/
def InVector (c : Chunk) (v n : ℕ) : Prop :=
  c.start + v * 64 ≤ n ∧ n < c.start + v * 64 + 64 ∧
    (c.words v).testBit (n - (c.start + v * 64)) = true

/-- A number of a window is in one of its vectors. -/
theorem inWindow_iff_inVector : InWindow c.words c.start n ↔ ∃ v ∈ List.range 32, InVector c v n := by
  unfold InWindow InVector
  constructor
  · rintro ⟨hs, he, hbit⟩
    have hoff : n - (c.start + (n - c.start) / 64 * 64) = (n - c.start) % 64 := by omega
    exact ⟨(n - c.start) / 64, List.mem_range.mpr (by omega), by omega, by omega, hoff ▸ hbit⟩
  · rintro ⟨v, hv, hs, he, hbit⟩
    have hlt := List.mem_range.mp hv
    have hdiv : (n - c.start) / 64 = v := by omega
    have hmod : (n - c.start) % 64 = n - (c.start + v * 64) := by omega
    exact ⟨by omega, by omega, by rw [hdiv, hmod]; exact hbit⟩

/-- A search of one vector. -/
theorem vectorNext_isNext (hc : c.Ok) (h : ¬c.isRle) (hv : v < 32) :
    IsNext (InVector c v) lower (vectorNext c lower v) := by
  have hflags := flagsAt_lt c.desc v
  unfold vectorNext
  dsimp only
  by_cases hpast : ∃ l ∈ lower, c.start + v * 64 + 63 ≤ l
  · rw [if_pos hpast]
    obtain ⟨l, hl, hle⟩ := hpast
    rintro n ⟨-, hlt, -⟩ hafter
    have hn := hafter l hl
    omega
  rw [if_neg hpast]
  by_cases hlow : flagsAt c.desc v < 2
  · rw [if_pos hlow]
    rintro n ⟨-, -, hbit⟩
    rw [Chunk.words, if_neg (by omega), if_neg (by omega), Nat.zero_testBit] at hbit
    cases hbit
  rw [if_neg hlow]
  by_cases hones : flagsAt c.desc v = 3
  · have hall : ∀ n, InVector c v n ↔ c.start + v * 64 ≤ n ∧ n < c.start + v * 64 + 64 := by
      intro n
      rw [InVector, Chunk.words, if_neg (by omega), if_pos hones, testBit_onesVector,
        decide_eq_true_eq]
      omega
    rw [if_pos hones]
    cases lower with
    | none => exact ⟨(hall _).mpr (by omega), after_none, fun n hn _ => ((hall n).mp hn).1⟩
    | some l =>
      have hle : ¬c.start + v * 64 + 63 ≤ l := fun hle => hpast ⟨l, rfl, hle⟩
      dsimp only
      split_ifs with hbefore
      · exact ⟨(hall _).mpr (by omega), after_some.mpr hbefore, fun n hn _ => ((hall n).mp hn).1⟩
      · exact ⟨(hall _).mpr (by omega), after_some.mpr (Nat.lt_succ_self l),
          fun n _ hafter => after_some.mp hafter⟩
  · have hmixed : flagsAt c.desc v = 2 := by omega
    have hword : c.words v = c.vecs.getD (c.position v) 0 := by
      rw [Chunk.words, if_pos hmixed, Chunk.position, if_neg (by omega), if_neg h]
    have hlt := Chunk.words_lt hc.vecs_lt v
    rw [if_neg hones, ← hword]
    have hiff : ∀ j, After lower (c.start + v * 64 + j) ↔ skipBits lower (c.start + v * 64) ≤ j := by
      intro j
      cases lower with
      | none => simp [skipBits]
      | some l =>
        rw [after_some, skipBits]
        split_ifs <;> omega
    generalize skipBits lower (c.start + v * 64) = skip at hiff ⊢
    have hmask : ∀ j < 64, (c.words v &&& shl onesVector skip).testBit j = true ↔
        (c.words v).testBit j = true ∧ skip ≤ j := by
      intro j hj
      rw [Nat.testBit_and, testBit_shl _ _ hj, testBit_onesVector, Bool.and_eq_true,
        ← Bool.decide_and, decide_eq_true_eq]
      exact and_congr_right fun _ => ⟨fun hle => hle.1, fun hle => ⟨hle, by omega⟩⟩
    by_cases hfar : 64 ≤ skip
    · rw [if_pos hfar]
      rintro n ⟨hs, he, -⟩ hafter
      have heq : c.start + v * 64 + (n - (c.start + v * 64)) = n := by omega
      have hle := (hiff (n - (c.start + v * 64))).mp (heq.symm ▸ hafter)
      omega
    rw [if_neg hfar]
    by_cases hzero : c.words v &&& shl onesVector skip = 0
    · rw [if_pos hzero]
      rintro n ⟨hs, he, hbit⟩ hafter
      have heq : c.start + v * 64 + (n - (c.start + v * 64)) = n := by omega
      have hle := (hiff (n - (c.start + v * 64))).mp (heq.symm ▸ hafter)
      have hset := (hmask (n - (c.start + v * 64)) (by omega)).mpr ⟨hbit, hle⟩
      rw [hzero, Nat.zero_testBit] at hset
      cases hset
    · rw [if_neg hzero]
      obtain ⟨hctz, hbit, hleast⟩ := ctz_spec hzero (Nat.and_lt_two_pow _ (shl_lt _ _))
      obtain ⟨hset, hle⟩ := (hmask _ hctz).mp hbit
      refine ⟨⟨Nat.le_add_right _ _, by omega, ?_⟩, (hiff _).mpr hle, ?_⟩
      · rw [Nat.add_sub_cancel_left]
        exact hset
      · rintro n ⟨hs, he, hn⟩ hafter
        have heq : c.start + v * 64 + (n - (c.start + v * 64)) = n := by omega
        have hlow := (hiff (n - (c.start + v * 64))).mp (heq.symm ▸ hafter)
        have hmin := hleast _ ((hmask (n - (c.start + v * 64)) (by omega)).mpr ⟨hn, hlow⟩)
        omega

/-- A search of one chunk. -/
theorem chunkNextSet_isNext (hc : c.Ok) : IsNext c.Holds lower (chunkNextSet c lower) := by
  unfold chunkNextSet
  by_cases h : c.isRle
  · have hholds := fun n => @Chunk.Ok.holds_of_rle c n hc h
    have hpos : rleLength c.desc ≠ 0 := by
      obtain ⟨n, hn⟩ := hc.nonempty
      rw [hholds] at hn
      omega
    rw [if_pos h]
    dsimp only
    rw [if_neg hpos]
    cases lower with
    | none => exact ⟨(hholds _).mpr (by omega), after_none, fun n hn _ => ((hholds n).mp hn).1⟩
    | some l =>
      dsimp only
      by_cases hpast : c.start + rleLength c.desc - 1 ≤ l
      · rw [if_pos hpast]
        intro n hn hafter
        have hlt := ((hholds n).mp hn).2
        have hl := after_some.mp hafter
        omega
      · rw [if_neg hpast]
        split_ifs with hbefore
        · exact ⟨(hholds _).mpr (by omega), after_some.mpr hbefore,
            fun n hn _ => ((hholds n).mp hn).1⟩
        · exact ⟨(hholds _).mpr (by omega), after_some.mpr (Nat.lt_succ_self l),
            fun n _ hafter => after_some.mp hafter⟩
  · rw [if_neg h]
    refine (isNext_findSome? (P := InVector c)
      (fun v hv => vectorNext_isNext hc h (List.mem_range.mp hv)) ?_).congr fun n => ?_
    · refine (List.pairwise_lt_range).imp fun hlt => ?_
      rintro m n ⟨-, hm, -⟩ ⟨hn, -, -⟩
      omega
    · rw [hc.holds_of_sparse h, inWindow_iff_inVector]

/-- The walk finds the next number of a map, and stops at one of its chunks. -/
theorem nextFrom_spec (h : Laid cs) : IsNext (Has cs) lower (nextFrom lower cs).1 ∧
    ∃ before, cs = before ++ (nextFrom lower cs).2 := by
  induction cs with
  | nil => exact ⟨isNext_none fun n hn => absurd hn (not_has_nil n), [], rfl⟩
  | cons c cs ih =>
    obtain ⟨hnext, before, heq⟩ := ih h.tail
    have hcons : ∀ n, c.Holds n ∨ Has cs n ↔ Has (c :: cs) n := fun n => has_cons.symm
    rw [nextFrom]
    by_cases hpast : ∃ l ∈ lower, c.stop - 1 ≤ l
    · rw [if_pos hpast]
      refine ⟨(hnext.skip fun n hn hafter => ?_).congr hcons, c :: before, ?_⟩
      · obtain ⟨l, hl, hle⟩ := hpast
        have hlt := hn.2.1
        have hl' := hafter l hl
        omega
      · rw [List.cons_append, ← heq]
    · rw [if_neg hpast]
      have hchunk := @chunkNextSet_isNext c lower h.head
      cases hfound : chunkNextSet c lower with
      | none =>
        rw [hfound] at hchunk
        exact ⟨(hnext.skip hchunk).congr hcons, c :: before, by rw [List.cons_append, ← heq]⟩
      | some hit =>
        rw [hfound] at hchunk
        refine ⟨⟨has_cons.mpr (Or.inl hchunk.1), hchunk.2.1, fun n hn hafter => ?_⟩, [], rfl⟩
        rcases has_cons.mp hn with hc | hcs
        · exact hchunk.2.2 n hc hafter
        · exact hchunk.1.2.1.le.trans (h.le_of_has hcs)

/-- A cursor that a search of the same map left. -/
def CursorOk (cs : List Chunk) (cur : Option (List Chunk)) : Prop :=
  ∀ rest ∈ cur, ∃ before, cs = before ++ rest

/-- The chunks before a cursor have no number from its start on. -/
theorem Laid.lt_of_has {before rest : List Chunk} (h : Laid (before ++ c :: rest))
    (hn : Has before n) : n < c.start := by
  obtain ⟨d, hd, hholds⟩ := hn
  have hle := (List.pairwise_append.mp h.2).2.2 d hd c List.mem_cons_self
  exact hholds.2.1.trans_le hle

/-- The walk leaves out only chunks with no number after the last one. -/
theorem walkFrom_spec {prev : Option ℕ} {cur : Option (List Chunk)} (h : Laid cs)
    (hcur : CursorOk cs cur) :
    ∃ before, cs = before ++ walkFrom cs prev cur ∧ ∀ n, Has before n → ¬After prev n := by
  have hall : ∃ before, cs = before ++ cs ∧ ∀ n, Has before n → ¬After prev n :=
    ⟨[], rfl, fun n hn => absurd hn (not_has_nil n)⟩
  unfold walkFrom
  cases prev with
  | none => exact hall
  | some p =>
    cases cur with
    | none => exact hall
    | some rest =>
      cases rest with
      | nil => exact hall
      | cons c rest =>
        dsimp only
        by_cases hle : c.start ≤ p
        · rw [if_pos hle]
          obtain ⟨before, rfl⟩ := hcur _ rfl
          refine ⟨before, rfl, fun n hn hafter => ?_⟩
          have hlt := h.lt_of_has hn
          have hp := after_some.mp hafter
          omega
        · rw [if_neg hle]
          exact hall

/-- `sm_next_member` finds the next number with any cursor that a search left, and leaves such a
cursor. -/
theorem nextMember_spec {prev : Option ℕ} {cur : Option (List Chunk)} (h : Laid cs)
    (hcur : CursorOk cs cur) : IsNext (· ∈ members cs) prev (nextMember cs prev cur).1 ∧
      CursorOk cs (nextMember cs prev cur).2 := by
  obtain ⟨before, heq, hbefore⟩ := @walkFrom_spec cs prev cur h hcur
  unfold nextMember
  dsimp only
  generalize walkFrom cs prev cur = walk at heq ⊢
  subst heq
  have hlaid : Laid walk :=
    ⟨fun c hc => h.1 c (List.mem_append_right _ hc), (List.pairwise_append.mp h.2).2.1⟩
  obtain ⟨hnext, before', heq⟩ := @nextFrom_spec walk prev hlaid
  refine ⟨(hnext.skip hbefore).congr fun n => ?_, ?_⟩
  · rw [mem_members, has_append]
  · split_ifs
    · intro rest hrest
      obtain rfl := Option.some.inj hrest
      exact ⟨before ++ before', by rw [List.append_assoc, ← heq]⟩
    · exact hcur

/-- The loop over the members of a map, with a cursor, lists them in order and each once. -/
theorem enumerate_nextMember (h : Laid cs) {fuel : ℕ} (hfuel : (members cs).card < fuel) :
    enumerate (nextMember cs) fuel none none = (members cs).sort (· ≤ ·) := by
  have hall : (members cs).filter (After none) = members cs :=
    Finset.filter_true_of_mem fun n _ => after_none
  have hnext : ∀ prev cur, CursorOk cs cur →
      IsNext (· ∈ members cs) prev (nextMember cs prev cur).1 ∧
        ∀ m, (nextMember cs prev cur).1 = some m → CursorOk cs (nextMember cs prev cur).2 := by
    intro prev cur hcur
    obtain ⟨hisnext, hleft⟩ := @nextMember_spec cs prev cur h hcur
    exact ⟨hisnext, fun m _ => hleft⟩
  have hsort := @enumerate_eq_sort _ (nextMember cs) (members cs) (fun _ cur => CursorOk cs cur)
    hnext fuel none none (fun rest hrest => by cases hrest) (by rw [hall]; exact hfuel)
  rw [hsort, hall]

end

end PgTre.Sparsemap
