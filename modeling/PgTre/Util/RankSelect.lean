import Mathlib.Data.Nat.Count
import Mathlib.Data.Nat.Bitwise
import Mathlib.Algebra.BigOperators.Group.List.Basic

/-!
# Bits in words, ranks and selection

The rank of a position in a sequence of bits is the number of bits set before it, and selection
finds the position of a set bit from its rank. The bits are kept in words of a fixed width. Ranks
are computed from a table with the ranks of the word boundaries, and a set bit is found by bisection
in that table and then within a word.
-/

namespace RankSelect

/-! ## Ranks -/

/-- The number of bits set before a position. -/
def rank (bits : ℕ → Bool) (n : ℕ) : ℕ := Nat.count (fun i => bits i = true) n

section

variable {bits bits' : ℕ → Bool} {m n : ℕ}

/-- No bit stands before the first. -/
@[simp] theorem rank_zero (bits : ℕ → Bool) : rank bits 0 = 0 := Nat.count_zero _

/-- One more bit counts when it is set. -/
theorem rank_succ (bits : ℕ → Bool) (n : ℕ) :
    rank bits (n + 1) = rank bits n + if bits n = true then 1 else 0 := Nat.count_succ _ n

/-- The rank of a stretch is added. -/
theorem rank_add (bits : ℕ → Bool) (m n : ℕ) :
    rank bits (m + n) = rank bits m + rank (fun i => bits (m + i)) n := Nat.count_add _ m n

/-- A rank is at most its position. -/
theorem rank_le (bits : ℕ → Bool) (n : ℕ) : rank bits n ≤ n := Nat.count_le _

/-- Ranks rise. -/
theorem rank_mono (h : m ≤ n) : rank bits m ≤ rank bits n := Nat.count_monotone _ h

/-- A rank depends on the bits before the position. -/
theorem rank_congr (h : ∀ i < n, bits i = bits' i) : rank bits n = rank bits' n := by
  induction n with
  | zero => simp
  | succ n ih =>
    rw [rank_succ, rank_succ, ih fun i hi => h i (by omega), h n (by omega)]

/-- Set bits of the same rank are one. -/
theorem eq_of_rank_eq (hm : bits m = true) (hn : bits n = true) (h : rank bits m = rank bits n) :
    m = n :=
  Nat.count_injective hm hn h

/-- Without one of the bits set before it the rank of a position is one less. -/
theorem rank_clear {l : ℕ} (hl : bits l = true) (h : l < n) :
    rank bits n = rank (fun i => bits i && decide (i ≠ l)) n + 1 := by
  induction n with
  | zero => omega
  | succ n ih =>
    rw [rank_succ, rank_succ]
    by_cases hn : n = l
    · have hsame : rank (fun i => bits i && decide (i ≠ l)) n = rank bits n := by
        apply rank_congr
        intro i hi
        have hne : i ≠ l := by omega
        simp [hne]
      rw [hsame, hn]
      simp [hl]
    · rw [ih (by omega)]
      simp only [hn, ne_eq, not_false_eq_true, decide_true, Bool.and_true]
      omega

end

/-! ## Words -/

/-- The bit at a position of words that are `w` bits wide. Past the end no bit is set. -/
def bit (w : ℕ) (words : List ℕ) (i : ℕ) : Bool := (words.getD (i / w) 0).testBit (i % w)

/-- The number of bits set in a word. -/
def popcount (w word : ℕ) : ℕ := rank word.testBit w

/-- The ranks of the word boundaries, from a word and its rank on. -/
def prefixRanks (w : ℕ) : List ℕ → ℕ → List ℕ
  | [], acc => [acc]
  | word :: words, acc => acc :: prefixRanks w words (acc + popcount w word)

section

variable {w word : ℕ} {words : List ℕ}

/-- A bit is a bit of its word. -/
theorem bit_add {n j : ℕ} (hj : j < w) : bit w words (w * n + j) = (words.getD n 0).testBit j := by
  have hdiv : (w * n + j) / w = n := by
    rw [Nat.mul_add_div (by omega), Nat.div_eq_of_lt hj, Nat.add_zero]
  have hmod : (w * n + j) % w = j := by
    rw [Nat.mul_add_mod, Nat.mod_eq_of_lt hj]
  rw [bit, hdiv, hmod]

/-- The bits set below a position within a word. -/
theorem popcount_mask {off : ℕ} (hoff : off ≤ w) :
    popcount w (word &&& (2 ^ off - 1)) = rank word.testBit off := by
  obtain ⟨m, rfl⟩ := Nat.exists_eq_add_of_le hoff
  have hlow : rank (word &&& (2 ^ off - 1)).testBit off = rank word.testBit off := by
    apply rank_congr
    intro j hj
    simp [hj]
  have hhigh : rank (fun i => (word &&& (2 ^ off - 1)).testBit (off + i)) m = 0 := by
    have hnone : rank (fun i => (word &&& (2 ^ off - 1)).testBit (off + i)) m =
        rank (fun _ => false) m := by
      apply rank_congr
      intro j _
      simp
    rw [hnone]
    simp [rank]
  rw [popcount, rank_add, hlow, hhigh, Nat.add_zero]

/-- The rank of a position within a word, from the rank of the word. -/
theorem rank_bit_add {n off : ℕ} (hoff : off ≤ w) :
    rank (bit w words) (w * n + off) =
      rank (bit w words) (w * n) + popcount w (words.getD n 0 &&& (2 ^ off - 1)) := by
  rw [rank_add, popcount_mask hoff]
  congr 1
  apply rank_congr
  intro j hj
  exact bit_add (by omega)

/-- The rank of the next word. -/
theorem rank_bit_succ (n : ℕ) :
    rank (bit w words) (w * (n + 1)) =
      rank (bit w words) (w * n) + popcount w (words.getD n 0) := by
  rw [Nat.mul_succ, rank_add, popcount]
  congr 1
  apply rank_congr
  intro j hj
  exact bit_add hj

/-- There is one prefix rank more than words. -/
@[simp] theorem length_prefixRanks (words : List ℕ) (acc : ℕ) :
    (prefixRanks w words acc).length = words.length + 1 := by
  induction words generalizing acc with
  | nil => rfl
  | cons word words ih => simp [prefixRanks, ih]

/-- The table holds the ranks of the word boundaries. -/
theorem getD_prefixRanks {n : ℕ} (hn : n ≤ words.length) :
    (prefixRanks w words 0).getD n 0 = rank (bit w words) (w * n) := by
  have hgeneral : ∀ (front back : List ℕ), words = front ++ back → ∀ n ≤ back.length,
      (prefixRanks w back (rank (bit w words) (w * front.length))).getD n 0 =
        rank (bit w words) (w * (front.length + n)) := by
    intro front back
    induction back generalizing front with
    | nil =>
      intro _ n hn
      obtain rfl : n = 0 := by simpa using hn
      rfl
    | cons word back ih =>
      intro hwords n hn
      cases n with
      | zero => rfl
      | succ n =>
        have hfront : words = (front ++ [word]) ++ back := by simp [hwords]
        have hword : words.getD front.length 0 = word := by simp [hwords]
        have hrest := ih (front ++ [word]) hfront n (by simpa using hn)
        rw [List.length_append, List.length_singleton, rank_bit_succ, hword] at hrest
        rw [prefixRanks, List.getD_cons_succ, hrest]
        congr 2
        omega
  have h := hgeneral [] words rfl n hn
  simpa using h

end

/-! ## Selection within a word -/

/-- The lowest bit set in a word, or its width. -/
def lowestBit (w word : ℕ) : ℕ := ((List.range w).find? word.testBit).getD w

/-- The position of the bit with `need - 1` bits set below it: the lowest bit is cleared again and
again. -/
def selectInWord (w : ℕ) : ℕ → ℕ → ℕ → Option ℕ
  | 0, _, _ => none
  | fuel + 1, need, word =>
      if word = 0 then none
      else if need - 1 = 0 then some (lowestBit w word)
      else selectInWord w fuel (need - 1) (word &&& (word - 1))

section

variable {w word : ℕ}

/-- A word that is not zero has a lowest bit. -/
theorem lowestBit_spec (hword : word ≠ 0) (hlt : word < 2 ^ w) :
    lowestBit w word < w ∧ word.testBit (lowestBit w word) = true ∧
      ∀ j < lowestBit w word, word.testBit j = false := by
  obtain ⟨i, hi⟩ := Nat.exists_testBit_of_ne_zero hword
  have hiw : i < w := by
    by_contra hge
    have hbig := Nat.ge_two_pow_of_testBit hi
    have hpow : 2 ^ w ≤ 2 ^ i := Nat.pow_le_pow_right (by omega) (by omega)
    omega
  unfold lowestBit
  cases hfind : (List.range w).find? word.testBit with
  | none =>
    rw [List.find?_eq_none] at hfind
    exact absurd hi (hfind i (List.mem_range.mpr hiw))
  | some t =>
    obtain ⟨ht, front, back, hrange, hfront⟩ := List.find?_eq_some_iff_append.mp hfind
    have hmem : t ∈ List.range w := by simp [hrange]
    refine ⟨List.mem_range.mp hmem, ht, ?_⟩
    intro j hj
    rw [Option.getD_some] at hj
    have hjmem : j ∈ front := by
      have hsorted : (front ++ t :: back).Pairwise (· < ·) := hrange ▸ List.pairwise_lt_range
      have hjrange : j ∈ front ++ t :: back := by
        rw [← hrange, List.mem_range]
        exact lt_trans hj (List.mem_range.mp hmem)
      rcases List.mem_append.mp hjrange with h | h
      · exact h
      · rcases List.mem_cons.mp h with rfl | h
        · omega
        · have hlt' := (List.pairwise_cons.mp (List.pairwise_append.mp hsorted).2.1).1 j h
          omega
    simpa using hfront j hjmem

/-- Clearing the lowest bit leaves the others. -/
theorem testBit_and_pred (hword : word ≠ 0) (hlt : word < 2 ^ w) (j : ℕ) :
    (word &&& (word - 1)).testBit j = (word.testBit j && decide (j ≠ lowestBit w word)) := by
  obtain ⟨hlow, hset, hbelow⟩ := lowestBit_spec hword hlt
  generalize lowestBit w word = t at hlow hset hbelow
  -- The word is an odd number with `t` zeros behind it.
  have hmod : word % 2 ^ t = 0 := by
    apply Nat.eq_of_testBit_eq
    intro i
    rw [Nat.testBit_mod_two_pow, Nat.zero_testBit]
    by_cases hi : i < t
    · simp [hbelow i hi]
    · simp [hi]
  obtain ⟨q, hq⟩ := Nat.dvd_of_mod_eq_zero hmod
  have hodd : q % 2 = 1 := by
    rw [hq, Nat.testBit_two_pow_mul] at hset
    simpa [Nat.testBit_zero] using hset
  obtain ⟨r, hr⟩ : ∃ r, q = 2 * r + 1 := ⟨q / 2, by omega⟩
  have hpow : 0 < 2 ^ t := Nat.two_pow_pos t
  have hpred : word - 1 = 2 ^ t * (2 * r) + (2 ^ t - 1) := by
    rw [hq, hr, Nat.mul_add, Nat.mul_one]
    omega
  have hbits : ∀ i, word.testBit i = (2 ^ t * (2 * r + 1) + 0).testBit i := by
    intro i
    rw [hq, hr]
    rfl
  rw [Nat.testBit_and, hpred, hbits, Nat.testBit_two_pow_mul_add _ hpow,
    Nat.testBit_two_pow_mul_add _ (by omega)]
  by_cases hj : j < t
  · simp [hj]
  · simp only [hj, if_false]
    by_cases heq : j = t
    · subst heq
      simp
    · obtain ⟨i, rfl⟩ : ∃ i, j = t + (i + 1) := ⟨j - t - 1, by omega⟩
      have hsub : t + (i + 1) - t = i + 1 := by omega
      rw [hsub, Nat.testBit_succ, Nat.testBit_succ]
      have hdiv : (2 * r + 1) / 2 = 2 * r / 2 := by omega
      rw [hdiv, Bool.and_self]
      simp

/-- The bit with the given rank is found. -/
theorem selectInWord_spec {fuel need : ℕ} (hlt : word < 2 ^ w) (hneed : 1 ≤ need)
    (henough : need ≤ popcount w word) (hfuel : need ≤ fuel) :
    ∃ t < w, selectInWord w fuel need word = some t ∧ word.testBit t = true ∧
      rank word.testBit t + 1 = need := by
  induction fuel generalizing need word with
  | zero => omega
  | succ fuel ih =>
    have hword : word ≠ 0 := by
      rintro rfl
      have hzero : popcount w 0 = 0 := by simp [popcount, rank]
      omega
    obtain ⟨hlow, hset, hbelow⟩ := lowestBit_spec hword hlt
    have hclear := testBit_and_pred hword hlt
    rw [selectInWord, if_neg hword]
    split_ifs with hlast
    · refine ⟨lowestBit w word, hlow, rfl, hset, ?_⟩
      have hnone : rank word.testBit (lowestBit w word) = rank (fun _ => false) (lowestBit w word) :=
        rank_congr hbelow
      rw [hnone]
      simp only [rank, Bool.false_eq_true, Nat.count_false]
      omega
    · have hbits : (word &&& (word - 1)).testBit =
          fun j => word.testBit j && decide (j ≠ lowestBit w word) := funext hclear
      have hrank : ∀ n, lowestBit w word < n →
          rank word.testBit n = rank (word &&& (word - 1)).testBit n + 1 := by
        intro n hn
        rw [hbits]
        exact rank_clear hset hn
      have hcount := hrank w hlow
      have hsmall : word &&& (word - 1) < 2 ^ w := lt_of_le_of_lt Nat.and_le_left hlt
      unfold popcount at henough
      obtain ⟨t, ht, hfound, hbit, hneed'⟩ := @ih (word &&& (word - 1)) (need - 1) hsmall (by omega)
        (by unfold popcount; omega) (by omega)
      rw [hclear, Bool.and_eq_true, decide_eq_true_eq] at hbit
      refine ⟨t, ht, hfound, hbit.1, ?_⟩
      have habove : lowestBit w word < t := by
        by_contra hle
        have hbefore := hbelow t (by omega)
        rw [hbit.1] at hbefore
        cases hbefore
      rw [hrank t habove]
      omega

end

/-! ## Bisection -/

/-- The first index from `lo` on, and before `hi`, that is not below. -/
def bisect (below : ℕ → Bool) (lo hi : ℕ) : ℕ :=
  if lo < hi then
    if below ((lo + hi) / 2) then bisect below ((lo + hi) / 2 + 1) hi
    else bisect below lo ((lo + hi) / 2)
  else lo
termination_by hi - lo
decreasing_by all_goals omega

/-- Where the indices that are below come first, bisection finds the others. -/
theorem bisect_spec {below : ℕ → Bool} {lo hi : ℕ} (hle : lo ≤ hi)
    (hmono : ∀ i j, i ≤ j → j < hi → below j = true → below i = true) :
    lo ≤ bisect below lo hi ∧ bisect below lo hi ≤ hi ∧
      (∀ i, lo ≤ i → i < bisect below lo hi → below i = true) ∧
      ∀ i, bisect below lo hi ≤ i → i < hi → below i = false := by
  fun_induction bisect below lo hi with
  | case1 lo hi hlt hbelow ih =>
    obtain ⟨hlo, hhi, hfirst, hlast⟩ := ih (by omega) hmono
    refine ⟨by omega, hhi, fun i _ hi' => ?_, hlast⟩
    by_cases hmid : i ≤ (lo + hi) / 2
    · exact hmono i _ hmid (by omega) hbelow
    · exact hfirst i (by omega) hi'
  | case2 lo hi hlt hbelow ih =>
    have hbelow' : below ((lo + hi) / 2) = false := by simpa using hbelow
    obtain ⟨hlo, hhi, hfirst, hlast⟩ := ih (by omega) fun i j hij hj => hmono i j hij (by omega)
    refine ⟨hlo, by omega, hfirst, fun i hge hi' => ?_⟩
    by_cases hmid : i < (lo + hi) / 2
    · exact hlast i hge hmid
    · cases hbelowi : below i with
      | false => rfl
      | true =>
        rw [hmono _ i (by omega) hi' hbelowi] at hbelow'
        cases hbelow'
  | case3 lo hi hge => exact ⟨le_rfl, hle, by omega, by omega⟩

/-! ## Packing -/

/-- A list of bits as a sequence. Past the end no bit is set. -/
def ofList (bits : List Bool) (i : ℕ) : Bool := bits.getD i false

/-- A list of bits in words. -/
def packBits (w : ℕ) (bits : List Bool) (nwords : ℕ) : List ℕ :=
  (List.range nwords).map fun n => Nat.ofBits fun j : Fin w => ofList bits (w * n + j)

/-- Packing gives as many words as asked for. -/
@[simp] theorem length_packBits (w : ℕ) (bits : List Bool) (nwords : ℕ) :
    (packBits w bits nwords).length = nwords := by
  simp [packBits]

/-- A packed word has the bits of its stretch. -/
theorem getD_packBits {w nwords n : ℕ} (bits : List Bool) (hn : n < nwords) :
    (packBits w bits nwords).getD n 0 = Nat.ofBits fun j : Fin w => ofList bits (w * n + j) := by
  rw [List.getD_eq_getElem _ _ (by simpa using hn)]
  simp [packBits]

/-- Every word is within its width. -/
theorem packBits_lt {w nwords n : ℕ} (bits : List Bool) :
    (packBits w bits nwords).getD n 0 < 2 ^ w := by
  by_cases hn : n < nwords
  · rw [getD_packBits bits hn]
    exact Nat.ofBits_lt_two_pow _
  · rw [List.getD_eq_default _ _ (by simpa using hn)]
    exact Nat.two_pow_pos w

/-- The words keep the bits. -/
theorem bit_packBits {w nwords : ℕ} (hw : 0 < w) {bits : List Bool}
    (hfit : bits.length ≤ w * nwords) : bit w (packBits w bits nwords) = ofList bits := by
  funext i
  unfold bit
  by_cases hi : i / w < nwords
  · rw [getD_packBits bits hi, Nat.testBit_ofBits_lt _ _ (Nat.mod_lt i hw)]
    simp only [Nat.div_add_mod]
  · have hlen : bits.length ≤ i := by
      have hle : w * nwords ≤ w * (i / w) := Nat.mul_le_mul_left w (Nat.not_lt.mp hi)
      have hdiv := Nat.mul_div_le i w
      omega
    rw [List.getD_eq_default _ _ (by simpa using hi), ofList, List.getD_eq_default _ _ hlen,
      Nat.zero_testBit]

/-! ## Blocks -/

/-- The rank goes on behind the first list. -/
theorem rank_ofList_append (xs ys : List Bool) (n : ℕ) :
    rank (ofList (xs ++ ys)) (xs.length + n) = rank (ofList xs) xs.length + rank (ofList ys) n := by
  rw [rank_add]
  congr 1
  · apply rank_congr
    intro i hi
    rw [ofList, List.getD_append _ _ _ _ hi, ofList]
  · apply rank_congr
    intro i _
    rw [ofList, List.getD_append_right _ _ _ _ (by omega), ofList, Nat.add_sub_cancel_left]

/-- No bit is set past the end. -/
theorem rank_ofList_le (bits : List Bool) (n : ℕ) :
    rank (ofList bits) n ≤ rank (ofList bits) bits.length := by
  rcases Nat.le_total n bits.length with h | h
  · exact rank_mono h
  · obtain ⟨m, rfl⟩ := Nat.exists_eq_add_of_le h
    have hnone : rank (fun i => ofList bits (bits.length + i)) m = rank (fun _ => false) m := by
      apply rank_congr
      intro i _
      exact List.getD_eq_default _ _ (by omega)
    rw [rank_add, hnone]
    simp [rank]

/-- The rank of a marked element is its position among the marked elements. -/
theorem getElem?_filter_rank {α : Type} {mark : α → Bool} {xs : List α} {p : ℕ} {a : α}
    (hget : xs[p]? = some a) (hmark : mark a = true) :
    (xs.filter mark)[rank (ofList (xs.map mark)) p]? = some a := by
  induction xs generalizing p with
  | nil => simp at hget
  | cons x xs ih =>
    cases p with
    | zero =>
      obtain rfl : x = a := by simpa using hget
      rw [List.filter_cons_of_pos hmark]
      rfl
    | succ p =>
      have hrest := ih (by simpa using hget)
      have hsplit := rank_ofList_append [mark x] (xs.map mark) p
      rw [List.length_singleton, Nat.add_comm, List.singleton_append] at hsplit
      rw [List.map_cons, hsplit, rank_succ, rank_zero]
      by_cases hx : mark x = true
      · rw [List.filter_cons_of_pos hx]
        have hone : ofList [mark x] 0 = true := hx
        rw [if_pos hone, Nat.zero_add, Nat.add_comm 1, List.getElem?_cons_succ]
        exact hrest
      · rw [List.filter_cons_of_neg hx]
        have hzero : ¬ofList [mark x] 0 = true := hx
        rw [if_neg hzero, Nat.zero_add]
        exact hrest

/-- A list that is not empty and has its first element marked, and no other. -/
def Marked {α : Type} (mark : α → Bool) : List α → Prop
  | [] => False
  | a :: as => mark a = true ∧ ∀ b ∈ as, mark b = false

/-- Where a block begins, when blocks stand one behind the other. -/
def blockStart {α : Type} (blocks : List (List α)) (i : ℕ) : ℕ := (blocks.take i).flatten.length

section

variable {α : Type} {mark : α → Bool} {blocks : List (List α)} {i : ℕ}

/-- The first block starts at 0. -/
@[simp] theorem blockStart_zero (blocks : List (List α)) : blockStart blocks 0 = 0 := by
  simp [blockStart]

/-- The next block starts where the block before ends. -/
theorem blockStart_succ (hi : i < blocks.length) :
    blockStart blocks (i + 1) = blockStart blocks i + blocks[i].length := by
  rw [blockStart, blockStart, List.take_succ_eq_append_getElem hi, List.flatten_append,
    List.length_append, List.flatten_singleton]

/-- Behind the last block there is nothing. -/
@[simp] theorem blockStart_length (blocks : List (List α)) :
    blockStart blocks blocks.length = blocks.flatten.length := by
  rw [blockStart, List.take_length]

/-- Every block starts inside the list. -/
theorem blockStart_le (blocks : List (List α)) (i : ℕ) :
    blockStart blocks i ≤ blocks.flatten.length := by
  have hsplit := congrArg (fun bs => bs.flatten.length) (List.take_append_drop i blocks)
  simp only [List.flatten_append, List.length_append] at hsplit
  unfold blockStart
  omega

/-- All blocks, up to a block, the block, and behind it. -/
theorem flatten_eq_blocks (hi : i < blocks.length) :
    blocks.flatten = (blocks.take i).flatten ++ (blocks[i] ++ (blocks.drop (i + 1)).flatten) := by
  have hsplit : blocks = blocks.take i ++ blocks[i] :: blocks.drop (i + 1) := by
    rw [← List.drop_eq_getElem_cons hi, List.take_append_drop]
  calc blocks.flatten = (blocks.take i ++ blocks[i] :: blocks.drop (i + 1)).flatten := by rw [← hsplit]
    _ = _ := by rw [List.flatten_append, List.flatten_cons]

/-- An element of a block among all elements. -/
theorem getElem?_flatten_blocks (hi : i < blocks.length) {e : ℕ} (he : e < blocks[i].length) :
    blocks.flatten[blockStart blocks i + e]? = some (blocks[i][e]) := by
  rw [flatten_eq_blocks hi, List.getElem?_append_right (by unfold blockStart; omega)]
  have hsub : blockStart blocks i + e - (blocks.take i).flatten.length = e := by
    unfold blockStart
    omega
  rw [hsub, List.getElem?_append_left he, List.getElem?_eq_getElem he]

/-- A block that has a mark begins before the end. -/
theorem blockStart_lt (h : ∀ block ∈ blocks, Marked mark block) (hi : i < blocks.length) :
    blockStart blocks i < blocks.flatten.length := by
  have hnext := blockStart_le blocks (i + 1)
  have hmarked := h blocks[i] (List.getElem_mem hi)
  have hpos : 0 < blocks[i].length := by
    rw [List.length_pos_iff]
    intro hnil
    rw [hnil] at hmarked
    exact hmarked
  rw [blockStart_succ hi] at hnext
  omega

/-- A block has one mark. -/
theorem rank_marked {block : List α} (h : Marked mark block) {n : ℕ} (hn : 0 < n) :
    rank (ofList (block.map mark)) n = 1 := by
  cases block with
  | nil => exact h.elim
  | cons a as =>
    obtain ⟨ha, has⟩ := h
    obtain ⟨m, rfl⟩ : ∃ m, n = 1 + m := ⟨n - 1, by omega⟩
    have hrest : rank (ofList (as.map mark)) m = rank (fun _ => false) m := by
      apply rank_congr
      intro j _
      unfold ofList
      by_cases hj : j < as.length
      · rw [List.getD_eq_getElem _ _ (by simpa using hj), List.getElem_map]
        exact has _ (List.getElem_mem hj)
      · exact List.getD_eq_default _ _ (by simpa using hj)
    have hsplit := rank_ofList_append [mark a] (as.map mark) m
    rw [hrest] at hsplit
    rw [List.map_cons, ← List.singleton_append]
    have hone : rank (ofList [mark a]) 1 = 1 := by
      rw [rank_succ, rank_zero, ha]
      rfl
    rw [List.length_singleton, hone] at hsplit
    rw [hsplit]
    simp [rank]

/-- The rank of the beginning of a block is the number of blocks before it. -/
theorem rank_blockStart (h : ∀ block ∈ blocks, Marked mark block) (hi : i ≤ blocks.length) :
    rank (ofList (blocks.flatten.map mark)) (blockStart blocks i) = i := by
  induction i with
  | zero => simp
  | succ i ih =>
    have hlt : i < blocks.length := by omega
    have hmarked := h blocks[i] (List.getElem_mem hlt)
    have hpos : 0 < blocks[i].length := by
      rw [List.length_pos_iff]
      intro hnil
      rw [hnil] at hmarked
      exact hmarked
    have hbefore := ih (by omega)
    rw [blockStart_succ hlt]
    rw [flatten_eq_blocks hlt, List.map_append, List.map_append] at hbefore ⊢
    have hlen : blockStart blocks i = ((blocks.take i).flatten.map mark).length := by
      rw [List.length_map, blockStart]
    have hsplit := rank_ofList_append ((blocks.take i).flatten.map mark)
      (blocks[i].map mark ++ (blocks.drop (i + 1)).flatten.map mark)
    have hstart := hsplit 0
    simp only [Nat.add_zero, rank_zero, ← hlen, hbefore] at hstart
    rw [hlen, hsplit, ← hlen, ← hstart]
    have hblock : rank (ofList (blocks[i].map mark ++ (blocks.drop (i + 1)).flatten.map mark))
        blocks[i].length = rank (ofList (blocks[i].map mark)) blocks[i].length := by
      apply rank_congr
      intro j hj
      rw [ofList, List.getD_append _ _ _ _ (by simpa using hj), ofList]
    rw [hblock, rank_marked hmarked hpos]

/-- The beginning of a block is marked. -/
theorem ofList_blockStart (h : ∀ block ∈ blocks, Marked mark block) (hi : i < blocks.length) :
    ofList (blocks.flatten.map mark) (blockStart blocks i) = true := by
  have hmarked := h blocks[i] (List.getElem_mem hi)
  cases hblock : blocks[i] with
  | nil =>
    rw [hblock] at hmarked
    exact hmarked.elim
  | cons a as =>
    have hlen : 0 < blocks[i].length := by simp [hblock]
    have hget := getElem?_flatten_blocks hi hlen
    rw [Nat.add_zero] at hget
    rw [hblock] at hmarked
    unfold ofList
    rw [List.getD_eq_getElem?_getD, List.getElem?_map, hget]
    simp [hblock, hmarked.1]

end

end RankSelect
