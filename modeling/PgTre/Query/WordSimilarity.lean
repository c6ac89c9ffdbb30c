import PgTre.Query.Hash
import PgTre.Util.DenseRank
import PgTre.Util.SlidingWindow
import Mathlib.Data.Finset.Sort
import Mathlib.Data.List.Infix
import Mathlib.Logic.Function.Basic

/-!
# Word similarity

`calc_word_sim` of `src/query/trgm_similarity.c` looks for the part of one string that resembles
another string most. It numbers the distinct trigrams of both strings, and passes once over the
trigrams of the second one. The pass keeps a lower bound, which only moves up, the numbers of
distinct and of common trigrams from there on, and the last position of each trigram.
-/

namespace PgTre

/-! ## Positional trigrams -/

/-- What `pos_trgm` uses of the server encoding: `pg_mblen` and the first character that
`pg_mb2wchar_with_len` writes. -/
structure WcharEncoding where
  mblen : List UInt8 → ℤ
  mb2wchar : List UInt8 → UInt32

/-- The characters of a string, with the ASCII letters in lower case. -/
def trgmChars (enc : WcharEncoding) : List UInt8 → List CodePoint
  | [] => []
  | c :: s =>
      let mblen := enc.mblen (c :: s)
      let clen := if mblen ≤ 0 ∨ (c :: s).length < mblen then 1 else mblen.toNat
      let wc := enc.mb2wchar ((c :: s).take clen)
      let wc := if 65 ≤ wc ∧ wc ≤ 90 then wc + 32 else wc
      wc.toNat :: trgmChars enc (s.drop (clen - 1))
  termination_by s => s.length
  decreasing_by
    simp only [List.length_drop, List.length_cons]
    omega

/-- `isword` of a character. -/
def isWordChar (wc : CodePoint) : Bool :=
  128 ≤ wc || (48 ≤ wc && wc ≤ 57) || (97 ≤ wc && wc ≤ 122)

/-- The words among the characters, of which `word` has been read already. -/
def wordsFrom (word : List CodePoint) : List CodePoint → List (List CodePoint)
  | [] => if word = [] then [] else [word]
  | c :: cs =>
      if isWordChar c then wordsFrom (word ++ [c]) cs
      else if word = [] then wordsFrom [] cs
      else word :: wordsFrom [] cs

/-- The ring of `pos_trgm`: each character with the two before it. -/
def ringTrigrams (r0 r1 : CodePoint) : List CodePoint → List Trigram
  | [] => []
  | ch :: chs => (r0, r1, ch) :: ringTrigrams r1 ch chs

/-- A trigram's hash, folded to 32 bits. -/
def foldedHash (t : Trigram) : UInt32 :=
  let fh := hashTrigramCp t
  (fh ^^^ (fh >>> 32)).toUInt32

/-- The trigrams of a word, with two spaces before it and one after it. -/
def wordTrigrams (word : List CodePoint) : List UInt32 :=
  (ringTrigrams 32 32 (word ++ [32])).map foldedHash

/-- `TRE_BOUND_LEFT` and `TRE_BOUND_RIGHT` at one position. -/
structure TrgmBound where
  left : Bool
  right : Bool
deriving DecidableEq

/-- `PosTrgm`: the hashes in textual order, and the bounds unless they are not wanted. -/
structure PosTrgm where
  hashes : List UInt32
  bounds : List TrgmBound

/-- The bounds of a word of `n` trigrams. -/
def wordBounds (n : ℕ) : List TrgmBound :=
  (List.range n).map fun k => { left := k == 0, right := k + 1 == n }

/-- The trigrams of each word of a string. -/
def trgmWords (enc : WcharEncoding) (str : List UInt8) : List (List UInt32) :=
  (wordsFrom [] (trgmChars enc str)).map wordTrigrams

/-- `pos_trgm`. -/
def posTrgm (enc : WcharEncoding) (str : List UInt8) (wantBounds : Bool) : PosTrgm :=
  let words := trgmWords enc str
  { hashes := words.flatten
    bounds := if wantBounds then words.flatMap fun word => wordBounds word.length else [] }

/-! ## The numbering of distinct trigrams -/

/-- `MergeRec`. The index is -1 for the first string and a position in the second one. -/
structure MergeRec where
  hash : UInt32
  index : ℤ
deriving DecidableEq

/-- `cmp_merge`. -/
def cmpMerge (p q : MergeRec) : Ordering :=
  if p.hash < q.hash then .lt
  else if q.hash < p.hash then .gt
  else if p.index < q.index then .lt
  else if q.index < p.index then .gt
  else .eq

/-- The loop that keeps one of each run of equal hashes. -/
def withoutRepeats (hashes : List UInt32) : List UInt32 :=
  hashes.foldl (fun kept h => if kept.getLast? = some h then kept else kept ++ [h]) []

/-- The records of both strings, sorted. -/
def mergeRecs (hashes1 hashes2 : List UInt32) : List MergeRec :=
  let u1 := withoutRepeats (hashes1.mergeSort (fun a b => a ≤ b))
  let recs1 : List MergeRec := u1.map fun h => { hash := h, index := -1 }
  let recs2 : List MergeRec := hashes2.zipIdx.map fun h => { hash := h.1, index := h.2 }
  (recs1 ++ recs2).mergeSort fun p q => cmpMerge p q != .gt

/-- The variables of the numbering loop. -/
structure Numbering where
  j : ℕ
  /-- The hash of the record before. -/
  prev : Option UInt32
  trg2indexes : ℕ → ℕ
  found : ℕ → Bool
  ulen1 : ℕ

/-- `ulen1` once all records of the current number are read. -/
def Numbering.total (s : Numbering) : ℕ :=
  if s.found s.j then s.ulen1 + 1 else s.ulen1

/-- A hash other than the one before gets the next number. -/
def Numbering.advance (s : Numbering) (hash : UInt32) : Numbering :=
  if s.prev.isSome ∧ s.prev ≠ some hash then
    { s with ulen1 := s.total, j := s.j + 1, prev := some hash }
  else { s with prev := some hash }

/-- The record's position gets the current number, or the number is one of the first string. -/
def Numbering.record (s : Numbering) (index : ℤ) : Numbering :=
  if 0 ≤ index then { s with trg2indexes := Function.update s.trg2indexes index.toNat s.j }
  else { s with found := Function.update s.found s.j true }

/-- The numbering loop. -/
def numbering (merge : List MergeRec) : Numbering :=
  merge.foldl (fun s r => (s.advance r.hash).record r.index)
    { j := 0, prev := none, trg2indexes := fun _ => 0, found := fun _ => false, ulen1 := 0 }

/-! ## The search -/

/-- The arguments of `iterate_word_sim`. -/
structure WordSimInput where
  trg2indexes : ℕ → ℕ
  found : ℕ → Bool
  ulen1 : ℕ
  len2 : ℕ
  strict : Bool
  bounds : List TrgmBound

/-- A similarity; `none` is a division by zero. -/
def WordSimInput.smlr (inp : WordSimInput) (count ulen2 : ℤ) : Option ℚ :=
  if inp.ulen1 + ulen2 - count = 0 then none
  else some (count / (inp.ulen1 + ulen2 - count : ℤ))

/-- Whether an extent may begin at a position. -/
def WordSimInput.isLower (inp : WordSimInput) (i : ℕ) : Bool :=
  !inp.strict || (inp.bounds.getD i ⟨false, false⟩).left

/-- Whether extents that end at a position are tried. -/
def WordSimInput.isUpper (inp : WordSimInput) (i : ℕ) : Bool :=
  if inp.strict then (inp.bounds.getD i ⟨false, false⟩).right else inp.found (inp.trg2indexes i)

/-- The variables of the loop over lower bounds. -/
structure Shrinking where
  smlrCur : ℚ
  ulen2 : ℤ
  count : ℤ
  lower : ℕ
  tmpUlen2 : ℤ
  tmpCount : ℤ

/-- The lower bound `tmpLower` is taken if it is better than the one taken before. -/
def WordSimInput.tryLower (inp : WordSimInput) (s : Shrinking) (tmpLower : ℕ) :
    Option Shrinking :=
  if inp.isLower tmpLower then
    (inp.smlr s.tmpCount s.tmpUlen2).map fun smlrTmp =>
      if smlrTmp > s.smlrCur then
        { s with smlrCur := smlrTmp, ulen2 := s.tmpUlen2, count := s.tmpCount, lower := tmpLower }
      else s
  else some s

/-- The position `tmpLower` leaves the extent. -/
def WordSimInput.leaveLower (inp : WordSimInput) (lastpos : ℕ → Option ℕ) (s : Shrinking)
    (tmpLower : ℕ) : Shrinking :=
  let tmpTrgindex := inp.trg2indexes tmpLower
  if lastpos tmpTrgindex = some tmpLower then
    { s with
      tmpUlen2 := s.tmpUlen2 - 1
      tmpCount := if inp.found tmpTrgindex then s.tmpCount - 1 else s.tmpCount }
  else s

/-- The loop over the lower bounds from `lower` to `upper`. -/
def WordSimInput.shrink (inp : WordSimInput) (lastpos : ℕ → Option ℕ) (s : Shrinking)
    (lower upper : ℕ) : Option Shrinking :=
  (List.range' lower (upper + 1 - lower)).foldlM
    (fun s tmpLower => (inp.tryLower s tmpLower).map fun s => inp.leaveLower lastpos s tmpLower) s

/-- The marks of the position `tmpLower` are undone. -/
def WordSimInput.unmark (inp : WordSimInput) (lastpos : ℕ → Option ℕ) (tmpLower : ℕ) :
    ℕ → Option ℕ :=
  let tmpTrgindex := inp.trg2indexes tmpLower
  if lastpos tmpTrgindex = some tmpLower then Function.update lastpos tmpTrgindex none
  else lastpos

/-- The variables of `iterate_word_sim`. A mark and the lower bound are `none` for -1. -/
structure WordSimState where
  lastpos : ℕ → Option ℕ
  ulen2 : ℤ
  count : ℤ
  lower : Option ℕ
  smlrMax : ℚ

/-- The trigram at position `i` is counted and marked, once there is a lower bound or if it is
common. -/
def WordSimInput.enter (inp : WordSimInput) (s : WordSimState) (i : ℕ) : WordSimState :=
  let trgindex := inp.trg2indexes i
  if s.lower.isSome || inp.found trgindex then
    { s with
      ulen2 := if (s.lastpos trgindex).isNone then s.ulen2 + 1 else s.ulen2
      count :=
        if (s.lastpos trgindex).isNone && inp.found trgindex then s.count + 1 else s.count
      lastpos := Function.update s.lastpos trgindex (some i) }
  else s

/-- The extents that end at position `i` are tried from the lower bound on. -/
def WordSimInput.tryUpper (inp : WordSimInput) (s : WordSimState) (i : ℕ) :
    Option WordSimState :=
  let prevLower := s.lower.getD i
  let ulen2 := if s.lower.isNone then 1 else s.ulen2
  (inp.smlr s.count ulen2).bind fun smlrCur =>
    (inp.shrink s.lastpos ⟨smlrCur, ulen2, s.count, prevLower, ulen2, s.count⟩ prevLower i).map
      fun r =>
        { lastpos := (List.range' prevLower (r.lower - prevLower)).foldl inp.unmark s.lastpos
          ulen2 := r.ulen2
          count := r.count
          lower := some r.lower
          smlrMax := max s.smlrMax r.smlrCur }

/-- One turn of the loop over the positions of the second string. -/
def WordSimInput.step (inp : WordSimInput) (s : WordSimState) (i : ℕ) : Option WordSimState :=
  let s := inp.enter s i
  if inp.isUpper i then inp.tryUpper s i else some s

/-- The state before the first position. -/
def WordSimInput.init (inp : WordSimInput) : WordSimState where
  lastpos := fun _ => none
  ulen2 := 0
  count := 0
  lower := if inp.strict then some 0 else none
  smlrMax := 0

/-- `iterate_word_sim`, with rationals for its floats. -/
def WordSimInput.iterate (inp : WordSimInput) (len : ℕ) : Option ℚ :=
  if len = 0 then some 0
  else ((List.range inp.len2).foldlM inp.step inp.init).map WordSimState.smlrMax

/-- The arguments of `iterate_word_sim` that `calc_word_sim` makes of two strings. -/
def wordSimInput (t1 t2 : PosTrgm) (strict : Bool) : WordSimInput :=
  let n := numbering (mergeRecs t1.hashes t2.hashes)
  { trg2indexes := n.trg2indexes
    found := n.found
    ulen1 := n.total
    len2 := t2.hashes.length
    strict := strict
    bounds := t2.bounds }

/-- `calc_word_sim`; `none` is a division by zero. -/
def calcWordSim (enc : WcharEncoding) (str1 str2 : List UInt8) (strict : Bool) : Option ℚ :=
  let t1 := posTrgm enc str1 false
  let t2 := posTrgm enc str2 strict
  if t1.hashes.length + t2.hashes.length = 0 then some 0
  else (wordSimInput t1 t2 strict).iterate (mergeRecs t1.hashes t2.hashes).length

/-! ## The numbers are ranks -/

section

open DenseRank

/-- The hashes of all records. -/
def mergeHashes (merge : List MergeRec) : Finset ℕ := (merge.map fun r => r.hash.toNat).toFinset

/-- The hashes of the records of the first string. -/
def mergeArgs (merge : List MergeRec) : Finset UInt32 :=
  ((merge.filter fun r => r.index < 0).map MergeRec.hash).toFinset

/-- The merged hashes are those of the records. -/
theorem mem_mergeHashes {merge : List MergeRec} {n : ℕ} :
    n ∈ mergeHashes merge ↔ ∃ r ∈ merge, r.hash.toNat = n := by
  simp [mergeHashes]

/-- The hashes of the argument are those of its records. -/
theorem mem_mergeArgs {merge : List MergeRec} {h : UInt32} :
    h ∈ mergeArgs merge ↔ ∃ r ∈ merge, r.index < 0 ∧ r.hash = h := by
  simp [mergeArgs, and_assoc]

/-- One more record adds its hash. -/
theorem mergeHashes_append (merge : List MergeRec) (r : MergeRec) :
    mergeHashes (merge ++ [r]) = insert r.hash.toNat (mergeHashes merge) := by
  ext n
  simp [mergeHashes, eq_comm]

/-- What the numbering loop has done with the records `merge` while its current hash is `h`. -/
structure Numbering.Ranks (s : Numbering) (merge : List MergeRec) (h : UInt32) : Prop where
  prev : s.prev = some h
  le : ∀ r ∈ merge, r.hash ≤ h
  j : s.j = rank (mergeHashes merge) h.toNat
  trg2indexes : ∀ r ∈ merge, 0 ≤ r.index →
    s.trg2indexes r.index.toNat = rank (mergeHashes merge) r.hash.toNat
  found : ∀ t, s.found t = true ↔
    ∃ r ∈ merge, r.index < 0 ∧ rank (mergeHashes merge) r.hash.toNat = t
  ulen1 : s.ulen1 = ((mergeArgs merge).filter fun x => x < h).card

variable {s : Numbering} {merge : List MergeRec} {h : UInt32}

/-- A hash of the list has been found if it is one of the first string. -/
theorem Numbering.Ranks.found_iff (hs : s.Ranks merge h) {r : MergeRec} (hr : r ∈ merge) :
    s.found (rank (mergeHashes merge) r.hash.toNat) = true ↔ r.hash ∈ mergeArgs merge := by
  rw [hs.found, mem_mergeArgs]
  refine exists_congr fun q => and_congr_right fun hq => and_congr_right fun _ => ?_
  rw [rank_inj (mem_mergeHashes.mpr ⟨q, hq, rfl⟩) (mem_mergeHashes.mpr ⟨r, hr, rfl⟩),
    UInt32.toNat_inj]

/-- With the current number, all hashes of the first string are counted. -/
theorem Numbering.Ranks.total_eq (hs : s.Ranks merge h) (hmem : ∃ r ∈ merge, r.hash = h) :
    s.total = (mergeArgs merge).card := by
  obtain ⟨r, hr, rfl⟩ := hmem
  have hle : ∀ x ∈ mergeArgs merge, x ≠ r.hash → x < r.hash := by
    intro x hx hne
    obtain ⟨q, hq, -, rfl⟩ := mem_mergeArgs.mp hx
    exact UInt32.lt_of_le_of_ne (hs.le q hq) hne
  have hsplit : (mergeArgs merge).filter (fun x => x < r.hash) = (mergeArgs merge).erase r.hash := by
    ext x
    rw [Finset.mem_filter, Finset.mem_erase]
    constructor
    · rintro ⟨hx, hlt⟩
      exact ⟨UInt32.ne_of_lt hlt, hx⟩
    · rintro ⟨hne, hx⟩
      exact ⟨hx, hle x hx hne⟩
  unfold Numbering.total
  rw [hs.ulen1, hsplit, hs.j]
  by_cases hfound : r.hash ∈ mergeArgs merge
  · rw [if_pos ((hs.found_iff hr).mpr hfound), Finset.card_erase_add_one hfound]
  · rw [if_neg (fun h => hfound ((hs.found_iff hr).mp h)), Finset.erase_eq_of_notMem hfound]

/-- The next hash in ascending order gets its rank. -/
theorem Numbering.Ranks.advance (hs : s.Ranks merge h) (hmem : ∃ r ∈ merge, r.hash = h)
    {h' : UInt32} (hle : h ≤ h') : (s.advance h').Ranks merge h' := by
  by_cases heq : h = h'
  · subst heq
    have hkeep : s.advance h = s := by
      unfold Numbering.advance
      rw [if_neg (fun hne => hne.2 hs.prev), ← hs.prev]
    rwa [hkeep]
  · have hlt : h < h' := UInt32.lt_of_le_of_ne hle heq
    have hnext : s.advance h' = { s with ulen1 := s.total, j := s.j + 1, prev := some h' } := by
      unfold Numbering.advance
      rw [if_pos ⟨by rw [hs.prev]; rfl, by rw [hs.prev]; simpa using heq⟩]
    have hbelow : (mergeArgs merge).filter (fun x => x < h') = mergeArgs merge := by
      refine Finset.filter_true_of_mem fun x hx => ?_
      obtain ⟨q, hq, -, rfl⟩ := mem_mergeArgs.mp hx
      exact UInt32.lt_of_le_of_lt (hs.le q hq) hlt
    rw [hnext]
    refine ⟨rfl, fun r hr => UInt32.le_trans (hs.le r hr) hle, ?_, hs.trg2indexes, hs.found, ?_⟩
    · obtain ⟨r, hr, rfl⟩ := hmem
      have hgreatest : ∀ z ∈ mergeHashes merge, z ≤ r.hash.toNat := by
        intro z hz
        obtain ⟨q, hq, rfl⟩ := mem_mergeHashes.mp hz
        exact UInt32.le_iff_toNat_le.mp (hs.le q hq)
      rw [rank_of_lt (mem_mergeHashes.mpr ⟨r, hr, rfl⟩) hgreatest (UInt32.lt_iff_toNat_lt.mp hlt),
        ← hs.j]
    · rw [hbelow]
      exact hs.total_eq hmem

/-- A record with the current hash. -/
theorem Numbering.Ranks.record {r : MergeRec} (hs : s.Ranks merge r.hash)
    (hindex : ∀ q ∈ merge, 0 ≤ q.index → q.index = r.index → q.hash = r.hash) :
    (s.record r.index).Ranks (merge ++ [r]) r.hash := by
  -- the new hash is not below any hash of the list
  have hrank (x : UInt32) (hx : x ≤ r.hash) :
      rank (mergeHashes (merge ++ [r])) x.toNat = rank (mergeHashes merge) x.toNat := by
    rw [mergeHashes_append, rank_insert_of_le (UInt32.le_iff_toNat_le.mp hx)]
  have hle : ∀ q ∈ merge ++ [r], q.hash ≤ r.hash := by
    intro q hq
    rcases List.mem_append.mp hq with hq | hq
    · exact hs.le q hq
    · rw [List.mem_singleton.mp hq]
      exact UInt32.le_refl _
  have hargs : (mergeArgs (merge ++ [r])).filter (fun x => x < r.hash) =
      (mergeArgs merge).filter (fun x => x < r.hash) := by
    ext x
    simp only [Finset.mem_filter, mem_mergeArgs]
    refine and_congr_left fun hlt => ⟨?_, ?_⟩
    · rintro ⟨q, hq, hneg, rfl⟩
      rcases List.mem_append.mp hq with hq | hq
      · exact ⟨q, hq, hneg, rfl⟩
      · rw [List.mem_singleton.mp hq] at hlt
        exact absurd hlt (UInt32.lt_irrefl _)
    · rintro ⟨q, hq, hneg, rfl⟩
      exact ⟨q, List.mem_append_left _ hq, hneg, rfl⟩
  have hj : s.j = rank (mergeHashes (merge ++ [r])) r.hash.toNat := by
    rw [hrank r.hash (UInt32.le_refl _), hs.j]
  have hfound : ∀ t, s.found t = true ↔
      ∃ q ∈ merge, q.index < 0 ∧ rank (mergeHashes (merge ++ [r])) q.hash.toNat = t := by
    intro t
    rw [hs.found]
    refine exists_congr fun q => and_congr_right fun hq => ?_
    rw [hrank q.hash (hs.le q hq)]
  unfold Numbering.record
  split_ifs with hpos
  · refine ⟨hs.prev, hle, hj, ?_, ?_, ?_⟩
    · intro q hq hqpos
      change Function.update s.trg2indexes r.index.toNat s.j q.index.toNat = _
      rw [hrank q.hash (hle q hq)]
      by_cases hsame : q.index = r.index
      · have hhash : q.hash = r.hash := by
          rcases List.mem_append.mp hq with hq | hq
          · exact hindex q hq hqpos hsame
          · rw [List.mem_singleton.mp hq]
        rw [hsame, Function.update_self, hhash, hs.j]
      · have hold : q ∈ merge := by
          rcases List.mem_append.mp hq with hq | hq
          · exact hq
          · exact absurd (congrArg MergeRec.index (List.mem_singleton.mp hq)) hsame
        have hne : q.index.toNat ≠ r.index.toNat := by omega
        rw [Function.update_of_ne hne, hs.trg2indexes q hold hqpos]
    · intro t
      rw [hfound]
      constructor
      · rintro ⟨q, hq, hneg, rfl⟩
        exact ⟨q, List.mem_append_left _ hq, hneg, rfl⟩
      · rintro ⟨q, hq, hneg, rfl⟩
        rcases List.mem_append.mp hq with hq | hq
        · exact ⟨q, hq, hneg, rfl⟩
        · rw [List.mem_singleton.mp hq] at hneg
          omega
    · rw [hargs, hs.ulen1]
  · refine ⟨hs.prev, hle, hj, ?_, ?_, ?_⟩
    · intro q hq hqpos
      rcases List.mem_append.mp hq with hold | hnew
      · rw [hrank q.hash (hle q hq)]
        exact hs.trg2indexes q hold hqpos
      · rw [List.mem_singleton.mp hnew] at hqpos
        exact absurd hqpos hpos
    · intro t
      change Function.update s.found s.j true t = true ↔ _
      by_cases ht : t = s.j
      · rw [ht, Function.update_self]
        exact iff_of_true rfl ⟨r, by simp, by omega, hj.symm⟩
      · rw [Function.update_of_ne ht, hfound]
        constructor
        · rintro ⟨q, hq, hneg, rfl⟩
          exact ⟨q, List.mem_append_left _ hq, hneg, rfl⟩
        · rintro ⟨q, hq, hneg, rfl⟩
          rcases List.mem_append.mp hq with hq | hq
          · exact ⟨q, hq, hneg, rfl⟩
          · rw [List.mem_singleton.mp hq] at ht
            exact absurd hj.symm ht
    · rw [hargs, hs.ulen1]

/-- The numbers that the loop gives to a sorted list of records are the ranks of their hashes. -/
theorem numbering_ranks (hsorted : merge.Pairwise fun p q => p.hash ≤ q.hash)
    (hindex : ∀ p ∈ merge, ∀ q ∈ merge, 0 ≤ p.index → p.index = q.index → p.hash = q.hash)
    (hne : merge ≠ []) :
    ∃ h, (∃ r ∈ merge, r.hash = h) ∧ (numbering merge).Ranks merge h := by
  induction merge using List.reverseRecOn with
  | nil => exact absurd rfl hne
  | append_singleton merge r ih =>
    obtain ⟨hsorted', -, hlast⟩ := List.pairwise_append.mp hsorted
    have hready : ((numbering merge).advance r.hash).Ranks merge r.hash := by
      by_cases hempty : merge = []
      · subst hempty
        exact ⟨rfl, by simp, rfl, by simp, by simp [numbering, Numbering.advance], rfl⟩
      · obtain ⟨h, hmem, hranks⟩ := ih hsorted'
          (fun p hp q hq => hindex p (by simp [hp]) q (by simp [hq])) hempty
        obtain ⟨q, hq, rfl⟩ := id hmem
        exact hranks.advance hmem (hlast q hq r (by simp))
    refine ⟨r.hash, ⟨r, by simp, rfl⟩, ?_⟩
    unfold numbering
    rw [List.foldl_append]
    exact hready.record fun q hq hpos hsame => hindex q (by simp [hq]) r (by simp) hpos hsame

/-! ## The sorted records -/

/-- Dropping repeats keeps the members. -/
@[simp] theorem mem_withoutRepeats {hashes : List UInt32} {x : UInt32} :
    x ∈ withoutRepeats hashes ↔ x ∈ hashes := by
  induction hashes using List.reverseRecOn with
  | nil => rfl
  | append_singleton hashes y ih =>
    have hstep : withoutRepeats (hashes ++ [y]) =
        if (withoutRepeats hashes).getLast? = some y then withoutRepeats hashes
        else withoutRepeats hashes ++ [y] := by
      unfold withoutRepeats
      rw [List.foldl_append]
      rfl
    rw [hstep, List.mem_append, List.mem_singleton]
    split_ifs with hlast
    · rw [← ih]
      refine ⟨.inl, ?_⟩
      rintro (hx | rfl)
      · exact hx
      · exact List.mem_of_getLast? hlast
    · rw [List.mem_append, List.mem_singleton, ih]

/-- The first string has a record for each of its hashes, and the second for each position. -/
theorem mem_mergeRecs {hashes1 hashes2 : List UInt32} {r : MergeRec} :
    r ∈ mergeRecs hashes1 hashes2 ↔
      (r.index = -1 ∧ r.hash ∈ hashes1) ∨ ∃ k : ℕ, r.index = k ∧ hashes2[k]? = some r.hash := by
  simp only [mergeRecs, List.mem_mergeSort, List.mem_append, List.mem_map, mem_withoutRepeats]
  refine or_congr ⟨?_, ?_⟩ ⟨?_, ?_⟩
  · rintro ⟨h, hmem, rfl⟩
    exact ⟨rfl, hmem⟩
  · rintro ⟨hindex, hmem⟩
    exact ⟨r.hash, hmem, by rw [← hindex]⟩
  · rintro ⟨⟨h, k⟩, hmem, rfl⟩
    exact ⟨k, rfl, List.mem_zipIdx_iff_getElem?.mp hmem⟩
  · rintro ⟨k, hindex, hget⟩
    exact ⟨(r.hash, k), List.mem_zipIdx_iff_getElem?.mpr hget, by rw [← hindex]⟩

/-- There is a record if there is a trigram. -/
theorem mergeRecs_ne_nil {hashes1 hashes2 : List UInt32}
    (hne : hashes1.length + hashes2.length ≠ 0) : mergeRecs hashes1 hashes2 ≠ [] := by
  intro hnil
  have hnone : ∀ r, r ∉ mergeRecs hashes1 hashes2 := by
    rw [hnil]
    exact fun _ => List.not_mem_nil
  by_cases hlen : 0 < hashes1.length
  · exact hnone ⟨hashes1[0], -1⟩ (mem_mergeRecs.mpr (.inl ⟨rfl, List.getElem_mem hlen⟩))
  · have hlen2 : 0 < hashes2.length := by omega
    exact hnone ⟨hashes2[0], 0⟩
      (mem_mergeRecs.mpr (.inr ⟨0, rfl, List.getElem?_eq_getElem hlen2⟩))

/-- The order of the records. -/
theorem cmpMerge_ne_gt_iff {p q : MergeRec} :
    (cmpMerge p q != .gt) = true ↔ p.hash < q.hash ∨ p.hash = q.hash ∧ p.index ≤ q.index := by
  simp only [cmpMerge, UInt32.lt_iff_toNat_lt, ← UInt32.toNat_inj]
  split_ifs <;> simp <;> omega

/-- The records are in the order of their hashes. -/
theorem mergeRecs_sorted (hashes1 hashes2 : List UInt32) :
    (mergeRecs hashes1 hashes2).Pairwise fun p q => p.hash ≤ q.hash := by
  have htrans : ∀ p q r : MergeRec, (cmpMerge p q != .gt) = true → (cmpMerge q r != .gt) = true →
      (cmpMerge p r != .gt) = true := by
    intro p q r
    simp only [cmpMerge_ne_gt_iff, UInt32.lt_iff_toNat_lt, ← UInt32.toNat_inj]
    omega
  have htotal : ∀ p q : MergeRec, ((cmpMerge p q != .gt) || (cmpMerge q p != .gt)) = true := by
    intro p q
    simp only [Bool.or_eq_true, cmpMerge_ne_gt_iff, UInt32.lt_iff_toNat_lt, ← UInt32.toNat_inj]
    omega
  refine (List.pairwise_mergeSort htrans htotal _).imp fun hle => ?_
  rw [cmpMerge_ne_gt_iff, UInt32.lt_iff_toNat_lt, ← UInt32.toNat_inj] at hle
  rw [UInt32.le_iff_toNat_le]
  omega

/-- What the numbers say about the trigrams of the two strings: `number` tells the hashes apart. -/
structure WordSimInput.Numbers (inp : WordSimInput) (hashes1 hashes2 : List UInt32)
    (number : UInt32 → ℕ) : Prop where
  injOn : Set.InjOn number {x | x ∈ hashes1 ∨ x ∈ hashes2}
  trg2indexes : ∀ k (hk : k < hashes2.length), inp.trg2indexes k = number hashes2[k]
  found : ∀ x ∈ hashes2, inp.found (number x) = true ↔ x ∈ hashes1
  ulen1 : inp.ulen1 = hashes1.toFinset.card

/-- The numbering of `calc_word_sim`. -/
theorem wordSimInput_numbers (t1 t2 : PosTrgm) (strict : Bool)
    (hne : t1.hashes.length + t2.hashes.length ≠ 0) :
    ∃ number, (wordSimInput t1 t2 strict).Numbers t1.hashes t2.hashes number := by
  have hmem1 : ∀ x ∈ t1.hashes, (⟨x, -1⟩ : MergeRec) ∈ mergeRecs t1.hashes t2.hashes :=
    fun x hx => mem_mergeRecs.mpr (.inl ⟨rfl, hx⟩)
  have hmem2 : ∀ k (hk : k < t2.hashes.length),
      (⟨t2.hashes[k], k⟩ : MergeRec) ∈ mergeRecs t1.hashes t2.hashes :=
    fun k hk => mem_mergeRecs.mpr (.inr ⟨k, rfl, List.getElem?_eq_getElem hk⟩)
  have hindex : ∀ p ∈ mergeRecs t1.hashes t2.hashes, ∀ q ∈ mergeRecs t1.hashes t2.hashes,
      0 ≤ p.index → p.index = q.index → p.hash = q.hash := by
    intro p hp q hq hpos hsame
    rcases mem_mergeRecs.mp hp with ⟨hp, -⟩ | ⟨k, hk, hgetp⟩
    · omega
    rcases mem_mergeRecs.mp hq with ⟨hq, -⟩ | ⟨m, hm, hgetq⟩
    · omega
    have hkm : k = m := by omega
    rw [hkm, hgetq] at hgetp
    exact (Option.some.inj hgetp).symm
  obtain ⟨h, hmem, hranks⟩ := numbering_ranks (mergeRecs_sorted t1.hashes t2.hashes) hindex
    (mergeRecs_ne_nil hne)
  have hargs : mergeArgs (mergeRecs t1.hashes t2.hashes) = t1.hashes.toFinset := by
    ext x
    rw [mem_mergeArgs, List.mem_toFinset]
    constructor
    · rintro ⟨r, hr, hneg, rfl⟩
      rcases mem_mergeRecs.mp hr with ⟨-, hx⟩ | ⟨k, hk, -⟩
      · exact hx
      · omega
    · exact fun hx => ⟨_, hmem1 x hx, by simp, rfl⟩
  refine ⟨fun x => rank (mergeHashes (mergeRecs t1.hashes t2.hashes)) x.toNat, ?_, ?_, ?_, ?_⟩
  · have hhash : ∀ x ∈ {x | x ∈ t1.hashes ∨ x ∈ t2.hashes},
        x.toNat ∈ mergeHashes (mergeRecs t1.hashes t2.hashes) := by
      rintro x (hx | hx)
      · exact mem_mergeHashes.mpr ⟨_, hmem1 x hx, rfl⟩
      · obtain ⟨k, hk, rfl⟩ := List.getElem_of_mem hx
        exact mem_mergeHashes.mpr ⟨_, hmem2 k hk, rfl⟩
    intro x hx y hy heq
    exact UInt32.toNat_inj.mp ((rank_inj (hhash x hx) (hhash y hy)).mp heq)
  · intro k hk
    exact hranks.trg2indexes _ (hmem2 k hk) (Int.natCast_nonneg k)
  · intro x hx
    obtain ⟨k, hk, rfl⟩ := List.getElem_of_mem hx
    have hfound := hranks.found_iff (hmem2 k hk)
    rw [hargs, List.mem_toFinset] at hfound
    exact hfound
  · have htotal := hranks.total_eq hmem
    rwa [hargs] at htotal

end

end PgTre
