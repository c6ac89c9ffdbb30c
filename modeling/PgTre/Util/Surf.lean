import PgTre.Query.RegexAst
import PgTre.Util.RankSelect

/-!
# The succinct range filter

`src/util/surf.c` keeps a set of 64-bit keys in a trie over their bytes, the most significant byte
first. The edges of the trie are listed level by level, and a node is found from the edge above it
by counting: ranks in the bits that say which edges descend, and selection in the bits that say
which edges come first in their node.
-/

namespace PgTre

/-! ## Bit vectors -/

/-- `SurfBitvec`: bits in words of 64, with the rank of every word boundary. -/
structure SurfBitvec where
  words : List ℕ
  rank : List ℕ
  nbits : ℕ
  deriving DecidableEq

def SurfBitvec.nwords (bv : SurfBitvec) : ℕ := bv.words.length

/-- The number of words `bv_init` takes for a number of bits, at least one. -/
def bvNwords (nbits : ℕ) : ℕ := if (nbits + 63) / 64 = 0 then 1 else (nbits + 63) / 64

/-- `bv_init`, the words copied in, and `bv_build_rank`. -/
def bvOfWords (nbits : ℕ) (words : List ℕ) : SurfBitvec :=
  ⟨words, RankSelect.prefixRanks 64 words 0, nbits⟩

/-- Bits collected in bytes, the lowest bit of a byte first. On a little-endian machine their copy
is the bits in words. -/
def bvOfBits (bits : List Bool) : SurfBitvec :=
  bvOfWords bits.length (RankSelect.packBits 64 bits (bvNwords bits.length))

/-- `bv_get`. -/
def bvGet (bv : SurfBitvec) (i : ℕ) : Bool := bv.words.getD (i >>> 6) 0 >>> (i &&& 63) &&& 1 == 1

/-- `bv_rank1`: the number of bits set before a position. -/
def bvRank1 (bv : SurfBitvec) (i : ℕ) : ℕ :=
  let w := i >>> 6
  let off := i &&& 63
  if i = 0 then 0
  else
    let word := if off ≠ 0 then bv.words.getD w 0 &&& (1 <<< off - 1) else 0
    bv.rank.getD w 0 + RankSelect.popcount 64 word

/-- `bv_select1`: the position of the `k`-th set bit, nothing when there are fewer. -/
def bvSelect1 (bv : SurfBitvec) (k : ℕ) : Option ℕ :=
  if k = 0 then none
  else
    let w := RankSelect.bisect (fun mid => bv.rank.getD (mid + 1) 0 < k) 0 bv.nwords
    if bv.nwords ≤ w then none
    else (RankSelect.selectInWord 64 64 (k - bv.rank.getD w 0) (bv.words.getD w 0)).map (w * 64 + ·)

/-- The word of a bit. -/
theorem shiftRight_six (i : ℕ) : i >>> 6 = i / 64 := Nat.shiftRight_eq_div_pow i 6

/-- The place of a bit in its word. -/
theorem and_sixtyThree (i : ℕ) : i &&& 63 = i % 64 := Nat.and_two_pow_sub_one_eq_mod i 6

/-- The words of a bit vector are its packed bits. -/
@[simp] theorem words_bvOfBits (bits : List Bool) :
    (bvOfBits bits).words = RankSelect.packBits 64 bits (bvNwords bits.length) := rfl

/-- The number of words of a bit vector. -/
@[simp] theorem nwords_bvOfBits (bits : List Bool) :
    (bvOfBits bits).nwords = bvNwords bits.length := by
  simp [SurfBitvec.nwords]

/-- The words have room for the bits. -/
theorem le_bvNwords (nbits : ℕ) : nbits ≤ 64 * bvNwords nbits := by
  unfold bvNwords
  split_ifs with h
  · omega
  · omega

/-- The bits of a bit vector are those of its list. -/
theorem bit_bvOfBits (bits : List Bool) :
    RankSelect.bit 64 (bvOfBits bits).words = RankSelect.ofList bits :=
  RankSelect.bit_packBits (by omega) (le_bvNwords _)

/-- The table of the bit vector holds the ranks of the word boundaries. -/
theorem rank_bvOfBits {bits : List Bool} {n : ℕ} (hn : n ≤ bvNwords bits.length) :
    (bvOfBits bits).rank.getD n 0 = RankSelect.rank (RankSelect.ofList bits) (64 * n) := by
  rw [← bit_bvOfBits]
  apply RankSelect.getD_prefixRanks
  simpa using hn

/-- `bv_get` reads a bit. -/
theorem bvGet_bvOfBits (bits : List Bool) (i : ℕ) :
    bvGet (bvOfBits bits) i = RankSelect.ofList bits i := by
  rw [← bit_bvOfBits, RankSelect.bit, bvGet, shiftRight_six, and_sixtyThree, Nat.testBit,
    Nat.and_comm 1]
  generalize ((bvOfBits bits).words.getD (i / 64) 0 >>> (i % 64)) = word
  rw [Nat.and_one_is_mod]
  rcases Nat.mod_two_eq_zero_or_one word with h | h
  · rw [h]
    rfl
  · rw [h]
    rfl

/-- `bv_rank1` counts the bits set before a position. -/
theorem bvRank1_bvOfBits {bits : List Bool} {i : ℕ} (hi : i ≤ bits.length) :
    bvRank1 (bvOfBits bits) i = RankSelect.rank (RankSelect.ofList bits) i := by
  have hfit := le_bvNwords bits.length
  have hword : i / 64 ≤ bvNwords bits.length := by omega
  simp only [bvRank1, shiftRight_six, and_sixtyThree, rank_bvOfBits hword]
  split_ifs with hzero hoff
  · simp [hzero]
  · have hsplit := @RankSelect.rank_bit_add 64 (bvOfBits bits).words (i / 64) (i % 64) (by omega)
    rw [bit_bvOfBits, Nat.div_add_mod] at hsplit
    rw [hsplit, Nat.one_shiftLeft]
  · have hboundary : 64 * (i / 64) = i := by omega
    rw [hboundary]
    simp [RankSelect.popcount, RankSelect.rank]

/-- Behind the word that the bisection of `bv_select1` finds, and in it, the ranks reach `k`;
before it they do not. -/
theorem bisect_bvOfBits (bits : List Bool) (k : ℕ) :
    let w := RankSelect.bisect (fun mid => (bvOfBits bits).rank.getD (mid + 1) 0 < k) 0
      (bvNwords bits.length)
    w ≤ bvNwords bits.length ∧
      (∀ i < w, RankSelect.rank (RankSelect.ofList bits) (64 * (i + 1)) < k) ∧
      ∀ i, w ≤ i → i < bvNwords bits.length →
        k ≤ RankSelect.rank (RankSelect.ofList bits) (64 * (i + 1)) := by
  intro w
  have hrank : ∀ i < bvNwords bits.length, (bvOfBits bits).rank.getD (i + 1) 0 =
      RankSelect.rank (RankSelect.ofList bits) (64 * (i + 1)) := fun i hi => rank_bvOfBits hi
  have hmono : ∀ i j, i ≤ j → j < bvNwords bits.length →
      decide ((bvOfBits bits).rank.getD (j + 1) 0 < k) = true →
      decide ((bvOfBits bits).rank.getD (i + 1) 0 < k) = true := by
    intro i j hij hj hbelow
    rw [hrank j hj, decide_eq_true_eq] at hbelow
    rw [hrank i (by omega), decide_eq_true_eq]
    have hle := @RankSelect.rank_mono (RankSelect.ofList bits) (64 * (i + 1)) (64 * (j + 1)) (by omega)
    omega
  obtain ⟨-, hw, hfirst, hlast⟩ := RankSelect.bisect_spec (Nat.zero_le _) hmono
  refine ⟨hw, fun i hi => ?_, fun i hge hi => ?_⟩
  · have h := hfirst i (Nat.zero_le i) hi
    rw [hrank i (by omega), decide_eq_true_eq] at h
    exact h
  · have h := hlast i hge hi
    rw [hrank i hi, decide_eq_false_iff_not] at h
    omega

/-- `bv_select1` finds the set bit of a rank. -/
theorem bvSelect1_bvOfBits {bits : List Bool} {p : ℕ} (hset : RankSelect.ofList bits p = true)
    (hp : p < bits.length) :
    bvSelect1 (bvOfBits bits) (RankSelect.rank (RankSelect.ofList bits) p + 1) = some p := by
  have hfit := le_bvNwords bits.length
  obtain ⟨hw, hbefore, hbehind⟩ :=
    bisect_bvOfBits bits (RankSelect.rank (RankSelect.ofList bits) p + 1)
  unfold bvSelect1
  rw [if_neg (by omega), nwords_bvOfBits]
  generalize RankSelect.bisect _ 0 (bvNwords bits.length) = w at hw hbefore hbehind
  -- The word is the one that has the bit.
  have hword : w = p / 64 := by
    have hle : w ≤ p / 64 := by
      by_contra hgt
      have hlt := hbefore (p / 64) (by omega)
      have hstep := RankSelect.rank_succ (RankSelect.ofList bits) p
      rw [if_pos hset] at hstep
      have hmono := @RankSelect.rank_mono (RankSelect.ofList bits) (p + 1) (64 * (p / 64 + 1))
          (by omega)
      omega
    have hge : p / 64 ≤ w := by
      by_contra hlt
      have hreach := hbehind w le_rfl (by omega)
      have hmono := @RankSelect.rank_mono (RankSelect.ofList bits) (64 * (w + 1)) p (by omega)
      omega
    omega
  have hin : w < bvNwords bits.length := by omega
  have hdiv : p = 64 * w + p % 64 := by omega
  have hmod : p % 64 < 64 := Nat.mod_lt p (by omega)
  have hcount := @RankSelect.rank_add (RankSelect.ofList bits) (64 * w) (p % 64)
  rw [← hdiv] at hcount
  have hbits : ∀ j < 64, RankSelect.ofList bits (64 * w + j) =
      ((bvOfBits bits).words.getD w 0).testBit j := by
    intro j hj
    rw [← bit_bvOfBits, RankSelect.bit_add hj]
  have hpart : RankSelect.rank (fun j => RankSelect.ofList bits (64 * w + j)) (p % 64) =
      RankSelect.rank ((bvOfBits bits).words.getD w 0).testBit (p % 64) :=
    RankSelect.rank_congr fun j hj => hbits j (by omega)
  have hset' : ((bvOfBits bits).words.getD w 0).testBit (p % 64) = true := by
    rw [← hbits _ hmod, ← hdiv, hset]
  have hpop : RankSelect.rank ((bvOfBits bits).words.getD w 0).testBit (p % 64) + 1 ≤
      RankSelect.popcount 64 ((bvOfBits bits).words.getD w 0) := by
    have hstep := RankSelect.rank_succ ((bvOfBits bits).words.getD w 0).testBit (p % 64)
    rw [if_pos hset'] at hstep
    have hmono := @RankSelect.rank_mono ((bvOfBits bits).words.getD w 0).testBit (p % 64 + 1) 64
        (by omega)
    unfold RankSelect.popcount
    omega
  have hall := RankSelect.rank_le ((bvOfBits bits).words.getD w 0).testBit (p % 64)
  have hlt : (bvOfBits bits).words.getD w 0 < 2 ^ 64 := RankSelect.packBits_lt bits
  obtain ⟨t, ht, hfound, hbit, hneed⟩ := @RankSelect.selectInWord_spec 64
    ((bvOfBits bits).words.getD w 0) 64
    (RankSelect.rank ((bvOfBits bits).words.getD w 0).testBit (p % 64) + 1) hlt (by omega) hpop
    (by omega)
  have htp : t = p % 64 := RankSelect.eq_of_rank_eq hbit hset' (by omega)
  have hk : RankSelect.rank (RankSelect.ofList bits) p + 1 - (bvOfBits bits).rank.getD w 0 =
      RankSelect.rank ((bvOfBits bits).words.getD w 0).testBit (p % 64) + 1 := by
    rw [rank_bvOfBits (by omega)]
    omega
  rw [if_neg (by omega), hk, hfound, Option.map_some, htp]
  congr 1
  omega

/-- `bv_select1` finds nothing when there are fewer bits. -/
theorem bvSelect1_eq_none {bits : List Bool} {k : ℕ}
    (hk : RankSelect.rank (RankSelect.ofList bits) bits.length < k) :
    bvSelect1 (bvOfBits bits) k = none := by
  obtain ⟨hw, -, hbehind⟩ := bisect_bvOfBits bits k
  unfold bvSelect1
  rw [if_neg (by omega), nwords_bvOfBits]
  generalize RankSelect.bisect _ 0 (bvNwords bits.length) = w at hw hbehind
  rw [if_pos]
  by_contra hlt
  have hreach := hbehind w le_rfl (by omega)
  have hnone := RankSelect.rank_ofList_le bits (64 * (w + 1))
  omega

/-! ## The trie -/

/-- `PgTreSurf`. -/
structure PgTreSurf where
  nLabels : ℕ
  nNodes : ℕ
  nKeys : ℕ
  labels : List UInt8
  hasChild : SurfBitvec
  louds : SurfBitvec
  deriving DecidableEq

/-- `surf_node_first`: where the edges of a node begin. -/
def surfNodeFirst (s : PgTreSurf) (node : ℕ) : ℕ := (bvSelect1 s.louds (node + 1)).getD (2 ^ 32 - 1)

/-- `surf_node_end`: where they end. -/
def surfNodeEnd (s : PgTreSurf) (node : ℕ) : ℕ := (bvSelect1 s.louds (node + 2)).getD s.nLabels

/-- `surf_child_node`: the node an edge descends to. -/
def surfChildNode (s : PgTreSurf) (pos : ℕ) : ℕ := bvRank1 s.hasChild (pos + 1)

/-- The byte of a key at a depth, the most significant one at depth zero. -/
def keyByte (key : UInt64) (d : ℕ) : UInt8 := (key >>> (8 * (7 - d)).toUInt64).toUInt8

/-- The labels of a node, in the order the loops over its edges see them. -/
def nodeLabels (s : PgTreSurf) (node : ℕ) : List UInt8 :=
  (s.labels.drop (surfNodeFirst s node)).take (surfNodeEnd s node - surfNodeFirst s node)

/-! ## Queries -/

/-- The loop of `pg_tre_surf_may_contain` over the labels of a node, from position `p` on. -/
def scanLabel (b : UInt8) : List UInt8 → ℕ → Option ℕ
  | [], _ => none
  | l :: ls, p => if l = b then some p else if b < l then none else scanLabel b ls (p + 1)

/-- The loop of `pg_tre_surf_may_contain` over the bytes of a key, with the bytes left. -/
def mayContainFrom (s : PgTreSurf) (key : UInt64) : ℕ → ℕ → Bool
  | 0, _ => false
  | n + 1, node =>
      match scanLabel (keyByte key (7 - n)) (nodeLabels s node) (surfNodeFirst s node) with
      | none => false
      | some p =>
          if n = 0 then !bvGet s.hasChild p
          else if !bvGet s.hasChild p then false
          else mayContainFrom s key n (surfChildNode s p)

/-- `pg_tre_surf_may_contain`. -/
def pgTreSurfMayContain (s : PgTreSurf) (key : UInt64) : Bool :=
  if s.nLabels = 0 then false else mayContainFrom s key 8 0

/-- The bytes of a path as a key, the bytes below it zero. -/
def accKey (acc : List UInt8) : UInt64 :=
  acc.zipIdx.foldl (fun key b => key ||| b.1.toUInt64 <<< (8 * (7 - b.2)).toUInt64) 0

/-- `surf_min_below`: the smallest key below the edge at a position. The bytes chosen so far end
with its label, and below its node there is room for `n` more. -/
def surfMinBelow (s : PgTreSurf) : ℕ → ℕ → List UInt8 → Option UInt64
  | 0, pos, acc => if !bvGet s.hasChild pos then some (accKey acc) else none
  | n + 1, pos, acc =>
      if !bvGet s.hasChild pos then some (accKey acc)
      else
        let clo := surfNodeFirst s (surfChildNode s pos)
        surfMinBelow s n clo (acc ++ [s.labels.getD clo 0])

/-- The backtracking of `surf_successor` over the nodes of the path and the positions chosen in
them, the deepest first: the next edge of the first node that has one. -/
def surfBacktrack (s : PgTreSurf) (acc : List UInt8) : List (ℕ × ℕ) → Option UInt64
  | [] => none
  | (node, p) :: above =>
      let nhi := surfNodeEnd s node
      let np := if p = nhi then nhi else p + 1
      if np < nhi then
        surfMinBelow s (7 - above.length) np (acc.take above.length ++ [s.labels.getD np 0])
      else surfBacktrack s acc above

/-- The loop of `surf_successor` over the labels of a node, for the first that is not less. -/
def scanGe (b : UInt8) : List UInt8 → ℕ → Option (ℕ × UInt8)
  | [], _ => none
  | l :: ls, p => if b ≤ l then some (p, l) else scanGe b ls (p + 1)

/-- Phase 1 of `surf_successor`: the path of `lo` as far as it exists, with the bytes left. In a
trie of full keys the path ends with the last byte, and the case without bytes left is not met. -/
def surfDescend (s : PgTreSurf) (lo : UInt64) :
    ℕ → ℕ → List (ℕ × ℕ) → List UInt8 → Option UInt64
  | 0, _, above, acc => surfBacktrack s acc above
  | n + 1, node, above, acc =>
      match scanGe (keyByte lo (7 - n)) (nodeLabels s node) (surfNodeFirst s node) with
      | none => surfBacktrack s acc ((node, surfNodeEnd s node) :: above)
      | some (p, l) =>
          if l ≠ keyByte lo (7 - n) then surfMinBelow s n p (acc ++ [l])
          else if n = 0 ∧ !bvGet s.hasChild p then some lo
          else if !bvGet s.hasChild p then surfBacktrack s (acc ++ [l]) ((node, p) :: above)
          else surfDescend s lo n (surfChildNode s p) ((node, p) :: above) (acc ++ [l])

/-- `surf_successor`: the smallest stored key that is not less than `lo`. -/
def surfSuccessor (s : PgTreSurf) (lo : UInt64) : Option UInt64 :=
  if s.nLabels = 0 then none else surfDescend s lo 8 0 [] []

/-- `pg_tre_surf_range_overlaps`. -/
def pgTreSurfRangeOverlaps (s : PgTreSurf) (lo hi : UInt64) : Bool :=
  if s.nLabels = 0 then false
  else if hi < lo then false
  else
    match surfSuccessor s lo with
    | none => false
    | some succ => succ ≤ hi

/-! ## Building -/

/-- `KeyRange`: a slice of the key array. -/
abbrev KeyRange := List UInt64

/-- An edge as `pg_tre_surf_build` emits it, with the keys below it. -/
structure SurfEdge where
  label : UInt8
  louds : Bool
  hasChild : Bool
  keys : KeyRange

/-- The loop over one range: an edge for every group of keys with one byte at the depth. -/
def emitRange (depth : ℕ) (firstInNode : Bool) : KeyRange → List SurfEdge
  | [] => []
  | key :: keys =>
      ⟨keyByte key depth, firstInNode, depth < 7,
        key :: keys.takeWhile (fun k => keyByte k depth = keyByte key depth)⟩ ::
      emitRange depth false (keys.dropWhile (fun k => keyByte k depth = keyByte key depth))
termination_by keys => keys.length
decreasing_by
  have h := (List.dropWhile_suffix (l := keys)
    (fun k => decide (keyByte k depth = keyByte key depth))).length_le
  simp only [List.length_cons]
  omega

/-- The ranges scheduled for the next depth. -/
def nextRanges (edges : List SurfEdge) : List KeyRange := (edges.filter (·.hasChild)).map (·.keys)

/-- The loop over the depths, with the depths left: the edges of the ranges of each, and the number
of nodes. -/
def surfLevels : ℕ → ℕ → List KeyRange → List SurfEdge × ℕ
  | 0, _, _ => ([], 0)
  | n + 1, depth, cur =>
      if cur = [] then ([], 0)
      else
        let edges := cur.flatMap (emitRange depth true)
        let below := surfLevels n (depth + 1) (nextRanges edges)
        (edges ++ below.1, cur.length + below.2)

/-- `MaxAllocSize`: no chunk of memory is larger. -/
def maxAllocSize : ℕ := 2 ^ 30 - 1

/-- The arrays of `pg_tre_surf_build`, from the edges and the number of nodes. -/
def surfOfEdges (edges : List SurfEdge) (nNodes nKeys : ℕ) : PgTreSurf where
  nLabels := edges.length
  nNodes := nNodes
  nKeys := nKeys
  labels := edges.map (·.label)
  hasChild := bvOfBits (edges.map (·.hasChild))
  louds := bvOfBits (edges.map (·.louds))

/-- `pg_tre_surf_build`. The lists of ranges are allocated for one range more than there are keys;
the other arrays are smaller. -/
def pgTreSurfBuild (keys : List UInt64) : Except PgError PgTreSurf :=
  if keys = [] then .ok (surfOfEdges [] 0 0)
  else if maxAllocSize < 8 * (keys.length + 1) then
    let size := 8 * (keys.length + 1)
    .error ⟨s!"invalid memory alloc request size {size}"⟩
  else
    let levels := surfLevels 8 0 [keys]
    .ok (surfOfEdges levels.1 levels.2 keys.length)

end PgTre
