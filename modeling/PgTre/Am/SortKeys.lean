import PgTre.Util.BigEndian
import PgTre.Am.ParallelBuild
import PgTre.Pages.PostingRoundTrip

/-!
# Sort keys

The build sorts its tuples as byte strings: `encode_entry` of `src/am/ambuild.c` writes the hash, the
TID and the key of the SuRF in big-endian bytes, and the sort compares them with `memcmp`. The TID is
packed in the legacy way whatever the index uses. `build_postings` decodes the sorted stream, unpacks
the TIDs and adds them to a posting, which packs them again in the way of the index. As both packings
keep the order of the TIDs, the posting ascends.
-/

namespace PgTre

open BigEndian

/-! ## The packings -/

/-- A TID of a heap, for an index with the packing. The dense one is for the heap access method,
whose offsets are at most `MaxHeapTuplesPerPage`. -/
structure HeapTid (pk : TidPacking) (tid : ItemPointer) : Prop where
  block : tid.blkid < 2 ^ 32 - 1
  offset : pk = .dense → 1 ≤ tid.posid ∧ tid.posid ≤ maxHeapTuplesPerPage

/-- The arithmetic of `pg_tre_pack_tid`, in `uint64`. -/
def packTid64 (pk : TidPacking) (tid : ItemPointer) : UInt64 :=
  match pk with
  | .dense => UInt64.ofNat tid.blkid * UInt64.ofNat denseStride + UInt64.ofNat tid.posid
  | .legacy => UInt64.ofNat tid.blkid <<< 16 ||| UInt64.ofNat tid.posid

section

variable {pk : TidPacking} {tid tid' : ItemPointer} {packed packed' : ℕ}

/-- A TID of the heap can be packed. -/
theorem HeapTid.packs (h : HeapTid pk tid) : ∃ packed, packTid pk tid = .ok packed := by
  cases pk with
  | legacy => exact ⟨_, rfl⟩
  | dense => exact packTid_ok (h.offset rfl).2 .dense

/-- It does not overflow. -/
theorem toNat_packTid64 (h : packTid pk tid = .ok packed) : (packTid64 pk tid).toNat = packed := by
  have hblk := tid.blkidLt
  have hpos := tid.posidLt
  have hpacked := packTid_lt_two_pow h
  have hblk64 : (UInt64.ofNat tid.blkid).toNat = tid.blkid := by
    rw [UInt64.toNat_ofNat']
    exact Nat.mod_eq_of_lt (by omega)
  have hpos64 : (UInt64.ofNat tid.posid).toNat = tid.posid := by
    rw [UInt64.toNat_ofNat']
    exact Nat.mod_eq_of_lt (by omega)
  cases pk with
  | legacy =>
    have hshift : tid.blkid <<< 16 < 2 ^ 64 := by
      rw [Nat.shiftLeft_eq]
      omega
    rw [packTid, Except.ok.injEq] at h
    rw [packTid64, UInt64.toNat_or, UInt64.toNat_shiftLeft, hblk64, hpos64, ← h]
    exact congrArg (· ||| tid.posid) (Nat.mod_eq_of_lt hshift)
  | dense =>
    have hstride : (UInt64.ofNat denseStride).toNat = denseStride := rfl
    have hdense : denseStride = 292 := rfl
    unfold packTid at h
    dsimp only at h
    split_ifs at h with hlarge
    rw [Except.ok.injEq] at h
    rw [packTid64, UInt64.toNat_add, UInt64.toNat_mul, hblk64, hpos64, hstride]
    omega

/-- The numbers are in the order of block and offset. -/
theorem packTid_lt_iff (h : packTid pk tid = .ok packed) (h' : packTid pk tid' = .ok packed') :
    packed < packed' ↔ tid.Before tid' := by
  refine ⟨fun hlt => ?_, packTid_lt h h'⟩
  by_contra hnot
  have hother : tid = tid' ∨ tid'.Before tid := by
    rw [ItemPointer.ext_iff]
    unfold ItemPointer.Before at *
    omega
  rcases hother with rfl | hbefore
  · rw [h] at h'
    exact hlt.ne (Except.ok.inj h')
  · exact lt_asymm hlt (packTid_lt h' h hbefore)

end

/-! ## The keys -/

/-- The eight bytes that `encode_entry` writes for a number. -/
def encodeWord (w : UInt64) : List UInt8 :=
  [(w >>> 56).toUInt8, (w >>> 48).toUInt8, (w >>> 40).toUInt8, (w >>> 32).toUInt8,
    (w >>> 24).toUInt8, (w >>> 16).toUInt8, (w >>> 8).toUInt8, w.toUInt8]

/-- The number that `decode_entry` makes of the bytes from `i` on. -/
def decodeWord (buf : List UInt8) (i : ℕ) : UInt64 :=
  let byteAt := fun j => (buf.getD (i + j) 0).toUInt64
  byteAt 0 <<< 56 ||| byteAt 1 <<< 48 ||| byteAt 2 <<< 40 ||| byteAt 3 <<< 32 |||
    byteAt 4 <<< 24 ||| byteAt 5 <<< 16 ||| byteAt 6 <<< 8 ||| byteAt 7

/-- `encode_entry`. -/
def encodeEntry (trigramHash packedTid trigramKey : UInt64) : List UInt8 :=
  encodeWord trigramHash ++ encodeWord packedTid ++ encodeWord trigramKey

/-- `decode_entry`. -/
def decodeEntry (buf : List UInt8) : UInt64 × UInt64 × UInt64 :=
  (decodeWord buf 0, decodeWord buf 8, decodeWord buf 16)

/-- An encoded word is eight bytes long. -/
@[simp] theorem length_encodeWord (w : UInt64) : (encodeWord w).length = 8 := rfl

/-- An encoded word is its number in big-endian order. -/
theorem encodeWord_eq (w : UInt64) : encodeWord w = bytesOf 8 w.toNat := by
  have hbyte : ∀ (v : UInt64) (n : ℕ), v.toNat = n → v.toUInt8 = UInt8.ofNat n := by
    rintro v n rfl
    rw [← UInt8.toNat_inj, UInt64.toNat_toUInt8, UInt8.toNat_ofNat']
  simp only [encodeWord, bytesOf, List.cons.injEq, and_true]
  refine ⟨hbyte _ _ ?_, hbyte _ _ ?_, hbyte _ _ ?_, hbyte _ _ ?_, hbyte _ _ ?_, hbyte _ _ ?_,
    hbyte _ _ ?_, hbyte _ _ ?_⟩
  all_goals simp [UInt64.toNat_shiftRight, Nat.shiftRight_eq_div_pow]

/-- The bytes are those of the number. -/
theorem value_encodeWord (w : UInt64) : value (encodeWord w) = w.toNat := by
  rw [encodeWord_eq, value_bytesOf]
  exact Nat.mod_eq_of_lt w.toNat_lt

/-- A byte goes behind what stands in front of it. -/
theorem or_byte {a b j k : ℕ} (hb : b < 2 ^ 8) (hj : j = k + 8) :
    a * 2 ^ j ||| b * 2 ^ k = (256 * a + b) * 2 ^ k := by
  have hor : 2 ^ 8 * a ||| b = 256 * a + b := (Nat.two_pow_add_eq_or_of_lt hb a).symm
  rw [hj, ← hor, ← Nat.shiftLeft_eq (2 ^ 8 * a ||| b) k, Nat.shiftLeft_or_distrib, Nat.shiftLeft_eq,
    Nat.shiftLeft_eq, Nat.pow_add, Nat.mul_comm (2 ^ k), Nat.mul_comm (2 ^ 8) a, Nat.mul_assoc]

/-- A byte is shifted into its place. -/
theorem toNat_byte_shiftLeft (b : UInt8) {s : UInt64} (hs : s.toNat ≤ 56) :
    (b.toUInt64 <<< s).toNat = b.toNat * 2 ^ s.toNat := by
  have hb : b.toNat * 2 ^ s.toNat ≤ 255 * 2 ^ 56 :=
    Nat.mul_le_mul (Nat.le_of_lt_succ b.toNat_lt) (Nat.pow_le_pow_right (by decide) hs)
  rw [UInt64.toNat_shiftLeft, Nat.mod_eq_of_lt (show s.toNat < 64 by omega), UInt8.toNat_toUInt64,
    Nat.shiftLeft_eq]
  exact Nat.mod_eq_of_lt (by omega)

/-- The eight shifted bytes make up their number. -/
theorem toNat_decodeWord (buf : List UInt8) (i : ℕ) :
    (decodeWord buf i).toNat = value ((List.range 8).map fun j => buf.getD (i + j) 0) := by
  have hbyte : ∀ j, (buf.getD (i + j) 0).toNat < 2 ^ 8 := fun j => UInt8.toNat_lt _
  unfold decodeWord
  dsimp only
  simp only [UInt64.toNat_or]
  rw [toNat_byte_shiftLeft _ (by decide), toNat_byte_shiftLeft _ (by decide),
    toNat_byte_shiftLeft _ (by decide), toNat_byte_shiftLeft _ (by decide),
    toNat_byte_shiftLeft _ (by decide), toNat_byte_shiftLeft _ (by decide),
    toNat_byte_shiftLeft _ (by decide), UInt8.toNat_toUInt64]
  change _ * 2 ^ 56 ||| _ * 2 ^ 48 ||| _ * 2 ^ 40 ||| _ * 2 ^ 32 ||| _ * 2 ^ 24 ||| _ * 2 ^ 16 |||
    _ * 2 ^ 8 ||| _ = _
  rw [or_byte (hbyte 1) rfl, or_byte (hbyte 2) rfl, or_byte (hbyte 3) rfl, or_byte (hbyte 4) rfl,
    or_byte (hbyte 5) rfl, or_byte (hbyte 6) rfl, Nat.mul_comm _ (2 ^ 8),
    ← Nat.two_pow_add_eq_or_of_lt (hbyte 7)]
  simp [value, List.range_succ]

/-- What was written is read, wherever it stands. -/
theorem decodeWord_encodeWord (xs ys : List UInt8) (w : UInt64) :
    decodeWord (xs ++ encodeWord w ++ ys) xs.length = w := by
  have hbytes : ((List.range 8).map fun j => (xs ++ encodeWord w ++ ys).getD (xs.length + j) 0) =
      encodeWord w := by
    have hread : ∀ j ∈ List.range 8,
        (xs ++ encodeWord w ++ ys).getD (xs.length + j) 0 = (encodeWord w).getD j 0 := by
      intro j hj
      rw [List.append_assoc, List.getD_append_right _ _ _ _ (by omega), Nat.add_sub_cancel_left,
        List.getD_append _ _ _ _ (by simpa using hj)]
    rw [List.map_congr_left hread]
    rfl
  rw [← UInt64.toNat_inj, toNat_decodeWord, hbytes, value_encodeWord]

/-- Decoding inverts encoding. -/
theorem decodeEntry_encodeEntry (trigramHash packedTid trigramKey : UInt64) :
    decodeEntry (encodeEntry trigramHash packedTid trigramKey) =
      (trigramHash, packedTid, trigramKey) := by
  unfold decodeEntry encodeEntry
  have hhash := decodeWord_encodeWord [] (encodeWord packedTid ++ encodeWord trigramKey) trigramHash
  have htid := decodeWord_encodeWord (encodeWord trigramHash) (encodeWord trigramKey) packedTid
  have hkey := decodeWord_encodeWord (encodeWord trigramHash ++ encodeWord packedTid) [] trigramKey
  rw [List.nil_append, ← List.append_assoc] at hhash
  rw [List.append_nil] at hkey
  exact congrArg₂ Prod.mk hhash (congrArg₂ Prod.mk htid hkey)

/-- Keys are compared by the hash, then the TID, then the key of the SuRF. -/
theorem memcmp_encodeEntry (trigramHash packedTid trigramKey trigramHash' packedTid'
    trigramKey' : UInt64) :
    memcmp (encodeEntry trigramHash packedTid trigramKey)
        (encodeEntry trigramHash' packedTid' trigramKey') =
      (compare trigramHash.toNat trigramHash'.toNat).then
        ((compare packedTid.toNat packedTid'.toNat).then
          (compare trigramKey.toNat trigramKey'.toNat)) := by
  have hlength : ∀ w w' : UInt64, (encodeWord w).length = (encodeWord w').length :=
    fun w w' => (length_encodeWord w).trans (length_encodeWord w').symm
  have hword : ∀ w w' : UInt64, memcmp (encodeWord w) (encodeWord w') = compare w.toNat w'.toNat := by
    intro w w'
    rw [memcmp_eq_compare (hlength w w'), value_encodeWord, value_encodeWord]
  unfold encodeEntry
  rw [List.append_assoc, List.append_assoc, memcmp_append (hlength _ _), memcmp_append (hlength _ _),
    hword, hword, hword]

/-! ## The sorted stream -/

/-- A tuple of the sorted stream, as `build_postings` decodes it. -/
def BuildEntry.ofKey (key : List UInt8) : BuildEntry :=
  let words := decodeEntry key
  ⟨words.1, words.2.1.toNat, words.2.2.toNat⟩

/-- Decoding an encoded entry gives it back. -/
theorem BuildEntry.ofKey_encodeEntry (trigramHash packedTid trigramKey : UInt64) :
    ofKey (encodeEntry trigramHash packedTid trigramKey) =
      ⟨trigramHash, packedTid.toNat, trigramKey.toNat⟩ := by
  rw [ofKey, decodeEntry_encodeEntry]

/-- Keys that are in the order of `memcmp` are those of tuples in the order of the sort. -/
theorem BuildEntry.le_iff_memcmp (trigramHash packedTid trigramKey trigramHash' packedTid'
    trigramKey' : UInt64) :
    BuildEntry.le ⟨trigramHash, packedTid.toNat, trigramKey.toNat⟩
        ⟨trigramHash', packedTid'.toNat, trigramKey'.toNat⟩ = true ↔
      memcmp (encodeEntry trigramHash packedTid trigramKey)
        (encodeEntry trigramHash' packedTid' trigramKey') ≠ .gt := by
  rw [memcmp_encodeEntry]
  simp only [BuildEntry.le, decide_eq_true_eq, ne_eq, Ordering.then_eq_gt, compare_gt_iff_gt,
    compare_eq_iff_eq, UInt64.lt_iff_toNat_lt, ← UInt64.toNat_inj]
  omega

/-- The postings ascend, and their TIDs have a property that those of the stream have. -/
structure PostingLoop.TidsAscend (P : ℕ → Prop) (s : PostingLoop) : Prop where
  finished : ∀ a ∈ s.out.accums, a.2.Pairwise (· < ·) ∧ ∀ n ∈ a.2, P n
  current : ∀ tids, s.builder = some tids →
    tids.Pairwise (· < ·) ∧ ∀ n ∈ tids, P n ∧ n ≤ s.lastTid

section

variable {P : ℕ → Prop} {s : PostingLoop} {e : BuildEntry}

/-- Finishing the loop leaves every accumulator ascending. -/
theorem PostingLoop.TidsAscend.finish (hs : s.TidsAscend P) :
    ∀ a ∈ s.finish.accums, a.2.Pairwise (· < ·) ∧ ∀ n ∈ a.2, P n := by
  unfold PostingLoop.finish
  cases hbuilder : s.builder with
  | none => exact hs.finished
  | some tids =>
    intro a ha
    rcases List.mem_append.mp ha with ha | ha
    · exact hs.finished a ha
    · obtain rfl := List.mem_singleton.mp ha
      obtain ⟨hascends, htids⟩ := hs.current tids hbuilder
      exact ⟨hascends, fun n hn => (htids n hn).1⟩

/-- A posting that begins has no TID yet, the current one none above the TID of the tuple. -/
theorem PostingLoop.TidsAscend.begin (hs : s.TidsAscend P)
    (hle : s.builder ≠ none → s.curHash = e.trigramHash → s.lastTid ≤ e.packedTid) :
    (s.begin e).TidsAscend P ∧ (s.begin e).curHash = e.trigramHash ∧
      ∃ tids, (s.begin e).builder = some tids ∧ (tids = [] ∨ (s.begin e).lastTid ≤ e.packedTid) := by
  unfold PostingLoop.begin
  split
  · refine ⟨⟨hs.finish, ?_⟩, rfl, [], rfl, .inl rfl⟩
    intro tids htids
    obtain rfl := Option.some.inj htids
    simp
  · rename_i hsame
    push Not at hsame
    obtain ⟨hbuilder, hhash⟩ := hsame
    obtain ⟨tids, htids⟩ := Option.ne_none_iff_exists'.mp hbuilder
    exact ⟨hs, hhash.symm, tids, htids, .inr (hle hbuilder hhash.symm)⟩

/-- One turn of the loop. -/
theorem PostingLoop.TidsAscend.next (hs : s.TidsAscend P) (he : P e.packedTid)
    (hle : s.builder ≠ none → s.curHash = e.trigramHash → s.lastTid ≤ e.packedTid) :
    (s.next e).TidsAscend P ∧ (s.next e).curHash = e.trigramHash ∧
      (s.next e).lastTid = e.packedTid := by
  obtain ⟨hbegin, hhash, tids, hbuilder, htids⟩ := hs.begin hle
  obtain ⟨hascends, hcurrent⟩ := hbegin.current tids hbuilder
  unfold PostingLoop.next addTid
  split
  · rename_i hnew
    refine ⟨⟨hbegin.finished, ?_⟩, hhash, rfl⟩
    intro tids' htids'
    rw [hbuilder] at htids'
    obtain rfl := Option.some.inj htids'
    -- The last TID added is below the new one, and none is above it.
    have hbelow : ∀ n ∈ tids, n < e.packedTid := by
      intro n hn
      rcases htids with rfl | hlast
      · cases hn
      · exact ((hcurrent n hn).2.trans_lt (lt_of_le_of_ne hlast (Ne.symm hnew)))
    refine ⟨List.pairwise_append.mpr ⟨hascends, List.pairwise_singleton _ _, ?_⟩, ?_⟩
    · intro n hn m hm
      obtain rfl := List.mem_singleton.mp hm
      exact hbelow n hn
    · intro n hn
      rcases List.mem_append.mp hn with hn | hn
      · exact ⟨(hcurrent n hn).1, (hbelow n hn).le⟩
      · obtain rfl := List.mem_singleton.mp hn
        exact ⟨he, le_rfl⟩
  · rename_i hsame
    exact ⟨hbegin, hhash, (not_not.mp hsame).symm⟩

/-- The postings of a sorted stream. -/
theorem postingStream_tidsAscend {stream : List BuildEntry}
    (hsorted : stream.Pairwise fun e e' => e.le e' = true) (hstream : ∀ e ∈ stream, P e.packedTid) :
    ∀ a ∈ (postingStream stream).accums, a.2.Pairwise (· < ·) ∧ ∀ n ∈ a.2, P n := by
  -- A tuple with the current hash has no TID below the last one.
  have hrun : ∀ (stream : List BuildEntry) (s : PostingLoop), s.TidsAscend P →
      stream.Pairwise (fun e e' => e.le e' = true) → (∀ e ∈ stream, P e.packedTid) →
      (s.builder ≠ none → ∀ e ∈ stream, s.curHash = e.trigramHash → s.lastTid ≤ e.packedTid) →
      (stream.foldl PostingLoop.next s).TidsAscend P := by
    intro stream
    induction stream with
    | nil => exact fun s hs _ _ _ => hs
    | cons e stream ih =>
      intro s hs hsorted hstream hle
      obtain ⟨hfirst, hrest⟩ := List.pairwise_cons.mp hsorted
      have he := hstream e List.mem_cons_self
      obtain ⟨hnext, hhash, hlast⟩ := hs.next he fun h => hle h e List.mem_cons_self
      refine ih _ hnext hrest (fun e' he' => hstream e' (List.mem_cons_of_mem e he')) ?_
      intro _ e' he' hsame
      have hbefore := hfirst e' he'
      simp only [BuildEntry.le, decide_eq_true_eq] at hbefore
      rw [hlast]
      rw [hhash] at hsame
      rcases hbefore with hlt | ⟨-, hlt | ⟨heq, -⟩⟩
      · rw [hsame] at hlt
        exact absurd hlt (UInt64.lt_irrefl _)
      · exact hlt.le
      · exact heq.le
  have hstart : PostingLoop.start.TidsAscend P := by
    constructor
    case finished => exact fun a ha => absurd ha List.not_mem_nil
    case current =>
      intro tids htids
      cases htids
  exact (hrun stream .start hstart hsorted hstream fun h => absurd rfl h).finish

end

/-- Numbers that ascend are TIDs that ascend, packed one way or the other. -/
theorem unpackTid_before {tids : List ℕ} (hpacked : ∀ n ∈ tids, Packed .legacy n)
    (hascends : tids.Pairwise (· < ·)) :
    (tids.map (unpackTid .legacy)).Pairwise ItemPointer.Before := by
  rw [List.pairwise_map]
  apply hascends.imp_of_mem
  intro n m hn hm hlt
  exact (packTid_lt_iff (packTid_unpackTid (hpacked n hn)) (packTid_unpackTid (hpacked m hm))).mp hlt

/-- A key of the build's sort, for a row of the heap. -/
def RowKey (pk : TidPacking) (key : List UInt8) : Prop :=
  ∃ (tid : ItemPointer) (trigramHash trigramKey : UInt64), HeapTid pk tid ∧
    key = encodeEntry trigramHash (packTid64 .legacy tid) trigramKey

/-- Such keys in the order of `memcmp` decode to a sorted stream. -/
theorem pairwise_ofKey {pk : TidPacking} {keys : List (List UInt8)}
    (hkeys : ∀ key ∈ keys, RowKey pk key)
    (hsorted : keys.Pairwise fun key key' => memcmp key key' ≠ .gt) :
    (keys.map BuildEntry.ofKey).Pairwise fun e e' => e.le e' = true := by
  rw [List.pairwise_map]
  apply hsorted.imp_of_mem
  intro key key' hkey hkey' hle
  obtain ⟨tid, trigramHash, trigramKey, -, rfl⟩ := hkeys key hkey
  obtain ⟨tid', trigramHash', trigramKey', -, rfl⟩ := hkeys key' hkey'
  rw [BuildEntry.ofKey_encodeEntry, BuildEntry.ofKey_encodeEntry]
  exact (BuildEntry.le_iff_memcmp _ _ _ _ _ _).mpr hle

/-- Both packings are inverted by unpacking, within 64 bits, in the order of block and offset. The
bytes of a sort key are in the order of hash, TID and trigram key, and are decoded to these. Therefore
a posting of the sorted stream ascends, however the index packs its TIDs. -/
theorem sortKeys_ascending :
    (∀ (pk : TidPacking) (tid : ItemPointer), HeapTid pk tid →
      ∃ packed, packTid pk tid = .ok packed ∧ packed < 2 ^ 64 ∧ (packTid64 pk tid).toNat = packed ∧
        unpackTid pk packed = tid) ∧
      (∀ (pk : TidPacking) (tid tid' : ItemPointer) (packed packed' : ℕ),
        packTid pk tid = .ok packed → packTid pk tid' = .ok packed' →
          (packed < packed' ↔ tid.Before tid')) ∧
      (∀ trigramHash packedTid trigramKey trigramHash' packedTid' trigramKey' : UInt64,
        memcmp (encodeEntry trigramHash packedTid trigramKey)
            (encodeEntry trigramHash' packedTid' trigramKey') =
          (compare trigramHash.toNat trigramHash'.toNat).then
            ((compare packedTid.toNat packedTid'.toNat).then
              (compare trigramKey.toNat trigramKey'.toNat))) ∧
      (∀ trigramHash packedTid trigramKey : UInt64,
        decodeEntry (encodeEntry trigramHash packedTid trigramKey) =
          (trigramHash, packedTid, trigramKey)) ∧
      ∀ (pk : TidPacking) (keys : List (List UInt8)), (∀ key ∈ keys, RowKey pk key) →
        (keys.Pairwise fun key key' => memcmp key key' ≠ .gt) →
          ∀ a ∈ (postingStream (keys.map BuildEntry.ofKey)).accums,
            (∀ n ∈ a.2, ∃ packed, packTid pk (unpackTid .legacy n) = .ok packed) ∧
              ∀ (expectedBytes : ℕ) (b : PostingBuilder),
                postingBuilderOf pk a.1 expectedBytes (a.2.map (unpackTid .legacy)) = .ok b →
                  b.tids.Pairwise (· < ·) := by
  refine ⟨?_, fun pk tid tid' packed packed' => packTid_lt_iff, memcmp_encodeEntry,
    decodeEntry_encodeEntry, ?_⟩
  · intro pk tid htid
    obtain ⟨packed, hpacked⟩ := htid.packs
    exact ⟨packed, hpacked, packTid_lt_two_pow hpacked, toNat_packTid64 hpacked,
      unpackTid_packTid hpacked⟩
  · intro pk keys hkeys hsorted a ha
    let P := fun n => ∃ tid, HeapTid pk tid ∧ packTid .legacy tid = .ok n
    have hstream : ∀ e ∈ keys.map BuildEntry.ofKey, P e.packedTid := by
      intro e he
      obtain ⟨key, hkey, rfl⟩ := List.mem_map.mp he
      obtain ⟨tid, trigramHash, trigramKey, htid, rfl⟩ := hkeys key hkey
      rw [BuildEntry.ofKey_encodeEntry]
      exact ⟨tid, htid, congrArg Except.ok (toNat_packTid64 rfl).symm⟩
    obtain ⟨hascends, hrows⟩ :=
      postingStream_tidsAscend (pairwise_ofKey hkeys hsorted) hstream a ha
    constructor
    · intro n hn
      obtain ⟨tid, htid, hpacked⟩ := hrows n hn
      rw [unpackTid_packTid hpacked]
      exact htid.packs
    · intro expectedBytes b hb
      have hpacked : ∀ n ∈ a.2, Packed .legacy n := by
        intro n hn
        obtain ⟨tid, -, hpacked⟩ := hrows n hn
        exact ⟨tid, hpacked⟩
      exact (postingBuilderOf_holds hb).ascending (unpackTid_before hpacked hascends)

/-- The first row of a table, and the first of its second page. -/
def firstRowTid : ItemPointer := ⟨0, 1, zero_lt_blkid, one_lt_posid⟩
def secondPageTid : ItemPointer := ⟨1, 1, one_lt_blkid, one_lt_posid⟩

/-- The keys of one trigram of both rows. -/
def twoRowKeys : List (List UInt8) :=
  [encodeEntry 7 (packTid64 .legacy firstRowTid) 5, encodeEntry 7 (packTid64 .legacy secondPageTid) 5]

/-- Both rows come in order from their keys to the builder of the posting. -/
theorem sortKeys_ascending_twoRows :
    unpackTid .dense (packTid64 .dense secondPageTid).toNat = secondPageTid ∧
    (postingStream (twoRowKeys.map BuildEntry.ofKey)).accums = [(7, [1, 65537])] ∧
    ∃ b, postingBuilderOf .dense 7 0 ([1, 65537].map (unpackTid .legacy)) = .ok b ∧
      b.tids = [1, 293] ∧ b.tids.Pairwise (· < ·) := by
  have hfirst : HeapTid .dense firstRowTid := ⟨by decide, fun _ => by decide⟩
  have hsecond : HeapTid .dense secondPageTid := ⟨by decide, fun _ => by decide⟩
  obtain ⟨hpacks, -, hmemcmp, -, hstreams⟩ := sortKeys_ascending
  obtain ⟨packed, -, -, hpacked, hunpacked⟩ := hpacks .dense secondPageTid hsecond
  have hkeys : ∀ key ∈ twoRowKeys, RowKey .dense key := by
    intro key hkey
    rcases List.mem_cons.mp hkey with rfl | hkey
    · exact ⟨firstRowTid, 7, 5, hfirst, rfl⟩
    · exact ⟨secondPageTid, 7, 5, hsecond, List.mem_singleton.mp hkey⟩
  have hsorted : twoRowKeys.Pairwise fun key key' => memcmp key key' ≠ .gt := by
    refine List.pairwise_pair.mpr ?_
    rw [hmemcmp]
    decide
  have hstream : (postingStream (twoRowKeys.map BuildEntry.ofKey)).accums = [(7, [1, 65537])] := by
    simp only [twoRowKeys, List.map_cons, List.map_nil, BuildEntry.ofKey_encodeEntry]
    rfl
  have haccum := hstreams .dense twoRowKeys hkeys hsorted (7, [1, 65537])
    (hstream ▸ List.mem_singleton_self _)
  obtain ⟨b, hb, htids⟩ : ∃ b, postingBuilderOf .dense 7 0
      ([1, 65537].map (unpackTid .legacy)) = .ok b ∧
      b.tids = [1, 293] := ⟨_, rfl, rfl⟩
  exact ⟨hpacked.symm ▸ hunpacked, hstream, b, hb, htids, haccum.2 0 b hb⟩

end PgTre
