import PgTre.Pages.PageStore
import PgTre.Util.SurfQueries

/-!
# The stored range filter

`pg_tre_surf_serialize` writes a range filter into one buffer, without the rank tables, and
`src/pages/surf_page.c` cuts the buffer into the pages of a chain. A scan reads the chain, puts the
image together and builds the rank tables anew.
-/

namespace PgTre

open Layout Sparsemap

/-! ## The image -/

/-- `SURF_MAGIC`. -/
def surfMagic : ℕ := 0x53555246

/-- `SURF_VERSION`. -/
def surfVersion : ℕ := 1

/-- The bytes of the header of the image: `5 * sizeof(uint32)`. -/
def surfHeaderBytes : ℕ := 20

/-- `pg_tre_surf_serialized_size`. -/
def pgTreSurfSerializedSize (s : PgTreSurf) : ℕ :=
  maxAlign surfHeaderBytes + maxAlign s.nLabels + 2 * bvNwords s.nLabels * 8

/-- The header of the image. -/
def surfHeader (s : PgTreSurf) : List UInt8 :=
  wordBytes 4 surfMagic ++ (wordBytes 4 surfVersion ++ (wordBytes 4 s.nLabels ++
    (wordBytes 4 s.nNodes ++ wordBytes 4 s.nKeys)))

/-- `pg_tre_surf_serialize` into a buffer. The bytes between the parts stay as they are. -/
def pgTreSurfSerialize (s : PgTreSurf) (dst : List UInt8) : List UInt8 :=
  let nwords := bvNwords s.nLabels
  let dst := putBytes dst 0 (surfHeader s)
  let p := maxAlign surfHeaderBytes
  let dst := putBytes dst p (s.labels.take s.nLabels)
  let p := p + maxAlign s.nLabels
  let dst := putBytes dst p ((s.hasChild.words.take nwords).flatMap word)
  let p := p + nwords * 8
  putBytes dst p ((s.louds.words.take nwords).flatMap word)

/-- The words of a bit vector in the image. -/
def wordsAt (src : List UInt8) (p nwords : ℕ) : List ℕ :=
  (List.range nwords).map fun i => numberAt src (p + 8 * i) 8

/-- `pg_tre_surf_deserialize`. -/
def pgTreSurfDeserialize (src : List UInt8) : Except PgError PgTreSurf :=
  let len := src.length
  let magic := numberAt src 0 4
  let version := numberAt src 4 4
  let nLabels := numberAt src 8 4
  let nwords := bvNwords nLabels
  let need := maxAlign surfHeaderBytes + maxAlign nLabels + 2 * nwords * 8
  if len < surfHeaderBytes then .error ⟨s!"pg_tre: SuRF image too small ({len} bytes)"⟩
  else if magic ≠ surfMagic then
    let digits := hexDigits 8 magic
    .error ⟨s!"pg_tre: bad SuRF magic 0x{digits}"⟩
  else if version ≠ surfVersion then .error ⟨s!"pg_tre: unsupported SuRF version {version}"⟩
  else if len < need then .error ⟨s!"pg_tre: truncated SuRF image ({len} < {need})"⟩
  else
    let p := maxAlign surfHeaderBytes
    let q := p + maxAlign nLabels
    .ok {
      nLabels := nLabels
      nNodes := numberAt src 12 4
      nKeys := numberAt src 16 4
      labels := bytesAt src p nLabels
      hasChild := bvOfWords nLabels (wordsAt src q nwords)
      louds := bvOfWords nLabels (wordsAt src (q + nwords * 8) nwords) }

/-- A filter whose parts have the lengths that its number of labels says, and whose numbers fit
their fields. -/
structure PgTreSurf.Storable (s : PgTreSurf) : Prop where
  labels : s.labels.length = s.nLabels
  hasChild : s.hasChild = bvOfWords s.nLabels s.hasChild.words
  louds : s.louds = bvOfWords s.nLabels s.louds.words
  hasChildWords : s.hasChild.words.length = bvNwords s.nLabels
  loudsWords : s.louds.words.length = bvNwords s.nLabels
  words : ∀ w ∈ s.hasChild.words ++ s.louds.words, w < 2 ^ 64
  nLabels_lt : s.nLabels < 2 ^ 32
  nNodes_lt : s.nNodes < 2 ^ 32
  nKeys_lt : s.nKeys < 2 ^ 32

/-- Words are read as they were written. -/
theorem wordsAt_eq {src : List UInt8} {p : ℕ} {words : List ℕ} (h : ∀ w ∈ words, w < 2 ^ 64)
    (hsrc : bytesAt src p (8 * words.length) = words.flatMap word) :
    wordsAt src p words.length = words := by
  apply List.ext_getElem
  · simp [wordsAt]
  · intro i hi hi'
    simp only [wordsAt, List.getElem_map, List.getElem_range]
    have hrecord := @bytesAt_flatMap_records ℕ word 8 length_word words i hi' []
    rw [List.append_nil, ← hsrc] at hrecord
    rw [← @numberAt_bytesAt p 8 src (8 * i) (8 * words.length) (by omega), numberAt, hrecord, word,
      ofBytes_wordBytes, Nat.mod_eq_of_lt]
    exact h _ (List.getElem_mem hi')

/-- The header of a SuRF has its fixed length. -/
@[simp] theorem length_surfHeader (s : PgTreSurf) : (surfHeader s).length = surfHeaderBytes := by
  simp [surfHeader, surfHeaderBytes]

/-- Aligning never shrinks a length. -/
theorem le_maxAlign (n : ℕ) : n ≤ maxAlign n := by
  unfold maxAlign
  omega

section

variable {s : PgTreSurf} {dst : List UInt8}

/-- The parts of the image are where the reader looks for them. -/
theorem pgTreSurfSerialize_parts (h : s.Storable) (hdst : dst.length = pgTreSurfSerializedSize s) :
    (pgTreSurfSerialize s dst).length = dst.length ∧
      bytesAt (pgTreSurfSerialize s dst) 0 surfHeaderBytes = surfHeader s ∧
      bytesAt (pgTreSurfSerialize s dst) (maxAlign surfHeaderBytes) s.nLabels = s.labels ∧
      bytesAt (pgTreSurfSerialize s dst) (maxAlign surfHeaderBytes + maxAlign s.nLabels)
        (8 * bvNwords s.nLabels) = s.hasChild.words.flatMap word ∧
      bytesAt (pgTreSurfSerialize s dst)
        (maxAlign surfHeaderBytes + maxAlign s.nLabels + bvNwords s.nLabels * 8)
        (8 * bvNwords s.nLabels) = s.louds.words.flatMap word := by
  have hlabels : s.labels.take s.nLabels = s.labels := List.take_of_length_le (le_of_eq h.labels)
  have hchild : s.hasChild.words.take (bvNwords s.nLabels) = s.hasChild.words :=
    List.take_of_length_le (le_of_eq h.hasChildWords)
  have hlouds : s.louds.words.take (bvNwords s.nLabels) = s.louds.words :=
    List.take_of_length_le (le_of_eq h.loudsWords)
  have hlenChild := length_flatMap_records length_word s.hasChild.words
  have hlenLouds := length_flatMap_records length_word s.louds.words
  have halign := le_maxAlign s.nLabels
  have hheader : maxAlign surfHeaderBytes = 24 := rfl
  have hlenLabels := h.labels
  have hlenHeader := length_surfHeader s
  rw [h.hasChildWords] at hlenChild
  rw [h.loudsWords] at hlenLouds
  unfold pgTreSurfSerializedSize at hdst
  unfold pgTreSurfSerialize
  simp only [hlabels, hchild, hlouds, hheader] at hdst ⊢
  unfold surfHeaderBytes at hlenHeader ⊢
  -- The buffer after each of the four copies.
  generalize hd₁ : putBytes dst 0 (surfHeader s) = d₁
  have hl₁ : d₁.length = dst.length := by
    rw [← hd₁]
    exact length_putBytes (by omega)
  generalize hd₂ : putBytes d₁ 24 s.labels = d₂
  have hl₂ : d₂.length = dst.length := by
    rw [← hd₂, length_putBytes (by omega), hl₁]
  generalize hd₃ : putBytes d₂ (24 + maxAlign s.nLabels) (s.hasChild.words.flatMap word) = d₃
  have hl₃ : d₃.length = dst.length := by
    rw [← hd₃, length_putBytes (by omega), hl₂]
  refine ⟨?_, ?_, ?_, ?_, ?_⟩
  · rw [length_putBytes (by omega), hl₃]
  · rw [bytesAt_putBytes_of_disjoint (by omega) (by omega), ← hd₃,
      bytesAt_putBytes_of_disjoint (by omega) (by omega), ← hd₂,
      bytesAt_putBytes_of_disjoint (by omega) (by omega), ← hd₁, ← hlenHeader]
    exact bytesAt_putBytes_self (by omega)
  · rw [bytesAt_putBytes_of_disjoint (by omega) (by omega), ← hd₃,
      bytesAt_putBytes_of_disjoint (by omega) (by omega), ← hd₂, ← hlenLabels]
    exact bytesAt_putBytes_self (by omega)
  · rw [bytesAt_putBytes_of_disjoint (by omega) (by omega), ← hd₃, ← hlenChild]
    exact bytesAt_putBytes_self (by omega)
  · rw [← hlenLouds]
    exact bytesAt_putBytes_self (by omega)

/-- The image reads as the filter. -/
theorem pgTreSurfDeserialize_serialize (h : s.Storable)
    (hdst : dst.length = pgTreSurfSerializedSize s) :
    pgTreSurfDeserialize (pgTreSurfSerialize s dst) = .ok s := by
  obtain ⟨hlen, hheader, hlabels, hchild, hlouds⟩ := pgTreSurfSerialize_parts h hdst
  generalize pgTreSurfSerialize s dst = image at hlen hheader hlabels hchild hlouds
  -- The fields of the header.
  have hfield : ∀ off, off + 4 ≤ surfHeaderBytes →
      numberAt image off 4 = numberAt (surfHeader s) off 4 := by
    intro off hoff
    have hregion := @numberAt_bytesAt 0 4 image off surfHeaderBytes hoff
    rw [hheader, Nat.zero_add] at hregion
    exact hregion.symm
  have hmagic : numberAt image 0 4 = surfMagic := by
    rw [hfield 0 (by decide)]
    exact @numberAt_wordBytes [] _ 0 4 surfMagic rfl (by decide)
  have hversion : numberAt image 4 4 = surfVersion := by
    rw [hfield 4 (by decide)]
    exact @numberAt_wordBytes (wordBytes 4 surfMagic) _ 4 4 surfVersion (by simp) (by decide)
  have hn : numberAt image 8 4 = s.nLabels := by
    rw [hfield 8 (by decide), surfHeader, ← List.append_assoc]
    exact @numberAt_wordBytes (wordBytes 4 surfMagic ++ wordBytes 4 surfVersion) _ 8 4 s.nLabels
      (by simp) h.nLabels_lt
  have hnodes : numberAt image 12 4 = s.nNodes := by
    rw [hfield 12 (by decide), surfHeader, ← List.append_assoc, ← List.append_assoc]
    exact @numberAt_wordBytes (wordBytes 4 surfMagic ++ wordBytes 4 surfVersion ++
      wordBytes 4 s.nLabels) _ 12 4 s.nNodes (by simp) h.nNodes_lt
  have hkeys : numberAt image 16 4 = s.nKeys := by
    rw [hfield 16 (by decide), surfHeader, ← List.append_assoc, ← List.append_assoc,
      ← List.append_assoc, ← List.append_nil (wordBytes 4 s.nKeys)]
    exact @numberAt_wordBytes (wordBytes 4 surfMagic ++ wordBytes 4 surfVersion ++
      wordBytes 4 s.nLabels ++ wordBytes 4 s.nNodes) [] 16 4 s.nKeys (by simp) h.nKeys_lt
  have hwords : ∀ w ∈ s.hasChild.words, w < 2 ^ 64 := fun w hw => h.words w (List.mem_append_left _ hw)
  have hwords' : ∀ w ∈ s.louds.words, w < 2 ^ 64 := fun w hw => h.words w (List.mem_append_right _ hw)
  have hchildWords : wordsAt image (maxAlign surfHeaderBytes + maxAlign s.nLabels)
      (bvNwords s.nLabels) = s.hasChild.words := by
    rw [← h.hasChildWords] at hchild ⊢
    exact wordsAt_eq hwords hchild
  have hloudsWords : wordsAt image
      (maxAlign surfHeaderBytes + maxAlign s.nLabels + bvNwords s.nLabels * 8)
      (bvNwords s.nLabels) = s.louds.words := by
    have hsame := @wordsAt_eq image _ s.louds.words hwords' (by rw [h.loudsWords]; exact hlouds)
    rw [h.loudsWords] at hsame
    exact hsame
  unfold pgTreSurfDeserialize
  simp only [hmagic, hversion, hn, hnodes, hkeys, hlabels, hchildWords, hloudsWords, hlen, hdst]
  rw [if_neg, if_neg (by simp), if_neg (by simp), if_neg]
  · rw [← h.hasChild, ← h.louds]
  · unfold pgTreSurfSerializedSize
    omega
  · have hsize : maxAlign surfHeaderBytes = 24 := rfl
    unfold pgTreSurfSerializedSize
    rw [hsize]
    unfold surfHeaderBytes
    omega

end

/-! ## What is built can be stored -/

/-- The edges of a range share its keys among them. -/
theorem length_emitRange {depth : ℕ} {first : Bool} {range : KeyRange} :
    (emitRange depth first range).length ≤ range.length ∧
      ((emitRange depth first range).map (·.keys.length)).sum = range.length := by
  fun_induction emitRange depth first range with
  | case1 => simp
  | case2 first key keys ih =>
    obtain ⟨hle, hsum⟩ := ih
    have hsplit := congrArg List.length (@List.takeWhile_append_dropWhile _
      (fun k => decide (keyByte k depth = keyByte key depth)) keys)
    rw [List.length_append] at hsplit
    constructor
    · simp only [List.length_cons]
      omega
    · rw [List.map_cons, List.sum_cons, hsum]
      simp only [List.length_cons]
      omega

/-- Every edge has a key. -/
theorem keys_ne_nil {depth : ℕ} {first : Bool} {range : KeyRange} {e : SurfEdge}
    (he : e ∈ emitRange depth first range) : e.keys ≠ [] := by
  fun_induction emitRange depth first range with
  | case1 => simp at he
  | case2 first key keys ih =>
    rcases List.mem_cons.mp he with rfl | he
    · simp
    · exact ih he

/-- The number of keys in some ranges. -/
def rangesLength (ranges : List KeyRange) : ℕ := (ranges.map List.length).sum

/-- A level has no more edges, and no more keys left, than the level before. -/
theorem length_emitRanges (depth : ℕ) (cur : List KeyRange) :
    (cur.flatMap (emitRange depth true)).length ≤ rangesLength cur ∧
      rangesLength (nextRanges (cur.flatMap (emitRange depth true))) ≤ rangesLength cur := by
  have hnext : ∀ edges : List SurfEdge, rangesLength (nextRanges edges) ≤
      (edges.map (·.keys.length)).sum := by
    intro edges
    induction edges with
    | nil => exact le_rfl
    | cons e edges ih =>
      rw [List.map_cons, List.sum_cons]
      by_cases hchild : e.hasChild = true
      · have hcons : nextRanges (e :: edges) = e.keys :: nextRanges edges := by
          simp [nextRanges, hchild]
        have hlen : rangesLength (e.keys :: nextRanges edges) =
            e.keys.length + rangesLength (nextRanges edges) := by simp [rangesLength]
        rw [hcons, hlen]
        omega
      · have hcons : nextRanges (e :: edges) = nextRanges edges := by
          simp [nextRanges, hchild]
        rw [hcons]
        omega
  have hlevel : (cur.flatMap (emitRange depth true)).length ≤ rangesLength cur ∧
      ((cur.flatMap (emitRange depth true)).map (·.keys.length)).sum = rangesLength cur := by
    induction cur with
    | nil => exact ⟨le_rfl, rfl⟩
    | cons range cur ih =>
      obtain ⟨hle, hsum⟩ := @length_emitRange depth true range
      unfold rangesLength at ih ⊢
      simp only [List.flatMap_cons, List.length_append, List.map_append, List.sum_append,
        List.map_cons, List.sum_cons]
      omega
  exact ⟨hlevel.1, (hnext _).trans (le_of_eq hlevel.2)⟩

/-- Every depth has at most one label and one node for each key. -/
theorem length_surfLevels {n depth : ℕ} {cur : List KeyRange} (hcur : ∀ r ∈ cur, r ≠ []) :
    (surfLevels n depth cur).1.length ≤ n * rangesLength cur ∧
      (surfLevels n depth cur).2 ≤ n * rangesLength cur := by
  induction n generalizing depth cur with
  | zero => simp [surfLevels]
  | succ n ih =>
    unfold surfLevels
    split_ifs with hnil
    · simp
    · obtain ⟨hlabels, hnext⟩ := length_emitRanges depth cur
      have hnodes : cur.length ≤ rangesLength cur := by
        unfold rangesLength
        rw [← List.length_map (f := List.length)]
        apply List.length_le_sum_of_one_le
        intro l hl
        obtain ⟨r, hr, rfl⟩ := List.mem_map.mp hl
        exact List.length_pos_iff.mpr (hcur r hr)
      have hbelow : ∀ r ∈ nextRanges (cur.flatMap (emitRange depth true)), r ≠ [] := by
        intro r hr
        obtain ⟨e, he, rfl⟩ := List.mem_map.mp hr
        obtain ⟨range, -, he'⟩ := List.mem_flatMap.mp (List.mem_filter.mp he).1
        exact keys_ne_nil he'
      obtain ⟨hlabels', hnodes'⟩ := @ih (depth + 1) _ hbelow
      have hmul := Nat.mul_le_mul_left n hnext
      simp only [List.length_append, Nat.succ_mul]
      constructor <;> omega

/-- The words of a bit vector fit in 64 bits. -/
theorem lt_of_mem_bvOfBits {bits : List Bool} {w : ℕ} (h : w ∈ (bvOfBits bits).words) :
    w < 2 ^ 64 := by
  obtain ⟨i, hi, rfl⟩ := List.mem_iff_getElem.mp h
  have hlt := @RankSelect.packBits_lt 64 (bvNwords bits.length) i bits
  rw [← words_bvOfBits, List.getD_eq_getElem _ _ hi] at hlt
  exact hlt

/-- A SuRF of fewer than 2 ^ 32 edges, nodes and keys can be stored. -/
theorem surfOfEdges_storable {edges : List SurfEdge} {nNodes nKeys : ℕ}
    (hedges : edges.length < 2 ^ 32) (hnodes : nNodes < 2 ^ 32) (hkeys : nKeys < 2 ^ 32) :
    (surfOfEdges edges nNodes nKeys).Storable where
  labels := List.length_map _
  hasChild := by simp [surfOfEdges, bvOfBits, bvOfWords]
  louds := by simp [surfOfEdges, bvOfBits, bvOfWords]
  hasChildWords := by simp [surfOfEdges]
  loudsWords := by simp [surfOfEdges]
  words := by
    intro w hw
    rcases List.mem_append.mp hw with hw | hw
    · exact lt_of_mem_bvOfBits hw
    · exact lt_of_mem_bvOfBits hw
  nLabels_lt := hedges
  nNodes_lt := hnodes
  nKeys_lt := hkeys

/-- A key has one label at each depth at most. -/
theorem pgTreSurfBuild_bounds {keys : List UInt64} {s : PgTreSurf}
    (hbuild : pgTreSurfBuild keys = .ok s) :
    s.nLabels ≤ 8 * keys.length ∧ s.nNodes ≤ 8 * keys.length ∧ keys.length < 2 ^ 27 ∧
      ∃ edges, s = surfOfEdges edges s.nNodes keys.length := by
  unfold pgTreSurfBuild at hbuild
  by_cases hne : keys = []
  · rw [if_pos hne] at hbuild
    obtain rfl := Except.ok.inj hbuild
    rw [hne]
    exact ⟨le_rfl, le_rfl, by simp, [], rfl⟩
  · rw [if_neg hne] at hbuild
    split_ifs at hbuild with hsize
    obtain rfl := Except.ok.inj hbuild
    obtain ⟨hlabels, hnodes⟩ := @length_surfLevels 8 0 [keys] (by simpa using hne)
    have hlen : rangesLength [keys] = keys.length := by simp [rangesLength]
    rw [hlen] at hlabels hnodes
    unfold maxAllocSize at hsize
    exact ⟨hlabels, hnodes, by omega, _, rfl⟩

/-- What `pg_tre_surf_build` returns can be stored. -/
theorem pgTreSurfBuild_storable {keys : List UInt64} {s : PgTreSurf}
    (hbuild : pgTreSurfBuild keys = .ok s) : s.Storable := by
  obtain ⟨hlabels, hnodes, hkeys, edges, hs⟩ := pgTreSurfBuild_bounds hbuild
  have hedges : s.nLabels = edges.length := by rw [hs, surfOfEdges]
  rw [hs]
  exact surfOfEdges_storable (by omega) (by omega) (by omega)

/-! ## The chain of pages -/

/-- `surf_page_capacity`. -/
def surfPageCapacity : ℕ :=
  blcksz - maxAlign sizeOfPageHeaderData - maxAlign sizeOfOpaque - maxAlign 16

/-- The content of a page: `PgTreSurfHeader` and a chunk of the image. -/
def surfPageContents (nextPage totalBytes : ℕ) (chunk : List UInt8) : List UInt8 :=
  wordBytes 4 nextPage ++ (wordBytes 4 chunk.length ++ (wordBytes 4 totalBytes ++
    (wordBytes 4 0 ++ chunk)))

/-- A page with a chunk, without a continuation. -/
def surfPage (totalBytes : ℕ) (chunk : List UInt8) : StoredPage :=
  ⟨.pageSurf, 0, sizeOfPageHeaderData + maxAlign 16 + chunk.length,
    surfPageContents invalidBlockNumber totalBytes chunk⟩

/-- The link to the next page, set in the header of a page. -/
def linkNext (page : StoredPage) (blkno : BlockNumber) : StoredPage :=
  { page with contents := putBytes page.contents 0 (wordBytes 4 blkno) }

/-- The loop of `pg_tre_surf_write_image`, from an offset on: the first page and the pages of the
index. -/
def surfWriteFrom (image : List UInt8) (off : ℕ) (first prev : Option BlockNumber) (st : PageStore) :
    Option BlockNumber × PageStore :=
  if _hloop : off < image.length ∨ first = none then
    let extended := st.extend prev.toList .pageSurf
    let chunk := bytesAt image off (min surfPageCapacity (image.length - off))
    let totalBytes := if first = none then image.length else 0
    let st := extended.2.write extended.1 (surfPage totalBytes chunk)
    let st := match prev with
      | none => st
      | some p => match st.pages[p]? with
        | none => st
        | some page => st.write p (linkNext page extended.1)
    surfWriteFrom image (off + min surfPageCapacity (image.length - off))
      (some (first.getD extended.1)) (some extended.1) st
  else (first, st)
termination_by (image.length - off) + (if first = none then 1 else 0)
decreasing_by
  have hcap : surfPageCapacity = 8144 := rfl
  rw [if_neg (by simp)]
  split_ifs with hfirst
  · omega
  · rcases _hloop with hmore | hnone
    · omega
    · exact absurd hnone hfirst

/-- `pg_tre_surf_write_image`. -/
def pgTreSurfWriteImage (st : PageStore) (image : List UInt8) : Option BlockNumber × PageStore :=
  if image.length = 0 then (none, st) else surfWriteFrom image 0 none none st

/-- The loop of `pg_tre_surf_read`, with the page that is locked and the bytes read so far. Nothing
is returned when the fuel does not last. -/
def surfReadPages (st : PageStore) (total : ℕ) :
    ℕ → StoredPage → List UInt8 → Option (Except PgError (List UInt8))
  | 0, _, _ => none
  | fuel + 1, page, image =>
      let chunk := numberAt page.contents 4 4
      let next := numberAt page.contents 0 4
      if total < image.length + chunk then
        some (.error ⟨"pg_tre: SuRF chain overflows declared length"⟩)
      else
        let image := image ++ page.region (maxAlign 16) chunk
        if next = invalidBlockNumber then
          let off := image.length
          if off ≠ total then
            some (.error ⟨s!"pg_tre: SuRF chain short ({off} of {total} bytes)"⟩)
          else some (.ok image)
        else
          match st.read next .pageSurf with
          | .error e => some (.error e)
          | .ok page => surfReadPages st total fuel page image

/-- `pg_tre_surf_read` up to the image, for a chain that has a page. -/
def surfReadImage (st : PageStore) (fuel : ℕ) (root : BlockNumber) :
    Option (Except PgError (List UInt8)) :=
  match st.read root .pageSurf with
  | .error e => some (.error e)
  | .ok page =>
      let total := numberAt page.contents 8 4
      if total = 0 then some (.error ⟨"pg_tre: SuRF first page has zero total_bytes"⟩)
      else if maxAllocSize < total then
        some (.error ⟨s!"invalid memory alloc request size {total}"⟩)
      else surfReadPages st total fuel page []

/-- `pg_tre_surf_read`. -/
def pgTreSurfRead (st : PageStore) (fuel : ℕ) (root : Option BlockNumber) :
    Option (Except PgError (Option PgTreSurf)) :=
  match root with
  | none => some (.ok none)
  | some root => (surfReadImage st fuel root).map fun image => do
      return some (← pgTreSurfDeserialize (← image))

/-- A page with a chunk and its continuation. -/
def linkedSurfPage (nextPage totalBytes : ℕ) (chunk : List UInt8) : StoredPage :=
  ⟨.pageSurf, 0, sizeOfPageHeaderData + maxAlign 16 + chunk.length,
    surfPageContents nextPage totalBytes chunk⟩

section

variable {next total : ℕ} {chunk : List UInt8}

/-- A linked SuRF page is not blank. -/
theorem linkedSurfPage_not_blank : ¬(linkedSurfPage next total chunk).Blank := by
  have hheader : maxAlign 16 = 16 := rfl
  unfold StoredPage.Blank linkedSurfPage
  rw [hheader]
  simp only
  omega

/-- Linking a SuRF page changes its right link only. -/
theorem linkNext_surfPage (blkno : BlockNumber) :
    linkNext (surfPage total chunk) blkno = linkedSurfPage blkno total chunk := by
  have hfour : (wordBytes 4 blkno).length = (wordBytes 4 invalidBlockNumber).length := by simp
  unfold linkNext surfPage linkedSurfPage surfPageContents putBytes
  simp only [List.take_zero, List.nil_append, Nat.zero_add]
  rw [hfour, List.drop_left' rfl]

/-- The fields of a page are read as they were written. -/
theorem linkedSurfPage_fields (hnext : next < 2 ^ 32) (htotal : total < 2 ^ 32)
    (hchunk : chunk.length < 2 ^ 32) :
    numberAt (linkedSurfPage next total chunk).contents 0 4 = next ∧
      numberAt (linkedSurfPage next total chunk).contents 4 4 = chunk.length ∧
      numberAt (linkedSurfPage next total chunk).contents 8 4 = total ∧
      (linkedSurfPage next total chunk).region (maxAlign 16) chunk.length = chunk := by
  have hheader : maxAlign 16 = 16 := rfl
  unfold linkedSurfPage surfPageContents
  refine ⟨?_, ?_, ?_, ?_⟩
  · exact @numberAt_wordBytes [] _ 0 4 next rfl hnext
  · exact @numberAt_wordBytes (wordBytes 4 next) _ 4 4 chunk.length (by simp) hchunk
  · simp only
    rw [← List.append_assoc]
    exact @numberAt_wordBytes (wordBytes 4 next ++ wordBytes 4 chunk.length) _ 8 4 total (by simp)
      htotal
  · rw [StoredPage.region_eq (by simp [hheader]; omega)]
    simp only
    rw [← List.append_assoc, ← List.append_assoc, ← List.append_assoc, hheader,
      @bytesAt_append_right _ chunk 16 chunk.length 0 (by simp)]
    exact bytesAt_self rfl

/-- The reader at a page of the chain. -/
theorem surfReadPages_linked {st : PageStore} {bytes fuel : ℕ} {image : List UInt8}
    (hnext : next < 2 ^ 32) (htotal : total < 2 ^ 32) (hchunk : chunk.length < 2 ^ 32)
    (hfit : image.length + chunk.length ≤ bytes) :
    surfReadPages st bytes (fuel + 1) (linkedSurfPage next total chunk) image =
      if next = invalidBlockNumber then
        if (image ++ chunk).length ≠ bytes then
          let off := (image ++ chunk).length
          some (.error ⟨s!"pg_tre: SuRF chain short ({off} of {bytes} bytes)"⟩)
        else some (.ok (image ++ chunk))
      else
        match st.read next .pageSurf with
        | .error e => some (.error e)
        | .ok page => surfReadPages st bytes fuel page (image ++ chunk) := by
  obtain ⟨hn, hc, -, hr⟩ := linkedSurfPage_fields hnext htotal hchunk
  rw [surfReadPages]
  simp only [hn, hc, hr]
  rw [if_neg (by omega)]

end

/-- From a page on that ends the chain so far, the writer makes a chain that reads as the chunk of
the page and the rest of the image. All other pages stay as they are. -/
theorem surfWriteFrom_spec {image : List UInt8} (himage : image.length < 2 ^ 32) {off total : ℕ}
    {first prev : BlockNumber} {st : PageStore} {chunk acc : List UInt8}
    (hprev : st.pages[prev]? = some (surfPage total chunk)) (htotal : total < 2 ^ 32)
    (hoff : acc.length + chunk.length = off) (hle : off ≤ image.length) {root : Option BlockNumber}
    {st' : PageStore} (hwrite : surfWriteFrom image off (some first) (some prev) st = (root, st'))
    (hfit : st'.pages.length ≤ invalidBlockNumber) :
    root = some first ∧
      (∀ b page, b ≠ prev → st.pages[b]? = some page → ¬page.Blank → st'.pages[b]? = some page) ∧
      ∃ next < 2 ^ 32, st'.pages[prev]? = some (linkedSurfPage next total chunk) ∧
        ∀ fuel, image.length - off < fuel →
          surfReadPages st' image.length fuel (linkedSurfPage next total chunk) acc =
            some (.ok (acc ++ chunk ++ image.drop off)) := by
  have hcap : surfPageCapacity = 8144 := rfl
  have hinvalid : invalidBlockNumber = 2 ^ 32 - 1 := rfl
  generalize hleft : image.length - off = left
  induction left using Nat.strong_induction_on generalizing off total prev st chunk acc with
  | _ left ih =>
    unfold surfWriteFrom at hwrite
    by_cases hmore : off < image.length
    · rw [dif_pos (Or.inl hmore)] at hwrite
      -- One more page, linked behind the last one.
      cases hextend : st.extend [prev] .pageSurf with
      | mk blkno st₁ =>
        have hlt : prev < st.pages.length := (List.getElem?_eq_some_iff.mp hprev).1
        generalize hchunk' : bytesAt image off (min surfPageCapacity (image.length - off)) = chunk'
          at hwrite
        have hlen' : chunk'.length = min surfPageCapacity (image.length - off) := by
          rw [← hchunk']
          exact length_bytesAt (by omega)
        obtain ⟨hnot, hblank, hnew, hothers, -⟩ := @PageStore.extend_write_spec st st₁ [prev] .pageSurf
          blkno (surfPage 0 chunk') (by simpa using hlt) hextend
        have hne : blkno ≠ prev := by simpa using hnot
        simp only [Option.toList_some, hextend, reduceCtorEq, if_false, hothers prev (Ne.symm hne),
          hprev, Option.getD_some, linkNext_surfPage, ← hlen'] at hwrite
        have hnew' : ((st₁.write blkno (surfPage 0 chunk')).write prev
            (linkedSurfPage blkno total chunk)).pages[blkno]? = some (surfPage 0 chunk') := by
          rw [PageStore.write_of_ne hne, hnew]
        obtain ⟨hroot, hkeep, next, hnext, hget, hread⟩ :=
          @ih (image.length - (off + chunk'.length)) (by omega) (off + chunk'.length) 0 blkno _ chunk'
            (acc ++ chunk) hnew' (by omega) (by rw [List.length_append]; omega) (by omega) hwrite rfl
        have hlink : st'.pages[prev]? = some (linkedSurfPage blkno total chunk) := by
          apply hkeep prev _ (Ne.symm hne) _ linkedSurfPage_not_blank
          apply PageStore.write_self
          obtain ⟨hlt', -⟩ := List.getElem?_eq_some_iff.mp ((hothers prev (Ne.symm hne)).trans hprev)
          exact hlt'
        have hvalid : blkno < invalidBlockNumber :=
          lt_of_lt_of_le (List.getElem?_eq_some_iff.mp hget).1 hfit
        have hblk : blkno < 2 ^ 32 := hvalid.trans (by decide)
        have hread' : st'.read blkno .pageSurf = .ok (linkedSurfPage next 0 chunk') :=
          PageStore.read_eq_ok hget rfl
        refine ⟨hroot, ?_, blkno, hblk, hlink, ?_⟩
        · intro b page hb hpage hfull
          have hbne : b ≠ blkno := by
            rintro rfl
            exact hfull (hblank page hpage)
          apply hkeep b page hbne _ hfull
          rw [PageStore.write_of_ne hb, hothers b hbne, hpage]
        · intro fuel hfuel
          obtain ⟨fuel, rfl⟩ : ∃ n, fuel = n + 1 := ⟨fuel - 1, by omega⟩
          rw [surfReadPages_linked hblk htotal (by omega) (by omega), if_neg (ne_of_lt hvalid), hread']
          simp only
          rw [hread fuel (by omega)]
          congr 2
          have hsplit : chunk' ++ image.drop (off + chunk'.length) = image.drop off := by
            rw [hlen', ← hchunk', bytesAt_append_drop]
          rw [List.append_assoc, hsplit]
    · -- The image is on the pages.
      rw [dif_neg (by simp [hmore])] at hwrite
      obtain ⟨rfl, rfl⟩ : some first = root ∧ st = st' := by simpa using hwrite
      refine ⟨rfl, fun b page _ hpage _ => hpage, invalidBlockNumber, by omega, hprev, ?_⟩
      intro fuel hfuel
      obtain ⟨fuel, rfl⟩ : ∃ n, fuel = n + 1 := ⟨fuel - 1, by omega⟩
      rw [surfReadPages_linked (by omega) htotal (by omega) (by omega), if_pos rfl,
        List.drop_eq_nil_of_le (by omega), if_neg, List.append_nil]
      rw [List.length_append]
      omega

/-- The index grows by one page at most for every byte of the image. -/
theorem length_surfWriteFrom_le {image : List UInt8} {off : ℕ} {first prev : Option BlockNumber}
    {st : PageStore} (h : off < image.length ∨ first ≠ none) :
    (surfWriteFrom image off first prev st).2.pages.length ≤
      st.pages.length + (image.length - off) := by
  have hcap : surfPageCapacity = 8144 := rfl
  generalize hleft : image.length - off = left
  induction left using Nat.strong_induction_on generalizing off first prev st with
  | _ left ih =>
    unfold surfWriteFrom
    by_cases hmore : off < image.length
    · rw [dif_pos (Or.inl hmore)]
      have hstep := PageStore.length_extend_le st prev.toList .pageSurf
      simp only
      apply (ih _ (by omega) (Or.inr (by simp)) rfl).trans
      split
      · rw [PageStore.length_write]
        omega
      · split
        · rw [PageStore.length_write]
          omega
        · rw [PageStore.length_write, PageStore.length_write]
          omega
    · have hfirst : first ≠ none := by
        rcases h with h | h
        · exact absurd h hmore
        · exact h
      rw [dif_neg (by simp [hmore, hfirst])]
      exact Nat.le_add_right _ _

/-- What `pg_tre_surf_write_image` has written is read back, whatever the length of the image. -/
theorem surfReadImage_write {st st' : PageStore} {image : List UInt8} (hne : image ≠ [])
    (hmem : image.length ≤ maxAllocSize) {root : Option BlockNumber}
    (hwrite : pgTreSurfWriteImage st image = (root, st'))
    (hfit : st'.pages.length ≤ invalidBlockNumber) :
    ∃ first, root = some first ∧
      ∀ fuel, image.length < fuel → surfReadImage st' fuel first = some (.ok image) := by
  have hcap : surfPageCapacity = 8144 := rfl
  have hmax : maxAllocSize = 2 ^ 30 - 1 := rfl
  have hpos : 0 < image.length := List.length_pos_iff.mpr hne
  unfold pgTreSurfWriteImage at hwrite
  rw [if_neg (by omega), surfWriteFrom, dif_pos (Or.inl hpos)] at hwrite
  cases hextend : st.extend [] .pageSurf with
  | mk blkno st₁ =>
    generalize hchunk : bytesAt image 0 (min surfPageCapacity (image.length - 0)) = chunk at hwrite
    have hlen : chunk.length = min surfPageCapacity (image.length - 0) := by
      rw [← hchunk]
      exact length_bytesAt (by omega)
    obtain ⟨-, -, hnew, -, -⟩ := @PageStore.extend_write_spec st st₁ [] .pageSurf blkno
      (surfPage image.length chunk) (by simp) hextend
    simp only [Option.toList_none, hextend, if_true, Option.getD_none, Nat.zero_add, ← hlen] at hwrite
    obtain ⟨hroot, -, next, hnext, hget, hread⟩ := @surfWriteFrom_spec image (by omega) chunk.length
      image.length blkno blkno _ chunk [] hnew (by omega) (by simp) (by omega) root st' hwrite hfit
    refine ⟨blkno, hroot, fun fuel hfuel => ?_⟩
    have hfirst : st'.read blkno .pageSurf = .ok (linkedSurfPage next image.length chunk) :=
      PageStore.read_eq_ok hget rfl
    obtain ⟨-, -, htotal, -⟩ := @linkedSurfPage_fields next image.length chunk hnext (by omega)
      (by omega)
    have hsplit : chunk ++ image.drop chunk.length = image := by
      have h := bytesAt_append_drop image 0 chunk.length
      rw [hlen, hchunk, ← hlen, Nat.zero_add] at h
      exact h
    unfold surfReadImage
    rw [hfirst]
    simp only [htotal]
    rw [if_neg (by omega), if_neg (by omega), hread fuel (by omega), List.nil_append, hsplit]

/-- A filter that can be stored comes back from its pages as it was. -/
theorem pgTreSurfRead_write {s : PgTreSurf} (hstorable : s.Storable) {dst : List UInt8}
    (hdst : dst.length = pgTreSurfSerializedSize s) (hmem : dst.length ≤ maxAllocSize)
    {st st' : PageStore} {root : Option BlockNumber}
    (hwrite : pgTreSurfWriteImage st (pgTreSurfSerialize s dst) = (root, st'))
    (hfit : st'.pages.length ≤ invalidBlockNumber) {fuel : ℕ} (hfuel : dst.length < fuel) :
    ∃ first, root = some first ∧
      surfReadImage st' fuel first = some (.ok (pgTreSurfSerialize s dst)) ∧
      pgTreSurfRead st' fuel root = some (.ok (some s)) := by
  have hlen := (pgTreSurfSerialize_parts hstorable hdst).1
  have hpos : 0 < dst.length := by
    rw [hdst]
    unfold pgTreSurfSerializedSize
    have hheader : maxAlign surfHeaderBytes = 24 := rfl
    omega
  have hne : pgTreSurfSerialize s dst ≠ [] := by
    rw [← List.length_pos_iff]
    omega
  obtain ⟨first, hroot, hread⟩ := surfReadImage_write hne (by omega) hwrite hfit
  have himage := hread fuel (by omega)
  have hread' := pgTreSurfDeserialize_serialize hstorable hdst
  refine ⟨first, hroot, himage, ?_⟩
  rw [hroot, pgTreSurfRead, himage]
  simp only [Option.map_some, bind, Except.bind, hread']
  rfl

/-- An image of any length comes back from its pages byte for byte, and so does the image of a range
filter that was built of any keys, and the filter with it. The buffers are allocated, and the index
has no more blocks than there are block numbers. -/
theorem surfPage_roundTrip (st st' : PageStore) (root : Option BlockNumber)
    (hfit : st'.pages.length ≤ invalidBlockNumber) :
    (∀ image : List UInt8, image ≠ [] → image.length ≤ maxAllocSize →
      pgTreSurfWriteImage st image = (root, st') →
      ∃ first, root = some first ∧
        ∀ fuel, image.length < fuel → surfReadImage st' fuel first = some (.ok image)) ∧
    ∀ (keys : List UInt64) (s : PgTreSurf) (dst : List UInt8),
      keys.Pairwise (· < ·) → pgTreSurfBuild keys = .ok s →
      dst.length = pgTreSurfSerializedSize s → dst.length ≤ maxAllocSize →
      pgTreSurfWriteImage st (pgTreSurfSerialize s dst) = (root, st') →
      ∃ first, root = some first ∧ ∀ fuel, dst.length < fuel →
        surfReadImage st' fuel first = some (.ok (pgTreSurfSerialize s dst)) ∧
        ∃ s', pgTreSurfRead st' fuel root = some (.ok (some s')) ∧
          ∀ lo hi, pgTreSurfRangeOverlaps s' lo hi = pgTreSurfRangeOverlaps s lo hi := by
  constructor
  · intro image hne hmem hwrite
    exact surfReadImage_write hne hmem hwrite hfit
  · intro keys s dst _ hbuild hdst hmem hwrite
    have hstorable := pgTreSurfBuild_storable hbuild
    obtain ⟨first, hroot, -⟩ :=
      pgTreSurfRead_write hstorable hdst hmem hwrite hfit (Nat.lt_succ_self dst.length)
    refine ⟨first, hroot, fun fuel hfuel => ?_⟩
    obtain ⟨first', hroot', himage, hread⟩ :=
      pgTreSurfRead_write hstorable hdst hmem hwrite hfit hfuel
    obtain rfl : first = first' := by
      rw [hroot] at hroot'
      exact Option.some.inj hroot'
    exact ⟨himage, s, hread, fun _ _ => rfl⟩

/-- A filter of two keys, written to an index without pages. -/
theorem surfPage_roundTrip_pair :
    ∃ s dst first st', pgTreSurfBuild [256, 259] = .ok s ∧
      pgTreSurfWriteImage ⟨0, [], []⟩ (pgTreSurfSerialize s dst) = (some first, st') ∧
      ∃ s', pgTreSurfRead st' 1000 (some first) = some (.ok (some s')) ∧
        pgTreSurfRangeOverlaps s' 257 258 = pgTreSurfRangeOverlaps s 257 258 := by
  obtain ⟨s, hs⟩ := exists_pgTreSurfBuild (show 8 * ([256, 259].length + 1) ≤ maxAllocSize by decide)
  obtain ⟨hlabels, -⟩ := pgTreSurfBuild_bounds hs
  have hsize : pgTreSurfSerializedSize s ≤ 64 := by
    have hheader : maxAlign surfHeaderBytes = 24 := rfl
    simp only [List.length_cons, List.length_nil] at hlabels
    have halign : maxAlign s.nLabels ≤ 24 := by
      unfold maxAlign
      omega
    have hwords : bvNwords s.nLabels = 1 := by
      unfold bvNwords
      split_ifs with h
      · rfl
      · omega
    unfold pgTreSurfSerializedSize
    rw [hheader, hwords]
    omega
  obtain ⟨dst, hdst⟩ : ∃ dst : List UInt8, dst.length = pgTreSurfSerializedSize s :=
    ⟨List.replicate _ 0, List.length_replicate⟩
  have hlen := (pgTreSurfSerialize_parts (pgTreSurfBuild_storable hs) hdst).1
  cases hwrite : pgTreSurfWriteImage ⟨0, [], []⟩ (pgTreSurfSerialize s dst) with
  | mk root st' =>
    have hfit : st'.pages.length ≤ invalidBlockNumber := by
      have hinvalid : invalidBlockNumber = 2 ^ 32 - 1 := rfl
      unfold pgTreSurfWriteImage at hwrite
      split_ifs at hwrite with hzero
      · obtain ⟨-, rfl⟩ := Prod.mk.inj hwrite
        simp
      · have hle := @length_surfWriteFrom_le (pgTreSurfSerialize s dst) 0 none none ⟨0, [], []⟩
          (Or.inl (Nat.pos_of_ne_zero hzero))
        rw [hwrite] at hle
        simp only [List.length_nil] at hle
        omega
    obtain ⟨first, rfl, hread⟩ := (surfPage_roundTrip ⟨0, [], []⟩ st' root hfit).2 [256, 259] s dst
      (by decide) hs hdst (by rw [hdst]; exact hsize.trans (by decide)) hwrite
    obtain ⟨-, s', hs', hsame⟩ := hread 1000 (by omega)
    exact ⟨s, dst, first, st', hs, hwrite, s', hs', hsame 257 258⟩

end PgTre
