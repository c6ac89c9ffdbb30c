import PgTre.Pages.PostingBuild

/-!
# A posting is read as it was built

Whatever way a posting is stored, the reader has the TIDs of the builder. The slices of a chain are the
TIDs cut into pieces, and no piece is empty, so that the reader never unites two empty maps.
-/

namespace PgTre

open Layout Sparsemap
open Bytes (SparsemapLibrary postingLeafBudget)

/-! ## A leaf -/

section

variable {lib : SparsemapLibrary} {g : GrowingMap} {st st' : PageStore} {held : List BlockNumber}
  {trigramHash : UInt64} {data : List UInt8} {minTid maxTid nTids : ℕ}
  {rightLink root : Option BlockNumber} {tids slice : List ℕ} {slices : List (List ℕ)}

/-- A block number takes four bytes. -/
@[simp] theorem length_encodeBlock (b : Option BlockNumber) : (encodeBlock b).length = 4 := by
  simp [encodeBlock]

/-- A header is read as it was written. -/
theorem readLeafHeader_postingLeafPage (hlink : ∀ b ∈ rightLink, b < invalidBlockNumber)
    (hdata : data.length ≤ postingLeafBudget) :
    readLeafHeader (postingLeafPage data minTid maxTid nTids rightLink) =
      ⟨rightLink, data.length, 0, 0⟩ := by
  have hbudget : postingLeafBudget = 8120 := rfl
  obtain ⟨front, hfront⟩ : ∃ front, front = encodeBlock rightLink ++ (wordBytes 4 0 ++
    (wordBytes 8 minTid ++ wordBytes 8 maxTid)) := ⟨_, rfl⟩
  have hlen : front.length = 24 := by simp [hfront]
  obtain ⟨rest, hrest⟩ : ∃ rest, rest = wordBytes 2 (min nTids (2 ^ 16 - 1)) ++
    (wordBytes 2 0 ++ data) := ⟨_, rfl⟩
  have hcontents : (postingLeafPage data minTid maxTid nTids rightLink).contents =
      front ++ (wordBytes 4 data.length ++ (wordBytes 4 0 ++ (wordBytes 4 0 ++ rest))) := by
    simp [postingLeafPage, hfront, hrest]
  have hlinkAt : numberAt (postingLeafPage data minTid maxTid nTids rightLink).contents 0 4 =
      rightLink.getD invalidBlockNumber :=
    @numberAt_wordBytes [] _ 0 4 _ rfl (getD_lt hlink)
  have hsizeAt := @numberAt_wordBytes front (wordBytes 4 0 ++ (wordBytes 4 0 ++ rest)) 24 4 data.length
    hlen.symm (by omega)
  have hpayloadAt := @numberAt_wordBytes (front ++ wordBytes 4 data.length)
    (wordBytes 4 0 ++ rest) 28 4 0 (by simp [hlen]) (by decide)
  have hoffsetAt := @numberAt_wordBytes (front ++ wordBytes 4 data.length ++ wordBytes 4 0) rest 32 4 0
    (by simp [hlen]) (by decide)
  unfold readLeafHeader
  rw [hlinkAt, decodeBlock_getD hlink, hcontents, hsizeAt]
  rw [List.append_assoc] at hpayloadAt
  rw [List.append_assoc, List.append_assoc] at hoffsetAt
  rw [hpayloadAt, hoffsetAt]

/-- The map of a leaf is behind its header. -/
theorem region_postingLeafPage :
    (postingLeafPage data minTid maxTid nTids rightLink).region (maxAlign postingLeafHeaderBytes)
      data.length = data := by
  obtain ⟨front, hfront⟩ : ∃ front, front = encodeBlock rightLink ++ (wordBytes 4 0 ++
    (wordBytes 8 minTid ++ (wordBytes 8 maxTid ++ (wordBytes 4 data.length ++ (wordBytes 4 0 ++
      (wordBytes 4 0 ++ (wordBytes 2 (min nTids (2 ^ 16 - 1)) ++ wordBytes 2 0))))))) := ⟨_, rfl⟩
  have hlen : front.length = 40 := by simp [hfront]
  have hheader : maxAlign postingLeafHeaderBytes = 40 := rfl
  have hcontents : (postingLeafPage data minTid maxTid nTids rightLink).contents = front ++ data := by
    simp [postingLeafPage, hfront]
  rw [StoredPage.region_eq, hcontents, hheader,
    bytesAt_append_right (show 40 = front.length + 0 by omega)]
  · exact bytesAt_self rfl
  · rw [hcontents, List.length_append]
    omega

/-- The page of a leaf that holds a slice of the TIDs. -/
def SlicePage (lib : SparsemapLibrary) (slice : List ℕ) (rightLink : Option BlockNumber)
    (page : StoredPage) : Prop :=
  ∃ minTid maxTid nTids,
    page = postingLeafPage (lib.encode slice.toFinset) minTid maxTid nTids rightLink

/-- A chain of leaves from a root on, with the slices they hold. -/
def LeafChain (lib : SparsemapLibrary) (st : PageStore) : List (List ℕ) → Option BlockNumber → Prop
  | [], root => root = none
  | slice :: slices, root => ∃ blkno page rightLink, root = some blkno ∧
      st.pages[blkno]? = some page ∧ SlicePage lib slice rightLink page ∧
        LeafChain lib st slices rightLink

/-- A slice that a leaf can hold: it is not empty, its TIDs fit the library, and its map fits the
page. -/
structure GoodSlice (lib : SparsemapLibrary) (slice : List ℕ) : Prop where
  ne_nil : slice ≠ []
  bounded : ∀ tid ∈ slice, tid < 2 ^ 64
  fits : (lib.encode slice.toFinset).length ≤ postingLeafBudget

/-- A slice's page is not blank. -/
theorem SlicePage.not_blank {page : StoredPage} (h : SlicePage lib slice rightLink page) :
    ¬page.Blank := by
  obtain ⟨minTid, maxTid, nTids, rfl⟩ := h
  have hstart : maxAlign sizeOfPageHeaderData = 24 := rfl
  have hheader : maxAlign postingLeafHeaderBytes = 40 := rfl
  have hpage : sizeOfPageHeaderData = 24 := rfl
  unfold StoredPage.Blank
  simp only [postingLeafPage]
  omega

/-- Pages that keep what is on them keep a chain. -/
theorem LeafChain.keeps (h : LeafChain lib st slices root) (hkeeps : st.Keeps st') :
    LeafChain lib st' slices root := by
  induction slices generalizing root with
  | nil => exact h
  | cons slice slices ih =>
    obtain ⟨blkno, page, rightLink, hroot, hget, hpage, hrest⟩ := h
    exact ⟨blkno, page, rightLink, hroot, hkeeps _ _ hget hpage.not_blank, hpage, ih hrest⟩

/-- The blocks of a chain are blocks of the index. -/
theorem LeafChain.root_lt (h : LeafChain lib st slices root)
    (hlimit : st.pages.length ≤ invalidBlockNumber) : ∀ b ∈ root, b < invalidBlockNumber := by
  cases slices with
  | nil =>
    obtain rfl : root = none := h
    simp
  | cons slice slices =>
    obtain ⟨blkno, page, rightLink, rfl, hget, -⟩ := h
    intro b hb
    obtain rfl : blkno = b := by simpa using hb
    exact lt_of_lt_of_le (List.getElem?_eq_some_iff.mp hget).1 hlimit

/-- A leaf is read as it was written. -/
theorem readPostingLeaf_slicePage (hreads : lib.Reads slice.toFinset) (hslice : GoodSlice lib slice)
    (hlink : ∀ b ∈ rightLink, b < invalidBlockNumber) {page : StoredPage} {blkno : BlockNumber}
    (hget : st.pages[blkno]? = some page) (hpage : SlicePage lib slice rightLink page) :
    readPostingLeaf lib st blkno = .ok (slice.toFinset, rightLink) := by
  obtain ⟨minTid, maxTid, nTids, rfl⟩ := hpage
  have hread : st.read blkno .pagePostingL = .ok _ := PageStore.read_eq_ok hget rfl
  have hheader := @readLeafHeader_postingLeafPage (lib.encode slice.toFinset) minTid maxTid nTids
    rightLink hlink hslice.fits
  have hvalid : postingLeafHeaderValid
      ⟨rightLink, (lib.encode slice.toFinset).length, 0, 0⟩ = true := by
    unfold postingLeafHeaderValid
    simp only
    rw [if_neg (Nat.not_lt.mpr hslice.fits), if_neg (by simp)]
  unfold readPostingLeaf
  rw [hread]
  simp only [hheader, hvalid, Bool.true_eq_false, if_false, region_postingLeafPage, hreads.openCopy]

/-- The reader carries the slices of a chain one after the other. -/
theorem LeafChain.mergeLeaves_eq (h : LeafChain lib st slices root)
    (hreads : ∀ slice ∈ slices, lib.Reads slice.toFinset)
    (hslices : ∀ slice ∈ slices, GoodSlice lib slice)
    (hlimit : st.pages.length ≤ invalidBlockNumber) (first : BlockNumber) (slots : List Sm) {fuel : ℕ}
    (hfuel : slices.length ≤ fuel) :
    mergeLeaves lib st first fuel slots root =
      some (carryLeaves first slots (slices.map List.toFinset)) := by
  induction slices generalizing root slots fuel with
  | nil =>
    obtain rfl : root = none := h
    cases fuel with
    | zero => rfl
    | succ fuel => rfl
  | cons slice slices ih =>
    obtain ⟨blkno, page, rightLink, rfl, hget, hpage, hrest⟩ := h
    rw [List.length_cons] at hfuel
    obtain ⟨fuel, rfl⟩ : ∃ k, fuel = k + 1 := ⟨fuel - 1, by omega⟩
    have hread := readPostingLeaf_slicePage (hreads slice List.mem_cons_self)
      (hslices slice List.mem_cons_self) (hrest.root_lt hlimit) hget hpage
    unfold mergeLeaves
    rw [hread]
    simp only [List.map_cons, carryLeaves, List.foldlM_cons]
    cases hcarry : carryLeaf first slots slice.toFinset with
    | error stop => rfl
    | ok slots' =>
      exact ih hrest (fun s hs => hreads s (List.mem_cons_of_mem _ hs))
        (fun s hs => hslices s (List.mem_cons_of_mem _ hs)) slots' (by omega)

/-- Maps of which none is empty are no pair of empty ones. -/
theorem not_emptyPair {leaves : List (Finset ℕ)} (h : ∀ leaf ∈ leaves, leaf ≠ ∅) :
    ¬EmptyPair leaves := by
  induction leaves using EmptyPair.induct with
  | case1 a b leaves ih =>
    rintro (hpair | hrest)
    · exact h a List.mem_cons_self hpair.1
    · exact ih (fun leaf hleaf => h leaf (List.mem_cons_of_mem _ (List.mem_cons_of_mem _ hleaf))) hrest
  | case2 leaves hshort =>
    intro hpair
    rcases leaves with _ | ⟨a, _ | ⟨b, leaves⟩⟩
    · exact hpair
    · exact hpair
    · exact hshort a b leaves rfl

/-- A chain is read as the set of the TIDs in its slices. -/
theorem LeafChain.materialize (h : LeafChain lib st slices root)
    (hreads : ∀ slice ∈ slices, lib.Reads slice.toFinset)
    (hslices : ∀ slice ∈ slices, GoodSlice lib slice) (hne : slices ≠ [])
    (hlimit : st.pages.length ≤ invalidBlockNumber) (hcount : slices.length < 2 ^ 64) {fuel : ℕ}
    (hfuel : slices.length ≤ fuel) :
    pgTrePostingMaterialize lib st fuel root none 0 = some (.ok (some slices.flatten.toFinset)) := by
  have hleaves : ∀ leaf ∈ slices.map List.toFinset, leaf ≠ ∅ := by
    intro leaf hleaf hempty
    obtain ⟨slice, hslice, rfl⟩ := List.mem_map.mp hleaf
    exact (hslices slice hslice).ne_nil (List.toFinset_eq_empty_iff slice |>.mp hempty)
  obtain ⟨blkno, hroot⟩ : ∃ blkno, root = some blkno := by
    cases slices with
    | nil => exact absurd rfl hne
    | cons slice slices =>
      obtain ⟨blkno, page, rightLink, hroot, -⟩ := h
      exact ⟨blkno, hroot⟩
  obtain ⟨sm, hreturn, hmem⟩ := @mergeReturn_carryLeaves blkno (slices.map List.toFinset)
    (by rw [List.length_map]; exact hcount)
  have hmerge := h.mergeLeaves_eq hreads hslices hlimit blkno emptySlots hfuel
  have hset : smMembers sm = slices.flatten.toFinset := by
    ext tid
    rw [hmem, and_iff_right (not_emptyPair hleaves)]
    simp
  have hsm : sm = some slices.flatten.toFinset := by
    cases sm with
    | some s => exact congrArg some hset
    | none =>
      rw [smMembers_none] at hset
      obtain ⟨slice, slices', rfl⟩ := List.exists_cons_of_ne_nil hne
      have hslice := (hslices slice List.mem_cons_self).ne_nil
      have hempty := (List.toFinset_eq_empty_iff _).mp hset.symm
      rw [List.flatten_cons] at hempty
      exact absurd (List.append_eq_nil_iff.mp hempty).1 hslice
  unfold pgTrePostingMaterialize
  rw [hroot] at hmerge ⊢
  simp only [Nat.zero_testBit, Bool.false_eq_true, if_false]
  rw [hmerge, Option.map_some, hreturn, hsm]

/-! ## Writing the leaves -/

/-- What the writes of a build leave: the pages with content, and the pages that are held. -/
structure LeafWrites (held : List BlockNumber) (st st' : PageStore) : Prop where
  keeps : st.Keeps st'
  held_eq : ∀ b ∈ held, st'.pages[b]? = st.pages[b]?

/-- No write is needed to stay. -/
theorem LeafWrites.refl (held : List BlockNumber) (st : PageStore) : LeafWrites held st st :=
  ⟨PageStore.Keeps.refl st, fun _ _ => rfl⟩

/-- Leaf writes compose. -/
theorem LeafWrites.trans {st'' : PageStore} (h : LeafWrites held st st')
    (h' : LeafWrites held st' st'') : LeafWrites held st st'' :=
  ⟨h.keeps.trans h'.keeps, fun b hb => (h'.held_eq b hb).trans (h.held_eq b hb)⟩

/-- A block that is held is still a block of the index. -/
theorem LeafWrites.held_lt (h : LeafWrites held st st') (hheld : ∀ b ∈ held, b < st.pages.length) :
    ∀ b ∈ held, b < st'.pages.length := by
  intro b hb
  have heq := h.held_eq b hb
  rw [List.getElem?_eq_getElem (hheld b hb)] at heq
  exact (List.getElem?_eq_some_iff.mp heq).1

/-- A map that fits is written on a page of its own. -/
theorem writeSingleLeaf_spec (hheld : ∀ b ∈ held, b < st.pages.length)
    (hfits : data.length ≤ postingLeafBudget) :
    ∃ blkno st', writeSingleLeaf st held trigramHash data minTid maxTid nTids rightLink =
        .ok (blkno, st') ∧ LeafWrites held st st' ∧
      st'.pages[blkno]? = some (postingLeafPage data minTid maxTid nTids rightLink) := by
  cases hextend : st.extend held .pagePostingL with
  | mk blkno st₁ =>
    obtain ⟨hnot, -, hget, hothers, hkeeps⟩ :=
      @PageStore.extend_write_spec st st₁ held _ blkno
        (postingLeafPage data minTid maxTid nTids rightLink) hheld hextend
    refine ⟨blkno, _, ?_, ⟨hkeeps, ?_⟩, hget⟩
    · unfold writeSingleLeaf
      rw [if_neg (Nat.not_lt.mpr hfits), hextend]
    · intro b hb
      apply hothers
      rintro rfl
      exact hnot hb

/-- Every TID fits a leaf of its own. -/
def OneTidFits (lib : SparsemapLibrary) : Prop :=
  ∀ tid < 2 ^ 64, (lib.encode {tid}).length ≤ postingLeafBudget

/-- The slice a leaf is given fits the page. -/
theorem exactSlice_fits (hone : OneTidFits lib) (hbound : ∀ tid ∈ tids, tid < 2 ^ 64)
    (hne : tids ≠ []) {n : ℕ} (hn : 0 < n) :
    (exactSlice lib tids n).2.length ≤ postingLeafBudget := by
  obtain ⟨-, -, hbytes, hfits | hlast⟩ := exactSlice_spec lib tids hn
  · exact hfits
  · obtain ⟨tid, rest, rfl⟩ := List.exists_cons_of_ne_nil hne
    rw [hbytes, hlast, List.take_succ_cons, List.take_zero]
    exact hone tid (hbound tid List.mem_cons_self)

/-- The loop over the leaves ends. It has cut the TIDs into slices that leaves can hold, and their
chain goes from the last slice back to the first, and on to the leaves that were there. -/
theorem writeLeaves_spec (hone : OneTidFits lib) (hbound : ∀ tid ∈ tids, tid < 2 ^ 64)
    (hheld : ∀ b ∈ held, b < st.pages.length) (hchain : LeafChain lib st slices rightLink) :
    ∃ root st' new, writeLeaves lib g held trigramHash st tids rightLink = .ok (root, st') ∧
      LeafWrites held st st' ∧ LeafChain lib st' (new.reverse ++ slices) root ∧
      new.flatten = tids ∧ (∀ slice ∈ new, GoodSlice lib slice) ∧
      ∀ slice rest, new = slice :: rest → slice.length ≤ leafFillCount g tids postingLeafBudget := by
  induction hn : tids.length using Nat.strong_induction_on generalizing st tids rightLink slices with
  | _ n ih =>
    by_cases hne : tids = []
    · refine ⟨rightLink, st, [], ?_, LeafWrites.refl held st, hchain, ?_, ?_, ?_⟩
      · unfold writeLeaves
        rw [if_pos hne]
      · rw [hne, List.flatten_nil]
      · simp
      · simp
    · have hcount := leafFillCount_pos g tids postingLeafBudget
      obtain ⟨hpos, hle, hbytes, -⟩ := exactSlice_spec lib tids hcount
      have hfits := exactSlice_fits hone hbound hne hcount
      obtain ⟨k, hk⟩ : ∃ k, k = (exactSlice lib tids (leafFillCount g tids postingLeafBudget)).1 :=
        ⟨_, rfl⟩
      rw [← hk] at hpos hle hbytes
      have hslice : GoodSlice lib (tids.take k) := by
        constructor
        case ne_nil =>
          intro hnil
          rcases List.take_eq_nil_iff.mp hnil with hzero | hnil
          · omega
          · exact hne hnil
        case bounded => exact fun tid htid => hbound tid (List.mem_of_mem_take htid)
        case fits =>
          rw [← hbytes]
          exact hfits
      obtain ⟨blkno, st₁, hwrite, hwrites, hget⟩ := @writeSingleLeaf_spec st held trigramHash
        (exactSlice lib tids (leafFillCount g tids postingLeafBudget)).2 (tids.headD 0)
        ((tids.take k).getLastD 0) k rightLink hheld hfits
      have hchain₁ : LeafChain lib st₁ (tids.take k :: slices) (some blkno) := by
        refine ⟨blkno, _, rightLink, rfl, hget, ?_, hchain.keeps hwrites.keeps⟩
        rw [hbytes]
        exact ⟨_, _, _, rfl⟩
      have hlength : 0 < tids.length := List.length_pos_of_ne_nil hne
      obtain ⟨root, st', new, hloop, hwrites', hchain', hflatten, hgood, -⟩ :=
        ih (tids.drop k).length (by rw [List.length_drop]; omega)
          (fun tid htid => hbound tid (List.mem_of_mem_drop htid)) (hwrites.held_lt hheld) hchain₁ rfl
      refine ⟨root, st', tids.take k :: new, ?_, hwrites.trans hwrites', ?_, ?_, ?_, ?_⟩
      · unfold writeLeaves
        rw [if_neg hne]
        simp only
        rw [if_neg (Nat.not_lt.mpr hfits), ← hk, hwrite]
        exact hloop
      · rw [List.reverse_cons, List.append_assoc, List.singleton_append]
        exact hchain'
      · rw [List.flatten_cons, hflatten, List.take_append_drop]
      · intro slice hmem
        rcases List.mem_cons.mp hmem with rfl | hmem
        · exact hslice
        · exact hgood slice hmem
      · rintro slice rest heq
        obtain ⟨rfl, -⟩ := List.cons.inj heq
        rw [List.length_take]
        omega

end

/-! ## The builder -/

section

variable {pk : TidPacking} {trigramHash : UInt64} {b b' : PostingBuilder} {tids : List ItemPointer}

/-- A builder that was given some TIDs. -/
structure PostingBuilder.Holds (b : PostingBuilder) (pk : TidPacking) (trigramHash : UInt64)
    (tids : List ItemPointer) : Prop where
  packing : b.packing = pk
  hash : b.trigramHash = trigramHash
  packed : List.Forall₂ (fun tid packed => packTid pk tid = .ok packed) tids b.tids
  alloced : b.tids.length ≤ b.tidsAlloced
  alloced_pos : 0 < b.tidsAlloced
  alloced_le : b.tidsAlloced ≤ intMax

/-- A builder that has begun holds nothing. -/
theorem holds_begin (pk : TidPacking) (trigramHash : UInt64) (expectedBytes : ℕ) :
    (pgTrePostingBuildBeginSized pk trigramHash expectedBytes).Holds pk trigramHash [] := by
  constructor
  case packing => rfl
  case hash => rfl
  case packed => exact List.Forall₂.nil
  case alloced => exact Nat.zero_le _
  case alloced_pos =>
    unfold pgTrePostingBuildBeginSized
    simp only
    omega
  case alloced_le =>
    have hlt := @Int.bmod_lt (expectedBytes / 8 : ℕ) (2 ^ 32) (by decide)
    have hmax : intMax = 2147483647 := rfl
    unfold pgTrePostingBuildBeginSized
    simp only
    omega

/-- An addition appends the packed TID. -/
theorem PostingBuilder.Holds.add {tid : ItemPointer} (h : b.Holds pk trigramHash tids)
    (hadd : pgTrePostingBuildAdd b tid = .ok b') : b'.Holds pk trigramHash (tids ++ [tid]) := by
  have hmax : intMax = 2147483647 := rfl
  have halloced := h.alloced
  have hpos := h.alloced_pos
  have hle := h.alloced_le
  unfold pgTrePostingBuildAdd at hadd
  cases hpacked : packTid b.packing tid with
  | error e =>
    rw [hpacked] at hadd
    cases hadd
  | ok packed =>
    rw [hpacked] at hadd
    simp only [bind, Except.bind, pure, Except.pure] at hadd
    split_ifs at hadd with hfull hgrow
    · obtain rfl := Except.ok.inj hadd
      rw [h.packing] at hpacked
      constructor
      case packing => exact h.packing
      case hash => exact h.hash
      case packed => exact List.rel_append h.packed (List.Forall₂.cons hpacked List.Forall₂.nil)
      case alloced =>
        simp only [List.length_append, List.length_singleton]
        omega
      case alloced_pos =>
        simp only
        omega
      case alloced_le =>
        simp only
        omega
    · obtain rfl := Except.ok.inj hadd
      rw [h.packing] at hpacked
      constructor
      case packing => exact h.packing
      case hash => exact h.hash
      case packed => exact List.rel_append h.packed (List.Forall₂.cons hpacked List.Forall₂.nil)
      case alloced =>
        simp only [List.length_append, List.length_singleton]
        omega
      case alloced_pos => exact hpos
      case alloced_le => exact hle

/-- A builder holds the TIDs it was given. -/
theorem postingBuilderOf_holds {expectedBytes : ℕ}
    (h : postingBuilderOf pk trigramHash expectedBytes tids = .ok b) : b.Holds pk trigramHash tids := by
  -- One TID after the other is appended to those that were added before.
  have hrun : ∀ (tids done : List ItemPointer) (b₀ : PostingBuilder), b₀.Holds pk trigramHash done →
      tids.foldlM pgTrePostingBuildAdd b₀ = .ok b → b.Holds pk trigramHash (done ++ tids) := by
    intro tids
    induction tids with
    | nil =>
      intro done b₀ h₀ hfold
      obtain rfl := Except.ok.inj hfold
      rw [List.append_nil]
      exact h₀
    | cons tid tids ih =>
      intro done b₀ h₀ hfold
      rw [List.foldlM_cons] at hfold
      cases hadd : pgTrePostingBuildAdd b₀ tid with
      | error e =>
        rw [hadd] at hfold
        cases hfold
      | ok b₁ =>
        rw [hadd] at hfold
        have hrest := ih (done ++ [tid]) b₁ (h₀.add hadd) hfold
        rwa [List.append_assoc] at hrest
  exact hrun tids [] _ (holds_begin pk trigramHash expectedBytes) h

/-- Unpacked, the TIDs of a builder are those it was given. -/
theorem PostingBuilder.Holds.map_unpackTid (h : b.Holds pk trigramHash tids) :
    b.tids.map (unpackTid pk) = tids := by
  have hpacked := h.packed
  clear h
  generalize b.tids = packed at hpacked
  induction hpacked with
  | nil => rfl
  | cons hpack _ ih => rw [List.map_cons, unpackTid_packTid hpack, ih]

/-- The TIDs of the builder are packed ones. -/
theorem PostingBuilder.Holds.mem_packed (h : b.Holds pk trigramHash tids) :
    ∀ n ∈ b.tids, Packed pk n := by
  have hpacked := h.packed
  clear h
  generalize b.tids = packed at hpacked
  induction hpacked with
  | nil => simp
  | cons hpack _ ih =>
    intro n hn
    rcases List.mem_cons.mp hn with rfl | hn
    · exact ⟨_, hpack⟩
    · exact ih n hn

/-- The packed TIDs of the builder fit in 64 bits. -/
theorem PostingBuilder.Holds.bounded (h : b.Holds pk trigramHash tids) :
    ∀ n ∈ b.tids, n < 2 ^ 64 := by
  intro n hn
  obtain ⟨tid, htid⟩ := h.mem_packed n hn
  exact packTid_lt_two_pow htid

/-- Ascending TIDs are packed to ascending numbers. -/
theorem PostingBuilder.Holds.ascending (h : b.Holds pk trigramHash tids)
    (htids : tids.Pairwise ItemPointer.Before) : b.tids.Pairwise (· < ·) := by
  rw [← h.map_unpackTid, List.pairwise_map] at htids
  apply htids.imp_of_mem
  intro n m hn hm hbefore
  exact packTid_lt (packTid_unpackTid (h.mem_packed n hn)) (packTid_unpackTid (h.mem_packed m hm))
    hbefore

/-- A builder holds fewer than 2 ^ 64 TIDs. -/
theorem PostingBuilder.Holds.length_lt (h : b.Holds pk trigramHash tids) :
    b.tids.length < 2 ^ 64 := by
  have halloced := h.alloced
  have hle := h.alloced_le
  have hmax : intMax = 2147483647 := rfl
  omega

end

/-! ## The end of a build -/

/-- The four ways of storing a posting. -/
inductive StorageClass where
  | inline
  | coalesced
  | leaf
  | leaves
  deriving DecidableEq

/-- The way a posting is stored. If the probe finds no room for all TIDs, they are cut into slices;
else the size decides. -/
def storageClass (multi withWriter : Bool) (sz : ℕ) : StorageClass :=
  if multi then .leaves
  else if sz ≤ pgTreInlinePostingMax then .inline
  else if withWriter ∧ sz ≤ pgTreCoalesceMax then .coalesced
  else if sz ≤ postingLeafBudget then .leaf
  else .leaves

/-- What a build returns and leaves on the pages. The slices of a chain are the TIDs cut into two
pieces or more. -/
def StoredAs (lib : SparsemapLibrary) (st : PageStore) (tids : List ℕ) (out : BuiltPosting) :
    StorageClass → Prop
  | .inline => out = ⟨none, some (lib.encode tids.toFinset), (lib.encode tids.toFinset).length, none⟩
  | .coalesced => ∃ place, out = ⟨none, none, 0, some place⟩
  | .leaf => ∃ root, out = ⟨root, none, 0, none⟩ ∧ LeafChain lib st [tids] root ∧ GoodSlice lib tids
  | .leaves => ∃ (root : Option BlockNumber) (slices : List (List ℕ)),
      out = ⟨root, none, 0, none⟩ ∧ LeafChain lib st slices.reverse root ∧ 2 ≤ slices.length ∧
        slices.flatten = tids ∧ ∀ slice ∈ slices, GoodSlice lib slice

/-- The coalescing writer, which has no open page when there is none. -/
def writerOf (cw : Option CoalescedWriter) : CoalescedWriter := cw.getD none

section

variable {lib : SparsemapLibrary} {g : GrowingMap} {st st' : PageStore}
  {cw cw' : Option CoalescedWriter} {w : CoalescedWriter} {b : PostingBuilder}
  {out : BuiltPosting} {placed : List PlacedBlob}
  {clog : List CoalescedEntry}

/-- The block that a writer holds is a block of the index. -/
theorem CoalescedInv.held_lt (h : CoalescedInv (writerOf cw) st clog placed) :
    ∀ blkno ∈ heldBlocks cw, blkno < st.pages.length := by
  intro blkno hmem
  match cw, h, hmem with
  | some (some page), h, hmem =>
    obtain rfl : blkno = page.blkno := by simpa [heldBlocks] using hmem
    exact (List.getElem?_eq_some_iff.mp (h.opened page rfl).block).1

/-- A map of a size to be coalesced passes the checks of the writer. -/
theorem coalescedCheck_coalescedBlobOf {trigramHash : UInt64} {bytes : List UInt8}
    (hlower : pgTreInlinePostingMax < bytes.length) (hupper : bytes.length ≤ pgTreCoalesceMax) :
    coalescedCheck (coalescedBlobOf trigramHash bytes) = .ok () := by
  have hmin : pgTreInlinePostingMax = 2048 := rfl
  have hmax : pgTreCoalesceMax = 4056 := rfl
  unfold coalescedCheck coalescedBlobOf
  simp only
  rw [if_neg (by omega), if_neg]
  unfold slotFootprint maxAlign
  simp only [pgTreCoalescedBudget_eq, coalescedSlotBytes_eq, lt_irrefl, if_false]
  omega

/-- What a build does to a writer and its page: nothing, or it adds its map to the writer. -/
def WriterStep (lib : SparsemapLibrary) (b : PostingBuilder) (out : BuiltPosting)
    (cw cw' : Option CoalescedWriter) (st st' : PageStore) : Prop :=
  out.coalesced = none ∧ cw' = cw ∧ LeafWrites (heldBlocks cw) st st' ∨
    ∃ w w' blkno slot, cw = some w ∧ cw' = some w' ∧ out.coalesced = some (blkno, slot) ∧
      slot < 2 ^ 16 ∧ pgTreCoalescedAdd w st
        (coalescedBlobOf b.trigramHash (lib.encode b.tids.toFinset)) = .ok ((blkno, slot), w', st')

/-- The TIDs are cut into more than one slice, if there is no room for them on one page. -/
theorem two_le_of_slices {slices : List (List ℕ)} {tids : List ℕ} (hne : tids ≠ [])
    (hflatten : slices.flatten = tids) (hgood : ∀ slice ∈ slices, GoodSlice lib slice)
    (hfirst : ∀ slice rest, slices = slice :: rest → slice.length ≤
      leafFillCount g tids postingLeafBudget)
    (hlarge : leafFillCount g tids postingLeafBudget < tids.length ∨
      postingLeafBudget < (lib.encode tids.toFinset).length) : 2 ≤ slices.length := by
  match slices, hflatten, hgood, hfirst with
  | [], hflatten, _, _ => exact absurd hflatten.symm hne
  | [slice], hflatten, hgood, hfirst =>
    obtain rfl : slice = tids := by simpa using hflatten
    have hle := hfirst slice [] rfl
    have hfits := (hgood slice List.mem_cons_self).fits
    omega
  | _ :: _ :: _, _, _, _ => simp

/-- A build of a posting ends, and the posting is stored in the way that the probe and the size
say. -/
theorem pgTrePostingBuildFinishEx_spec (hone : OneTidFits lib) (hne : b.tids ≠ [])
    (hbound : ∀ tid ∈ b.tids, tid < 2 ^ 64) (hinv : CoalescedInv (writerOf cw) st clog placed) :
    ∃ out cw' st', pgTrePostingBuildFinishEx lib g cw st b = .ok (out, cw', st') ∧
      StoredAs lib st' b.tids out
        (storageClass (b.multi g) cw.isSome (lib.encode b.tids.toFinset).length) ∧
      WriterStep lib b out cw cw' st st' ∧ st.Keeps st' := by
  have hheld := hinv.held_lt
  obtain ⟨sz, hsz⟩ : ∃ sz, sz = (lib.encode b.tids.toFinset).length := ⟨_, rfl⟩
  -- The loop over the leaves, for TIDs that do not fit a page.
  have hleaves : (b.multi g = true ∨ postingLeafBudget < sz) →
      ∃ root st', writeLeaves lib g (heldBlocks cw) b.trigramHash st b.tids none = .ok (root, st') ∧
        StoredAs lib st' b.tids ⟨root, none, 0, none⟩ .leaves ∧ LeafWrites (heldBlocks cw) st st' := by
    intro hlarge
    obtain ⟨root, st', slices, hwrite, hwrites, hchain, hflatten, hgood, hfirst⟩ :=
      @writeLeaves_spec lib g st (heldBlocks cw) b.trigramHash none b.tids [] hone hbound hheld rfl
    rw [List.append_nil] at hchain
    refine ⟨root, st', hwrite, ⟨root, slices, rfl, hchain, ?_, hflatten, hgood⟩, hwrites⟩
    apply two_le_of_slices hne hflatten hgood hfirst
    rw [← hsz]
    apply hlarge.imp_left
    intro hmulti
    simpa [PostingBuilder.multi, hne] using hmulti
  unfold pgTrePostingBuildFinishEx
  simp only [← hsz]
  cases hmulti : b.multi g with
  | true =>
    obtain ⟨root, st', hwrite, hstored, hwrites⟩ := hleaves (Or.inl hmulti)
    refine ⟨_, _, _, ?_, hstored, Or.inl ⟨rfl, rfl, hwrites⟩, hwrites.keeps⟩
    cases cw with
    | none => simp [hwrite, bind, Except.bind, pure, Except.pure]
    | some w => simp [hwrite, bind, Except.bind, pure, Except.pure]
  | false =>
    have hclass : storageClass false cw.isSome sz = if sz ≤ pgTreInlinePostingMax then .inline
        else if cw.isSome = true ∧ sz ≤ pgTreCoalesceMax then .coalesced
        else if sz ≤ postingLeafBudget then .leaf else .leaves := rfl
    rw [hclass]
    by_cases hinline : sz ≤ pgTreInlinePostingMax
    · rw [if_pos hinline]
      refine ⟨_, _, _, ?_, rfl, Or.inl ⟨rfl, rfl, LeafWrites.refl _ st⟩, PageStore.Keeps.refl st⟩
      simp [hinline, ← hsz, pure, Except.pure]
    · rw [if_neg hinline]
      have hlower : pgTreInlinePostingMax < sz := Nat.not_le.mp hinline
      by_cases hcoalesced : cw.isSome = true ∧ sz ≤ pgTreCoalesceMax
      · rw [if_pos hcoalesced]
        obtain ⟨w, rfl⟩ := Option.isSome_iff_exists.mp hcoalesced.1
        have hinv : CoalescedInv w st clog placed := hinv
        obtain ⟨blob, hblob⟩ : ∃ blob, blob = coalescedBlobOf b.trigramHash
          (lib.encode b.tids.toFinset) := ⟨_, rfl⟩
        have hcheck : coalescedCheck blob = .ok () := by
          rw [hblob]
          apply coalescedCheck_coalescedBlobOf
          · rw [← hsz]
            exact hlower
          · rw [← hsz]
            exact hcoalesced.2
        cases hpage : coalescedPageFor w st blob with
        | mk page st' =>
          have hadd := @pgTreCoalescedAdd_of_check w st blob hcheck
          rw [hpage] at hadd
          obtain ⟨placed', -, hroom⟩ := coalescedPageFor_inv hinv hcheck hpage
          have hslots := (not_or.mp (not_or.mp hroom).2).2
          have hmax : coalescedMaxSlots = 509 := rfl
          refine ⟨⟨none, none, 0, some (page.blkno, page.nSlots)⟩, some (some (page.put blob)), st', ?_,
            ⟨_, rfl⟩, Or.inr ⟨w, _, _, _, rfl, rfl, rfl, by omega, ?_⟩,
            coalescedPageFor_keeps hinv hpage⟩
          · simp only [← hblob]
            simp [hinline, hlower, hcoalesced.2, hadd, bind, Except.bind, pure, Except.pure]
          · rw [← hblob]
            exact hadd
      · rw [if_neg hcoalesced]
        by_cases hfits : sz ≤ postingLeafBudget
        · rw [if_pos hfits]
          rw [hsz] at hfits
          obtain ⟨blkno, st', hwrite, hwrites, hget⟩ := @writeSingleLeaf_spec st (heldBlocks cw)
            b.trigramHash (lib.encode b.tids.toFinset) b.minTid b.maxTid b.tids.length none hheld hfits
          have hslice : GoodSlice lib b.tids := ⟨hne, hbound, hfits⟩
          have hchain : LeafChain lib st' [b.tids] (some blkno) :=
            ⟨blkno, _, none, rfl, hget, ⟨_, _, _, rfl⟩, rfl⟩
          refine ⟨_, _, _, ?_, ⟨some blkno, rfl, hchain, hslice⟩, Or.inl ⟨rfl, rfl, hwrites⟩,
            hwrites.keeps⟩
          rw [← hsz] at hfits
          cases cw with
          | none => simp [hinline, hfits, hwrite, bind, Except.bind, pure, Except.pure]
          | some w =>
            have hlarge : ¬sz ≤ pgTreCoalesceMax := by simpa using hcoalesced
            simp [hinline, hlarge, hfits, hwrite, bind, Except.bind, pure, Except.pure]
        · rw [if_neg hfits]
          obtain ⟨root, st', hwrite, hstored, hwrites⟩ := hleaves (Or.inr (Nat.not_le.mp hfits))
          refine ⟨_, _, _, ?_, hstored, Or.inl ⟨rfl, rfl, hwrites⟩, hwrites.keeps⟩
          cases cw with
          | none => simp [hinline, hfits, hwrite, bind, Except.bind, pure, Except.pure]
          | some w =>
            have hlarge : ¬sz ≤ pgTreCoalesceMax := by simpa using hcoalesced
            simp [hinline, hlarge, hfits, hwrite, bind, Except.bind, pure, Except.pure]

end

end PgTre
