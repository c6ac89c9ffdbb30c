import PgTre.Pages.UpperPage

/-!
# Bulk load of the upper tree

`pg_tre_upper_bulkload` of `src/pages/upper.c` cuts the sorted entries into leaves, by their number and
by their bytes, and builds the internal levels from the bottom up. Every level is split evenly over
its pages, until one page is left.
-/

namespace PgTre

open Layout Sparsemap Bytes Routing

/-! ## The loader -/

/-- `UpperBulkState`: the pages, the entries of the leaf that is built with their blobs, and the first
keys and blocks of the leaves that are done. -/
structure UpperBulkState where
  store : PageStore
  leafEntries : List UpperLeafEntry
  leafInlineData : List UInt8
  leaves : List (ℕ × BlockNumber)

/-- `upper_flush_leaf`. -/
def upperFlushLeaf (state : UpperBulkState) : UpperBulkState :=
  match state.leafEntries with
  | [] => state
  | first :: _ =>
      let extended := state.store.extend [] .pageUpperL
      let store := extended.2.write extended.1 (upperLeafPage state.leafEntries state.leafInlineData)
      ⟨store, [], [], state.leaves ++ [(first.trigramHash.toNat, extended.1)]⟩

/-- The test of `upper_add_leaf_entry` for a leaf without room. -/
def UpperBulkState.Full (state : UpperBulkState) (e : UpperLeafEntry) : Prop :=
  let totalUsed := (state.leafEntries.length + 1) * 16 + state.leafInlineData.length + e.blobLength
  upperMaxEntries ≤ state.leafEntries.length ∨ upperPageBudget < totalUsed

instance (state : UpperBulkState) (e : UpperLeafEntry) : Decidable (state.Full e) :=
  inferInstanceAs (Decidable (_ ∨ _))

/-- `upper_add_leaf_entry`. -/
def upperAddLeafEntry (state : UpperBulkState) (item : UpperItem) : UpperBulkState :=
  let state := if state.Full item.entry then upperFlushLeaf state else state
  { state with
    leafEntries := state.leafEntries ++ [item.entry]
    leafInlineData := state.leafInlineData ++ item.inlineData }

/-- The pages of one internal level: the children are distributed as evenly as possible. -/
def upperBuildPages (children : List (ℕ × BlockNumber)) (nPages : ℕ) :
    List ℕ → PageStore → List (ℕ × BlockNumber) × PageStore
  | [], st => ([], st)
  | pageIdx :: rest, st =>
      let start := pageIdx * children.length / nPages
      let stop := (pageIdx + 1) * children.length / nPages
      let entries := (children.drop start).take (stop - start)
      let extended := st.extend [] .pageUpper
      let st := extended.2.write extended.1 (upperInternalPage entries)
      let next := upperBuildPages children nPages rest st
      ((firstKey Prod.fst 0 entries, extended.1) :: next.1, next.2)

/-- A level has as many entries as pages. -/
theorem length_upperBuildPages (children : List (ℕ × BlockNumber)) (nPages : ℕ) (idxs : List ℕ)
    (st : PageStore) : (upperBuildPages children nPages idxs st).1.length = idxs.length := by
  induction idxs generalizing st with
  | nil => rfl
  | cons idx idxs ih => simp [upperBuildPages, ih]

/-- `n_pages`. -/
def upperPageCount (n : ℕ) : ℕ := (n + upperMaxEntries - 1) / upperMaxEntries

/-- `upper_build_internal_level`. -/
def upperBuildInternalLevel (st : PageStore) (children : List (ℕ × BlockNumber)) :
    BlockNumber × PageStore :=
  match children with
  | [] => (invalidBlockNumber, st)
  | [(_, blk)] => (blk, st)
  | first :: second :: rest =>
      let children := first :: second :: rest
      let nPages := upperPageCount children.length
      let level := upperBuildPages children nPages (List.range nPages) st
      upperBuildInternalLevel level.2 level.1
  termination_by children.length
  decreasing_by
    rw [length_upperBuildPages, List.length_range]
    unfold upperPageCount
    rw [upperMaxEntries_eq, List.length_cons, List.length_cons]
    omega

/-- With two children or more an internal level is built. -/
theorem upperBuildInternalLevel_of_two {st : PageStore} {children : List (ℕ × BlockNumber)}
    (h : 2 ≤ children.length) :
    upperBuildInternalLevel st children =
      let nPages := upperPageCount children.length
      let level := upperBuildPages children nPages (List.range nPages) st
      upperBuildInternalLevel level.2 level.1 := by
  match children with
  | [] => simp at h
  | [c] => simp at h
  | first :: second :: rest => rw [upperBuildInternalLevel]

/-- `pg_tre_upper_bulkload`. -/
def pgTreUpperBulkload (st : PageStore) (items : List UpperItem) : BlockNumber × PageStore :=
  let state := upperFlushLeaf (items.foldl upperAddLeafEntry ⟨st, [], [], []⟩)
  if state.leaves = [] then (invalidBlockNumber, state.store)
  else upperBuildInternalLevel state.store state.leaves

/-! ## Trees -/

/-- The hash of an entry, as the tree compares it. -/
def UpperItem.key (item : UpperItem) : ℕ := item.entry.trigramHash.toNat

/-- A child with its entries, as its parent has it. -/
def childEntry (c : BlockNumber × List UpperItem) : ℕ × BlockNumber :=
  (firstKey UpperItem.key 0 c.2, c.1)

/-- The bytes of a leaf. -/
def leafBytes (items : List UpperItem) : ℕ :=
  items.length * 16 + (items.flatMap UpperItem.inlineData).length

/-- A tree of some depth on the pages, with its entries. -/
def UpperPages (st : PageStore) : ℕ → BlockNumber → List UpperItem → Prop
  | 0, b, items => items ≠ [] ∧ items.length ≤ upperMaxEntries ∧ st.pages[b]? = some (leafPageOf items)
  | depth + 1, b, items => ∃ children : List (BlockNumber × List UpperItem), children ≠ [] ∧
      st.pages[b]? = some (upperInternalPage (children.map childEntry)) ∧
      items = children.flatMap Prod.snd ∧ ∀ c ∈ children, UpperPages st depth c.1 c.2

/-- A page of the tree is within its bounds: it does not reach the margin before the trailer. -/
def StoredPage.InBounds (page : StoredPage) : Prop :=
  page.contents.length ≤ upperPageBudget ∧ page.pdLower = pdLowerOf page.contents ∧
    page.flags < 2 ^ 16

/-- What the loader does to the pages: blank pages become pages of the tree within their bounds. -/
structure UpperWrites (st st' : PageStore) : Prop where
  keeps : st.Keeps st'
  bounds : ∀ (b : BlockNumber) (page : StoredPage), st'.pages[b]? = some page →
    st.pages[b]? = some page ∨ page.InBounds

section

variable {st st' st'' : PageStore} {depth : ℕ} {b : BlockNumber} {items : List UpperItem}

/-- No write is needed to stay. -/
theorem UpperWrites.refl (st : PageStore) : UpperWrites st st :=
  ⟨PageStore.Keeps.refl st, fun _ _ h => Or.inl h⟩

/-- Upper writes compose. -/
theorem UpperWrites.trans (h : UpperWrites st st') (h' : UpperWrites st' st'') :
    UpperWrites st st'' := by
  refine ⟨h.keeps.trans h'.keeps, ?_⟩
  intro b page hget
  rcases h'.bounds b page hget with hget | hin
  · exact h.bounds b page hget
  · exact Or.inr hin

/-- A new page that is written within its bounds. -/
theorem UpperWrites.of_extend_write {kind : PageTreKind} {page : StoredPage} (hpage : page.InBounds) :
    UpperWrites st ((st.extend [] kind).2.write (st.extend [] kind).1 page) ∧
      ((st.extend [] kind).2.write (st.extend [] kind).1 page).pages[(st.extend [] kind).1]? =
        some page := by
  cases hextend : st.extend [] kind with
  | mk blkno st₁ =>
  obtain ⟨-, -, hself, hothers, hkeeps⟩ := @PageStore.extend_write_spec st st₁ [] kind blkno page
    (by simp) hextend
  refine ⟨⟨hkeeps, ?_⟩, hself⟩
  intro b page' hget
  by_cases hb : b = blkno
  · right
    rw [hb, hself] at hget
    rw [← Option.some.inj hget]
    exact hpage
  · left
    rw [← hothers b hb]
    exact hget

/-- A leaf page with entries is not blank. -/
theorem leafPageOf_not_blank (hne : items ≠ []) : ¬(leafPageOf items).Blank := by
  have hpos : 0 < items.length := List.length_pos_of_ne_nil hne
  have harray := length_flatMap_records length_encodeUpperEntry (items.map UpperItem.entry)
  rw [List.length_map] at harray
  unfold StoredPage.Blank leafPageOf upperLeafPage pdLowerOf
  simp only [List.length_append, harray, maxAlign_pageHeader]
  have hheader : sizeOfPageHeaderData = 24 := rfl
  omega

/-- An internal page with children is not blank. -/
theorem upperInternalPage_not_blank {children : List (ℕ × BlockNumber)} (hne : children ≠ []) :
    ¬(upperInternalPage children).Blank := by
  have hpos : 0 < children.length := List.length_pos_of_ne_nil hne
  have harray := length_flatMap_records length_encodeInternalEntry children
  unfold StoredPage.Blank upperInternalPage pdLowerOf
  simp only [harray, maxAlign_pageHeader]
  have hheader : sizeOfPageHeaderData = 24 := rfl
  omega

/-- A tree stays as it is when the pages that are in use do. -/
theorem UpperPages.keeps (h : UpperPages st depth b items) (hkeeps : st.Keeps st') :
    UpperPages st' depth b items := by
  induction depth generalizing b items with
  | zero =>
    obtain ⟨hne, hlength, hget⟩ := h
    exact ⟨hne, hlength, hkeeps b _ hget (leafPageOf_not_blank hne)⟩
  | succ depth ih =>
    obtain ⟨children, hne, hget, heq, hchildren⟩ := h
    refine ⟨children, hne, hkeeps b _ hget ?_, heq, fun c hc => ih (hchildren c hc)⟩
    apply upperInternalPage_not_blank
    simpa using hne

/-- A tree of pages has an entry. -/
theorem UpperPages.ne_nil (h : UpperPages st depth b items) : items ≠ [] := by
  induction depth generalizing b items with
  | zero => exact h.1
  | succ depth ih =>
    obtain ⟨children, hne, -, rfl, hchildren⟩ := h
    obtain ⟨c, hc⟩ := List.exists_mem_of_ne_nil _ hne
    obtain ⟨item, hitem⟩ := List.exists_mem_of_ne_nil _ (ih (hchildren c hc))
    exact List.ne_nil_of_mem (List.mem_flatMap.mpr ⟨c, hc, hitem⟩)

/-- The root of a tree is a block of the index. -/
theorem UpperPages.lt_length (h : UpperPages st depth b items) : b < st.pages.length := by
  cases depth with
  | zero => exact (List.getElem?_eq_some_iff.mp h.2.2).1
  | succ depth =>
    obtain ⟨children, -, hget, -⟩ := h
    exact (List.getElem?_eq_some_iff.mp hget).1

/-- Any page can be read when no kind is asked for. -/
theorem PageStore.read_any {page : StoredPage} (h : st.pages[b]? = some page) :
    st.read b .pageInvalid = .ok page := by
  unfold PageStore.read
  rw [h]
  simp

/-- The fields of the children fit their entries. -/
theorem childEntry_lt {children : List (BlockNumber × List UpperItem)}
    (hlimit : st.pages.length ≤ invalidBlockNumber)
    (hchildren : ∀ c ∈ children, UpperPages st depth c.1 c.2) :
    ∀ e ∈ children.map childEntry, e.1 < 2 ^ 64 ∧ e.2 < 2 ^ 32 := by
  intro e he
  obtain ⟨c, hc, rfl⟩ := List.mem_map.mp he
  have hblk := lt_of_lt_of_le (hchildren c hc).lt_length hlimit
  refine ⟨?_, lt_trans hblk (by decide)⟩
  unfold childEntry firstKey
  cases c.2 with
  | nil => simp
  | cons item items => exact item.entry.trigramHash.toNat_lt

/-! ## Readers of a tree -/

/-- The lookup in a list, where the keys are compared as numbers. -/
theorem find?_key (items : List UpperItem) (hash : UInt64) :
    (items.find? fun item => decide (item.entry.trigramHash = hash)) =
      items.find? fun item => decide (item.key = hash.toNat) := by
  congr 1
  funext item
  rw [UpperItem.key, decide_eq_decide]
  exact UInt64.toNat_inj.symm

/-- The descent goes to the child that has the entry. -/
theorem UpperPages.lookup (hlimit : st.pages.length ≤ invalidBlockNumber)
    (h : UpperPages st depth b items) (hsorted : items.Pairwise fun a b => a.key < b.key)
    (hash : UInt64) {fuel : ℕ} (hfuel : depth < fuel) :
    upperDescend st hash fuel b = some (itemsLookup st items hash) := by
  induction depth generalizing b items fuel with
  | zero =>
    obtain ⟨hne, hlength, hget⟩ := h
    obtain ⟨fuel, rfl⟩ := Nat.exists_eq_add_of_lt hfuel
    rw [upperMaxEntries_eq] at hlength
    have hkind : (leafPageOf items).kind = .pageUpperL := rfl
    unfold upperDescend
    rw [PageStore.read_any hget]
    simp only [hkind, if_true]
    rw [upperLeafLookup_leafPageOf hne (by omega)]
  | succ depth ih =>
    obtain ⟨children, hne, hget, rfl, hchildren⟩ := h
    cases fuel with
    | zero => omega
    | succ fuel =>
      have hkind : (upperInternalPage (children.map childEntry)).kind = .pageUpper := rfl
      unfold upperDescend
      rw [PageStore.read_any hget]
      simp only [hkind, reduceCtorEq, if_false, ne_eq, not_true_eq_false]
      rw [readInternalEntries_upperInternalPage (childEntry_lt hlimit hchildren)]
      have hparts : ∀ c ∈ children, c.2 ≠ [] := fun c hc => (hchildren c hc).ne_nil
      rcases @route_cases _ _ _ _ UpperItem.key 0 hash.toNat children hparts hsorted
        invalidBlockNumber with ⟨hroute, hno⟩ | ⟨c, hc, hroute, -, hall⟩
      · -- All first keys are above the hash.
        have hnone : (children.flatMap Prod.snd).find?
            (fun item => decide (item.entry.trigramHash = hash)) = none := by
          rw [find?_key, List.find?_eq_none]
          intro item hitem hkey
          exact hno item hitem (by simpa using hkey)
        have hmap : children.map childEntry =
            children.map fun c => (firstKey UpperItem.key 0 c.2, c.1) := rfl
        rw [hmap, hroute, if_pos rfl, itemsLookup, hnone]
      · have hblk := lt_of_lt_of_le (hchildren c hc).lt_length hlimit
        have hmap : children.map childEntry =
            children.map fun c => (firstKey UpperItem.key 0 c.2, c.1) := rfl
        have hpart : c.2.Pairwise fun a b => a.key < b.key :=
          (List.pairwise_flatMap.mp hsorted).1 c hc
        have hin : ∀ item ∈ c.2, item ∈ children.flatMap Prod.snd := by
          intro item hitem
          exact List.mem_flatMap.mpr ⟨c, hc, hitem⟩
        rw [hmap, hroute, if_neg (ne_of_lt hblk), ih (hchildren c hc) hpart (by omega)]
        unfold itemsLookup
        rw [find?_key, find?_key, find?_eq_of_part hsorted hin hall]

/-- Reads that all return give the results one after the other. -/
theorem inTurn_map {α β : Type} {f : α → Option (Except PgError (List β))} {g : α → List β}
    {xs : List α} (h : ∀ x ∈ xs, f x = some (.ok (g x))) :
    inTurn (xs.map f) = some (.ok (xs.flatMap g)) := by
  induction xs with
  | nil => rfl
  | cons x xs ih =>
    rw [List.map_cons, h x List.mem_cons_self]
    unfold inTurn
    rw [ih fun y hy => h y (List.mem_cons_of_mem x hy)]
    rfl

/-- The walk visits the leaves from left to right. -/
theorem UpperPages.snapshot (hlimit : st.pages.length ≤ invalidBlockNumber)
    (h : UpperPages st depth b items) {fuel : ℕ} (hfuel : depth < fuel) :
    snapshotUpperSubtree st fuel b = some (.ok (items.map UpperItem.stored)) := by
  induction depth generalizing b items fuel with
  | zero =>
    obtain ⟨hne, hlength, hget⟩ := h
    obtain ⟨fuel, rfl⟩ := Nat.exists_eq_add_of_lt hfuel
    rw [upperMaxEntries_eq] at hlength
    have hkind : (leafPageOf items).kind = .pageUpperL := rfl
    unfold snapshotUpperSubtree
    rw [PageStore.read_any hget]
    simp only [hkind, if_true]
    rw [snapshotUpperLeaf_leafPageOf hne (by omega)]
  | succ depth ih =>
    obtain ⟨children, hne, hget, rfl, hchildren⟩ := h
    cases fuel with
    | zero => omega
    | succ fuel =>
      have hkind : (upperInternalPage (children.map childEntry)).kind = .pageUpper := rfl
      unfold snapshotUpperSubtree
      rw [PageStore.read_any hget]
      simp only [hkind, reduceCtorEq, if_false, ne_eq, not_true_eq_false]
      rw [readInternalEntries_upperInternalPage (childEntry_lt hlimit hchildren), List.map_map]
      have hturn : ∀ c ∈ children, ((fun e => snapshotUpperSubtree st fuel e.2) ∘ childEntry) c =
          some (.ok (c.2.map UpperItem.stored)) := by
        intro c hc
        exact ih (hchildren c hc) (by omega)
      rw [inTurn_map hturn, List.map_flatMap]

/-! ## Leaves -/

/-- No entry has more than an inline posting in its leaf. -/
theorem UpperItem.length_inlineData_le (item : UpperItem) : item.inlineData.length ≤ 2048 := by
  rw [item.length_inlineData]
  unfold UpperLeafEntry.blobLength UpperLeafEntry.coalesced
  rcases item.inlineBytes with h | ⟨slot, hslot, heq⟩
  · unfold pgTreInlinePostingMax at h
    split_ifs
    · omega
    · exact h
  · have hbit : (pgTreCoalescedFlag + slot).testBit 31 = true := by
      unfold pgTreCoalescedFlag
      rw [Nat.testBit_two_pow_add_eq, Nat.testBit_lt_two_pow (by omega)]
      rfl
    rw [heq, hbit]
    simp

/-- While the leaves are built: the leaves that are done, and the entries of the one that is open. -/
structure LoadInv (st : PageStore) (state : UpperBulkState)
    (done : List (BlockNumber × List UpperItem)) (cur processed : List UpperItem) : Prop where
  leafEntries : state.leafEntries = cur.map UpperItem.entry
  leafInlineData : state.leafInlineData = cur.flatMap UpperItem.inlineData
  length : cur.length ≤ upperMaxEntries
  bytes : leafBytes cur ≤ upperPageBudget
  leaves : state.leaves = done.map childEntry
  leafPages : ∀ c ∈ done, UpperPages state.store 0 c.1 c.2
  processed : done.flatMap Prod.snd ++ cur = processed
  writes : UpperWrites st state.store

/-- A leaf page within its budget keeps its entries in bounds. -/
theorem leafPageOf_inBounds (hbytes : leafBytes items ≤ upperPageBudget) :
    (leafPageOf items).InBounds := by
  have harray := length_flatMap_records length_encodeUpperEntry (items.map UpperItem.entry)
  rw [List.length_map] at harray
  unfold leafBytes at hbytes
  refine ⟨?_, rfl, ?_⟩
  · unfold leafPageOf upperLeafPage
    simp only [List.length_append, harray]
    omega
  · unfold leafPageOf upperLeafPage
    simp only
    omega

variable {state : UpperBulkState} {done : List (BlockNumber × List UpperItem)}
  {cur processed : List UpperItem}

/-- A flush finishes the leaf that is open. -/
theorem LoadInv.flush (h : LoadInv st state done cur processed) :
    ∃ done', LoadInv st (upperFlushLeaf state) done' [] processed := by
  cases cur with
  | nil =>
    have hstate : upperFlushLeaf state = state := by
      unfold upperFlushLeaf
      rw [h.leafEntries]
      rfl
    rw [hstate]
    exact ⟨done, h⟩
  | cons item cur =>
    obtain ⟨hwrites, hself⟩ := @UpperWrites.of_extend_write state.store .pageUpperL
      (leafPageOf (item :: cur)) (leafPageOf_inBounds h.bytes)
    obtain ⟨blkno, hblkno⟩ : ∃ n, n = (state.store.extend [] .pageUpperL).1 := ⟨_, rfl⟩
    have hflush : upperFlushLeaf state =
        ⟨(state.store.extend [] .pageUpperL).2.write blkno (leafPageOf (item :: cur)), [], [],
          state.leaves ++ [childEntry (blkno, item :: cur)]⟩ := by
      unfold upperFlushLeaf
      rw [h.leafEntries, h.leafInlineData, hblkno]
      rfl
    rw [← hblkno] at hwrites hself
    rw [hflush]
    refine ⟨done ++ [(blkno, item :: cur)], ?_⟩
    constructor
    case leafEntries => rfl
    case leafInlineData => rfl
    case length => simp
    case bytes => simp [leafBytes]
    case leaves => simp [h.leaves]
    case leafPages =>
      intro c hc
      rcases List.mem_append.mp hc with hc | hc
      · exact (h.leafPages c hc).keeps hwrites.keeps
      · obtain rfl := List.mem_singleton.mp hc
        exact ⟨List.cons_ne_nil item cur, h.length, hself⟩
    case processed => simp [← h.processed]
    case writes => exact h.writes.trans hwrites

/-- An entry is added to the leaf that is open, after a flush when it does not fit. -/
theorem LoadInv.add (h : LoadInv st state done cur processed) (item : UpperItem) :
    ∃ done' cur', LoadInv st (upperAddLeafEntry state item) done' cur' (processed ++ [item]) := by
  have hroom : ∃ state' done' cur', state' = (if state.Full item.entry then upperFlushLeaf state
      else state) ∧ LoadInv st state' done' cur' processed ∧ cur'.length + 1 ≤ upperMaxEntries ∧
      leafBytes (cur' ++ [item]) ≤ upperPageBudget := by
    by_cases hfull : state.Full item.entry
    · obtain ⟨done', hinv⟩ := h.flush
      refine ⟨_, done', [], (if_pos hfull).symm, hinv, by simp, ?_⟩
      have hle := item.length_inlineData_le
      simp only [leafBytes, List.nil_append, List.length_singleton, List.flatMap_singleton,
        upperPageBudget_eq]
      omega
    · refine ⟨_, done, cur, (if_neg hfull).symm, h, ?_, ?_⟩
      · unfold UpperBulkState.Full at hfull
        simp only [h.leafEntries, List.length_map] at hfull
        omega
      · unfold UpperBulkState.Full at hfull
        simp only [h.leafEntries, h.leafInlineData, List.length_map, ← item.length_inlineData,
          upperPageBudget_eq] at hfull
        simp only [leafBytes, List.length_append, List.length_singleton, List.flatMap_append,
          List.flatMap_singleton, upperPageBudget_eq]
        omega
  obtain ⟨state', done', cur', hstate, hinv, hlength, hbytes⟩ := hroom
  refine ⟨done', cur' ++ [item], ?_⟩
  unfold upperAddLeafEntry
  rw [← hstate]
  constructor
  case leafEntries => simp [hinv.leafEntries]
  case leafInlineData => simp [hinv.leafInlineData]
  case length => simpa using hlength
  case bytes => exact hbytes
  case leaves => exact hinv.leaves
  case leafPages => exact hinv.leafPages
  case processed => rw [← List.append_assoc, hinv.processed]
  case writes => exact hinv.writes

/-- The leaves after the last entry. -/
theorem LoadInv.foldl (h : LoadInv st state done cur processed) (items : List UpperItem) :
    ∃ done', LoadInv st (upperFlushLeaf (items.foldl upperAddLeafEntry state)) done' []
      (processed ++ items) := by
  induction items generalizing state done cur processed with
  | nil =>
    rw [List.append_nil]
    exact h.flush
  | cons item items ih =>
    obtain ⟨done', cur', hinv⟩ := h.add item
    have hnext := ih hinv
    rw [List.append_assoc] at hnext
    exact hnext

/-! ## Internal levels -/

/-- The parts between successive bounds make up the list. -/
theorem flatMap_slices {α : Type} (xs : List α) {bound : ℕ → ℕ} (hzero : bound 0 = 0)
    (hmono : ∀ i, bound i ≤ bound (i + 1)) (n : ℕ) :
    (List.range n).flatMap (fun i => (xs.drop (bound i)).take (bound (i + 1) - bound i)) =
      xs.take (bound n) := by
  induction n with
  | zero => simp [hzero]
  | succ n ih =>
    have hle := hmono n
    have hsum : bound (n + 1) = bound n + (bound (n + 1) - bound n) := by omega
    rw [List.range_succ, List.flatMap_append, ih, List.flatMap_singleton]
    conv_rhs => rw [hsum, List.take_add]

/-- Where the part of a page starts. -/
def upperPageStart (n nPages pageIdx : ℕ) : ℕ := pageIdx * n / nPages

/-- A level needs fewer pages than it has children, and they have room for all. -/
theorem upperPageCount_spec {n : ℕ} (h : 2 ≤ n) :
    0 < upperPageCount n ∧ upperPageCount n < n ∧ n ≤ upperMaxEntries * upperPageCount n := by
  unfold upperPageCount
  rw [upperMaxEntries_eq]
  omega

/-- A page has an entry at least, and no more than it has room for. -/
theorem upperPageStart_succ {n : ℕ} (h : 2 ≤ n) (pageIdx : ℕ) :
    upperPageStart n (upperPageCount n) pageIdx < upperPageStart n (upperPageCount n) (pageIdx + 1) ∧
      upperPageStart n (upperPageCount n) (pageIdx + 1) ≤
        upperPageStart n (upperPageCount n) pageIdx + upperMaxEntries := by
  obtain ⟨hpos, hlt, hle⟩ := upperPageCount_spec h
  unfold upperPageStart
  rw [Nat.succ_mul]
  constructor
  · have hstep : (pageIdx * n + upperPageCount n) / upperPageCount n ≤
        (pageIdx * n + n) / upperPageCount n := Nat.div_le_div_right (by omega)
    rw [Nat.add_div_right _ hpos] at hstep
    omega
  · have hstep : (pageIdx * n + n) / upperPageCount n ≤
        (pageIdx * n + upperMaxEntries * upperPageCount n) / upperPageCount n :=
      Nat.div_le_div_right (by omega)
    rw [Nat.add_mul_div_right _ _ hpos] at hstep
    exact hstep

/-- The children of a page are filed under the first key of the page. -/
theorem childEntry_flatMap {children : List (BlockNumber × List UpperItem)} (hne : children ≠ [])
    (hitems : ∀ c ∈ children, c.2 ≠ []) (blkno : BlockNumber) :
    childEntry (blkno, children.flatMap Prod.snd) =
      (firstKey Prod.fst 0 (children.map childEntry), blkno) := by
  cases children with
  | nil => exact absurd rfl hne
  | cons c children =>
    unfold childEntry firstKey
    have hc := hitems c List.mem_cons_self
    rw [List.flatMap_cons, List.map_cons]
    simp only
    cases hc2 : c.2 with
    | nil => exact absurd hc2 hc
    | cons item items => rfl

/-- An internal page within its count keeps its entries in bounds. -/
theorem upperInternalPage_inBounds {children : List (ℕ × BlockNumber)}
    (h : children.length ≤ upperMaxEntries) : (upperInternalPage children).InBounds := by
  have harray := length_flatMap_records length_encodeInternalEntry children
  rw [upperMaxEntries_eq] at h
  unfold StoredPage.InBounds upperInternalPage
  simp only [harray, upperPageBudget_eq]
  refine ⟨by omega, trivial, by omega⟩

/-- The pages of a level are trees over the parts of the children. -/
theorem upperBuildPages_spec {children : List (BlockNumber × List UpperItem)} {n nPages : ℕ}
    (hn : children.length = n)
    (hslice : ∀ i, upperPageStart n nPages i < upperPageStart n nPages (i + 1) ∧
      upperPageStart n nPages (i + 1) ≤ upperPageStart n nPages i + upperMaxEntries)
    (hchildren : ∀ c ∈ children, UpperPages st depth c.1 c.2) {idxs : List ℕ}
    (hidxs : ∀ i ∈ idxs, upperPageStart n nPages i < n) {next : List (ℕ × BlockNumber)}
    (hbuild : upperBuildPages (children.map childEntry) nPages idxs st = (next, st')) :
    UpperWrites st st' ∧ ∃ parents : List (BlockNumber × List UpperItem),
      next = parents.map childEntry ∧ (∀ p ∈ parents, UpperPages st' (depth + 1) p.1 p.2) ∧
      parents.flatMap Prod.snd = (idxs.flatMap fun i => (children.drop (upperPageStart n nPages i)).take
        (upperPageStart n nPages (i + 1) - upperPageStart n nPages i)).flatMap Prod.snd := by
  induction idxs generalizing st next with
  | nil =>
    obtain ⟨rfl, rfl⟩ := Prod.mk.inj hbuild
    exact ⟨UpperWrites.refl st, [], by simp⟩
  | cons i idxs ih =>
    obtain ⟨part, hpart⟩ : ∃ part, part = (children.drop (upperPageStart n nPages i)).take
      (upperPageStart n nPages (i + 1) - upperPageStart n nPages i) := ⟨_, rfl⟩
    obtain ⟨hlt, hle⟩ := hslice i
    have hi := hidxs i List.mem_cons_self
    have hlength : 0 < part.length ∧ part.length ≤ upperMaxEntries := by
      rw [hpart, List.length_take, List.length_drop]
      omega
    have hsub : ∀ c ∈ part, c ∈ children := by
      intro c hc
      rw [hpart] at hc
      exact List.mem_of_mem_drop (List.mem_of_mem_take hc)
    have hentries : (List.drop (i * (children.map childEntry).length / nPages)
        (children.map childEntry)).take ((i + 1) * (children.map childEntry).length / nPages -
          i * (children.map childEntry).length / nPages) = part.map childEntry := by
      rw [hpart, List.map_take, List.map_drop, List.length_map, hn]
      rfl
    have hbounds : (upperInternalPage (part.map childEntry)).InBounds := by
      apply upperInternalPage_inBounds
      rw [List.length_map]
      exact hlength.2
    obtain ⟨hwrites, hself⟩ := @UpperWrites.of_extend_write st .pageUpper _ hbounds
    obtain ⟨blkno, hblkno⟩ : ∃ b, b = (st.extend [] .pageUpper).1 := ⟨_, rfl⟩
    obtain ⟨st₁, hst₁⟩ : ∃ s, s = (st.extend [] .pageUpper).2.write blkno
      (upperInternalPage (part.map childEntry)) := ⟨_, rfl⟩
    rw [← hblkno, ← hst₁] at hwrites hself
    unfold upperBuildPages at hbuild
    simp only [hentries, ← hblkno, ← hst₁] at hbuild
    cases hrest : upperBuildPages (children.map childEntry) nPages idxs st₁ with
    | mk next₁ st₂ =>
      rw [hrest] at hbuild
      obtain ⟨rfl, rfl⟩ := Prod.mk.inj hbuild
      obtain ⟨hwrites', parents, hnext, hparents, hflat⟩ := ih
        (fun c hc => (hchildren c hc).keeps hwrites.keeps)
        (fun j hj => hidxs j (List.mem_cons_of_mem i hj)) hrest
      have hne : part ≠ [] := List.ne_nil_of_length_pos hlength.1
      have hitems : ∀ c ∈ part, c.2 ≠ [] := fun c hc => (hchildren c (hsub c hc)).ne_nil
      refine ⟨hwrites.trans hwrites', (blkno, part.flatMap Prod.snd) :: parents, ?_, ?_, ?_⟩
      · rw [List.map_cons, childEntry_flatMap hne hitems, hnext]
      · intro p hp
        rcases List.mem_cons.mp hp with rfl | hp
        · have hpage : UpperPages st₁ (depth + 1) blkno (part.flatMap Prod.snd) :=
            ⟨part, hne, hself, rfl, fun c hc => (hchildren c (hsub c hc)).keeps hwrites.keeps⟩
          exact hpage.keeps hwrites'.keeps
        · exact hparents p hp
      · rw [List.flatMap_cons, hflat, List.flatMap_cons, List.flatMap_append, ← hpart]

/-- The internal levels end with one tree over all children. -/
theorem upperBuildInternalLevel_spec {children : List (BlockNumber × List UpperItem)}
    (hne : children ≠ []) (hchildren : ∀ c ∈ children, UpperPages st depth c.1 c.2)
    {root : BlockNumber}
    (hbuild : upperBuildInternalLevel st (children.map childEntry) = (root, st')) :
    UpperWrites st st' ∧ ∃ depth', UpperPages st' depth' root (children.flatMap Prod.snd) := by
  induction hlength : children.length using Nat.strong_induction_on generalizing st depth children with
  | _ n ih =>
    rcases Nat.lt_or_ge children.length 2 with hone | htwo
    · have hpos := List.length_pos_of_ne_nil hne
      obtain ⟨c, rfl⟩ := List.length_eq_one_iff.mp (show children.length = 1 by omega)
      rw [List.map_singleton, upperBuildInternalLevel] at hbuild
      obtain ⟨rfl, rfl⟩ := Prod.mk.inj hbuild
      refine ⟨UpperWrites.refl st, depth, ?_⟩
      rw [List.flatMap_singleton]
      exact hchildren c (List.mem_singleton.mpr rfl)
    · rw [upperBuildInternalLevel_of_two (by simpa using htwo)] at hbuild
      rw [hlength] at htwo
      obtain ⟨hpos, hlt, hle⟩ := upperPageCount_spec htwo
      simp only [List.length_map, hlength] at hbuild
      cases hlevel : upperBuildPages (children.map childEntry) (upperPageCount n)
          (List.range (upperPageCount n)) st with
      | mk next st₁ =>
        rw [hlevel] at hbuild
        have hmono : ∀ i, upperPageStart n (upperPageCount n) i ≤
            upperPageStart n (upperPageCount n) (i + 1) :=
              fun i => le_of_lt (upperPageStart_succ htwo i).1
        have hend : upperPageStart n (upperPageCount n) (upperPageCount n) = n :=
          Nat.mul_div_cancel_left n hpos
        have hidxs : ∀ i ∈ List.range (upperPageCount n),
            upperPageStart n (upperPageCount n) i < n := by
          intro i hi
          have hnext := monotone_nat_of_le_succ hmono (Nat.succ_le_of_lt (List.mem_range.mp hi))
          rw [hend] at hnext
          exact lt_of_lt_of_le (upperPageStart_succ htwo i).1 hnext
        obtain ⟨hwrites, parents, rfl, hparents, hflat⟩ :=
          upperBuildPages_spec hlength (upperPageStart_succ htwo) hchildren hidxs hlevel
        have hstart : upperPageStart n (upperPageCount n) 0 = 0 := by
          unfold upperPageStart
          rw [Nat.zero_mul, Nat.zero_div]
        rw [flatMap_slices children hstart hmono, hend,
          ← hlength, List.take_length] at hflat
        have hcount : parents.length = upperPageCount n := by
          have hlen := length_upperBuildPages (children.map childEntry) (upperPageCount n)
            (List.range (upperPageCount n)) st
          rw [hlevel] at hlen
          simpa using hlen
        have hparentsNe : parents ≠ [] := by
          apply List.ne_nil_of_length_pos
          omega
        obtain ⟨hwrites', depth', hroot⟩ := ih (upperPageCount n) hlt hparentsNe hparents hbuild hcount
        rw [hflat] at hroot
        exact ⟨hwrites.trans hwrites', depth', hroot⟩

/-- What a bulk load leaves: no tree for no entries, or a tree with the entries. -/
theorem pgTreUpperBulkload_spec {root : BlockNumber}
    (hload : pgTreUpperBulkload st items = (root, st')) :
    UpperWrites st st' ∧ ((items = [] ∧ root = invalidBlockNumber) ∨
      ∃ depth, UpperPages st' depth root items) := by
  have hbegin : LoadInv st ⟨st, [], [], []⟩ [] [] [] :=
    ⟨rfl, rfl, by simp, by simp [leafBytes], rfl, by simp, rfl, UpperWrites.refl st⟩
  obtain ⟨done, hinv⟩ := hbegin.foldl items
  have hitems := hinv.processed
  rw [List.append_nil, List.nil_append] at hitems
  unfold pgTreUpperBulkload at hload
  simp only [hinv.leaves, List.map_eq_nil_iff] at hload
  split_ifs at hload with hdone
  · obtain ⟨rfl, rfl⟩ := Prod.mk.inj hload
    rw [hdone] at hitems
    exact ⟨hinv.writes, Or.inl ⟨hitems.symm, rfl⟩⟩
  · obtain ⟨hwrites, depth, hroot⟩ := upperBuildInternalLevel_spec hdone hinv.leafPages hload
    rw [hitems] at hroot
    exact ⟨hinv.writes.trans hwrites, Or.inr ⟨depth, hroot⟩⟩

/-- The tree of a bulk load has exactly the entries of the list: a lookup finds the entry of a hash
with its own bytes, marker or root, and nothing for the other hashes, and the snapshot is the list.
All pages that were written are within their bounds, and the other pages are as they were. -/
theorem upperBulkload_lookup_snapshot (root : BlockNumber)
    (hsorted : items.Pairwise fun a b => a.entry.trigramHash < b.entry.trigramHash)
    (hload : pgTreUpperBulkload st items = (root, st'))
    (hlimit : st'.pages.length ≤ invalidBlockNumber) :
    UpperWrites st st' ∧ ∃ depth, ∀ fuel, depth < fuel →
      (∀ item ∈ items, pgTreUpperLookupRoot st' fuel root item.entry.trigramHash =
        some (item.ref st')) ∧
      (∀ hash, (∀ item ∈ items, item.entry.trigramHash ≠ hash) →
        pgTreUpperLookupRoot st' fuel root hash = some (.ok none)) ∧
      snapshotExistingUpper st' fuel root = some (.ok (items.map UpperItem.stored)) := by
  have hkeys : items.Pairwise fun a b => a.key < b.key :=
    hsorted.imp fun h => UInt64.lt_iff_toNat_lt.mp h
  obtain ⟨hwrites, ⟨rfl, rfl⟩ | ⟨depth, hroot⟩⟩ := pgTreUpperBulkload_spec hload
  · refine ⟨hwrites, 0, fun fuel _ => ⟨by simp, ?_, ?_⟩⟩
    · intro hash _
      exact if_pos rfl
    · exact if_pos rfl
  · have hne : root ≠ invalidBlockNumber := ne_of_lt (lt_of_lt_of_le hroot.lt_length hlimit)
    have hlookup : ∀ fuel hash, depth < fuel →
        pgTreUpperLookupRoot st' fuel root hash = some (itemsLookup st' items hash) := by
      intro fuel hash hfuel
      rw [pgTreUpperLookupRoot, if_neg hne]
      exact hroot.lookup hlimit hkeys hash hfuel
    refine ⟨hwrites, depth, fun fuel hfuel => ⟨?_, ?_, ?_⟩⟩
    · intro item hitem
      rw [hlookup fuel _ hfuel]
      have hfind := @find?_eq_some_of_sorted _ _ _ UpperItem.key _ items hkeys item hitem rfl
      unfold itemsLookup
      rw [find?_key, ← UpperItem.key, hfind]
    · intro hash hno
      have hnone : (items.find? fun item => decide (item.entry.trigramHash = hash)) = none := by
        rw [List.find?_eq_none]
        intro item hitem hhash
        exact hno item hitem (by simpa using hhash)
      rw [hlookup fuel _ hfuel]
      unfold itemsLookup
      rw [hnone]
    · rw [snapshotExistingUpper, if_neg hne]
      exact hroot.snapshot hlimit hfuel

end

/-- Two entries, one inline and one out of line. -/
theorem upperBulkload_lookup_snapshot_two : ∃ items : List UpperItem, ∃ root st' depth,
    pgTreUpperBulkload ⟨1, [], []⟩ items = (root, st') ∧ ∀ fuel, depth < fuel →
      pgTreUpperLookupRoot st' fuel root 7 = some (.ok (some ⟨none, some [1, 2, 3]⟩)) ∧
      pgTreUpperLookupRoot st' fuel root 9 = some (.ok (some ⟨some 5, none⟩)) := by
  obtain ⟨items, hitems⟩ : ∃ items : List UpperItem, items =
    [⟨⟨7, none, 3⟩, [1, 2, 3], by simp, rfl, Or.inl (by decide)⟩,
      ⟨⟨9, some 5, 0⟩, [], by simp [invalidBlockNumber], rfl, Or.inl (by decide)⟩] := ⟨_, rfl⟩
  have hload : pgTreUpperBulkload ⟨1, [], []⟩ items = (0, ⟨1, [leafPageOf items], []⟩) := by
    have hstate : upperFlushLeaf (items.foldl upperAddLeafEntry ⟨⟨1, [], []⟩, [], [], []⟩) =
        ⟨⟨1, [leafPageOf items], []⟩, [], [], [(7, 0)]⟩ := by
      rw [hitems]
      rfl
    unfold pgTreUpperBulkload
    rw [hstate]
    simp [upperBuildInternalLevel]
  have hsorted : items.Pairwise fun a b => a.entry.trigramHash < b.entry.trigramHash := by
    rw [hitems]
    simp
  have hlimit : (PageStore.mk 1 [leafPageOf items] []).pages.length ≤ invalidBlockNumber := by
    rw [List.length_singleton]
    decide
  obtain ⟨-, depth, hread⟩ := upperBulkload_lookup_snapshot 0 hsorted hload hlimit
  refine ⟨items, _, _, depth, hload, fun fuel hfuel => ?_⟩
  have hfound := (hread fuel hfuel).1
  rw [hitems] at hfound ⊢
  have h₁ := hfound _ List.mem_cons_self
  have h₂ := hfound _ (List.mem_cons_of_mem _ List.mem_cons_self)
  exact ⟨h₁, h₂⟩

end PgTre
