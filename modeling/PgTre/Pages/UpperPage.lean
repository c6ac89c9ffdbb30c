import PgTre.Pages.BulkDelete
import PgTre.Pages.Coalesced
import PgTre.Util.Routing

/-!
# Pages of the upper tree

An upper leaf of `src/pages/upper.c` is an array of entries with the inline blobs behind it. The blobs
have no offsets: a reader adds up the lengths of the entries before, and a marker of a coalesced
posting is no length. An internal page is an array of first keys with their children.
-/

namespace PgTre

open Layout Sparsemap Bytes

/-- `UPPER_LEAF_MAX_ENTRIES` and `UPPER_INTERNAL_MAX_ENTRIES`: both kinds of entries have 16 bytes. -/
def upperMaxEntries : ℕ := (blcksz - sizeOfPageHeaderData - sizeOfOpaque - 64) / 16

/-- `page_budget` of `upper_add_leaf_entry`. -/
def upperPageBudget : ℕ := blcksz - maxAlign sizeOfPageHeaderData - maxAlign sizeOfOpaque - 64

/-- `PG_TRE_INLINE_POSTING_MAX`. -/
def pgTreInlinePostingMax : ℕ := 2048

/-- `PG_TRE_COALESCED_FLAG`. -/
def pgTreCoalescedFlag : ℕ := 2 ^ 31

/-- An entry of the upper tree, with what is behind the leaf's array for it: the entry is inline, or
out of line when it has no bytes, or it has the slot of a coalesced posting. -/
structure UpperItem where
  entry : UpperLeafEntry
  inlineData : List UInt8
  root_lt : ∀ b ∈ entry.postingRoot, b < invalidBlockNumber
  length_inlineData : inlineData.length = entry.blobLength
  inlineBytes : entry.inlineBytes ≤ pgTreInlinePostingMax ∨
    ∃ slot < 2 ^ 16, entry.inlineBytes = pgTreCoalescedFlag + slot

/-- A block number in its field. -/
def encodeBlock (b : Option BlockNumber) : List UInt8 := wordBytes 4 (b.getD invalidBlockNumber)

/-- The block number in a field. -/
def decodeBlock (n : ℕ) : Option BlockNumber := if n = invalidBlockNumber then none else some n

/-- `PgTreUpperLeafEntry` in its 16 bytes. -/
def encodeUpperEntry (e : UpperLeafEntry) : List UInt8 :=
  wordBytes 8 e.trigramHash.toNat ++ (encodeBlock e.postingRoot ++ wordBytes 4 e.inlineBytes)

/-- `PgTreUpperInternalEntry` in its 16 bytes. -/
def encodeInternalEntry (e : ℕ × BlockNumber) : List UInt8 :=
  wordBytes 8 e.1 ++ (wordBytes 4 e.2 ++ wordBytes 4 0)

/-- `pd_lower` of a page whose content has some bytes. -/
def pdLowerOf (contents : List UInt8) : ℕ := maxAlign sizeOfPageHeaderData + contents.length

/-- What `upper_flush_leaf` writes. -/
def upperLeafPage (entries : List UpperLeafEntry) (inlineData : List UInt8) : StoredPage :=
  let contents := entries.flatMap encodeUpperEntry ++ inlineData
  ⟨.pageUpperL, entries.length % 2 ^ 16, pdLowerOf contents, contents⟩

/-- What `upper_build_internal_level` writes on a page. -/
def upperInternalPage (entries : List (ℕ × BlockNumber)) : StoredPage :=
  let contents := entries.flatMap encodeInternalEntry
  ⟨.pageUpper, 0, pdLowerOf contents, contents⟩

/-! ## Readers -/

/-- The number of entries that `pd_lower` leaves room for. -/
def entriesBelowPdLower (page : StoredPage) : ℕ := (page.pdLower - sizeOfPageHeaderData) / 16

/-- An entry of the array. -/
def readUpperEntry (page : StoredPage) (i : ℕ) : UpperLeafEntry where
  trigramHash := UInt64.ofNat (numberAt page.contents (16 * i) 8)
  postingRoot := decodeBlock (numberAt page.contents (16 * i + 8) 4)
  inlineBytes := numberAt page.contents (16 * i + 12) 4

/-- `n_entries` of a leaf. A leaf of an old format has no count in its flags. -/
def upperEntryCount (page : StoredPage) : ℕ :=
  if page.flags = 0 then entriesBelowPdLower page else page.flags

/-- The array of a leaf. -/
def readUpperEntries (page : StoredPage) : List UpperLeafEntry :=
  (List.range (upperEntryCount page)).map (readUpperEntry page)

/-- The array of an internal page. -/
def readInternalEntries (page : StoredPage) : List (ℕ × BlockNumber) :=
  (List.range (entriesBelowPdLower page)).map fun i =>
    (numberAt page.contents (16 * i) 8, numberAt page.contents (16 * i + 8) 4)

/-- `PgTreUpperRef`: the root, and the bytes of an inline posting. -/
structure UpperRef where
  root : Option BlockNumber
  inlineData : Option (List UInt8)
  deriving DecidableEq

/-- The search in a leaf: the entry with the offset of its blob. -/
def upperLeafFind (hash : UInt64) : ℕ → List UpperLeafEntry → Option (UpperLeafEntry × ℕ)
  | _, [] => none
  | inlineOffset, e :: entries =>
      if e.trigramHash = hash then some (e, inlineOffset)
      else upperLeafFind hash (inlineOffset + e.blobLength) entries

/-- `pg_tre_upper_lookup_root` in a leaf. A coalesced posting is resolved, and its bytes are given as
those of an inline one. -/
def upperLeafLookup (st : PageStore) (page : StoredPage) (hash : UInt64) :
    Except PgError (Option UpperRef) :=
  match upperLeafFind hash 0 (readUpperEntries page) with
  | none => .ok none
  | some (e, inlineOffset) =>
      if e.coalesced then do
        let cblk := e.postingRoot.getD invalidBlockNumber
        let blob ← pgTreCoalescedResolveSlot st cblk (e.inlineBytes % 2 ^ 16) hash
        return some ⟨none, blob⟩
      else if 0 < e.inlineBytes then
        .ok (some ⟨e.postingRoot,
          some (page.region (16 * upperEntryCount page + inlineOffset) e.inlineBytes)⟩)
      else .ok (some ⟨e.postingRoot, none⟩)

/-- The number of a kind that is refused in the tree. -/
def unexpectedKind (page : StoredPage) (doing : String) : PgError :=
  let kind := page.kind.number
  ⟨s!"pg_tre: unexpected page kind {kind} during upper-tree {doing}"⟩

/-- The loop of `pg_tre_upper_lookup_root`, or nothing when the fuel runs out. -/
def upperDescend (st : PageStore) (hash : UInt64) :
    ℕ → BlockNumber → Option (Except PgError (Option UpperRef))
  | 0, _ => none
  | fuel + 1, blk =>
      match st.read blk .pageInvalid with
      | .error e => some (.error e)
      | .ok page =>
          if page.kind = .pageUpperL then some (upperLeafLookup st page hash)
          else if page.kind ≠ .pageUpper then some (.error (unexpectedKind page "descent"))
          else
            let childBlk := Routing.route hash.toNat invalidBlockNumber (readInternalEntries page)
            if childBlk = invalidBlockNumber then some (.ok none) else upperDescend st hash
              fuel childBlk

/-- `pg_tre_upper_lookup_root`. -/
def pgTreUpperLookupRoot (st : PageStore) (fuel : ℕ) (rootUpper : BlockNumber) (hash : UInt64) :
    Option (Except PgError (Option UpperRef)) :=
  if rootUpper = invalidBlockNumber then some (.ok none) else upperDescend st hash fuel rootUpper

/-- The loop of `snapshot_upper_leaf`: the entries, with the copies of their blobs. -/
def snapshotEntries (page : StoredPage) (blobBase : ℕ) :
    ℕ → List UpperLeafEntry → List (UpperLeafEntry × Option (List UInt8))
  | _, [] => []
  | inlineOffset, e :: entries =>
      if e.coalesced then (e, none) :: snapshotEntries page blobBase inlineOffset entries
      else if 0 < e.inlineBytes then
        (e, some (page.region (blobBase + inlineOffset) e.inlineBytes)) ::
          snapshotEntries page blobBase (inlineOffset + e.inlineBytes) entries
      else (e, none) :: snapshotEntries page blobBase inlineOffset entries

/-- `snapshot_upper_leaf`. -/
def snapshotUpperLeaf (page : StoredPage) : List (UpperLeafEntry × Option (List UInt8)) :=
  snapshotEntries page (16 * upperEntryCount page) 0 (readUpperEntries page)

/-- One computation after the other, as long as there is fuel and no error. -/
def inTurn {α : Type} : List (Option (Except PgError (List α))) → Option (Except PgError (List α))
  | [] => some (.ok [])
  | none :: _ => none
  | some (.error e) :: _ => some (.error e)
  | some (.ok xs) :: rest => (inTurn rest).map fun r => r.map fun ys => xs ++ ys

/-- `snapshot_upper_subtree`, or nothing when the fuel runs out. -/
def snapshotUpperSubtree (st : PageStore) :
    ℕ → BlockNumber → Option (Except PgError (List (UpperLeafEntry × Option (List UInt8))))
  | 0, _ => none
  | fuel + 1, blk =>
      match st.read blk .pageInvalid with
      | .error e => some (.error e)
      | .ok page =>
          if page.kind = .pageUpperL then some (.ok (snapshotUpperLeaf page))
          else if page.kind ≠ .pageUpper then some (.error (unexpectedKind page "merge walk"))
          else inTurn ((readInternalEntries page).map fun e => snapshotUpperSubtree st fuel e.2)

/-- `snapshot_existing_upper`. -/
def snapshotExistingUpper (st : PageStore) (fuel : ℕ) (rootUpper : BlockNumber) :
    Option (Except PgError (List (UpperLeafEntry × Option (List UInt8)))) :=
  if rootUpper = invalidBlockNumber then some (.ok []) else snapshotUpperSubtree st fuel rootUpper

/-! ## Round trips of the pages -/

/-- An upper page has room for 506 entries. -/
@[simp] theorem upperMaxEntries_eq : upperMaxEntries = 506 := rfl

/-- The room of an upper page. -/
@[simp] theorem upperPageBudget_eq : upperPageBudget = 8096 := rfl

/-- A leaf entry takes 16 bytes. -/
@[simp] theorem length_encodeUpperEntry (e : UpperLeafEntry) : (encodeUpperEntry e).length = 16 := by
  simp [encodeUpperEntry, encodeBlock]

/-- An internal entry takes 16 bytes. -/
@[simp] theorem length_encodeInternalEntry (e : ℕ × BlockNumber) :
    (encodeInternalEntry e).length = 16 := by
  simp [encodeInternalEntry]

/-- A block number written as `InvalidBlockNumber` when absent is read back. -/
theorem decodeBlock_getD {b : Option BlockNumber} (h : ∀ n ∈ b, n < invalidBlockNumber) :
    decodeBlock (b.getD invalidBlockNumber) = b := by
  unfold decodeBlock
  cases b with
  | none => rfl
  | some n =>
    rw [Option.getD_some, if_neg (ne_of_lt (h n rfl))]

/-- A block number that may be absent fits in four bytes. -/
theorem getD_lt {b : Option BlockNumber} (h : ∀ n ∈ b, n < invalidBlockNumber) :
    b.getD invalidBlockNumber < 256 ^ 4 := by
  have hinvalid : invalidBlockNumber < 256 ^ 4 := by decide
  cases b with
  | none => exact hinvalid
  | some n => exact lt_trans (h n rfl) hinvalid

/-- An entry's inline length fits in four bytes. -/
theorem UpperItem.inlineBytes_lt (item : UpperItem) : item.entry.inlineBytes < 256 ^ 4 := by
  rcases item.inlineBytes with h | ⟨slot, hslot, heq⟩
  · exact lt_of_le_of_lt h (by decide)
  · rw [heq]
    unfold pgTreCoalescedFlag
    omega

/-- The offset of a field behind the fields before it. -/
theorem numberAt_record {contents : List UInt8} {i off k w : ℕ} {record : List UInt8}
    (hrecord : bytesAt contents (w * i) w = record) (hoff : off + k ≤ w) :
    numberAt contents (w * i + off) k = numberAt record off k := by
  rw [← hrecord, numberAt_bytesAt hoff]

section

variable {items : List UpperItem} {children : List (ℕ × BlockNumber)}

/-- The page of a leaf with some entries. -/
def leafPageOf (items : List UpperItem) : StoredPage :=
  upperLeafPage (items.map UpperItem.entry) (items.flatMap UpperItem.inlineData)

/-- The page counts its entries. -/
theorem upperEntryCount_leafPageOf (hne : items ≠ []) (hlength : items.length < 2 ^ 16) :
    upperEntryCount (leafPageOf items) = items.length := by
  have hpos : 0 < items.length := List.length_pos_of_ne_nil hne
  have hflags : (leafPageOf items).flags = items.length := by
    unfold leafPageOf upperLeafPage
    simp only [List.length_map]
    omega
  unfold upperEntryCount
  rw [hflags, if_neg (by omega)]

/-- The entries of a leaf are read as they were written. -/
theorem readUpperEntries_leafPageOf (hne : items ≠ []) (hlength : items.length < 2 ^ 16) :
    readUpperEntries (leafPageOf items) = items.map UpperItem.entry := by
  apply List.ext_getElem
  · simp [readUpperEntries, upperEntryCount_leafPageOf hne hlength]
  · intro i hi hi'
    rw [List.length_map] at hi'
    have hrecord : bytesAt (leafPageOf items).contents (16 * i) 16 =
        encodeUpperEntry (items[i]).entry := by
      unfold leafPageOf upperLeafPage
      have hbytes := @bytesAt_flatMap_records _ encodeUpperEntry 16 length_encodeUpperEntry
        (items.map UpperItem.entry) i (by simpa using hi') (items.flatMap UpperItem.inlineData)
      rwa [List.getElem_map] at hbytes
    have hhash := numberAt_record hrecord (show 0 + 8 ≤ 16 by omega)
    rw [Nat.add_zero] at hhash
    have hroot := numberAt_record hrecord (show 8 + 4 ≤ 16 by omega)
    have hinline := numberAt_record hrecord (show 12 + 4 ≤ 16 by omega)
    obtain ⟨item, hitem⟩ : ∃ item, item = items[i] := ⟨_, rfl⟩
    rw [← hitem] at hhash hroot hinline
    unfold encodeUpperEntry at hhash hroot hinline
    have hlt : item.entry.trigramHash.toNat < 256 ^ 8 := item.entry.trigramHash.toNat_lt
    simp only [readUpperEntries, List.getElem_map, List.getElem_range, readUpperEntry]
    rw [hhash, hroot, hinline, ← hitem]
    have h₀ := @numberAt_wordBytes [] (encodeBlock item.entry.postingRoot ++
      wordBytes 4 item.entry.inlineBytes) 0 8 _ rfl hlt
    have h₁ := @numberAt_wordBytes (wordBytes 8 item.entry.trigramHash.toNat)
      (wordBytes 4 item.entry.inlineBytes) 8 4 _ (by simp) (getD_lt item.root_lt)
    have h₂ := @numberAt_wordBytes (wordBytes 8 item.entry.trigramHash.toNat ++
      encodeBlock item.entry.postingRoot) [] 12 4 _ (by simp [encodeBlock]) item.inlineBytes_lt
    rw [List.append_nil, List.append_assoc] at h₂
    unfold encodeBlock at h₀ h₂ ⊢
    rw [h₁, h₂]
    rw [List.nil_append] at h₀
    rw [h₀, decodeBlock_getD item.root_lt, UInt64.ofNat_toNat]

/-- The entries of an internal page are read as they were written. -/
theorem readInternalEntries_upperInternalPage
    (hchildren : ∀ c ∈ children, c.1 < 2 ^ 64 ∧ c.2 < 2 ^ 32) :
    readInternalEntries (upperInternalPage children) = children := by
  have hcount : entriesBelowPdLower (upperInternalPage children) = children.length := by
    unfold entriesBelowPdLower upperInternalPage pdLowerOf
    simp only [length_flatMap_records length_encodeInternalEntry, maxAlign_pageHeader]
    have hheader : sizeOfPageHeaderData = 24 := rfl
    omega
  apply List.ext_getElem
  · simp [readInternalEntries, hcount]
  · intro i hi hi'
    have hrecord : bytesAt (upperInternalPage children).contents (16 * i) 16 =
        encodeInternalEntry children[i] := by
      have hbytes := @bytesAt_flatMap_records _ encodeInternalEntry 16 length_encodeInternalEntry
        children i hi' []
      rwa [List.append_nil] at hbytes
    obtain ⟨hkey, hblk⟩ := hchildren children[i] (List.getElem_mem hi')
    have hkey' := numberAt_record hrecord (show 0 + 8 ≤ 16 by omega)
    rw [Nat.add_zero] at hkey'
    have hblk' := numberAt_record hrecord (show 8 + 4 ≤ 16 by omega)
    simp only [readInternalEntries, List.getElem_map, List.getElem_range]
    rw [hkey', hblk']
    unfold encodeInternalEntry
    have h₀ := @numberAt_wordBytes [] (wordBytes 4 children[i].2 ++ wordBytes 4 0) 0 8 children[i].1
      rfl (by omega)
    have h₁ := @numberAt_wordBytes (wordBytes 8 children[i].1) (wordBytes 4 0) 8 4 children[i].2
      (by simp) (lt_of_lt_of_le hblk (by decide))
    rw [List.nil_append] at h₀
    rw [h₀, h₁]

/-- The search in a leaf finds the first entry with the hash, and its blob. -/
theorem upperLeafFind_spec (hash : UInt64) (front : List UInt8) :
    (items.find? fun item => decide (item.entry.trigramHash = hash)) = none ∧
        upperLeafFind hash front.length (items.map UpperItem.entry) = none ∨
      ∃ item off, (items.find? fun item => decide (item.entry.trigramHash = hash)) = some item ∧
        upperLeafFind hash front.length (items.map UpperItem.entry) = some (item.entry, off) ∧
        off + item.inlineData.length ≤ (front ++ items.flatMap UpperItem.inlineData).length ∧
        bytesAt (front ++ items.flatMap UpperItem.inlineData) off item.inlineData.length =
          item.inlineData := by
  induction items generalizing front with
  | nil =>
    left
    exact ⟨rfl, rfl⟩
  | cons item items ih =>
    by_cases hitem : item.entry.trigramHash = hash
    · right
      refine ⟨item, front.length, by simp [hitem], by simp [upperLeafFind, hitem], ?_, ?_⟩
      · rw [List.flatMap_cons, List.length_append, List.length_append]
        omega
      · rw [bytesAt_append_right (Nat.add_zero _).symm, List.flatMap_cons]
        exact bytesAt_append_self rfl
    · have hnext := ih (front ++ item.inlineData)
      rw [List.length_append, item.length_inlineData] at hnext
      simp only [List.map_cons, upperLeafFind, if_neg hitem, List.flatMap_cons,
        ← List.append_assoc]
      rw [List.find?_cons_of_neg (by simpa using hitem)]
      exact hnext

/-- What the snapshot has of an entry. -/
def UpperItem.stored (item : UpperItem) : UpperLeafEntry × Option (List UInt8) :=
  (item.entry, if item.inlineData = [] then none else some item.inlineData)

/-- A coalesced entry has no inline bytes. -/
theorem UpperItem.inlineData_eq_nil {item : UpperItem} (h : item.entry.coalesced = true) :
    item.inlineData = [] := by
  apply List.eq_nil_of_length_eq_zero
  rw [item.length_inlineData, UpperLeafEntry.blobLength, if_pos h]

/-- The inline bytes of an entry are as long as it says. -/
theorem UpperItem.length_of_not_coalesced {item : UpperItem} (h : item.entry.coalesced = false) :
    item.inlineData.length = item.entry.inlineBytes := by
  rw [item.length_inlineData, UpperLeafEntry.blobLength, h]
  rfl

/-- The snapshot of the entries of a leaf. -/
theorem snapshotEntries_spec {page : StoredPage} {blobBase : ℕ} {array front : List UInt8}
    (hpage : page.contents = array ++ (front ++ items.flatMap UpperItem.inlineData))
    (hbase : blobBase = array.length) :
    snapshotEntries page blobBase front.length (items.map UpperItem.entry) =
      items.map UpperItem.stored := by
  induction items generalizing front with
  | nil => rfl
  | cons item items ih =>
    rw [List.flatMap_cons, ← List.append_assoc front] at hpage
    have hnext := ih hpage
    simp only [List.map_cons, snapshotEntries]
    by_cases hmark : item.entry.coalesced = true
    · have hnil := UpperItem.inlineData_eq_nil hmark
      rw [hnil, List.append_nil] at hnext
      simp only [hmark, if_true, hnext, UpperItem.stored, hnil]
    · have hmark' : item.entry.coalesced = false := by simpa using hmark
      have hlength := UpperItem.length_of_not_coalesced hmark'
      rw [hmark', if_neg (by decide)]
      rw [List.length_append, hlength] at hnext
      by_cases hpos : 0 < item.entry.inlineBytes
      · have hne : item.inlineData ≠ [] := by
          intro hnil
          rw [hnil, List.length_nil] at hlength
          omega
        have hregion : page.region (blobBase + front.length) item.entry.inlineBytes =
            item.inlineData := by
          rw [StoredPage.region_eq, hpage, bytesAt_append_right (by rw [hbase]), List.append_assoc,
            bytesAt_append_right (Nat.add_zero _).symm]
          · exact bytesAt_append_self hlength.symm
          · rw [hpage]
            simp only [List.length_append]
            omega
        rw [if_pos hpos, hregion, hnext, UpperItem.stored, if_neg hne]
      · have hzero : item.entry.inlineBytes = 0 := by omega
        have hnil : item.inlineData = [] := List.eq_nil_of_length_eq_zero (hlength.trans hzero)
        rw [hzero, Nat.add_zero] at hnext
        rw [if_neg hpos, hnext, UpperItem.stored, hnil]
        rfl

/-- The snapshot of a leaf. -/
theorem snapshotUpperLeaf_leafPageOf (hne : items ≠ []) (hlength : items.length < 2 ^ 16) :
    snapshotUpperLeaf (leafPageOf items) = items.map UpperItem.stored := by
  unfold snapshotUpperLeaf
  rw [readUpperEntries_leafPageOf hne hlength, upperEntryCount_leafPageOf hne hlength]
  have harray := length_flatMap_records length_encodeUpperEntry (items.map UpperItem.entry)
  rw [List.length_map] at harray
  exact @snapshotEntries_spec items (leafPageOf items) _ _ [] rfl harray.symm

/-- What a lookup gives for an entry: its bytes, the bytes its marker stands for, or its root. -/
def UpperItem.ref (st : PageStore) (item : UpperItem) : Except PgError (Option UpperRef) :=
  if item.entry.coalesced then do
    let cblk := item.entry.postingRoot.getD invalidBlockNumber
    let blob ← pgTreCoalescedResolveSlot st cblk (item.entry.inlineBytes % 2 ^ 16)
      item.entry.trigramHash
    return some ⟨none, blob⟩
  else if item.inlineData = [] then .ok (some ⟨item.entry.postingRoot, none⟩)
  else .ok (some ⟨item.entry.postingRoot, some item.inlineData⟩)

/-- What a lookup gives for a hash in a list of entries. -/
def itemsLookup (st : PageStore) (items : List UpperItem) (hash : UInt64) :
    Except PgError (Option UpperRef) :=
  match items.find? fun item => decide (item.entry.trigramHash = hash) with
  | none => .ok none
  | some item => item.ref st

/-- The lookup in a leaf. -/
theorem upperLeafLookup_leafPageOf {st : PageStore} (hne : items ≠ [])
    (hlength : items.length < 2 ^ 16) (hash : UInt64) :
    upperLeafLookup st (leafPageOf items) hash = itemsLookup st items hash := by
  have harray := length_flatMap_records length_encodeUpperEntry (items.map UpperItem.entry)
  rw [List.length_map] at harray
  unfold upperLeafLookup itemsLookup
  rw [readUpperEntries_leafPageOf hne hlength, upperEntryCount_leafPageOf hne hlength]
  rcases @upperLeafFind_spec items hash [] with ⟨hnone, hfind⟩ | ⟨item, off, hsome, hfind, hfit, hbytes⟩
  · rw [List.length_nil] at hfind
    rw [hnone, hfind]
  · rw [List.length_nil] at hfind
    rw [List.nil_append] at hfit hbytes
    have hhash : item.entry.trigramHash = hash := by simpa using List.find?_some hsome
    rw [hsome, hfind]
    simp only [UpperItem.ref, hhash]
    by_cases hmark : item.entry.coalesced = true
    · rw [if_pos hmark, if_pos hmark]
    · rw [if_neg hmark, if_neg hmark]
      have hlen := UpperItem.length_of_not_coalesced (by simpa using hmark)
      by_cases hpos : 0 < item.entry.inlineBytes
      · have hnil : item.inlineData ≠ [] := by
          intro hnil
          rw [hnil, List.length_nil] at hlen
          omega
        have hregion : (leafPageOf items).region (16 * items.length + off) item.entry.inlineBytes =
            item.inlineData := by
          rw [StoredPage.region_eq]
          · unfold leafPageOf upperLeafPage
            rw [bytesAt_append_right (by rw [harray]), ← hlen]
            exact hbytes
          · unfold leafPageOf upperLeafPage
            simp only [List.length_append, harray]
            omega
        rw [if_pos hpos, if_neg hnil, hregion]
      · rw [if_neg hpos, if_pos (List.eq_nil_of_length_eq_zero (by omega))]

end

end PgTre
