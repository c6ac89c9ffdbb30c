import PgTre.Pages.BulkDeleteSemantics

/-!
# VACUUM of an upper leaf

An upper leaf lists its entries, and each entry resolves to a posting: to an inline blob, found behind
the blobs of the entries before it; to a slot of a coalesced page; or to a chain of leaves. After the
inline postings were repacked and the chains walked, every entry resolves to what is left of its own
posting.
-/

namespace PgTre.Bytes

open Allocating Procedure

/-! ## What an upper leaf holds -/

/-- A chain of leaves with what they hold. -/
abbrev Chain := List (BlockNumber × Items)

/-- The number of TIDs in the leaves of a chain. -/
def chainSize (chain : Chain) : ℕ := (chain.map fun link => link.2.length).sum

/-- A posting as it is stored. -/
inductive Stored where
  /-- In so many bytes of the upper leaf. -/
  | inline (bytes : ℕ) (items : Items)
  | coalesced (block : Option BlockNumber) (slot : ℕ)
  | chain (links : Chain)

/-- An entry resolves to a posting. -/
def EntryHolds (lib : SparsemapLibrary) (leaves : BlockNumber → PostingLeafPage) (e : UpperLeafEntry)
    (blob : List UInt8) : Stored → Prop
  | .inline bytes items =>
      e.inlineBytes = bytes ∧ bytes < 2 ^ 31 ∧ e.postingRoot = none ∧ BlobHolds lib blob items
  | .coalesced block slot => e.coalesced = true ∧ e.postingRoot = block ∧ e.inlineBytes = slot
  | .chain links =>
      e.inlineBytes = 0 ∧ e.postingRoot = chainStart links ∧
        ChainHolds lib leaves (chainStart links) links

/-- The entries of an upper leaf resolve to some postings. The blob of an entry starts where those of
the entries before it end. -/
def EntriesHold (lib : SparsemapLibrary) (leaves : BlockNumber → PostingLeafPage) :
    List UpperLeafEntry → List UInt8 → List (UInt64 × Stored) → Prop
  | [], _, [] => True
  | e :: entries, region, (hash, stored) :: contents =>
      e.trigramHash = hash ∧ e.blobLength ≤ region.length ∧
        EntryHolds lib leaves e (region.take e.blobLength) stored ∧
        EntriesHold lib leaves entries (region.drop e.blobLength) contents
  | _, _, _ => False

/-- The blocks of a posting's leaves. -/
def Stored.blocks : Stored → List BlockNumber
  | .chain links => links.map Prod.fst
  | _ => []

/-- The blocks of all leaves of some postings. -/
def chainBlocks (contents : List (UInt64 × Stored)) : List BlockNumber :=
  contents.flatMap fun c => c.2.blocks

/-- The number of TIDs in an inline posting or in the leaves of a chain. -/
def Stored.size : Stored → ℕ
  | .inline _ items => items.length
  | .coalesced _ _ => 0
  | .chain links => chainSize links

/-- The number of TIDs in the inline postings and the leaves. -/
def contentsSize (contents : List (UInt64 × Stored)) : ℕ := (contents.map fun c => c.2.size).sum

/-- The number of TIDs in the leaves of a chain. -/
def Stored.leafSize : Stored → ℕ
  | .chain links => chainSize links
  | _ => 0

/-- The number of TIDs in the leaves. -/
def contentsLeafSize (contents : List (UInt64 × Stored)) : ℕ :=
  (contents.map fun c => c.2.leafSize).sum

/-- What VACUUM makes of a posting, where `K` says what it makes of chains. -/
inductive StoredAfter (lib : SparsemapLibrary) (dead : ℕ → Bool) (K : Chain → Chain → Prop) :
    Stored → Stored → Prop
  /-- The inline posting has its live TIDs. -/
  | kept {bytes bytes' : ℕ} {items : Items} (hbytes : bytes' ≤ bytes)
      (hfits : items.live dead = items ∨ (freshBytes lib (items.live dead)).length ≤ bytes) :
      StoredAfter lib dead K (.inline bytes items) (.inline bytes' (items.live dead))
  /-- The live TIDs have outgrown the slot and moved to a leaf of their own. -/
  | migrated {bytes : ℕ} {items : Items} (b : BlockNumber)
      (hgrows : bytes < (freshBytes lib (items.live dead)).length)
      (hfits : (freshBytes lib (items.live dead)).length ≤ postingLeafBudget) :
      StoredAfter lib dead K (.inline bytes items) (.chain [(b, items.live dead)])
  /-- The live TIDs would fit neither the slot nor a leaf. -/
  | deferred {bytes : ℕ} {items : Items}
      (hgrows : bytes < (freshBytes lib (items.live dead)).length)
      (hover : postingLeafBudget < (freshBytes lib (items.live dead)).length) :
      StoredAfter lib dead K (.inline bytes items) (.inline bytes items)
  | coalesced (block : Option BlockNumber) (slot : ℕ) :
      StoredAfter lib dead K (.coalesced block slot) (.coalesced block slot)
  | chain {links links' : Chain} (hlinks : K links links') :
      StoredAfter lib dead K (.chain links) (.chain links')

/-- An inline posting whose live TIDs fit nowhere is left alone. -/
theorem StoredAfter.eq_of_deferred {lib : SparsemapLibrary} {dead : ℕ → Bool}
    {K : Chain → Chain → Prop} {bytes : ℕ} {items : Items} {stored : Stored}
    (h : StoredAfter lib dead K (.inline bytes items) stored) (hlost : items.live dead ≠ items)
    (hgrows : bytes < (freshBytes lib (items.live dead)).length)
    (hover : postingLeafBudget < (freshBytes lib (items.live dead)).length) :
    stored = .inline bytes items := by
  cases h with
  | kept hbytes hfits =>
    rcases hfits with hsame | hle
    · exact absurd hsame hlost
    · omega
  | migrated b hgrows hfits => omega
  | deferred hgrows hover => rfl

/-- What is said of chains may be weaker. -/
theorem StoredAfter.mono {lib : SparsemapLibrary} {dead : ℕ → Bool} {K K' : Chain → Chain → Prop}
    {stored stored' : Stored} (h : StoredAfter lib dead K stored stored')
    (hK : ∀ links links', stored = .chain links → K links links' → K' links links') :
    StoredAfter lib dead K' stored stored' := by
  cases h with
  | kept hbytes hfits => exact .kept hbytes hfits
  | migrated b hgrows hfits => exact .migrated b hgrows hfits
  | deferred hgrows hover => exact .deferred hgrows hover
  | coalesced block slot => exact .coalesced block slot
  | chain hlinks => exact .chain (hK _ _ rfl hlinks)

/-- What VACUUM makes of the entry of a trigram. -/
def EntryAfter (lib : SparsemapLibrary) (dead : ℕ → Bool) (K : Chain → Chain → Prop)
    (c c' : UInt64 × Stored) : Prop :=
  c'.1 = c.1 ∧ StoredAfter lib dead K c.2 c'.2

/-- So it may of the chains of an entry. -/
theorem EntryAfter.mono {lib : SparsemapLibrary} {dead : ℕ → Bool} {K K' : Chain → Chain → Prop}
    {c c' : UInt64 × Stored} (h : EntryAfter lib dead K c c') (hK : ∀ d d', K d d' → K' d d') :
    EntryAfter lib dead K' c c' :=
  ⟨h.1, h.2.mono fun d d' _ => hK d d'⟩

/-! ## Blocks in use -/

/-- The block exists and is not on offer. -/
def Store.Used (s : Store) (b : BlockNumber) : Prop := b < s.nBlocks ∧ b ∉ s.freePages

/-- The free pages are different blocks of the index. -/
structure Store.FreeOk (s : Store) : Prop where
  nodup : s.freePages.Nodup
  lt : ∀ b ∈ s.freePages, b < s.nBlocks

/-- The second store has more pages in use, and those of the first one are as they were. -/
structure Store.Grows (s t : Store) : Prop where
  leaves : ∀ b, s.Used b → t.postingLeaves b = s.postingLeaves b
  uppers : t.upperLeaves = s.upperLeaves
  used : ∀ b, s.Used b → t.Used b
  free : s.FreeOk → t.FreeOk

/-- The postings are on different blocks, and these are in use. -/
structure ContentsOk (s : Store) (contents : List (UInt64 × Stored)) : Prop where
  nodup : (chainBlocks contents).Nodup
  used : ∀ b ∈ chainBlocks contents, s.Used b

/-- A store grows to itself. -/
theorem Store.Grows.refl (s : Store) : s.Grows s :=
  ⟨fun _ _ => rfl, rfl, fun _ h => h, fun h => h⟩

/-- Growth composes. -/
theorem Store.Grows.trans {s t u : Store} (h : s.Grows t) (h' : t.Grows u) : s.Grows u :=
  ⟨fun b hb => (h'.leaves b (h.used b hb)).trans (h.leaves b hb), h'.uppers.trans h.uppers,
    fun b hb => h'.used b (h.used b hb), fun hfree => h'.free (h.free hfree)⟩

/-- The block taken next is not in use. -/
theorem Store.not_used_nextBlock (s : Store) : ¬s.Used s.nextBlock := by
  rintro ⟨hlt, hfree⟩
  unfold Store.nextBlock at hlt hfree
  cases hpages : s.freePages with
  | nil =>
    rw [hpages] at hlt
    exact Nat.lt_irrefl _ hlt
  | cons b pages =>
    rw [hpages] at hfree
    exact hfree List.mem_cons_self

/-- It is in use after it was taken, as are the others. -/
theorem Store.used_extend {s : Store} (hfree : s.FreeOk) {b : BlockNumber} :
    s.Used b ∨ b = s.nextBlock → s.extend.Used b := by
  unfold Store.Used Store.extend Store.nextBlock
  cases hpages : s.freePages with
  | nil =>
    rintro (⟨hlt, -⟩ | rfl)
    · exact ⟨Nat.lt_succ_of_lt hlt, by simp⟩
    · exact ⟨by simp, by simp⟩
  | cons c pages =>
    simp only [reduceCtorEq, if_false, List.tail_cons, List.headD_cons]
    rintro (⟨hlt, hnot⟩ | rfl)
    · exact ⟨hlt, fun hmem => hnot (List.mem_cons_of_mem _ hmem)⟩
    · refine ⟨hfree.lt b (by rw [hpages]; exact List.mem_cons_self), ?_⟩
      have hnodup := hfree.nodup
      rw [hpages] at hnodup
      exact (List.nodup_cons.mp hnodup).1

/-- A fresh page leaves the free list sound. -/
theorem Store.FreeOk.extend {s : Store} (h : s.FreeOk) : s.extend.FreeOk := by
  refine ⟨h.nodup.sublist (List.tail_sublist _), fun b hb => ?_⟩
  have hlt := h.lt b (List.mem_of_mem_tail hb)
  have hle : s.nBlocks ≤ s.extend.nBlocks := by
    unfold Store.extend
    split_ifs <;> simp
  exact Nat.lt_of_lt_of_le hlt hle

section

variable {lib : SparsemapLibrary} {dead : ℕ → Bool} {items : Items} {tolerant : Bool}

/-- A new leaf, on a block that was not in use. -/
theorem meets_writeSingleLeaf {s : Store} (hfree : s.FreeOk) (hash : UInt64)
    (smBytes payload : List UInt8) (minTid maxTid nTids : ℕ)
    (hfits : smBytes.length + payload.length ≤ postingLeafBudget) {E : Stop → Store → Prop} :
    (writeSingleLeaf hash smBytes payload minTid maxTid nTids none).Meets tolerant
      (fun b t => ¬s.Used b ∧ t.Used b ∧ s.Grows t ∧
        (t.postingLeaves b).smBytes = smBytes ∧ (t.postingLeaves b).payload = payload ∧
        (t.postingLeaves b).payloadOffset =
          (if (t.postingLeaves b).payload = [] then 0
            else 8192 - 8 - (t.postingLeaves b).payload.length) ∧
        (t.postingLeaves b).rightLink = none) E s := by
  unfold writeSingleLeaf
  simp only [if_neg (Nat.not_lt.mpr hfits)]
  refine meets_get_bind (meets_modify_bind (meets_pure ?_))
  simp only [Function.update_self, and_self, and_true]
  refine ⟨s.not_used_nextBlock, s.used_extend hfree (Or.inr rfl), ?_, rfl, ?_, fun h => ?_⟩
  · intro b hb
    refine Function.update_of_ne ?_ _ _
    rintro rfl
    exact s.not_used_nextBlock hb
  · exact fun b hb => s.used_extend hfree (Or.inl hb)
  · exact ⟨h.extend.nodup, h.extend.lt⟩

/-! ## One upper leaf -/

/-- An entry depends on the leaves of its chain alone. -/
theorem EntryHolds.congr {leaves leaves' : BlockNumber → PostingLeafPage} {e : UpperLeafEntry}
    {blob : List UInt8} {stored : Stored} (h : EntryHolds lib leaves e blob stored)
    (hsame : ∀ b ∈ stored.blocks, leaves' b = leaves b) : EntryHolds lib leaves' e blob stored := by
  cases stored with
  | inline bytes items => exact h
  | coalesced block slot => exact h
  | chain links => exact ⟨h.1, h.2.1, h.2.2.congr hsame⟩

/-- The entries hold the contents entry by entry. -/
theorem entriesHold_cons {leaves : BlockNumber → PostingLeafPage} {e : UpperLeafEntry}
    {entries : List UpperLeafEntry} {region : List UInt8} {c : UInt64 × Stored}
    {contents : List (UInt64 × Stored)} :
    EntriesHold lib leaves (e :: entries) region (c :: contents) ↔
      e.trigramHash = c.1 ∧ e.blobLength ≤ region.length ∧
        EntryHolds lib leaves e (region.take e.blobLength) c.2 ∧
        EntriesHold lib leaves entries (region.drop e.blobLength) contents :=
  Iff.rfl

/-- The entries depend on the leaves of their chains alone. -/
theorem EntriesHold.congr {leaves leaves' : BlockNumber → PostingLeafPage}
    {entries : List UpperLeafEntry} {region : List UInt8} {contents : List (UInt64 × Stored)}
    (h : EntriesHold lib leaves entries region contents)
    (hsame : ∀ b ∈ chainBlocks contents, leaves' b = leaves b) :
    EntriesHold lib leaves' entries region contents := by
  induction entries generalizing region contents with
  | nil =>
    cases contents with
    | nil => trivial
    | cons c contents => exact h
  | cons e entries ih =>
    cases contents with
    | nil => exact h
    | cons c contents =>
      obtain ⟨hhash, hlen, hentry, hrest⟩ := entriesHold_cons.mp h
      refine ⟨hhash, hlen, hentry.congr fun b hb => hsame b ?_, ih hrest fun b hb => hsame b ?_⟩
      · exact List.mem_append_left _ hb
      · exact List.mem_append_right _ hb

/-- An inline length has no flag. -/
theorem UpperLeafEntry.coalesced_eq_false {e : UpperLeafEntry} (h : e.inlineBytes < 2 ^ 31) :
    e.coalesced = false := by
  unfold UpperLeafEntry.coalesced
  exact Nat.testBit_lt_two_pow h

/-- An inline length below 2 ^ 31 is not cut off. -/
theorem UpperLeafEntry.blobLength_eq {e : UpperLeafEntry} (h : e.inlineBytes < 2 ^ 31) :
    e.blobLength = e.inlineBytes := by
  rw [UpperLeafEntry.blobLength, UpperLeafEntry.coalesced_eq_false h]
  rfl

/-- What becomes of an entry when new leaves are on blocks that were not in use. -/
def EntryWalked (lib : SparsemapLibrary) (dead : ℕ → Bool) (K : Chain → Chain → Prop) (s : Store)
    (c c' : UInt64 × Stored) : Prop :=
  EntryAfter lib dead K c c' ∧ ∀ b ∈ c'.2.blocks, b ∈ c.2.blocks ∨ ¬s.Used b

/-- The postings of an upper leaf after the inline ones were repacked. -/
structure Repacked (lib : SparsemapLibrary) (dead : ℕ → Bool) (s t : Store)
    (contents contents' : List (UInt64 × Stored)) : Prop where
  after : List.Forall₂ (EntryWalked lib dead Eq s) contents contents'
  ok : ContentsOk t contents'
  grows : s.Grows t

/-- A block of a posting after the repacking was one of its blocks before, or was not in use. -/
theorem Repacked.blocks {s t : Store} {contents contents' : List (UInt64 × Stored)}
    (h : Repacked lib dead s t contents contents') :
    ∀ b ∈ chainBlocks contents', b ∈ chainBlocks contents ∨ ¬s.Used b := by
  have hafter := h.after
  clear h
  induction hafter with
  | nil => exact fun b hb => by cases hb
  | cons hhead _ ih =>
    intro b hb
    rcases List.mem_append.mp hb with hb | hb
    · exact (hhead.2 b hb).imp_left (List.mem_append_left _)
    · exact (ih b hb).imp_left (List.mem_append_right _)

/-- The result of the loop over the entries. -/
structure RepackedTo (lib : SparsemapLibrary) (dead : ℕ → Bool) (s t : Store)
    (contents : List (UInt64 × Stored)) (entries' : List UpperLeafEntry) (region' : List UInt8)
    (removed remaining : ℕ) : Prop where
  holds : ∃ contents', EntriesHold lib t.postingLeaves entries' region' contents' ∧
    Repacked lib dead s t contents contents' ∧
    removed + contentsSize contents' = contentsSize contents ∧
    remaining + contentsLeafSize contents = contentsSize contents' ∧
    (removed = 0 → contents' = contents)

/-- Contents without their first entry stay stored. -/
theorem ContentsOk.tail {s : Store} {c : UInt64 × Stored} {contents : List (UInt64 × Stored)}
    (h : ContentsOk s (c :: contents)) : ContentsOk s contents :=
  ⟨(List.nodup_append.mp h.nodup).2.1, fun b hb => h.used b (List.mem_append_right _ hb)⟩

/-- Contents stay stored while the store grows. -/
theorem ContentsOk.grows {s t : Store} {contents : List (UInt64 × Stored)} (h : ContentsOk s contents)
    (hgrows : s.Grows t) : ContentsOk t contents :=
  ⟨h.nodup, fun b hb => hgrows.used b (h.used b hb)⟩

/-- The head of a list of postings after it was repacked, and the rest. -/
theorem Repacked.cons {s t u : Store} {c c' : UInt64 × Stored}
    {contents contents' : List (UInt64 × Stored)} (hok : ContentsOk s (c :: contents))
    (hgrows : s.Grows t) (hafter : EntryAfter lib dead Eq c c')
    (hnodup : c'.2.blocks.Nodup) (hused : ∀ b ∈ c'.2.blocks, t.Used b)
    (hblocks : ∀ b ∈ c'.2.blocks, b ∈ c.2.blocks ∨ ¬s.Used b)
    (h : Repacked lib dead t u contents contents') :
    Repacked lib dead s u (c :: contents) (c' :: contents') := by
  have hrest : List.Forall₂ (EntryWalked lib dead Eq s) contents contents' :=
    h.after.imp fun _ _ hc => ⟨hc.1, fun b hb => (hc.2 b hb).imp_right fun hnot hs =>
      hnot (hgrows.used b hs)⟩
  refine ⟨.cons ⟨hafter, hblocks⟩ hrest, ⟨?_, ?_⟩, hgrows.trans h.grows⟩
  · refine List.nodup_append.mpr ⟨hnodup, h.ok.nodup, ?_⟩
    rintro b hb _ hb' rfl
    -- A block of the head is not taken by the rest, which takes blocks that were free after it.
    rcases h.blocks b hb' with hrest | hnot
    · rcases hblocks b hb with hhead | hfree
      · exact (List.nodup_append.mp hok.nodup).2.2 b hhead b hrest rfl
      · exact hfree (hok.used b (List.mem_append_right _ hrest))
    · exact hnot (hused b hb)
  · intro b hb
    rcases List.mem_append.mp hb with hhead | hrest
    · exact h.grows.used b (hused b hhead)
    · exact h.ok.used b hrest

/-- One entry was repacked, then the others. -/
theorem RepackedTo.cons {s t u : Store} {hash : UInt64} {stored stored' : Stored}
    {contents : List (UInt64 × Stored)} {e' : UpperLeafEntry} {entries' : List UpperLeafEntry}
    {blob region' : List UInt8} {removed removed' remaining remaining' : ℕ}
    (hok : ContentsOk s ((hash, stored) :: contents)) (hgrows : s.Grows t)
    (hhash : e'.trigramHash = hash) (hblob : e'.blobLength = blob.length)
    (hentry : EntryHolds lib t.postingLeaves e' blob stored')
    (hafter : StoredAfter lib dead Eq stored stored')
    (hnodup : stored'.blocks.Nodup) (hused : ∀ b ∈ stored'.blocks, t.Used b)
    (hblocks : ∀ b ∈ stored'.blocks, b ∈ stored.blocks ∨ ¬s.Used b)
    (hremoved : removed + stored'.size = stored.size)
    (hremaining : remaining + stored.leafSize = stored'.size)
    (hsame : removed = 0 → stored' = stored)
    (h : RepackedTo lib dead t u contents entries' region' removed' remaining') :
    RepackedTo lib dead s u ((hash, stored) :: contents) (e' :: entries') (blob ++ region')
      (removed + removed') (remaining + remaining') := by
  obtain ⟨contents', hholds, hrepacked, hremoved', hremaining', hsame'⟩ := h
  refine ⟨(hash, stored') :: contents', ⟨hhash, ?_, ?_, ?_⟩, ?_, ?_, ?_, fun hzero => ?_⟩
  · rw [hblob, List.length_append]
    omega
  · rw [hblob, List.take_left]
    exact hentry.congr fun b hb => hrepacked.grows.leaves b (hused b hb)
  · rw [hblob, List.drop_left]
    exact hholds
  · exact hrepacked.cons hok hgrows ⟨rfl, hafter⟩ hnodup hused hblocks
  · simp only [contentsSize, List.map_cons, List.sum_cons] at hremoved' ⊢
    omega
  · simp only [contentsSize, contentsLeafSize, List.map_cons, List.sum_cons] at hremaining' ⊢
    omega
  · rw [hsame (by omega), hsame' (by omega)]

/-- A posting that the loop leaves alone is still there. -/
theorem ContentsOk.head {s : Store} {c : UInt64 × Stored} {contents : List (UInt64 × Stored)}
    (h : ContentsOk s (c :: contents)) : c.2.blocks.Nodup ∧ ∀ b ∈ c.2.blocks, s.Used b :=
  ⟨(List.nodup_append.mp h.nodup).1, fun b hb => h.used b (List.mem_append_left _ hb)⟩

/-- An entry without an inline blob takes no bytes of the region. -/
theorem UpperLeafEntry.blobLength_eq_zero {e : UpperLeafEntry}
    (hskip : e.coalesced = true ∨ e.inlineBytes = 0) : e.blobLength = 0 := by
  unfold UpperLeafEntry.blobLength
  rcases hskip with hflag | hzero
  · rw [if_pos hflag]
  · rw [hzero, ite_self]

/-- Only inline postings have a blob. -/
theorem EntryHolds.not_inline {leaves : BlockNumber → PostingLeafPage} {e : UpperLeafEntry}
    {stored : Stored} (h : EntryHolds lib leaves e [] stored) :
    StoredAfter lib dead Eq stored stored ∧ stored.leafSize = stored.size := by
  cases stored with
  | inline bytes items => exact absurd rfl h.2.2.2.nonempty
  | coalesced block slot => exact ⟨.coalesced block slot, rfl⟩
  | chain links => exact ⟨.chain rfl, rfl⟩

/-- The entries with a blob are those of the inline postings. -/
theorem EntryHolds.inline_of {leaves : BlockNumber → PostingLeafPage} {e : UpperLeafEntry}
    {blob : List UInt8} {stored : Stored} (h : EntryHolds lib leaves e blob stored)
    (hblob : ¬(e.coalesced = true ∨ e.inlineBytes = 0)) :
    ∃ items, stored = .inline e.inlineBytes items ∧ e.inlineBytes < 2 ^ 31 ∧ e.postingRoot = none ∧
      BlobHolds lib blob items := by
  cases stored with
  | inline bytes items =>
    obtain ⟨rfl, hlt, hroot, hholds⟩ := h
    exact ⟨items, rfl, hlt, hroot, hholds⟩
  | coalesced block slot => exact absurd (Or.inl h.1) hblob
  | chain links => exact absurd (Or.inr h.1) hblob

/-- The blob of an entry stays in the leaf. -/
theorem RepackedTo.cons_inline {s t : Store} {e : UpperLeafEntry} {kept : Items}
    {contents : List (UInt64 × Stored)} {entries' : List UpperLeafEntry}
    {blob region' : List UInt8} {removed removed' remaining remaining' : ℕ}
    (hok : ContentsOk s ((e.trigramHash, .inline e.inlineBytes items) :: contents))
    (hlt : e.inlineBytes < 2 ^ 31) (hroot : e.postingRoot = none)
    (hkept : BlobHolds lib blob kept) (hshorter : blob.length ≤ e.inlineBytes)
    (hafter : StoredAfter lib dead Eq (.inline e.inlineBytes items) (.inline blob.length kept))
    (hremoved : removed + kept.length = items.length) (hremaining : remaining = kept.length)
    (hsame : removed = 0 → blob.length = e.inlineBytes ∧ kept = items)
    (h : RepackedTo lib dead s t contents entries' region' removed' remaining') :
    RepackedTo lib dead s t ((e.trigramHash, .inline e.inlineBytes items) :: contents)
      ({ e with inlineBytes := blob.length } :: entries') (blob ++ region') (removed + removed')
      (remaining + remaining') := by
  have hshort : blob.length < 2 ^ 31 := by omega
  have hentry : EntryHolds lib s.postingLeaves { e with inlineBytes := blob.length } blob
      (.inline blob.length kept) := ⟨rfl, hshort, hroot, hkept⟩
  refine h.cons hok (.refl s) rfl ?_ hentry hafter List.nodup_nil
    (fun b hb => by cases hb) (fun b hb => by cases hb) hremoved hremaining fun hzero => ?_
  · exact UpperLeafEntry.blobLength_eq hshort
  · rw [(hsame hzero).1, (hsame hzero).2]

/-- The blob of an entry moves to a leaf of its own. -/
theorem RepackedTo.cons_migrated {s t u : Store} {e : UpperLeafEntry} {b : BlockNumber}
    {contents : List (UInt64 × Stored)} {entries' : List UpperLeafEntry} {region' : List UInt8}
    {removed removed' : ℕ} (hok : ContentsOk s
      ((e.trigramHash, .inline e.inlineBytes items) :: contents))
    (hgrows : s.Grows t) (hnew : ¬s.Used b) (hused : t.Used b)
    (hleaf : LeafHolds lib (t.postingLeaves b) (items.live dead))
    (hlink : (t.postingLeaves b).rightLink = none)
    (hafter : StoredAfter lib dead Eq (.inline e.inlineBytes items) (.chain [(b, items.live dead)]))
    (hremoved : removed + (items.live dead).length = items.length) (hsome : removed ≠ 0)
    {remaining' : ℕ} (h : RepackedTo lib dead t u contents entries' region' removed' remaining') :
    RepackedTo lib dead s u ((e.trigramHash, .inline e.inlineBytes items) :: contents)
      ({ e with postingRoot := some b, inlineBytes := 0 } :: entries') region' (removed + removed')
      ((items.live dead).length + remaining') := by
  have hentry : EntryHolds lib t.postingLeaves { e with postingRoot := some b, inlineBytes := 0 } []
      (.chain [(b, items.live dead)]) := ⟨rfl, rfl, rfl, hleaf, hlink⟩
  rw [← List.nil_append region']
  refine h.cons hok hgrows rfl ?_ hentry hafter (List.nodup_singleton b) ?_ ?_ ?_ ?_ ?_
  · exact UpperLeafEntry.blobLength_eq_zero (Or.inr rfl)
  · intro c hc
    rw [List.mem_singleton.mp hc]
    exact hused
  · intro c hc
    rw [List.mem_singleton.mp hc]
    exact Or.inr hnew
  · simpa [Stored.size, chainSize] using hremoved
  · simp [Stored.size, Stored.leafSize, chainSize]
  · exact fun hzero => absurd hzero hsome

/-- An error that leaves the pages in use as they were. -/
def GrowsOnly (tolerant : Bool) (s : Store) (e : Stop) (t : Store) : Prop :=
  tolerant = true ∧ (∃ err, e = .error err) ∧ s.Grows t

/-- A failure that only grows the store does so after growth as well. -/
theorem GrowsOnly.after {s t u : Store} {e : Stop} (h : GrowsOnly tolerant t e u)
    (hgrows : s.Grows t) : GrowsOnly tolerant s e u :=
  ⟨h.1, h.2.1, hgrows.trans h.2.2⟩

/-- An inline posting that has outgrown its slot moves to a leaf of its own, and the loop goes on with
the other entries. -/
theorem meets_migrated (hlib : lib.Lawful) {e : UpperLeafEntry} {entries : List UpperLeafEntry}
    {blob region : List UInt8} {contents : List (UInt64 × Stored)} {s : Store} (hfree : s.FreeOk)
    (hok : ContentsOk s ((e.trigramHash, .inline e.inlineBytes items) :: contents))
    (hblob : BlobHolds lib blob items)
    (hgrows : e.inlineBytes < (freshBytes lib (items.live dead)).length)
    (hfits : (freshBytes lib (items.live dead)).length ≤ postingLeafBudget)
    (hsome : items.length - (items.live dead).length ≠ 0)
    (hgo : ∀ t, s.Grows t → (repackEntries lib dead entries region).Meets tolerant
      (fun r u => RepackedTo lib dead t u contents r.1 r.2.1 r.2.2.1 r.2.2.2)
        (GrowsOnly tolerant t) t) :
    (do
      let blkno ← writeSingleLeaf e.trigramHash
        ((freshBytes lib (items.live dead)).take (lib.encode (items.live dead).tids).length)
        ((freshBytes lib (items.live dead)).drop (lib.encode (items.live dead).tids).length)
        (((items.live dead).map Prod.fst).headD 0) (((items.live dead).map Prod.fst).getLastD 0)
        (items.live dead).length none
      let rest ← repackEntries lib dead entries region
      pure ({ e with postingRoot := some blkno, inlineBytes := 0 } :: rest.1, rest.2.1,
        items.length - (items.live dead).length + rest.2.2.1,
        (items.live dead).length + rest.2.2.2) : Vacuuming _).Meets tolerant
      (fun r t => RepackedTo lib dead s t
        ((e.trigramHash, .inline e.inlineBytes items) :: contents) r.1 r.2.1 r.2.2.1 r.2.2.2)
      (GrowsOnly tolerant s) s := by
  have hle := items.length_live_le dead
  rw [freshBytes, List.take_left, List.drop_left]
  rw [freshBytes, List.length_append] at hfits
  refine Meets.bind (meets_writeSingleLeaf hfree _ _ _ _ _ _ hfits) fun b t hb => ?_
  obtain ⟨hnew, hused, hgrew, hsm, hpayload, hoffset, hlink⟩ := hb
  refine Meets.bind ((hgo t hgrew).mono (fun _ _ h => h) fun _ _ h => h.after hgrew)
    fun r u hr => meets_pure ?_
  refine hr.cons_migrated hok hgrew hnew hused ?_ hlink (.migrated b hgrows ?_) ?_ hsome
  · exact .fresh hlib (hblob.wf.live dead) (by rwa [freshBytes, List.length_append]) hsm
      hpayload hoffset
  · rwa [freshBytes, List.length_append]
  · omega

/-- The loop over the entries of an upper leaf. -/
theorem meets_repackEntries (hlib : lib.Lawful) {entries : List UpperLeafEntry}
    {region : List UInt8} {contents : List (UInt64 × Stored)} {s : Store} (hfree : s.FreeOk)
    (hok : ContentsOk s contents) (h : EntriesHold lib s.postingLeaves entries region contents) :
    (repackEntries lib dead entries region).Meets tolerant
      (fun r t => RepackedTo lib dead s t contents r.1 r.2.1 r.2.2.1 r.2.2.2)
      (GrowsOnly tolerant s) s := by
  induction entries generalizing region contents s with
  | nil =>
    cases contents with
    | cons c contents => exact h.elim
    | nil =>
      unfold repackEntries
      exact meets_pure ⟨[], trivial, ⟨.nil, hok, .refl s⟩, rfl, rfl, fun _ => rfl⟩
  | cons e entries ih =>
    cases contents with
    | nil => exact h.elim
    | cons c contents =>
      obtain ⟨hash, stored⟩ := c
      obtain ⟨rfl, hlen, hentry, hrest⟩ := entriesHold_cons.mp h
      unfold repackEntries
      by_cases hskip : e.coalesced = true ∨ e.inlineBytes = 0
      · rw [if_pos hskip]
        have hzero := UpperLeafEntry.blobLength_eq_zero hskip
        rw [hzero, List.drop_zero] at hrest
        rw [hzero, List.take_zero] at hentry
        refine Meets.bind (ih hfree hok.tail hrest) fun r t hr => meets_pure ?_
        obtain ⟨hafter, hsize⟩ := hentry.not_inline
        have hcons : RepackedTo lib dead s t ((e.trigramHash, stored) :: contents) (e :: r.1)
            ([] ++ r.2.1) (0 + r.2.2.1) (0 + r.2.2.2) := by
          refine hr.cons hok (.refl s) rfl hzero hentry hafter hok.head.1 hok.head.2
            (fun b hb => Or.inl hb) (Nat.zero_add _) ?_ fun _ => rfl
          rw [Nat.zero_add, hsize]
        rw [Nat.zero_add, Nat.zero_add] at hcons
        exact hcons
      · rw [if_neg hskip]
        obtain ⟨items, rfl, hlt, hroot, hblob⟩ := hentry.inline_of hskip
        rw [UpperLeafEntry.blobLength_eq hlt] at hlen hblob hrest
        have hbytes : (region.take e.inlineBytes).length = e.inlineBytes := by
          rw [List.length_take]
          omega
        have hle := items.length_live_le dead
        have hmigrates := fun hgrows hfits hsome =>
            meets_migrated hlib hfree hok hblob hgrows hfits hsome
          fun t hgrew => ih (hgrew.free hfree) (hok.tail.grows hgrew)
            (hrest.congr fun c hc => hgrew.leaves c (hok.tail.used c hc))
        refine Meets.bind ((meets_repackInlinePosting hblob s).mono (fun _ _ hr => hr)
          fun _ t ht => ⟨ht.1, ht.2.1, ht.2.2 ▸ .refl s⟩) fun r t hr => ?_
        obtain ⟨rfl, rfl⟩ := hr
        unfold inlineRepack
        rw [hbytes]
        by_cases hnone : (items.live dead).length = items.length
        · simp only [if_pos hnone]
          have hlive := Items.live_eq_self hnone
          refine Meets.bind (ih hfree hok.tail hrest) fun r t hr => meets_pure ?_
          refine hr.cons_inline hok hlt hroot hblob hbytes.le ?_ (Nat.zero_add _) rfl
            fun _ => ⟨hbytes, rfl⟩
          have hkept := @StoredAfter.kept lib dead Eq e.inlineBytes _ items hbytes.le (Or.inl hlive)
          rw [hlive] at hkept
          exact hkept
        · simp only [if_neg hnone]
          by_cases hgrows : e.inlineBytes < (freshBytes lib (items.live dead)).length
          · simp only [if_pos hgrows]
            by_cases hover : postingLeafBudget < (freshBytes lib (items.live dead)).length
            · simp only [if_pos hover]
              refine Meets.bind (ih hfree hok.tail hrest) fun r t hr => meets_pure ?_
              refine hr.cons_inline hok hlt hroot hblob hbytes.le ?_ (Nat.zero_add _) rfl
                fun _ => ⟨hbytes, rfl⟩
              rw [hbytes]
              exact .deferred hgrows hover
            · simp only [if_neg hover]
              have hopen := hlib.openCopy_encode _ (items.live dead).payload
                (hblob.wf.live dead).storable
              refine meets_request_bind ?_ fun _ hharmless => ?_
              · simp only [if_true, freshBytes, hopen, Option.map_some, Option.getD_some]
                exact hmigrates hgrows (Nat.not_lt.mp hover) (by omega)
              · -- The probe fails only where all bytes are those of the map.
                simp only [freshBytes, hopen, Option.map_some, Option.some.injEq,
                  decide_eq_true_eq] at hharmless
                simp only [Bool.false_eq_true, if_false, Option.map_none, Option.getD_none]
                have hlen : (freshBytes lib (items.live dead)).length =
                    (lib.encode (items.live dead).tids).length := hharmless.symm
                rw [hlen]
                exact hmigrates hgrows (Nat.not_lt.mp hover) (by omega)
          · simp only [if_neg hgrows]
            refine Meets.bind (ih hfree hok.tail hrest) fun r t hr => meets_pure ?_
            refine hr.cons_inline hok hlt hroot (.fresh hlib (hblob.wf.live dead))
              (Nat.not_lt.mp hgrows)
              (.kept (Nat.not_lt.mp hgrows) (Or.inr (Nat.not_lt.mp hgrows))) (by omega) rfl
                fun hzero => ?_
            omega

/-- The blobs are in the region. -/
theorem EntriesHold.regionUsed_le {leaves : BlockNumber → PostingLeafPage}
    {entries : List UpperLeafEntry} {region : List UInt8} {contents : List (UInt64 × Stored)}
    (h : EntriesHold lib leaves entries region contents) : regionUsed entries ≤ region.length := by
  induction entries generalizing region contents with
  | nil => exact Nat.zero_le _
  | cons e entries ih =>
    cases contents with
    | nil => exact h.elim
    | cons c contents =>
      obtain ⟨-, hlen, -, hrest⟩ := entriesHold_cons.mp h
      have hle := ih hrest
      rw [List.length_drop] at hle
      simp only [regionUsed, List.map_cons, List.sum_cons] at hle ⊢
      omega

/-- Where no entry has a blob, there are no inline postings. -/
theorem EntriesHold.no_inline {leaves : BlockNumber → PostingLeafPage}
    {entries : List UpperLeafEntry} {region : List UInt8} {contents : List (UInt64 × Stored)}
    (h : EntriesHold lib leaves entries region contents) (hzero : regionUsed entries = 0)
    (s : Store) : List.Forall₂ (EntryWalked lib dead Eq s) contents contents ∧
      contentsLeafSize contents = contentsSize contents := by
  induction entries generalizing region contents with
  | nil =>
    cases contents with
    | nil => exact ⟨.nil, rfl⟩
    | cons c contents => exact h.elim
  | cons e entries ih =>
    cases contents with
    | nil => exact h.elim
    | cons c contents =>
      obtain ⟨-, -, hentry, hrest⟩ := entriesHold_cons.mp h
      simp only [regionUsed, List.map_cons, List.sum_cons] at hzero
      have hblob : e.blobLength = 0 := by omega
      rw [hblob, List.take_zero] at hentry
      obtain ⟨hafter, hsize⟩ : StoredAfter lib dead Eq c.2 c.2 ∧ c.2.leafSize = c.2.size :=
        hentry.not_inline
      obtain ⟨hafters, hsizes⟩ := ih hrest (by unfold regionUsed; omega)
      refine ⟨.cons ⟨⟨rfl, hafter⟩, fun b hb => Or.inl hb⟩ hafters, ?_⟩
      simp only [contentsLeafSize, contentsSize, List.map_cons, List.sum_cons] at hsizes ⊢
      omega

/-- A store with one upper leaf changed. -/
def Store.setUpper (s : Store) (b : BlockNumber) (page : UpperLeafPage) : Store :=
  { s with upperLeaves := Function.update s.upperLeaves b page }

/-- The inline postings of an upper leaf are repacked. -/
theorem meets_postingLeafInlineDelete (hlib : lib.Lawful) {contents : List (UInt64 × Stored)}
    {s : Store} {b : BlockNumber} (hfree : s.FreeOk) (hok : ContentsOk s contents)
    (h : EntriesHold lib s.postingLeaves (s.upperLeaves b).entries (s.upperLeaves b).region
      contents) :
    (postingLeafInlineDelete lib dead b).Meets tolerant
      (fun r t => ∃ u page contents', Repacked lib dead s u contents contents' ∧
        EntriesHold lib u.postingLeaves page.entries page.region contents' ∧
        t = u.setUpper b page ∧
        r.1 + contentsSize contents' = contentsSize contents ∧
        r.2 + contentsLeafSize contents = contentsSize contents')
      (GrowsOnly tolerant s) s := by
  have hself {u : Store} (hgrows : s.Grows u) : u = u.setUpper b (s.upperLeaves b) := by
    rw [Store.setUpper, ← hgrows.uppers, Function.update_eq_self]
  unfold postingLeafInlineDelete
  refine meets_get_bind ?_
  by_cases hzero : regionUsed (s.upperLeaves b).entries = 0
  · obtain ⟨hafter, hsize⟩ := @EntriesHold.no_inline lib dead _ _ _ _ h hzero s
    simp only [if_pos hzero]
    refine meets_pure ⟨s, _, contents, ⟨hafter, hok, .refl s⟩, h, hself (.refl s), Nat.zero_add _, ?_⟩
    rw [Nat.zero_add, hsize]
  · simp only [if_neg hzero, if_neg (Nat.not_lt.mpr h.regionUsed_le)]
    refine Meets.bind (meets_repackEntries hlib hfree hok h) fun r t hr => ?_
    obtain ⟨entries', region', removed, remaining⟩ := r
    obtain ⟨contents', hholds, hrepacked, hremoved, hremaining, hsame⟩ := hr
    simp only at hholds hremoved hremaining hsame
    by_cases hnone : removed = 0
    · simp only [if_pos hnone]
      rw [hsame hnone] at hrepacked hremaining
      refine meets_pure ⟨t, _, contents, hrepacked, ?_, hself hrepacked.grows, Nat.zero_add _,
        hremaining⟩
      exact h.congr fun c hc => hrepacked.grows.leaves c (hok.used c hc)
    · simp only [if_neg hnone]
      exact meets_modify_bind (meets_pure
        ⟨t, ⟨entries', region'⟩, contents', hrepacked, hholds, rfl, hremoved, hremaining⟩)

/-! ## The chains of an upper leaf -/

/-- No item is added by keeping. -/
theorem keptItems_length_le (lib : SparsemapLibrary) (dead : ℕ → Bool) (items : Items) :
    (keptItems lib dead items).length ≤ items.length := by
  unfold keptItems
  split_ifs
  · exact le_rfl
  · exact items.length_live_le dead

/-- Live TIDs are kept. -/
theorem keptItems_live (lib : SparsemapLibrary) (dead : ℕ → Bool) (items : Items) :
    keptItems lib dead (items.live dead) = items.live dead := by
  have hlive : (items.live dead).live dead = items.live dead := by
    rw [Items.live, Items.live, List.filter_filter]
    congr 1
    funext item
    exact Bool.and_self _
  rw [keptItems, hlive, ite_self]

/-- Every TID of a chain is removed or remains. -/
theorem chainRemoved_add_chainRemaining (lib : SparsemapLibrary) (dead : ℕ → Bool) (chain : Chain) :
    chainRemoved lib dead chain + chainRemaining lib dead chain = chainSize chain := by
  induction chain with
  | nil => rfl
  | cons link chain ih =>
    have hle := keptItems_length_le lib dead link.2
    simp only [chainRemoved, chainRemaining, chainSize, List.map_cons, List.sum_cons] at ih ⊢
    omega

/-- The leaves that are unlinked have no TIDs. -/
theorem chainSize_keptTail (lib : SparsemapLibrary) (dead : ℕ → Bool) (chain : Chain) :
    chainSize (keptTail lib dead chain) = chainRemaining lib dead chain := by
  induction chain with
  | nil => rfl
  | cons link chain ih =>
    simp only [chainSize, keptTail, chainRemaining, List.map_cons, List.sum_cons] at ih ⊢
    rw [← ih]
    cases hkept : keptItems lib dead link.2 with
    | nil => simp
    | cons item items => simp

/-- The kept chain takes the room that remains. -/
theorem chainSize_keptChain (lib : SparsemapLibrary) (dead : ℕ → Bool) (chain : Chain) :
    chainSize (keptChain lib dead chain) = chainRemaining lib dead chain := by
  cases chain with
  | nil => rfl
  | cons link chain =>
    have htail := chainSize_keptTail lib dead chain
    simp only [chainSize, keptChain, chainRemaining, List.map_cons, List.sum_cons] at htail ⊢
    rw [htail]

/-- What a chain loses are dead TIDs. -/
theorem losesNoLive_keptChain (chain : Chain) :
    LosesNoLive dead chain (keptChain lib dead chain) := by
  cases chain with
  | nil => exact losesNoLive_refl dead []
  | cons link chain =>
    exact (losesNoLive_keptTail chain).cons link.1 fun tid htid hlive =>
      mem_tids_keptItems htid hlive

/-- A chain is as it was when other leaves change. -/
theorem ChainBecomes.agree {t u : Store} {chain chain' : Chain} {blocks : List BlockNumber}
    (h : ChainBecomes lib t chain chain') (hagree : t.AgreeOff u blocks)
    (hapart : ∀ b ∈ chain'.map Prod.fst, b ∉ blocks) : ChainBecomes lib u chain chain' :=
  ⟨h.1, h.2.congr fun b hb => hagree.leaves b (hapart b hb)⟩

/-- The blocks of some chains. -/
def blocksOf (chains : List Chain) : List BlockNumber := chains.flatMap fun c => c.map Prod.fst

/-- The chains of an upper leaf, one after the other. -/
theorem meets_deleteFromTrees (hlib : lib.Lawful) {chains : List Chain} {s : Store}
    (counts : VacuumCounts)
    (hchains : ∀ c ∈ chains, ChainHolds lib s.postingLeaves (chainStart c) c)
    (hnodup : (blocksOf chains).Nodup) (hlt : ∀ b ∈ blocksOf chains, b < s.nBlocks) :
    (deleteFromTrees lib dead (chains.filterMap chainStart) counts).Meets tolerant
      (fun r t => (r.removed = counts.removed + (chains.map (chainRemoved lib dead)).sum ∧
          r.remaining = counts.remaining + (chains.map (chainRemaining lib dead)).sum) ∧
        s.AgreeOff t (blocksOf chains) ∧
        ∀ c ∈ chains, ChainBecomes lib t c (keptChain lib dead c))
      (fun e t => tolerant = true ∧ (∃ err, e = .error err) ∧ s.AgreeOff t (blocksOf chains) ∧
        ∀ c ∈ chains, ∃ c', ChainBecomes lib t c c' ∧ LosesNoLive dead c c') s := by
  induction chains generalizing s counts with
  | nil =>
    unfold deleteFromTrees
    exact meets_pure ⟨⟨rfl, rfl⟩, .refl s _, fun c hc => by cases hc⟩
  | cons c chains ih =>
    obtain ⟨hnodupC, hnodupRest, hdisjoint⟩ := List.nodup_append.mp hnodup
    have hltC : ∀ b ∈ c.map Prod.fst, b < s.nBlocks := fun b hb => hlt b (List.mem_append_left _ hb)
    have hltRest : ∀ b ∈ blocksOf chains, b < s.nBlocks :=
      fun b hb => hlt b (List.mem_append_right _ hb)
    have hapart : ∀ b ∈ c.map Prod.fst, b ∉ blocksOf chains :=
      fun b hb hrest => hdisjoint b hb b hrest rfl
    have hsub {c' : Chain} (h : LosesNoLive dead c c') : ∀ b ∈ c'.map Prod.fst, b ∈ c.map Prod.fst :=
      fun b hb => h.1.mem hb
    have hholds := hchains c List.mem_cons_self
    have hothers : ∀ c ∈ chains, ChainHolds lib s.postingLeaves (chainStart c) c :=
      fun c hc => hchains c (List.mem_cons_of_mem _ hc)
    have hfuel : c.length ≤ s.nBlocks := by
      have hsubset : c.map Prod.fst ⊆ List.range s.nBlocks :=
        fun b hb => List.mem_range.mpr (hltC b hb)
      have hle := (hnodupC.subperm hsubset).length_le
      rwa [List.length_map, List.length_range] at hle
    cases hstart : chainStart c with
    | none =>
      -- A posting without leaves.
      have hnil : c = [] := by simpa [chainStart] using hstart
      have hnothing : ∀ t, ChainBecomes lib t c [] := fun t => by
        rw [hnil]
        exact ⟨rfl, rfl⟩
      have hblocks : blocksOf (c :: chains) = blocksOf chains := by rw [hnil]; rfl
      rw [List.filterMap_cons_none hstart, hblocks]
      refine (ih counts hothers hnodupRest hltRest).mono (fun r t hr => ?_) fun e t he => ?_
      · refine ⟨⟨?_, ?_⟩, hr.2.1, List.forall_mem_cons.mpr ⟨?_, hr.2.2⟩⟩
        · rw [hr.1.1, hnil]
          simp [chainRemoved]
        · rw [hr.1.2, hnil]
          simp [chainRemaining]
        · have hkept : keptChain lib dead c = [] := by rw [hnil]; rfl
          rw [hkept]
          exact hnothing t
      · refine ⟨he.1, he.2.1, he.2.2.1, List.forall_mem_cons.mpr ⟨?_, he.2.2.2⟩⟩
        exact ⟨[], hnothing t, hnil ▸ losesNoLive_refl dead []⟩
    | some root =>
      rw [List.filterMap_cons_some hstart]
      unfold deleteFromTrees
      refine meets_get_bind ?_
      have hgo := @meets_postingTreeDelete lib dead tolerant hlib c s s.nBlocks counts hholds hnodupC
        hfuel
      rw [hstart] at hgo
      refine Meets.bind (hgo.mono (fun _ _ h => h) fun e t he => ?_) fun r t hr => ?_
      · -- The walk over this chain ends with an error.
        obtain ⟨htolerant, herror, hagree, c', hbecomes, hloses⟩ := he
        refine ⟨htolerant, herror, hagree.mono (List.subset_append_left _ _),
          List.forall_mem_cons.mpr ⟨⟨c', hbecomes, hloses⟩, fun d hd => ?_⟩⟩
        refine ⟨d, ⟨rfl, (hothers d hd).congr fun b hb => hagree.leaves b fun hbc => ?_⟩,
          losesNoLive_refl dead d⟩
        exact hapart b hbc (List.mem_flatMap.mpr ⟨d, hd, hb⟩)
      · obtain ⟨⟨hremoved, hremaining⟩, hagree, hbecomes⟩ := hr
        have hothers' : ∀ d ∈ chains, ChainHolds lib t.postingLeaves (chainStart d) d := by
          intro d hd
          refine (hothers d hd).congr fun b hb => hagree.leaves b fun hbc => ?_
          exact hapart b hbc (List.mem_flatMap.mpr ⟨d, hd, hb⟩)
        have hlt' : ∀ b ∈ blocksOf chains, b < t.nBlocks := by
          rw [hagree.nBlocks]
          exact hltRest
        -- The walks over the other chains do not touch this one.
        have hkeep {u : Store} (hagree' : t.AgreeOff u (blocksOf chains)) :
            ChainBecomes lib u c (keptChain lib dead c) :=
          hbecomes.agree hagree' fun b hb => hapart b (hsub (losesNoLive_keptChain c) b hb)
        refine (ih r hothers' hnodupRest hlt').mono (fun r' u hr => ?_) fun e u he => ?_
        · refine ⟨⟨?_, ?_⟩, ?_, List.forall_mem_cons.mpr ⟨hkeep hr.2.1, hr.2.2⟩⟩
          · rw [hr.1.1, hremoved, List.map_cons, List.sum_cons, Nat.add_assoc]
          · rw [hr.1.2, hremaining, List.map_cons, List.sum_cons, Nat.add_assoc]
          · exact (hagree.mono (List.subset_append_left _ _)).trans
              (hr.2.1.mono (List.subset_append_right _ _))
        · refine ⟨he.1, he.2.1, ?_, List.forall_mem_cons.mpr ⟨?_, he.2.2.2⟩⟩
          · exact (hagree.mono (List.subset_append_left _ _)).trans
              (he.2.2.1.mono (List.subset_append_right _ _))
          · exact ⟨_, hkeep he.2.2.1, losesNoLive_keptChain c⟩

/-- The chains among some postings. -/
def chainsOf (contents : List (UInt64 × Stored)) : List Chain :=
  contents.flatMap fun c =>
    match c.2 with
    | .chain links => [links]
    | _ => []

/-- The blocks of the chains are the blocks of the contents. -/
theorem blocksOf_chainsOf (contents : List (UInt64 × Stored)) :
    blocksOf (chainsOf contents) = chainBlocks contents := by
  unfold blocksOf chainsOf chainBlocks
  rw [List.flatMap_assoc]
  congr 1
  funext c
  rcases c with ⟨hash, _ | _ | links⟩
  · rfl
  · rfl
  · exact List.flatMap_singleton _ _

/-- Every TID of the leaves is removed or remains. -/
theorem sum_chainRemoved_add_sum_chainRemaining (lib : SparsemapLibrary) (dead : ℕ → Bool)
    (contents : List (UInt64 × Stored)) :
    ((chainsOf contents).map (chainRemoved lib dead)).sum +
      ((chainsOf contents).map (chainRemaining lib dead)).sum = contentsLeafSize contents := by
  induction contents with
  | nil => rfl
  | cons c contents ih =>
    unfold contentsLeafSize at ih ⊢
    rw [List.map_cons, List.sum_cons, ← ih]
    rcases c with ⟨hash, _ | _ | links⟩
    · exact (Nat.zero_add _).symm
    · exact (Nat.zero_add _).symm
    · have hcons : chainsOf ((hash, Stored.chain links) :: contents) =
        links :: chainsOf contents := rfl
      have hsize := chainRemoved_add_chainRemaining lib dead links
      rw [hcons, List.map_cons, List.map_cons, List.sum_cons, List.sum_cons, Stored.leafSize]
      omega

/-- The roots of an upper leaf are where its chains start. -/
theorem EntriesHold.postingRoots_eq {leaves : BlockNumber → PostingLeafPage}
    {entries : List UpperLeafEntry} {region : List UInt8} {contents : List (UInt64 × Stored)}
    (h : EntriesHold lib leaves entries region contents) :
    postingRoots entries = (chainsOf contents).filterMap chainStart ∧
      ∀ c ∈ chainsOf contents, ChainHolds lib leaves (chainStart c) c := by
  induction entries generalizing region contents with
  | nil =>
    cases contents with
    | nil => exact ⟨rfl, fun c hc => by cases hc⟩
    | cons c contents => exact h.elim
  | cons e entries ih =>
    cases contents with
    | nil => exact h.elim
    | cons c contents =>
      obtain ⟨hash, stored⟩ := c
      obtain ⟨-, -, hentry, hrest⟩ := entriesHold_cons.mp h
      obtain ⟨hroots, hchains⟩ := ih hrest
      unfold postingRoots at hroots ⊢
      cases stored with
      | inline bytes items =>
        obtain ⟨rfl, hlt, hroot, -⟩ := hentry
        have hcons : chainsOf ((hash, Stored.inline e.inlineBytes items) :: contents) =
          chainsOf contents := rfl
        rw [hcons, ← hroots]
        refine ⟨?_, hchains⟩
        rw [List.filter_cons_of_pos (by simp [UpperLeafEntry.coalesced_eq_false hlt]),
          List.filterMap_cons_none hroot]
      | coalesced block slot =>
        have hcons : chainsOf ((hash, Stored.coalesced block slot) :: contents) =
          chainsOf contents := rfl
        rw [hcons, ← hroots]
        refine ⟨?_, hchains⟩
        rw [List.filter_cons_of_neg (by simp [hentry.1])]
      | chain links =>
        obtain ⟨hzero, hroot, hlinks⟩ := hentry
        have hcons : chainsOf ((hash, Stored.chain links) :: contents) =
          links :: chainsOf contents := rfl
        have hflag : e.coalesced = false := UpperLeafEntry.coalesced_eq_false (by omega)
        rw [hcons]
        refine ⟨?_, List.forall_mem_cons.mpr ⟨hlinks, hchains⟩⟩
        rw [List.filter_cons_of_pos (by simp [hflag]), List.filterMap_cons, List.filterMap_cons,
          hroot, hroots]

/-- The entries of an upper leaf after its inline postings were repacked and its chains walked. -/
theorem EntriesHold.walked {s u t : Store} {K : Chain → Chain → Prop} {old : List BlockNumber}
    {entries : List UpperLeafEntry} {region : List UInt8}
    {contents contents₁ : List (UInt64 × Stored)}
    (h : EntriesHold lib u.postingLeaves entries region contents₁)
    (hafter : List.Forall₂ (EntryWalked lib dead Eq s) contents contents₁)
    (hchains : ∀ c ∈ chainsOf contents, ∃ c', ChainBecomes lib t c c' ∧ K c c')
    (hK : ∀ c c', K c c' → (c'.map Prod.fst).Sublist (c.map Prod.fst))
    (hold : ∀ b ∈ old, s.Used b) (hsame : ∀ b, b ∉ old → t.postingLeaves b = u.postingLeaves b) :
    ∃ contents₂, EntriesHold lib t.postingLeaves entries region contents₂ ∧
      List.Forall₂ (EntryWalked lib dead K s) contents contents₂ ∧
      (chainBlocks contents₂).Sublist (chainBlocks contents₁) ∧
      ∀ removed : Chain → ℕ, (∀ c c', K c c' → chainSize c' + removed c = chainSize c) →
        contentsSize contents₂ + ((chainsOf contents).map removed).sum = contentsSize contents₁ := by
  induction hafter generalizing entries region with
  | nil => exact ⟨[], h.congr fun b hb => (by cases hb), .nil, .slnil, fun _ _ => rfl⟩
  | @cons c c₁ contents contents₁ hhead _ ih =>
    cases entries with
    | nil => exact h.elim
    | cons e entries =>
      obtain ⟨hhash, hlen, hentry, hrest⟩ := entriesHold_cons.mp h
      obtain ⟨hash, stored⟩ := c
      obtain ⟨hash₁, stored₁⟩ := c₁
      obtain ⟨⟨rfl, hstored⟩, hblocks⟩ := hhead
      have hchainsRest : ∀ c ∈ chainsOf contents, ∃ c', ChainBecomes lib t c c' ∧ K c c' :=
        fun c hc => hchains c (List.mem_append_right _ hc)
      obtain ⟨contents₂, hholds₂, hafter₂, hsub₂, hsize₂⟩ := ih hrest hchainsRest
      have hcombine {stored₂ : Stored}
          (hentry₂ : EntryHolds lib t.postingLeaves e (region.take e.blobLength) stored₂)
          (hafter : StoredAfter lib dead K stored stored₂)
          (hnew : ∀ b ∈ stored₂.blocks, b ∈ stored.blocks ∨ ¬s.Used b)
          (hsub : stored₂.blocks.Sublist stored₁.blocks) :
          EntriesHold lib t.postingLeaves (e :: entries) region ((hash₁, stored₂) :: contents₂) ∧
            List.Forall₂ (EntryWalked lib dead K s) ((hash₁, stored) :: contents)
              ((hash₁, stored₂) :: contents₂) ∧
            (chainBlocks ((hash₁, stored₂) :: contents₂)).Sublist
              (chainBlocks ((hash₁, stored₁) :: contents₁)) :=
        ⟨⟨hhash, hlen, hentry₂, hholds₂⟩, .cons ⟨⟨rfl, hafter⟩, hnew⟩ hafter₂, hsub.append hsub₂⟩
      -- Only the chains that were there before have been walked.
      by_cases hchain : ∃ links, stored = .chain links
      · obtain ⟨links, rfl⟩ := hchain
        obtain ⟨c', hbecomes, hc'⟩ := hchains links (List.mem_append_left _ (List.mem_singleton_self _))
        cases hstored with
        | chain hlinks =>
          subst hlinks
          obtain ⟨hzero, hroot, -⟩ := hentry
          obtain ⟨hholds, hafter, hsub⟩ := hcombine
            (show EntryHolds _ _ _ _ (.chain c') from
              ⟨hzero, hroot.trans hbecomes.1.symm, hbecomes.2⟩) (.chain hc')
            (fun b hb => Or.inl ((hK _ _ hc').mem hb)) (hK _ _ hc')
          refine ⟨_, hholds, hafter, hsub, fun removed hremoved => ?_⟩
          have hsize := hsize₂ removed hremoved
          have hone := hremoved _ _ hc'
          have hcons : chainsOf ((hash₁, Stored.chain links) :: contents) =
            links :: chainsOf contents := rfl
          simp only [contentsSize, hcons, List.map_cons, List.sum_cons, Stored.size] at hsize ⊢
          omega
      · have hunchanged : EntryHolds lib t.postingLeaves e (region.take e.blobLength) stored₁ := by
          refine hentry.congr fun b hb => hsame b fun hmem => ?_
          rcases hblocks b hb with hbefore | hnot
          · cases stored with
            | chain links => exact hchain ⟨links, rfl⟩
            | inline bytes items => cases hbefore
            | coalesced block slot => cases hbefore
          · exact hnot (hold b hmem)
        have hstored₂ : StoredAfter lib dead K stored stored₁ :=
          hstored.mono fun links _ hlinks _ => absurd ⟨links, hlinks⟩ hchain
        obtain ⟨hholds, hafter, hsub⟩ := hcombine hunchanged hstored₂ hblocks (List.Sublist.refl _)
        refine ⟨_, hholds, hafter, hsub, fun removed hremoved => ?_⟩
        have hsize := hsize₂ removed hremoved
        have hcons : chainsOf ((hash₁, stored) :: contents) = chainsOf contents := by
          cases stored with
          | chain links => exact absurd ⟨links, rfl⟩ hchain
          | inline bytes items => rfl
          | coalesced block slot => rfl
        simp only [contentsSize, hcons, List.map_cons, List.sum_cons] at hsize ⊢
        omega

end

end PgTre.Bytes
