import PgTre.Pages.BulkDelete

/-!
# What VACUUM does to the postings

Every posting is a list of TIDs with their payload, however it is stored. The bulk delete takes the
dead ones out of it, or leaves the posting as it was where the repacked bytes have no place. Entries
keep their order, and each resolves to its own posting as before. The chains stay connected, and the
counts are those of the postings.
-/

namespace PgTre.Bytes

open Allocating Procedure

/-! ## Blobs and leaves -/

/-- An inline blob holds some TIDs with their payload. -/
structure BlobHolds (lib : SparsemapLibrary) (blob : List UInt8) (items : Items) : Prop where
  opens : ∃ n, lib.smOpenCopy blob = some (items.tids, n) ∧ n ≤ blob.length ∧
    blob.drop n = items.payload
  nonempty : blob ≠ []
  wf : items.Wf

/-- A posting leaf holds some TIDs with their payload. -/
structure LeafHolds (lib : SparsemapLibrary) (leaf : PostingLeafPage) (items : Items) : Prop where
  opens : lib.smOpen leaf.smBytes = (items.tids, leaf.smBytes.length)
  copies : lib.smOpenCopy leaf.smBytes = some (items.tids, leaf.smBytes.length)
  header : smMinBytes ≤ leaf.smBytes.length
  payload : leaf.payload = items.payload
  valid : postingLeafHeaderValid leaf = true
  wf : items.Wf

/-- The bytes of a posting that is written anew. -/
def freshBytes (lib : SparsemapLibrary) (items : Items) : List UInt8 :=
  lib.encode items.tids ++ items.payload

/-- What is left of a leaf: the live TIDs, or all of them if the new bytes do not fit the page. -/
def keptItems (lib : SparsemapLibrary) (dead : ℕ → Bool) (items : Items) : Items :=
  if postingLeafBudget < (freshBytes lib (items.live dead)).length then items else items.live dead

section

variable {lib : SparsemapLibrary} {dead : ℕ → Bool} {items : Items} {tolerant : Bool}

/-- Fresh bytes hold the items they were written for. -/
theorem BlobHolds.fresh (hlib : lib.Lawful) (hwf : items.Wf) :
    BlobHolds lib (freshBytes lib items) items := by
  refine ⟨⟨_, hlib.openCopy_encode _ _ hwf.storable, ?_, ?_⟩, ?_, hwf⟩
  · rw [freshBytes, List.length_append]
    omega
  · rw [freshBytes, List.drop_left]
  · intro hnil
    have hheader := hlib.header items.tids hwf.storable
    rw [(List.append_eq_nil_iff.mp hnil).1] at hheader
    simp at hheader

/-- The payload region of a new leaf starts where the header check wants it. -/
theorem postingLeafHeaderValid_fresh {leaf : PostingLeafPage}
    (hheader : smMinBytes ≤ leaf.smBytes.length)
    (hfits : leaf.smBytes.length + leaf.payload.length ≤ postingLeafBudget)
    (hoffset : leaf.payloadOffset = if leaf.payload = [] then 0 else 8192 - 8 - leaf.payload.length) :
    postingLeafHeaderValid leaf = true := by
  unfold smMinBytes at hheader
  unfold postingLeafBudget at hfits
  unfold postingLeafHeaderValid postingLeafBudget
  rw [Bool.and_eq_true, Bool.or_eq_true, decide_eq_true_eq, decide_eq_true_eq, decide_eq_true_eq]
  refine ⟨by omega, ?_⟩
  by_cases hnil : leaf.payload = []
  · left
    rw [hoffset, if_pos hnil, hnil]
    exact ⟨rfl, rfl⟩
  · right
    rw [hoffset, if_neg hnil]
    omega

/-- A leaf of fresh bytes holds the items. -/
theorem LeafHolds.fresh (hlib : lib.Lawful) (hwf : items.Wf)
    (hfits : (freshBytes lib items).length ≤ postingLeafBudget) {leaf : PostingLeafPage}
    (hsm : leaf.smBytes = lib.encode items.tids) (hpayload : leaf.payload = items.payload)
    (hoffset : leaf.payloadOffset = if leaf.payload = [] then 0 else 8192 - 8 - leaf.payload.length) :
    LeafHolds lib leaf items := by
  have hheader := hlib.header items.tids hwf.storable
  have hcopy := hlib.openCopy_encode items.tids [] hwf.storable
  rw [List.append_nil] at hcopy
  refine ⟨?_, ?_, ?_, hpayload, ?_, hwf⟩
  · rw [hsm]
    exact hlib.open_encode items.tids hwf.storable
  · rw [hsm]
    exact hcopy
  · rw [hsm]
    exact hheader
  · refine postingLeafHeaderValid_fresh ?_ ?_ hoffset
    · rw [hsm]
      exact hheader
    · rw [hsm, hpayload, ← List.length_append]
      exact hfits

/-- The map of the TIDs a loop keeps. -/
theorem Items.toFinset_map_fst (items : Items) : (items.map Prod.fst).toFinset = items.tids := rfl

/-! ## Inline postings -/

/-- What `repack_inline_posting` makes of a blob. -/
def inlineRepack (lib : SparsemapLibrary) (dead : ℕ → Bool) (blob : List UInt8) (items : Items) :
    InlineRepack :=
  let live := items.live dead
  if live.length = items.length then .inPlace blob 0 items.length
  else if blob.length < (freshBytes lib live).length then
    if postingLeafBudget < (freshBytes lib live).length then .inPlace blob 0 items.length
    else .migrates (freshBytes lib live) ((live.map Prod.fst).headD 0) ((live.map Prod.fst).getLastD 0)
      live.length (items.length - live.length)
  else .inPlace (freshBytes lib live) (items.length - live.length) live.length

/-- The error of a request that fails, and nothing was done. -/
def Untouched (tolerant : Bool) (s : Store) (e : Stop) (t : Store) : Prop :=
  tolerant = true ∧ (∃ err, e = .error err) ∧ t = s

/-- A blob with payload is longer than its map. -/
theorem BlobHolds.hasPayload_eq {blob : List UInt8} {n : ℕ} (hle : n ≤ blob.length)
    (hdrop : blob.drop n = items.payload) :
    decide (n < blob.length) = items.hasPayload := by
  rw [Items.hasPayload, ← hdrop]
  by_cases h : n < blob.length
  · simp [h]
  · have heq : n = blob.length := by omega
    simp [heq]

/-- Repacking an inline posting computes its repacked bytes and leaves the store alone. -/
theorem meets_repackInlinePosting {blob : List UInt8}
    (hblob : BlobHolds lib blob items) (s : Store) :
    (repackInlinePosting lib dead blob).Meets tolerant
      (fun r t => r = inlineRepack lib dead blob items ∧ t = s) (Untouched tolerant s) s := by
  obtain ⟨n, hopen, hle, hdrop⟩ := hblob.opens
  have hlive := items.length_live_le dead
  unfold repackInlinePosting
  refine meets_request_bind ?_ fun htolerant _ => meets_throw ⟨htolerant, ⟨_, rfl⟩, rfl⟩
  rw [if_pos rfl, hopen]
  simp only [if_neg (Nat.not_lt.mpr hle), hblob.wf.sort_tids, hdrop,
    BlobHolds.hasPayload_eq hle hdrop, repackMembers_eq hblob.wf]
  by_cases hnone : items.length - (items.live dead).length = 0
  · rw [if_pos hnone]
    have hsame : (items.live dead).length = items.length := by omega
    refine meets_pure ⟨?_, rfl⟩
    rw [inlineRepack, if_pos hsame, List.length_map, hsame]
  · rw [if_neg hnone]
    have hdiff : (items.live dead).length ≠ items.length := by omega
    refine meets_request_bind ?_ fun htolerant _ => meets_throw ⟨htolerant, ⟨_, rfl⟩, rfl⟩
    rw [if_pos rfl]
    have hlen : (lib.encode (items.live dead).tids).length + (items.live dead).payload.length =
        (freshBytes lib (items.live dead)).length := by
      rw [freshBytes, List.length_append]
    simp only [Items.toFinset_map_fst, hlen]
    unfold inlineRepack
    simp only [if_neg hdiff]
    by_cases hgrows : blob.length < (freshBytes lib (items.live dead)).length
    · simp only [if_pos hgrows]
      by_cases hover : postingLeafBudget < (freshBytes lib (items.live dead)).length
      · simp only [if_pos hover]
        refine meets_pure ⟨?_, rfl⟩
        rw [List.length_map]
        congr 1
        omega
      · simp only [if_neg hover]
        refine meets_pure ⟨?_, rfl⟩
        rw [List.length_map]
        rfl
    · simp only [if_neg hgrows]
      refine meets_pure ⟨?_, rfl⟩
      rw [List.length_map]
      rfl

/-! ## Leaf chains -/

/-- Live TIDs are kept. -/
theorem mem_tids_keptItems {tid : ℕ} (htid : tid ∈ items.tids) (hlive : dead tid = false) :
    tid ∈ (keptItems lib dead items).tids := by
  unfold keptItems
  split_ifs
  · exact htid
  · obtain ⟨item, hitem, rfl⟩ := List.mem_map.mp (List.mem_toFinset.mp htid)
    refine List.mem_toFinset.mpr (List.mem_map_of_mem (List.mem_filter.mpr ⟨hitem, ?_⟩))
    rw [hlive]
    rfl

/-- A leaf with payload says so in its header. -/
theorem LeafHolds.hasPayload_eq {leaf : PostingLeafPage} (h : LeafHolds lib leaf items) :
    decide (leaf.payload ≠ [] ∧ leaf.payloadOffset ≠ 0) = items.hasPayload := by
  rw [Items.hasPayload, h.payload]
  by_cases hnil : items.payload = []
  · simp [hnil]
  · have hoffset : leaf.payloadOffset ≠ 0 := by
      intro hzero
      have hvalid := h.valid
      simp [postingLeafHeaderValid, hzero, h.payload, hnil] at hvalid
    simp [hnil, hoffset]

/-- A leaf with another right link holds the same. -/
theorem LeafHolds.setLink {leaf : PostingLeafPage} (h : LeafHolds lib leaf items)
    (link : Option BlockNumber) : LeafHolds lib { leaf with rightLink := link } items :=
  ⟨h.opens, h.copies, h.header, h.payload, h.valid, h.wf⟩

/-- A store with one posting leaf changed. -/
def Store.setLeaf (s : Store) (b : BlockNumber) (leaf : PostingLeafPage) : Store :=
  { s with postingLeaves := Function.update s.postingLeaves b leaf }

/-- A leaf that was set is read back. -/
@[simp] theorem Store.setLeaf_self (s : Store) (b : BlockNumber) (leaf : PostingLeafPage) :
    (s.setLeaf b leaf).postingLeaves b = leaf := by
  simp [Store.setLeaf]

/-- Setting a leaf leaves the others alone. -/
theorem Store.setLeaf_of_ne {s : Store} {b c : BlockNumber} (h : c ≠ b) (leaf : PostingLeafPage) :
    (s.setLeaf b leaf).postingLeaves c = s.postingLeaves c := by
  simp [Store.setLeaf, h]

/-- A leaf is repacked to what is left of it, and the counts are those of the leaf. -/
theorem meets_postingLeafDelete (hlib : lib.Lawful) {s : Store} {b : BlockNumber}
    (hleaf : LeafHolds lib (s.postingLeaves b) items) :
    (postingLeafDelete lib dead b).Meets tolerant
      (fun r t => r = (items.length - (keptItems lib dead items).length,
          (keptItems lib dead items).length) ∧
        ∃ leaf, LeafHolds lib leaf (keptItems lib dead items) ∧
          leaf.rightLink = (s.postingLeaves b).rightLink ∧ t = s.setLeaf b leaf)
      (Untouched tolerant s) s := by
  have hle := items.length_live_le dead
  have hself : s.setLeaf b (s.postingLeaves b) = s := by
    rw [Store.setLeaf, Function.update_eq_self]
  unfold postingLeafDelete
  refine meets_get_bind ?_
  simp only [hleaf.valid, Bool.true_eq_false, if_false, if_neg (Nat.not_lt.mpr hleaf.header)]
  refine meets_request_bind ?_ fun _ hguarded => by cases hguarded
  simp only [if_true, hleaf.opens, ne_eq, not_true_eq_false, if_false, hleaf.wf.sort_tids,
    hleaf.payload]
  have hpayload := hleaf.hasPayload_eq
  rw [hleaf.payload] at hpayload
  simp only [ne_eq] at hpayload
  simp only [hpayload, repackMembers_eq hleaf.wf]
  by_cases hnone : items.length - (items.live dead).length = 0
  · rw [if_pos hnone]
    have hsame : items.live dead = items := Items.live_eq_self (by omega)
    have hkept : keptItems lib dead items = items := by
      rw [keptItems, hsame, ite_self]
    refine meets_pure ⟨?_, s.postingLeaves b, ?_, rfl, hself.symm⟩
    · rw [hkept, hsame, List.length_map, Nat.sub_self]
    · rw [hkept]
      exact hleaf
  · rw [if_neg hnone]
    refine meets_request_bind ?_ fun htolerant _ => meets_throw ⟨htolerant, ⟨_, rfl⟩, rfl⟩
    have hlen : (lib.encode (items.live dead).tids).length + (items.live dead).payload.length =
        (freshBytes lib (items.live dead)).length := by
      rw [freshBytes, List.length_append]
    simp only [if_true, Items.toFinset_map_fst, hlen]
    by_cases hover : postingLeafBudget < (freshBytes lib (items.live dead)).length
    · have hkept : keptItems lib dead items = items := by
        rw [keptItems, if_pos hover]
      rw [if_pos hover]
      refine meets_pure ⟨?_, s.postingLeaves b, ?_, rfl, hself.symm⟩
      · rw [hkept, List.length_map, Nat.sub_self]
        congr 1
        omega
      · rw [hkept]
        exact hleaf
    · have hkept : keptItems lib dead items = items.live dead := by
        rw [keptItems, if_neg hover]
      rw [if_neg hover]
      refine meets_modify_bind (meets_pure ⟨?_, _, ?_, ?_, rfl⟩)
      · rw [hkept, List.length_map]
      · rw [hkept]
        exact LeafHolds.fresh hlib (hleaf.wf.live dead) (Nat.not_lt.mp hover) rfl rfl rfl
      · rfl

/-- A chain of leaves from a start on, with what each of them holds. -/
def ChainHolds (lib : SparsemapLibrary) (leaves : BlockNumber → PostingLeafPage) :
    Option BlockNumber → List (BlockNumber × Items) → Prop
  | start, [] => start = none
  | start, (b, items) :: rest =>
      start = some b ∧ LeafHolds lib (leaves b) items ∧
        ChainHolds lib leaves (leaves b).rightLink rest

/-- A chain depends on its leaves alone. -/
theorem ChainHolds.congr {leaves leaves' : BlockNumber → PostingLeafPage}
    {start : Option BlockNumber} {chain : List (BlockNumber × Items)}
    (h : ChainHolds lib leaves start chain) (hsame : ∀ b ∈ chain.map Prod.fst, leaves' b = leaves b) :
    ChainHolds lib leaves' start chain := by
  induction chain generalizing start with
  | nil => exact h
  | cons link rest ih =>
    obtain ⟨hstart, hleaf, hrest⟩ := h
    have hb : leaves' link.1 = leaves link.1 := hsame _ List.mem_cons_self
    refine ⟨hstart, ?_, ?_⟩
    · rw [hb]
      exact hleaf
    · rw [hb]
      exact ih hrest fun b hmem => hsame b (List.mem_cons_of_mem _ hmem)

/-- What is left of the leaves behind the head: those that become empty are unlinked. -/
def keptTail (lib : SparsemapLibrary) (dead : ℕ → Bool) (chain : List (BlockNumber × Items)) :
    List (BlockNumber × Items) :=
  (chain.map fun link => (link.1, keptItems lib dead link.2)).filter fun link => !link.2.isEmpty

/-- What is left of a chain. The head is never unlinked. -/
def keptChain (lib : SparsemapLibrary) (dead : ℕ → Bool) :
    List (BlockNumber × Items) → List (BlockNumber × Items)
  | [] => []
  | (b, items) :: rest => (b, keptItems lib dead items) :: keptTail lib dead rest

/-- The number of TIDs removed from the leaves of a chain. -/
def chainRemoved (lib : SparsemapLibrary) (dead : ℕ → Bool) (chain : List (BlockNumber × Items)) : ℕ :=
  (chain.map fun link => link.2.length - (keptItems lib dead link.2).length).sum

/-- The number of TIDs that remain in them. -/
def chainRemaining (lib : SparsemapLibrary) (dead : ℕ → Bool) (chain : List (BlockNumber × Items)) :
    ℕ :=
  (chain.map fun link => (keptItems lib dead link.2).length).sum

/-- The second chain has all live TIDs of the first one, on some of its blocks. -/
def LosesNoLive (dead : ℕ → Bool) (chain chain' : List (BlockNumber × Items)) : Prop :=
  (chain'.map Prod.fst).Sublist (chain.map Prod.fst) ∧
    ∀ link ∈ chain, ∀ tid ∈ link.2.tids, dead tid = false → ∃ link' ∈ chain', tid ∈ link'.2.tids

/-- What the tail of a chain loses are dead TIDs. -/
theorem losesNoLive_keptTail (chain : List (BlockNumber × Items)) :
    LosesNoLive dead chain (keptTail lib dead chain) := by
  constructor
  · refine (List.filter_sublist.map Prod.fst).trans ?_
    rw [List.map_map]
    exact List.Sublist.refl _
  · intro link hlink tid htid hlive
    have hkept := @mem_tids_keptItems lib dead link.2 tid htid hlive
    refine ⟨(link.1, keptItems lib dead link.2), List.mem_filter.mpr ⟨?_, ?_⟩, hkept⟩
    · exact List.mem_map_of_mem (f := fun link : BlockNumber × Items =>
        (link.1, keptItems lib dead link.2)) hlink
    · cases hitems : keptItems lib dead link.2 with
      | nil =>
        rw [hitems] at hkept
        simp [Items.tids] at hkept
      | cons item items => rfl

/-- Between two stores only some posting leaves differ. -/
structure Store.AgreeOff (s t : Store) (blocks : List BlockNumber) : Prop where
  leaves : ∀ b, b ∉ blocks → t.postingLeaves b = s.postingLeaves b
  uppers : t.upperLeaves = s.upperLeaves
  free : t.freePages = s.freePages
  nBlocks : t.nBlocks = s.nBlocks

/-- A store agrees with itself. -/
theorem Store.AgreeOff.refl (s : Store) (blocks : List BlockNumber) : s.AgreeOff s blocks :=
  ⟨fun _ _ => rfl, rfl, rfl, rfl⟩

/-- Agreement composes. -/
theorem Store.AgreeOff.trans {s t u : Store} {blocks : List BlockNumber} (h : s.AgreeOff t blocks)
    (h' : t.AgreeOff u blocks) : s.AgreeOff u blocks :=
  ⟨fun b hb => (h'.leaves b hb).trans (h.leaves b hb), h'.uppers.trans h.uppers,
    h'.free.trans h.free, h'.nBlocks.trans h.nBlocks⟩

/-- Agreement off some blocks is agreement off more. -/
theorem Store.AgreeOff.mono {s t : Store} {blocks blocks' : List BlockNumber}
    (h : s.AgreeOff t blocks) (hsub : blocks ⊆ blocks') : s.AgreeOff t blocks' :=
  ⟨fun b hb => h.leaves b fun hmem => hb (hsub hmem), h.uppers, h.free, h.nBlocks⟩

/-- Setting a leaf changes that block only. -/
theorem Store.agreeOff_setLeaf (s : Store) (b : BlockNumber) (leaf : PostingLeafPage)
    {blocks : List BlockNumber} (hb : b ∈ blocks) : s.AgreeOff (s.setLeaf b leaf) blocks :=
  ⟨fun c hc => Store.setLeaf_of_ne (fun heq : c = b => hc (heq ▸ hb)) leaf, rfl, rfl, rfl⟩

/-- The leaves behind `p` in the second store are what is left of those behind it in the first
one. -/
def TailBecomes (lib : SparsemapLibrary) (s t : Store) (p : BlockNumber)
    (chain chain' : List (BlockNumber × Items)) : Prop :=
  s.AgreeOff t (p :: chain.map Prod.fst) ∧
    ∃ link, t.postingLeaves p = { s.postingLeaves p with rightLink := link } ∧
      ChainHolds lib t.postingLeaves link chain'

/-- The tail of a chain when an error ends the walk. -/
def TailStops (lib : SparsemapLibrary) (dead : ℕ → Bool) (tolerant : Bool) (s : Store)
    (p : BlockNumber) (chain : List (BlockNumber × Items)) (e : Stop) (t : Store) : Prop :=
  tolerant = true ∧ (∃ err, e = .error err) ∧
    ∃ chain', TailBecomes lib s t p chain chain' ∧ LosesNoLive dead chain chain'

/-- A chain left alone loses nothing. -/
theorem losesNoLive_refl (dead : ℕ → Bool) (chain : List (BlockNumber × Items)) :
    LosesNoLive dead chain chain :=
  ⟨List.Sublist.refl _, fun link hlink _ htid _ => ⟨link, hlink, htid⟩⟩

/-- A leaf that stays with its live TIDs. -/
theorem LosesNoLive.cons {chain chain' : List (BlockNumber × Items)} (h : LosesNoLive dead chain chain')
    (b : BlockNumber) {kept : Items}
    (hkept : ∀ tid ∈ items.tids, dead tid = false → tid ∈ kept.tids) :
    LosesNoLive dead ((b, items) :: chain) ((b, kept) :: chain') := by
  refine ⟨h.1.cons_cons b, fun link hlink tid htid hlive => ?_⟩
  rcases List.mem_cons.mp hlink with rfl | hlink
  · exact ⟨_, List.mem_cons_self, hkept tid htid hlive⟩
  · obtain ⟨link', hlink', hmem⟩ := h.2 link hlink tid htid hlive
    exact ⟨link', List.mem_cons_of_mem _ hlink', hmem⟩

/-- A leaf without live TIDs may go. -/
theorem LosesNoLive.drop {chain chain' : List (BlockNumber × Items)} (h : LosesNoLive dead chain chain')
    (b : BlockNumber) (hdead : ∀ tid ∈ items.tids, dead tid = true) :
    LosesNoLive dead ((b, items) :: chain) chain' := by
  refine ⟨h.1.cons b, fun link hlink tid htid hlive => ?_⟩
  rcases List.mem_cons.mp hlink with rfl | hlink
  · rw [hdead tid htid] at hlive
    cases hlive
  · exact h.2 link hlink tid htid hlive

/-- The leaf an unlinked leaf becomes: an empty waypoint that keeps its right link. -/
def deletedLeaf (lib : SparsemapLibrary) (rightLink : Option BlockNumber) : PostingLeafPage :=
  ⟨rightLink, 0, 0, lib.encode ∅, [], 0, 0, true⟩

/-- The predecessor takes over the right link. -/
theorem meets_postingLeafUnlink (lib : SparsemapLibrary) (s : Store) (p b : BlockNumber) :
    (postingLeafUnlink lib p b).Meets tolerant
      (fun _ t => t = (s.setLeaf p { s.postingLeaves p with
        rightLink := (s.postingLeaves b).rightLink }).setLeaf b
          (deletedLeaf lib (s.postingLeaves b).rightLink))
      (Untouched tolerant s) s :=
  meets_request_bind (meets_modify rfl) fun htolerant _ => meets_throw ⟨htolerant, ⟨_, rfl⟩, rfl⟩

section

variable {s t u : Store} {p b : BlockNumber} {rest chain' : List (BlockNumber × Items)} {kept : Items}

/-- A leaf behind `p` that stays. -/
theorem TailBecomes.cons {leaf : PostingLeafPage} (hp : p ∉ b :: rest.map Prod.fst)
    (hcur : (s.postingLeaves p).rightLink = some b) (hkept : LeafHolds lib leaf kept)
    (h : TailBecomes lib (s.setLeaf b leaf) t b rest chain') :
    TailBecomes lib s t p ((b, items) :: rest) ((b, kept) :: chain') := by
  obtain ⟨hagree, link, hb, hchain⟩ := h
  have hpb : p ≠ b := fun heq => hp (heq ▸ List.mem_cons_self)
  refine ⟨.trans (s.agreeOff_setLeaf b leaf (by simp)) (hagree.mono (List.subset_cons_self _ _)),
    some b, ?_, rfl, ?_, ?_⟩
  · rw [hagree.leaves p hp, Store.setLeaf_of_ne hpb, ← hcur]
  · rw [hb, Store.setLeaf_self]
    exact hkept.setLink link
  · rw [hb]
    exact hchain

/-- A leaf behind `p` that is taken out of the chain. -/
theorem TailBecomes.drop {link : Option BlockNumber}
    (hagree : s.AgreeOff u (p :: b :: rest.map Prod.fst))
    (hp : u.postingLeaves p = { s.postingLeaves p with rightLink := link })
    (h : TailBecomes lib u t p rest chain') :
    TailBecomes lib s t p ((b, items) :: rest) chain' := by
  obtain ⟨hagree', link', hp', hchain⟩ := h
  refine ⟨hagree.trans (hagree'.mono ?_), link', ?_, hchain⟩
  · intro c hc
    rcases List.mem_cons.mp hc with rfl | hc
    · exact List.mem_cons_self
    · exact List.mem_cons_of_mem _ (List.mem_cons_of_mem _ hc)
  · rw [hp', hp]

/-- The store behind an emptied leaf that is taken out of the chain. -/
theorem unlinked_spec {leaf gone : PostingLeafPage} (hp : p ∉ b :: rest.map Prod.fst)
    (hb : b ∉ rest.map Prod.fst)
    (hrest : ChainHolds lib (s.setLeaf b leaf).postingLeaves leaf.rightLink rest)
    (hu : u = ((s.setLeaf b leaf).setLeaf p
      { (s.setLeaf b leaf).postingLeaves p with rightLink := leaf.rightLink }).setLeaf b gone) :
    u.postingLeaves p = { s.postingLeaves p with rightLink := leaf.rightLink } ∧
      s.AgreeOff u (p :: b :: rest.map Prod.fst) ∧
      ChainHolds lib u.postingLeaves leaf.rightLink rest := by
  have hpb : p ≠ b := fun heq => hp (heq ▸ List.mem_cons_self)
  have hpRest : p ∉ rest.map Prod.fst := fun hmem => hp (List.mem_cons_of_mem _ hmem)
  refine ⟨?_, ?_, hrest.congr fun c hc => ?_⟩
  · rw [hu, Store.setLeaf_of_ne hpb, Store.setLeaf_self, Store.setLeaf_of_ne hpb]
  · rw [hu]
    refine .trans (s.agreeOff_setLeaf b leaf (by simp)) (.trans
      (Store.agreeOff_setLeaf _ p _ (by simp)) (Store.agreeOff_setLeaf _ b _ (by simp)))
  · have hcb : c ≠ b := fun heq => hb (heq ▸ hc)
    have hcp : c ≠ p := fun heq => hpRest (heq ▸ hc)
    rw [hu, Store.setLeaf_of_ne hcb, Store.setLeaf_of_ne hcp]

/-- Nothing has happened to the chain. -/
theorem TailBecomes.refl {chain : List (BlockNumber × Items)}
    (h : ChainHolds lib s.postingLeaves (s.postingLeaves p).rightLink chain) :
    TailBecomes lib s s p chain chain :=
  ⟨.refl s _, _, rfl, h⟩

end

/-- A leaf that keeps its link is followed by the chain it was followed by. -/
theorem ChainHolds.behind {s : Store} {b : BlockNumber} {leaf : PostingLeafPage}
    {rest : List (BlockNumber × Items)}
    (hrest : ChainHolds lib s.postingLeaves (s.postingLeaves b).rightLink rest)
    (hb : b ∉ rest.map Prod.fst) (hlink : leaf.rightLink = (s.postingLeaves b).rightLink) :
    ChainHolds lib (s.setLeaf b leaf).postingLeaves ((s.setLeaf b leaf).postingLeaves b).rightLink
      rest := by
  rw [Store.setLeaf_self, hlink]
  refine hrest.congr fun c hc => Store.setLeaf_of_ne ?_ leaf
  rintro rfl
  exact hb hc

/-- The walk behind a leaf that stays locked. -/
theorem meets_postingTreeDelete_tail (hlib : lib.Lawful) {chain : List (BlockNumber × Items)}
    {s : Store} {p : BlockNumber} {fuel : ℕ} (counts : VacuumCounts)
    (hchain : ChainHolds lib s.postingLeaves (s.postingLeaves p).rightLink chain)
    (hnodup : (p :: chain.map Prod.fst).Nodup) (hfuel : chain.length ≤ fuel) :
    (postingTreeDelete lib dead fuel (some p) (s.postingLeaves p).rightLink counts).Meets tolerant
      (fun r t => (r.removed = counts.removed + chainRemoved lib dead chain ∧
          r.remaining = counts.remaining + chainRemaining lib dead chain) ∧
        TailBecomes lib s t p chain (keptTail lib dead chain))
      (TailStops lib dead tolerant s p chain) s := by
  induction chain generalizing s p fuel counts with
  | nil =>
    have hnone : (s.postingLeaves p).rightLink = none := hchain
    rw [hnone]
    unfold postingTreeDelete
    exact meets_pure ⟨⟨rfl, rfl⟩, .refl hchain⟩
  | cons link rest ih =>
    obtain ⟨b, items⟩ := link
    have hbefore := TailBecomes.refl hchain
    obtain ⟨hcur, hleaf, hrest⟩ := hchain
    obtain ⟨hp, hnodup'⟩ := List.nodup_cons.mp hnodup
    obtain ⟨hb, hnodupRest⟩ := List.nodup_cons.mp hnodup'
    have hpb : p ≠ b := fun heq => hp (heq ▸ List.mem_cons_self)
    have hpRest : p ∉ rest.map Prod.fst := fun hmem => hp (List.mem_cons_of_mem _ hmem)
    obtain ⟨fuel, rfl⟩ : ∃ k, fuel = k + 1 := ⟨fuel - 1, by rw [List.length_cons] at hfuel; omega⟩
    have hfuel' : rest.length ≤ fuel := by simpa using hfuel
    rw [hcur, postingTreeDelete]
    refine meets_get_bind ?_
    simp only [hleaf.valid, Bool.true_eq_false, if_false]
    refine Meets.bind ((meets_postingLeafDelete hlib hleaf).mono (fun _ _ h => h) fun e t he => ?_)
      fun r t hr => ?_
    · obtain ⟨htolerant, herror, rfl⟩ := he
      exact ⟨htolerant, herror, _, hbefore, losesNoLive_refl dead _⟩
    obtain ⟨rfl, leaf, hkept, hlink, rfl⟩ := hr
    have hrest₁ := hrest.behind hb hlink
    have hlive : ∀ tid ∈ items.tids, dead tid = false → tid ∈ (keptItems lib dead items).tids :=
      fun tid htid hlive => mem_tids_keptItems htid hlive
    -- The leaf with its live TIDs, and the rest of the chain as it comes out.
    have hstay {t : Store} {chain' : List (BlockNumber × Items)}
        (h : TailBecomes lib (s.setLeaf b leaf) t b rest chain') :=
      @TailBecomes.cons _ items _ _ _ _ _ _ _ _ hp hcur hkept h
    by_cases hempty : (keptItems lib dead items).length = 0
    · have hnil : keptItems lib dead items = [] := List.eq_nil_of_length_eq_zero hempty
      have hdead : ∀ tid ∈ items.tids, dead tid = true := by
        intro tid htid
        by_contra hnot
        have hmem := hlive tid htid (by simpa using hnot)
        rw [hnil] at hmem
        simp [Items.tids] at hmem
      simp only [hempty, if_true]
      refine Meets.bind ((meets_postingLeafUnlink lib _ p b).mono (fun _ _ h => h) fun e t he => ?_)
        fun _ u hu => ?_
      · obtain ⟨htolerant, herror, rfl⟩ := he
        exact ⟨htolerant, herror, _, hstay (.refl hrest₁), (losesNoLive_refl dead rest).cons b hlive⟩
      · rw [Store.setLeaf_self] at hu hrest₁
        obtain ⟨hpu, hagree, hrestU⟩ := unlinked_spec hp hb hrest₁ hu
        have hright : (u.postingLeaves p).rightLink = leaf.rightLink := by
          rw [hpu]
        rw [← hright] at hrestU
        have hgo := ih { counts with
            removed := counts.removed + (items.length - 0)
            remaining := counts.remaining + 0
            pages := counts.pages + 1
            deleted := counts.deleted + 1 } hrestU (List.nodup_cons.mpr ⟨hpRest, hnodupRest⟩) hfuel'
        rw [hright, hlink] at hgo
        refine hgo.mono (fun r t hr => ?_) fun e t he => ?_
        · obtain ⟨⟨hremoved, hremaining⟩, hbecomes⟩ := hr
          refine ⟨⟨?_, ?_⟩, ?_⟩
          · rw [hremoved]
            simp [chainRemoved, hnil, Nat.add_assoc]
          · rw [hremaining]
            simp [chainRemaining, hnil]
          · have htail : keptTail lib dead ((b, items) :: rest) = keptTail lib dead rest := by
              simp [keptTail, hnil]
            rw [htail]
            exact hbecomes.drop hagree hpu
        · obtain ⟨htolerant, herror, chain', hbecomes, hloses⟩ := he
          exact ⟨htolerant, herror, chain', hbecomes.drop hagree hpu, hloses.drop b hdead⟩
    · simp only [if_neg hempty]
      have hgo := ih { counts with
          removed := counts.removed + (items.length - (keptItems lib dead items).length)
          remaining := counts.remaining + (keptItems lib dead items).length
          pages := counts.pages + 1 } hrest₁ hnodup' hfuel'
      rw [Store.setLeaf_self, hlink] at hgo
      refine hgo.mono (fun r t hr => ?_) fun e t he => ?_
      · obtain ⟨⟨hremoved, hremaining⟩, hbecomes⟩ := hr
        refine ⟨⟨?_, ?_⟩, ?_⟩
        · rw [hremoved]
          simp [chainRemoved, Nat.add_assoc]
        · rw [hremaining]
          simp [chainRemaining, Nat.add_assoc]
        · have htail : keptTail lib dead ((b, items) :: rest) =
              (b, keptItems lib dead items) :: keptTail lib dead rest := by
            have hsome : (keptItems lib dead items).isEmpty = false := by
              rw [List.isEmpty_eq_false_iff]
              exact fun hnil => hempty (by rw [hnil]; rfl)
            simp [keptTail, hsome]
          rw [htail]
          exact hstay hbecomes
      · obtain ⟨htolerant, herror, chain', hbecomes, hloses⟩ := he
        exact ⟨htolerant, herror, _, hstay hbecomes, hloses.cons b hlive⟩

/-! ## Whole chains -/

/-- The block a chain starts at. -/
def chainStart (chain : List (BlockNumber × Items)) : Option BlockNumber := chain.head?.map Prod.fst

/-- One chain has become another one. -/
def ChainBecomes (lib : SparsemapLibrary) (t : Store) (chain chain' : List (BlockNumber × Items)) :
    Prop :=
  chainStart chain' = chainStart chain ∧
    ChainHolds lib t.postingLeaves (chainStart chain') chain'

/-- A chain is the head and what is behind it. -/
theorem TailBecomes.chain {s t : Store} {b : BlockNumber} {rest rest' : List (BlockNumber × Items)}
    {kept : Items} (hb : LeafHolds lib (s.postingLeaves b) kept)
    (h : TailBecomes lib s t b rest rest') :
    ChainBecomes lib t ((b, items) :: rest) ((b, kept) :: rest') := by
  obtain ⟨-, link, hlink, hchain⟩ := h
  refine ⟨rfl, rfl, ?_, ?_⟩
  · rw [hlink]
    exact hb.setLink link
  · rw [hlink]
    exact hchain

/-- A walk over a chain ends with what is left of it. If memory runs out, then the chain still has
its live TIDs. -/
theorem meets_postingTreeDelete (hlib : lib.Lawful) {chain : List (BlockNumber × Items)} {s : Store}
    {fuel : ℕ} (counts : VacuumCounts)
    (hchain : ChainHolds lib s.postingLeaves (chainStart chain) chain)
    (hnodup : (chain.map Prod.fst).Nodup) (hfuel : chain.length ≤ fuel) :
    (postingTreeDelete lib dead fuel none (chainStart chain) counts).Meets tolerant
      (fun r t => (r.removed = counts.removed + chainRemoved lib dead chain ∧
          r.remaining = counts.remaining + chainRemaining lib dead chain) ∧
        s.AgreeOff t (chain.map Prod.fst) ∧ ChainBecomes lib t chain (keptChain lib dead chain))
      (fun e t => tolerant = true ∧ (∃ err, e = .error err) ∧ s.AgreeOff t (chain.map Prod.fst) ∧
        ∃ chain', ChainBecomes lib t chain chain' ∧ LosesNoLive dead chain chain') s := by
  cases chain with
  | nil =>
    unfold chainStart postingTreeDelete
    exact meets_pure ⟨⟨rfl, rfl⟩, .refl s _, rfl, rfl⟩
  | cons link rest =>
    obtain ⟨b, items⟩ := link
    have hbefore : ChainBecomes lib s ((b, items) :: rest) ((b, items) :: rest) := ⟨rfl, hchain⟩
    obtain ⟨-, hleaf, hrest⟩ := hchain
    obtain ⟨hb, -⟩ := List.nodup_cons.mp hnodup
    obtain ⟨fuel, rfl⟩ : ∃ k, fuel = k + 1 := ⟨fuel - 1, by rw [List.length_cons] at hfuel; omega⟩
    have hfuel' : rest.length ≤ fuel := by simpa using hfuel
    change (postingTreeDelete lib dead (fuel + 1) none (some b) counts).Meets tolerant _ _ s
    unfold postingTreeDelete
    refine meets_get_bind ?_
    simp only [hleaf.valid, Bool.true_eq_false, if_false]
    refine Meets.bind ((meets_postingLeafDelete hlib hleaf).mono (fun _ _ h => h) fun e t he => ?_)
      fun r t hr => ?_
    · obtain ⟨htolerant, herror, rfl⟩ := he
      exact ⟨htolerant, herror, .refl _ _, _, hbefore, losesNoLive_refl dead _⟩
    obtain ⟨rfl, leaf, hkept, hlink, rfl⟩ := hr
    have hrest₁ := hrest.behind hb hlink
    have hb₁ : LeafHolds lib ((s.setLeaf b leaf).postingLeaves b) (keptItems lib dead items) := by
      rw [Store.setLeaf_self]
      exact hkept
    have hset : s.AgreeOff (s.setLeaf b leaf) (b :: rest.map Prod.fst) :=
      s.agreeOff_setLeaf b leaf List.mem_cons_self
    have hgo := @meets_postingTreeDelete_tail lib dead tolerant hlib rest _ b fuel { counts with
        removed := counts.removed + (items.length - (keptItems lib dead items).length)
        remaining := counts.remaining + (keptItems lib dead items).length
        pages := counts.pages + 1 } hrest₁ hnodup hfuel'
    rw [Store.setLeaf_self, hlink] at hgo
    refine hgo.mono (fun r t hr => ?_) fun e t he => ?_
    · obtain ⟨⟨hremoved, hremaining⟩, hbecomes⟩ := hr
      refine ⟨⟨?_, ?_⟩, hset.trans hbecomes.1, hbecomes.chain hb₁⟩
      · rw [hremoved]
        simp [chainRemoved, Nat.add_assoc]
      · rw [hremaining]
        simp [chainRemaining, Nat.add_assoc]
    · obtain ⟨htolerant, herror, rest', hbecomes, hloses⟩ := he
      refine ⟨htolerant, herror, hset.trans hbecomes.1, _, hbecomes.chain hb₁,
        hloses.cons b fun tid htid hlive => mem_tids_keptItems htid hlive⟩

end

end PgTre.Bytes
