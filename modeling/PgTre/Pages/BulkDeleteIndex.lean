import PgTre.Pages.BulkDeleteLeaf
import Mathlib.Algebra.BigOperators.Group.Finset.Basic

/-!
# VACUUM of a whole index

VACUUM goes over the upper leaves of all runs, each of them once. After it every entry resolves to
what is left of its own posting. Upper leaves of two runs may refer to one chain: a base tree that was
registered as a run shares the postings that a later merge hands on. Such a chain is walked once for
every entry that refers to it, and the second walk finds nothing to remove.
-/

namespace PgTre.Bytes

open Allocating Procedure

section

variable {lib : SparsemapLibrary} {dead : ℕ → Bool} {tolerant : Bool}

/-! ## The index -/

/-- The upper leaves of an index resolve to postings. Two upper leaves may refer to one chain, but
chains that are not the same have no leaf in common. -/
structure IndexHolds (lib : SparsemapLibrary) (s : Store) (uppers : List BlockNumber)
    (contents : BlockNumber → List (UInt64 × Stored)) : Prop where
  entries : ∀ b ∈ uppers,
    EntriesHold lib s.postingLeaves (s.upperLeaves b).entries (s.upperLeaves b).region (contents b)
  ok : ∀ b ∈ uppers, ContentsOk s (contents b)
  apart : ∀ b ∈ uppers, ∀ b' ∈ uppers, b ≠ b' → ∀ c ∈ chainsOf (contents b),
    ∀ c' ∈ chainsOf (contents b'), c = c' ∨ (c.map Prod.fst).Disjoint (c'.map Prod.fst)
  free : s.FreeOk

/-- The TIDs of a posting, given those of the coalesced ones. -/
def Stored.tids (shared : Option BlockNumber → ℕ → Finset ℕ) : Stored → Finset ℕ
  | .inline _ items => items.tids
  | .coalesced block slot => shared block slot
  | .chain links => (links.flatMap fun link => link.2.map Prod.fst).toFinset

/-- An entry has the live TIDs it had. -/
def EntryKeeps (dead : ℕ → Bool) (c c' : UInt64 × Stored) : Prop :=
  c'.1 = c.1 ∧ ∀ shared, ∀ tid ∈ c.2.tids shared, dead tid = false → tid ∈ c'.2.tids shared

/-- An entry is kept by leaving it alone. -/
theorem entryKeeps_refl (dead : ℕ → Bool) (c : UInt64 × Stored) : EntryKeeps dead c c :=
  ⟨rfl, fun _ _ htid _ => htid⟩

/-- Every entry is kept by leaving them all alone. -/
theorem entryKeeps_refl_all (dead : ℕ → Bool) (contents : List (UInt64 × Stored)) :
    List.Forall₂ (EntryKeeps dead) contents contents :=
  List.forall₂_same.mpr fun c _ => entryKeeps_refl dead c

/-- A chain holds what its leaves hold. -/
theorem mem_tids_chain {links : Chain} {shared : Option BlockNumber → ℕ → Finset ℕ} {tid : ℕ} :
    tid ∈ (Stored.chain links).tids shared ↔ ∃ link ∈ links, tid ∈ link.2.tids := by
  simp only [Stored.tids, Items.tids, List.mem_toFinset, List.mem_flatMap]

/-- VACUUM takes no live TID out of a posting. -/
theorem EntryAfter.keeps {K : Chain → Chain → Prop} (hK : ∀ c c', K c c' → LosesNoLive dead c c')
    {c c' : UInt64 × Stored} (h : EntryAfter lib dead K c c') : EntryKeeps dead c c' := by
  obtain ⟨hash, stored⟩ := c
  obtain ⟨hash', stored'⟩ := c'
  obtain ⟨hhash, hstored⟩ := h
  have hlive {items : Items} {tid : ℕ} (htid : tid ∈ items.tids) (hdead : dead tid = false) :
      tid ∈ (items.live dead).tids := by
    obtain ⟨item, hitem, rfl⟩ := List.mem_map.mp (List.mem_toFinset.mp htid)
    refine List.mem_toFinset.mpr (List.mem_map_of_mem (List.mem_filter.mpr ⟨hitem, ?_⟩))
    rw [hdead]
    rfl
  refine ⟨hhash, fun shared tid htid hdead => ?_⟩
  cases hstored with
  | kept hbytes hfits => exact hlive htid hdead
  | migrated b hgrows hfits =>
    exact mem_tids_chain.mpr ⟨_, List.mem_singleton_self _, hlive htid hdead⟩
  | deferred hgrows hover => exact htid
  | coalesced block slot => exact htid
  | chain hlinks =>
    obtain ⟨link, hlink, hmem⟩ := mem_tids_chain.mp htid
    exact mem_tids_chain.mpr ((hK _ _ hlinks).2 link hlink tid hmem hdead)

/-! ## A chain in several upper leaves -/

/-- A posting whose chain has become another one. -/
def Stored.onChain (f : Chain → Chain) : Stored → Stored
  | .inline bytes items => .inline bytes items
  | .coalesced block slot => .coalesced block slot
  | .chain links => .chain (f links)

/-- Some postings whose chains have become others. -/
def onChains (f : Chain → Chain) (contents : List (UInt64 × Stored)) : List (UInt64 × Stored) :=
  contents.map fun c => (c.1, c.2.onChain f)

/-- What becomes of the chains of an upper leaf, wherever else they are referred to. -/
def elsewhere (chains : List Chain) (g : Chain → Chain) (c : Chain) : Chain :=
  if c ∈ chains then g c else c

/-- What an index holds after one upper leaf was visited. -/
def afterVisit (contents : BlockNumber → List (UInt64 × Stored)) (b : BlockNumber)
    (contents₂ : List (UInt64 × Stored)) (g : Chain → Chain) : BlockNumber → List (UInt64 × Stored) :=
  Function.update (fun b' => onChains (elsewhere (chainsOf (contents b)) g) (contents b')) b contents₂

section

variable {f g : Chain → Chain} {contents : List (UInt64 × Stored)} {c : Chain}

/-- Working on the chains leaves the list of chains worked on. -/
theorem chainsOf_onChains (f : Chain → Chain) (contents : List (UInt64 × Stored)) :
    chainsOf (onChains f contents) = (chainsOf contents).map f := by
  induction contents with
  | nil => rfl
  | cons c contents ih =>
    unfold chainsOf onChains at ih ⊢
    rw [List.map_cons, List.flatMap_cons, List.flatMap_cons, List.map_append, ih]
    rcases c with ⟨hash, _ | _ | links⟩ <;> rfl

/-- Chains that become shorter are on some of the blocks. -/
theorem blocksOf_map_sublist {chains : List Chain}
    (hf : ∀ c ∈ chains, ((f c).map Prod.fst).Sublist (c.map Prod.fst)) :
    (blocksOf (chains.map f)).Sublist (blocksOf chains) := by
  induction chains with
  | nil => exact List.Sublist.refl _
  | cons c chains ih =>
    have hhead := hf c List.mem_cons_self
    exact hhead.append (ih fun d hd => hf d (List.mem_cons_of_mem _ hd))

/-- The entries resolve to the chains that those there were have become. -/
theorem EntriesHold.onChains {leaves : BlockNumber → PostingLeafPage} {t : Store}
    {entries : List UpperLeafEntry} {region : List UInt8}
    (h : EntriesHold lib leaves entries region contents)
    (hf : ∀ c ∈ chainsOf contents, ChainBecomes lib t c (f c)) :
    EntriesHold lib t.postingLeaves entries region (onChains f contents) := by
  induction entries generalizing region contents with
  | nil =>
    cases contents with
    | nil => trivial
    | cons c contents => exact h.elim
  | cons e entries ih =>
    cases contents with
    | nil => exact h.elim
    | cons c contents =>
      obtain ⟨hhash, hlen, hentry, hrest⟩ := entriesHold_cons.mp h
      have hcons : chainsOf (c :: contents) = chainsOf [c] ++ chainsOf contents := by
        simp [chainsOf]
      rw [hcons] at hf
      refine ⟨hhash, hlen, ?_, ih hrest fun d hd => hf d (List.mem_append_right _ hd)⟩
      obtain ⟨hash, stored⟩ := c
      cases stored with
      | inline bytes items => exact hentry
      | coalesced block slot => exact hentry
      | chain links =>
        obtain ⟨hzero, hroot, -⟩ := hentry
        have hbecomes := hf links (List.mem_append_left _ (List.mem_singleton_self _))
        exact ⟨hzero, hroot.trans hbecomes.1.symm, hbecomes.2⟩

/-- The block of a chain is one of those of the upper leaf. -/
theorem mem_chainBlocks {b : BlockNumber} :
    b ∈ chainBlocks contents ↔ ∃ c ∈ chainsOf contents, b ∈ c.map Prod.fst := by
  rw [← blocksOf_chainsOf, blocksOf, List.mem_flatMap]

/-- The chains of an upper leaf after it was visited: those there were, and new ones. -/
theorem chainsOf_walked {s : Store} {K : Chain → Chain → Prop} {contents₂ : List (UInt64 × Stored)}
    (h : List.Forall₂ (EntryWalked lib dead K s) contents contents₂)
    (hK : ∀ c c', K c c' → c' = g c) :
    (∀ c ∈ chainsOf contents, g c ∈ chainsOf contents₂) ∧
      ∀ c ∈ chainsOf contents₂, (∃ d ∈ chainsOf contents, c = g d) ∨
        ∀ b ∈ c.map Prod.fst, ¬s.Used b := by
  induction h with
  | nil => exact ⟨fun c hc => (by cases hc), fun c hc => (by cases hc)⟩
  | @cons c c₂ contents contents₂ hhead _ ih =>
    obtain ⟨hthere, hback⟩ := ih
    obtain ⟨hash, stored⟩ := c
    obtain ⟨hash₂, stored₂⟩ := c₂
    obtain ⟨⟨-, hstored⟩, hblocks⟩ := hhead
    have hold : ∀ links c, c ∈ chainsOf contents₂ →
        (∃ d ∈ links ++ chainsOf contents, c = g d) ∨ ∀ b ∈ c.map Prod.fst, ¬s.Used b := by
      intro links c hc
      refine (hback c hc).imp_left ?_
      rintro ⟨d, hd, rfl⟩
      exact ⟨d, List.mem_append_right _ hd, rfl⟩
    cases hstored with
    | kept hbytes hfits => exact ⟨hthere, hold []⟩
    | deferred hgrows hover => exact ⟨hthere, hold []⟩
    | coalesced block slot => exact ⟨hthere, hold []⟩
    | migrated b hgrows hfits =>
      refine ⟨fun d hd => List.mem_cons_of_mem _ (hthere d hd), fun d hd => ?_⟩
      rcases List.mem_cons.mp hd with rfl | hd
      · exact Or.inr fun b' hb' => (hblocks b' hb').resolve_left List.not_mem_nil
      · exact hold [] d hd
    | @chain links links₂ hlinks =>
      obtain rfl := hK _ _ hlinks
      refine ⟨fun d hd => ?_, fun d hd => ?_⟩
      · rcases List.mem_cons.mp hd with rfl | hd
        · exact List.mem_cons_self
        · exact List.mem_cons_of_mem _ (hthere d hd)
      · rcases List.mem_cons.mp hd with rfl | hd
        · exact Or.inl ⟨links, List.mem_cons_self, rfl⟩
        · exact hold [links] d hd

end

/-! ## The number of TIDs -/

/-- The number of TIDs in the inline postings. -/
def contentsInlineSize (contents : List (UInt64 × Stored)) : ℕ :=
  (contents.map fun c => c.2.size - c.2.leafSize).sum

/-- The leaves of the chains of an upper leaf. -/
def linksOf (contents : List (UInt64 × Stored)) : Finset (BlockNumber × Items) :=
  (chainsOf contents).flatten.toFinset

/-- The number of TIDs in the inline postings and the posting leaves of some upper leaves, where a leaf
that several entries refer to counts once. -/
def storedSize (contents : BlockNumber → List (UInt64 × Stored)) (uppers : List BlockNumber) : ℕ :=
  ∑ b ∈ uppers.toFinset, contentsInlineSize (contents b) +
    ∑ link ∈ uppers.toFinset.biUnion fun b => linksOf (contents b), link.2.length

section

variable {contents contents₂ : List (UInt64 × Stored)} {s : Store}

/-- The size of the contents is that of the inline postings and that of the leaves. -/
theorem contentsSize_eq (contents : List (UInt64 × Stored)) :
    contentsSize contents = contentsInlineSize contents + contentsLeafSize contents := by
  induction contents with
  | nil => rfl
  | cons c contents ih =>
    have hle : c.2.leafSize ≤ c.2.size := by
      rcases c with ⟨hash, _ | _ | links⟩
      · exact Nat.zero_le _
      · exact le_rfl
      · exact le_rfl
    simp only [contentsSize, contentsInlineSize, contentsLeafSize, List.map_cons, List.sum_cons] at ih ⊢
    omega

/-- The inline postings do not change with the chains. -/
theorem contentsInlineSize_onChains (f : Chain → Chain) (contents : List (UInt64 × Stored)) :
    contentsInlineSize (onChains f contents) = contentsInlineSize contents := by
  unfold contentsInlineSize onChains
  rw [List.map_map]
  congr 1
  apply List.map_congr_left
  rintro ⟨hash, _ | _ | links⟩ -
  · rfl
  · rfl
  · exact (Nat.sub_self _).trans (Nat.sub_self _).symm

/-- The leaves of an upper leaf's chains are different ones. -/
theorem sum_linksOf (h : (chainBlocks contents).Nodup) :
    ∑ link ∈ linksOf contents, link.2.length = contentsLeafSize contents := by
  have hblocks : (chainsOf contents).flatten.map Prod.fst = chainBlocks contents := by
    rw [← blocksOf_chainsOf, blocksOf, List.map_flatten, List.flatMap_def]
  have hnodup : (chainsOf contents).flatten.Nodup := by
    rw [← hblocks] at h
    exact h.of_map
  rw [linksOf, List.sum_toFinset _ hnodup]
  clear h hblocks hnodup
  induction contents with
  | nil => rfl
  | cons c contents ih =>
    unfold contentsLeafSize at ih ⊢
    rw [List.map_cons, List.sum_cons, ← ih]
    rcases c with ⟨hash, _ | _ | links⟩
    · exact (Nat.zero_add _).symm
    · exact (Nat.zero_add _).symm
    · change ((links :: chainsOf contents).flatten.map _).sum = _
      rw [List.flatten_cons, List.map_append, List.sum_append]
      rfl

/-- The links of the contents are those of their chains. -/
theorem mem_linksOf {link : BlockNumber × Items} :
    link ∈ linksOf contents ↔ ∃ c ∈ chainsOf contents, link ∈ c := by
  rw [linksOf, List.mem_toFinset, List.mem_flatten]

end

section

variable {s t : Store} {uppers : List BlockNumber} {contents : BlockNumber → List (UInt64 × Stored)}
  {contents₂ : List (UInt64 × Stored)} {g : Chain → Chain} {b : BlockNumber}

/-- After a visit the page visited has its new contents. -/
theorem afterVisit_self : afterVisit contents b contents₂ g b = contents₂ := Function.update_self _ _ _

/-- After a visit the other pages differ in the shared chains only. -/
theorem afterVisit_of_ne {b' : BlockNumber} (h : b' ≠ b) : afterVisit contents b contents₂ g b' =
    onChains (elsewhere (chainsOf (contents b)) g) (contents b') :=
  Function.update_of_ne h _ _

/-- The chains elsewhere lose blocks only. -/
theorem elsewhere_sublist (hg : ∀ c ∈ chainsOf (contents b),
    ((g c).map Prod.fst).Sublist (c.map Prod.fst))
    (c : Chain) : ((elsewhere (chainsOf (contents b)) g c).map Prod.fst).Sublist (c.map Prod.fst) := by
  unfold elsewhere
  split_ifs with hc
  · exact hg c hc
  · exact List.Sublist.refl _

/-- New pages do not change the index. -/
theorem IndexHolds.grows (h : IndexHolds lib s uppers contents) (hgrows : s.Grows t) :
    IndexHolds lib t uppers contents := by
  refine ⟨fun b hb => ?_, fun b hb => (h.ok b hb).grows hgrows, h.apart, hgrows.free h.free⟩
  rw [hgrows.uppers]
  exact (h.entries b hb).congr fun c hc => hgrows.leaves c ((h.ok b hb).used c hc)

/-- A chain of another upper leaf is one of this leaf's chains, or has no leaf in common with them. -/
theorem IndexHolds.disjoint (h : IndexHolds lib s uppers contents) (hb : b ∈ uppers) {b' : BlockNumber}
    (hb' : b' ∈ uppers) (hne : b' ≠ b) {c d : Chain} (hc : c ∈ chainsOf (contents b'))
    (hnot : c ∉ chainsOf (contents b)) (hd : d ∈ chainsOf (contents b)) :
    (c.map Prod.fst).Disjoint (d.map Prod.fst) :=
  (h.apart b' hb' b hb hne c hc d hd).resolve_left fun heq => hnot (heq ▸ hd)

/-- The chains of an upper leaf after a visit, against what another upper leaf has then. -/
theorem IndexHolds.apart_afterVisit (h : IndexHolds lib s uppers contents) (hb : b ∈ uppers)
    (hchains : ∀ c ∈ chainsOf contents₂, (∃ d ∈ chainsOf (contents b), c = g d) ∨
      ∀ b' ∈ c.map Prod.fst, ¬s.Used b')
    (hg : ∀ c ∈ chainsOf (contents b), ((g c).map Prod.fst).Sublist (c.map Prod.fst))
    {b' : BlockNumber} (hb' : b' ∈ uppers) (hne : b' ≠ b) {c d : Chain} (hc : c ∈ chainsOf contents₂)
    (hd : d ∈ chainsOf (contents b')) :
    c = elsewhere (chainsOf (contents b)) g d ∨
      (c.map Prod.fst).Disjoint ((elsewhere (chainsOf (contents b)) g d).map Prod.fst) := by
  have hsub := elsewhere_sublist hg d
  rcases hchains c hc with ⟨c₀, hc₀, rfl⟩ | hnew
  · rcases h.apart b hb b' hb' hne.symm c₀ hc₀ d hd with rfl | hapart
    · exact Or.inl (by rw [elsewhere, if_pos hc₀])
    · exact Or.inr fun k hk hk' => hapart ((hg c₀ hc₀).mem hk) (hsub.mem hk')
  · refine Or.inr fun k hk hk' => hnew k hk ((h.ok b' hb').used k ?_)
    exact mem_chainBlocks.mpr ⟨d, hd, hsub.mem hk'⟩

/-- One upper leaf and its chains have changed. -/
theorem IndexHolds.update (h : IndexHolds lib s uppers contents) (hb : b ∈ uppers)
    {page : UpperLeafPage} (hupper : t.upperLeaves = Function.update s.upperLeaves b page)
    (hentries : EntriesHold lib t.postingLeaves page.entries page.region contents₂)
    (hok : ContentsOk t contents₂)
    (hchains : ∀ c ∈ chainsOf contents₂, (∃ d ∈ chainsOf (contents b), c = g d) ∨
      ∀ b' ∈ c.map Prod.fst, ¬s.Used b')
    (hbecomes : ∀ c ∈ chainsOf (contents b), ChainBecomes lib t c (g c))
    (hg : ∀ c ∈ chainsOf (contents b), ((g c).map Prod.fst).Sublist (c.map Prod.fst))
    (hothers : ∀ c, s.Used c → c ∉ chainBlocks (contents b) → t.postingLeaves c = s.postingLeaves c)
    (hused : ∀ c, s.Used c → t.Used c) (hfree : t.FreeOk) :
    IndexHolds lib t uppers (afterVisit contents b contents₂ g) := by
  have hpair := @IndexHolds.apart_afterVisit lib s uppers contents contents₂ g b h hb hchains hg
  refine ⟨fun b' hb' => ?_, fun b' hb' => ?_, fun b₁ hb₁ b₂ hb₂ hne c₁ hc₁ c₂ hc₂ => ?_, hfree⟩
  · rw [hupper]
    by_cases heq : b' = b
    · rw [heq, Function.update_self, afterVisit_self]
      exact hentries
    · rw [Function.update_of_ne heq, afterVisit_of_ne heq]
      refine (h.entries b' hb').onChains fun c hc => ?_
      unfold elsewhere
      split_ifs with hmem
      · exact hbecomes c hmem
      · refine ⟨rfl, ((h.entries b' hb').postingRoots_eq.2 c hc).congr fun k hk => ?_⟩
        refine hothers k ((h.ok b' hb').used k (mem_chainBlocks.mpr ⟨c, hc, hk⟩)) fun hk' => ?_
        obtain ⟨d, hd, hkd⟩ := mem_chainBlocks.mp hk'
        exact h.disjoint hb hb' heq hc hmem hd hk hkd
  · by_cases heq : b' = b
    · rw [heq, afterVisit_self]
      exact hok
    · rw [afterVisit_of_ne heq]
      have hsub := @blocksOf_map_sublist (elsewhere (chainsOf (contents b)) g) (chainsOf (contents b'))
        fun c _ => elsewhere_sublist hg c
      rw [← chainsOf_onChains, blocksOf_chainsOf, blocksOf_chainsOf] at hsub
      exact ⟨(h.ok b' hb').nodup.sublist hsub, fun c hc => hused c ((h.ok b' hb').used c (hsub.mem hc))⟩
  · by_cases heq₁ : b₁ = b
    · have hne₂ : b₂ ≠ b := fun heq => hne (heq₁.trans heq.symm)
      rw [heq₁, afterVisit_self] at hc₁
      rw [afterVisit_of_ne hne₂, chainsOf_onChains] at hc₂
      obtain ⟨d₂, hd₂, rfl⟩ := List.mem_map.mp hc₂
      exact hpair hb₂ hne₂ hc₁ hd₂
    · rw [afterVisit_of_ne heq₁, chainsOf_onChains] at hc₁
      obtain ⟨d₁, hd₁, rfl⟩ := List.mem_map.mp hc₁
      by_cases heq₂ : b₂ = b
      · rw [heq₂, afterVisit_self] at hc₂
        exact (hpair hb₁ heq₁ hc₂ hd₁).imp Eq.symm List.Disjoint.symm
      · rw [afterVisit_of_ne heq₂, chainsOf_onChains] at hc₂
        obtain ⟨d₂, hd₂, rfl⟩ := List.mem_map.mp hc₂
        refine (h.apart b₁ hb₁ b₂ hb₂ hne d₁ hd₁ d₂ hd₂).imp (congrArg _) fun hapart k hk hk' => ?_
        exact hapart ((elsewhere_sublist hg d₁).mem hk) ((elsewhere_sublist hg d₂).mem hk')

/-- A visit changes the number of TIDs by what it changes in the upper leaf it is at. -/
theorem storedSize_afterVisit (h : IndexHolds lib s uppers contents) (hb : b ∈ uppers)
    (hnodup : (chainBlocks contents₂).Nodup)
    (hall : ∀ c ∈ chainsOf (contents b), g c ∈ chainsOf contents₂)
    (hchains : ∀ c ∈ chainsOf contents₂, (∃ d ∈ chainsOf (contents b), c = g d) ∨
      ∀ b' ∈ c.map Prod.fst, ¬s.Used b')
    (hg : ∀ c ∈ chainsOf (contents b), ((g c).map Prod.fst).Sublist (c.map Prod.fst)) :
    storedSize (afterVisit contents b contents₂ g) uppers + contentsSize (contents b) =
      storedSize contents uppers + contentsSize contents₂ := by
  have hmem := List.mem_toFinset.mpr hb
  -- The leaves of the chains that only others refer to.
  obtain ⟨others, hothers⟩ : ∃ others, others =
      (uppers.toFinset.biUnion fun b' => linksOf (contents b')) \ linksOf (contents b) := ⟨_, rfl⟩
  have hother : ∀ link, link ∈ others ↔ ∃ b' ∈ uppers, b' ≠ b ∧ ∃ c ∈ chainsOf (contents b'),
      c ∉ chainsOf (contents b) ∧ link ∈ c := by
    intro link
    rw [hothers, Finset.mem_sdiff, Finset.mem_biUnion]
    constructor
    · rintro ⟨⟨b', hb', hlink⟩, hnot⟩
      obtain ⟨c, hc, hlink⟩ := mem_linksOf.mp hlink
      have hne : c ∉ chainsOf (contents b) := fun hmem => hnot (mem_linksOf.mpr ⟨c, hmem, hlink⟩)
      exact ⟨b', List.mem_toFinset.mp hb', fun heq => hne (heq ▸ hc), c, hc, hne, hlink⟩
    · rintro ⟨b', hb', hne, c, hc, hnot, hlink⟩
      refine ⟨⟨b', List.mem_toFinset.mpr hb', mem_linksOf.mpr ⟨c, hc, hlink⟩⟩, fun hmem => ?_⟩
      obtain ⟨d, hd, hlink'⟩ := mem_linksOf.mp hmem
      exact h.disjoint hb hb' hne hc hnot hd (List.mem_map_of_mem hlink) (List.mem_map_of_mem hlink')
  have hbefore : (uppers.toFinset.biUnion fun b' => linksOf (contents b')) =
      linksOf (contents b) ∪ others := by
    rw [hothers, Finset.union_sdiff_of_subset
      (Finset.subset_biUnion_of_mem (fun b' => linksOf (contents b')) hmem)]
  have hafter : (uppers.toFinset.biUnion fun b' => linksOf (afterVisit contents b contents₂ g b')) =
      linksOf contents₂ ∪ others := by
    ext link
    rw [Finset.mem_biUnion, Finset.mem_union, hother]
    constructor
    · rintro ⟨b', hb', hlink⟩
      by_cases heq : b' = b
      · rw [heq, afterVisit_self] at hlink
        exact Or.inl hlink
      · rw [afterVisit_of_ne heq, mem_linksOf, chainsOf_onChains] at hlink
        obtain ⟨c', hc', hlink⟩ := hlink
        obtain ⟨c, hc, rfl⟩ := List.mem_map.mp hc'
        unfold elsewhere at hlink
        split_ifs at hlink with hin
        · exact Or.inl (mem_linksOf.mpr ⟨g c, hall c hin, hlink⟩)
        · exact Or.inr ⟨b', List.mem_toFinset.mp hb', heq, c, hc, hin, hlink⟩
    · rintro (hlink | ⟨b', hb', hne, c, hc, hnot, hlink⟩)
      · exact ⟨b, hmem, by rwa [afterVisit_self]⟩
      · refine ⟨b', List.mem_toFinset.mpr hb', ?_⟩
        rw [afterVisit_of_ne hne, mem_linksOf, chainsOf_onChains]
        exact ⟨c, List.mem_map.mpr ⟨c, hc, by rw [elsewhere, if_neg hnot]⟩, hlink⟩
  have hdisjoint : Disjoint (linksOf contents₂) others := by
    rw [Finset.disjoint_left]
    intro link hlink hlink'
    obtain ⟨c, hc, hin⟩ := mem_linksOf.mp hlink
    obtain ⟨b', hb', hne, d, hd, hnot, hin'⟩ := (hother link).mp hlink'
    have hfst := List.mem_map_of_mem (f := Prod.fst) hin
    have hfst' := List.mem_map_of_mem (f := Prod.fst) hin'
    rcases hchains c hc with ⟨c₀, hc₀, rfl⟩ | hnew
    · exact h.disjoint hb hb' hne hd hnot hc₀ hfst' ((hg c₀ hc₀).mem hfst)
    · exact hnew _ hfst ((h.ok b' hb').used _ (mem_chainBlocks.mpr ⟨d, hd, hfst'⟩))
  have hdisjoint₀ : Disjoint (linksOf (contents b)) others := by
    rw [hothers]
    exact Finset.disjoint_sdiff
  have hinline : ∑ b' ∈ uppers.toFinset, contentsInlineSize (afterVisit contents b contents₂ g b') +
      contentsInlineSize (contents b) =
        ∑ b' ∈ uppers.toFinset, contentsInlineSize (contents b') + contentsInlineSize contents₂ := by
    rw [← Finset.add_sum_erase _ _ hmem,
      ← Finset.add_sum_erase _ (fun b' => contentsInlineSize (contents b'))
      hmem, afterVisit_self]
    have hsame : ∀ b' ∈ uppers.toFinset.erase b,
        contentsInlineSize (afterVisit contents b contents₂ g b') =
        contentsInlineSize (contents b') := by
      intro b' hb'
      rw [afterVisit_of_ne (Finset.ne_of_mem_erase hb'), contentsInlineSize_onChains]
    rw [Finset.sum_congr rfl hsame]
    omega
  have hleaves₀ := sum_linksOf (h.ok b hb).nodup
  have hleaves₂ := sum_linksOf hnodup
  unfold storedSize
  rw [hbefore, hafter, Finset.sum_union hdisjoint, Finset.sum_union hdisjoint₀, hleaves₀, hleaves₂,
    contentsSize_eq, contentsSize_eq]
  omega

/-! ## One upper leaf -/

/-- The walk over a chain leaves what is left of it. -/
def Kept (lib : SparsemapLibrary) (dead : ℕ → Bool) (c c' : Chain) : Prop :=
  c' = keptChain lib dead c

/-- An error after which the index still has its live TIDs. -/
def IndexStops (lib : SparsemapLibrary) (dead : ℕ → Bool) (tolerant : Bool)
    (uppers : List BlockNumber) (contents : BlockNumber → List (UInt64 × Stored)) (e : Stop)
    (t : Store) : Prop :=
  tolerant = true ∧ (∃ err, e = .error err) ∧ ∃ contents', IndexHolds lib t uppers contents' ∧
    ∀ b, List.Forall₂ (EntryKeeps dead) (contents b) (contents' b)

/-- The chain of an upper leaf that is visited has become another one. -/
def BecomesBy (g : Chain → Chain) (chains : List Chain) (c c' : Chain) : Prop := c ∈ chains ∧ c' = g c

/-- The upper leaf after its chains were walked. -/
theorem IndexHolds.walked (h : IndexHolds lib s uppers contents) (hb : b ∈ uppers)
    {u : Store} {page : UpperLeafPage} {contents₁ : List (UInt64 × Stored)}
    (hrepacked : Repacked lib dead s u (contents b) contents₁)
    (hholds : EntriesHold lib u.postingLeaves page.entries page.region contents₁)
    (hg : ∀ c ∈ chainsOf (contents b), LosesNoLive dead c (g c))
    (hagree : (u.setUpper b page).AgreeOff t (chainBlocks (contents b)))
    (hbecomes : ∀ c ∈ chainsOf (contents b), ChainBecomes lib t c (g c)) :
    ∃ contents₂, IndexHolds lib t uppers (afterVisit contents b contents₂ g) ∧
      List.Forall₂ (EntryAfter lib dead (BecomesBy g (chainsOf (contents b)))) (contents b) contents₂ ∧
      storedSize (afterVisit contents b contents₂ g) uppers + contentsSize (contents b) =
        storedSize contents uppers + contentsSize contents₂ ∧
      ∀ removed : Chain → ℕ,
        (∀ c ∈ chainsOf (contents b), chainSize (g c) + removed c = chainSize c) →
        contentsSize contents₂ + ((chainsOf (contents b)).map removed).sum =
          contentsSize contents₁ := by
  have hsublist : ∀ c ∈ chainsOf (contents b), ((g c).map Prod.fst).Sublist (c.map Prod.fst) :=
    fun c hc => (hg c hc).1
  obtain ⟨contents₂, hholds₂, hafter, hsub, hsize⟩ := @EntriesHold.walked lib dead s u t
    (BecomesBy g (chainsOf (contents b))) _ _ _ _ _ hholds hrepacked.after
    (fun c hc => ⟨g c, hbecomes c hc, hc, rfl⟩) (fun c c' hc => hc.2 ▸ hsublist c hc.1) (h.ok b hb).used
    hagree.leaves
  obtain ⟨hall, hchains⟩ := chainsOf_walked hafter fun c c' hc => hc.2
  have hused : ∀ c, u.Used c → t.Used c := by
    intro c hc
    unfold Store.Used
    rw [hagree.nBlocks, hagree.free]
    exact hc
  have hnodup := hrepacked.ok.nodup.sublist hsub
  have hindex : IndexHolds lib t uppers (afterVisit contents b contents₂ g) := by
    refine h.update hb ?_ hholds₂ ⟨hnodup, ?_⟩ hchains hbecomes hsublist ?_ ?_ ?_
    · rw [hagree.uppers, Store.setUpper, hrepacked.grows.uppers]
    · exact fun c hc => hused c (hrepacked.ok.used c (hsub.mem hc))
    · intro c hc hnot
      rw [hagree.leaves c hnot]
      exact hrepacked.grows.leaves c hc
    · exact fun c hc => hused c (hrepacked.grows.used c hc)
    · have hfree := hrepacked.grows.free h.free
      exact ⟨hagree.free ▸ hfree.nodup, hagree.nBlocks ▸ hagree.free ▸ hfree.lt⟩
  refine ⟨contents₂, hindex, hafter.imp fun c c' hc => hc.1,
    storedSize_afterVisit h hb hnodup hall hchains hsublist, fun removed hremoved => ?_⟩
  exact hsize removed fun c c' hc => hc.2 ▸ hremoved c hc.1

/-- The entries of other upper leaves keep their live TIDs. -/
theorem entryKeeps_onChains (hg : ∀ c ∈ chainsOf (contents b), LosesNoLive dead c (g c))
    (c : UInt64 × Stored) :
    EntryKeeps dead c (c.1, c.2.onChain (elsewhere (chainsOf (contents b)) g)) := by
  obtain ⟨hash, stored⟩ := c
  cases stored with
  | inline bytes items => exact entryKeeps_refl dead _
  | coalesced block slot => exact entryKeeps_refl dead _
  | chain links =>
    refine ⟨rfl, fun shared tid htid hlive => ?_⟩
    change tid ∈ (Stored.chain (elsewhere (chainsOf (contents b)) g links)).tids shared
    unfold elsewhere
    split_ifs with hin
    · obtain ⟨link, hlink, hmem⟩ := mem_tids_chain.mp htid
      exact mem_tids_chain.mpr ((hg links hin).2 link hlink tid hmem hlive)
    · exact htid

/-- One upper leaf of the index. -/
theorem meets_walkUpperLeaf (hlib : lib.Lawful) (h : IndexHolds lib s uppers contents)
    (hb : b ∈ uppers) (counts : VacuumCounts) :
    (walkUpperLeaf lib dead b counts).Meets tolerant
      (fun r t => ∃ contents₂,
        IndexHolds lib t uppers (afterVisit contents b contents₂ (keptChain lib dead)) ∧
        List.Forall₂ (EntryAfter lib dead (Kept lib dead)) (contents b) contents₂ ∧
        r.removed + storedSize (afterVisit contents b contents₂ (keptChain lib dead)) uppers =
          counts.removed + storedSize contents uppers ∧
        r.remaining = counts.remaining + contentsSize contents₂)
      (IndexStops lib dead tolerant uppers contents) s := by
  have hok := h.ok b hb
  obtain ⟨hroots, hchains⟩ := (h.entries b hb).postingRoots_eq
  unfold walkUpperLeaf
  refine meets_get_bind ?_
  rw [hroots]
  refine Meets.bind ((meets_postingLeafInlineDelete hlib h.free hok (h.entries b hb)).mono
    (fun _ _ hr => hr) fun e t he => ?_) fun r t hr => ?_
  · exact ⟨he.1, he.2.1, contents, h.grows he.2.2, fun b => entryKeeps_refl_all dead _⟩
  obtain ⟨u, page, contents₁, hrepacked, hholds, rfl, hremoved, hremaining⟩ := hr
  have hnodup : (blocksOf (chainsOf (contents b))).Nodup := by
    rw [blocksOf_chainsOf]
    exact hok.nodup
  have hused : ∀ c ∈ blocksOf (chainsOf (contents b)), s.Used c := by
    rw [blocksOf_chainsOf]
    exact hok.used
  have hchains' : ∀ c ∈ chainsOf (contents b),
      ChainHolds lib (u.setUpper b page).postingLeaves (chainStart c) c := by
    intro c hc
    refine (hchains c hc).congr fun d hd => hrepacked.grows.leaves d (hused d ?_)
    exact List.mem_flatMap.mpr ⟨c, hc, hd⟩
  refine (meets_deleteFromTrees hlib _ hchains' hnodup
    fun c hc => (hrepacked.grows.used c (hused c hc)).1).mono (fun r' t hr' => ?_) fun e t he => ?_
  · obtain ⟨⟨hremoved', hremaining'⟩, hagree, hbecomes⟩ := hr'
    rw [blocksOf_chainsOf] at hagree
    obtain ⟨contents₂, hindex, hafter, hstored, hsize⟩ :=
      h.walked (g := keptChain lib dead) hb hrepacked
      hholds (fun c _ => losesNoLive_keptChain c) hagree hbecomes
    have hlost := hsize (chainRemoved lib dead) fun c _ => by
      rw [chainSize_keptChain, Nat.add_comm]
      exact chainRemoved_add_chainRemaining lib dead c
    have hleaves := sum_chainRemoved_add_sum_chainRemaining lib dead (contents b)
    simp only at hremoved' hremaining' hremoved hremaining
    exact ⟨contents₂, hindex, hafter.imp fun c c' hc => hc.mono fun _ _ hK => hK.2, by omega, by omega⟩
  · obtain ⟨htolerant, herror, hagree, hbecomes⟩ := he
    rw [blocksOf_chainsOf] at hagree
    choose! g hg using hbecomes
    obtain ⟨contents₂, hindex, hafter, -⟩ := h.walked hb hrepacked hholds
      (fun c hc => (hg c hc).2) hagree fun c hc => (hg c hc).1
    refine ⟨htolerant, herror, _, hindex, fun b' => ?_⟩
    by_cases heq : b' = b
    · rw [heq, afterVisit_self]
      exact hafter.imp fun c c' hc => hc.keeps fun c c' hK => hK.2 ▸ (hg c hK.1).2
    · rw [afterVisit_of_ne heq, onChains, List.forall₂_map_right_iff]
      exact List.forall₂_same.mpr fun c _ => entryKeeps_onChains (fun c hc => (hg c hc).2) c

/-! ## Visits one after the other -/

/-- What is kept of some TIDs is kept again. -/
theorem keptItems_keptItems (lib : SparsemapLibrary) (dead : ℕ → Bool) (items : Items) :
    keptItems lib dead (keptItems lib dead items) = keptItems lib dead items := by
  by_cases hover : postingLeafBudget < (freshBytes lib (items.live dead)).length
  · have hkept : keptItems lib dead items = items := if_pos hover
    rw [hkept, hkept]
  · have hkept : keptItems lib dead items = items.live dead := if_neg hover
    rw [hkept]
    exact keptItems_live lib dead items

/-- A chain that was walked is left alone by the next walk. -/
theorem keptChain_keptChain (lib : SparsemapLibrary) (dead : ℕ → Bool) (chain : Chain) :
    keptChain lib dead (keptChain lib dead chain) = keptChain lib dead chain := by
  have htail : ∀ rest : Chain, keptTail lib dead (keptTail lib dead rest) = keptTail lib dead rest := by
    intro rest
    induction rest with
    | nil => rfl
    | cons link rest ih =>
      have hcons : ∀ (l : BlockNumber × Items) (r : Chain), keptTail lib dead (l :: r) =
          if (keptItems lib dead l.2).isEmpty then keptTail lib dead r
          else (l.1, keptItems lib dead l.2) :: keptTail lib dead r := by
        intro l r
        cases hkept : keptItems lib dead l.2 <;> simp [keptTail, hkept]
      rw [hcons]
      split_ifs with hempty
      · exact ih
      · rw [hcons, keptItems_keptItems, if_neg hempty, ih]
  cases chain with
  | nil => rfl
  | cons link rest => rw [keptChain, keptChain, keptItems_keptItems, htail]

/-- What a posting of a leaf that is not visited itself becomes: its chain may have been walked. -/
def Settled (lib : SparsemapLibrary) (dead : ℕ → Bool) (c c' : UInt64 × Stored) : Prop :=
  c'.1 = c.1 ∧ (c'.2 = c.2 ∨
    ∃ links, c.2 = .chain links ∧ c'.2 = .chain (keptChain lib dead links))

/-- Settling composes. -/
theorem Settled.trans {a b c : UInt64 × Stored} (h : Settled lib dead a b) (h' : Settled lib dead b c) :
    Settled lib dead a c := by
  refine ⟨h'.1.trans h.1, ?_⟩
  have hstored := h'.2
  rcases h.2 with heq | ⟨links, ha, hb⟩
  · rw [heq] at hstored
    exact hstored
  · rcases hstored with heq | ⟨links', hb', hc⟩
    · exact Or.inr ⟨links, ha, heq.trans hb⟩
    · obtain rfl : keptChain lib dead links = links' := Stored.chain.inj (hb.symm.trans hb')
      exact Or.inr ⟨links, ha, by rw [hc, keptChain_keptChain]⟩

/-- A posting whose chain was walked already is visited. -/
theorem Settled.after {a b c : UInt64 × Stored} (h : Settled lib dead a b)
    (h' : EntryAfter lib dead (Kept lib dead) b c) : EntryAfter lib dead (Kept lib dead) a c := by
  obtain ⟨hash, stored⟩ := c
  obtain ⟨hhash, hstored⟩ := h'
  refine ⟨hhash.trans h.1, ?_⟩
  rcases h.2 with heq | ⟨links, ha, hb⟩
  · rw [← heq]
    exact hstored
  · rw [hb] at hstored
    rw [ha]
    simp only at hstored ⊢
    cases hstored with
    | chain hlinks =>
      have hkept : _ = keptChain lib dead _ := hlinks
      rw [keptChain_keptChain] at hkept
      exact .chain hkept

/-- A posting that was visited is left alone when its chain is walked again. -/
theorem EntryAfter.settled {a b c : UInt64 × Stored} (h : EntryAfter lib dead (Kept lib dead) a b)
    (h' : Settled lib dead b c) : c = b := by
  refine Prod.ext h'.1 ?_
  rcases h'.2 with heq | ⟨links, hb, hc⟩
  · exact heq
  · rw [hc, hb]
    congr 1
    have hstored := h.2
    rw [hb] at hstored
    generalize a.2 = stored at hstored
    cases hstored with
    | migrated blk hgrows hfits =>
      have hkept := keptItems_live lib dead
      rw [keptChain, hkept]
      rfl
    | chain hlinks =>
      have hkept : links = keptChain lib dead _ := hlinks
      rw [hkept, keptChain_keptChain]

/-- Entry by entry, a leaf that was visited stays as it is. -/
theorem eq_of_settled {a b c : List (UInt64 × Stored)}
    (h : List.Forall₂ (EntryAfter lib dead (Kept lib dead)) a b)
    (h' : List.Forall₂ (Settled lib dead) b c) : c = b := by
  induction h generalizing c with
  | nil =>
    cases h'
    rfl
  | cons hhead _ ih =>
    cases h' with
    | cons hhead' hrest' => rw [hhead.settled hhead', ih hrest']

/-- What has settled is kept. -/
theorem Settled.keeps {c c' : UInt64 × Stored} (h : Settled lib dead c c') : EntryKeeps dead c c' := by
  obtain ⟨hash, stored⟩ := c
  obtain ⟨hash', stored'⟩ := c'
  obtain ⟨rfl, rfl | ⟨links, rfl, rfl⟩⟩ := h
  · exact entryKeeps_refl dead _
  · refine @EntryAfter.keeps lib dead (Kept lib dead) ?_ _ _ ⟨rfl, .chain rfl⟩
    exact fun _ _ hkept => hkept ▸ losesNoLive_keptChain _

/-- The other pages settle with the page visited. -/
theorem settled_onChains (chains : List Chain) (contents : List (UInt64 × Stored)) :
    List.Forall₂ (Settled lib dead) contents
      (onChains (elsewhere chains (keptChain lib dead)) contents) := by
  rw [onChains, List.forall₂_map_right_iff]
  refine List.forall₂_same.mpr fun c _ => ⟨rfl, ?_⟩
  obtain ⟨hash, stored⟩ := c
  cases stored with
  | inline bytes items => exact Or.inl rfl
  | coalesced block slot => exact Or.inl rfl
  | chain links =>
    by_cases hin : links ∈ chains
    · exact Or.inr ⟨links, rfl, by simp only [Stored.onChain, elsewhere, if_pos hin]⟩
    · exact Or.inl (by simp only [Stored.onChain, elsewhere, if_neg hin])

/-- Entry by entry, one change and then another. -/
theorem forall₂_comp {α : Type} {R S T : α → α → Prop} {l₁ l₂ l₃ : List α}
    (hcomp : ∀ a b c, R a b → S b c → T a c) (h : List.Forall₂ R l₁ l₂) (h' : List.Forall₂ S l₂ l₃) :
    List.Forall₂ T l₁ l₃ := by
  induction h generalizing l₃ with
  | nil =>
    cases h'
    exact .nil
  | cons hhead _ ih =>
    cases h' with
    | cons hhead' hrest' => exact .cons (hcomp _ _ _ hhead hhead') (ih hrest')

/-! ## All runs -/

mutual

/-- The upper leaves of a tree. -/
def UpperNode.leaves : UpperNode → List BlockNumber
  | .leaf blkno => [blkno]
  | .internal children => leavesOfChildren children

/-- The upper leaves of some trees. -/
def leavesOfChildren : List UpperNode → List BlockNumber
  | [] => []
  | child :: children => child.leaves ++ leavesOfChildren children

end

/-- The upper leaves of the runs behind the ones seen. Runs may share a root. -/
def leavesOfRuns (trees : BlockNumber → UpperNode) :
    List (Option BlockNumber) → List BlockNumber → List BlockNumber
  | [], _ => []
  | none :: runs, seen => leavesOfRuns trees runs seen
  | some root :: runs, seen =>
      if root ∈ seen then leavesOfRuns trees runs seen
      else (trees root).leaves ++ leavesOfRuns trees runs (seen ++ [root])

/-- The number of TIDs in the inline postings and the posting leaves of some upper leaves, where a leaf
counts for every entry that refers to it. -/
def indexSize (contents : BlockNumber → List (UInt64 × Stored)) (uppers : List BlockNumber) : ℕ :=
  (uppers.map fun b => contentsSize (contents b)).sum

/-- Some upper leaves of an index were visited. -/
def IndexBecomes (lib : SparsemapLibrary) (dead : ℕ → Bool) (uppers : List BlockNumber)
    (contents : BlockNumber → List (UInt64 × Stored)) (visited : List BlockNumber)
    (counts r : VacuumCounts) (t : Store) : Prop :=
  ∃ contents', IndexHolds lib t uppers contents' ∧
    (∀ b ∈ visited, List.Forall₂ (EntryAfter lib dead (Kept lib dead)) (contents b) (contents' b)) ∧
    (∀ b, b ∉ visited → List.Forall₂ (Settled lib dead) (contents b) (contents' b)) ∧
    r.removed + storedSize contents' uppers = counts.removed + storedSize contents uppers ∧
    r.remaining = counts.remaining + indexSize contents' visited

/-- Keeping composes. -/
theorem EntryKeeps.trans {a b c : UInt64 × Stored} (h : EntryKeeps dead a b)
    (h' : EntryKeeps dead b c) : EntryKeeps dead a c :=
  ⟨h'.1.trans h.1, fun shared tid htid hlive => h'.2 shared tid (h.2 shared tid htid hlive) hlive⟩

/-- Every leaf has its live TIDs. -/
theorem IndexBecomes.keeps {visited : List BlockNumber}
    {contents' : BlockNumber → List (UInt64 × Stored)}
    (hvisited : ∀ b ∈ visited,
      List.Forall₂ (EntryAfter lib dead (Kept lib dead)) (contents b) (contents' b))
    (hothers : ∀ b, b ∉ visited → List.Forall₂ (Settled lib dead) (contents b) (contents' b))
    (b : BlockNumber) : List.Forall₂ (EntryKeeps dead) (contents b) (contents' b) := by
  by_cases hb : b ∈ visited
  · exact (hvisited b hb).imp fun c c' hc => hc.keeps fun _ _ hkept => hkept ▸ losesNoLive_keptChain _
  · exact (hothers b hb).imp fun c c' hc => hc.keeps

/-- Some leaves are visited, and then others. -/
theorem IndexBecomes.bind {visited visited' : List BlockNumber} {counts : VacuumCounts}
    {m : Vacuuming VacuumCounts} {f : VacuumCounts → Vacuuming VacuumCounts}
    (hm : m.Meets tolerant (IndexBecomes lib dead uppers contents visited counts)
      (IndexStops lib dead tolerant uppers contents) s)
    (hf : ∀ contents r t, IndexHolds lib t uppers contents →
      (f r).Meets tolerant (IndexBecomes lib dead uppers contents visited' r)
        (IndexStops lib dead tolerant uppers contents) t)
    (hapart : visited.Disjoint visited') :
    (m >>= f).Meets tolerant (IndexBecomes lib dead uppers contents (visited ++ visited') counts)
      (IndexStops lib dead tolerant uppers contents) s := by
  refine Meets.bind hm fun r t hr => ?_
  obtain ⟨contents₁, hindex, hvisited, hothers, hremoved, hremaining⟩ := hr
  refine (hf contents₁ r t hindex).mono (fun r' u hr' => ?_) fun e u he => ?_
  · obtain ⟨contents₂, hindex₂, hvisited₂, hothers₂, hremoved₂, hremaining₂⟩ := hr'
    -- What is visited first is not changed by the walks over the others' chains.
    have hfirst : ∀ b ∈ visited, contents₂ b = contents₁ b := by
      intro b hb
      exact eq_of_settled (hvisited b hb) (hothers₂ b (hapart hb))
    have hsize₂ : indexSize contents₂ visited = indexSize contents₁ visited := by
      unfold indexSize
      rw [List.map_congr_left fun b hb => by rw [hfirst b hb]]
    refine ⟨contents₂, hindex₂, fun b hb => ?_, fun b hb => ?_, by omega, ?_⟩
    · by_cases hin : b ∈ visited
      · rw [hfirst b hin]
        exact hvisited b hin
      · have hb' := (List.mem_append.mp hb).resolve_left hin
        exact forall₂_comp (fun _ _ _ h h' => h.after h') (hothers b hin) (hvisited₂ b hb')
    · have hnot : b ∉ visited ∧ b ∉ visited' := by simpa using hb
      exact forall₂_comp (fun _ _ _ h h' => h.trans h') (hothers b hnot.1) (hothers₂ b hnot.2)
    · have happend : indexSize contents₂ (visited ++ visited') =
          indexSize contents₂ visited + indexSize contents₂ visited' := by
        simp only [indexSize, List.map_append, List.sum_append]
      rw [happend]
      omega
  · obtain ⟨htolerant, herror, contents₂, hindex₂, hkeeps⟩ := he
    exact ⟨htolerant, herror, contents₂, hindex₂, fun b =>
      forall₂_comp (fun _ _ _ h h' => h.trans h') (IndexBecomes.keeps hvisited hothers b) (hkeeps b)⟩

/-- Nothing was visited. -/
theorem IndexBecomes.nil (h : IndexHolds lib s uppers contents) (counts : VacuumCounts) :
    IndexBecomes lib dead uppers contents [] counts counts s :=
  ⟨contents, h, fun b hb => (by cases hb),
    fun _ _ => List.forall₂_same.mpr fun _ _ => ⟨rfl, Or.inl rfl⟩, rfl, rfl⟩

mutual

/-- The walk over a tree visits its leaves. -/
theorem meets_postingUpperWalk (hlib : lib.Lawful) (node : UpperNode)
    (hsub : node.leaves ⊆ uppers) (hnodup : node.leaves.Nodup)
    (contents : BlockNumber → List (UInt64 × Stored)) (counts : VacuumCounts) (s : Store)
    (h : IndexHolds lib s uppers contents) :
    (postingUpperWalk lib dead node counts).Meets tolerant
      (IndexBecomes lib dead uppers contents node.leaves counts)
      (IndexStops lib dead tolerant uppers contents) s := by
  cases node with
  | leaf b =>
    unfold UpperNode.leaves at hsub ⊢
    unfold postingUpperWalk
    refine (meets_walkUpperLeaf hlib h (hsub (List.mem_singleton_self b)) counts).mono
      (fun r t hr => ?_) fun _ _ he => he
    obtain ⟨contents₂, hindex, hafter, hremoved, hremaining⟩ := hr
    refine ⟨_, hindex, fun c hc => ?_, fun c hc => ?_, hremoved, ?_⟩
    · rw [List.mem_singleton.mp hc, afterVisit_self]
      exact hafter
    · rw [afterVisit_of_ne fun heq => hc (List.mem_singleton.mpr heq)]
      exact settled_onChains _ _
    · simpa [indexSize, afterVisit_self] using hremaining
  | internal children =>
    unfold UpperNode.leaves at hsub hnodup ⊢
    unfold postingUpperWalk
    exact meets_walkChildren hlib children hsub hnodup contents counts s h

/-- The walk over some trees visits their leaves. -/
theorem meets_walkChildren (hlib : lib.Lawful) (children : List UpperNode)
    (hsub : leavesOfChildren children ⊆ uppers) (hnodup : (leavesOfChildren children).Nodup)
    (contents : BlockNumber → List (UInt64 × Stored)) (counts : VacuumCounts) (s : Store)
    (h : IndexHolds lib s uppers contents) :
    (walkChildren lib dead children counts).Meets tolerant
      (IndexBecomes lib dead uppers contents (leavesOfChildren children) counts)
      (IndexStops lib dead tolerant uppers contents) s := by
  cases children with
  | nil =>
    unfold walkChildren leavesOfChildren
    exact meets_pure (.nil h counts)
  | cons child children =>
    unfold leavesOfChildren at hsub hnodup ⊢
    unfold walkChildren
    have hsubs := List.append_subset.mp hsub
    obtain ⟨hchild, hchildren, hapart⟩ := List.nodup_append.mp hnodup
    exact IndexBecomes.bind
      (meets_postingUpperWalk hlib child hsubs.1 hchild contents counts s h)
      (fun contents r t h => meets_walkChildren hlib children hsubs.2 hchildren contents r t h)
      fun b hb hb' => hapart b hb b hb' rfl

end

/-- The loop over the runs visits the leaves of each root once. -/
theorem meets_deleteFromRuns (hlib : lib.Lawful) {trees : BlockNumber → UpperNode}
    {runs : List (Option BlockNumber)} {seen : List BlockNumber} (counts : VacuumCounts)
    (hsub : leavesOfRuns trees runs seen ⊆ uppers) (hnodup : (leavesOfRuns trees runs seen).Nodup)
    (h : IndexHolds lib s uppers contents) :
    (deleteFromRuns lib dead trees runs seen counts).Meets tolerant
      (IndexBecomes lib dead uppers contents (leavesOfRuns trees runs seen) counts)
      (IndexStops lib dead tolerant uppers contents) s := by
  induction runs generalizing seen counts contents s with
  | nil =>
    unfold deleteFromRuns leavesOfRuns
    exact meets_pure (.nil h counts)
  | cons run runs ih =>
    cases run with
    | none => exact ih counts hsub hnodup h
    | some root =>
      unfold leavesOfRuns at hsub hnodup ⊢
      unfold deleteFromRuns
      by_cases hseen : root ∈ seen
      · simp only [if_pos hseen] at hsub hnodup ⊢
        exact ih counts hsub hnodup h
      · simp only [if_neg hseen] at hsub hnodup ⊢
        have hsubs := List.append_subset.mp hsub
        obtain ⟨hroot, hruns, hapart⟩ := List.nodup_append.mp hnodup
        exact IndexBecomes.bind
          (meets_postingUpperWalk hlib (trees root) hsubs.1 hroot contents counts s h)
          (fun contents r t h => ih r hsubs.2 hruns h)
          fun b hb hb' => hapart b hb b hb' rfl

/-- Where no two upper leaves refer to one chain, both ways of counting say the same. -/
theorem storedSize_eq_indexSize (hnodup : uppers.Nodup)
    (h : (uppers.flatMap fun b => chainBlocks (contents b)).Nodup) :
    storedSize contents uppers = indexSize contents uppers := by
  have hblocks := List.nodup_flatMap.mp h
  have hdisjoint : (uppers.toFinset : Set BlockNumber).PairwiseDisjoint fun b =>
      linksOf (contents b) := by
    intro b hb b' hb' hne
    rw [Function.onFun, Finset.disjoint_left]
    intro link hlink hlink'
    obtain ⟨c, hc, hin⟩ := mem_linksOf.mp hlink
    obtain ⟨c', hc', hin'⟩ := mem_linksOf.mp hlink'
    have : Std.Symm (Function.onFun List.Disjoint fun b => chainBlocks (contents b)) :=
      ⟨fun _ _ hapart => hapart.symm⟩
    have hpair := hblocks.2.forall (List.mem_toFinset.mp hb) (List.mem_toFinset.mp hb') hne
    exact hpair (mem_chainBlocks.mpr ⟨c, hc, List.mem_map_of_mem hin⟩)
      (mem_chainBlocks.mpr ⟨c', hc', List.mem_map_of_mem hin'⟩)
  rw [storedSize, Finset.sum_biUnion hdisjoint, ← Finset.sum_add_distrib, List.sum_toFinset _ hnodup,
    indexSize]
  congr 1
  apply List.map_congr_left
  intro b hb
  rw [sum_linksOf (hblocks.1 b hb), contentsSize_eq]

end

end

end PgTre.Bytes
