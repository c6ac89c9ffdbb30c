import PgTre.Pages.SparsemapLibrary
import PgTre.Pages.WalRecords
import Mathlib.Tactic.SplitIfs

/-!
# What replay brings back

The comment in `pg_tre_run_catalog_rewrite` says why a fresh page is registered with
`GENERIC_XLOG_FULL_IMAGE`: its buffer has been initialized, so that a record of the differences says
nothing of the header and the trailer. The run catalog and the pending list do so, the other writers
do not. What they write comes back from the log only if storage happens to hold the same empty page.
-/

namespace PgTre

open Sparsemap ImageDelta Bytes

/-! ## Recovery -/

/-- Replaying the log on storage brings back the buffers. Blocks past the end are zeros. -/
structure WalState.Recovered (base : BlockNumber → PageImage) (st : WalState) : Prop where
  replayed : replay base st.log = st.buffers
  fresh : ∀ b, st.nblocks ≤ b → st.buffers b = zeroImage

/-- The pages that can be reused were never written, or they are empty. -/
def WalState.BlankOffers (st : WalState) (offers : List (BlockNumber × Bool)) : Prop :=
  ∀ o ∈ offers, (st.buffers o.1).unclaimed = true →
    st.buffers o.1 = zeroImage ∨ ∃ kind, st.buffers o.1 = initImage kind

/-- The blocks that a call holds when it takes a page. -/
def PageWriter.holds : PageWriter → List BlockNumber
  | .surfChunk prev _ _ => prev.toList
  | .freeLogAppendChunk _ _ => [0]
  | _ => []

/-- The kind of the page that a call takes and registers without `GENERIC_XLOG_FULL_IMAGE`. -/
def PageWriter.takes (st : WalState) : PageWriter → Option PageTreKind
  | .writeSingleLeaf leaf =>
      if postingLeafBudget < leaf.data.length + leaf.payload.length then none
      else some .pagePostingL
  | .coalescedPage [] => none
  | .coalescedPage (blob :: _) =>
      match coalescedCheck blob with
      | .error _ => none
      | .ok () => some .pagePostingCoalesced
  | .upperFlushLeaf entries _ => if entries = [] then none else some .pageUpperL
  | .upperInternal entries => if entries = [] then none else some .pageUpper
  | .surfChunk _ _ _ => some .pageSurf
  | .freeLogAppendChunk _ _ =>
      match st.freeLogHead with
      | some (some _, _) => some .pageFreeLog
      | _ => none
  | _ => none

/-- A call takes no page without `GENERIC_XLOG_FULL_IMAGE`, or it takes a recycled one that is an
empty page of the same kind already. Coalesced pages are filled before they are registered. -/
def PageWriter.Logged (writer : PageWriter) (held : List BlockNumber)
    (offers : List (BlockNumber × Bool)) (st : WalState) : Prop :=
  ∀ kind ∈ writer.takes st, kind ≠ .pagePostingCoalesced ∧
    st.buffers (st.taken (writer.holds ++ held) offers) = initImage kind

variable {base : BlockNumber → PageImage} {st : WalState} {held : List BlockNumber}
  {offers : List (BlockNumber × Bool)}

/-! ## Blocks -/

/-- A block on offer is taken if nobody holds it and its page is unclaimed. -/
theorem WalState.takeOffer_spec {b : BlockNumber} (h : st.takeOffer held offers = some b) :
    (∃ peer, (b, peer) ∈ offers) ∧ b ∉ held ∧ b < st.nblocks ∧ (st.buffers b).unclaimed = true := by
  induction offers with
  | nil => cases h
  | cons o offers ih =>
    obtain ⟨c, peer⟩ := o
    rw [WalState.takeOffer] at h
    split_ifs at h with hskip hclaim
    · obtain ⟨⟨p, hmem⟩, hrest⟩ := ih h
      exact ⟨⟨p, List.mem_cons_of_mem _ hmem⟩, hrest⟩
    · cases h
      obtain ⟨-, hheld, hlt⟩ := not_or.mp hskip |>.imp_right not_or.mp
      exact ⟨⟨peer, List.mem_cons_self⟩, hheld, not_le.mp hlt, hclaim⟩
    · obtain ⟨⟨p, hmem⟩, hrest⟩ := ih h
      exact ⟨⟨p, List.mem_cons_of_mem _ hmem⟩, hrest⟩

/-- The page that is taken was never written, or it is empty. -/
theorem WalState.Recovered.taken_blank (hst : st.Recovered base) (held : List BlockNumber)
    (hoffers : st.BlankOffers offers) :
    st.buffers (st.taken held offers) = zeroImage ∨
      ∃ kind, st.buffers (st.taken held offers) = initImage kind := by
  unfold WalState.taken
  cases htake : st.takeOffer held offers with
  | none => exact .inl (hst.fresh _ le_rfl)
  | some b =>
    obtain ⟨⟨peer, hmem⟩, -, -, hclaim⟩ := WalState.takeOffer_spec htake
    exact hoffers (b, peer) hmem hclaim

/-- A block of the index that is held is not taken. -/
theorem WalState.taken_ne {b : BlockNumber} (hb : b < st.nblocks) (hheld : b ∈ held) :
    st.taken held offers ≠ b := by
  unfold WalState.taken
  cases htake : st.takeOffer held offers with
  | none => exact hb.ne'
  | some c =>
    obtain ⟨-, hnot, -, -⟩ := WalState.takeOffer_spec htake
    rintro rfl
    exact hnot hheld

/-! ## Records -/

/-- A record is enough if it is enough for each of its blocks, and nothing else has changed. -/
theorem WalState.finish_recovered_iff {st₁ : WalState}
    {regs : List (BlockNumber × Registered (Fin blcksz) UInt8)} (hst : st.Recovered base)
    (hlog : st₁.log = st.log) (hfresh : ∀ b, st₁.nblocks ≤ b →
      regs.lookup b = none ∧ st₁.buffers b = zeroImage) :
    (st₁.finish regs).Recovered base ↔
      (∀ b r, regs.lookup b = some r → r.Enough (st₁.buffers b) (st.buffers b)) ∧
        ∀ b, regs.lookup b = none → st.buffers b = st₁.buffers b := by
  have hreplay : replay base (st₁.finish regs).log = (st₁.finish regs).buffers ↔
      (∀ b r, regs.lookup b = some r → r.Enough (st₁.buffers b) (st.buffers b)) ∧
        ∀ b, regs.lookup b = none → st.buffers b = st₁.buffers b := by
    rw [← redo_eq_newBuffers_iff, ← hst.replayed, ← hlog, ← replay_append]
    rfl
  constructor
  · intro h
    exact hreplay.mp h.replayed
  · intro h
    refine ⟨hreplay.mpr h, ?_⟩
    intro b hb
    obtain ⟨hnone, hzero⟩ := hfresh b hb
    change newBuffers st₁.buffers (regs.lookup ·) b = zeroImage
    simp only [newBuffers, hnone, Option.elim_none]
    exact hzero

/-- A page is claimed in its buffer and registered there with other blocks that have not changed.
The record has to be enough for the page. -/
theorem WalState.finish_claimed_iff {st₁ : WalState} {b : BlockNumber} {image : PageImage}
    {regs : List (BlockNumber × Registered (Fin blcksz) UInt8)} {r : Registered (Fin blcksz) UInt8}
    (hst : st.Recovered base) (hbuffers : st₁.buffers = Function.update st.buffers b image)
    (hlog : st₁.log = st.log) (hgrow : st.nblocks ≤ st₁.nblocks) (hb : b < st₁.nblocks)
    (hregs : ∀ c, st₁.nblocks ≤ c → regs.lookup c = none) (hr : regs.lookup b = some r) :
    (st₁.finish regs).Recovered base ↔ r.Enough image (st.buffers b) := by
  have hother : ∀ c, c ≠ b → st₁.buffers c = st.buffers c := fun c hc => by
    rw [hbuffers, Function.update_of_ne hc]
  have hself : st₁.buffers b = image := by rw [hbuffers, Function.update_self]
  rw [WalState.finish_recovered_iff hst hlog]
  · constructor
    · rintro ⟨henough, -⟩
      exact hself ▸ henough b r hr
    · intro h
      constructor
      · intro c r' hr'
        by_cases hc : c = b
        · subst hc
          cases hr.symm.trans hr'
          exact hself.symm ▸ h
        · rw [hother c hc]
          exact .inr fun _ hi => hi
      · intro c hc
        have hne : c ≠ b := by
          rintro rfl
          rw [hr] at hc
          cases hc
        exact (hother c hne).symm
  · intro c hc
    have hne : c ≠ b := (hb.trans_le hc).ne'
    exact ⟨hregs c hc, (hother c hne).trans (hst.fresh c (hgrow.trans hc))⟩

/-- A record of blocks that are in the index and have not changed is enough. -/
theorem WalState.Recovered.finish (hst : st.Recovered base)
    {regs : List (BlockNumber × Registered (Fin blcksz) UInt8)}
    (hregs : ∀ c, st.nblocks ≤ c → regs.lookup c = none) : (st.finish regs).Recovered base := by
  rw [WalState.finish_recovered_iff hst rfl fun c hc => ⟨hregs c hc, hst.fresh c hc⟩]
  exact ⟨fun _ _ _ => .inr fun _ hi => hi, fun _ _ => rfl⟩

/-- The block taken is one of the extended file. -/
theorem WalState.taken_lt_extend (kind : PageTreKind) :
    st.taken held offers < (st.extend held kind offers).nblocks :=
  Nat.lt_of_lt_of_le (Nat.lt_succ_self _) (le_max_right _ _)

/-- `finish_claimed_iff` for `pg_tre_extend`. -/
theorem WalState.extend_finish_iff {kind : PageTreKind}
    {regs : List (BlockNumber × Registered (Fin blcksz) UInt8)} {r : Registered (Fin blcksz) UInt8}
    (hst : st.Recovered base)
    (hregs : ∀ c, st.nblocks ≤ c → c ≠ st.taken held offers → regs.lookup c = none)
    (hr : regs.lookup (st.taken held offers) = some r) :
    ((st.extend held kind offers).finish regs).Recovered base ↔
      r.Enough (initImage kind) (st.buffers (st.taken held offers)) := by
  refine WalState.finish_claimed_iff hst rfl rfl (le_max_left _ _)
    (WalState.taken_lt_extend kind) ?_ hr
  intro c hc
  exact hregs c ((le_max_left _ _).trans hc) ((WalState.taken_lt_extend kind).trans_le hc).ne'

/-! ## Empty pages -/

/-- The high byte of `pd_special`. -/
theorem StoredPage.image_special (page : StoredPage) (pdUpper : ℕ) :
    page.image pdUpper ⟨17, by decide⟩ = 31 := by
  rfl

/-- The kind of a page in its trailer. -/
theorem StoredPage.image_kind (page : StoredPage) (pdUpper : ℕ) :
    page.image pdUpper ⟨8184, by decide⟩ = UInt8.ofNat page.kind.number := by
  rfl

/-- What a page keeps of the empty page of its kind. -/
theorem initImage_special (page : StoredPage) (pdUpper : ℕ) :
    initImage page.kind ⟨17, by decide⟩ = page.image pdUpper ⟨17, by decide⟩ := by
  rw [initImage, StoredPage.image_special, StoredPage.image_special]

/-- Initialising writes the kind's bytes. -/
theorem initImage_kind (page : StoredPage) (pdUpper : ℕ) :
    initImage page.kind ⟨8184, by decide⟩ = page.image pdUpper ⟨8184, by decide⟩ := by
  rw [initImage, StoredPage.image_kind, StoredPage.image_kind]
  rfl

/-- Two kinds with one number are one. -/
theorem PageTreKind.number_injective {kind kind' : PageTreKind}
    (h : UInt8.ofNat kind.number = UInt8.ofNat kind'.number) : kind = kind' := by
  cases kind <;> cases kind' <;> first | rfl | (exact absurd h (by decide))

/-- Storage has what a page keeps of the empty page if it has the empty page. -/
theorem StoredPage.kept_iff {page : StoredPage} {pdUpper : ℕ} {stored : PageImage}
    (hstored : stored = zeroImage ∨ ∃ kind, stored = initImage kind) :
    (∀ i, initImage page.kind i = page.image pdUpper i → stored i = page.image pdUpper i) ↔
      stored = initImage page.kind := by
  constructor
  · intro h
    obtain rfl | ⟨kind, rfl⟩ := hstored
    · have hspecial := h ⟨17, by decide⟩ (initImage_special page pdUpper)
      rw [StoredPage.image_special] at hspecial
      cases hspecial
    · have hkind := h ⟨8184, by decide⟩ (initImage_kind page pdUpper)
      rw [StoredPage.image_kind, initImage, StoredPage.image_kind] at hkind
      exact congrArg initImage (PageTreKind.number_injective hkind)
  · rintro rfl i hi
    exact hi

/-- Storage has what a page on the block taken keeps of the empty page. -/
def WalState.Kept (st : WalState) (held : List BlockNumber) (offers : List (BlockNumber × Bool))
    (page : StoredPage) (pdUpper : ℕ) : Prop :=
  ∀ i, initImage page.kind i = page.image pdUpper i →
    st.buffers (st.taken held offers) i = page.image pdUpper i

/-! ## Writers -/

/-- A new page is recovered exactly when its image was kept. -/
theorem WalState.writeNew_iff (hst : st.Recovered base) {page : StoredPage} {pdUpper : ℕ} :
    (st.writeNew held offers page pdUpper).Recovered base ↔ st.Kept held offers page pdUpper := by
  rw [WalState.writeNew, WalState.extend_finish_iff hst (r := ⟨false, page.image pdUpper⟩)]
  · exact or_iff_right Bool.false_ne_true
  · intro c _ hc
    simp [deltaOf, List.lookup_cons, beq_false_of_ne hc]
  · simp [deltaOf]

/-- A new page of the free log is recovered exactly when its image was kept. -/
theorem WalState.freeLogNew_iff (hst : st.Recovered base) (hmeta : 0 < st.nblocks) {rightLink : ℕ}
    {blocks : List BlockNumber} {delXid : ℕ} :
    (st.freeLogNew held offers rightLink blocks delXid).Recovered base ↔
      st.Kept (0 :: held) offers (freeLogPage rightLink (blocks.take freeLogCap) delXid)
        coalescedUsableEnd := by
  have hne : st.taken (0 :: held) offers ≠ 0 := WalState.taken_ne hmeta List.mem_cons_self
  let page := freeLogPage rightLink (blocks.take freeLogCap) delXid
  rw [WalState.freeLogNew, WalState.extend_finish_iff hst
    (r := ⟨false, page.image coalescedUsableEnd⟩)]
  · exact or_iff_right Bool.false_ne_true
  · intro c hc hcne
    simp [deltaOf, List.lookup_cons, beq_false_of_ne hcne, beq_false_of_ne (hmeta.trans_le hc).ne']
  · simp [deltaOf, List.lookup_cons, beq_false_of_ne hne, page]

/-- A fresh page that is logged as a whole, with the meta page and at most one page more. -/
theorem WalState.finish_fullImage (hst : st.Recovered base) (hmeta : 0 < st.nblocks)
    {kind : PageTreKind} {image meta' : PageImage}
    {link : List (BlockNumber × Registered (Fin blcksz) UInt8)}
    (hlink : ∀ c, st.nblocks ≤ c → link.lookup c = none) :
    ((st.extend (0 :: held) kind offers).finish (deltaOf 0 meta' ::
      fullImageOf (st.taken (0 :: held) offers) image :: link)).Recovered base := by
  have hne : st.taken (0 :: held) offers ≠ 0 := WalState.taken_ne hmeta List.mem_cons_self
  rw [WalState.extend_finish_iff hst (r := ⟨true, image⟩)]
  · exact .inl rfl
  · intro c hc hcne
    simp [deltaOf, fullImageOf, List.lookup_cons, beq_false_of_ne hcne,
      beq_false_of_ne (hmeta.trans_le hc).ne', hlink c hc]
  · simp [deltaOf, fullImageOf, List.lookup_cons, beq_false_of_ne hne]

/-- A readable page is one of the file. -/
theorem WalState.readable_lt {b : BlockNumber} {kind : PageTreKind}
    (h : ¬st.readable b kind = false) : b < st.nblocks := by
  unfold WalState.readable at h
  simp only [Bool.and_eq_false_iff, decide_eq_false_iff_not, not_or, not_not] at h
  exact h.1

/-- No block past the end is registered. -/
theorem lookup_deltaOf {n : ℕ} {b : BlockNumber} (hb : b < n) {image : PageImage} :
    ∀ c, n ≤ c → List.lookup c [deltaOf b image] = none := fun c hc => by
  simp [deltaOf, List.lookup_cons, beq_false_of_ne (hb.trans_le hc).ne']

/-- A record of two blocks says nothing of the blocks past the end. -/
theorem lookup_two {n : ℕ} {b b' : BlockNumber} (hb : b < n) (hb' : b' < n)
    {image image' : PageImage} :
    ∀ c, n ≤ c → List.lookup c [deltaOf b image, deltaOf b' image'] = none := fun c hc => by
  simp [deltaOf, List.lookup_cons, beq_false_of_ne (hb.trans_le hc).ne',
    beq_false_of_ne (hb'.trans_le hc).ne']

/-- Linking a SuRF page is recovered. -/
theorem WalState.surfLink_recovered (hst : st.Recovered base) (prev thisBlk : BlockNumber) :
    (st.surfLink prev thisBlk).Recovered base := by
  unfold WalState.surfLink
  split_ifs with hpast
  · exact hst
  · exact hst.finish (lookup_deltaOf (not_le.mp hpast))

/-- A new catalog page is recovered. -/
theorem WalState.runCatalogNew_recovered (hst : st.Recovered base) (hmeta : 0 < st.nblocks)
    (rightLink : ℕ) (run : PgTreRun) :
    (st.runCatalogNew held offers rightLink run).Recovered base :=
  WalState.finish_fullImage hst hmeta fun _ _ => List.lookup_nil

/-- Appending to the catalog is recovered. -/
theorem WalState.runCatalogAppend_recovered (hst : st.Recovered base) (run : PgTreRun) :
    (st.runCatalogAppend held offers run).Recovered base := by
  unfold WalState.runCatalogAppend
  dsimp only
  split_ifs with hmeta hnew hhead hfull
  · exact hst
  · exact WalState.runCatalogNew_recovered hst (WalState.readable_lt hmeta) _ run
  · exact hst
  · exact WalState.runCatalogNew_recovered hst (WalState.readable_lt hmeta) _ run
  · exact hst.finish (lookup_two (WalState.readable_lt hmeta) (WalState.readable_lt hhead))

/-- Rewriting the catalog is recovered. -/
theorem WalState.runCatalogRewrite_recovered (hst : st.Recovered base) (runs : List PgTreRun) :
    (st.runCatalogRewrite held offers runs).Recovered base := by
  unfold WalState.runCatalogRewrite
  dsimp only
  split_ifs with hrefused hempty
  · exact hst
  · exact hst.finish (lookup_deltaOf (WalState.readable_lt (not_or.mp hrefused).2))
  · exact WalState.finish_fullImage hst (WalState.readable_lt (not_or.mp hrefused).2)
      fun _ _ => List.lookup_nil

/-- A new pending page is recovered. -/
theorem WalState.pendingNew_recovered (hst : st.Recovered base) (hmeta : 0 < st.nblocks)
    {prev : Option BlockNumber} (hprev : ∀ p ∈ prev, p < st.nblocks)
    (entries : List PgTrePendingEntry) :
    (st.pendingNew held offers prev entries).Recovered base := by
  cases prev with
  | none => exact WalState.finish_fullImage hst hmeta fun _ _ => List.lookup_nil
  | some p => exact WalState.finish_fullImage hst hmeta (lookup_deltaOf (hprev p rfl))

/-- Appending to the pending list is recovered. -/
theorem WalState.pendingAppend_recovered (hst : st.Recovered base)
    (entries : List PgTrePendingEntry) : (st.pendingAppend held offers entries).Recovered base := by
  unfold WalState.pendingAppend
  dsimp only
  split_ifs with hrefused hnew htail hfull
  · exact hst
  · refine WalState.pendingNew_recovered hst (WalState.readable_lt (not_or.mp hrefused).2) ?_ _
    simp
  · exact hst
  · refine WalState.pendingNew_recovered hst (WalState.readable_lt (not_or.mp hrefused).2) ?_ _
    rintro p ⟨rfl⟩
    exact WalState.readable_lt htail
  · exact hst.finish (lookup_two (WalState.readable_lt (not_or.mp hrefused).2)
      (WalState.readable_lt htail))

/-! ## Coalesced pages -/

/-- A page that has been filled has slots, and no more than fit. -/
theorem CoalescedPage.fill_nSlots {page : CoalescedPage} (hpos : 0 < page.nSlots)
    (hle : page.nSlots ≤ coalescedMaxSlots) (blobs : List CoalescedBlob) :
    0 < (page.fill blobs).1.nSlots ∧ (page.fill blobs).1.nSlots ≤ coalescedMaxSlots := by
  induction blobs generalizing page with
  | nil => exact ⟨hpos, hle⟩
  | cons blob blobs ih =>
    rw [CoalescedPage.fill]
    cases hcheck : coalescedCheck blob with
    | error e => exact ⟨hpos, hle⟩
    | ok u =>
      dsimp only
      split_ifs with hfull
      · exact ⟨hpos, hle⟩
      · have hroom : page.nSlots < coalescedMaxSlots :=
          not_le.mp (not_or.mp (not_or.mp hfull).2).2
        exact ih (Nat.succ_pos _) hroom

/-- `n_slots` in the bytes of an open page. -/
theorem CoalescedPage.open_nSlots (page : CoalescedPage) (pdUpper : ℕ) :
    page.open.image pdUpper ⟨24, by decide⟩ = UInt8.ofNat page.nSlots ∧
      page.open.image pdUpper ⟨25, by decide⟩ = UInt8.ofNat (page.nSlots / 256) :=
  ⟨rfl, rfl⟩

/-- A flushed page carries its slot count. -/
theorem CoalescedPage.flushed_nSlots (page : CoalescedPage) (pdUpper : ℕ) :
    page.flushed.image pdUpper ⟨24, by decide⟩ = UInt8.ofNat page.nSlots ∧
      page.flushed.image pdUpper ⟨25, by decide⟩ = UInt8.ofNat (page.nSlots / 256) :=
  ⟨rfl, rfl⟩

/-- Blank storage does not have the slots. -/
theorem CoalescedPage.nSlots_ne_blank {page : CoalescedPage} {stored : PageImage}
    (hpos : 0 < page.nSlots) (hle : page.nSlots ≤ coalescedMaxSlots)
    (hstored : stored = zeroImage ∨ ∃ kind, stored = initImage kind)
    (hlow : stored ⟨24, by decide⟩ = UInt8.ofNat page.nSlots)
    (hhigh : stored ⟨25, by decide⟩ = UInt8.ofNat (page.nSlots / 256)) : False := by
  have hzero : stored ⟨24, by decide⟩ = 0 ∧ stored ⟨25, by decide⟩ = 0 := by
    obtain rfl | ⟨kind, rfl⟩ := hstored <;> exact ⟨rfl, rfl⟩
  have hlow' : page.nSlots % 256 = 0 := by
    simpa using (congrArg UInt8.toNat (hlow.symm.trans hzero.1))
  have hhigh' : page.nSlots / 256 % 256 = 0 := by
    simpa using (congrArg UInt8.toNat (hhigh.symm.trans hzero.2))
  rw [coalescedMaxSlots_eq] at hle
  omega

/-- A coalesced page does not come back: its slots were in the buffer before it was registered. -/
theorem WalState.coalescedPage_lost (hst : st.Recovered base) (hoffers : st.BlankOffers offers)
    {blob : CoalescedBlob} (hcheck : coalescedCheck blob = .ok ()) (blobs : List CoalescedBlob) :
    ¬(st.coalescedPage held offers (blob :: blobs)).Recovered base := by
  intro h
  have hstored := hst.taken_blank held hoffers
  rw [WalState.coalescedPage, hcheck] at h
  dsimp only at h
  set filled := ((emptyCoalescedPage (st.taken held offers)).put blob).fill blobs with hfilled
  obtain ⟨hpos, hle⟩ : 0 < filled.1.nSlots ∧ filled.1.nSlots ≤ coalescedMaxSlots :=
    CoalescedPage.fill_nSlots (Nat.succ_pos 0) (Nat.le_add_left 1 508) blobs
  obtain ⟨hlow, hhigh⟩ := filled.1.open_nSlots coalescedUsableEnd
  split_ifs at h with hdone
  · obtain ⟨hlow', hhigh'⟩ := filled.1.flushed_nSlots filled.1.freeOffset
    have henough : Registered.Enough ⟨false, filled.1.flushed.image filled.1.freeOffset⟩
        (filled.1.open.image coalescedUsableEnd) (st.buffers (st.taken held offers)) := by
      refine (WalState.finish_claimed_iff hst ?_ ?_ ?_ ?_ ?_ ?_).mp h
      · exact Function.update_idem _ _ _
      · rfl
      · exact le_max_left _ _
      · exact WalState.taken_lt_extend .pagePostingCoalesced
      · exact lookup_deltaOf (WalState.taken_lt_extend .pagePostingCoalesced)
      · exact List.lookup_cons_self
    obtain hfull | hkept := henough
    · cases hfull
    · exact CoalescedPage.nSlots_ne_blank hpos hle hstored
        ((hkept _ (hlow.trans hlow'.symm)).trans hlow')
        ((hkept _ (hhigh.trans hhigh'.symm)).trans hhigh')
  · -- an error: the page is in its buffer and in no record
    have hsame : st.buffers (st.taken held offers) = filled.1.open.image coalescedUsableEnd :=
      (congrFun (hst.replayed.symm.trans h.replayed) _).trans (Function.update_self _ _ _)
    exact CoalescedPage.nSlots_ne_blank hpos hle hstored ((congrFun hsame _).trans hlow)
      ((congrFun hsame _).trans hhigh)

/-! ## A call -/

/-- The page of a leaf is a posting leaf. -/
theorem LeafInput.page_kind (leaf : LeafInput) : leaf.page.1.kind = .pagePostingL := by
  unfold LeafInput.page
  dsimp only
  split_ifs with hempty
  · rfl
  · rfl

/-- The head of the free log is one of the file. -/
theorem WalState.freeLogHead_lt {target : Option ℕ × BlockNumber}
    (h : st.freeLogHead = some target) :
    0 < st.nblocks ∧ (target.1 = none → target.2 < st.nblocks) := by
  unfold WalState.freeLogHead at h
  dsimp only at h
  split_ifs at h with hmeta hnone hread hfull
  · cases h
    exact ⟨WalState.readable_lt hmeta, nofun⟩
  · cases h
    exact ⟨WalState.readable_lt hmeta, nofun⟩
  · cases h
    exact ⟨WalState.readable_lt hmeta, fun _ => WalState.readable_lt hread⟩

/-- What a call does to the log: nothing that needs storage, or a page that needs what it keeps of
the empty page, or a coalesced page. -/
theorem PageWriter.run_cases (hst : st.Recovered base) (writer : PageWriter)
    (held : List BlockNumber) (offers : List (BlockNumber × Bool)) :
    (writer.takes st = none ∧ (writer.run held offers st).Recovered base) ∨
      (∃ page pdUpper, writer.takes st = some page.kind ∧ page.kind ≠ .pagePostingCoalesced ∧
        ((writer.run held offers st).Recovered base ↔
          st.Kept (writer.holds ++ held) offers page pdUpper)) ∨
      (writer.takes st = some .pagePostingCoalesced ∧
        (st.BlankOffers offers → ¬(writer.run held offers st).Recovered base)) := by
  cases writer with
  | writeSingleLeaf leaf =>
    rw [PageWriter.takes, PageWriter.run, WalState.writeSingleLeaf]
    split_ifs with hlarge
    · exact .inl ⟨rfl, hst⟩
    · refine .inr (.inl ⟨leaf.page.1, leaf.page.2, ?_, ?_, WalState.writeNew_iff hst⟩)
      · rw [leaf.page_kind]
      · rw [leaf.page_kind]
        decide
  | coalescedPage blobs =>
    cases blobs with
    | nil => exact .inl ⟨rfl, hst⟩
    | cons blob blobs =>
      cases hcheck : coalescedCheck blob with
      | error e =>
        left
        simp only [PageWriter.takes, PageWriter.run, WalState.coalescedPage, hcheck]
        exact ⟨trivial, hst⟩
      | ok u =>
        right
        right
        constructor
        · simp only [PageWriter.takes, hcheck]
        · exact fun hoffers => WalState.coalescedPage_lost hst hoffers hcheck blobs
  | upperFlushLeaf entries inlineData =>
    rw [PageWriter.takes, PageWriter.run, WalState.upperFlushLeaf]
    split_ifs with hempty
    · exact .inl ⟨rfl, hst⟩
    · refine .inr (.inl ⟨_, _, rfl, ?_, WalState.writeNew_iff hst⟩)
      exact show PageTreKind.pageUpperL ≠ _ by decide
  | upperInternal entries =>
    rw [PageWriter.takes, PageWriter.run, WalState.upperInternal]
    split_ifs with hempty
    · exact .inl ⟨rfl, hst⟩
    · refine .inr (.inl ⟨_, _, rfl, ?_, WalState.writeNew_iff hst⟩)
      exact show PageTreKind.pageUpper ≠ _ by decide
  | surfChunk prev totalBytes chunk =>
    refine .inr (.inl ⟨_, _, rfl, ?_, WalState.writeNew_iff hst⟩)
    exact show PageTreKind.pageSurf ≠ _ by decide
  | surfLink prev thisBlk => exact .inl ⟨rfl, WalState.surfLink_recovered hst prev thisBlk⟩
  | freeLogAppendChunk blocks delXid =>
    rw [PageWriter.takes, PageWriter.run, WalState.freeLogAppendChunk]
    cases hhead : st.freeLogHead with
    | none => exact .inl ⟨rfl, hst⟩
    | some target =>
      obtain ⟨hmeta, hadd⟩ := WalState.freeLogHead_lt hhead
      obtain ⟨_ | rightLink, head⟩ := target
      · exact .inl ⟨rfl, hst.finish (lookup_two hmeta (hadd rfl))⟩
      · refine .inr (.inl ⟨_, _, rfl, ?_, WalState.freeLogNew_iff hst hmeta⟩)
        exact show PageTreKind.pageFreeLog ≠ _ by decide
  | runCatalogAppend run => exact .inl ⟨rfl, WalState.runCatalogAppend_recovered hst run⟩
  | runCatalogRewrite runs => exact .inl ⟨rfl, WalState.runCatalogRewrite_recovered hst runs⟩
  | pendingAppend entries => exact .inl ⟨rfl, WalState.pendingAppend_recovered hst entries⟩

/-- A call that is logged leaves a log that brings back the buffers. -/
theorem PageWriter.run_recovered (hst : st.Recovered base) {writer : PageWriter}
    (hlogged : writer.Logged held offers st) : (writer.run held offers st).Recovered base := by
  obtain ⟨-, h⟩ | ⟨page, pdUpper, htakes, -, h⟩ | ⟨htakes, -⟩ :=
    PageWriter.run_cases hst writer held offers
  · exact h
  · have hstored := (hlogged _ htakes).2
    refine h.mpr fun i hi => ?_
    rw [hstored]
    exact hi
  · exact absurd rfl (hlogged _ htakes).1

/-- Where the pages on offer are blank, no other call does. -/
theorem PageWriter.logged_of_recovered (hst : st.Recovered base) (hoffers : st.BlankOffers offers)
    {writer : PageWriter} (hrun : (writer.run held offers st).Recovered base) :
    writer.Logged held offers st := by
  intro kind hkind
  obtain ⟨hnone, -⟩ | ⟨page, pdUpper, htakes, hne, h⟩ | ⟨-, hlost⟩ :=
    PageWriter.run_cases hst writer held offers
  · rw [hnone] at hkind
    cases hkind
  · rw [htakes] at hkind
    cases hkind
    exact ⟨hne, (StoredPage.kept_iff (hst.taken_blank _ hoffers)).mp (h.mp hrun)⟩
  · exact absurd hrun (hlost hoffers)

/-! ## Runs -/

/-- A call in a run, with the blocks that its backend holds and those that the free-space map
offers. -/
structure WriterCall where
  writer : PageWriter
  held : List BlockNumber
  offers : List (BlockNumber × Bool)

/-- The state after a call. -/
def WriterCall.next (call : WriterCall) (st : WalState) : WalState :=
  call.writer.run call.held call.offers st

/-- A property of each call of a run and the state it is made in. -/
def Along (P : WriterCall → WalState → Prop) : List WriterCall → WalState → Prop
  | [], _ => True
  | call :: calls, st => P call st ∧ Along P calls (call.next st)

/-- After each call of a run, the log brings back the buffers. -/
def Recoverable (base : BlockNumber → PageImage) : List WriterCall → WalState → Prop :=
  Along fun call st => (call.next st).Recovered base

/-- The calls of a run are logged. -/
def RunLogged : List WriterCall → WalState → Prop :=
  Along fun call st => call.writer.Logged call.held call.offers st

/-- The pages on offer in a run were never written, or the recycling pass has left them blank. -/
def RunBlank : List WriterCall → WalState → Prop := Along fun call st => st.BlankOffers call.offers

/-- At every point of a run whose calls are logged, replaying the log on storage that had zeros for
the blocks to come brings back the pages of the primary. No other run of calls does, as long as the
pages on offer are blank. -/
theorem walComplete_iff (base : BlockNumber → PageImage) (calls : List WriterCall) (st : WalState)
    (hst : st.Recovered base) :
    (RunLogged calls st → Recoverable base calls st) ∧
      (RunBlank calls st → (Recoverable base calls st ↔ RunLogged calls st)) := by
  have hforward : RunLogged calls st → Recoverable base calls st := by
    intro hlogged
    induction calls generalizing st with
    | nil => trivial
    | cons call calls ih =>
      have hnext := PageWriter.run_recovered hst hlogged.1
      exact ⟨hnext, ih (call.next st) hnext hlogged.2⟩
  refine ⟨hforward, fun hblank => ⟨fun hrun => ?_, hforward⟩⟩
  clear hforward
  induction calls generalizing st with
  | nil => trivial
  | cons call calls ih =>
    have hlogged := PageWriter.logged_of_recovered hst hblank.1 hrun.1
    exact ⟨hlogged, ih (call.next st) hrun.1 hblank.2 hrun.2⟩

/-! ## An index with a meta page -/

/-- An index of one page, before anything is logged. -/
def oneBlockIndex : WalState := ⟨fun _ => zeroImage, 1, []⟩

/-- The index of one block starts recovered. -/
theorem oneBlockIndex_recovered : oneBlockIndex.Recovered fun _ => zeroImage :=
  ⟨rfl, fun _ _ => rfl⟩

/-- The run catalog of a new index comes back. -/
theorem walComplete_runCatalog :
    oneBlockIndex.Recovered (fun _ => zeroImage) ∧
      Recoverable (fun _ => zeroImage)
        [⟨.runCatalogAppend ⟨0, 0, 0, none, none, 0, 0, 0, 0⟩, [], []⟩] oneBlockIndex :=
  ⟨oneBlockIndex_recovered, (walComplete_iff _ _ _ oneBlockIndex_recovered).1 ⟨nofun, trivial⟩⟩

/-- A leaf for one TID. -/
def oneTidLeaf : LeafInput := ⟨sparsemapLibrary.encode {1}, [], 1, 1, 1, none⟩

/-- The leaf, written on a fresh block. -/
def freshLeaf : WriterCall := ⟨.writeSingleLeaf oneTidLeaf, [], []⟩

/-- One TID fits in a leaf. -/
theorem oneTidLeaf_fits :
    ¬postingLeafBudget < oneTidLeaf.data.length + oneTidLeaf.payload.length :=
  not_lt.mpr ((length_encode_single 1).trans (by decide))

/-- It does not come back: its kind on the primary is that of a posting leaf, and after replay it
has none. -/
theorem freshLeaf_lost :
    oneBlockIndex.Recovered (fun _ => zeroImage) ∧
      ¬Recoverable (fun _ => zeroImage) [freshLeaf] oneBlockIndex ∧
      (freshLeaf.next oneBlockIndex).buffers 1 ⟨8184, by decide⟩ = 5 ∧
      replay (fun _ => zeroImage) (freshLeaf.next oneBlockIndex).log 1 ⟨8184, by decide⟩ = 0 := by
  have hnext : freshLeaf.next oneBlockIndex =
      oneBlockIndex.writeNew [] [] oneTidLeaf.page.1 oneTidLeaf.page.2 := if_neg oneTidLeaf_fits
  refine ⟨oneBlockIndex_recovered, ?_, ?_, ?_⟩
  · rintro ⟨h, -⟩
    have hblank : oneBlockIndex.BlankOffers [] := fun _ ho => by cases ho
    have hlogged := PageWriter.logged_of_recovered oneBlockIndex_recovered hblank h
    have hstored : zeroImage = initImage .pagePostingL := (hlogged _ (if_neg oneTidLeaf_fits)).2
    have hspecial := congrFun hstored ⟨17, by decide⟩
    rw [initImage, StoredPage.image_special] at hspecial
    cases hspecial
  · rw [hnext]
    rfl
  · rw [hnext]
    rfl

end PgTre
