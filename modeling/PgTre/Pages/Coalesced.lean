import PgTre.Pages.PageStore

/-!
# Coalesced pages

`src/pages/coalesced.c` packs the postings of several trigrams on a page. The table of the slots
grows up from the header of the page, and the blobs grow down from its trailer. A blob for which the
hole between them is too small goes to a new page.
-/

namespace PgTre

open Layout Sparsemap

/-! ## The writer -/

/-- `MAXALIGN(SizeOfPageHeaderData) + MAXALIGN(sizeof(PgTreCoalescedHeader))`: where the table of the
slots begins. -/
def coalescedContentStart : ℕ := maxAlign sizeOfPageHeaderData + maxAlign 8

/-- `BLCKSZ - MAXALIGN(sizeof(PageTreOpaqueData))`: where the usable area ends. -/
def coalescedUsableEnd : ℕ := blcksz - maxAlign sizeOfOpaque

/-- `sizeof(PgTreCoalescedSlot)`. -/
def coalescedSlotBytes : ℕ := 16

/-- `pg_tre_coalesced_budget`. -/
def pgTreCoalescedBudget : ℕ :=
  blcksz - maxAlign sizeOfPageHeaderData - maxAlign 8 - maxAlign sizeOfOpaque

/-- `COALESCED_MAX_SLOTS`. -/
def coalescedMaxSlots : ℕ := pgTreCoalescedBudget / coalescedSlotBytes

/-- What `pg_tre_coalesced_add` is given: a trigram with the bytes of its sparsemap and of its
payload. The payload may be a length without bytes. -/
structure CoalescedBlob where
  trigramHash : UInt64
  sm : List UInt8
  payloadLen : ℕ
  payload : Option (List UInt8)
  /-- The payload has its length. -/
  length_payload : ∀ p ∈ payload, p.length = payloadLen

/-- `PgTreCoalescedSlot`. -/
structure CoalescedSlot where
  smOffset : ℕ
  smLength : ℕ
  payloadOffset : ℕ
  payloadLength : ℕ
  trigramHash : ℕ
  deriving DecidableEq

/-- A slot in the table. -/
def CoalescedSlot.encode (slot : CoalescedSlot) : List UInt8 :=
  wordBytes 2 slot.smOffset ++ (wordBytes 2 slot.smLength ++ (wordBytes 2 slot.payloadOffset ++
    (wordBytes 2 slot.payloadLength ++ wordBytes 8 slot.trigramHash)))

/-- The page that is being filled: its block, the fields of its header, and the bytes from
`PageGetContents` on. -/
structure CoalescedPage where
  blkno : BlockNumber
  nSlots : ℕ
  freeOffset : ℕ
  bytes : List UInt8

/-- `PgTreCoalescedWriter`: the open page, if there is one. -/
abbrev CoalescedWriter := Option CoalescedPage

/-- `slot_footprint`. -/
def slotFootprint (smLen payloadLen : ℕ) : ℕ :=
  coalescedSlotBytes + maxAlign smLen + if 0 < payloadLen then maxAlign payloadLen else 0

/-- `open_page`. -/
def openCoalescedPage (st : PageStore) : CoalescedPage × PageStore :=
  let extended := st.extend [] .pagePostingCoalesced
  (⟨extended.1, 0, coalescedUsableEnd % 2 ^ 16,
    List.replicate (coalescedUsableEnd - maxAlign sizeOfPageHeaderData) 0⟩, extended.2)

/-- `flush_page` for an open page. The record of the change is made with zero bytes in the hole
between the table and the blobs. -/
def flushCoalescedPage (page : CoalescedPage) (st : PageStore) : PageStore :=
  let pdLower := coalescedContentStart + page.nSlots * coalescedSlotBytes
  let header := wordBytes 2 page.nSlots ++ (wordBytes 2 page.freeOffset ++ wordBytes 4 0)
  let hole := List.replicate (page.freeOffset - pdLower) 0
  st.write page.blkno ⟨.pagePostingCoalesced, 0, pdLower,
    putBytes (putBytes page.bytes 0 header) (pdLower - maxAlign sizeOfPageHeaderData) hole⟩

/-- The difference of two sizes, which wraps around. -/
def sizeSub (a b : ℕ) : ℕ := (a + 2 ^ 64 - b) % 2 ^ 64

/-- `& ~align`. -/
def alignDown (n : ℕ) : ℕ := n / 8 * 8

/-- Where the blobs go below `top`: `sm_lo` and `blob_lo`. -/
def placeBlobs (top smLen payloadLen : ℕ) : ℕ × ℕ :=
  let smLo := alignDown (sizeSub top smLen)
  (smLo, if 0 < payloadLen then alignDown (sizeSub smLo payloadLen) else smLo)

/-- The test for a page without room. -/
def CoalescedPage.Full (page : CoalescedPage) (blob : CoalescedBlob) : Prop :=
  let tableEnd := coalescedContentStart + (page.nSlots + 1) * coalescedSlotBytes
  let blobLo := (placeBlobs page.freeOffset blob.sm.length blob.payloadLen).2
  blobLo < tableEnd ∨ page.freeOffset < blobLo ∨ coalescedMaxSlots ≤ page.nSlots

instance (page : CoalescedPage) (blob : CoalescedBlob) : Decidable (page.Full blob) :=
  inferInstanceAs (Decidable (_ ∨ _ ∨ _))

/-- The slot of a blob that is put at the given places. -/
def CoalescedBlob.slot (blob : CoalescedBlob) (place : ℕ × ℕ) : CoalescedSlot where
  smOffset := place.1 % 2 ^ 16
  smLength := blob.sm.length % 2 ^ 16
  payloadOffset := if 0 < blob.payloadLen ∧ blob.payload.isSome then place.2 % 2 ^ 16 else 0
  payloadLength := blob.payloadLen % 2 ^ 16
  trigramHash := blob.trigramHash.toNat

/-- The blobs written on the page, and their slot in the table. -/
def CoalescedPage.put (page : CoalescedPage) (blob : CoalescedBlob) : CoalescedPage :=
  let place := placeBlobs page.freeOffset blob.sm.length blob.payloadLen
  let start := maxAlign sizeOfPageHeaderData
  let bytes := putBytes page.bytes (place.1 - start) blob.sm
  let bytes := match blob.payload with
    | none => bytes
    | some payload => if 0 < blob.payloadLen then putBytes bytes (place.2 - start) payload else bytes
  ⟨page.blkno, page.nSlots + 1, place.2 % 2 ^ 16,
    putBytes bytes (maxAlign 8 + coalescedSlotBytes * page.nSlots) (blob.slot place).encode⟩

/-- The checks of `pg_tre_coalesced_add`. -/
def coalescedCheck (blob : CoalescedBlob) : Except PgError Unit :=
  let smLen := blob.sm.length
  let payloadLen := blob.payloadLen
  let need := slotFootprint smLen payloadLen
  if smLen = 0 ∨ 2 ^ 16 - 1 < smLen ∨ 2 ^ 16 - 1 < payloadLen then
    .error ⟨s!"pg_tre: coalesced slot blob too large (sparsemap {smLen}, payload {payloadLen})"⟩
  else if pgTreCoalescedBudget < need then
    let hash := hexDigits 16 blob.trigramHash.toNat
    let budget := pgTreCoalescedBudget
    .error ⟨s!"pg_tre: coalesced posting for trigram {hash} ({need} bytes) " ++
      s!"exceeds page budget {budget}"⟩
  else .ok ()

/-- The page a blob goes to: the open page or, when there is none or it has no room, a new one. -/
def coalescedPageFor (w : CoalescedWriter) (st : PageStore) (blob : CoalescedBlob) :
    CoalescedPage × PageStore :=
  let opened := match w with
    | some page => (page, st)
    | none => openCoalescedPage st
  if opened.1.Full blob then openCoalescedPage (flushCoalescedPage opened.1 opened.2) else opened

/-- `pg_tre_coalesced_add`: the block and the slot, the writer and the pages. -/
def pgTreCoalescedAdd (w : CoalescedWriter) (st : PageStore) (blob : CoalescedBlob) :
    Except PgError ((BlockNumber × ℕ) × CoalescedWriter × PageStore) := do
  coalescedCheck blob
  let target := coalescedPageFor w st blob
  return ((target.1.blkno, target.1.nSlots), some (target.1.put blob), target.2)

/-- `pg_tre_coalesced_writer_finish`. -/
def pgTreCoalescedWriterFinish (w : CoalescedWriter) (st : PageStore) : PageStore :=
  match w with
  | none => st
  | some page => flushCoalescedPage page st

/-! ## The reader -/

/-- `PG_TRE_COALESCED_HASH_ANY`. -/
def coalescedHashAny : ℕ := 2 ^ 64 - 1

/-- A slot of the table. -/
def readCoalescedSlot (page : StoredPage) (i : ℕ) : CoalescedSlot :=
  let at' := maxAlign 8 + coalescedSlotBytes * i
  { smOffset := numberAt page.contents at' 2
    smLength := numberAt page.contents (at' + 2) 2
    payloadOffset := numberAt page.contents (at' + 4) 2
    payloadLength := numberAt page.contents (at' + 6) 2
    trigramHash := numberAt page.contents (at' + 8) 8 }

/-- `slot_within_page`. -/
def slotWithinPage (slot : CoalescedSlot) : Bool :=
  if slot.smOffset < coalescedContentStart ∨ coalescedUsableEnd < slot.smOffset then false
  else if coalescedUsableEnd - slot.smOffset < slot.smLength then false
  else if slot.payloadOffset ≠ 0 then
    if slot.payloadOffset < coalescedContentStart ∨ coalescedUsableEnd < slot.payloadOffset then false
    else if coalescedUsableEnd - slot.payloadOffset < slot.payloadLength then false
    else true
  else true

/-- `pg_tre_coalesced_resolve_slot`: the bytes of a sparsemap, or nothing for a slot that was given
up. -/
def pgTreCoalescedResolveSlot (st : PageStore) (blkno : BlockNumber) (slotIdx : ℕ)
    (trigramHash : UInt64) : Except PgError (Option (List UInt8)) := do
  let page ← st.read blkno .pagePostingCoalesced
  let nSlots := numberAt page.contents 0 2
  if nSlots ≤ slotIdx then
    throw ⟨s!"pg_tre: coalesced slot {slotIdx} out of range (page {blkno} has {nSlots} slots)"⟩
  let slot := readCoalescedSlot page slotIdx
  if slot.smOffset = 0 then return none
  if slot.trigramHash ≠ trigramHash.toNat ∨ !slotWithinPage slot then
    if ¬(trigramHash.toNat = coalescedHashAny ∨ slot.trigramHash = trigramHash.toNat) ∨
        !slotWithinPage slot then
      let found := hexDigits 16 slot.trigramHash
      let expected := hexDigits 16 trigramHash.toNat
      throw ⟨s!"pg_tre: corrupt coalesced slot {slotIdx} at block {blkno} " ++
        s!"(slot hash {found}, expected {expected})"⟩
  return some (page.region (slot.smOffset - maxAlign sizeOfPageHeaderData) slot.smLength)

/-! ## What is on a page -/

/-- The content of a coalesced page starts behind its header. -/
@[simp] theorem coalescedContentStart_eq : coalescedContentStart = 32 := rfl

/-- The content of a coalesced page ends before its slot count. -/
@[simp] theorem coalescedUsableEnd_eq : coalescedUsableEnd = 8184 := rfl

/-- A slot takes 16 bytes. -/
@[simp] theorem coalescedSlotBytes_eq : coalescedSlotBytes = 16 := rfl

/-- The room of a coalesced page. -/
@[simp] theorem pgTreCoalescedBudget_eq : pgTreCoalescedBudget = 8152 := rfl

/-- A page has room for 509 slots. -/
@[simp] theorem coalescedMaxSlots_eq : coalescedMaxSlots = 509 := rfl

/-- The page header is aligned. -/
@[simp] theorem maxAlign_pageHeader : maxAlign sizeOfPageHeaderData = 24 := rfl

/-- Eight is aligned. -/
@[simp] theorem maxAlign_eight : maxAlign 8 = 8 := rfl

/-- A slot is encoded in 16 bytes. -/
@[simp] theorem CoalescedSlot.length_encode (slot : CoalescedSlot) : slot.encode.length = 16 := by
  simp [CoalescedSlot.encode]

/-- A blob with the places it was put at. -/
structure PlacedBlob where
  blob : CoalescedBlob
  smLo : ℕ
  blobLo : ℕ

def PlacedBlob.slot (p : PlacedBlob) : CoalescedSlot := p.blob.slot (p.smLo, p.blobLo)

/-- The content of a page that holds some blobs: their slots are in the table, and each blob is
below the ones before it, between the table and the trailer. -/
structure BlobsAt (bytes : List UInt8) (freeOffset : ℕ) (placed : List PlacedBlob) : Prop where
  length : bytes.length = 8160
  aligned : freeOffset % 8 = 0
  le_end : freeOffset ≤ 8184
  table : 32 + 16 * placed.length ≤ freeOffset
  slots : ∀ (i : ℕ) (p : PlacedBlob), placed[i]? = some p →
    bytesAt bytes (8 + 16 * i) 16 = p.slot.encode
  bounds : ∀ p ∈ placed, freeOffset ≤ p.blobLo ∧ p.blobLo + p.blob.payloadLen ≤ p.smLo ∧
    p.smLo + p.blob.sm.length ≤ 8184 ∧ 0 < p.blob.sm.length
  sm : ∀ p ∈ placed, bytesAt bytes (p.smLo - 24) p.blob.sm.length = p.blob.sm
  payload : ∀ p ∈ placed, ∀ payload, p.blob.payload = some payload → 0 < p.blob.payloadLen →
    bytesAt bytes (p.blobLo - 24) p.blob.payloadLen = payload
  apart : placed.Pairwise fun p p' => p'.smLo + p'.blob.sm.length ≤ p.blobLo

/-- The subtractions of a placement do not wrap: the places are exact. -/
structure ExactPlace (top smLen payloadLen : ℕ) (place : ℕ × ℕ) : Prop where
  sm_le : smLen ≤ top
  smLo : place.1 = alignDown (top - smLen)
  payload_le : payloadLen ≤ place.1
  blobLo : place.2 = if 0 < payloadLen then alignDown (place.1 - payloadLen) else place.1

/-- The `size_t` difference of a smaller number is the difference. -/
theorem sizeSub_of_le {a b : ℕ} (ha : a < 2 ^ 64) (h : b ≤ a) : sizeSub a b = a - b := by
  unfold sizeSub
  omega

/-- The `size_t` difference of a larger number wraps around. -/
theorem sizeSub_of_lt {a b : ℕ} (hb : b < 2 ^ 64) (h : a < b) : sizeSub a b = a + 2 ^ 64 - b := by
  unfold sizeSub
  omega

/-- A place that passes the test of the page is exact: one that comes from a difference that has
wrapped is above the blobs. -/
theorem placeBlobs_exact {top smLen payloadLen : ℕ} (htop : top ≤ 8184) (hsm : smLen < 2 ^ 16)
    (hpayload : payloadLen < 2 ^ 16) (hle : (placeBlobs top smLen payloadLen).2 ≤ top) :
    ExactPlace top smLen payloadLen (placeBlobs top smLen payloadLen) := by
  simp only [placeBlobs] at hle ⊢
  have hsmLe : smLen ≤ top := by
    by_contra hlt
    rw [sizeSub_of_lt (by omega) (Nat.not_le.mp hlt)] at hle
    unfold alignDown sizeSub at hle
    split_ifs at hle with hpos
    · omega
    · omega
  rw [sizeSub_of_le (by omega) hsmLe] at hle ⊢
  have hpayloadLe : payloadLen ≤ alignDown (top - smLen) := by
    by_contra hlt
    have hpos : 0 < payloadLen := by omega
    rw [if_pos hpos, sizeSub_of_lt (by omega) (Nat.not_le.mp hlt)] at hle
    unfold alignDown at hle hlt
    omega
  have hsmall : alignDown (top - smLen) < 2 ^ 64 := by
    unfold alignDown
    omega
  rw [sizeSub_of_le hsmall hpayloadLe]
  exact ⟨hsmLe, rfl, hpayloadLe, rfl⟩

/-- What an exact place leaves. -/
theorem ExactPlace.bounds {top smLen payloadLen : ℕ} {place : ℕ × ℕ}
    (h : ExactPlace top smLen payloadLen place) :
    place.2 + payloadLen ≤ place.1 ∧ place.1 + smLen ≤ top ∧ place.2 % 8 = 0 := by
  obtain ⟨hsm, hlo, hpayload, hblob⟩ := h
  unfold alignDown at hlo hblob
  split_ifs at hblob with hpos
  · omega
  · omega

/-- What passes the check fits in its fields and in the page. -/
theorem coalescedCheck_ok {blob : CoalescedBlob} (h : coalescedCheck blob = .ok ()) :
    0 < blob.sm.length ∧ blob.sm.length < 2 ^ 16 ∧ blob.payloadLen < 2 ^ 16 ∧
      slotFootprint blob.sm.length blob.payloadLen ≤ 8152 := by
  unfold coalescedCheck at h
  simp only at h
  split_ifs at h with hlen hneed
  simp only [pgTreCoalescedBudget_eq] at hneed
  omega

/-- A new page has room for every blob that is not refused. -/
theorem not_full_of_new {page : CoalescedPage} (hslots : page.nSlots = 0)
    (hfree : page.freeOffset = 8184) {blob : CoalescedBlob} (h : coalescedCheck blob = .ok ()) :
    ¬page.Full blob := by
  obtain ⟨hpos, hsm, hpayload, hneed⟩ := coalescedCheck_ok h
  unfold slotFootprint maxAlign at hneed
  unfold CoalescedPage.Full placeBlobs sizeSub alignDown
  simp only [coalescedContentStart_eq, coalescedSlotBytes_eq, coalescedMaxSlots_eq, hslots, hfree]
  simp only [coalescedSlotBytes_eq] at hneed
  split_ifs at hneed ⊢ with h
  · omega
  · omega

section

variable {page : CoalescedPage} {blob : CoalescedBlob} {placed : List PlacedBlob}

/-- What the copies of `put` leave in the bytes of the page: the blobs and the slot, and all regions
beside them. -/
theorem CoalescedPage.put_bytes {smLo blobLo : ℕ}
    (hplace : placeBlobs page.freeOffset blob.sm.length blob.payloadLen = (smLo, blobLo))
    (hlength : page.bytes.length = 8160) (htable : 48 + 16 * page.nSlots ≤ blobLo)
    (hpayload : blobLo + blob.payloadLen ≤ smLo) (hsm : smLo + blob.sm.length ≤ 8184) :
    (page.put blob).bytes.length = 8160 ∧
      bytesAt (page.put blob).bytes (smLo - 24) blob.sm.length = blob.sm ∧
      (∀ payload, blob.payload = some payload → 0 < blob.payloadLen →
        bytesAt (page.put blob).bytes (blobLo - 24) blob.payloadLen = payload) ∧
      bytesAt (page.put blob).bytes (8 + 16 * page.nSlots) 16 = (blob.slot (smLo, blobLo)).encode ∧
      ∀ off len, off + len ≤ 8 + 16 * page.nSlots ∨ smLo + blob.sm.length - 24 ≤ off →
        bytesAt (page.put blob).bytes off len = bytesAt page.bytes off len := by
  obtain ⟨bytes₁, hbytes₁⟩ : ∃ b, b = putBytes page.bytes (smLo - 24) blob.sm := ⟨_, rfl⟩
  have hlen₁ : bytes₁.length = 8160 := by
    rw [hbytes₁, length_putBytes (by omega), hlength]
  -- The copy of the payload, if there is one.
  obtain ⟨bytes₂, hbytes₂, hlen₂, hpay₂, hsame₂⟩ : ∃ bytes₂, (match blob.payload with
      | none => bytes₁
      | some payload => if 0 < blob.payloadLen then putBytes bytes₁ (blobLo - 24) payload else bytes₁)
        = bytes₂ ∧ bytes₂.length = 8160 ∧
      (∀ payload, blob.payload = some payload → 0 < blob.payloadLen →
        bytesAt bytes₂ (blobLo - 24) blob.payloadLen = payload) ∧
      ∀ off len, off + len ≤ blobLo - 24 ∨ smLo - 24 ≤ off →
        bytesAt bytes₂ off len = bytesAt bytes₁ off len := by
    refine ⟨_, rfl, ?_⟩
    have hlenPayload := blob.length_payload
    cases hp : blob.payload with
    | none =>
      refine ⟨hlen₁, ?_, ?_⟩
      · simp
      · simp
    | some payload =>
      have hlenp := hlenPayload payload (by rw [hp]; rfl)
      by_cases hpos : 0 < blob.payloadLen
      · simp only [if_pos hpos]
        refine ⟨?_, ?_, ?_⟩
        · rw [length_putBytes (by omega), hlen₁]
        · rintro payload' heq -
          obtain rfl := Option.some.inj heq
          rw [← hlenp]
          exact bytesAt_putBytes_self (by omega)
        · intro off len hoff
          exact bytesAt_putBytes_of_disjoint (by omega) (by omega)
      · simp only [if_neg hpos]
        exact ⟨hlen₁, fun _ _ h => absurd h hpos, fun _ _ _ => trivial⟩
  have hput : (page.put blob).bytes =
      putBytes bytes₂ (8 + 16 * page.nSlots) (blob.slot (smLo, blobLo)).encode := by
    unfold CoalescedPage.put
    simp only [hplace, maxAlign_pageHeader, maxAlign_eight, coalescedSlotBytes_eq, ← hbytes₁, hbytes₂]
  have hslot := CoalescedSlot.length_encode (blob.slot (smLo, blobLo))
  rw [hput]
  refine ⟨?_, ?_, ?_, ?_, ?_⟩
  · rw [length_putBytes (by omega), hlen₂]
  · rw [bytesAt_putBytes_of_disjoint (by omega) (by omega), hsame₂ _ _ (by omega), hbytes₁]
    exact bytesAt_putBytes_self (by omega)
  · intro payload hp hpos
    rw [bytesAt_putBytes_of_disjoint (by omega) (by omega)]
    exact hpay₂ payload hp hpos
  · have hself := @bytesAt_putBytes_self bytes₂ (blob.slot (smLo, blobLo)).encode
      (8 + 16 * page.nSlots) (by omega)
    rw [hslot] at hself
    exact hself
  · intro off len hoff
    rcases hoff with hoff | hoff
    · rw [bytesAt_putBytes_of_disjoint (by omega) (by omega), hsame₂ _ _ (by omega), hbytes₁,
        bytesAt_putBytes_of_disjoint (by omega) (by omega)]
    · rw [bytesAt_putBytes_of_disjoint (by omega) (by omega), hsame₂ _ _ (by omega), hbytes₁,
        bytesAt_putBytes_of_disjoint (by omega) (by omega)]

/-- The page a blob is put on has the blob below the others. -/
theorem BlobsAt.put (h : BlobsAt page.bytes page.freeOffset placed)
    (hslots : page.nSlots = placed.length) (hcheck : coalescedCheck blob = .ok ())
    (hroom : ¬page.Full blob) {smLo blobLo : ℕ}
    (hplace : placeBlobs page.freeOffset blob.sm.length blob.payloadLen = (smLo, blobLo)) :
    ExactPlace page.freeOffset blob.sm.length blob.payloadLen (smLo, blobLo) ∧
      BlobsAt (page.put blob).bytes (page.put blob).freeOffset (placed ++ [⟨blob, smLo, blobLo⟩]) := by
  obtain ⟨hpos, hsm, hpayload, -⟩ := coalescedCheck_ok hcheck
  unfold CoalescedPage.Full at hroom
  simp only [coalescedContentStart_eq, coalescedSlotBytes_eq, coalescedMaxSlots_eq, not_or,
    not_lt, not_le, hplace] at hroom
  have hexact := @placeBlobs_exact page.freeOffset blob.sm.length blob.payloadLen h.le_end hsm hpayload
    (by rw [hplace]; exact hroom.2.1)
  rw [hplace] at hexact
  refine ⟨hexact, ?_⟩
  obtain ⟨hblobLo, hsmLo, haligned⟩ := hexact.bounds
  simp only at hblobLo hsmLo haligned
  have htop := h.le_end
  obtain ⟨hlength', hsm', hpayload', hslot', hsame⟩ := page.put_bytes hplace h.length (by omega)
    hblobLo (by omega)
  have hfree : (page.put blob).freeOffset = blobLo := by
    unfold CoalescedPage.put
    simp only [hplace]
    omega
  rw [hfree]
  constructor
  case length => exact hlength'
  case aligned => exact haligned
  case le_end => omega
  case table =>
    rw [List.length_append, List.length_singleton]
    omega
  case slots =>
    intro i p hp
    rcases Nat.lt_or_ge i placed.length with hi | hi
    · rw [List.getElem?_append_left hi] at hp
      rw [hsame _ _ (by omega)]
      exact h.slots i p hp
    · rw [List.getElem?_append_right hi] at hp
      obtain ⟨hzero, rfl⟩ : i - placed.length = 0 ∧ ⟨blob, smLo, blobLo⟩ = p := by
        cases hdiff : i - placed.length with
        | zero => simpa [hdiff] using hp
        | succ n => simp [hdiff] at hp
      have hi' : i = page.nSlots := by omega
      rw [hi']
      exact hslot'
  case bounds =>
    intro p hp
    rcases List.mem_append.mp hp with hp | hp
    · have hold := h.bounds p hp
      omega
    · obtain rfl := List.mem_singleton.mp hp
      simp only
      omega
  case sm =>
    intro p hp
    rcases List.mem_append.mp hp with hp | hp
    · have hold := h.bounds p hp
      rw [hsame _ _ (by omega)]
      exact h.sm p hp
    · obtain rfl := List.mem_singleton.mp hp
      exact hsm'
  case payload =>
    intro p hp payload heq hlen
    rcases List.mem_append.mp hp with hp | hp
    · have hold := h.bounds p hp
      rw [hsame _ _ (by omega)]
      exact h.payload p hp payload heq hlen
    · obtain rfl := List.mem_singleton.mp hp
      exact hpayload' payload heq hlen
  case apart =>
    rw [List.pairwise_append]
    refine ⟨h.apart, List.pairwise_singleton _ _, ?_⟩
    intro p hp p' hp'
    obtain rfl := List.mem_singleton.mp hp'
    have hold := h.bounds p hp
    simp only
    omega

/-- A page in its block that holds some blobs. -/
structure WrittenBlobs (stored : StoredPage) (placed : List PlacedBlob) : Prop where
  kind : stored.kind = .pagePostingCoalesced
  pdLower : stored.pdLower = 32 + 16 * placed.length
  nSlots : numberAt stored.contents 0 2 = placed.length
  blobs : ∃ freeOffset, BlobsAt stored.contents freeOffset placed

/-- Flushing keeps the table and the blobs. -/
theorem flushCoalescedPage_spec {st : PageStore} (h : BlobsAt page.bytes page.freeOffset placed)
    (hslots : page.nSlots = placed.length) (hblk : page.blkno < st.pages.length) :
    ∃ stored, (flushCoalescedPage page st).pages[page.blkno]? = some stored ∧
      WrittenBlobs stored placed := by
  have hlength := h.length
  have htable := h.table
  have hend := h.le_end
  obtain ⟨header, hheader⟩ : ∃ b, b = wordBytes 2 page.nSlots ++ (wordBytes 2 page.freeOffset ++
    wordBytes 4 0) := ⟨_, rfl⟩
  have hlenHeader : header.length = 8 := by simp [hheader]
  obtain ⟨hole, hhole⟩ : ∃ b : List UInt8,
    b = List.replicate (page.freeOffset - (32 + page.nSlots * 16)) 0 := ⟨_, rfl⟩
  have hlenHole : hole.length = page.freeOffset - (32 + page.nSlots * 16) := by simp [hhole]
  obtain ⟨bytes₁, hbytes₁⟩ : ∃ b, b = putBytes page.bytes 0 header := ⟨_, rfl⟩
  have hlen₁ : bytes₁.length = 8160 := by
    rw [hbytes₁, length_putBytes (by omega), hlength]
  obtain ⟨bytes₂, hbytes₂⟩ : ∃ b, b = putBytes bytes₁ (32 + page.nSlots * 16 - 24) hole := ⟨_, rfl⟩
  have hlen₂ : bytes₂.length = 8160 := by
    rw [hbytes₂, length_putBytes (by omega), hlen₁]
  have hsame : ∀ off len, 8 ≤ off → off + len ≤ 8 + 16 * placed.length ∨ page.freeOffset - 24 ≤ off →
      bytesAt bytes₂ off len = bytesAt page.bytes off len := by
    intro off len hoff hbeside
    rw [hbytes₂, bytesAt_putBytes_of_disjoint (by omega) (by omega), hbytes₁,
      bytesAt_putBytes_of_disjoint (by omega) (by omega)]
  have hfirst : bytesAt bytes₂ 0 8 = header := by
    have hself := @bytesAt_putBytes_self page.bytes header 0 (by omega)
    rw [hlenHeader, ← hbytes₁] at hself
    rw [hbytes₂, bytesAt_putBytes_of_disjoint (by omega) (by omega), hself]
  refine ⟨⟨.pagePostingCoalesced, 0, 32 + page.nSlots * 16, bytes₂⟩, ?_, rfl, ?_, ?_,
    page.freeOffset, ?_⟩
  · rw [hbytes₂, hbytes₁, hheader, hhole]
    exact PageStore.write_self hblk
  · simp only [hslots]
    omega
  · have hfield := @numberAt_bytesAt 0 2 bytes₂ 0 8 (by omega)
    rw [hfirst, Nat.zero_add] at hfield
    simp only
    rw [← hfield, hheader, hslots]
    exact @numberAt_wordBytes [] _ 0 2 placed.length rfl (by omega)
  · constructor
    case length => exact hlen₂
    case aligned => exact h.aligned
    case le_end => exact h.le_end
    case table => exact h.table
    case bounds => exact h.bounds
    case apart => exact h.apart
    case slots =>
      intro i p hp
      have hi := (List.getElem?_eq_some_iff.mp hp).1
      rw [hsame _ _ (by omega) (by omega)]
      exact h.slots i p hp
    case sm =>
      intro p hp
      have hbound := h.bounds p hp
      rw [hsame _ _ (by omega) (by omega)]
      exact h.sm p hp
    case payload =>
      intro p hp payload heq hlen
      have hbound := h.bounds p hp
      rw [hsame _ _ (by omega) (by omega)]
      exact h.payload p hp payload heq hlen

/-- A placed blob's slot has its offsets and lengths without a cut. -/
theorem BlobsAt.small {bytes : List UInt8} {freeOffset : ℕ} (h : BlobsAt bytes freeOffset placed)
    {p : PlacedBlob} (hp : p ∈ placed) :
    p.slot = ⟨p.smLo, p.blob.sm.length,
      if 0 < p.blob.payloadLen ∧ p.blob.payload.isSome then p.blobLo else 0,
      p.blob.payloadLen, p.blob.trigramHash.toNat⟩ := by
  have hbound := h.bounds p hp
  unfold PlacedBlob.slot CoalescedBlob.slot
  simp only [CoalescedSlot.mk.injEq]
  refine ⟨by omega, by omega, ?_, by omega, trivial⟩
  split_ifs with hpay
  · omega
  · rfl

/-- The slots are read as they were written. -/
theorem WrittenBlobs.readCoalescedSlot {stored : StoredPage} (h : WrittenBlobs stored placed) {i : ℕ}
    {p : PlacedBlob} (hp : placed[i]? = some p) : readCoalescedSlot stored i = p.slot := by
  obtain ⟨freeOffset, hblobs⟩ := h.blobs
  have hentry := hblobs.slots i p hp
  have hmem := List.mem_of_getElem? hp
  have hbound := hblobs.bounds p hmem
  have hfree := hblobs.table
  have hfield : ∀ off k, off + k ≤ 16 →
      numberAt stored.contents (8 + 16 * i + off) k = numberAt p.slot.encode off k := by
    intro off k hoff
    rw [← numberAt_bytesAt hoff, hentry]
  have hslot := hblobs.small hmem
  unfold PgTre.readCoalescedSlot
  simp only [maxAlign_eight, coalescedSlotBytes_eq]
  have h₀ := hfield 0 2 (by omega)
  rw [Nat.add_zero] at h₀
  rw [h₀, hfield 2 2 (by omega), hfield 4 2 (by omega), hfield 6 2 (by omega), hfield 8 8 (by omega),
    hslot]
  have hhash : p.blob.trigramHash.toNat < 256 ^ 8 := p.blob.trigramHash.toNat_lt
  have hoffset : (if 0 < p.blob.payloadLen ∧ p.blob.payload.isSome then p.blobLo else 0) < 256 ^ 2 := by
    split_ifs
    · omega
    · omega
  unfold CoalescedSlot.encode
  simp only [CoalescedSlot.mk.injEq]
  refine ⟨?_, ?_, ?_, ?_, ?_⟩
  · exact @numberAt_wordBytes [] _ 0 2 p.smLo rfl (by omega)
  · exact @numberAt_wordBytes (wordBytes 2 p.smLo) _ 2 2 p.blob.sm.length (by simp) (by omega)
  · rw [← List.append_assoc]
    exact @numberAt_wordBytes (wordBytes 2 p.smLo ++ wordBytes 2 p.blob.sm.length) _ 4 2 _ (by simp)
      hoffset
  · rw [← List.append_assoc, ← List.append_assoc]
    exact @numberAt_wordBytes (wordBytes 2 p.smLo ++ wordBytes 2 p.blob.sm.length ++
      wordBytes 2 _) _ 6 2 p.blob.payloadLen (by simp) (by omega)
  · rw [← List.append_assoc, ← List.append_assoc, ← List.append_assoc,
      ← List.append_nil (wordBytes 8 p.blob.trigramHash.toNat)]
    exact @numberAt_wordBytes (wordBytes 2 p.smLo ++ wordBytes 2 p.blob.sm.length ++
      wordBytes 2 _ ++ wordBytes 2 p.blob.payloadLen) [] 8 8 p.blob.trigramHash.toNat (by simp) hhash

/-- A slot inside the content area passes the page check. -/
theorem slotWithinPage_of {slot : CoalescedSlot}
    (hsm : 32 ≤ slot.smOffset ∧ slot.smOffset + slot.smLength ≤ 8184)
    (hpayload : slot.payloadOffset ≠ 0 →
      32 ≤ slot.payloadOffset ∧ slot.payloadOffset + slot.payloadLength ≤ 8184) :
    slotWithinPage slot = true := by
  have hstart : coalescedContentStart = 32 := rfl
  have hend : coalescedUsableEnd = 8184 := rfl
  unfold slotWithinPage
  rw [if_neg (by omega), if_neg (by omega)]
  by_cases hzero : slot.payloadOffset ≠ 0
  · have hbound := hpayload hzero
    rw [if_pos hzero, if_neg (by omega), if_neg (by omega)]
  · rw [if_neg hzero]

/-- A slot resolves to the bytes that were added for its trigram. -/
theorem WrittenBlobs.resolve {stored : StoredPage} (h : WrittenBlobs stored placed) {i : ℕ}
    {p : PlacedBlob} (hp : placed[i]? = some p) {st : PageStore} {blkno : BlockNumber}
    (hget : st.pages[blkno]? = some stored) {trigramHash : UInt64}
    (hhash : trigramHash.toNat = coalescedHashAny ∨ trigramHash = p.blob.trigramHash) :
    pgTreCoalescedResolveSlot st blkno i trigramHash = .ok (some p.blob.sm) := by
  have hslot := h.readCoalescedSlot hp
  obtain ⟨freeOffset, hblobs⟩ := h.blobs
  have hmem := List.mem_of_getElem? hp
  have hbound := hblobs.bounds p hmem
  have htable := hblobs.table
  have hi := (List.getElem?_eq_some_iff.mp hp).1
  rw [hblobs.small hmem] at hslot
  have hread : st.read blkno .pagePostingCoalesced = .ok stored := PageStore.read_eq_ok hget h.kind
  have hwithin : slotWithinPage (PgTre.readCoalescedSlot stored i) = true := by
    rw [hslot]
    apply slotWithinPage_of
    · simp only
      omega
    · simp only
      intro hpay
      split_ifs at hpay ⊢ with h
      · omega
      · exact absurd rfl hpay
  have hok : ¬(¬(trigramHash.toNat = coalescedHashAny ∨
      p.blob.trigramHash.toNat = trigramHash.toNat) ∨ (!true) = true) := by
    rintro (hno | hfalse)
    · apply hno
      exact hhash.imp_right fun heq => congrArg UInt64.toNat heq.symm
    · cases hfalse
  unfold pgTreCoalescedResolveSlot
  rw [hread]
  simp only [bind, Except.bind, h.nSlots, pure, Except.pure]
  rw [if_neg (by omega), hwithin, hslot]
  simp only
  rw [if_neg (by omega), if_neg hok, ite_self, StoredPage.region_eq, maxAlign_pageHeader,
    hblobs.sm p hmem]
  rw [maxAlign_pageHeader, hblobs.length]
  omega

/-- The table of a page and the blobs its slots point at, each with its length. -/
def coalescedRegions (stored : StoredPage) : List (ℕ × ℕ) :=
  let n := numberAt stored.contents 0 2
  (coalescedContentStart, coalescedSlotBytes * n) ::
  ((List.range n).map (readCoalescedSlot stored)).flatMap
    fun slot => (slot.smOffset, slot.smLength) ::
      if slot.payloadOffset ≠ 0 then [(slot.payloadOffset, slot.payloadLength)] else []

/-- Two regions have no byte in common. -/
def Apart (r r' : ℕ × ℕ) : Prop := r.1 + r.2 ≤ r'.1 ∨ r'.1 + r'.2 ≤ r.1

/-- All regions are in the usable area, and no two of them have a byte in common. -/
structure RegionsApart (regions : List (ℕ × ℕ)) : Prop where
  within : ∀ r ∈ regions, coalescedContentStart ≤ r.1 ∧ r.1 + r.2 ≤ coalescedUsableEnd
  apart : regions.Pairwise Apart

/-- The regions of a page that was written. -/
theorem WrittenBlobs.regionsApart {stored : StoredPage} (h : WrittenBlobs stored placed) :
    RegionsApart (coalescedRegions stored) := by
  obtain ⟨freeOffset, hblobs⟩ := h.blobs
  have htable := hblobs.table
  have hslots : (List.range placed.length).map (PgTre.readCoalescedSlot stored) =
      placed.map PlacedBlob.slot := by
    apply List.ext_getElem
    · simp
    · intro i hi hi'
      rw [List.length_map] at hi'
      simp only [List.getElem_map, List.getElem_range]
      exact h.readCoalescedSlot (List.getElem?_eq_getElem hi')
  -- The regions of one slot lie between its lower blob and the end of the other.
  have hregion : ∀ p ∈ placed, ∀ r ∈ (p.slot.smOffset, p.slot.smLength) ::
      (if p.slot.payloadOffset ≠ 0 then [(p.slot.payloadOffset, p.slot.payloadLength)] else []),
      p.blobLo ≤ r.1 ∧ r.1 + r.2 ≤ p.smLo + p.blob.sm.length := by
    intro p hp r hr
    have hbound := hblobs.bounds p hp
    rw [hblobs.small hp] at hr
    rcases List.mem_cons.mp hr with rfl | hr
    · simp only
      omega
    · by_cases hpay : 0 < p.blob.payloadLen ∧ p.blob.payload.isSome
      · simp only [if_pos hpay] at hr
        split_ifs at hr with hzero
        · obtain rfl := List.mem_singleton.mp hr
          simp only
          omega
        · simp at hr
      · simp [if_neg hpay] at hr
  unfold coalescedRegions
  simp only [h.nSlots, hslots, List.flatMap_map]
  have hstart : coalescedContentStart = 32 := rfl
  have hend : coalescedUsableEnd = 8184 := rfl
  have hwidth : coalescedSlotBytes = 16 := rfl
  constructor
  · intro r hr
    rcases List.mem_cons.mp hr with rfl | hr
    · have hle := hblobs.le_end
      simp only [hwidth]
      omega
    · obtain ⟨p, hp, hr⟩ := List.mem_flatMap.mp hr
      have hbound := hblobs.bounds p hp
      have hin := hregion p hp r hr
      omega
  · rw [List.pairwise_cons]
    constructor
    · intro r hr
      obtain ⟨p, hp, hr⟩ := List.mem_flatMap.mp hr
      have hbound := hblobs.bounds p hp
      have hin := hregion p hp r hr
      left
      simp only [hwidth]
      omega
    · rw [List.pairwise_flatMap]
      constructor
      · intro p hp
        have hbound := hblobs.bounds p hp
        rw [List.pairwise_cons]
        constructor
        · intro r hr
          right
          rw [hblobs.small hp] at hr ⊢
          by_cases hpay : 0 < p.blob.payloadLen ∧ p.blob.payload.isSome
          · simp only [if_pos hpay] at hr
            split_ifs at hr with hzero
            · obtain rfl := List.mem_singleton.mp hr
              simp only
              omega
            · simp at hr
          · simp [if_neg hpay] at hr
        · split_ifs
          · exact List.pairwise_singleton _ _
          · exact List.Pairwise.nil
      · apply hblobs.apart.imp_of_mem
        intro p p' hp hp' hbelow r hr r' hr'
        have hin := hregion p hp r hr
        have hin' := hregion p' hp' r' hr'
        right
        omega

end

/-! ## Runs of the writer -/

/-- What was added, and what `pg_tre_coalesced_add` returned for it. -/
structure CoalescedEntry where
  blob : CoalescedBlob
  blkno : BlockNumber
  slot : ℕ

/-- A run of a writer, with what was added so far. Between two calls the index may get other pages;
nothing that is written changes, and the page that is held stays as it is. -/
inductive CoalescedRun : CoalescedWriter → PageStore → List CoalescedEntry → Prop
  | begin (st : PageStore) : CoalescedRun none st []
  | add {w w' : CoalescedWriter} {st st' : PageStore} {log : List CoalescedEntry}
      {blob : CoalescedBlob} {blkno : BlockNumber} {slot : ℕ} (run : CoalescedRun w st log)
      (h : pgTreCoalescedAdd w st blob = .ok ((blkno, slot), w', st')) :
      CoalescedRun w' st' (log ++ [⟨blob, blkno, slot⟩])
  | other {w : CoalescedWriter} {st st' : PageStore} {log : List CoalescedEntry}
      (run : CoalescedRun w st log) (hkeeps : st.Keeps st')
      (hheld : ∀ page, w = some page → st'.pages[page.blkno]? = st.pages[page.blkno]?) :
      CoalescedRun w st' log

/-- An entry is on a page that was written. -/
def CoalescedEntry.Written (e : CoalescedEntry) (st : PageStore) : Prop :=
  ∃ stored placed p, st.pages[e.blkno]? = some stored ∧ WrittenBlobs stored placed ∧
    placed[e.slot]? = some p ∧ p.blob = e.blob

/-- A written entry stays written while the pages are kept. -/
theorem CoalescedEntry.Written.keeps {e : CoalescedEntry} {st st' : PageStore} (h : e.Written st)
    (hkeeps : st.Keeps st') : e.Written st' := by
  obtain ⟨stored, placed, p, hget, hblobs, hp, heq⟩ := h
  refine ⟨stored, placed, p, hkeeps _ _ hget ?_, hblobs, hp, heq⟩
  have hlower := hblobs.pdLower
  have hheader : sizeOfPageHeaderData = 24 := rfl
  unfold StoredPage.Blank
  omega

/-- The open page of a writer: the blobs on it, and its block, which is still blank. -/
structure CoalescedPage.Open (page : CoalescedPage) (st : PageStore) (placed : List PlacedBlob) :
    Prop where
  nSlots : page.nSlots = placed.length
  blobs : BlobsAt page.bytes page.freeOffset placed
  block : st.pages[page.blkno]? = some (pgTrePageInit .pagePostingCoalesced)

/-- Between two calls every entry is on the open page or on a page that was written. -/
structure CoalescedInv (w : CoalescedWriter) (st : PageStore) (log : List CoalescedEntry)
    (placed : List PlacedBlob) : Prop where
  opened : ∀ page, w = some page → page.Open st placed
  entries : ∀ e ∈ log, (∃ page p, w = some page ∧ page.blkno = e.blkno ∧ placed[e.slot]? = some p ∧
    p.blob = e.blob) ∨ e.Written st

section

variable {w w' : CoalescedWriter} {st st' : PageStore} {log : List CoalescedEntry}
  {placed : List PlacedBlob} {blob : CoalescedBlob}

/-- The block of an open page is blank. -/
theorem CoalescedPage.Open.keeps_write {page : CoalescedPage} (h : page.Open st placed)
    (stored : StoredPage) : st.Keeps (st.write page.blkno stored) := by
  apply PageStore.keeps_write
  intro page' hget
  rw [h.block] at hget
  rw [← Option.some.inj hget]
  exact le_rfl

/-- After the open page is flushed all entries are on pages that were written. -/
theorem CoalescedInv.finish (h : CoalescedInv w st log placed) :
    ∀ e ∈ log, e.Written (pgTreCoalescedWriterFinish w st) := by
  intro e he
  cases w with
  | none =>
    rcases h.entries e he with ⟨page, p, hpage, -⟩ | hwritten
    · cases hpage
    · exact hwritten
  | some page =>
    have hopen := h.opened page rfl
    rcases h.entries e he with ⟨page', p, hpage, hblk, hp, heq⟩ | hwritten
    · obtain rfl := Option.some.inj hpage
      obtain ⟨stored, hget, hblobs⟩ := flushCoalescedPage_spec hopen.blobs hopen.nSlots
        (List.getElem?_eq_some_iff.mp hopen.block).1
      rw [hblk] at hget
      exact ⟨stored, placed, p, hget, hblobs, hp, heq⟩
    · exact hwritten.keeps (hopen.keeps_write _)

/-- The fresh page holds no blob. -/
theorem blobsAt_nil {bytes : List UInt8} (h : bytes.length = 8160) : BlobsAt bytes 8184 [] where
  length := h
  aligned := rfl
  le_end := le_rfl
  table := by simp
  slots := by simp
  bounds := by simp
  sm := by simp
  payload := by simp
  apart := List.Pairwise.nil

/-- A new page is opened on a block that was blank. -/
theorem openCoalescedPage_spec {page : CoalescedPage} (hopen : openCoalescedPage st = (page, st')) :
    st.Keeps st' ∧ st'.pages[page.blkno]? = some (pgTrePageInit .pagePostingCoalesced) ∧
      page.nSlots = 0 ∧ page.freeOffset = 8184 ∧ page.bytes.length = 8160 := by
  unfold openCoalescedPage at hopen
  cases hextend : st.extend [] .pagePostingCoalesced with
  | mk blkno st₁ =>
    rw [hextend] at hopen
    obtain ⟨rfl, rfl⟩ := Prod.mk.inj hopen
    obtain ⟨-, hblank, hnew, hothers, -⟩ := PageStore.extend_spec (by simp) hextend
    refine ⟨?_, hnew, rfl, rfl, List.length_replicate⟩
    intro b page hget hfull
    have hne : b ≠ blkno := by
      rintro rfl
      exact hfull (hblank page hget)
    rw [hothers b hne, hget]

/-- A new page is opened when all entries are on pages that were written. -/
theorem openCoalescedPage_inv (h : ∀ e ∈ log, e.Written st) {page : CoalescedPage}
    (hopen : openCoalescedPage st = (page, st')) : CoalescedInv (some page) st' log [] := by
  obtain ⟨hkeeps, hnew, hslots, hfree, hlength⟩ := openCoalescedPage_spec hopen
  refine ⟨?_, fun e he => Or.inr ((h e he).keeps hkeeps)⟩
  intro page' hpage'
  obtain rfl := Option.some.inj hpage'
  refine ⟨hslots, ?_, hnew⟩
  rw [hfree]
  exact blobsAt_nil hlength

/-- The page a blob goes to has room for it. -/
theorem coalescedPageFor_inv (h : CoalescedInv w st log placed)
    (hcheck : coalescedCheck blob = .ok ()) {page : CoalescedPage}
    (hpage : coalescedPageFor w st blob = (page, st')) :
    ∃ placed', CoalescedInv (some page) st' log placed' ∧ ¬page.Full blob := by
  have hopened : ∃ page₀ st₀ placed₀, (match w with
      | some page => (page, st)
      | none => openCoalescedPage st) = (page₀, st₀) ∧ CoalescedInv (some page₀) st₀ log placed₀ := by
    cases w with
    | none =>
      have hwritten := h.finish
      cases hopen : openCoalescedPage st with
      | mk page₀ st₀ => exact ⟨page₀, st₀, [], rfl, openCoalescedPage_inv hwritten hopen⟩
    | some page₀ => exact ⟨page₀, st, placed, rfl, h⟩
  obtain ⟨page₀, st₀, placed₀, hopen, hinv⟩ := hopened
  unfold coalescedPageFor at hpage
  simp only [hopen] at hpage
  split_ifs at hpage with hfull
  · obtain ⟨-, -, hslots, hfree, -⟩ := openCoalescedPage_spec hpage
    exact ⟨[], openCoalescedPage_inv hinv.finish hpage, not_full_of_new hslots hfree hcheck⟩
  · obtain ⟨rfl, rfl⟩ := Prod.mk.inj hpage
    exact ⟨placed₀, hinv, hfull⟩

/-- Finding the page for a blob writes on blank pages only. -/
theorem coalescedPageFor_keeps (h : CoalescedInv w st log placed) {page : CoalescedPage}
    (hpage : coalescedPageFor w st blob = (page, st')) : st.Keeps st' := by
  have hflush : ∀ {page₀ : CoalescedPage} {st₀ : PageStore} {placed₀ : List PlacedBlob},
      page₀.Open st₀ placed₀ →
        (if page₀.Full blob then openCoalescedPage (flushCoalescedPage page₀ st₀) else (page₀, st₀)) =
          (page, st') → st₀.Keeps st' := by
    intro page₀ st₀ placed₀ hopen heq
    split_ifs at heq with hfull
    · exact (hopen.keeps_write _).trans (openCoalescedPage_spec heq).1
    · obtain ⟨-, rfl⟩ := Prod.mk.inj heq
      exact PageStore.Keeps.refl _
  unfold coalescedPageFor at hpage
  cases w with
  | some page₀ => exact hflush (h.opened page₀ rfl) hpage
  | none =>
    cases hopen : openCoalescedPage st with
    | mk page₀ st₀ =>
      simp only [hopen] at hpage
      have hopened := (openCoalescedPage_inv h.finish hopen).opened page₀ rfl
      exact (openCoalescedPage_spec hopen).1.trans (hflush hopened hpage)

/-- A blob that passes the checks is added. -/
theorem pgTreCoalescedAdd_of_check (hcheck : coalescedCheck blob = .ok ()) :
    pgTreCoalescedAdd w st blob =
      .ok (((coalescedPageFor w st blob).1.blkno, (coalescedPageFor w st blob).1.nSlots),
        some ((coalescedPageFor w st blob).1.put blob), (coalescedPageFor w st blob).2) := by
  unfold pgTreCoalescedAdd
  rw [hcheck]
  rfl

/-- What `pg_tre_coalesced_add` does when its checks pass. -/
theorem pgTreCoalescedAdd_ok {blkno : BlockNumber} {slot : ℕ}
    (hadd : pgTreCoalescedAdd w st blob = .ok ((blkno, slot), w', st')) :
    coalescedCheck blob = .ok () ∧ ∃ page, coalescedPageFor w st blob = (page, st') ∧
      blkno = page.blkno ∧ slot = page.nSlots ∧ w' = some (page.put blob) := by
  unfold pgTreCoalescedAdd at hadd
  cases hcheck : coalescedCheck blob with
  | error e =>
    rw [hcheck] at hadd
    cases hadd
  | ok u =>
    rw [hcheck] at hadd
    simp only [bind, Except.bind, pure, Except.pure, Except.ok.injEq, Prod.mk.injEq] at hadd
    obtain ⟨⟨rfl, rfl⟩, rfl, rfl⟩ := hadd
    exact ⟨rfl, _, rfl, rfl, rfl, rfl⟩

/-- A call adds its entry. Its blobs are put at exact places. -/
theorem CoalescedInv.add (h : CoalescedInv w st log placed) {blkno : BlockNumber} {slot : ℕ}
    (hadd : pgTreCoalescedAdd w st blob = .ok ((blkno, slot), w', st')) :
    (∃ placed', CoalescedInv w' st' (log ++ [⟨blob, blkno, slot⟩]) placed') ∧
      ExactPlace (coalescedPageFor w st blob).1.freeOffset blob.sm.length blob.payloadLen
        (placeBlobs (coalescedPageFor w st blob).1.freeOffset blob.sm.length blob.payloadLen) := by
  obtain ⟨hcheck, page, hpage, rfl, rfl, rfl⟩ := pgTreCoalescedAdd_ok hadd
  obtain ⟨placed', hinv, hroom⟩ := coalescedPageFor_inv h hcheck hpage
  have hopen := hinv.opened page rfl
  cases hplace : placeBlobs page.freeOffset blob.sm.length blob.payloadLen with
  | mk smLo blobLo =>
    obtain ⟨hexact, hblobs⟩ := hopen.blobs.put hopen.nSlots hcheck hroom hplace
    have hblk : (page.put blob).blkno = page.blkno := rfl
    have hslots : (page.put blob).nSlots = page.nSlots + 1 := rfl
    rw [hpage]
    simp only [hplace]
    refine ⟨⟨placed' ++ [⟨blob, smLo, blobLo⟩], ?_, ?_⟩, hexact⟩
    · intro page' hpage'
      obtain rfl := Option.some.inj hpage'
      refine ⟨?_, hblobs, hopen.block⟩
      rw [hslots, hopen.nSlots, List.length_append, List.length_singleton]
    · intro e he
      rcases List.mem_append.mp he with he | he
      · rcases hinv.entries e he with ⟨page', p, hpage', hblk', hp, heq⟩ | hwritten
        · obtain rfl := Option.some.inj hpage'
          left
          refine ⟨_, p, rfl, hblk', ?_, heq⟩
          rw [List.getElem?_append_left (List.getElem?_eq_some_iff.mp hp).1, hp]
        · exact Or.inr hwritten
      · obtain rfl := List.mem_singleton.mp he
        left
        refine ⟨_, ⟨blob, smLo, blobLo⟩, rfl, rfl, ?_, rfl⟩
        simp only
        rw [hopen.nSlots, List.getElem?_concat_length]

/-- The invariant holds throughout a run. -/
theorem CoalescedRun.inv (run : CoalescedRun w st log) : ∃ placed, CoalescedInv w st log placed := by
  induction run with
  | begin st =>
    refine ⟨[], ?_, ?_⟩
    · intro page hpage
      cases hpage
    · simp
  | add run h ih =>
    obtain ⟨placed, hinv⟩ := ih
    exact (hinv.add h).1
  | other run hkeeps hheld ih =>
    obtain ⟨placed, hinv⟩ := ih
    refine ⟨placed, ?_, ?_⟩
    · intro page hpage
      have hopen := hinv.opened page hpage
      exact ⟨hopen.nSlots, hopen.blobs, (hheld page hpage).trans hopen.block⟩
    · intro e he
      rcases hinv.entries e he with hopen | hwritten
      · exact Or.inl hopen
      · exact Or.inr (hwritten.keeps hkeeps)

/-- The pages that a writer leaves when it finishes. Every blob is on a page with its table and its
blobs apart, and its slot resolves to its bytes. A blob that passes the checks is always added. A
difference that wraps around is noticed and sends the blob to a new page, so that the places that
are used come from differences that do not. -/
theorem coalescedRun_apart_resolve (run : CoalescedRun w st log) :
    (∀ e ∈ log, ∃ stored, (pgTreCoalescedWriterFinish w st).pages[e.blkno]? = some stored ∧
      RegionsApart (coalescedRegions stored) ∧
      pgTreCoalescedResolveSlot (pgTreCoalescedWriterFinish w st) e.blkno e.slot
        e.blob.trigramHash = .ok (some e.blob.sm)) ∧
      ∀ blob, coalescedCheck blob = .ok () →
        let page := (coalescedPageFor w st blob).1
        (∃ w' st', pgTreCoalescedAdd w st blob = .ok ((page.blkno, page.nSlots), w', st')) ∧
          ExactPlace page.freeOffset blob.sm.length blob.payloadLen
            (placeBlobs page.freeOffset blob.sm.length blob.payloadLen) := by
  obtain ⟨placed, hinv⟩ := run.inv
  constructor
  · intro e he
    obtain ⟨stored, placed', p, hget, hblobs, hp, heq⟩ := hinv.finish e he
    refine ⟨stored, hget, hblobs.regionsApart, ?_⟩
    rw [← heq]
    exact hblobs.resolve hp hget (Or.inr rfl)
  · intro blob hcheck page
    have hadd := @pgTreCoalescedAdd_of_check w st blob hcheck
    exact ⟨⟨_, _, hadd⟩, (hinv.add hadd).2⟩

end

/-- Two blobs on one page. -/
theorem coalescedRun_apart_resolve_two :
    ∃ w st, CoalescedRun w st [⟨⟨7, [1, 2, 3], 0, none, by simp⟩, 0, 0⟩,
        ⟨⟨9, [4, 5], 1, some [6], by simp⟩, 0, 1⟩] ∧
      pgTreCoalescedResolveSlot (pgTreCoalescedWriterFinish w st) 0 1 9 = .ok (some [4, 5]) := by
  have hfirst := @CoalescedRun.add none _ _ _ _ ⟨7, [1, 2, 3], 0, none, by simp⟩ 0 0
    (CoalescedRun.begin ⟨1, [], []⟩) rfl
  have hrun := @CoalescedRun.add _ _ _ _ _ ⟨9, [4, 5], 1, some [6], by simp⟩ 0 1 hfirst rfl
  refine ⟨_, _, hrun, ?_⟩
  obtain ⟨stored, -, -, hresolve⟩ := (coalescedRun_apart_resolve hrun).1
    ⟨⟨9, [4, 5], 1, some [6], by simp⟩, 0, 1⟩ (by simp)
  exact hresolve

/-- After a blob that fills the page, the difference that is taken for the next one wraps around. -/
theorem coalescedRun_wraps : ∃ (page : CoalescedPage) (st : PageStore) (log : List CoalescedEntry)
    (blob : CoalescedBlob), CoalescedRun (some page) st log ∧ coalescedCheck blob = .ok () ∧
      (sizeSub page.freeOffset blob.sm.length : ℤ) ≠ (page.freeOffset : ℤ) - blob.sm.length := by
  obtain ⟨big, hsm, hpay⟩ : ∃ big : CoalescedBlob, big.sm.length = 8136 ∧ big.payloadLen = 0 :=
    ⟨⟨7, List.replicate 8136 0, 0, none, by simp⟩, List.length_replicate, rfl⟩
  have hcheck : coalescedCheck big = .ok () := by
    unfold coalescedCheck slotFootprint
    rw [hsm, hpay]
    rfl
  have hrun := CoalescedRun.begin ⟨1, [], []⟩
  obtain ⟨⟨w', st', hadd⟩, -⟩ := (coalescedRun_apart_resolve hrun).2 big hcheck
  obtain ⟨-, page, hpage, -, -, rfl⟩ := pgTreCoalescedAdd_ok hadd
  have hfree : (page.put big).freeOffset = 48 := by
    have hnew : coalescedPageFor none ⟨1, [], []⟩ big = openCoalescedPage ⟨1, [], []⟩ := by
      unfold coalescedPageFor
      exact if_neg (not_full_of_new rfl rfl hcheck)
    rw [hnew] at hpage
    obtain ⟨rfl, -⟩ := Prod.mk.inj hpage
    unfold CoalescedPage.put
    rw [hsm, hpay]
    rfl
  refine ⟨page.put big, st', _, ⟨9, List.replicate 100 0, 0, none, by simp⟩, hrun.add hadd, rfl, ?_⟩
  rw [hfree, List.length_replicate]
  decide

end PgTre
