import PgTre.Util.Allocation
import PgTre.Pages.TidPacking
import Mathlib.Data.Finset.Sort
import Mathlib.Order.Interval.Finset.Nat

/-!
# Postings as bytes

A posting is stored as the bytes of a sparsemap, with a stream of payload entries behind it in older
indexes: one for each TID, in the order of the TIDs. The bytes stand inline in an upper leaf, on the
leaves of a chain, or in a slot of a coalesced page. VACUUM repacks the first two kinds. It reads a
blob, drops the dead TIDs with their payload, and writes the bytes anew.

The sparsemap library is a parameter. Its maps are sets of TIDs, and what it says about their bytes
is stated where it is used.
-/

namespace PgTre.Bytes

open Allocating

/-! ## The library -/

/-- The sparsemap library as far as postings are read and written with it. -/
structure SparsemapLibrary where
  /-- The bytes of a map that was built anew: `sm_get_data` and `sm_get_size`. -/
  encode : Finset ℕ → List UInt8
  /-- `sm_wrap` and `sm_open` over some bytes: the map and the size `sm_get_size` reports. -/
  smOpen : List UInt8 → Finset ℕ × ℕ
  /-- `sm_open_copy`, when there is memory: `NULL`, or the map and its size. -/
  smOpenCopy : List UInt8 → Option (Finset ℕ × ℕ)

/-- The TIDs that a map can hold: they are packed, and no run of consecutive ones is longer than a
chunk that is one run can be. -/
structure Storable (s : Finset ℕ) : Prop where
  packed : ∀ tid ∈ s, tid < 2 ^ 48
  short : ∀ lo hi, (∀ tid, lo ≤ tid → tid < hi → tid ∈ s) → hi - lo ≤ 2 ^ 31 - 2048

/-- Fewer TIDs can be held. -/
theorem Storable.subset {s t : Finset ℕ} (h : Storable t) (hsub : s ⊆ t) : Storable s :=
  ⟨fun tid htid => h.packed tid (hsub htid),
    fun lo hi hrun => h.short lo hi fun tid hlo hhi => hsub (hrun tid hlo hhi)⟩

/-- No run is longer than the number of TIDs. -/
theorem storable_of_card {s : Finset ℕ} (hpacked : ∀ tid ∈ s, tid < 2 ^ 48)
    (hcard : s.card ≤ 2 ^ 31 - 2048) : Storable s := by
  refine ⟨hpacked, fun lo hi hrun => ?_⟩
  have hsub : Finset.Ico lo hi ⊆ s := fun n hn =>
    hrun n (Finset.mem_Ico.mp hn).1 (Finset.mem_Ico.mp hn).2
  have hle := Finset.card_le_card hsub
  rw [Nat.card_Ico] at hle
  exact hle.trans hcard

/-- The library reads what it wrote, if a map can hold it. A copy may be opened with other bytes behind
those of the map. -/
structure SparsemapLibrary.Lawful (lib : SparsemapLibrary) : Prop where
  open_encode : ∀ s, Storable s → lib.smOpen (lib.encode s) = (s, (lib.encode s).length)
  openCopy_encode : ∀ s rest, Storable s →
    lib.smOpenCopy (lib.encode s ++ rest) = some (s, (lib.encode s).length)
  /-- Every map has its header. -/
  header : ∀ s, Storable s → 8 ≤ (lib.encode s).length

/-- The library reads the copy of a map that it wrote. -/
structure SparsemapLibrary.Reads (lib : SparsemapLibrary) (s : Finset ℕ) : Prop where
  openCopy : lib.smOpenCopy (lib.encode s) = some (s, (lib.encode s).length)
  header : 8 ≤ (lib.encode s).length

/-- A lawful library reads back what it stored. -/
theorem SparsemapLibrary.Lawful.reads {lib : SparsemapLibrary} (h : lib.Lawful) {s : Finset ℕ}
    (hs : Storable s) : lib.Reads s := by
  have hopen := h.openCopy_encode s [] hs
  rw [List.append_nil] at hopen
  exact ⟨hopen, h.header s hs⟩

/-- `sm_open_copy`, guarded or not. -/
def requestOpenCopy (guarded : Bool) (lib : SparsemapLibrary) (bytes : List UInt8) :
    Allocating (Option (Finset ℕ × ℕ)) :=
  .request guarded fun met => .done (if met then lib.smOpenCopy bytes else none)

/-! ## Payload -/

/-- The bytes of a bloom filter: `(PG_TRE_BLOOM_TUPLE_BITS + 7) / 8`. -/
def bloomBytes : ℕ := (128 + 7) / 8

/-- The first entry of a payload stream and the rest: a count of positions in two bytes, the
positions of four bytes each, and the bloom filter. -/
def splitEntry (payload : List UInt8) : Option (List UInt8 × List UInt8) :=
  match payload with
  | lo :: hi :: rest =>
      let step := 2 + (lo.toNat + 256 * hi.toNat) * 4 + bloomBytes
      if (lo :: hi :: rest).length < step then none
      else some ((lo :: hi :: rest).take step, (lo :: hi :: rest).drop step)
  | _ => none

/-- The bytes are one whole entry. -/
def IsEntry (entry : List UInt8) : Prop := splitEntry entry = some (entry, [])

/-- An entry is split off what follows it. -/
theorem IsEntry.splitEntry_append {entry : List UInt8} (h : IsEntry entry) (rest : List UInt8) :
    splitEntry (entry ++ rest) = some (entry, rest) := by
  match entry, h with
  | lo :: hi :: tail, h =>
    simp only [IsEntry, splitEntry] at h
    split_ifs at h with hshort
    simp only [Option.some.injEq, Prod.mk.injEq] at h
    have hlen : (lo :: hi :: tail).length ≤ 2 + (lo.toNat + 256 * hi.toNat) * 4 + bloomBytes :=
      List.drop_eq_nil_iff.mp h.2
    have heq : 2 + (lo.toNat + 256 * hi.toNat) * 4 + bloomBytes = (lo :: hi :: tail).length := by
      omega
    simp only [List.cons_append, splitEntry, heq]
    rw [if_neg (by simp), ← List.cons_append, ← List.cons_append, List.take_left' rfl,
      List.drop_left' rfl]

/-- An entry has bytes. -/
theorem IsEntry.ne_nil {entry : List UInt8} (h : IsEntry entry) : entry ≠ [] := by
  rintro rfl
  simp [IsEntry, splitEntry] at h

/-- The loop over the members of a map, with the payload in lockstep: the TIDs it keeps, their
payload, and the number of TIDs it drops. A payload that ends too soon is corrupt. -/
def repackMembers (hasPayload : Bool) (dead : ℕ → Bool) :
    List ℕ → List UInt8 → Option (List ℕ × List UInt8 × ℕ)
  | [], _ => some ([], [], 0)
  | member :: members, payload =>
      match (if hasPayload then splitEntry payload else some ([], payload)) with
      | none => none
      | some (entry, rest) =>
          match repackMembers hasPayload dead members rest with
          | none => none
          | some (keep, newPayload, removed) =>
              if dead member then some (keep, newPayload, removed + 1)
              else some (member :: keep, entry ++ newPayload, removed)

/-! ## What a posting holds -/

/-- The TIDs of a posting in their order, each with its payload entry, if the posting has payload. -/
abbrev Items := List (ℕ × List UInt8)

/-- The set of the TIDs. -/
def Items.tids (items : Items) : Finset ℕ := (items.map Prod.fst).toFinset

/-- The TIDs ascend, a map can hold them, and all of them have a payload entry or none. -/
structure Items.Wf (items : Items) : Prop where
  ascending : (items.map Prod.fst).Pairwise (· < ·)
  storable : Storable items.tids
  payload : (∀ item ∈ items, item.2 = []) ∨ ∀ item ∈ items, IsEntry item.2

/-- The payload stream. -/
def Items.payload (items : Items) : List UInt8 := items.flatMap Prod.snd

/-- The items whose TIDs are not dead. -/
def Items.live (items : Items) (dead : ℕ → Bool) : Items := items.filter fun item => !dead item.1

section

variable {items : Items} {dead : ℕ → Bool}

/-- The members of the map are the TIDs in order. -/
theorem Items.Wf.sort_tids (h : items.Wf) : items.tids.sort (· ≤ ·) = items.map Prod.fst := by
  refine List.Perm.eq_of_pairwise (fun a b _ _ hab hba => Nat.le_antisymm hab hba)
    (items.tids.pairwise_sort (· ≤ ·)) (h.ascending.imp Nat.le_of_lt) ?_
  refine (List.perm_ext_iff_of_nodup (items.tids.sort_nodup (· ≤ ·)) ?_).mpr fun tid => ?_
  · exact h.ascending.imp Nat.ne_of_lt
  · rw [Finset.mem_sort, Items.tids, List.mem_toFinset]

/-- The live items have some of the TIDs. -/
theorem Items.tids_live_subset (items : Items) (dead : ℕ → Bool) :
    (items.live dead).tids ⊆ items.tids := by
  intro tid htid
  obtain ⟨item, hitem, rfl⟩ := List.mem_map.mp (List.mem_toFinset.mp htid)
  exact List.mem_toFinset.mpr (List.mem_map_of_mem (List.mem_filter.mp hitem).1)

/-- Fewer items are well-formed. -/
theorem Items.Wf.live (h : items.Wf) (dead : ℕ → Bool) : (items.live dead).Wf := by
  have hsub : (items.live dead).Sublist items := List.filter_sublist
  refine ⟨h.ascending.sublist (hsub.map _), h.storable.subset (items.tids_live_subset dead), ?_⟩
  refine h.payload.imp (fun hnone item hitem => ?_) fun hall item hitem => ?_
  · exact hnone item (hsub.mem hitem)
  · exact hall item (hsub.mem hitem)

/-- If all TIDs are dead or all live, this is seen from the numbers. -/
theorem Items.live_eq_self (h : (items.live dead).length = items.length) : items.live dead = items :=
  List.filter_eq_self.mpr (List.length_filter_eq_length_iff.mp h)

/-- There are no more live items than items. -/
theorem Items.length_live_le (items : Items) (dead : ℕ → Bool) :
    (items.live dead).length ≤ items.length :=
  List.length_filter_le _ _

/-- The items have payload. -/
def Items.hasPayload (items : Items) : Bool := decide (items.payload ≠ [])

/-- The loop keeps the live TIDs, each with its own payload entry, and counts the others. -/
theorem repackMembers_eq (h : items.Wf) :
    repackMembers items.hasPayload dead (items.map Prod.fst) items.payload =
      some ((items.live dead).map Prod.fst, (items.live dead).payload,
        items.length - (items.live dead).length) := by
  -- With no payload and with an entry for each TID the loop goes different ways.
  have hstep : ∀ hasPayload : Bool,
      (hasPayload = false → ∀ item ∈ items, item.2 = []) →
      (hasPayload = true → ∀ item ∈ items, IsEntry item.2) →
      repackMembers hasPayload dead (items.map Prod.fst) items.payload =
        some ((items.live dead).map Prod.fst, (items.live dead).payload,
          items.length - (items.live dead).length) := by
    intro hasPayload hnone hall
    clear h
    induction items with
    | nil => rfl
    | cons item items ih =>
      have hrest := ih (fun hf item' hmem => hnone hf item' (List.mem_cons_of_mem _ hmem))
        (fun ht item' hmem => hall ht item' (List.mem_cons_of_mem _ hmem))
      have hle := Items.length_live_le items dead
      have hsplit : (if hasPayload then splitEntry (Items.payload (item :: items))
          else some ([], Items.payload (item :: items))) = some (item.2, Items.payload items) := by
        cases hasPayload with
        | true =>
          exact (hall rfl item List.mem_cons_self).splitEntry_append _
        | false =>
          have hitem := hnone rfl item List.mem_cons_self
          simp [Items.payload, hitem]
      rw [List.map_cons, repackMembers, hsplit]
      simp only [hrest]
      by_cases hdead : dead item.1 = true
      · have hlive : Items.live (item :: items) dead = Items.live items dead := by
          simp [Items.live, hdead]
        rw [if_pos hdead, hlive, List.length_cons]
        congr 3
        omega
      · have hlive : Items.live (item :: items) dead = item :: Items.live items dead := by
          simp [Items.live, hdead]
        rw [if_neg hdead, hlive, List.length_cons, List.length_cons, Nat.add_sub_add_right]
        rfl
  refine hstep _ (fun hno => ?_) fun hyes => ?_
  · have hempty : items.payload = [] := by simpa [Items.hasPayload] using hno
    exact fun item hitem => List.flatMap_eq_nil_iff.mp hempty item hitem
  · have hsome : items.payload ≠ [] := by simpa [Items.hasPayload] using hyes
    refine h.payload.resolve_left fun hnone => hsome ?_
    exact List.flatMap_eq_nil_iff.mpr hnone

end

end PgTre.Bytes
