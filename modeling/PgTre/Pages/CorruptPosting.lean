import PgTre.Pages.PostingRuns
import PgTre.Pages.PendingMerge
import PgTre.Pages.SparsemapLibrary

/-!
# Postings the library rejects

For bytes that it rejects `sm_open` leaves an empty map, and `sm_open_copy` returns `NULL`, unless
the zeros behind its copy make up for bytes that are missing. The posting scan and VACUUM compare
the size of the map with the length of the bytes, or look for `NULL`, and raise an error.
`pg_tre_posting_materialize` does neither: it hands the `NULL` on, which is also what it returns for
a posting that is not there, or takes the map as it is.
-/

namespace PgTre

open Layout
open Bytes (SparsemapLibrary smMinBytes)

/-- The bytes of a posting in `pg_tre_posting_scan_next`: `posting_check_sm_len`, and then the map with
the check of its size. -/
def scanOpen (lib : SparsemapLibrary) (what message : String) (bytes : List UInt8) :
    Except PgError (Finset ℕ) :=
  let n := bytes.length
  if n < smMinBytes then .error ⟨s!"pg_tre: corrupt {what} sparsemap length {n}"⟩
  else if 0 < n ∧ (lib.smOpen bytes).2 ≠ n then .error ⟨message⟩
  else .ok (lib.smOpen bytes).1

/-- `pg_tre_posting_scan_next` on an inline posting. -/
def scanInline (lib : SparsemapLibrary) (blob : List UInt8) : Except PgError (Finset ℕ) :=
  scanOpen lib "inline" "pg_tre: corrupt inline sparsemap in posting for this trigram" blob

/-- The bytes of the map of a posting leaf. -/
def postingLeafBytes (page : StoredPage) : List UInt8 :=
  page.region (maxAlign postingLeafHeaderBytes) (readLeafHeader page).sparsemapBytes

/-- `pg_tre_posting_scan_next` on a leaf: its map, and the right link. -/
def scanLeaf (lib : SparsemapLibrary) (st : PageStore) (blkno : BlockNumber) :
    Except PgError (Finset ℕ × Option BlockNumber) :=
  match st.read blkno .pagePostingL with
  | .error e => .error e
  | .ok page =>
      if postingLeafHeaderValid (readLeafHeader page) = false then
        .error ⟨s!"pg_tre: corrupt posting leaf at block {blkno}"⟩
      else
        match scanOpen lib "leaf" s!"pg_tre: corrupt sparsemap in posting leaf at block {blkno}"
            (postingLeafBytes page) with
        | .error e => .error e
        | .ok smap => .ok (smap, (readLeafHeader page).rightLink)

/-- All maps of a chain, or nothing when the fuel runs out. -/
def scanLeaves (lib : SparsemapLibrary) (st : PageStore) :
    ℕ → Option BlockNumber → Option (Except PgError (List (Finset ℕ)))
  | _, none => some (.ok [])
  | 0, some _ => none
  | fuel + 1, some blkno =>
      match scanLeaf lib st blkno with
      | .error e => some (.error e)
      | .ok (smap, next) => (scanLeaves lib st fuel next).map fun r => r.map (smap :: ·)

/-- A posting as the readers are given it. -/
inductive PostingRef where
  | inline (blob : List UInt8)
  | coalesced (blkno : BlockNumber) (slot : ℕ)
  | chain (root : BlockNumber)

/-- The posting scan, to its end. A coalesced posting comes from the lookup as its blob. -/
def PostingRef.scan (lib : SparsemapLibrary) (st : PageStore) (fuel : ℕ) :
    PostingRef → Option (Except PgError (List (Finset ℕ)))
  | .inline blob => some ((scanInline lib blob).map fun smap => [smap])
  | .coalesced blkno slot =>
      match pgTreCoalescedResolveSlot st blkno slot (UInt64.ofNat coalescedHashAny) with
      | .error e => some (.error e)
      | .ok none => some (.ok [])
      | .ok (some blob) => some ((scanInline lib blob).map fun smap => [smap])
  | .chain root => scanLeaves lib st fuel (some root)

/-! ## The merges -/

/-- `pg_tre_posting_materialize` of the posting. -/
def PostingRef.materialize (lib : SparsemapLibrary) (st : PageStore) (fuel : ℕ) :
    PostingRef → Option (Except PgError Sm)
  | .inline blob => pgTrePostingMaterialize lib st fuel none (some blob) blob.length
  | .coalesced blkno slot =>
      pgTrePostingMaterialize lib st fuel (some blkno) none (pgTreCoalescedFlag + slot)
  | .chain root => pgTrePostingMaterialize lib st fuel (some root) none 0

section

variable {lib : SparsemapLibrary} {st : PageStore} {root last b : BlockNumber}
  {before : List BlockNumber} {page : StoredPage}

open Allocating Procedure

end

/-! ## Two blobs -/

end PgTre
