import PgTre.Pages.RunCatalog
import PgTre.Util.Upgrade
import PgTre.Util.ByteLayout
import Mathlib.Data.List.GetD

/-!
# Pages of the index

`src/pages/buffer.c` gives out pages. The free-space map offers blocks, but it is only advice: a block
on offer is taken when nobody holds it and its page is still blank. When no block on offer can be
taken the index grows by a page. A page has a kind in its trailer, and its content lies between the
page header and the trailer.
-/

namespace PgTre

/-- `BLCKSZ`. -/
def blcksz : ℕ := 8192

/-- `MAXALIGN`. -/
def maxAlign (n : ℕ) : ℕ := (n + 7) / 8 * 8

/-- `SizeOfPageHeaderData`. -/
def sizeOfPageHeaderData : ℕ := 24

/-- `sizeof(PageTreOpaqueData)`. -/
def sizeOfOpaque : ℕ := 8

/-- A page in its buffer: the kind and the flags of its trailer, `pd_lower`, and the bytes from
`PageGetContents` on. Zero bytes at the end may be left out. -/
structure StoredPage where
  kind : PageTreKind
  flags : ℕ
  pdLower : ℕ
  contents : List UInt8
  deriving DecidableEq

/-- A region of the content of a page. -/
def StoredPage.region (page : StoredPage) (off len : ℕ) : List UInt8 :=
  (List.range len).map fun i => page.contents.getD (off + i) 0

/-- A region has the length asked for. -/
@[simp] theorem StoredPage.length_region (page : StoredPage) (off len : ℕ) :
    (page.region off len).length = len := by
  simp [StoredPage.region]

/-- A region inside the page is that part of its bytes. -/
theorem StoredPage.region_eq {page : StoredPage} {off len : ℕ}
    (h : off + len ≤ page.contents.length) :
    page.region off len = Layout.bytesAt page.contents off len := by
  apply List.ext_getElem
  · rw [StoredPage.length_region, Layout.length_bytesAt h]
  · intro i hi hi'
    rw [StoredPage.length_region] at hi
    simp only [StoredPage.region, List.getElem_map, List.getElem_range, Layout.bytesAt,
      List.getElem_take, List.getElem_drop]
    exact List.getD_eq_getElem _ _ (by omega)

/-- A number as `%0*x` prints it, with leading zeros. -/
def hexDigits (width n : ℕ) : String :=
  let digits := Nat.toDigits 16 n
  String.ofList (List.replicate (width - digits.length) '0' ++ digits)

/-- `pg_tre_page_init`. -/
def pgTrePageInit (kind : PageTreKind) : StoredPage := ⟨kind, 0, sizeOfPageHeaderData, []⟩

/-- The test of `pg_tre_extend` for a page that can be reused: never written, or initialized and
empty. -/
def StoredPage.Blank (page : StoredPage) : Prop := page.pdLower ≤ sizeOfPageHeaderData

instance (page : StoredPage) : Decidable page.Blank := inferInstanceAs (Decidable (_ ≤ _))

/-- The pages of an index, and the blocks that the free-space map offers in turn, each with whether
a peer holds it. -/
structure PageStore where
  relid : ℕ
  pages : List StoredPage
  fsm : List (BlockNumber × Bool)

/-- The loop of `pg_tre_extend` over the blocks on offer: the first one that is not held and blank. -/
def reusablePage (pages : List StoredPage) (held : List BlockNumber) :
    List (BlockNumber × Bool) → Option (BlockNumber × List (BlockNumber × Bool))
  | [] => none
  | (blkno, peer) :: offers =>
      if peer ∨ blkno ∈ held then reusablePage pages held offers
      else
        match pages[blkno]? with
        | none => reusablePage pages held offers
        | some page =>
            if page.Blank then some (blkno, offers) else reusablePage pages held offers

/-- `pg_tre_extend`, by a backend that holds some blocks: the block of the new page, which is
initialized. -/
def PageStore.extend (st : PageStore) (held : List BlockNumber) (kind : PageTreKind) :
    BlockNumber × PageStore :=
  match reusablePage st.pages held st.fsm with
  | some (blkno, fsm) => (blkno, ⟨st.relid, st.pages.set blkno (pgTrePageInit kind), fsm⟩)
  | none => (st.pages.length, ⟨st.relid, st.pages ++ [pgTrePageInit kind], []⟩)

/-- The content of a page, written to its block. -/
def PageStore.write (st : PageStore) (blkno : BlockNumber) (page : StoredPage) : PageStore :=
  { st with pages := st.pages.set blkno page }

/-- The number a kind has in the trailer. -/
def PageTreKind.number : PageTreKind → ℕ
  | .pageInvalid => 0
  | .pageMeta => 1
  | .pageUpper => 2
  | .pageUpperL => 3
  | .pagePosting => 4
  | .pagePostingL => 5
  | .pageRange => 6
  | .pagePending => 7
  | .pageRunCatalog => 8
  | .pagePostingCoalesced => 9
  | .pageFreeLog => 10
  | .pageSurf => 11

/-- `pg_tre_read`, on pages of the latest format. A page of no kind is new and not checked; a block
past the end is refused by the buffer manager. -/
def PageStore.read (st : PageStore) (blkno : BlockNumber) (expectedKind : PageTreKind) :
    Except PgError StoredPage :=
  match st.pages[blkno]? with
  | none => .error ⟨s!"could not read block {blkno}"⟩
  | some page =>
      if page.kind ≠ .pageInvalid ∧ expectedKind ≠ .pageInvalid ∧ page.kind ≠ expectedKind then
        let relid := st.relid
        let kind := page.kind.number
        let expected := expectedKind.number
        .error ⟨s!"pg_tre: page {blkno} of index {relid} has kind {kind}, expected {expected}"⟩
      else .ok page

section

variable {st st' st'' : PageStore} {held : List BlockNumber} {kind : PageTreKind}
  {blkno blkno' : BlockNumber} {page : StoredPage}

/-- What is on the pages stays there. -/
def PageStore.Keeps (st st' : PageStore) : Prop :=
  ∀ (blkno : BlockNumber) (page : StoredPage),
    st.pages[blkno]? = some page → ¬page.Blank → st'.pages[blkno]? = some page

/-- A page store keeps its own pages. -/
theorem PageStore.Keeps.refl (st : PageStore) : st.Keeps st := fun _ _ h _ => h

/-- Keeping pages composes. -/
theorem PageStore.Keeps.trans (h : st.Keeps st') (h' : st'.Keeps st'') : st.Keeps st'' :=
  fun blkno page hget hblank => h' blkno page (h blkno page hget hblank) hblank

/-- A page that was blank is written. -/
theorem PageStore.keeps_write (h : ∀ page, st.pages[blkno]? = some page → page.Blank) :
    st.Keeps (st.write blkno page) := by
  intro b page' hget hfull
  have hne : b ≠ blkno := by
    rintro rfl
    exact hfull (h page' hget)
  rw [PageStore.write, List.getElem?_set_ne (Ne.symm hne), hget]

/-- A reused page is blank and not held by anyone. -/
theorem reusablePage_spec {pages : List StoredPage} {offers rest : List (BlockNumber × Bool)}
    (h : reusablePage pages held offers = some (blkno, rest)) :
    blkno ∉ held ∧ ∃ page, pages[blkno]? = some page ∧ page.Blank := by
  induction offers with
  | nil => simp [reusablePage] at h
  | cons offer offers ih =>
    obtain ⟨b, peer⟩ := offer
    unfold reusablePage at h
    split_ifs at h with hheld
    · exact ih h
    · cases hget : pages[b]? with
      | none =>
        rw [hget] at h
        exact ih h
      | some page =>
        rw [hget] at h
        simp only at h
        split_ifs at h with hblank
        · obtain ⟨rfl, -⟩ : b = blkno ∧ offers = rest := by simpa using h
          exact ⟨fun hmem => hheld (Or.inr hmem), page, hget, hblank⟩
        · exact ih h

/-- The new page is on a block that nobody uses, and all other pages are as they were. -/
theorem PageStore.extend_spec (hheld : ∀ b ∈ held, b < st.pages.length)
    (h : st.extend held kind = (blkno, st')) :
    blkno ∉ held ∧ (∀ page, st.pages[blkno]? = some page → page.Blank) ∧
      st'.pages[blkno]? = some (pgTrePageInit kind) ∧
      (∀ b, b ≠ blkno → st'.pages[b]? = st.pages[b]?) ∧ st.pages.length ≤ st'.pages.length := by
  unfold PageStore.extend at h
  cases hreuse : reusablePage st.pages held st.fsm with
  | none =>
    rw [hreuse] at h
    obtain ⟨rfl, rfl⟩ : st.pages.length = blkno ∧ _ = st' := by simpa using h
    refine ⟨fun hmem => absurd (hheld _ hmem) (lt_irrefl _), ?_, by simp, ?_, by simp⟩
    · intro page hget
      simp at hget
    · intro b hb
      rcases Nat.lt_or_ge b st.pages.length with hlt | hge
      · exact List.getElem?_append_left hlt
      · rw [List.getElem?_eq_none hge, List.getElem?_eq_none]
        rw [List.length_append, List.length_singleton]
        exact Nat.lt_of_le_of_ne hge (Ne.symm hb)
  | some found =>
    obtain ⟨b, fsm⟩ := found
    rw [hreuse] at h
    obtain ⟨rfl, rfl⟩ : b = blkno ∧ _ = st' := by simpa using h
    obtain ⟨hnot, page, hget, hblank⟩ := reusablePage_spec hreuse
    obtain ⟨hlt, -⟩ := List.getElem?_eq_some_iff.mp hget
    refine ⟨hnot, ?_, List.getElem?_set_self hlt, ?_, by simp⟩
    · intro page' hget'
      rw [hget] at hget'
      rw [← Option.some.inj hget']
      exact hblank
    · intro b' hb'
      exact List.getElem?_set_ne (Ne.symm hb')

/-- The page written is read back. -/
theorem PageStore.write_self (h : blkno < st.pages.length) :
    (st.write blkno page).pages[blkno]? = some page := List.getElem?_set_self h

/-- A write leaves the other pages alone. -/
theorem PageStore.write_of_ne (h : blkno' ≠ blkno) :
    (st.write blkno page).pages[blkno']? = st.pages[blkno']? := List.getElem?_set_ne (Ne.symm h)

/-- The index grows by a page at most. -/
theorem PageStore.length_extend_le (st : PageStore) (held : List BlockNumber) (kind : PageTreKind) :
    (st.extend held kind).2.pages.length ≤ st.pages.length + 1 := by
  unfold PageStore.extend
  split
  · simp
  · simp

/-- A write adds no page. -/
@[simp] theorem PageStore.length_write (st : PageStore) (blkno : BlockNumber) (page : StoredPage) :
    (st.write blkno page).pages.length = st.pages.length := by
  simp [PageStore.write]

/-- A new page, written at once. -/
theorem PageStore.extend_write_spec (hheld : ∀ b ∈ held, b < st.pages.length)
    (h : st.extend held kind = (blkno, st')) :
    blkno ∉ held ∧ (∀ page, st.pages[blkno]? = some page → page.Blank) ∧
      (st'.write blkno page).pages[blkno]? = some page ∧
      (∀ b, b ≠ blkno → (st'.write blkno page).pages[b]? = st.pages[b]?) ∧
      st.Keeps (st'.write blkno page) := by
  obtain ⟨hnot, hblank, hget, hothers, -⟩ := PageStore.extend_spec hheld h
  obtain ⟨hlt, -⟩ := List.getElem?_eq_some_iff.mp hget
  have hothers' : ∀ b, b ≠ blkno → (st'.write blkno page).pages[b]? = st.pages[b]? := by
    intro b hb
    rw [PageStore.write_of_ne hb, hothers b hb]
  refine ⟨hnot, hblank, PageStore.write_self hlt, hothers', ?_⟩
  intro b page' hget' hblank'
  by_cases hb : b = blkno
  · rw [hb] at hget'
    exact absurd (hblank page' hget') hblank'
  · rw [hothers' b hb, hget']

/-- A page of the kind that is expected is read. -/
theorem PageStore.read_eq_ok (hget : st.pages[blkno]? = some page) (hkind : page.kind = kind) :
    st.read blkno kind = .ok page := by
  unfold PageStore.read
  rw [hget]
  simp [hkind]

end

end PgTre
