import Mathlib.Data.List.Forall2
import PgTre.Pages.RunCatalog

/-!
# The upgrade of an index in place

Every page carries the format version it was written in. `pg_tre_upgrade_index` of
`src/util/upgrade.c` goes over all blocks, converts the pages below the newest version one by one,
each in a WAL record of its own, and notes on the meta page the least version that is left.

The versions that can be read, the versions that can be converted and the fields of the meta page
that are filled in are three lists in the source. This file compares them.
-/

namespace PgTre

/-- `PG_TRE_FORMAT_VERSION_LATEST`. -/
def formatVersionLatest : ℕ := 11

/-- `PG_TRE_FORMAT_VERSION_MIN`. -/
def formatVersionMin : ℕ := 6

/-- `InvalidBlockNumber`, as it is stored. -/
def invalidBlockNumber : ℕ := 0xFFFFFFFF

/-- `PG_TRE_META_MAGIC`. -/
def metaMagic : ℕ := 0x50545245

/-- `PG_TRE_TID_DENSE`. -/
def tidDense : ℕ := 1

/-- `PageTreKind`. -/
inductive PageTreKind where
  | pageInvalid
  | pageMeta
  | pageUpper
  | pageUpperL
  | pagePosting
  | pagePostingL
  | pageRange
  | pagePending
  | pageRunCatalog
  | pagePostingCoalesced
  | pageFreeLog
  | pageSurf
deriving DecidableEq

/-- The content area of a page, read as `PgTreMetaPageData`: the fields the upgrade uses, and all
other bytes of the area. -/
structure PageContent where
  magic : ℕ
  formatVersion : ℕ
  minPageFormatVersion : ℕ
  nextRunId : ℕ
  runCatalogHead : ℕ
  nRuns : ℕ
  maxLevels : ℕ
  freeLogHead : ℕ
  padFreeLog : ℕ
  rootSurf : ℕ
  tidPacking : ℕ
  rest : List UInt8
deriving DecidableEq

/-- A page that has been initialized: `PageTreOpaqueData` and the content. -/
structure WrittenPage where
  pageKind : PageTreKind
  flags : ℕ
  formatVersion : ℕ
  content : PageContent
deriving DecidableEq

/-- A block of the index. -/
inductive IndexPage where
  | new
  | written (p : WrittenPage)
deriving DecidableEq

/-- The errors of the upgrade, with the numbers in their texts. -/
inductive UpgradeError where
  /-- "page %u has format version %u, supported range is .." -/
  | pageVersion (blkno version : ℕ)
  /-- "unsupported page format version %u" -/
  | unsupportedVersion (version : ℕ)
  /-- "page format upgrade from v%u not implemented" -/
  | notImplemented (version : ℕ)
  /-- "was built by pg_tre < 1.6 (on-disk format v%u)" -/
  | builtBefore (version : ℕ)
  /-- "page %u of index %u has kind %u, expected %u" -/
  | wrongKind (blkno : ℕ) (kind : PageTreKind)
  /-- "meta page magic mismatch (got 0x%08X)" -/
  | magicMismatch (magic : ℕ)
  /-- The block does not exist. -/
  | noSuchBlock (blkno : ℕ)
deriving DecidableEq

/-- The notices at the end of the upgrade. -/
inductive UpgradeNotice where
  /-- "upgraded to page format v%u but has no SuRF range filter" -/
  | noSurf
  /-- "uses the pre-4.4 TID packing" -/
  | legacyPacking
deriving DecidableEq

/-! ## One page -/

/-- The versions `switch (from)` has a case for. -/
def convertible (version : ℕ) : Bool :=
  version == 3 || version == 4 || version == 5 || version == 6 || version == 7 || version == 8 ||
    version == 9

/-- What a meta page of version below 7 gets: the run catalog of an index with one run. -/
def initRunCatalog (m : PageContent) : PageContent :=
  { m with
    nextRunId := if m.nextRunId = 0 then 1 else m.nextRunId
    runCatalogHead :=
      if m.nRuns = 0 ∧ m.runCatalogHead = 0 then invalidBlockNumber else m.runCatalogHead
    maxLevels := if m.maxLevels = 0 then 7 else m.maxLevels }

/-- What every older meta page gets: an empty free log. -/
def initFreeLog (m : PageContent) : PageContent :=
  { m with
    freeLogHead := if m.freeLogHead = 0 then invalidBlockNumber else m.freeLogHead
    padFreeLog := 0 }

/-- The content of a page after its conversion. -/
def convertContent (p : WrittenPage) : PageContent :=
  let content :=
    if p.pageKind = .pageMeta ∧ p.formatVersion < 7 then initRunCatalog p.content else p.content
  if p.pageKind = .pageMeta then initFreeLog content else content

/-- `pg_tre_upgrade_page_to_latest` on a page that is not new: the page afterwards, or `none` when
nothing changes. -/
def upgradePageToLatest (p : WrittenPage) : Except UpgradeError (Option WrittenPage) :=
  let version := p.formatVersion
  if version = formatVersionLatest then .ok none
  else if version < formatVersionMin ∨ formatVersionLatest < version then
    .error (.unsupportedVersion version)
  else if p.pageKind = .pageRange ∧ version < 5 then .ok none
  else if convertible version = false then .error (.notImplemented version)
  else .ok (some { p with formatVersion := formatVersionLatest, content := convertContent p })

/-! ## The index -/

/-- The loop of `pg_tre_upgrade_index` from block `blkno` on: the blocks as they are left, and the
least version seen. The blocks before an error stay converted. -/
def upgradeLoop : ℕ → List IndexPage → ℕ → List IndexPage × Except UpgradeError ℕ
  | _, [], observedMin => ([], .ok observedMin)
  | blkno, .new :: pages, observedMin =>
      let swept := upgradeLoop (blkno + 1) pages observedMin
      (.new :: swept.1, swept.2)
  | blkno, .written p :: pages, observedMin =>
      if p.formatVersion < formatVersionMin ∨ formatVersionLatest < p.formatVersion then
        (.written p :: pages, .error (.pageVersion blkno p.formatVersion))
      else
        match upgradePageToLatest p with
        | .error e => (.written p :: pages, .error e)
        | .ok changed =>
            let after := changed.getD p
            let swept := upgradeLoop (blkno + 1) pages (min observedMin after.formatVersion)
            (.written after :: swept.1, swept.2)

/-- `pg_tre_read` of the meta page. A new page passes its checks and reads as zeros. -/
def readMetaPage (pages : List IndexPage) : Except UpgradeError (Option WrittenPage) :=
  match pages with
  | [] => .error (.noSuchBlock 0)
  | .new :: _ => .ok none
  | .written p :: _ =>
      if p.formatVersion < formatVersionMin then .error (.builtBefore p.formatVersion)
      else if formatVersionLatest < p.formatVersion then .error (.pageVersion 0 p.formatVersion)
      else if p.pageKind ≠ .pageMeta then .error (.wrongKind 0 p.pageKind)
      else .ok (some p)

/-- The field `min_page_format_version` as `pg_tre_meta_read` reports it. Indexes of before 1.4.0
have zero there. -/
def PageContent.minVersion (m : PageContent) : ℕ :=
  if m.minPageFormatVersion = 0 then m.formatVersion else m.minPageFormatVersion

/-- `pg_tre_meta_set_min_format_version`. On a new block the record would write to the zeroed
page; the read after it fails then. -/
def metaSetMinFormatVersion (pages : List IndexPage) (minVersion : ℕ) :
    List IndexPage × Except UpgradeError Unit :=
  match readMetaPage pages with
  | .error e => (pages, .error e)
  | .ok none => (pages, .ok ())
  | .ok (some p) =>
      if p.content.minVersion ≠ minVersion then
        (.written { p with content := { p.content with minPageFormatVersion := minVersion } } ::
          pages.tail, .ok ())
      else (pages, .ok ())

/-- `pg_tre_meta_read` and the notices that are made of it. -/
def upgradeNotices (pages : List IndexPage) : Except UpgradeError (List UpgradeNotice) :=
  match readMetaPage pages with
  | .error e => .error e
  | .ok none => .error (.magicMismatch 0)
  | .ok (some p) =>
      if p.content.magic ≠ metaMagic then .error (.magicMismatch p.content.magic)
      else
        .ok ((if p.content.rootSurf = 0 ∨ p.content.rootSurf = invalidBlockNumber
            then [.noSurf] else []) ++
          (if p.content.tidPacking ≠ tidDense then [.legacyPacking] else []))

/-- `pg_tre_upgrade_index`: the blocks afterwards, and the notices or the error. -/
def upgradeIndex (pages : List IndexPage) :
    List IndexPage × Except UpgradeError (List UpgradeNotice) :=
  match upgradeLoop 0 pages formatVersionLatest with
  | (swept, .error e) => (swept, .error e)
  | (swept, .ok observedMin) =>
      match metaSetMinFormatVersion swept observedMin with
      | (noted, .error e) => (noted, .error e)
      | (noted, .ok _) => (noted, upgradeNotices noted)

/-! ## What an upgrade is for -/

/-- The version of a page is one the readers accept. -/
def Readable : IndexPage → Prop
  | .new => True
  | .written p => formatVersionMin ≤ p.formatVersion ∧ p.formatVersion ≤ formatVersionLatest

/-- An index all of whose pages can be read: block 0 is the meta page. -/
structure ReadableIndex where
  metaPage : WrittenPage
  others : List IndexPage
  meta_kind : metaPage.pageKind = .pageMeta
  meta_magic : metaPage.content.magic = metaMagic
  meta_readable : Readable (.written metaPage)
  others_readable : ∀ p ∈ others, Readable p

/-- The blocks of an index. -/
def ReadableIndex.pages (index : ReadableIndex) : List IndexPage :=
  .written index.metaPage :: index.others

/-- The content of a meta page is kept, but for the fields that earlier versions did not have. -/
structure MetaKept (before after : PageContent) : Prop where
  magic : after.magic = before.magic
  formatVersion : after.formatVersion = before.formatVersion
  nRuns : after.nRuns = before.nRuns
  rootSurf : after.rootSurf = before.rootSurf
  tidPacking : after.tidPacking = before.tidPacking
  rest : after.rest = before.rest
  minPageFormatVersion : after.minPageFormatVersion = before.minPageFormatVersion ∨
    after.minPageFormatVersion = formatVersionLatest
  nextRunId : after.nextRunId = before.nextRunId ∨ before.nextRunId = 0 ∧ after.nextRunId = 1
  runCatalogHead : after.runCatalogHead = before.runCatalogHead ∨
    before.nRuns = 0 ∧ before.runCatalogHead = 0 ∧ after.runCatalogHead = invalidBlockNumber
  maxLevels : after.maxLevels = before.maxLevels ∨ before.maxLevels = 0 ∧ after.maxLevels = 7
  freeLogHead : after.freeLogHead = before.freeLogHead ∨
    before.freeLogHead = 0 ∧ after.freeLogHead = invalidBlockNumber
  padFreeLog : after.padFreeLog = before.padFreeLog ∨ after.padFreeLog = 0

/-- A block before and after an upgrade. -/
inductive PageUpgraded : IndexPage → IndexPage → Prop
  | new : PageUpgraded .new .new
  | metaPage (p q : WrittenPage) (hkind : p.pageKind = .pageMeta) (hkind' : q.pageKind = .pageMeta)
      (hflags : q.flags = p.flags) (hversion : q.formatVersion = formatVersionLatest)
      (hcontent : MetaKept p.content q.content) : PageUpgraded (.written p) (.written q)
  | other (p : WrittenPage) (hkind : p.pageKind ≠ .pageMeta) :
      PageUpgraded (.written p) (.written { p with formatVersion := formatVersionLatest })

/-- The upgrade does what it is for: it ends without an error, every block is upgraded, the meta
page says so, and a second run finds nothing to do. -/
def UpgradeCovers (pages : List IndexPage) : Prop :=
  ∃ upgraded notices, upgradeIndex pages = (upgraded, .ok notices) ∧
    List.Forall₂ PageUpgraded pages upgraded ∧
    (∃ p, readMetaPage upgraded = .ok (some p) ∧ p.content.minVersion = formatVersionLatest) ∧
    upgradeIndex upgraded = (upgraded, .ok notices)

/-! ## What the code does -/

/-- A block that the dispatch over the versions does not stop at. -/
def Converts : IndexPage → Prop
  | .new => True
  | .written p => p.formatVersion ≠ 10

/-- A block of the last version. -/
def AtLatest : IndexPage → Prop
  | .new => True
  | .written p => p.formatVersion = formatVersionLatest

/-- A page after its conversion. -/
def convertPage (p : WrittenPage) : WrittenPage :=
  if p.formatVersion = formatVersionLatest then p
  else { p with formatVersion := formatVersionLatest, content := convertContent p }

/-- The same on blocks. -/
def convertBlock : IndexPage → IndexPage
  | .new => .new
  | .written p => .written (convertPage p)

/-- A converted page carries the latest version. -/
@[simp] theorem convertPage_formatVersion (p : WrittenPage) :
    (convertPage p).formatVersion = formatVersionLatest := by
  unfold convertPage
  split <;> simp_all

/-- Converting keeps the kind. -/
@[simp] theorem convertPage_pageKind (p : WrittenPage) :
    (convertPage p).pageKind = p.pageKind := by
  unfold convertPage
  split <;> rfl

/-- Converting keeps the flags. -/
@[simp] theorem convertPage_flags (p : WrittenPage) : (convertPage p).flags = p.flags := by
  unfold convertPage
  split <;> rfl

/-- A meta page keeps itself. -/
theorem MetaKept.refl (m : PageContent) : MetaKept m m := by
  constructor <;> simp only [true_or]

/-- Initialising the run catalog keeps the meta page's contents. -/
theorem initRunCatalog_kept (m : PageContent) : MetaKept m (initRunCatalog m) := by
  constructor <;> simp only [initRunCatalog, true_or]
  · split
    next hzero => exact .inr ⟨hzero, rfl⟩
    next => exact .inl rfl
  · split
    next hzero => exact .inr ⟨hzero.1, hzero.2, rfl⟩
    next => exact .inl rfl
  · split
    next hzero => exact .inr ⟨hzero, rfl⟩
    next => exact .inl rfl

/-- Initialising the free log keeps the meta page's contents. -/
theorem initFreeLog_kept {before m : PageContent} (hkept : MetaKept before m)
    (hsame : m.freeLogHead = before.freeLogHead) : MetaKept before (initFreeLog m) where
  magic := hkept.magic
  formatVersion := hkept.formatVersion
  nRuns := hkept.nRuns
  rootSurf := hkept.rootSurf
  tidPacking := hkept.tidPacking
  rest := hkept.rest
  minPageFormatVersion := hkept.minPageFormatVersion
  nextRunId := hkept.nextRunId
  runCatalogHead := hkept.runCatalogHead
  maxLevels := hkept.maxLevels
  freeLogHead := by
    unfold initFreeLog
    by_cases hzero : m.freeLogHead = 0
    · rw [if_pos hzero]
      exact .inr ⟨hsame ▸ hzero, rfl⟩
    · rw [if_neg hzero]
      exact .inl hsame
  padFreeLog := .inr rfl

/-- Converting keeps the meta page's contents. -/
theorem convertContent_kept {p : WrittenPage} (hkind : p.pageKind = .pageMeta) :
    MetaKept p.content (convertContent p) := by
  unfold convertContent
  simp only [hkind, true_and, if_true]
  by_cases hseven : p.formatVersion < 7
  · rw [if_pos hseven]
    exact initFreeLog_kept (initRunCatalog_kept p.content) rfl
  · rw [if_neg hseven]
    exact initFreeLog_kept (.refl p.content) rfl

/-- Converting leaves the other pages' contents alone. -/
theorem convertContent_of_ne_meta {p : WrittenPage} (hkind : p.pageKind ≠ .pageMeta) :
    convertContent p = p.content := by
  simp only [convertContent, hkind, false_and, if_false]

/-- Converting a meta page keeps its contents. -/
theorem convertPage_kept {p : WrittenPage} (hkind : p.pageKind = .pageMeta) :
    MetaKept p.content (convertPage p).content := by
  unfold convertPage
  split
  · exact .refl p.content
  · exact convertContent_kept hkind

/-- A converted block is upgraded. -/
theorem convertBlock_upgraded (b : IndexPage) : PageUpgraded b (convertBlock b) := by
  cases b with
  | new => exact .new
  | written p =>
    by_cases hkind : p.pageKind = .pageMeta
    · exact .metaPage p (convertPage p) hkind (by rw [convertPage_pageKind, hkind])
        (convertPage_flags p) (convertPage_formatVersion p) (convertPage_kept hkind)
    · have hconvert : convertPage p = { p with formatVersion := formatVersionLatest } := by
        unfold convertPage
        rw [convertContent_of_ne_meta hkind]
        split
        next hlatest => rw [← hlatest]
        next => rfl
      rw [convertBlock, hconvert]
      exact .other p hkind

/-- A converted block is at the latest version. -/
theorem convertBlock_atLatest (b : IndexPage) : AtLatest (convertBlock b) := by
  cases b with
  | new => exact trivial
  | written p => exact convertPage_formatVersion p

/-- A block at the latest version is left alone. -/
theorem convertBlock_of_atLatest {b : IndexPage} (hlatest : AtLatest b) : convertBlock b = b := by
  cases b with
  | new => rfl
  | written p =>
    have hversion : p.formatVersion = formatVersionLatest := hlatest
    rw [convertBlock, convertPage, if_pos hversion]

/-- A block at the latest version is readable. -/
theorem AtLatest.readable {b : IndexPage} (hlatest : AtLatest b) : Readable b := by
  cases b with
  | new => exact trivial
  | written p =>
    change p.formatVersion = 11 at hlatest
    simp only [Readable, formatVersionMin, formatVersionLatest]
    omega

/-- A block at the latest version converts. -/
theorem AtLatest.converts {b : IndexPage} (hlatest : AtLatest b) : Converts b := by
  cases b with
  | new => exact trivial
  | written p =>
    change p.formatVersion = 11 at hlatest
    simp only [Converts]
    omega

/-- The dispatch on the version of a readable page: version 10 has no case. -/
theorem upgradePageToLatest_ten {p : WrittenPage} (hten : p.formatVersion = 10) :
    upgradePageToLatest p = .error (.notImplemented 10) := by
  simp [upgradePageToLatest, hten, formatVersionLatest, formatVersionMin, convertible]

/-- All other readable versions are converted. -/
theorem upgradePageToLatest_getD {p : WrittenPage} (hreadable : Readable (.written p))
    (hten : p.formatVersion ≠ 10) :
    ∃ changed, upgradePageToLatest p = .ok changed ∧ changed.getD p = convertPage p := by
  obtain ⟨hmin, hmax⟩ := hreadable
  by_cases hlatest : p.formatVersion = formatVersionLatest
  · refine ⟨none, ?_, ?_⟩
    · rw [upgradePageToLatest, if_pos hlatest]
    · rw [convertPage, if_pos hlatest, Option.getD_none]
  · have hrange : ¬(p.formatVersion < formatVersionMin ∨ formatVersionLatest < p.formatVersion) := by
      omega
    have hfive : ¬(p.pageKind = .pageRange ∧ p.formatVersion < 5) := by
      unfold formatVersionMin at hmin
      omega
    have hconvertible : convertible p.formatVersion = true := by
      unfold formatVersionMin at hmin
      unfold formatVersionLatest at hmax hlatest
      have hcases : p.formatVersion = 6 ∨ p.formatVersion = 7 ∨ p.formatVersion = 8 ∨
          p.formatVersion = 9 := by omega
      rcases hcases with h | h | h | h <;> rw [h] <;> rfl
    refine ⟨some (convertPage p), ?_, Option.getD_some⟩
    rw [convertPage, if_neg hlatest]
    simp only [upgradePageToLatest, if_neg hlatest, if_neg hrange, if_neg hfive, hconvertible,
      Bool.true_eq_false, if_false]

/-- The loop over blocks that all convert. The least version it sees is the last one. -/
theorem upgradeLoop_converts {pages : List IndexPage} (blkno : ℕ)
    (hreadable : ∀ b ∈ pages, Readable b) (hconverts : ∀ b ∈ pages, Converts b) :
    upgradeLoop blkno pages formatVersionLatest =
      (pages.map convertBlock, .ok formatVersionLatest) := by
  induction pages generalizing blkno with
  | nil => rfl
  | cons b pages ih =>
    have hrest := ih (blkno + 1) (fun q hq => hreadable q (List.mem_cons_of_mem b hq))
      (fun q hq => hconverts q (List.mem_cons_of_mem b hq))
    have hb := hreadable b List.mem_cons_self
    cases b with
    | new =>
      rw [upgradeLoop, hrest]
      rfl
    | written p =>
      have hrange :
          ¬(p.formatVersion < formatVersionMin ∨ formatVersionLatest < p.formatVersion) := by
        obtain ⟨hmin, hmax⟩ := hb
        omega
      obtain ⟨changed, hok, hafter⟩ :=
        upgradePageToLatest_getD hb (hconverts (.written p) List.mem_cons_self)
      rw [upgradeLoop, if_neg hrange, hok]
      simp only [hafter, convertPage_formatVersion, min_self, hrest, List.map_cons, convertBlock]

/-- The loop stops at a block of version 10. -/
theorem upgradeLoop_stops {pages : List IndexPage} (blkno observedMin : ℕ)
    (hreadable : ∀ b ∈ pages, Readable b) (hten : ∃ b ∈ pages, ¬Converts b) :
    (upgradeLoop blkno pages observedMin).2 = .error (.notImplemented 10) := by
  induction pages generalizing blkno observedMin with
  | nil => simp at hten
  | cons b pages ih =>
    have hrest : (∃ b ∈ pages, ¬Converts b) → ∀ blkno observedMin,
        (upgradeLoop blkno pages observedMin).2 = .error (.notImplemented 10) :=
      fun h blkno observedMin =>
        ih blkno observedMin (fun q hq => hreadable q (List.mem_cons_of_mem b hq)) h
    have hb := hreadable b List.mem_cons_self
    cases b with
    | new =>
      rw [upgradeLoop]
      apply hrest
      simpa [Converts] using hten
    | written p =>
      have hrange :
          ¬(p.formatVersion < formatVersionMin ∨ formatVersionLatest < p.formatVersion) := by
        obtain ⟨hmin, hmax⟩ := hb
        omega
      by_cases hp : p.formatVersion = 10
      · rw [upgradeLoop, if_neg hrange, upgradePageToLatest_ten hp]
      · obtain ⟨changed, hok, -⟩ := upgradePageToLatest_getD hb hp
        rw [upgradeLoop, if_neg hrange, hok]
        apply hrest
        simpa [Converts, hp] using hten

/-- The meta page after `pg_tre_meta_set_min_format_version`. -/
def noteLatest (p : WrittenPage) : WrittenPage :=
  if p.content.minVersion ≠ formatVersionLatest then
    { p with content := { p.content with minPageFormatVersion := formatVersionLatest } }
  else p

/-- Noting the latest version sets the minimum. -/
theorem noteLatest_minVersion (p : WrittenPage) :
    (noteLatest p).content.minVersion = formatVersionLatest := by
  unfold noteLatest
  split
  · rfl
  next h => exact not_not.mp h

/-- Noting the latest version keeps the kind. -/
@[simp] theorem noteLatest_pageKind (p : WrittenPage) : (noteLatest p).pageKind = p.pageKind := by
  unfold noteLatest
  split <;> rfl

/-- Noting the latest version keeps the flags. -/
@[simp] theorem noteLatest_flags (p : WrittenPage) : (noteLatest p).flags = p.flags := by
  unfold noteLatest
  split <;> rfl

/-- Noting the latest version keeps the page's version. -/
@[simp] theorem noteLatest_formatVersion (p : WrittenPage) :
    (noteLatest p).formatVersion = p.formatVersion := by
  unfold noteLatest
  split <;> rfl

/-- Noting the latest version keeps the meta page's contents. -/
theorem noteLatest_kept {before : PageContent} {p : WrittenPage} (hkept : MetaKept before p.content) :
    MetaKept before (noteLatest p).content := by
  unfold noteLatest
  split
  · exact { hkept with minPageFormatVersion := .inr rfl }
  · exact hkept

/-- A meta page at the latest version is read. -/
theorem readMetaPage_of_latest {p : WrittenPage} {pages : List IndexPage}
    (hlatest : p.formatVersion = formatVersionLatest) (hkind : p.pageKind = .pageMeta) :
    readMetaPage (.written p :: pages) = .ok (some p) := by
  simp [readMetaPage, hlatest, hkind, formatVersionLatest, formatVersionMin]

/-- Setting the minimum on a meta page at the latest version notes it. -/
theorem metaSetMinFormatVersion_latest {p : WrittenPage} {pages : List IndexPage}
    (hlatest : p.formatVersion = formatVersionLatest) (hkind : p.pageKind = .pageMeta) :
    metaSetMinFormatVersion (.written p :: pages) formatVersionLatest =
      (.written (noteLatest p) :: pages, .ok ()) := by
  unfold metaSetMinFormatVersion noteLatest
  rw [readMetaPage_of_latest hlatest hkind]
  simp only [List.tail_cons]
  split <;> rfl

/-- The upgrade of an index whose blocks all convert. -/
theorem upgradeIndex_converts {p : WrittenPage} {others : List IndexPage}
    (hkind : p.pageKind = .pageMeta) (hmagic : p.content.magic = metaMagic)
    (hreadable : ∀ b ∈ IndexPage.written p :: others, Readable b)
    (hconverts : ∀ b ∈ IndexPage.written p :: others, Converts b) :
    ∃ notices, upgradeIndex (.written p :: others) =
      (.written (noteLatest (convertPage p)) :: others.map convertBlock, .ok notices) ∧
      upgradeNotices (.written (noteLatest (convertPage p)) :: others.map convertBlock) =
        .ok notices := by
  have hkind' : (convertPage p).pageKind = .pageMeta := by rw [convertPage_pageKind, hkind]
  have hmagic' : (noteLatest (convertPage p)).content.magic = metaMagic :=
    (noteLatest_kept (convertPage_kept hkind)).magic.trans hmagic
  have hnotices : ∃ notices, upgradeNotices
      (.written (noteLatest (convertPage p)) :: others.map convertBlock) = .ok notices := by
    unfold upgradeNotices
    rw [readMetaPage_of_latest (by simp) (by simpa using hkind)]
    simp only [hmagic', ne_eq, not_true_eq_false, if_false]
    exact ⟨_, rfl⟩
  obtain ⟨notices, hok⟩ := hnotices
  refine ⟨notices, ?_, hok⟩
  unfold upgradeIndex
  rw [upgradeLoop_converts 0 hreadable hconverts]
  simp only [List.map_cons, convertBlock]
  rw [metaSetMinFormatVersion_latest (convertPage_formatVersion p) hkind']
  simp only [hok]

/-- Converting and noting once more changes nothing. -/
theorem convertPage_noteLatest (p : WrittenPage) :
    noteLatest (convertPage (noteLatest (convertPage p))) = noteLatest (convertPage p) := by
  have hlatest : (noteLatest (convertPage p)).formatVersion = formatVersionLatest := by
    rw [noteLatest_formatVersion, convertPage_formatVersion]
  rw [convertPage.eq_def (noteLatest (convertPage p)), if_pos hlatest]
  rw [noteLatest.eq_def (noteLatest (convertPage p)), noteLatest_minVersion]
  exact if_neg (not_not.mpr rfl)

/-- The upgrade covers a readable index exactly when none of its pages is stamped with version 10,
the version before the last one. -/
theorem upgradeIndex_covers_iff (index : ReadableIndex) :
    UpgradeCovers index.pages ↔
      ∀ p, IndexPage.written p ∈ index.pages → p.formatVersion ≠ 10 := by
  have hreadable : ∀ b ∈ index.pages, Readable b := by
    intro b hb
    rcases List.mem_cons.mp hb with rfl | hb
    · exact index.meta_readable
    · exact index.others_readable b hb
  constructor
  · rintro ⟨upgraded, notices, hrun, -⟩ p hp hten
    have hstops := upgradeLoop_stops 0 formatVersionLatest hreadable
      ⟨.written p, hp, fun hconverts => hconverts hten⟩
    unfold upgradeIndex at hrun
    cases hloop : upgradeLoop 0 index.pages formatVersionLatest with
    | mk swept result =>
      rw [hloop] at hstops hrun
      subst hstops
      simp at hrun
  · intro hnone
    have hconverts : ∀ b ∈ index.pages, Converts b := by
      intro b hb
      cases b with
      | new => exact trivial
      | written p => exact hnone p hb
    obtain ⟨notices, hrun, hnotices⟩ :=
      upgradeIndex_converts index.meta_kind index.meta_magic hreadable hconverts
    have hkind : (noteLatest (convertPage index.metaPage)).pageKind = .pageMeta := by
      simpa using index.meta_kind
    have hlatest :
        (noteLatest (convertPage index.metaPage)).formatVersion = formatVersionLatest := by
      simp
    have hblocks : ∀ b ∈ IndexPage.written (noteLatest (convertPage index.metaPage)) ::
        index.others.map convertBlock, AtLatest b := by
      intro b hb
      rcases List.mem_cons.mp hb with rfl | hb
      · exact hlatest
      · obtain ⟨b, -, rfl⟩ := List.mem_map.mp hb
        exact convertBlock_atLatest b
    refine ⟨_, notices, hrun, ?_, ?_, ?_⟩
    · refine .cons ?_ ?_
      · exact .metaPage _ _ index.meta_kind hkind (by simp) hlatest
          (noteLatest_kept (convertPage_kept index.meta_kind))
      · exact List.forall₂_map_right_iff.mpr (List.forall₂_same.mpr fun b _ => convertBlock_upgraded b)
    · exact ⟨_, readMetaPage_of_latest hlatest hkind, noteLatest_minVersion _⟩
    · have hmagic : (noteLatest (convertPage index.metaPage)).content.magic = metaMagic :=
        (noteLatest_kept (convertPage_kept index.meta_kind)).magic.trans index.meta_magic
      obtain ⟨notices', hrun', hnotices'⟩ := upgradeIndex_converts hkind hmagic
        (fun b hb => (hblocks b hb).readable) (fun b hb => (hblocks b hb).converts)
      have hothers : (index.others.map convertBlock).map convertBlock =
          index.others.map convertBlock := by
        rw [List.map_map]
        exact List.map_congr_left fun b _ => convertBlock_of_atLatest (convertBlock_atLatest b)
      rw [convertPage_noteLatest, hothers] at hrun' hnotices'
      rw [hnotices, Except.ok.injEq] at hnotices'
      rw [hrun', hnotices']

/-- An index of release 3.2: its meta page is stamped with version 10. -/
def surfReleaseIndex : ReadableIndex where
  metaPage :=
    { pageKind := .pageMeta
      flags := 0
      formatVersion := 10
      content :=
        { magic := metaMagic
          formatVersion := 10
          minPageFormatVersion := 10
          nextRunId := 1
          runCatalogHead := invalidBlockNumber
          nRuns := 0
          maxLevels := 7
          freeLogHead := invalidBlockNumber
          padFreeLog := 0
          rootSurf := invalidBlockNumber
          tidPacking := 0
          rest := [] } }
  others := []
  meta_kind := rfl
  meta_magic := rfl
  meta_readable := by
    simp only [Readable, formatVersionMin, formatVersionLatest]
    omega
  others_readable := by simp

/-- The upgrade of that index raises an error and leaves its page as it is. -/
theorem surfReleaseIndex_not_upgraded :
    upgradeIndex surfReleaseIndex.pages = (surfReleaseIndex.pages, .error (.notImplemented 10)) ∧
      ¬UpgradeCovers surfReleaseIndex.pages := by
  have hrun : upgradeIndex surfReleaseIndex.pages =
      (surfReleaseIndex.pages, .error (.notImplemented 10)) := by decide
  refine ⟨hrun, ?_⟩
  rintro ⟨upgraded, notices, hok, -⟩
  rw [hrun] at hok
  simp at hok

end PgTre
