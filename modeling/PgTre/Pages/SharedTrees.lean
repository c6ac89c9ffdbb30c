import PgTre.Pages.HanoiMerge
import PgTre.Pages.PendingMerge
import Mathlib.Data.Finset.Sort
import Mathlib.Order.Interval.Finset.Nat

/-!
# Trees that share pages

A tree has its own upper pages, and the pages of the postings its entries refer to. A merge of the
pending list into the base tree writes a new tree, but the entries it does not touch keep their
postings, which both trees reach from then on. The pages of the old tree are logged for freeing unless
a run of the catalog has its root, and the Hanoi merge logs those of the runs it drops unless another
run or the base tree has their root. Neither looks for pages that trees of different roots share.

What the postings hold is left out here; only their pages count.
-/

namespace PgTre

/-- The pages of a tree: its own, and for each entry those of its posting. An inline posting has
none. -/
structure TreePages where
  upper : Finset BlockNumber
  postings : List (UInt64 × Finset BlockNumber)

/-- `pg_tre_run_collect_pages`: all pages that are reached from the root. -/
def TreePages.blocks (t : TreePages) : Finset BlockNumber :=
  t.postings.foldr (fun e bs => e.2 ∪ bs) t.upper

/-- The blocks of a tree are those of its upper pages and of its postings. -/
theorem TreePages.mem_blocks {t : TreePages} {b : BlockNumber} :
    b ∈ t.blocks ↔ b ∈ t.upper ∨ ∃ e ∈ t.postings, b ∈ e.2 := by
  obtain ⟨upper, postings⟩ := t
  simp only [TreePages.blocks]
  induction postings with
  | nil => simp
  | cons e postings ih =>
    rw [List.foldr_cons, Finset.mem_union, ih]
    simp only [List.mem_cons, exists_eq_or_imp]
    tauto

/-- The stored part of an index as far as its pages are freed: the root of the base tree, the catalog,
the pages of the trees by their roots, the number of blocks, and the blocks of the free log. -/
structure PageIndex where
  rootUpper : Option BlockNumber
  catalog : List RunCatalogPage
  nextRunId : ℕ
  maxLevels : ℕ
  trees : BlockNumber → TreePages
  nBlocks : BlockNumber
  freeLog : List BlockNumber

namespace PageIndex

/-- The tree at a root. -/
def treeAt (s : PageIndex) (root : Option BlockNumber) : TreePages :=
  match root with
  | none => ⟨∅, []⟩
  | some b => s.trees b

/-- The live runs of the catalog in the order of the iterator. -/
def liveRuns (s : PageIndex) : List PgTreRun := (catalogRuns s.catalog).filter (·.live)

/-- A tree of the index: the base tree, or that of a run of the catalog. -/
def IsRoot (s : PageIndex) (root : BlockNumber) : Prop :=
  s.rootUpper = some root ∨ ∃ run ∈ catalogRuns s.catalog, run.rootUpper = some root

/-- A block is reached from the base tree or from a run. -/
def Reaches (s : PageIndex) (b : BlockNumber) : Prop :=
  ∃ root, s.IsRoot root ∧ b ∈ (s.trees root).blocks

/-! ## Operations -/

/-- A run of a level, with the fields that freeing pages depends on. -/
def runOf (level : ℕ) (root : Option BlockNumber) : PgTreRun :=
  ⟨0, level, runLive, root, none, 0, 0, 0, 0⟩

/-- The id `pg_tre_run_catalog_append` assigns. -/
def assignedId (s : PageIndex) : ℕ := if s.nextRunId = 0 then 1 else s.nextRunId

/-- The id assigned to the next run is positive. -/
theorem assignedId_pos (s : PageIndex) : 0 < s.assignedId := by
  unfold assignedId
  split_ifs with hzero
  · exact Nat.one_pos
  · omega

/-- `pg_tre_run_catalog_append`. -/
def append (s : PageIndex) (run : PgTreRun) : PageIndex :=
  { s with
    nextRunId := s.assignedId + 1
    maxLevels := if s.maxLevels = 0 then 7 else s.maxLevels
    catalog := catalogPush { run with runId := s.assignedId } s.assignedId_pos s.catalog }

/-- `tre_debug_append_run`: the base tree is registered as a run. -/
def debugAppendRun (s : PageIndex) : PageIndex := s.append (runOf 1 s.rootUpper)

/-- The pages an operation writes: some for the postings of its hashes, which may share a coalesced
page, and the upper tree, whose root is the last. An inline posting has none. -/
structure PageLayout where
  postingPages : ℕ
  pagesOf : UInt64 → Finset ℕ
  within : ∀ hash, ∀ i ∈ pagesOf hash, i < postingPages
  innerPages : ℕ

/-- The pages of new postings, from a block on. -/
def layPostings (lay : PageLayout) (next : BlockNumber) (hashes : List UInt64) :
    List (UInt64 × Finset BlockNumber) :=
  hashes.map fun hash => (hash, (lay.pagesOf hash).image fun i => next + i)

/-- `pg_tre_upper_bulkload` after the postings of its entries: the root of the tree. There is no tree
without entries. -/
def bulkload (s : PageIndex) (lay : PageLayout) (entries : List (UInt64 × Finset BlockNumber)) :
    Option BlockNumber × PageIndex :=
  let first := s.nBlocks + lay.postingPages
  if entries = [] then (none, { s with nBlocks := first })
  else
    let root := first + lay.innerPages
    (some root, { s with
      trees := Function.update s.trees root ⟨Finset.Ico first (root + 1), entries⟩
      nBlocks := root + 1 })

/-- The part of `pg_tre_pending_merge` that flushes the pending hashes to a run of its own. -/
def flushToRun (s : PageIndex) (lay : PageLayout) (hashes : List UInt64) : PageIndex :=
  let built := s.bulkload lay (rebuildIter [] (layPostings lay s.nBlocks hashes))
  built.2.append (runOf 1 built.1)

/-- There is a base tree, and a run of the catalog has its root. -/
def Aliased (s : PageIndex) : Prop :=
  ∃ root ∈ s.rootUpper, ∃ run ∈ s.liveRuns, run.rootUpper = some root

instance (s : PageIndex) : Decidable s.Aliased :=
  inferInstanceAs (Decidable (∃ root ∈ _, ∃ run ∈ _, _))

/-- The part of `pg_tre_pending_merge` that builds a new base tree: the entries of the old one, and the
pending hashes with new postings. The pages of the old tree are logged if no run has its root, but not
those that the new tree has too. -/
def mergeIntoBase (s : PageIndex) (lay : PageLayout) (hashes : List UInt64) : PageIndex :=
  let old := s.treeAt s.rootUpper
  let oldPages := if s.Aliased then ∅ else old.blocks
  let built := s.bulkload lay (rebuildIter old.postings (layPostings lay s.nBlocks hashes))
  let newPages := (built.2.treeAt built.1).blocks
  { built.2 with
    rootUpper := built.1
    freeLog := s.freeLog ++ (oldPages \ newPages).sort (· ≤ ·) }

/-- `pg_tre_pending_merge` with some pending hashes in their order. -/
def pendingMerge (s : PageIndex) (flush : Bool) (lay : PageLayout) (hashes : List UInt64) : PageIndex :=
  if flush = true ∧ hashes ≠ [] then s.flushToRun lay hashes else s.mergeIntoBase lay hashes

/-- `collapse_fold_run` for some trees: the hashes of their entries in order. -/
def foldedHashes (trees : List TreePages) : List UInt64 :=
  ((trees.flatMap TreePages.postings).foldl (fun (mc : MergeCtx) e => mc.add e.1 ∅) .empty).sorted.map
    Prod.fst

/-- The runs a pass of the Hanoi merge collects. -/
def collected (s : PageIndex) : List PgTreRun := s.liveRuns.take runCatalogCap

/-- The pages a pass logs: those of the runs it drops whose roots are not shared. -/
def droppedPages (s : PageIndex) (target : ℕ) : List BlockNumber :=
  (s.collected.filter fun run => decide (run.level = target)).flatMap fun run =>
    if rootIsShared run.rootUpper s.rootUpper s.collected target then []
    else (s.treeAt run.rootUpper).blocks.sort (· ≤ ·)

/-- The index with the promoted run's tree, and the run. -/
def promote (s : PageIndex) (lay : PageLayout) (target : ℕ) : PgTreRun × PageIndex :=
  let merged := s.collected.filter fun run => decide (run.level = target)
  let hashes := foldedHashes (merged.map fun run => s.treeAt run.rootUpper)
  let built := s.bulkload lay (rebuildIter [] (layPostings lay s.nBlocks hashes))
  (runOf (target + 1) built.1, built.2)

/-- The runs of the catalog after a pass. -/
def survivors (s : PageIndex) (lay : PageLayout) (target : ℕ) : List PgTreRun :=
  (s.collected.filter fun run => decide (run.level ≠ target)) ++
    [{ (s.promote lay target).1 with runId := (s.promote lay target).2.assignedId }]

/-- A collected run stands in the catalog. -/
theorem mem_collected {s : PageIndex} {run : PgTreRun} (h : run ∈ s.collected) :
    run ∈ catalogRuns s.catalog := (List.mem_filter.mp (List.mem_of_mem_take h)).1

/-- A surviving run has an id. -/
theorem runId_pos_of_mem_survivors {s : PageIndex} {lay : PageLayout} {target : ℕ} {run : PgTreRun}
    (h : run ∈ s.survivors lay target) : 0 < run.runId := by
  rcases List.mem_append.mp h with h | h
  · exact runId_pos (mem_collected (List.mem_filter.mp h).1)
  · rw [List.mem_singleton.mp h]
    exact assignedId_pos _

/-- A pass of the Hanoi merge over a level. When the rewrite of the catalog is refused, the promoted
run has been appended and nothing is logged. -/
def hanoiPass (s : PageIndex) (lay : PageLayout) (target : ℕ) : Option PgError × PageIndex :=
  let appended := (s.promote lay target).2.append (s.promote lay target).1
  if hfits : (s.survivors lay target).length ≤ runCatalogCap then
    (none, { appended with
      catalog := [⟨s.survivors lay target, hfits, fun _ => runId_pos_of_mem_survivors⟩]
      freeLog := appended.freeLog ++ s.droppedPages target })
  else
    let n := (s.survivors lay target).length
    let cap := runCatalogCap
    (some ⟨s!"pg_tre: run catalog rewrite exceeds one page ({n} > {cap})"⟩, appended)

/-- The passes of `pg_tre_hanoi_merge`, each with the pages it writes. -/
def hanoiLoop (maxLevels : ℕ) (lays : ℕ → PageLayout) : ℕ → PageIndex → Option PgError × PageIndex
  | 0, s => (none, s)
  | guard + 1, s =>
      match targetLevel maxLevels s.collected with
      | none => (none, s)
      | some target =>
          match s.hanoiPass (lays guard) target with
          | (some e, s') => (some e, s')
          | (none, s') => hanoiLoop maxLevels lays guard s'

/-- `pg_tre_hanoi_merge`. -/
def hanoiMerge (s : PageIndex) (lays : ℕ → PageLayout) : Option PgError × PageIndex :=
  hanoiLoop (if 0 < s.maxLevels then s.maxLevels else 7) lays 64 s

/-- `pg_tre_collapse_runs`: all trees are folded into a new base tree, and their pages are logged. -/
def collapseRuns (s : PageIndex) (lay : PageLayout) : PageIndex :=
  if catalogRuns s.catalog = [] then s
  else
    let roots := s.rootUpper :: s.liveRuns.map (·.rootUpper)
    let hashes := foldedHashes (roots.map s.treeAt)
    let built := s.bulkload lay (rebuildIter [] (layPostings lay s.nBlocks hashes))
    { built.2 with
      rootUpper := built.1
      catalog := []
      freeLog := s.freeLog ++ roots.flatMap fun root => (s.treeAt root).blocks.sort (· ≤ ·) }

/-! ## Trees apart -/

/-- Trees of different roots have no page in common. -/
structure Apart (s : PageIndex) : Prop where
  live : ∀ run ∈ catalogRuns s.catalog, run.live = true
  allocated : ∀ root, s.IsRoot root → root < s.nBlocks
  bounded : ∀ root, s.IsRoot root → ∀ b ∈ (s.trees root).blocks, b < s.nBlocks
  apart : ∀ root root', s.IsRoot root → s.IsRoot root' → root ≠ root' →
    ∀ b ∈ (s.trees root).blocks, b ∉ (s.trees root').blocks

section

variable {s s' : PageIndex} {lay : PageLayout} {root b : BlockNumber} {target : ℕ}
  {entries : List (UInt64 × Finset BlockNumber)}

/-- New postings are on the pages from a block on. -/
theorem layPostings_spec {lay : PageLayout} {next : BlockNumber} {hashes : List UInt64}
    {e : UInt64 × Finset BlockNumber} (he : e ∈ layPostings lay next hashes) (hb : b ∈ e.2) :
    next ≤ b ∧ b < next + lay.postingPages := by
  obtain ⟨hash, -, rfl⟩ := List.mem_map.mp he
  obtain ⟨i, hi, rfl⟩ := Finset.mem_image.mp hb
  exact ⟨Nat.le_add_right _ _, Nat.add_lt_add_left (lay.within hash i hi) _⟩

/-- Appending a run writes no tree. -/
@[simp] theorem append_trees (s : PageIndex) (run : PgTreRun) : (s.append run).trees = s.trees := rfl

/-- Appending a run allocates nothing. -/
@[simp] theorem append_nBlocks (s : PageIndex) (run : PgTreRun) :
    (s.append run).nBlocks = s.nBlocks := rfl

/-- Appending a run frees nothing. -/
@[simp] theorem append_freeLog (s : PageIndex) (run : PgTreRun) :
    (s.append run).freeLog = s.freeLog := rfl

/-- An appended run stands in the catalog under its assigned id. -/
theorem mem_append {run r : PgTreRun} :
    r ∈ catalogRuns (s.append run).catalog ↔
      r = { run with runId := s.assignedId } ∨ r ∈ catalogRuns s.catalog :=
  @mem_catalogPush { run with runId := s.assignedId } s.assignedId_pos s.catalog r

/-- An appended run adds its root. -/
theorem isRoot_append {run : PgTreRun} :
    (s.append run).IsRoot root ↔ run.rootUpper = some root ∨ s.IsRoot root := by
  have hbase : (s.append run).rootUpper = s.rootUpper := rfl
  unfold IsRoot
  rw [hbase]
  constructor
  · rintro (hroot | ⟨r, hr, hroot⟩)
    · exact Or.inr (Or.inl hroot)
    · rcases mem_append.mp hr with rfl | hr
      · exact Or.inl hroot
      · exact Or.inr (Or.inr ⟨r, hr, hroot⟩)
  · rintro (hroot | hroot | ⟨r, hr, hroot⟩)
    · exact Or.inr ⟨_, mem_append.mpr (Or.inl rfl), hroot⟩
    · exact Or.inl hroot
    · exact Or.inr ⟨r, mem_append.mpr (Or.inr hr), hroot⟩

/-- Appending a live run leaves only live runs. -/
theorem live_append {run : PgTreRun} (h : ∀ r ∈ catalogRuns s.catalog, r.live = true)
    (hrun : run.live = true) : ∀ r ∈ catalogRuns (s.append run).catalog, r.live = true := by
  intro r hr
  rcases mem_append.mp hr with rfl | hr
  · exact hrun
  · exact h r hr

/-- The run of a level is live. -/
theorem live_runOf (level : ℕ) (root : Option BlockNumber) : (runOf level root).live = true := by
  simp [PgTreRun.live, runOf, runLive]

/-- A new tree leaves the roots, the catalog and the free log, and the trees that were there. Its
pages are new, or those of its entries. -/
theorem bulkload_spec (s : PageIndex) (lay : PageLayout)
    (entries : List (UInt64 × Finset BlockNumber)) :
    (s.bulkload lay entries).2.rootUpper = s.rootUpper ∧
      (s.bulkload lay entries).2.catalog = s.catalog ∧
      (s.bulkload lay entries).2.freeLog = s.freeLog ∧
      s.nBlocks + lay.postingPages ≤ (s.bulkload lay entries).2.nBlocks ∧
      (∀ root < s.nBlocks, (s.bulkload lay entries).2.trees root = s.trees root) ∧
      ∀ root, (s.bulkload lay entries).1 = some root → s.nBlocks ≤ root ∧
        root < (s.bulkload lay entries).2.nBlocks ∧
        ∀ b ∈ ((s.bulkload lay entries).2.trees root).blocks,
          s.nBlocks ≤ b ∧ b < (s.bulkload lay entries).2.nBlocks ∨ ∃ e ∈ entries, b ∈ e.2 := by
  by_cases hnil : entries = []
  · rw [bulkload, if_pos hnil]
    exact ⟨rfl, rfl, rfl, le_rfl, fun _ _ => rfl, fun root hroot => by cases hroot⟩
  · rw [bulkload, if_neg hnil]
    have hle : s.nBlocks + lay.postingPages ≤ s.nBlocks + lay.postingPages + lay.innerPages :=
      Nat.le_add_right _ _
    have hnew : s.nBlocks ≤ s.nBlocks + lay.postingPages := Nat.le_add_right _ _
    refine ⟨rfl, rfl, rfl, hle.trans (Nat.le_succ _), ?_, ?_⟩
    · intro root hlt
      exact Function.update_of_ne (ne_of_lt (lt_of_lt_of_le hlt (hnew.trans hle))) _ _
    · intro root hroot
      obtain rfl := Option.some.inj hroot
      refine ⟨hnew.trans hle, Nat.lt_succ_self _, ?_⟩
      intro b hb
      simp only [Function.update_self] at hb
      rcases TreePages.mem_blocks.mp hb with hb | hb
      · obtain ⟨hlow, hhigh⟩ := Finset.mem_Ico.mp hb
        exact Or.inl ⟨hnew.trans hlow, hhigh⟩
      · exact Or.inr hb

/-- After a new tree is written, the trees of the index are apart if all roots but its own were there,
and what it has of an old tree is of one whose root is gone. -/
theorem Apart.bulkload (h : s.Apart)
    (htrees : s'.trees = (s.bulkload lay entries).2.trees)
    (hblocks : s'.nBlocks = (s.bulkload lay entries).2.nBlocks)
    (hlive : ∀ run ∈ catalogRuns s'.catalog, run.live = true)
    (hroots : ∀ r, s'.IsRoot r → (s.bulkload lay entries).1 = some r ∨ s.IsRoot r)
    (hentries : ∀ e ∈ entries, ∀ b ∈ e.2, s.nBlocks ≤ b ∧ b < s.nBlocks + lay.postingPages ∨
      ∃ r, s.IsRoot r ∧ ¬s'.IsRoot r ∧ b ∈ (s.trees r).blocks) : s'.Apart := by
  obtain ⟨-, -, -, hle, hsame, hnew⟩ := s.bulkload_spec lay entries
  rw [← hblocks] at hle hnew
  rw [← htrees] at hsame hnew
  have hgrows : s.nBlocks ≤ s'.nBlocks := (Nat.le_add_right _ _).trans hle
  -- A page of the new tree is new, or of a tree whose root is gone.
  have hown : ∀ r, (s.bulkload lay entries).1 = some r → ∀ b ∈ (s'.trees r).blocks,
      b < s'.nBlocks ∧ (s.nBlocks ≤ b ∨ ∃ r, s.IsRoot r ∧ ¬s'.IsRoot r ∧ b ∈ (s.trees r).blocks) := by
    intro r hr b hb
    rcases (hnew r hr).2.2 b hb with ⟨hlow, hhigh⟩ | ⟨e, he, hb⟩
    · exact ⟨hhigh, Or.inl hlow⟩
    · rcases hentries e he b hb with ⟨hlow, hhigh⟩ | ⟨r₀, hr₀, hgone, hb₀⟩
      · exact ⟨lt_of_lt_of_le hhigh hle, Or.inl hlow⟩
      · exact ⟨lt_of_lt_of_le (h.bounded r₀ hr₀ b hb₀) hgrows, Or.inr ⟨r₀, hr₀, hgone, hb₀⟩⟩
  have hold : ∀ r, s.IsRoot r → s'.trees r = s.trees r := fun r hr => hsame r (h.allocated r hr)
  -- A page of the new tree is in no other tree.
  have hapart : ∀ r r', (s.bulkload lay entries).1 = some r → s'.IsRoot r' → s.IsRoot r' →
      ∀ b ∈ (s'.trees r).blocks, b ∉ (s'.trees r').blocks := by
    intro r r' hr hr' hold' b hb hb'
    rw [hold r' hold'] at hb'
    rcases (hown r hr b hb).2 with hlow | ⟨r₀, hr₀, hgone, hb₀⟩
    · exact absurd (h.bounded r' hold' b hb') (Nat.not_lt.mpr hlow)
    · refine h.apart r₀ r' hr₀ hold' ?_ b hb₀ hb'
      rintro rfl
      exact hgone hr'
  constructor
  case live => exact hlive
  case allocated =>
    intro r hr
    rcases hroots r hr with hnewr | hr
    · exact (hnew r hnewr).2.1
    · exact lt_of_lt_of_le (h.allocated r hr) hgrows
  case bounded =>
    intro r hr b hb
    rcases hroots r hr with hnewr | hr
    · exact (hown r hnewr b hb).1
    · rw [hold r hr] at hb
      exact lt_of_lt_of_le (h.bounded r hr b hb) hgrows
  case apart =>
    intro r r' hr hr' hne b hb hb'
    rcases hroots r hr with hnewr | hoer
    · rcases hroots r' hr' with hnewr' | hoer'
      · rw [hnewr] at hnewr'
        exact hne (Option.some.inj hnewr')
      · exact hapart r r' hnewr hr' hoer' b hb hb'
    · rcases hroots r' hr' with hnewr' | hoer'
      · exact hapart r' r hnewr' hr hoer b hb' hb
      · rw [hold r hoer] at hb
        rw [hold r' hoer'] at hb'
        exact h.apart r r' hoer hoer' hne b hb hb'

/-- The entries of a tree that takes none from an old one are on new pages. -/
theorem mem_rebuildIter_layPostings {hashes : List UInt64} {e : UInt64 × Finset BlockNumber}
    (he : e ∈ rebuildIter [] (layPostings lay s.nBlocks hashes)) (hb : b ∈ e.2) :
    s.nBlocks ≤ b ∧ b < s.nBlocks + lay.postingPages := by
  rcases mem_or_mem_of_mem_rebuildIter he with he | he
  · exact absurd he List.not_mem_nil
  · exact layPostings_spec he hb

/-! ## Steps that keep trees apart -/

/-- The same trees with fewer roots. -/
theorem Apart.mono (h : s.Apart) (htrees : s'.trees = s.trees) (hblocks : s'.nBlocks = s.nBlocks)
    (hlive : ∀ run ∈ catalogRuns s'.catalog, run.live = true)
    (hroots : ∀ r, s'.IsRoot r → s.IsRoot r) : s'.Apart := by
  constructor
  case live => exact hlive
  case allocated =>
    rw [hblocks]
    exact fun r hr => h.allocated r (hroots r hr)
  case bounded =>
    rw [htrees, hblocks]
    exact fun r hr => h.bounded r (hroots r hr)
  case apart =>
    rw [htrees]
    exact fun r r' hr hr' => h.apart r r' (hroots r hr) (hroots r' hr')

/-- The base tree as a run. -/
theorem Apart.debugAppendRun (h : s.Apart) : s.debugAppendRun.Apart := by
  refine h.mono rfl rfl (live_append h.live (live_runOf _ _)) ?_
  intro r hr
  rcases isRoot_append.mp hr with hr | hr
  · exact Or.inl hr
  · exact hr

/-- A new tree whose root an appended run gets. -/
theorem Apart.appendBuilt (h : s.Apart) (level : ℕ) {hashes : List UInt64} :
    let built := s.bulkload lay (rebuildIter [] (layPostings lay s.nBlocks hashes))
    (built.2.append (runOf level built.1)).Apart := by
  intro built
  obtain ⟨hbase, hcatalog, -⟩ :=
    s.bulkload_spec lay (rebuildIter [] (layPostings lay s.nBlocks hashes))
  refine h.bulkload rfl rfl ?_ ?_ ?_
  · refine live_append ?_ (live_runOf _ _)
    rw [hcatalog]
    exact h.live
  · intro r hr
    rcases isRoot_append.mp hr with hr | hr
    · exact Or.inl hr
    · refine Or.inr ?_
      unfold IsRoot at hr ⊢
      rwa [hbase, hcatalog] at hr
  · intro e he b hb
    exact Or.inl (mem_rebuildIter_layPostings he hb)

/-- A flush keeps the trees apart. -/
theorem Apart.flushToRun (h : s.Apart) (hashes : List UInt64) : (s.flushToRun lay hashes).Apart :=
  h.appendBuilt 1

/-- A new base tree. It has pages of the old one, so no run may have the old root. -/
theorem Apart.mergeIntoBase (h : s.Apart) (hfree : ¬s.Aliased) (hashes : List UInt64) :
    (s.mergeIntoBase lay hashes).Apart := by
  let entries := rebuildIter (s.treeAt s.rootUpper).postings (layPostings lay s.nBlocks hashes)
  obtain ⟨-, hcatalog, -, -, -, hnew⟩ := s.bulkload_spec lay entries
  have hruns : (s.mergeIntoBase lay hashes).catalog = s.catalog := hcatalog
  have hbase : (s.mergeIntoBase lay hashes).rootUpper = (s.bulkload lay entries).1 := rfl
  have hgone : ∀ r, s.rootUpper = some r → ¬(s.mergeIntoBase lay hashes).IsRoot r := by
    rintro r hr (hroot | ⟨run, hrun, hroot⟩)
    · rw [hbase] at hroot
      exact absurd (h.allocated r (Or.inl hr)) (Nat.not_lt.mpr (hnew r hroot).1)
    · rw [hruns] at hrun
      exact hfree ⟨r, hr, run, List.mem_filter.mpr ⟨hrun, h.live run hrun⟩, hroot⟩
  refine @Apart.bulkload s (s.mergeIntoBase lay hashes) lay entries h rfl rfl ?_ ?_ ?_
  · rw [hruns]
    exact h.live
  · rintro r (hroot | ⟨run, hrun, hroot⟩)
    · exact Or.inl hroot
    · rw [hruns] at hrun
      exact Or.inr (Or.inr ⟨run, hrun, hroot⟩)
  · intro e he b hb
    rcases mem_or_mem_of_mem_rebuildIter he with he | he
    · refine Or.inr ?_
      cases hr : s.rootUpper with
      | none =>
        rw [hr] at he
        exact absurd he List.not_mem_nil
      | some r =>
        rw [hr] at he
        exact ⟨r, Or.inl hr, hgone r hr, TreePages.mem_blocks.mpr (Or.inr ⟨e, he, hb⟩)⟩
    · exact Or.inl (layPostings_spec he hb)

/-- Collapsing the runs keeps the trees apart. -/
theorem Apart.collapseRuns (h : s.Apart) : (s.collapseRuns lay).Apart := by
  by_cases hnil : catalogRuns s.catalog = []
  · rw [PageIndex.collapseRuns, if_pos hnil]
    exact h
  · rw [PageIndex.collapseRuns, if_neg hnil]
    refine h.bulkload rfl rfl (fun run hrun => absurd hrun List.not_mem_nil) ?_ ?_
    · rintro r (hroot | ⟨run, hrun, -⟩)
      · exact Or.inl hroot
      · exact absurd hrun List.not_mem_nil
    · intro e he b hb
      exact Or.inl (mem_rebuildIter_layPostings he hb)

/-- What VACUUM, the drain of the free log and inserts do to the trees: each loses pages and gets new
ones of its own. -/
structure Maintains (s s' : PageIndex) : Prop where
  rootUpper : s'.rootUpper = s.rootUpper
  catalog : s'.catalog = s.catalog
  grows : s.nBlocks ≤ s'.nBlocks
  blocks : ∀ root, s.IsRoot root → ∀ b ∈ (s'.trees root).blocks,
    b ∈ (s.trees root).blocks ∨ s.nBlocks ≤ b ∧ b < s'.nBlocks
  own : ∀ root root', s.IsRoot root → s.IsRoot root' → root ≠ root' →
    ∀ b ∈ (s'.trees root).blocks, s.nBlocks ≤ b → b ∉ (s'.trees root').blocks

/-- Maintenance keeps the trees apart. -/
theorem Apart.maintain (h : s.Apart) (hm : Maintains s s') : s'.Apart := by
  have hroots : ∀ r, s'.IsRoot r → s.IsRoot r := by
    intro r hr
    unfold IsRoot at hr ⊢
    rwa [hm.rootUpper, hm.catalog] at hr
  constructor
  case live =>
    rw [hm.catalog]
    exact h.live
  case allocated => exact fun r hr => lt_of_lt_of_le (h.allocated r (hroots r hr)) hm.grows
  case bounded =>
    intro r hr b hb
    rcases hm.blocks r (hroots r hr) b hb with hb | ⟨-, hb⟩
    · exact lt_of_lt_of_le (h.bounded r (hroots r hr) b hb) hm.grows
    · exact hb
  case apart =>
    intro r r' hr hr' hne b hb hb'
    rcases hm.blocks r (hroots r hr) b hb with hold | ⟨hlow, -⟩
    · rcases hm.blocks r' (hroots r' hr') b hb' with hold' | ⟨hlow, -⟩
      · exact h.apart r r' (hroots r hr) (hroots r' hr') hne b hold hold'
      · exact absurd (h.bounded r (hroots r hr) b hold) (Nat.not_lt.mpr hlow)
    · exact hm.own r r' (hroots r hr) (hroots r' hr') hne b hb hlow hb'

/-! ## The Hanoi merge -/

/-- What a Hanoi merge does to the free log: what it appends is not reached in the end. No block that
was there comes to be reached. -/
structure FreesUnreached (s s' : PageIndex) : Prop where
  apart : s'.Apart
  grows : s.nBlocks ≤ s'.nBlocks
  stays : ∀ b < s.nBlocks, ¬s.Reaches b → ¬s'.Reaches b
  logs : ∃ logged, s'.freeLog = s.freeLog ++ logged ∧ ∀ b ∈ logged, b < s'.nBlocks ∧ ¬s'.Reaches b

/-- Doing nothing frees nothing. -/
theorem FreesUnreached.refl (h : s.Apart) : FreesUnreached s s where
  apart := h
  grows := le_rfl
  stays := fun _ _ hb => hb
  logs := ⟨[], (List.append_nil _).symm, fun _ hb => absurd hb List.not_mem_nil⟩

/-- Two steps that free only unreached blocks do so together. -/
theorem FreesUnreached.trans {s'' : PageIndex} (h : FreesUnreached s s') (h' : FreesUnreached s' s'') :
    FreesUnreached s s'' := by
  obtain ⟨logged, hlog, hlogged⟩ := h.logs
  obtain ⟨logged', hlog', hlogged'⟩ := h'.logs
  constructor
  case apart => exact h'.apart
  case grows => exact h.grows.trans h'.grows
  case stays =>
    intro b hb hunreached
    exact h'.stays b (lt_of_lt_of_le hb h.grows) (h.stays b hb hunreached)
  case logs =>
    refine ⟨logged ++ logged', by rw [hlog', hlog, List.append_assoc], ?_⟩
    intro b hb
    rcases List.mem_append.mp hb with hb | hb
    · obtain ⟨hlt, hunreached⟩ := hlogged b hb
      exact ⟨lt_of_lt_of_le hlt h'.grows, h'.stays b hlt hunreached⟩
    · exact hlogged' b hb

/-- The promoted run's tree has new pages only. -/
theorem promote_spec (s : PageIndex) (lay : PageLayout) (target : ℕ) :
    (s.promote lay target).2.rootUpper = s.rootUpper ∧
      (s.promote lay target).2.catalog = s.catalog ∧
      (s.promote lay target).2.freeLog = s.freeLog ∧
      s.nBlocks ≤ (s.promote lay target).2.nBlocks ∧
      (∀ root < s.nBlocks, (s.promote lay target).2.trees root = s.trees root) ∧
      ∀ root, (s.promote lay target).1.rootUpper = some root → s.nBlocks ≤ root ∧
        ∀ b ∈ ((s.promote lay target).2.trees root).blocks, s.nBlocks ≤ b := by
  let hashes := foldedHashes ((s.collected.filter fun run => decide (run.level = target)).map
    fun run => s.treeAt run.rootUpper)
  obtain ⟨hbase, hcatalog, hlog, hle, hsame, hnew⟩ :=
    s.bulkload_spec lay (rebuildIter [] (layPostings lay s.nBlocks hashes))
  refine ⟨hbase, hcatalog, hlog, (Nat.le_add_right _ _).trans hle, hsame, ?_⟩
  intro root hroot
  obtain ⟨hlow, -, hblocks⟩ := hnew root hroot
  refine ⟨hlow, fun b hb => ?_⟩
  rcases hblocks b hb with ⟨hb, -⟩ | ⟨e, he, hb⟩
  · exact hb
  · exact (mem_rebuildIter_layPostings he hb).1

/-- A tree whose pages a pass logs is not that of the base, nor of a run of another level. -/
theorem mem_droppedPages (hb : b ∈ s.droppedPages target) :
    ∃ run ∈ s.collected, ∃ root, run.rootUpper = some root ∧ b ∈ (s.trees root).blocks ∧
      s.rootUpper ≠ some root ∧
        ∀ r ∈ s.collected, r.level ≠ target → r.rootUpper ≠ some root := by
  obtain ⟨run, hrun, hb⟩ := List.mem_flatMap.mp hb
  have hmem := (List.mem_filter.mp hrun).1
  split_ifs at hb with hshared
  · exact absurd hb List.not_mem_nil
  · simp only [rootIsShared, Bool.or_eq_true, decide_eq_true_eq, List.any_eq_true, not_or, not_exists,
      not_and] at hshared
    obtain ⟨⟨hsome, hbase⟩, hlevels⟩ := hshared
    obtain ⟨root, hroot⟩ := Option.ne_none_iff_exists'.mp hsome
    rw [hroot] at hb hbase hlevels
    refine ⟨run, hmem, root, hroot, (Finset.mem_sort _).mp hb, fun h => hbase h.symm, ?_⟩
    intro r hr hlevel hroot'
    exact hlevels r hr hroot' hlevel

/-- A pass keeps trees apart, and the pages it logs are not reached behind it. -/
theorem Apart.hanoiPass (h : s.Apart) (lay : PageLayout) (target : ℕ) :
    FreesUnreached s (s.hanoiPass lay target).2 := by
  obtain ⟨hbase, hcatalog, hlog, hle, hsame, hnew⟩ := s.promote_spec lay target
  let appended := (s.promote lay target).2.append (s.promote lay target).1
  have happended : appended.Apart := h.appendBuilt (target + 1)
  -- A root behind the pass is the promoted run's or was one before.
  have hroots : ∀ r, appended.IsRoot r → (s.promote lay target).1.rootUpper = some r ∨ s.IsRoot r := by
    intro r hr
    rcases isRoot_append.mp hr with hr | hr
    · exact Or.inl hr
    · refine Or.inr ?_
      unfold IsRoot at hr ⊢
      rwa [hbase, hcatalog] at hr
  -- What is reached below the old end is reached from an old root.
  have holdroot : ∀ r, appended.IsRoot r → ∀ b < s.nBlocks, b ∈ (appended.trees r).blocks →
      s.IsRoot r ∧ b ∈ (s.trees r).blocks := by
    intro r hr b hb hmem
    rcases hroots r hr with hr | hr
    · exact absurd hb (Nat.not_lt.mpr ((hnew r hr).2 b hmem))
    · refine ⟨hr, ?_⟩
      rwa [append_trees, hsame r (h.allocated r hr)] at hmem
  unfold PageIndex.hanoiPass
  split_ifs with hfits
  · -- The rewritten catalog has the survivors only.
    have hkept : ∀ r, s.rootUpper = some r ∨
        (∃ run ∈ s.survivors lay target, run.rootUpper = some r) → appended.IsRoot r := by
      rintro r (hr | ⟨run, hrun, hr⟩)
      · exact isRoot_append.mpr (Or.inr (Or.inl (hbase.trans hr)))
      · rcases List.mem_append.mp hrun with hrun | hrun
        · refine isRoot_append.mpr (Or.inr (Or.inr ⟨run, ?_, hr⟩))
          rw [hcatalog]
          exact mem_collected (List.mem_filter.mp hrun).1
        · rw [List.mem_singleton.mp hrun] at hr
          exact isRoot_append.mpr (Or.inl hr)
    let s' : PageIndex := { appended with
      catalog := [⟨s.survivors lay target, hfits, fun _ => runId_pos_of_mem_survivors⟩]
      freeLog := appended.freeLog ++ s.droppedPages target }
    have hruns : catalogRuns s'.catalog = s.survivors lay target := List.append_nil _
    have hfewer : ∀ r, s'.IsRoot r → s.rootUpper = some r ∨
        ∃ run ∈ s.survivors lay target, run.rootUpper = some r := by
      rintro r (hr | ⟨run, hrun, hr⟩)
      · exact Or.inl (hbase.symm.trans hr)
      · exact Or.inr ⟨run, hruns ▸ hrun, hr⟩
    have hlive : ∀ run ∈ catalogRuns s'.catalog, run.live = true := by
      intro run hrun
      rw [hruns] at hrun
      rcases List.mem_append.mp hrun with hrun | hrun
      · exact h.live run (mem_collected (List.mem_filter.mp hrun).1)
      · rw [List.mem_singleton.mp hrun]
        exact live_runOf (target + 1) (s.promote lay target).1.rootUpper
    refine @FreesUnreached.mk s s' (happended.mono rfl rfl hlive fun r hr => hkept r (hfewer r hr)) hle
      ?_ ⟨s.droppedPages target, congrArg (· ++ _) hlog, ?_⟩
    · rintro b hb hunreached ⟨r, hr, hmem⟩
      exact hunreached ⟨r, holdroot r (hkept r (hfewer r hr)) b hb hmem⟩
    · intro b hb
      obtain ⟨run, hrun, root, hroot, hmem, hnotbase, hlevels⟩ := mem_droppedPages hb
      have hisroot : s.IsRoot root := Or.inr ⟨run, mem_collected hrun, hroot⟩
      have hlt : b < s.nBlocks := h.bounded root hisroot b hmem
      refine ⟨lt_of_lt_of_le hlt hle, ?_⟩
      rintro ⟨r, hr, hmem'⟩
      obtain ⟨hold, hmem'⟩ := holdroot r (hkept r (hfewer r hr)) b hlt hmem'
      -- The tree that still has the page would be the dropped one.
      have hsameroot : root = r := by
        by_contra hne
        exact h.apart root r hisroot hold hne b hmem hmem'
      subst hsameroot
      rcases hfewer root hr with hr | ⟨run', hrun', hroot'⟩
      · exact hnotbase hr
      · rcases List.mem_append.mp hrun' with hrun' | hrun'
        · obtain ⟨hcollected, hlevel⟩ := List.mem_filter.mp hrun'
          exact hlevels run' hcollected (of_decide_eq_true hlevel) hroot'
        · rw [List.mem_singleton.mp hrun'] at hroot'
          exact absurd (h.allocated root hisroot) (Nat.not_lt.mpr (hnew root hroot').1)
  · exact ⟨happended, hle, fun b hb hunreached ⟨r, hr, hmem⟩ =>
      hunreached ⟨r, holdroot r hr b hb hmem⟩, [], (hlog.trans (List.append_nil _).symm),
      fun _ hb => absurd hb List.not_mem_nil⟩

/-- The merge loop keeps the trees apart and frees only unreached blocks. -/
theorem Apart.hanoiLoop (h : s.Apart) (maxLevels : ℕ) (lays : ℕ → PageLayout) (guard : ℕ) :
    FreesUnreached s (hanoiLoop maxLevels lays guard s).2 := by
  induction guard generalizing s with
  | zero => exact FreesUnreached.refl h
  | succ guard ih =>
    rw [PageIndex.hanoiLoop]
    cases htarget : targetLevel maxLevels s.collected with
    | none => exact FreesUnreached.refl h
    | some target =>
      have hpass := h.hanoiPass (lays guard) target
      dsimp only
      rcases hresult : s.hanoiPass (lays guard) target with ⟨_ | e, s'⟩
      · rw [hresult] at hpass
        exact hpass.trans (ih hpass.apart)
      · rwa [hresult] at hpass

/-- The level merge keeps the trees apart and frees only unreached blocks. -/
theorem Apart.hanoiMerge (h : s.Apart) (lays : ℕ → PageLayout) :
    FreesUnreached s (s.hanoiMerge lays).2 := h.hanoiLoop _ lays 64

/-! ## Runs -/

/-- A built index: no catalog yet, and the base tree's pages are allocated. -/
structure Built (s : PageIndex) : Prop where
  catalog : s.catalog = []
  allocated : ∀ root, s.rootUpper = some root →
    root < s.nBlocks ∧ ∀ b ∈ (s.trees root).blocks, b < s.nBlocks

/-- A built index has its trees apart. -/
theorem Built.apart (h : s.Built) : s.Apart := by
  have hroots : ∀ r, s.IsRoot r → s.rootUpper = some r := by
    rintro r (hr | ⟨run, hrun, -⟩)
    · exact hr
    · rw [h.catalog] at hrun
      exact absurd hrun List.not_mem_nil
  constructor
  case live =>
    rw [h.catalog]
    exact fun run hrun => absurd hrun List.not_mem_nil
  case allocated => exact fun r hr => (h.allocated r (hroots r hr)).1
  case bounded => exact fun r hr => (h.allocated r (hroots r hr)).2
  case apart =>
    intro r r' hr hr' hne
    exact absurd (Option.some.inj ((hroots r hr).symm.trans (hroots r' hr'))) hne

/-- The runs from a built index in which no pending merge replaces the base tree while a run of the
catalog has its root. -/
inductive CarefulRun : PageIndex → Prop
  | built {s : PageIndex} : s.Built → CarefulRun s
  | debugAppendRun {s : PageIndex} : CarefulRun s → CarefulRun s.debugAppendRun
  | pendingMerge {s : PageIndex} (flush : Bool) (lay : PageLayout) (hashes : List UInt64) :
      CarefulRun s → (flush = true ∧ hashes ≠ [] ∨ ¬s.Aliased) →
        CarefulRun (s.pendingMerge flush lay hashes)
  | hanoiMerge {s : PageIndex} (lays : ℕ → PageLayout) : CarefulRun s → CarefulRun (s.hanoiMerge lays).2
  | collapseRuns {s : PageIndex} (lay : PageLayout) : CarefulRun s → CarefulRun (s.collapseRuns lay)
  | maintain {s s' : PageIndex} : CarefulRun s → Maintains s s' → CarefulRun s'

/-- A careful run keeps the trees apart. -/
theorem CarefulRun.apart (h : CarefulRun s) : s.Apart := by
  induction h with
  | built h => exact h.apart
  | debugAppendRun _ ih => exact ih.debugAppendRun
  | pendingMerge flush lay hashes _ hfree ih =>
    unfold PageIndex.pendingMerge
    split_ifs with hflush
    · exact ih.flushToRun hashes
    · exact ih.mergeIntoBase (hfree.resolve_left hflush) hashes
  | hanoiMerge lays _ ih => exact (ih.hanoiMerge lays).apart
  | collapseRuns lay _ ih => exact ih.collapseRuns
  | maintain _ hm ih => exact ih.maintain hm

/-- In every such run a Hanoi merge logs only blocks that no tree reaches behind it. -/
theorem hanoiMerge_frees_unreached (h : CarefulRun s) (lays : ℕ → PageLayout) :
    ∃ logged, (s.hanoiMerge lays).2.freeLog = s.freeLog ++ logged ∧
      ∀ b ∈ logged, ¬(s.hanoiMerge lays).2.Reaches b := by
  obtain ⟨logged, hlog, hlogged⟩ := (h.apart.hanoiMerge lays).logs
  exact ⟨logged, hlog, fun b hb => (hlogged b hb).2⟩

end

/-! ## A replaced base tree -/

/-- What every Hanoi merge leaves: the base tree, the trees that were there, and what was logged. -/
structure KeepsBase (s s' : PageIndex) : Prop where
  rootUpper : s'.rootUpper = s.rootUpper
  grows : s.nBlocks ≤ s'.nBlocks
  trees : ∀ root < s.nBlocks, s'.trees root = s.trees root
  logs : ∀ b ∈ s.freeLog, b ∈ s'.freeLog

/-- A pass leaves the base alone. -/
theorem keepsBase_hanoiPass (s : PageIndex) (lay : PageLayout) (target : ℕ) :
    KeepsBase s (s.hanoiPass lay target).2 := by
  obtain ⟨hbase, -, hlog, hle, hsame, -⟩ := s.promote_spec lay target
  unfold hanoiPass
  split_ifs with hfits
  · refine ⟨hbase, hle, hsame, ?_⟩
    intro b hb
    exact List.mem_append_left _ (hlog ▸ hb)
  · exact ⟨hbase, hle, hsame, fun b hb => hlog ▸ hb⟩

/-- The merge loop leaves the base alone. -/
theorem keepsBase_hanoiLoop (s : PageIndex) (maxLevels : ℕ) (lays : ℕ → PageLayout) (guard : ℕ) :
    KeepsBase s (hanoiLoop maxLevels lays guard s).2 := by
  induction guard generalizing s with
  | zero => exact ⟨rfl, le_rfl, fun _ _ => rfl, fun _ hb => hb⟩
  | succ guard ih =>
    rw [hanoiLoop]
    cases htarget : targetLevel maxLevels s.collected with
    | none => exact ⟨rfl, le_rfl, fun _ _ => rfl, fun _ hb => hb⟩
    | some target =>
      have hpass := s.keepsBase_hanoiPass (lays guard) target
      dsimp only
      rcases hresult : s.hanoiPass (lays guard) target with ⟨_ | e, s'⟩
      · rw [hresult] at hpass
        have hrest := ih s'
        exact ⟨hrest.rootUpper.trans hpass.rootUpper, hpass.grows.trans hrest.grows,
          fun root hlt => (hrest.trees root (lt_of_lt_of_le hlt hpass.grows)).trans
            (hpass.trees root hlt),
          fun b hb => hrest.logs b (hpass.logs b hb)⟩
      · rwa [hresult] at hpass

/-- The pages of the first pass stay logged, and the base tree stays in its place. -/
theorem hanoiMerge_first {s : PageIndex} {lays : ℕ → PageLayout} {target : ℕ}
    (htarget : targetLevel (if 0 < s.maxLevels then s.maxLevels else 7) s.collected = some target)
    (hfits : (s.survivors (lays 63) target).length ≤ runCatalogCap) :
    KeepsBase s (s.hanoiMerge lays).2 ∧
      ∀ b ∈ s.droppedPages target, b ∈ (s.hanoiMerge lays).2.freeLog := by
  refine ⟨s.keepsBase_hanoiLoop _ lays 64, ?_⟩
  intro b hb
  obtain ⟨s', hpass, hmem⟩ : ∃ s', s.hanoiPass (lays 63) target = (none, s') ∧ b ∈ s'.freeLog := by
    rw [hanoiPass, dif_pos hfits]
    exact ⟨_, rfl, List.mem_append_right _ hb⟩
  rw [hanoiMerge, hanoiLoop, htarget]
  dsimp only
  rw [hpass]
  exact (s'.keepsBase_hanoiLoop _ lays 63).logs b hmem

/-- A base tree on block 0 with one posting, on block 1. -/
def onePosting : PageIndex where
  rootUpper := some 0
  catalog := []
  nextRunId := 0
  maxLevels := 7
  trees := fun _ => ⟨{0}, [(5, {1})]⟩
  nBlocks := 2
  freeLog := []

/-- Postings are inline, and an upper tree is its root. -/
def inlineLayout : PageLayout := ⟨0, fun _ => ∅, by simp, 0⟩

/-- The index with one posting is a built one. -/
theorem onePosting_built : onePosting.Built := by
  refine ⟨rfl, ?_⟩
  intro root hroot
  obtain rfl : 0 = root := Option.some.inj hroot
  exact ⟨by decide, by decide⟩

/-- After two flushes the level merge frees blocks, and none of them is reached. -/
theorem hanoiMerge_frees_unreached_flushes :
    ∃ logged, (((onePosting.flushToRun inlineLayout [7]).flushToRun inlineLayout [9]).hanoiMerge
        fun _ => inlineLayout).2.freeLog =
        ((onePosting.flushToRun inlineLayout [7]).flushToRun inlineLayout [9]).freeLog ++ logged ∧
      ∀ b ∈ logged, ¬(((onePosting.flushToRun inlineLayout [7]).flushToRun inlineLayout [9]).hanoiMerge
        fun _ => inlineLayout).2.Reaches b := by
  have hrun : CarefulRun ((onePosting.flushToRun inlineLayout [7]).flushToRun inlineLayout [9]) :=
    CarefulRun.pendingMerge true inlineLayout [9]
      (CarefulRun.pendingMerge true inlineLayout [7] (CarefulRun.built onePosting_built)
        (Or.inl ⟨rfl, by decide⟩)) (Or.inl ⟨rfl, by decide⟩)
  exact hanoiMerge_frees_unreached hrun fun _ => inlineLayout

/-- The index after the base tree was registered as a run and a pending merge replaced it. The posting
on block 1 is in the old tree and in the new one. -/
def mergedBase : PageIndex where
  rootUpper := some 2
  catalog := onePosting.debugAppendRun.catalog
  nextRunId := 2
  maxLevels := 7
  trees := Function.update onePosting.trees 2 ⟨{2}, [(5, {1}), (7, ∅)]⟩
  nBlocks := 3
  freeLog := []

/-- The merge after an appended run takes the shared posting into the base. -/
theorem pendingMerge_mergedBase :
    onePosting.debugAppendRun.pendingMerge false inlineLayout [7] = mergedBase := by
  have hentries : rebuildIter
      (onePosting.debugAppendRun.treeAt onePosting.debugAppendRun.rootUpper).postings
      (layPostings inlineLayout onePosting.debugAppendRun.nBlocks [7]) = [(5, {1}), (7, ∅)] := by
    change rebuildIter [((5 : UInt64), ({1} : Finset ℕ))] [(7, ∅)] = [(5, {1}), (7, ∅)]
    simp [rebuildIter]
  have haliased : onePosting.debugAppendRun.Aliased := by decide +kernel
  have hbase : onePosting.debugAppendRun.pendingMerge false inlineLayout [7] =
      onePosting.debugAppendRun.mergeIntoBase inlineLayout [7] := rfl
  rw [hbase]
  unfold mergeIntoBase
  simp only [hentries, if_pos haliased, bulkload, reduceCtorEq, if_false, Finset.empty_sdiff,
    Finset.sort_empty]
  rfl

/-- When the new base tree is registered too, the Hanoi merge of the two runs logs the posting that the
old base tree shares with the new one. -/
theorem hanoiMerge_frees_reached :
    let s := (onePosting.debugAppendRun.pendingMerge false inlineLayout [7]).debugAppendRun
    let merged := s.hanoiMerge fun _ => inlineLayout
    onePosting.Built ∧ 1 ∉ s.freeLog ∧ 1 ∈ merged.2.freeLog ∧ merged.2.Reaches 1 := by
  intro s merged
  have hs : s = mergedBase.debugAppendRun := congrArg debugAppendRun pendingMerge_mergedBase
  have htarget : targetLevel (if 0 < s.maxLevels then s.maxLevels else 7) s.collected = some 1 := by
    rw [hs]
    decide +kernel
  have hfits : (s.survivors inlineLayout 1).length ≤ runCatalogCap := by
    rw [hs]
    decide +kernel
  obtain ⟨hkeeps, hlogs⟩ := @hanoiMerge_first s (fun _ => inlineLayout) 1 htarget hfits
  refine ⟨onePosting_built, ?_, hlogs 1 ?_, 2, Or.inl ?_, ?_⟩
  · rw [hs]
    decide
  · rw [hs]
    have hdropped : ∃ run ∈ mergedBase.debugAppendRun.collected, run.level = 1 ∧
        rootIsShared run.rootUpper mergedBase.debugAppendRun.rootUpper
          mergedBase.debugAppendRun.collected 1 = false ∧
        1 ∈ (mergedBase.debugAppendRun.treeAt run.rootUpper).blocks := by decide +kernel
    obtain ⟨run, hrun, hlevel, hshared, hmem⟩ := hdropped
    refine List.mem_flatMap.mpr ⟨run, List.mem_filter.mpr ⟨hrun, decide_eq_true hlevel⟩, ?_⟩
    rw [hshared]
    exact (Finset.mem_sort _).mpr hmem
  · rw [hkeeps.rootUpper, hs]
    rfl
  · rw [hkeeps.trees 2 (by rw [hs]; decide), hs]
    decide +kernel

end PageIndex

end PgTre
