import PgTre.Query.RegexAst
import Mathlib.Data.Finset.Lattice.Basic
import Mathlib.Data.List.Nodup

/-!
# Runs and their catalog

An index is a base upper tree and, on top of it, the runs of the catalog of
`src/pages/run_catalog.c`: a chain of pages of at most `RUN_CATALOG_CAP` records, the newest
page first. A run is found through the root block of its own upper tree. What an index says
about a trigram is the union of the postings in the base tree and in all live runs.
-/

namespace PgTre

/-- A block of the index. -/
abbrev BlockNumber := ℕ

/-! ## Upper trees -/

/-- An upper tree read through its leaves: the trigram hashes in ascending order, each with
its posting, a set of packed TIDs. -/
structure UpperTree where
  entries : List (UInt64 × Finset ℕ)
  /-- The hashes ascend. -/
  ascending : entries.Pairwise (fun e e' => e.1 < e'.1)

/-- The tree rooted at an invalid block. -/
def UpperTree.empty : UpperTree := ⟨[], List.Pairwise.nil⟩

/-- `pg_tre_upper_lookup_root`: the posting of a hash. -/
def UpperTree.lookup (tree : UpperTree) (h : UInt64) : Option (Finset ℕ) :=
  (tree.entries.find? (fun e => e.1 = h)).map Prod.snd

/-- The TIDs the tree holds for a hash. -/
def UpperTree.postings (tree : UpperTree) (h : UInt64) : Finset ℕ :=
  (tree.lookup h).getD ∅

/-- A lookup finds the one entry of the hash. -/
theorem UpperTree.lookup_eq_some {tree : UpperTree} {h : UInt64} {s : Finset ℕ} :
    tree.lookup h = some s ↔ (h, s) ∈ tree.entries := by
  obtain ⟨entries, hasc⟩ := tree
  simp only [lookup]
  induction entries with
  | nil => simp
  | cons e entries ih =>
    obtain ⟨hfirst, hrest⟩ := List.pairwise_cons.mp hasc
    by_cases heq : e.1 = h
    · rw [List.find?_cons_of_pos (by simpa using heq)]
      simp only [Option.map_some, Option.some.injEq, List.mem_cons]
      constructor
      · rintro rfl
        exact Or.inl (by rw [← heq])
      · rintro (rfl | hmem)
        · rfl
        · have hlt := hfirst _ hmem
          rw [heq] at hlt
          exact absurd hlt (UInt64.lt_irrefl h)
    · rw [List.find?_cons_of_neg (by simpa using heq), ih hrest]
      simp only [List.mem_cons]
      constructor
      · exact Or.inr
      · rintro (rfl | hmem)
        · exact absurd rfl heq
        · exact hmem

/-- A TID is held for a hash exactly when the hash's entry has it. -/
theorem UpperTree.mem_postings {tree : UpperTree} {h : UInt64} {tid : ℕ} :
    tid ∈ tree.postings h ↔ ∃ s, (h, s) ∈ tree.entries ∧ tid ∈ s := by
  unfold postings
  cases hlook : tree.lookup h with
  | none =>
    constructor
    · intro hmem
      simp at hmem
    · rintro ⟨s, hs, -⟩
      rw [lookup_eq_some.mpr hs] at hlook
      cases hlook
  | some s =>
    constructor
    · intro hmem
      exact ⟨s, lookup_eq_some.mp hlook, hmem⟩
    · rintro ⟨s', hs', hmem⟩
      rw [lookup_eq_some.mpr hs'] at hlook
      rw [← Option.some.inj hlook]
      exact hmem

/-- The empty tree has no posting. -/
@[simp] theorem UpperTree.postings_empty (h : UInt64) : UpperTree.empty.postings h = ∅ := rfl

/-! ## The catalog -/

/-- `PgTreRun`. An invalid block is `none`. -/
structure PgTreRun where
  runId : ℕ
  level : ℕ
  flags : ℕ
  rootUpper : Option BlockNumber
  rootRange : Option BlockNumber
  nTuples : ℕ
  nTrigrams : ℕ
  minTrigramHash : UInt64
  maxTrigramHash : UInt64
  deriving DecidableEq

/-- `PG_TRE_RUN_LIVE`. -/
def runLive : ℕ := 1

/-- The run takes part in scans: its flags have the bit `PG_TRE_RUN_LIVE`. -/
def PgTreRun.live (run : PgTreRun) : Bool := decide (run.flags &&& runLive ≠ 0)

/-- `RUN_CATALOG_CAP` for pages of 8192 bytes: the page header takes 24 of them, the opaque
area 8 and the catalog header 16, and a record has 64. -/
def runCatalogCap : ℕ := (8192 - 24 - 8 - 16) / 64

/-- A catalog page. -/
structure RunCatalogPage where
  runs : List PgTreRun
  /-- The records fit on the page. -/
  fits : runs.length ≤ runCatalogCap
  /-- Id 0 is the base run's, which the catalog does not store. -/
  ids : ∀ run ∈ runs, 0 < run.runId

/-- The records of a chain of catalog pages. -/
def catalogRuns (catalog : List RunCatalogPage) : List PgTreRun :=
  catalog.flatMap (·.runs)

/-- The stored part of an index: the fields of the meta page the catalog uses, the chain of
catalog pages from its head on, the upper trees by their root blocks, the number of blocks, and
the roots whose pages the free log holds. -/
structure RunIndex where
  rootUpper : Option BlockNumber
  rootRange : Option BlockNumber
  nTuplesIndexed : ℕ
  nTrigrams : ℕ
  nextRunId : ℕ
  maxLevels : ℕ
  nRuns : ℕ
  catalog : List RunCatalogPage
  upperTrees : BlockNumber → UpperTree
  nBlocks : BlockNumber
  freeLog : List BlockNumber
  /-- The level limit is the one `pg_tre_meta_init` writes, or missing on a meta page from
  before version 7. -/
  levels : maxLevels = 0 ∨ maxLevels = 7
  /-- The base tree's root lies within the index. -/
  baseAllocated : ∀ b, rootUpper = some b → b < nBlocks
  /-- So do the roots of the catalogued runs. -/
  runsAllocated : ∀ run ∈ catalogRuns catalog, ∀ b, run.rootUpper = some b → b < nBlocks

/-- The level limit that `pg_tre_meta_init` writes. -/
theorem default_levels : 7 = 0 ∨ 7 = 7 := Or.inr rfl

/-- The upper tree at a root. -/
def RunIndex.treeAt (idx : RunIndex) (root : Option BlockNumber) : UpperTree :=
  match root with
  | none => .empty
  | some b => idx.upperTrees b

/-- The live runs of the catalog in the order of the iterator. -/
def RunIndex.liveRuns (idx : RunIndex) : List PgTreRun :=
  (catalogRuns idx.catalog).filter (·.live)

/-- The run the iterator serves first: the base tree, with id 0. -/
def RunIndex.implicitRun (idx : RunIndex) : PgTreRun where
  runId := 0
  level := 1
  flags := runLive
  rootUpper := idx.rootUpper
  rootRange := idx.rootRange
  nTuples := idx.nTuplesIndexed
  nTrigrams := idx.nTrigrams
  minTrigramHash := 0
  maxTrigramHash := UInt64.ofNat (2 ^ 64 - 1)

/-- The runs `pg_tre_run_catalog_next` yields. -/
def RunIndex.iterate (idx : RunIndex) : List PgTreRun := idx.implicitRun :: idx.liveRuns

/-- The index holds a TID for a hash: in the base tree or in a live run. -/
def RunIndex.Holds (idx : RunIndex) (h : UInt64) (tid : ℕ) : Prop :=
  ∃ run ∈ idx.iterate, tid ∈ (idx.treeAt run.rootUpper).postings h

/-- Holding, with the base tree apart from the live runs. -/
theorem RunIndex.holds_iff {idx : RunIndex} {h : UInt64} {tid : ℕ} :
    idx.Holds h tid ↔ tid ∈ (idx.treeAt idx.rootUpper).postings h ∨
      ∃ run ∈ idx.liveRuns, tid ∈ (idx.treeAt run.rootUpper).postings h := by
  simp [Holds, iterate, implicitRun]

/-- A live run is a record of the catalog. -/
theorem RunIndex.mem_liveRuns {idx : RunIndex} {run : PgTreRun} :
    run ∈ idx.liveRuns ↔ run ∈ catalogRuns idx.catalog ∧ run.live = true := by
  simp [liveRuns]

/-- Catalogued runs never have the base run's id. -/
theorem runId_pos {catalog : List RunCatalogPage} {run : PgTreRun}
    (h : run ∈ catalogRuns catalog) : 0 < run.runId := by
  obtain ⟨page, -, hrun⟩ := List.mem_flatMap.mp h
  exact page.ids run hrun

/-! ## Appending and rewriting -/

/-- The catalog with one more record: on the head page, or on a fresh page in front of it when
there is none or it is full. -/
def catalogPush (run : PgTreRun) (hid : 0 < run.runId) :
    List RunCatalogPage → List RunCatalogPage
  | [] => [⟨[run], by simp [runCatalogCap], by simpa using hid⟩]
  | page :: rest =>
      if hroom : page.runs.length < runCatalogCap then
        ⟨page.runs ++ [run], by rw [List.length_append]; exact hroom, fun r hr => by
          rcases List.mem_append.mp hr with hr | hr
          · exact page.ids r hr
          · rwa [List.mem_singleton.mp hr]⟩ :: rest
      else ⟨[run], by simp [runCatalogCap], by simpa using hid⟩ :: page :: rest

/-- Pushing adds exactly the one record. -/
theorem mem_catalogPush {run : PgTreRun} {hid : 0 < run.runId} {catalog : List RunCatalogPage}
    {r : PgTreRun} :
    r ∈ catalogRuns (catalogPush run hid catalog) ↔ r = run ∨ r ∈ catalogRuns catalog := by
  cases catalog with
  | nil => simp [catalogPush, catalogRuns]
  | cons page rest =>
    simp only [catalogPush]
    split_ifs
    · simp only [catalogRuns, List.flatMap_cons, List.mem_append, List.mem_singleton]
      constructor
      · rintro ((hr | hr) | hr)
        · exact Or.inr (Or.inl hr)
        · exact Or.inl hr
        · exact Or.inr (Or.inr hr)
      · rintro (hr | hr | hr)
        · exact Or.inl (Or.inr hr)
        · exact Or.inl (Or.inl hr)
        · exact Or.inr hr
    · simp [catalogRuns]

/-- The id `pg_tre_run_catalog_append` assigns; a meta page from before version 7 has no
counter. -/
def RunIndex.assignedId (idx : RunIndex) : ℕ := if idx.nextRunId = 0 then 1 else idx.nextRunId

/-- The id assigned to the next run is positive. -/
theorem RunIndex.assignedId_pos (idx : RunIndex) : 0 < idx.assignedId := by
  unfold assignedId
  split_ifs <;> omega

/-- `pg_tre_run_catalog_append`: the catalog with the run under its assigned id. -/
def runCatalogAppend (idx : RunIndex) (run : PgTreRun)
    (hroot : ∀ b, run.rootUpper = some b → b < idx.nBlocks) : RunIndex :=
  { idx with
    nextRunId := idx.assignedId + 1
    maxLevels := if idx.maxLevels = 0 then 7 else idx.maxLevels
    nRuns := if idx.nRuns = 0 then 2 else idx.nRuns + 1
    catalog := catalogPush { run with runId := idx.assignedId } idx.assignedId_pos idx.catalog
    levels := by
      right
      rcases idx.levels with hzero | hseven
      · rw [if_pos hzero]
      · rw [if_neg (by omega), hseven]
    runsAllocated := fun r hr b hb => by
      rcases mem_catalogPush.mp hr with rfl | hr
      · exact hroot b hb
      · exact idx.runsAllocated r hr b hb }

/-- Appending a live run adds what its tree holds. -/
theorem holds_runCatalogAppend {idx : RunIndex} {run : PgTreRun} (hroot : _) (hlive : run.live = true)
    {h : UInt64} {tid : ℕ} :
    (runCatalogAppend idx run hroot).Holds h tid ↔
      idx.Holds h tid ∨ tid ∈ (idx.treeAt run.rootUpper).postings h := by
  have htree (root : Option BlockNumber) : (runCatalogAppend idx run hroot).treeAt root =
      idx.treeAt root := by
    cases root <;> rfl
  have hruns {r : PgTreRun} : r ∈ (runCatalogAppend idx run hroot).liveRuns ↔
      r = { run with runId := idx.assignedId } ∨ r ∈ idx.liveRuns := by
    rw [RunIndex.mem_liveRuns, RunIndex.mem_liveRuns, runCatalogAppend, mem_catalogPush]
    constructor
    · rintro ⟨hr | hr, hl⟩
      · exact Or.inl hr
      · exact Or.inr ⟨hr, hl⟩
    · rintro (rfl | ⟨hr, hl⟩)
      · exact ⟨Or.inl rfl, hlive⟩
      · exact ⟨Or.inr hr, hl⟩
  rw [RunIndex.holds_iff, RunIndex.holds_iff]
  simp only [htree]
  constructor
  · rintro (hbase | ⟨r, hr, hmem⟩)
    · exact Or.inl (Or.inl hbase)
    · rcases hruns.mp hr with rfl | hr
      · exact Or.inr hmem
      · exact Or.inl (Or.inr ⟨r, hr, hmem⟩)
  · rintro ((hbase | ⟨r, hr, hmem⟩) | hnew)
    · exact Or.inl hbase
    · exact Or.inr ⟨r, hruns.mpr (Or.inr hr), hmem⟩
    · exact Or.inr ⟨_, hruns.mpr (Or.inl rfl), hnew⟩

/-- `pg_tre_run_catalog_rewrite`: the whole catalog replaced by one fresh page, or by nothing.
A list that does not fit one page is an error before anything is written. -/
def runCatalogRewrite (idx : RunIndex) (runs : List PgTreRun) (hids : ∀ run ∈ runs, 0 < run.runId)
    (halloc : ∀ run ∈ runs, ∀ b, run.rootUpper = some b → b < idx.nBlocks) :
    Except PgError RunIndex :=
  if hfits : runs.length ≤ runCatalogCap then
    .ok { idx with
      nRuns := if runs = [] then 0 else runs.length + 1
      catalog := if runs = [] then [] else [⟨runs, hfits, hids⟩]
      runsAllocated := fun r hr b hb => by
        split_ifs at hr
        · simp [catalogRuns] at hr
        · exact halloc r (by simpa [catalogRuns] using hr) b hb }
  else
    let n := runs.length
    let cap := runCatalogCap
    .error ⟨s!"pg_tre: run catalog rewrite exceeds one page ({n} > {cap})"⟩

/-- The catalog after a rewrite holds exactly the given runs. -/
theorem catalogRuns_rewrite {idx idx' : RunIndex} {runs : List PgTreRun} {hids : _} {halloc : _}
    (h : runCatalogRewrite idx runs hids halloc = .ok idx') :
    catalogRuns idx'.catalog = runs ∧ idx'.upperTrees = idx.upperTrees ∧
      idx'.rootUpper = idx.rootUpper ∧ runs.length ≤ runCatalogCap := by
  unfold runCatalogRewrite at h
  by_cases hfits : runs.length ≤ runCatalogCap
  · rw [dif_pos hfits] at h
    rw [← Except.ok.inj h]
    refine ⟨?_, rfl, rfl, hfits⟩
    by_cases hnil : runs = []
    · simp [hnil, catalogRuns]
    · simp [hnil, catalogRuns]
  · rw [dif_neg hfits] at h
    cases h

/-- Rewriting the catalog allocates nothing. -/
theorem nBlocks_runCatalogRewrite {idx idx' : RunIndex} {runs : List PgTreRun} {hids : _} {halloc : _}
    (h : runCatalogRewrite idx runs hids halloc = .ok idx') : idx'.nBlocks = idx.nBlocks := by
  unfold runCatalogRewrite at h
  by_cases hfits : runs.length ≤ runCatalogCap
  · rw [dif_pos hfits] at h
    rw [← Except.ok.inj h]
  · rw [dif_neg hfits] at h
    cases h

end PgTre
