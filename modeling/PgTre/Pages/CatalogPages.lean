import PgTre.Util.LinkedChain
import PgTre.Pages.RunCatalog

/-!
# Reading the run catalog page by page

The catalog's pages are never written over: a record is added behind the others of the head page,
a full head page gets a new one in front, and a rewrite puts its records on a new page. An iterator
that has read the meta page therefore still comes to every record that was in the catalog then,
whatever happens to the catalog in between.
-/

namespace PgTre

/-- A catalog page on disk. -/
structure CatalogPage where
  rightLink : Option BlockNumber
  runs : List PgTreRun

/-- The catalog pages of an index. -/
structure CatalogStore where
  /-- `run_catalog_head` of the meta page. -/
  head : Option BlockNumber
  pages : BlockNumber → CatalogPage
  /-- The blocks that are or were catalog pages. They are not handed back. -/
  allocated : List BlockNumber

/-- The link of a page. -/
def CatalogStore.right (c : CatalogStore) (b : BlockNumber) : Option BlockNumber :=
  (c.pages b).rightLink

/-- The catalog with a fresh page at block `new` as its head. -/
def CatalogStore.newHead (c : CatalogStore) (page : CatalogPage) (new : BlockNumber) :
    CatalogStore :=
  ⟨some new, Function.update c.pages new page, new :: c.allocated⟩

/-- The catalog with a record added to a page. -/
def CatalogStore.addRecord (c : CatalogStore) (b : BlockNumber) (run : PgTreRun) : CatalogStore :=
  { c with
    pages := Function.update c.pages b { c.pages b with runs := (c.pages b).runs ++ [run] } }

/-- `pg_tre_run_catalog_append` on the pages, with `new` as the block of a fresh page. -/
def CatalogStore.append (c : CatalogStore) (run : PgTreRun) (new : BlockNumber) : CatalogStore :=
  match c.head with
  | none => c.newHead ⟨none, [run]⟩ new
  | some b =>
      if runCatalogCap ≤ (c.pages b).runs.length then c.newHead ⟨some b, [run]⟩ new
      else c.addRecord b run

/-- `pg_tre_run_catalog_rewrite` on the pages. -/
def CatalogStore.rewrite (c : CatalogStore) (runs : List PgTreRun) (new : BlockNumber) :
    CatalogStore :=
  if runs = [] then { c with head := none } else c.newHead ⟨none, runs⟩ new

/-- `pg_tre_run_catalog_collapse_reset` on the pages. -/
def CatalogStore.reset (c : CatalogStore) : CatalogStore := { c with head := none }

/-- The pages hold the catalog. -/
structure CatalogStore.Represents (c : CatalogStore) (catalog : List RunCatalogPage) : Prop where
  chain : ∃ blocks, ChainFrom c.right c.head blocks ∧ blocks.Nodup ∧
    (∀ b ∈ blocks, b ∈ c.allocated) ∧
    blocks.map (fun b => (c.pages b).runs) = catalog.map RunCatalogPage.runs
  closed : ∀ b ∈ c.allocated, ∀ b', c.right b = some b' → b' ∈ c.allocated

/-- Pages only gain records at their end. -/
def CatalogStore.Grows (c c' : CatalogStore) : Prop :=
  ∀ b ∈ c.allocated, b ∈ c'.allocated ∧ c'.right b = c.right b ∧
    (c.pages b).runs <+: (c'.pages b).runs

/-- A catalog store grows to itself. -/
theorem CatalogStore.Grows.refl (c : CatalogStore) : c.Grows c :=
  fun _ hb => ⟨hb, rfl, List.prefix_rfl⟩

section

variable {c : CatalogStore} {catalog : List RunCatalogPage} {new : BlockNumber}

/-- The new head page is read back. -/
@[simp] theorem CatalogStore.pages_newHead_self (page : CatalogPage) :
    (c.newHead page new).pages new = page :=
  Function.update_self _ _ _

/-- A new head page leaves the allocated pages alone. -/
theorem CatalogStore.pages_newHead (hnew : new ∉ c.allocated) (page : CatalogPage)
    {b : BlockNumber} (hb : b ∈ c.allocated) : (c.newHead page new).pages b = c.pages b :=
  Function.update_of_ne (ne_of_mem_of_not_mem hb hnew) _ _

/-- A fresh page is put in front of pages that hold the rest of the catalog. -/
theorem CatalogStore.Represents.newHead (h : c.Represents catalog) (hnew : new ∉ c.allocated)
    (page : CatalogPage) {blocks : List BlockNumber} {rest : List RunCatalogPage}
    (hlink : ChainFrom c.right page.rightLink blocks) (hnodup : blocks.Nodup)
    (halloc : ∀ b ∈ blocks, b ∈ c.allocated)
    (hruns : blocks.map (fun b => (c.pages b).runs) = rest.map RunCatalogPage.runs)
    {first : RunCatalogPage} (hfirst : first.runs = page.runs) :
    (c.newHead page new).Represents (first :: rest) ∧ c.Grows (c.newHead page new) := by
  have hold : ∀ b ∈ c.allocated, (c.newHead page new).pages b = c.pages b :=
    fun b hb => CatalogStore.pages_newHead hnew page hb
  have hright : ∀ b ∈ c.allocated, (c.newHead page new).right b = c.right b :=
    fun b hb => congrArg CatalogPage.rightLink (hold b hb)
  have hself : (c.newHead page new).right new = page.rightLink :=
    congrArg CatalogPage.rightLink (CatalogStore.pages_newHead_self page)
  refine ⟨⟨⟨new :: blocks, ⟨rfl, ?_⟩, ?_, ?_, ?_⟩, ?_⟩, fun b hb => ⟨?_, hright b hb, ?_⟩⟩
  · rw [hself]
    exact hlink.congr fun b hb => hright b (halloc b hb)
  · exact List.nodup_cons.mpr ⟨fun hmem => hnew (halloc new hmem), hnodup⟩
  · intro b hb
    rcases List.mem_cons.mp hb with rfl | hb
    · exact List.mem_cons_self
    · exact List.mem_cons_of_mem _ (halloc b hb)
  · rw [List.map_cons, List.map_cons, CatalogStore.pages_newHead_self, hfirst, ← hruns]
    refine congrArg _ (List.map_congr_left fun b hb => ?_)
    rw [hold b (halloc b hb)]
  · intro b hb b' hb'
    rcases List.mem_cons.mp hb with rfl | hb
    · rw [hself] at hb'
      rw [hb'] at hlink
      cases blocks with
      | nil => cases hlink
      | cons x blocks =>
        obtain rfl := Option.some.inj hlink.1
        exact List.mem_cons_of_mem _ (halloc _ List.mem_cons_self)
    · rw [hright b hb] at hb'
      exact List.mem_cons_of_mem _ (h.closed b hb b' hb')
  · exact List.mem_cons_of_mem _ hb
  · rw [hold b hb]

/-- A record is added to the head page. -/
theorem CatalogStore.Represents.addRecord {first page : RunCatalogPage} {rest : List RunCatalogPage}
    {b : BlockNumber} (h : c.Represents (page :: rest)) (hhead : c.head = some b) (run : PgTreRun)
    (hfirst : first.runs = page.runs ++ [run]) :
    (c.addRecord b run).Represents (first :: rest) ∧ c.Grows (c.addRecord b run) := by
  obtain ⟨blocks, hchain, hnodup, halloc, hruns⟩ := h.chain
  have hself : (c.addRecord b run).pages b =
      { c.pages b with runs := (c.pages b).runs ++ [run] } := Function.update_self _ _ _
  have hother : ∀ x, x ≠ b → (c.addRecord b run).pages x = c.pages x :=
    fun x hx => Function.update_of_ne hx _ _
  have hright : (c.addRecord b run).right = c.right := by
    funext x
    by_cases hx : x = b
    · rw [hx, CatalogStore.right, hself, CatalogStore.right]
    · rw [CatalogStore.right, hother x hx, CatalogStore.right]
  constructor
  · cases blocks with
    | nil => cases hruns
    | cons b' blocks =>
      obtain rfl : b = b' := Option.some.inj (hhead.symm.trans hchain.1)
      obtain ⟨hnotin, -⟩ := List.nodup_cons.mp hnodup
      obtain ⟨hpage, hrest⟩ := List.cons.inj hruns
      refine ⟨⟨b :: blocks, ?_, hnodup, halloc, ?_⟩, ?_⟩
      · rw [hright]
        exact hchain
      · rw [List.map_cons, List.map_cons, hself, hfirst, ← hpage, ← hrest]
        refine congrArg _ (List.map_congr_left fun x hx => ?_)
        rw [hother x (ne_of_mem_of_not_mem hx hnotin)]
      · rw [hright]
        exact h.closed
  · intro x hx
    refine ⟨hx, by rw [hright], ?_⟩
    by_cases hxb : x = b
    · rw [hxb, hself]
      exact List.prefix_append _ _
    · rw [hother x hxb]

/-- Appending a record does to the pages what it does to the catalog. -/
theorem CatalogStore.Represents.append (h : c.Represents catalog) (hnew : new ∉ c.allocated)
    (run : PgTreRun) (hid : 0 < run.runId) :
    (c.append run new).Represents (catalogPush run hid catalog) ∧ c.Grows (c.append run new) := by
  obtain ⟨blocks, hchain, hnodup, halloc, hruns⟩ := h.chain
  cases blocks with
  | nil =>
    obtain rfl : catalog = [] := by simpa using hruns.symm
    have hnone : ChainFrom c.right none [] := rfl
    have happend : c.append run new = c.newHead ⟨none, [run]⟩ new := by
      rw [CatalogStore.append, show c.head = none from hchain]
    rw [happend]
    exact h.newHead hnew ⟨none, [run]⟩ hnone hnodup halloc hruns rfl
  | cons b blocks =>
    cases catalog with
    | nil => cases hruns
    | cons page rest =>
      have hpage : (c.pages b).runs = page.runs := (List.cons.inj hruns).1
      by_cases hfull : runCatalogCap ≤ page.runs.length
      · have happend : c.append run new = c.newHead ⟨some b, [run]⟩ new := by
          simp only [CatalogStore.append, hchain.1, hpage, if_pos hfull]
        have hold : ChainFrom c.right (some b) (b :: blocks) := ⟨rfl, hchain.2⟩
        rw [happend, catalogPush, dif_neg (Nat.not_lt.mpr hfull)]
        exact h.newHead hnew ⟨some b, [run]⟩ hold hnodup halloc hruns rfl
      · have happend : c.append run new = c.addRecord b run := by
          simp only [CatalogStore.append, hchain.1, hpage, if_neg hfull]
        rw [happend, catalogPush, dif_pos (Nat.not_le.mp hfull)]
        exact h.addRecord hchain.1 run rfl

/-- So does a rewrite. -/
theorem CatalogStore.Represents.rewrite (h : c.Represents catalog) (hnew : new ∉ c.allocated)
    {page : RunCatalogPage} {runs : List PgTreRun} (hpage : page.runs = runs) :
    (c.rewrite runs new).Represents (if runs = [] then [] else [page]) ∧
      c.Grows (c.rewrite runs new) := by
  unfold CatalogStore.rewrite
  split_ifs with hnil
  · exact ⟨⟨⟨[], rfl, List.nodup_nil, nofun, rfl⟩, h.closed⟩, CatalogStore.Grows.refl c⟩
  · have hnone : ChainFrom c.right none [] := rfl
    have hrest : ([] : List BlockNumber).map (fun b => (c.pages b).runs) =
        ([] : List RunCatalogPage).map RunCatalogPage.runs := rfl
    exact h.newHead hnew ⟨none, runs⟩ hnone List.nodup_nil nofun hrest hpage

/-- So does the reset of a collapse. -/
theorem CatalogStore.Represents.reset (h : c.Represents catalog) :
    c.reset.Represents [] ∧ c.Grows c.reset :=
  ⟨⟨⟨[], rfl, List.nodup_nil, nofun, rfl⟩, h.closed⟩, CatalogStore.Grows.refl c⟩

end

/-! ## The iterator -/

/-- `PgTreRunIter` between two reads of a buffer. -/
inductive RunIter where
  /-- `pg_tre_run_catalog_open` has read the meta page. -/
  | opened (rootUpper head : Option BlockNumber)
  /-- A catalog page is to be loaded. -/
  | load (page : Option BlockNumber)
  /-- Record `idx` of the `n` records of a loaded page is next. -/
  | at (page : BlockNumber) (idx n : ℕ)
  | done

/-- The next read of `pg_tre_run_catalog_next`: where the iterator is then, and the root of the run
it yields, if it does. A lookup of the hash passes over runs whose range lacks it. -/
def RunIter.next (c : CatalogStore) (h : UInt64) : RunIter → RunIter × Option (Option BlockNumber)
  | opened rootUpper head => (load head, some rootUpper)
  | load none => (done, none)
  | load (some b) =>
      if (c.pages b).runs = [] then (load (c.right b), none)
      else (.at b 0 (c.pages b).runs.length, none)
  | .at b idx n =>
      if idx < n then
        match (c.pages b).runs[idx]? with
        | none => (.at b (idx + 1) n, none)
        | some run =>
            if run.live ∧ run.minTrigramHash ≤ h ∧ h ≤ run.maxTrigramHash then
              (.at b (idx + 1) n, some run.rootUpper)
            else (.at b (idx + 1) n, none)
      else (load (c.right b), none)
  | done => (done, none)

/-- The iterator will come to record `j` of page `p`. -/
def RunIter.Ahead (c : CatalogStore) (p : BlockNumber) (j : ℕ) : RunIter → Prop
  | opened _ head => ∃ b ∈ head, b ∈ c.allocated ∧ Reaches c.right b p
  | load page => ∃ b ∈ page, b ∈ c.allocated ∧ Reaches c.right b p
  | .at b idx n => b ∈ c.allocated ∧ (b = p ∧ idx ≤ j ∧ j < n ∨
      ∃ b', c.right b = some b' ∧ Reaches c.right b' p)
  | done => False

section

variable {c c' : CatalogStore} {catalog : List RunCatalogPage} {p : BlockNumber} {j : ℕ}
  {run : PgTreRun} {iter : RunIter}

/-- What is reached from an allocated page is reached when the pages have grown. -/
theorem CatalogStore.Grows.reaches (hgrows : c.Grows c')
    (hclosed : ∀ b ∈ c.allocated, ∀ b', c.right b = some b' → b' ∈ c.allocated)
    {b : BlockNumber} (hb : b ∈ c.allocated) (h : Reaches c.right b p) : Reaches c'.right b p := by
  induction h using Relation.ReflTransGen.head_induction_on with
  | refl => exact Relation.ReflTransGen.refl
  | @head b x hlink _ ih =>
    refine Relation.ReflTransGen.head ?_ (ih (hclosed b hb x hlink))
    rw [Links, (hgrows b hb).2.1]
    exact hlink

/-- The iterator comes to a record whatever is written to the catalog. -/
theorem RunIter.Ahead.grows (h : iter.Ahead c p j) (hgrows : c.Grows c')
    (hclosed : ∀ b ∈ c.allocated, ∀ b', c.right b = some b' → b' ∈ c.allocated) :
    iter.Ahead c' p j := by
  cases iter with
  | opened rootUpper head =>
    obtain ⟨b, hb, halloc, hreach⟩ := h
    exact ⟨b, hb, (hgrows b halloc).1, hgrows.reaches hclosed halloc hreach⟩
  | load page =>
    obtain ⟨b, hb, halloc, hreach⟩ := h
    exact ⟨b, hb, (hgrows b halloc).1, hgrows.reaches hclosed halloc hreach⟩
  | «at» b idx n =>
    obtain ⟨halloc, hhere | ⟨b', hb', hreach⟩⟩ := h
    · exact ⟨(hgrows b halloc).1, Or.inl hhere⟩
    · refine ⟨(hgrows b halloc).1, Or.inr ⟨b', ?_, ?_⟩⟩
      · rw [(hgrows b halloc).2.1]
        exact hb'
      · exact hgrows.reaches hclosed (hclosed b halloc b' hb') hreach
  | done => exact h

/-- A read of the iterator yields the run or brings the iterator nearer to its record. -/
theorem RunIter.Ahead.next {h : UInt64} (hahead : iter.Ahead c p j)
    (hclosed : ∀ b ∈ c.allocated, ∀ b', c.right b = some b' → b' ∈ c.allocated)
    (hrun : (c.pages p).runs[j]? = some run) (hlive : run.live = true)
    (hrange : run.minTrigramHash ≤ h ∧ h ≤ run.maxTrigramHash) :
    (iter.next c h).2 = some run.rootUpper ∨ (iter.next c h).1.Ahead c p j := by
  cases iter with
  | opened rootUpper head => exact Or.inr hahead
  | load page =>
    obtain ⟨b, rfl, halloc, hreach⟩ := hahead
    right
    rw [RunIter.next]
    have hlt := (List.getElem?_eq_some_iff.mp hrun).1
    split_ifs with hempty
    · rcases hreach.eq_or_next with rfl | ⟨x, hx, hreach⟩
      · rw [hempty] at hrun
        cases hrun
      · exact ⟨x, hx, hclosed b halloc x hx, hreach⟩
    · rcases hreach.eq_or_next with rfl | ⟨x, hx, hreach⟩
      · exact ⟨halloc, Or.inl ⟨rfl, Nat.zero_le j, hlt⟩⟩
      · exact ⟨halloc, Or.inr ⟨x, hx, hreach⟩⟩
  | «at» b idx n =>
    obtain ⟨halloc, hhere⟩ := hahead
    rw [RunIter.next]
    by_cases hidx : idx < n
    · rw [if_pos hidx]
      by_cases hnow : b = p ∧ idx = j
      · obtain ⟨rfl, rfl⟩ := hnow
        left
        rw [hrun]
        dsimp only
        rw [if_pos ⟨hlive, hrange⟩]
      · -- Another record is read.
        right
        have hnext : RunIter.Ahead c p j (.at b (idx + 1) n) := by
          refine ⟨halloc, hhere.imp_left ?_⟩
          rintro ⟨hbp, hle, hlt⟩
          have hne : idx ≠ j := fun heq => hnow ⟨hbp, heq⟩
          exact ⟨hbp, by omega, hlt⟩
        split
        · exact hnext
        · split_ifs
          · exact hnext
          · exact hnext
    · rw [if_neg hidx]
      right
      obtain ⟨-, hle, hlt⟩ | ⟨x, hx, hreach⟩ := hhere
      · omega
      · exact ⟨x, hx, hclosed b halloc x hx, hreach⟩
  | done => exact absurd hahead id

/-- An iterator that is opened will come to every record of the catalog. -/
theorem CatalogStore.Represents.ahead (h : c.Represents catalog) (hrun : run ∈ catalogRuns catalog)
    (rootUpper : Option BlockNumber) :
    ∃ p j, p ∈ c.allocated ∧ (c.pages p).runs[j]? = some run ∧
      (RunIter.opened rootUpper c.head).Ahead c p j := by
  obtain ⟨blocks, hchain, -, halloc, hruns⟩ := h.chain
  obtain ⟨page, hpage, hmem⟩ := List.mem_flatMap.mp hrun
  have hin : page.runs ∈ blocks.map (fun b => (c.pages b).runs) := by
    rw [hruns]
    exact List.mem_map_of_mem hpage
  obtain ⟨p, hp, heq⟩ := List.mem_map.mp hin
  rw [← heq] at hmem
  obtain ⟨j, hj⟩ := List.mem_iff_getElem?.mp hmem
  cases blocks with
  | nil => cases hp
  | cons b blocks =>
    have hfrom : ChainFrom c.right (some b) (b :: blocks) := ⟨rfl, hchain.2⟩
    exact ⟨p, j, halloc p hp, hj, b, hchain.1, halloc b List.mem_cons_self, hfrom.reaches hp⟩

end

end PgTre
