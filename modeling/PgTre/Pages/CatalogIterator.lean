import PgTre.Pages.CatalogPages

/-!
# Iterating over the runs

`pg_tre_run_catalog_next` of `src/pages/run_catalog.c` serves the base run first. Then it goes over the
records of the catalog page by page, and passes over empty pages and over records that are not live.
On pages that do not change in between, the calls yield the base run and every live record once, in
the order of the pages.
-/

namespace PgTre

/-- `PgTreRunIter`. -/
structure PgTreRunIter where
  implicitServed : Bool
  implicitRun : PgTreRun
  curPage : Option BlockNumber
  curIdx : ℕ
  curN : ℕ

/-- `pg_tre_run_catalog_open`. -/
def pgTreRunCatalogOpen (idx : RunIndex) (c : CatalogStore) : PgTreRunIter :=
  ⟨false, idx.implicitRun, c.head, 0, 0⟩

/-- `catalog_load_page`, or nothing when the fuel runs out. -/
def catalogLoadPage (c : CatalogStore) : ℕ → PgTreRunIter → Option (Bool × PgTreRunIter)
  | 0, _ => none
  | fuel + 1, iter =>
      match iter.curPage with
      | none => some (false, iter)
      | some b =>
          let n := (c.pages b).runs.length
          if 0 < n then some (true, { iter with curIdx := 0, curN := n })
          else catalogLoadPage c fuel { iter with curPage := c.right b, curIdx := 0, curN := n }

/-- The page with the next record: the current page while it has records left, or else the next page
with records. -/
def catalogReady (c : CatalogStore) (fuel : ℕ) (iter : PgTreRunIter) : Option (Bool × PgTreRunIter) :=
  if iter.curN ≤ iter.curIdx then
    catalogLoadPage c fuel
      (if 0 < iter.curN then { iter with curPage := iter.curPage.bind c.right } else iter)
  else some (true, iter)

/-- The loop of `pg_tre_run_catalog_next` over the records of the catalog: the next live one with the
iterator behind it, or that there is none. -/
def catalogNextLive (c : CatalogStore) : ℕ → PgTreRunIter → Option (Option (PgTreRun × PgTreRunIter))
  | 0, _ => none
  | fuel + 1, iter =>
      match catalogReady c fuel iter with
      | none => none
      | some (false, _) => some none
      | some (true, iter) =>
          match iter.curPage.bind fun b => (c.pages b).runs[iter.curIdx]? with
          | none => none
          | some r =>
              let iter := { iter with curIdx := iter.curIdx + 1 }
              if r.live then some (some (r, iter)) else catalogNextLive c fuel iter

/-- `pg_tre_run_catalog_next`. -/
def pgTreRunCatalogNext (c : CatalogStore) (fuel : ℕ) (iter : PgTreRunIter) :
    Option (Option (PgTreRun × PgTreRunIter)) :=
  if iter.implicitServed then
    if iter.curPage = none ∧ iter.curN = 0 then some none else catalogNextLive c fuel iter
  else some (some (iter.implicitRun, { iter with implicitServed := true }))

/-- The runs of a loop of calls until one returns false. -/
def runCatalogIterate (c : CatalogStore) : ℕ → PgTreRunIter → Option (List PgTreRun)
  | 0, _ => none
  | fuel + 1, iter =>
      match pgTreRunCatalogNext c fuel iter with
      | none => none
      | some none => some []
      | some (some (run, iter)) => (runCatalogIterate c fuel iter).map (run :: ·)

/-! ## What is ahead of an iterator -/

/-- The records of some pages. -/
def recordsOn (c : CatalogStore) (blocks : List BlockNumber) : List PgTreRun :=
  blocks.flatMap fun b => (c.pages b).runs

/-- The records the iterator has not come to: those that are left on the current page, if one is
loaded, and those of the pages behind it. -/
inductive PgTreRunIter.Remains (c : CatalogStore) (iter : PgTreRunIter) (blocks : List BlockNumber) :
    List PgTreRun → Prop
  | start (hidx : iter.curIdx = 0) (hn : iter.curN = 0)
      (hchain : ChainFrom c.right iter.curPage blocks) : Remains c iter blocks (recordsOn c blocks)
  | within (b : BlockNumber) (hpage : iter.curPage = some b)
      (hn : iter.curN = (c.pages b).runs.length) (hpos : 0 < iter.curN) (hidx : iter.curIdx ≤ iter.curN)
      (hchain : ChainFrom c.right (c.right b) blocks) :
      Remains c iter blocks ((c.pages b).runs.drop iter.curIdx ++ recordsOn c blocks)

section

variable {c : CatalogStore} {iter : PgTreRunIter} {blocks : List BlockNumber} {runs : List PgTreRun}

/-- The next page with records is loaded, if there is one. -/
theorem catalogLoadPage_spec {fuel : ℕ} (hchain : ChainFrom c.right iter.curPage blocks)
    (hfuel : blocks.length < fuel) :
    (∃ iter', catalogLoadPage c fuel iter = some (false, iter') ∧ recordsOn c blocks = []) ∨
    ∃ iter' b blocks', catalogLoadPage c fuel iter = some (true, iter') ∧
      iter'.implicitServed = iter.implicitServed ∧ iter'.curPage = some b ∧ iter'.curIdx = 0 ∧
      iter'.curN = (c.pages b).runs.length ∧ 0 < iter'.curN ∧
      ChainFrom c.right (c.right b) blocks' ∧ blocks'.length < blocks.length ∧
      recordsOn c blocks = (c.pages b).runs ++ recordsOn c blocks' := by
  induction blocks generalizing iter fuel with
  | nil =>
    left
    obtain ⟨fuel, rfl⟩ := Nat.exists_eq_add_of_lt hfuel
    have hnone : iter.curPage = none := hchain
    refine ⟨iter, ?_, rfl⟩
    unfold catalogLoadPage
    rw [hnone]
  | cons b blocks ih =>
    cases fuel with
    | zero => simp at hfuel
    | succ fuel =>
      obtain ⟨hpage, hrest⟩ := hchain
      rw [List.length_cons] at hfuel
      unfold catalogLoadPage
      rw [hpage]
      simp only
      by_cases hpos : 0 < (c.pages b).runs.length
      · right
        rw [if_pos hpos]
        exact ⟨_, b, blocks, rfl, rfl, rfl, rfl, rfl, hpos, hrest, by simp, rfl⟩
      · have hempty : (c.pages b).runs = [] := List.eq_nil_of_length_eq_zero (by omega)
        have hrecords : recordsOn c (b :: blocks) = recordsOn c blocks := by
          simp [recordsOn, hempty]
        rw [if_neg hpos, hrecords]
        have hnext : ChainFrom c.right ({ iter with
          curPage := c.right b, curIdx := 0, curN := (c.pages b).runs.length } : PgTreRunIter).curPage
            blocks := hrest
        rcases @ih _ fuel hnext (by omega) with ⟨iter', hload, hnil⟩ |
          ⟨iter', b', blocks', hload, hserved, hpage', hidx, hn, hpos', hchain', hlt, heq⟩
        · left
          exact ⟨iter', hload, hnil⟩
        · right
          refine ⟨iter', b', blocks', hload, hserved, hpage', hidx, hn, hpos', hchain', ?_, heq⟩
          rw [List.length_cons]
          omega

/-- Either no record is left, or the page of the next one is ready. -/
theorem catalogReady_spec {fuel : ℕ} (h : iter.Remains c blocks runs) (hfuel : blocks.length < fuel) :
    (∃ iter', catalogReady c fuel iter = some (false, iter') ∧ runs = []) ∨
    ∃ iter' b blocks' r rest, catalogReady c fuel iter = some (true, iter') ∧
      iter'.implicitServed = iter.implicitServed ∧ iter'.curPage = some b ∧
      (c.pages b).runs[iter'.curIdx]? = some r ∧ blocks'.length ≤ blocks.length ∧ runs = r :: rest ∧
      PgTreRunIter.Remains c { iter' with curIdx := iter'.curIdx + 1 } blocks' rest := by
  -- A page that was just loaded has its first record ready.
  have hloaded : ∀ iter₀ : PgTreRunIter, iter₀.implicitServed = iter.implicitServed →
      catalogReady c fuel iter = catalogLoadPage c fuel iter₀ →
      ChainFrom c.right iter₀.curPage blocks → runs = recordsOn c blocks →
      (∃ iter', catalogReady c fuel iter = some (false, iter') ∧ runs = []) ∨
      ∃ iter' b blocks' r rest, catalogReady c fuel iter = some (true, iter') ∧
        iter'.implicitServed = iter.implicitServed ∧ iter'.curPage = some b ∧
        (c.pages b).runs[iter'.curIdx]? = some r ∧ blocks'.length ≤ blocks.length ∧ runs = r :: rest ∧
        PgTreRunIter.Remains c { iter' with curIdx := iter'.curIdx + 1 } blocks' rest := by
    intro iter₀ hserved₀ hready hchain hruns
    rcases catalogLoadPage_spec hchain hfuel with ⟨iter', hload, hnil⟩ |
      ⟨iter', b, blocks', hload, hserved, hpage, hidx, hn, hpos, hchain', hlt, heq⟩
    · left
      exact ⟨iter', hready.trans hload, hruns.trans hnil⟩
    · right
      cases hb : (c.pages b).runs with
      | nil =>
        rw [hb, List.length_nil] at hn
        omega
      | cons r rest =>
        refine ⟨iter', b, blocks', r, rest ++ recordsOn c blocks', hready.trans hload,
          hserved.trans hserved₀, hpage, by rw [hidx, hb]; rfl, by omega, ?_, ?_⟩
        · rw [hruns, heq, hb, List.cons_append]
        · have hdrop : rest = (c.pages b).runs.drop (iter'.curIdx + 1) := by
            rw [hb, hidx]
            rfl
          rw [hdrop]
          refine PgTreRunIter.Remains.within b hpage hn hpos ?_ hchain'
          simp only
          omega
  cases h with
  | start hidx hn hchain =>
    apply hloaded iter rfl ?_ hchain rfl
    unfold catalogReady
    rw [if_pos (by omega), if_neg (by omega)]
  | within b hpage hn hpos hidx hchain =>
    by_cases hlast : iter.curN ≤ iter.curIdx
    · apply hloaded { iter with curPage := iter.curPage.bind c.right } rfl
      · unfold catalogReady
        rw [if_pos hlast, if_pos hpos]
      · rw [hpage]
        exact hchain
      · rw [List.drop_eq_nil_of_le (by omega), List.nil_append]
    · right
      have hlt : iter.curIdx < (c.pages b).runs.length := by omega
      refine ⟨iter, b, blocks, (c.pages b).runs[iter.curIdx],
        (c.pages b).runs.drop (iter.curIdx + 1) ++ recordsOn c blocks, ?_, rfl, hpage,
        List.getElem?_eq_getElem hlt, le_rfl, ?_, ?_⟩
      · unfold catalogReady
        rw [if_neg hlast]
      · rw [List.drop_eq_getElem_cons hlt, List.cons_append]
      · refine PgTreRunIter.Remains.within b hpage hn hpos ?_ hchain
        simp only
        omega

/-- The next live record, and what is left behind it. -/
theorem catalogNextLive_spec {fuel : ℕ} (h : iter.Remains c blocks runs)
    (hfuel : blocks.length + runs.length + 1 < fuel) :
    (catalogNextLive c fuel iter = some none ∧ runs.filter (·.live) = []) ∨
    ∃ run iter' blocks' rest, catalogNextLive c fuel iter = some (some (run, iter')) ∧
      iter'.implicitServed = iter.implicitServed ∧ iter'.Remains c blocks' rest ∧
      blocks'.length + rest.length < blocks.length + runs.length ∧
      runs.filter (·.live) = run :: rest.filter (·.live) := by
  induction fuel generalizing iter blocks runs with
  | zero => omega
  | succ fuel ih =>
    unfold catalogNextLive
    rcases @catalogReady_spec _ _ _ _ fuel h (by omega) with ⟨iter', hready, rfl⟩ |
      ⟨iter', b, blocks', r, rest, hready, hserved, hpage, hget, hle, rfl, hrest⟩
    · left
      rw [hready]
      exact ⟨rfl, rfl⟩
    · rw [List.length_cons] at hfuel ⊢
      rw [hready]
      simp only
      have hrecord : (iter'.curPage.bind fun b => (c.pages b).runs[iter'.curIdx]?) = some r := by
        rw [hpage]
        exact hget
      rw [hrecord]
      simp only
      by_cases hlive : r.live = true
      · right
        rw [if_pos hlive, List.filter_cons_of_pos hlive]
        exact ⟨r, _, blocks', rest, rfl, hserved, hrest, by omega, rfl⟩
      · rw [if_neg hlive, List.filter_cons_of_neg hlive]
        rcases @ih _ blocks' rest hrest (by omega) with hnone |
          ⟨run, iter'', blocks'', rest', hnext, hserved', hremains, hlt, heq⟩
        · left
          exact hnone
        · right
          refine ⟨run, iter'', blocks'', rest', hnext, hserved'.trans hserved, hremains, ?_, heq⟩
          omega

/-- Once the base run is served, the calls yield the live records that are left. -/
theorem runCatalogIterate_of_served {fuel : ℕ} (hserved : iter.implicitServed = true)
    (h : iter.Remains c blocks runs) (hfuel : blocks.length + runs.length + 2 < fuel) :
    runCatalogIterate c fuel iter = some (runs.filter (·.live)) := by
  induction fuel generalizing iter blocks runs with
  | zero => omega
  | succ fuel ih =>
    unfold runCatalogIterate pgTreRunCatalogNext
    rw [if_pos hserved]
    by_cases hend : iter.curPage = none ∧ iter.curN = 0
    · rw [if_pos hend]
      cases h with
      | start hidx hn hchain =>
        rw [hend.1] at hchain
        cases blocks with
        | nil => rfl
        | cons b blocks => cases hchain.1
      | within b hpage hn hpos hidx hchain => omega
    · rw [if_neg hend]
      rcases @catalogNextLive_spec _ _ _ _ fuel h (by omega) with ⟨hnext, hnil⟩ |
        ⟨run, iter', blocks', rest, hnext, hserved', hremains, hlt, heq⟩
      · rw [hnext, hnil]
      · rw [hnext, heq]
        simp only
        rw [@ih iter' blocks' rest (hserved'.trans hserved) hremains (by omega)]
        rfl

end

/-- The calls yield the base run and then every live run of the catalog, in the order of the pages. -/
theorem runCatalogIterate_open {idx : RunIndex} {c : CatalogStore} (h : c.Represents idx.catalog) :
    ∃ bound, ∀ fuel, bound < fuel →
      runCatalogIterate c fuel (pgTreRunCatalogOpen idx c) = some idx.iterate := by
  obtain ⟨blocks, hchain, -, -, hruns⟩ := h.chain
  have hrecords : recordsOn c blocks = catalogRuns idx.catalog := by
    rw [recordsOn, List.flatMap_def, hruns, ← List.flatMap_def, catalogRuns]
  refine ⟨blocks.length + (recordsOn c blocks).length + 3, fun fuel hfuel => ?_⟩
  cases fuel with
  | zero => omega
  | succ fuel =>
    have hremains : PgTreRunIter.Remains c ⟨true, idx.implicitRun, c.head, 0, 0⟩ blocks
        (recordsOn c blocks) := .start rfl rfl hchain
    have hserved := @runCatalogIterate_of_served _ _ _ _ fuel rfl hremains (by omega)
    rw [runCatalogIterate, pgTreRunCatalogOpen, pgTreRunCatalogNext]
    simp only [Bool.false_eq_true, if_false]
    rw [hserved, hrecords]
    rfl

end PgTre
