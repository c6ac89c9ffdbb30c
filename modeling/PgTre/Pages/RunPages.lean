import PgTre.Pages.FreeLog
import PgTre.Pages.PostingBuild
import PgTre.Pages.SharedTrees
import PgTre.Pages.UpperTree
import PgTre.Util.LinkedChain
import Mathlib.Data.List.TakeWhile

/-!
# The pages of a run

`pg_tre_run_collect_pages` of `src/pages/free_log.c` walks the upper tree of a run, the right links of
its posting leaves and its coalesced pages, and gives each page once. A merge of the pending list
collects the old tree before it rebuilds it. Once the new root is in place it logs for freeing what the
new tree does not have.
-/

namespace PgTre

open Layout Bytes

/-! ## Collecting pages -/

/-- `PG_TRE_META_BLKNO`. -/
def pgTreMetaBlkno : BlockNumber := 0

/-- `collect_add`: the blocks that are added. -/
def collectAdd (blk : BlockNumber) : List BlockNumber :=
  if blk = invalidBlockNumber ∨ blk = pgTreMetaBlkno then [] else [blk]

/-- The turns of `collect_posting_chain` before its guard ends the loop. The number of blocks is cast
to an `int`. -/
def chainTurns (st : PageStore) : ℕ := (Int.bmod st.pages.length (2 ^ 32) + 1).toNat

/-- The loop of `collect_posting_chain`. -/
def collectPostingChain (st : PageStore) : ℕ → Option BlockNumber → Except PgError (List BlockNumber)
  | 0, _ => .ok []
  | _ + 1, none => .ok []
  | turns + 1, some blk =>
      match st.read blk .pageInvalid with
      | .error e => .error e
      | .ok page =>
          if page.kind ≠ .pagePostingL then .ok []
          else (collectPostingChain st turns (readLeafHeader page).rightLink).map (collectAdd blk ++ ·)

/-- The roots of the posting trees of some entries. -/
def postingTreeRoots (ents : List UpperLeafEntry) : List BlockNumber :=
  (ents.filter fun e => !e.coalesced && e.inlineBytes = 0).filterMap UpperLeafEntry.postingRoot

/-- The blocks of the coalesced pages of some entries, as they are added. -/
def coalescedBlocks (ents : List UpperLeafEntry) : List BlockNumber :=
  (ents.filter UpperLeafEntry.coalesced).flatMap fun e =>
    collectAdd (e.postingRoot.getD invalidBlockNumber)

/-- The error of `collect_upper_subtree`. -/
def unexpectedRunPage (page : StoredPage) : PgError :=
  let kind := page.kind.number
  ⟨s!"pg_tre: unexpected page kind {kind} while collecting run pages"⟩

/-- `collect_upper_subtree`, or nothing when the fuel runs out. -/
def collectUpperSubtree (st : PageStore) :
    ℕ → BlockNumber → Option (Except PgError (List BlockNumber))
  | 0, _ => none
  | fuel + 1, blk =>
      match st.read blk .pageInvalid with
      | .error e => some (.error e)
      | .ok page =>
          if page.kind = .pageUpperL then
            let ents := readUpperEntries page
            inTurn (some (.ok (coalescedBlocks ents ++ collectAdd blk)) ::
              (postingTreeRoots ents).map fun root =>
                some (collectPostingChain st (chainTurns st) (some root)))
          else if page.kind ≠ .pageUpper then some (.error (unexpectedRunPage page))
          else
            inTurn (some (.ok (collectAdd blk)) ::
              (readInternalEntries page).map fun e => collectUpperSubtree st fuel e.2)

/-- `pg_tre_run_collect_pages`. -/
def pgTreRunCollectPages (st : PageStore) (fuel : ℕ) (rootUpper : Option BlockNumber) :
    Option (Except PgError (List BlockNumber)) :=
  match rootUpper with
  | none => some (.ok [])
  | some root => (collectUpperSubtree st fuel root).map fun r => r.map uniqBlocks

/-! ## Freeing the tree before a merge -/

/-- The loop of `pg_tre_pending_merge` over the pages of the old tree, past those of the new one. -/
def notReused : List BlockNumber → List BlockNumber → List BlockNumber
  | _, [] => []
  | newPages, b :: old =>
      let rest := newPages.dropWhile fun c => c < b
      if rest.head? = some b then notReused rest old else b :: notReused rest old

/-- The pages `pg_tre_pending_merge` collects before it rebuilds the tree: none if a run of the catalog
has the root. The base run has the id 0. -/
def oldTreePages (st : PageStore) (runs : List PgTreRun) (fuel : ℕ) (oldRoot : Option BlockNumber) :
    Option (Except PgError (List BlockNumber)) :=
  if runs.any fun r => r.runId ≠ 0 ∧ r.rootUpper = oldRoot then some (.ok [])
  else pgTreRunCollectPages st fuel oldRoot

/-- The blocks `pg_tre_pending_merge` hands to the free log once the new root is in place. -/
def mergeFreedPages (st st' : PageStore) (runs : List PgTreRun) (fuel : ℕ)
    (oldRoot newRoot : Option BlockNumber) : Option (Except PgError (List BlockNumber)) :=
  match oldTreePages st runs fuel oldRoot with
  | none => none
  | some (.error e) => some (.error e)
  | some (.ok old) =>
      if old = [] then some (.ok [])
      else (pgTreRunCollectPages st' fuel newRoot).map fun r => r.map fun pages => notReused pages old

/-! ## The pages of a run -/

/-- A block is a child on an internal page. -/
def UpperChild (st : PageStore) (a b : BlockNumber) : Prop :=
  ∃ page, st.pages[a]? = some page ∧ page.kind = .pageUpper ∧ ∃ e ∈ readInternalEntries page, e.2 = b

/-- A block has a posting leaf. -/
def IsPostingLeaf (st : PageStore) (b : BlockNumber) : Prop :=
  ∃ page, st.pages[b]? = some page ∧ page.kind = .pagePostingL

/-- The right link of a posting leaf. -/
def leafNext (st : PageStore) (b : BlockNumber) : Option BlockNumber :=
  match st.pages[b]? with
  | none => none
  | some page => if page.kind = .pagePostingL then (readLeafHeader page).rightLink else none

/-- A block has the posting of an entry, or a part of it. -/
def EntryPage (st : PageStore) (e : UpperLeafEntry) (b : BlockNumber) : Prop :=
  if e.coalesced then e.postingRoot = some b
  else e.inlineBytes = 0 ∧ ∃ root ∈ e.postingRoot, Reaches (leafNext st) root b ∧ IsPostingLeaf st b

/-- A block is a page of the run with a root: of its tree, or of the posting of an entry. -/
def RunPage (st : PageStore) (root b : BlockNumber) : Prop :=
  b ≠ pgTreMetaBlkno ∧ ∃ a, Relation.ReflTransGen (UpperChild st) root a ∧
    (b = a ∨ ∃ page, st.pages[a]? = some page ∧ page.kind = .pageUpperL ∧
      ∃ e ∈ readUpperEntries page, EntryPage st e b)

section

variable {st st' : PageStore} {root b blk : BlockNumber} {start : Option BlockNumber}
  {bs pages : List BlockNumber} {fuel turns : ℕ} {page : StoredPage}

/-- A block is collected unless it is the invalid one or the meta page. -/
theorem mem_collectAdd :
    b ∈ collectAdd blk ↔ b = blk ∧ b ≠ invalidBlockNumber ∧ b ≠ pgTreMetaBlkno := by
  unfold collectAdd
  split_ifs with hskip
  · simp only [List.not_mem_nil, false_iff]
    rintro ⟨rfl, hvalid, hmeta⟩
    exact hskip.elim hvalid hmeta
  · rw [List.mem_singleton]
    constructor
    · rintro rfl
      exact ⟨rfl, fun h => hskip (Or.inl h), fun h => hskip (Or.inr h)⟩
    · exact fun h => h.1

/-- A page that is read is on its block. -/
theorem PageStore.getElem?_of_read {kind : PageTreKind} (h : st.read blk kind = .ok page) :
    st.pages[blk]? = some page := by
  unfold PageStore.read at h
  cases hget : st.pages[blk]? with
  | none =>
    rw [hget] at h
    cases h
  | some page' =>
    rw [hget] at h
    dsimp only at h
    split_ifs at h
    rw [Except.ok.inj h]

/-- Computations in turn have a result only when all of them do. -/
theorem inTurn_eq_ok {α : Type} {rs : List (Option (Except PgError (List α)))} {xs : List α}
    (h : inTurn rs = some (.ok xs)) :
    ∃ yss : List (List α), rs = yss.map (fun ys => some (.ok ys)) ∧ xs = yss.flatten := by
  induction rs generalizing xs with
  | nil =>
    obtain rfl : [] = xs := Except.ok.inj (Option.some.inj h)
    exact ⟨[], rfl, rfl⟩
  | cons r rs ih =>
    cases r with
    | none => cases h
    | some r =>
      cases r with
      | error e => cases h
      | ok ys =>
        unfold inTurn at h
        cases hrest : inTurn rs with
        | none =>
          rw [hrest] at h
          cases h
        | some rest =>
          rw [hrest] at h
          cases rest with
          | error e => cases h
          | ok zs =>
            obtain rfl : ys ++ zs = xs := Except.ok.inj (Option.some.inj h)
            obtain ⟨yss, rfl, rfl⟩ := ih hrest
            exact ⟨ys :: yss, rfl, rfl⟩

/-- What comes of some computations in turn. -/
theorem mem_of_inTurn_map {α β : Type} {f : β → Option (Except PgError (List α))} {first xs : List α}
    {args : List β} {x : α} (h : inTurn (some (.ok first) :: args.map f) = some (.ok xs)) :
    (∀ a ∈ args, ∃ ys, f a = some (.ok ys)) ∧
      (x ∈ xs ↔ x ∈ first ∨ ∃ a ∈ args, ∃ ys, f a = some (.ok ys) ∧ x ∈ ys) := by
  obtain ⟨yss, heq, rfl⟩ := inTurn_eq_ok h
  cases yss with
  | nil => cases heq
  | cons zs yss =>
    rw [List.map_cons, List.cons.injEq, Option.some.injEq, Except.ok.injEq] at heq
    obtain ⟨rfl, hmap⟩ := heq
    constructor
    · intro a ha
      have hmem := List.mem_map_of_mem (f := f) ha
      rw [hmap] at hmem
      obtain ⟨ys, -, hys⟩ := List.mem_map.mp hmem
      exact ⟨ys, hys.symm⟩
    · rw [List.flatten_cons, List.mem_append, List.mem_flatten]
      refine or_congr_right ⟨?_, ?_⟩
      · rintro ⟨ys, hys, hx⟩
        have hmem : some (Except.ok ys) ∈ args.map f := by
          rw [hmap]
          exact List.mem_map_of_mem hys
        obtain ⟨a, ha, hfa⟩ := List.mem_map.mp hmem
        exact ⟨a, ha, ys, hfa, hx⟩
      · rintro ⟨a, ha, ys, hfa, hx⟩
        have hmem := List.mem_map_of_mem (f := f) ha
        rw [hmap, hfa] at hmem
        obtain ⟨ys', hys', heq⟩ := List.mem_map.mp hmem
        obtain rfl : ys' = ys := Except.ok.inj (Option.some.inj heq)
        exact ⟨ys', hys', hx⟩

/-! ### Chains of posting leaves -/

/-- The loop adds the posting leaves it passes. -/
theorem mem_collectPostingChain (hlimit : st.pages.length ≤ invalidBlockNumber)
    (h : collectPostingChain st turns start = .ok bs) :
    b ∈ bs ↔ b ≠ pgTreMetaBlkno ∧ b ∈ walk (leafNext st) turns start ∧ IsPostingLeaf st b := by
  induction turns generalizing start bs with
  | zero =>
    obtain rfl : [] = bs := Except.ok.inj h
    simp [walk]
  | succ turns ih =>
    cases start with
    | none =>
      obtain rfl : [] = bs := Except.ok.inj h
      simp [walk]
    | some blk =>
      unfold collectPostingChain at h
      cases hread : st.read blk .pageInvalid with
      | error e =>
        rw [hread] at h
        cases h
      | ok page =>
        rw [hread] at h
        dsimp only at h
        have hget := PageStore.getElem?_of_read hread
        have hlt : blk < st.pages.length := (List.getElem?_eq_some_iff.mp hget).1
        have hvalid : blk ≠ invalidBlockNumber := (hlt.trans_le hlimit).ne
        by_cases hkind : page.kind = .pagePostingL
        · rw [if_neg (not_not_intro hkind)] at h
          have hnext : leafNext st blk = (readLeafHeader page).rightLink := by
            rw [leafNext, hget]
            exact if_pos hkind
          cases hrest : collectPostingChain st turns (readLeafHeader page).rightLink with
          | error e =>
            rw [hrest] at h
            cases h
          | ok cs =>
            rw [hrest] at h
            obtain rfl : collectAdd blk ++ cs = bs := Except.ok.inj h
            rw [List.mem_append, mem_collectAdd, ih hrest, walk, List.mem_cons, hnext]
            constructor
            · rintro (⟨rfl, -, hmeta⟩ | ⟨hmeta, hwalk, hleaf⟩)
              · exact ⟨hmeta, Or.inl rfl, page, hget, hkind⟩
              · exact ⟨hmeta, Or.inr hwalk, hleaf⟩
            · rintro ⟨hmeta, rfl | hwalk, hleaf⟩
              · exact Or.inl ⟨rfl, hvalid, hmeta⟩
              · exact Or.inr ⟨hmeta, hwalk, hleaf⟩
        · rw [if_pos hkind] at h
          obtain rfl : [] = bs := Except.ok.inj h
          have hnext : leafNext st blk = none := by
            rw [leafNext, hget]
            exact if_neg hkind
          have hnot : ¬IsPostingLeaf st blk := by
            rintro ⟨page', hget', hkind'⟩
            obtain rfl : page' = page := Option.some.inj (hget'.symm.trans hget)
            exact hkind hkind'
          have hend : walk (leafNext st) turns none = [] := by cases turns <;> rfl
          rw [walk, hnext, hend, List.mem_singleton]
          constructor
          · exact fun hb => absurd hb List.not_mem_nil
          · rintro ⟨-, rfl, hleaf⟩
            exact absurd hleaf hnot

/-- A leaf with a successor is a page of the store. -/
theorem leafNext_lt {c : BlockNumber} (h : leafNext st b = some c) : b < st.pages.length := by
  unfold leafNext at h
  cases hget : st.pages[b]? with
  | none =>
    rw [hget] at h
    cases h
  | some page => exact (List.getElem?_eq_some_iff.mp hget).1

/-- The guard of the chain walk allows every page one turn. -/
theorem chainTurns_eq (hlength : st.pages.length < 2 ^ 31 - 1) :
    chainTurns st = st.pages.length + 1 := by
  unfold chainTurns
  rw [Int.bmod_eq_of_le (by omega) (by omega)]
  omega

/-- The guard ends the loop after all leaves that the links lead to, also where the links are
cyclic. -/
theorem mem_collectPostingChain_iff (hlength : st.pages.length < 2 ^ 31 - 1)
    (h : collectPostingChain st (chainTurns st) (some root) = .ok bs) :
    b ∈ bs ↔ b ≠ pgTreMetaBlkno ∧ Reaches (leafNext st) root b ∧ IsPostingLeaf st b := by
  rw [mem_collectPostingChain (hlength.trans (by decide)).le h]
  refine and_congr_right fun _ => and_congr_left fun _ => ⟨?_, ?_⟩
  · intro hwalk
    obtain ⟨k, -, hfollow⟩ := mem_walk.mp hwalk
    exact reaches_iff_follow.mpr ⟨k, hfollow⟩
  · intro hreach
    refine hreach.mem_walk (Finset.range st.pages.length) (fun z w _ hz => ?_) ?_
    · exact Finset.mem_range.mpr (leafNext_lt hz)
    · rw [Finset.card_range, chainTurns_eq hlength]
      exact Nat.lt_succ_self _

/-! ### Trees -/

/-- No entry that is read has the invalid block for its root. -/
theorem postingRoot_ne {e : UpperLeafEntry} (he : e ∈ readUpperEntries page) :
    ∀ r ∈ e.postingRoot, r ≠ invalidBlockNumber := by
  obtain ⟨i, -, rfl⟩ := List.mem_map.mp he
  intro r hr
  unfold readUpperEntry decodeBlock at hr
  dsimp only at hr
  split_ifs at hr with hinvalid
  · cases hr
  · obtain rfl := Option.some.inj hr
    exact hinvalid

/-- The coalesced pages are those the coalesced entries name. -/
theorem mem_coalescedBlocks : b ∈ coalescedBlocks (readUpperEntries page) ↔
    b ≠ pgTreMetaBlkno ∧ ∃ e ∈ readUpperEntries page, e.coalesced = true ∧ e.postingRoot = some b := by
  rw [coalescedBlocks, List.mem_flatMap]
  constructor
  · rintro ⟨e, he, hb⟩
    obtain ⟨he, hco⟩ := List.mem_filter.mp he
    obtain ⟨rfl, hvalid, hmeta⟩ := mem_collectAdd.mp hb
    refine ⟨hmeta, e, he, hco, ?_⟩
    cases hroot : e.postingRoot with
    | none =>
      rw [hroot] at hvalid
      exact absurd rfl hvalid
    | some r => rfl
  · rintro ⟨hmeta, e, he, hco, hroot⟩
    refine ⟨e, List.mem_filter.mpr ⟨he, hco⟩, mem_collectAdd.mpr ⟨?_, postingRoot_ne he b hroot, hmeta⟩⟩
    rw [hroot]
    rfl

/-- The posting trees are those the other entries name. -/
theorem mem_postingTreeRoots {ents : List UpperLeafEntry} : b ∈ postingTreeRoots ents ↔
    ∃ e ∈ ents, e.coalesced = false ∧ e.inlineBytes = 0 ∧ e.postingRoot = some b := by
  simp only [postingTreeRoots, List.mem_filterMap, List.mem_filter, Bool.and_eq_true, Bool.not_eq_true',
    decide_eq_true_eq, and_assoc]

/-- The pages of a run whose root is a leaf. -/
theorem runPage_leaf (hget : st.pages[root]? = some page) (hkind : page.kind = .pageUpperL) :
    RunPage st root b ↔
      b ≠ pgTreMetaBlkno ∧ (b = root ∨ ∃ e ∈ readUpperEntries page, EntryPage st e b) := by
  refine and_congr_right fun _ => ⟨?_, ?_⟩
  · rintro ⟨a, hreach, ha⟩
    rcases Relation.ReflTransGen.cases_head hreach with rfl | ⟨c, ⟨page', hget', hkind', -⟩, -⟩
    · refine ha.imp_right ?_
      rintro ⟨page', hget', -, hentry⟩
      obtain rfl : page' = page := Option.some.inj (hget'.symm.trans hget)
      exact hentry
    · obtain rfl : page' = page := Option.some.inj (hget'.symm.trans hget)
      rw [hkind] at hkind'
      cases hkind'
  · intro hb
    exact ⟨root, Relation.ReflTransGen.refl, hb.imp_right fun hentry => ⟨page, hget, hkind, hentry⟩⟩

/-- The pages of a run whose root is an internal page: the root, and those of its children. -/
theorem runPage_internal (hget : st.pages[root]? = some page) (hkind : page.kind = .pageUpper) :
    RunPage st root b ↔
      b = root ∧ b ≠ pgTreMetaBlkno ∨ ∃ e ∈ readInternalEntries page, RunPage st e.2 b := by
  constructor
  · rintro ⟨hmeta, a, hreach, ha⟩
    rcases Relation.ReflTransGen.cases_head hreach with rfl | ⟨c, ⟨page', hget', -, e, he, rfl⟩, hreach⟩
    · rcases ha with rfl | ⟨page', hget', hkind', -⟩
      · exact Or.inl ⟨rfl, hmeta⟩
      · obtain rfl : page' = page := Option.some.inj (hget'.symm.trans hget)
        rw [hkind] at hkind'
        cases hkind'
    · obtain rfl : page' = page := Option.some.inj (hget'.symm.trans hget)
      exact Or.inr ⟨e, he, hmeta, a, hreach, ha⟩
  · rintro (⟨rfl, hmeta⟩ | ⟨e, he, hmeta, a, hreach, ha⟩)
    · exact ⟨hmeta, b, Relation.ReflTransGen.refl, Or.inl rfl⟩
    · exact ⟨hmeta, a, Relation.ReflTransGen.head ⟨page, hget, hkind, e, he, rfl⟩ hreach, ha⟩

/-- What is collected at a leaf. -/
theorem mem_collect_leaf (hlength : st.pages.length < 2 ^ 31 - 1) (hvalid : root ≠ invalidBlockNumber)
    (h : inTurn (some (.ok (coalescedBlocks (readUpperEntries page) ++ collectAdd root)) ::
      (postingTreeRoots (readUpperEntries page)).map fun r =>
        some (collectPostingChain st (chainTurns st) (some r))) = some (.ok bs)) :
    b ∈ bs ↔ b ≠ pgTreMetaBlkno ∧ (b = root ∨ ∃ e ∈ readUpperEntries page, EntryPage st e b) := by
  obtain ⟨hok, hmem⟩ := mem_of_inTurn_map (x := b) h
  rw [hmem, List.mem_append, mem_coalescedBlocks, mem_collectAdd]
  constructor
  · rintro ((⟨hmeta, e, he, hco, hroot⟩ | ⟨rfl, -, hmeta⟩) | ⟨r, hr, ys, hys, hb⟩)
    · refine ⟨hmeta, Or.inr ⟨e, he, ?_⟩⟩
      rw [EntryPage, if_pos hco]
      exact hroot
    · exact ⟨hmeta, Or.inl rfl⟩
    · obtain ⟨e, he, hco, hzero, hroot⟩ := mem_postingTreeRoots.mp hr
      obtain ⟨hmeta, hreach, hleaf⟩ :=
        (mem_collectPostingChain_iff hlength (Option.some.inj hys)).mp hb
      refine ⟨hmeta, Or.inr ⟨e, he, ?_⟩⟩
      rw [EntryPage, if_neg (by simp [hco])]
      exact ⟨hzero, r, hroot, hreach, hleaf⟩
  · rintro ⟨hmeta, rfl | ⟨e, he, hentry⟩⟩
    · exact Or.inl (Or.inr ⟨rfl, hvalid, hmeta⟩)
    · unfold EntryPage at hentry
      split_ifs at hentry with hco
      · exact Or.inl (Or.inl ⟨hmeta, e, he, hco, hentry⟩)
      · obtain ⟨hzero, r, hroot, hreach, hleaf⟩ := hentry
        have hr := mem_postingTreeRoots.mpr ⟨e, he, by simpa using hco, hzero, hroot⟩
        obtain ⟨ys, hys⟩ := hok r hr
        exact Or.inr ⟨r, hr, ys, hys,
          (mem_collectPostingChain_iff hlength (Option.some.inj hys)).mpr ⟨hmeta, hreach, hleaf⟩⟩

/-- The walk collects the pages of the run. -/
theorem mem_collectUpperSubtree (hlength : st.pages.length < 2 ^ 31 - 1)
    (h : collectUpperSubtree st fuel root = some (.ok bs)) : b ∈ bs ↔ RunPage st root b := by
  induction fuel generalizing root bs with
  | zero => cases h
  | succ fuel ih =>
    unfold collectUpperSubtree at h
    cases hread : st.read root .pageInvalid with
    | error e =>
      rw [hread] at h
      cases h
    | ok page =>
      rw [hread] at h
      dsimp only at h
      have hget := PageStore.getElem?_of_read hread
      have hvalid : root ≠ invalidBlockNumber := by
        rintro rfl
        have hlt := (List.getElem?_eq_some_iff.mp hget).1
        exact absurd (hlt.trans hlength) (by decide)
      split_ifs at h with hleaf hupper
      · rw [runPage_leaf hget hleaf, mem_collect_leaf hlength hvalid h]
      · cases h
      · obtain ⟨hok, hmem⟩ := mem_of_inTurn_map (x := b) h
        rw [runPage_internal hget (not_not.mp hupper), hmem, mem_collectAdd]
        refine or_congr ?_ (exists_congr fun e => and_congr_right fun he => ?_)
        · exact and_congr_right fun hb => and_iff_right (hb ▸ hvalid)
        · constructor
          · rintro ⟨ys, hys, hb⟩
            exact (ih hys).mp hb
          · intro hb
            obtain ⟨ys, hys⟩ := hok e he
            exact ⟨ys, hys, (ih hys).mpr hb⟩

/-! ### Trees that can be read -/

/-- Computations in turn have a result if all of them do. -/
theorem exists_inTurn {α β : Type} {f : β → Option (Except PgError (List α))} {args : List β}
    (first : List α) (h : ∀ a ∈ args, ∃ ys, f a = some (.ok ys)) :
    ∃ xs, inTurn (some (.ok first) :: args.map f) = some (.ok xs) := by
  have hrest : ∃ zs, inTurn (args.map f) = some (.ok zs) := by
    induction args with
    | nil => exact ⟨[], rfl⟩
    | cons a args ih =>
      obtain ⟨ys, hys⟩ := h a List.mem_cons_self
      obtain ⟨zs, hzs⟩ := ih fun c hc => h c (List.mem_cons_of_mem a hc)
      rw [List.map_cons, hys, inTurn, hzs]
      exact ⟨ys ++ zs, rfl⟩
  obtain ⟨zs, hzs⟩ := hrest
  rw [inTurn, hzs]
  exact ⟨first ++ zs, rfl⟩

/-- The right links of posting leaves are blocks of the index. -/
def LinksIn (st : PageStore) : Prop := ∀ b c, leafNext st b = some c → c < st.pages.length

/-- With links inside the file the chain walk returns. -/
theorem LinksIn.collectPostingChain (hlinks : LinksIn st) (turns : ℕ)
    (hstart : ∀ b ∈ start, b < st.pages.length) :
    ∃ bs, PgTre.collectPostingChain st turns start = .ok bs := by
  induction turns generalizing start with
  | zero => exact ⟨[], rfl⟩
  | succ turns ih =>
    cases start with
    | none => exact ⟨[], rfl⟩
    | some blk =>
      obtain ⟨page, hget⟩ : ∃ page, st.pages[blk]? = some page :=
        ⟨_, List.getElem?_eq_getElem (hstart blk rfl)⟩
      unfold PgTre.collectPostingChain
      rw [PageStore.read_any hget]
      dsimp only
      split_ifs with hkind
      · exact ⟨[], rfl⟩
      · have hnext : leafNext st blk = (readLeafHeader page).rightLink := by
          rw [leafNext, hget]
          exact if_pos (not_not.mp hkind)
        obtain ⟨bs, hbs⟩ := ih fun c hc => hlinks blk c (hnext.trans hc)
        rw [hbs]
        exact ⟨_, rfl⟩

/-- The trees of a run: the upper tree is one that is loaded, and the roots of the postings and the
links of their leaves are blocks of the index. -/
structure RunTree (st : PageStore) (fuel : ℕ) (rootUpper : Option BlockNumber) : Prop where
  length : st.pages.length < 2 ^ 31 - 1
  links : LinksIn st
  tree : ∀ root ∈ rootUpper, ∃ depth < fuel, ∃ items, UpperPages st depth root items ∧
    ∀ item ∈ items, ∀ b ∈ item.entry.postingRoot, b < st.pages.length

/-- The walk of such a tree comes to an end. -/
theorem UpperPages.collectUpperSubtree {depth : ℕ} {items : List UpperItem}
    (hlength : st.pages.length < 2 ^ 31 - 1) (hlinks : LinksIn st) (h : UpperPages st depth root items)
    (hroots : ∀ item ∈ items, ∀ b ∈ item.entry.postingRoot, b < st.pages.length)
    (hfuel : depth < fuel) : ∃ bs, PgTre.collectUpperSubtree st fuel root = some (.ok bs) := by
  have hlimit : st.pages.length ≤ invalidBlockNumber := (hlength.trans (by decide)).le
  induction depth generalizing root items fuel with
  | zero =>
    obtain ⟨hne, hcount, hget⟩ := h
    obtain ⟨fuel, rfl⟩ := Nat.exists_eq_add_of_lt hfuel
    rw [upperMaxEntries_eq] at hcount
    have hkind : (leafPageOf items).kind = .pageUpperL := rfl
    unfold PgTre.collectUpperSubtree
    rw [PageStore.read_any hget]
    dsimp only
    rw [if_pos hkind, readUpperEntries_leafPageOf hne (by omega)]
    refine exists_inTurn _ fun r hr => ?_
    obtain ⟨e, he, -, -, hroot⟩ := mem_postingTreeRoots.mp hr
    obtain ⟨item, hitem, rfl⟩ := List.mem_map.mp he
    have hstart : ∀ b ∈ some r, b < st.pages.length := by
      intro b hb
      obtain rfl := Option.some.inj hb
      exact hroots item hitem r hroot
    obtain ⟨bs, hbs⟩ := hlinks.collectPostingChain (chainTurns st) hstart
    exact ⟨bs, congrArg some hbs⟩
  | succ depth ih =>
    obtain ⟨children, -, hget, rfl, hchildren⟩ := h
    cases fuel with
    | zero => omega
    | succ fuel =>
      have hkind : (upperInternalPage (children.map childEntry)).kind = .pageUpper := rfl
      unfold PgTre.collectUpperSubtree
      rw [PageStore.read_any hget]
      simp only [hkind, reduceCtorEq, if_false, ne_eq, not_true_eq_false]
      rw [readInternalEntries_upperInternalPage (childEntry_lt hlimit hchildren)]
      refine exists_inTurn _ fun e he => ?_
      obtain ⟨c, hc, rfl⟩ := List.mem_map.mp he
      refine ih (hchildren c hc) (fun item hitem => ?_) (by omega)
      exact hroots item (List.mem_flatMap.mpr ⟨c, hc, hitem⟩)

/-- The pages that are collected at a root, or at none. -/
theorem RunTree.collectPages {rootUpper : Option BlockNumber} (h : RunTree st fuel rootUpper) :
    ∃ pages, pgTreRunCollectPages st fuel rootUpper = some (.ok pages) ∧ pages.Pairwise (· < ·) ∧
      ∀ b, b ∈ pages ↔ ∃ root ∈ rootUpper, RunPage st root b := by
  cases rootUpper with
  | none => exact ⟨[], rfl, List.Pairwise.nil, by simp⟩
  | some root =>
    obtain ⟨depth, hfuel, items, htree, hroots⟩ := h.tree root rfl
    obtain ⟨bs, hbs⟩ := htree.collectUpperSubtree h.length h.links hroots hfuel
    refine ⟨uniqBlocks bs, ?_, uniqBlocks_sorted bs, fun b => ?_⟩
    · rw [pgTreRunCollectPages, hbs]
      rfl
    · rw [(uniqBlocks_spec bs).2, mem_collectUpperSubtree h.length hbs]
      simp only [Option.mem_some_iff, exists_eq_left']

/-- The pages that are left start with one that is not skipped. -/
theorem le_of_mem_head?_dropWhile {newPages : List BlockNumber} {c : BlockNumber}
    (h : (newPages.dropWhile fun c => c < b).head? = some c) : b ≤ c := by
  have hfirst := List.head?_dropWhile_not (fun c => decide (c < b)) newPages
  rw [h] at hfirst
  exact not_lt.mp (of_decide_eq_false hfirst)

/-- The merge of two sorted lists leaves the pages that the new one does not have. -/
theorem notReused_eq {newPages old : List BlockNumber} (hnew : newPages.Pairwise (· < ·))
    (hold : old.Pairwise (· < ·)) : notReused newPages old = old.filter fun b => b ∉ newPages := by
  induction old generalizing newPages with
  | nil => rfl
  | cons b old ih =>
    obtain ⟨hb, hold⟩ := List.pairwise_cons.mp hold
    let rest := newPages.dropWhile fun c => c < b
    have hrest : rest.Pairwise (· < ·) := hnew.sublist (List.dropWhile_sublist _)
    -- What is skipped is below the page, and so below all pages after it.
    have hmem : ∀ c, b ≤ c → (c ∈ rest ↔ c ∈ newPages) := by
      intro c hc
      refine ⟨fun hin => (List.dropWhile_sublist _).subset hin, fun hin => ?_⟩
      rw [← List.takeWhile_append_dropWhile (p := fun c => decide (c < b)) (l := newPages)] at hin
      rcases List.mem_append.mp hin with htake | hdrop
      · have hlt := List.mem_takeWhile_imp htake
        exact absurd (of_decide_eq_true hlt) (not_lt.mpr hc)
      · exact hdrop
    have hhead : rest.head? = some b ↔ b ∈ newPages := by
      rw [← hmem b le_rfl]
      constructor
      · exact List.mem_of_mem_head?
      · intro hin
        cases hcons : rest with
        | nil =>
          rw [hcons] at hin
          cases hin
        | cons c cs =>
          have hle : b ≤ c := @le_of_mem_head?_dropWhile b newPages c (congrArg List.head? hcons)
          rw [hcons] at hin hrest
          rcases List.mem_cons.mp hin with rfl | hin
          · rfl
          · exact absurd ((List.pairwise_cons.mp hrest).1 b hin) (not_lt.mpr hle)
    have htail : notReused rest old = old.filter fun c => c ∉ newPages := by
      rw [ih hrest hold]
      refine List.filter_congr fun c hc => ?_
      rw [decide_eq_decide, hmem c (hb c hc).le]
    rw [notReused]
    by_cases hin : b ∈ newPages
    · rw [if_pos (hhead.mpr hin), List.filter_cons_of_neg (by simpa using hin), htail]
    · rw [if_neg fun h => hin (hhead.mp h), List.filter_cons_of_pos (by simpa using hin), htail]

/-- What is logged when the pages of both trees are collected. -/
theorem mergeFreedPages_eq {runs : List PgTreRun} {oldRoot newRoot : Option BlockNumber}
    {old newPages : List BlockNumber} (hold : oldTreePages st runs fuel oldRoot = some (.ok old))
    (holdSorted : old.Pairwise (· < ·))
    (hnew : pgTreRunCollectPages st' fuel newRoot = some (.ok newPages))
    (hnewSorted : newPages.Pairwise (· < ·)) :
    mergeFreedPages st st' runs fuel oldRoot newRoot =
      some (.ok (old.filter fun b => b ∉ newPages)) := by
  rw [← notReused_eq hnewSorted holdSorted, mergeFreedPages, hold]
  dsimp only
  split_ifs with hnil
  · rw [hnil]
    rfl
  · rw [hnew]
    rfl

/-- No pages are collected if a run of the catalog has the root. -/
theorem oldTreePages_aliased {runs : List PgTreRun} {run : PgTreRun} {oldRoot : Option BlockNumber}
    (hrun : run ∈ runs) (hid : run.runId ≠ 0) (hroot : run.rootUpper = oldRoot) :
    oldTreePages st runs fuel oldRoot = some (.ok []) :=
  if_pos (List.any_eq_true.mpr ⟨run, hrun, decide_eq_true ⟨hid, hroot⟩⟩)

/-- When only base runs share the old root, its pages are those of its walk. -/
theorem oldTreePages_apart {runs : List PgTreRun} {oldRoot : Option BlockNumber}
    (hbase : ∀ run ∈ runs, run.rootUpper = oldRoot → run.runId = 0) :
    oldTreePages st runs fuel oldRoot = pgTreRunCollectPages st fuel oldRoot := by
  refine if_neg fun hany => ?_
  obtain ⟨run, hrun, hid, hroot⟩ : ∃ run ∈ runs, run.runId ≠ 0 ∧ run.rootUpper = oldRoot := by
    simpa using hany
  exact hid (hbase run hrun hroot)

/-- Without a base tree there is nothing to collect, so only runs with its root keep its pages. -/
theorem oldTreePages_root {runs : List PgTreRun} {oldRoot : Option BlockNumber}
    (hbase : ∀ root ∈ oldRoot, ∀ run ∈ runs, run.rootUpper = some root → run.runId = 0) :
    oldTreePages st runs fuel oldRoot = pgTreRunCollectPages st fuel oldRoot := by
  cases oldRoot with
  | none =>
    unfold oldTreePages
    split_ifs
    · rfl
    · rfl
  | some root => exact oldTreePages_apart (hbase root rfl)

/-- `pg_tre_pending_merge` logs each page of the old tree and of its postings that the new tree does not
have, once, and no other page; it logs none when a run of the catalog has the old root. -/
theorem mergeFreedPages_spec {runs : List PgTreRun} {oldRoot newRoot : Option BlockNumber}
    (h : RunTree st fuel oldRoot) (h' : RunTree st' fuel newRoot) :
    ∃ blocks, mergeFreedPages st st' runs fuel oldRoot newRoot = some (.ok blocks) ∧
      blocks.Pairwise (· < ·) ∧
      ∀ b, b ∈ blocks ↔ (∀ run ∈ runs, run.rootUpper = oldRoot → run.runId = 0) ∧
        (∃ root ∈ oldRoot, RunPage st root b) ∧ ¬∃ root ∈ newRoot, RunPage st' root b := by
  obtain ⟨old, hold, holdSorted, hmemOld⟩ := h.collectPages
  obtain ⟨newPages, hnew, hnewSorted, hmemNew⟩ := h'.collectPages
  by_cases hbase : ∀ run ∈ runs, run.rootUpper = oldRoot → run.runId = 0
  · rw [← oldTreePages_apart hbase] at hold
    refine ⟨_, mergeFreedPages_eq hold holdSorted hnew hnewSorted,
      holdSorted.sublist List.filter_sublist, fun b => ?_⟩
    rw [List.mem_filter, decide_eq_true_eq, hmemOld, hmemNew]
    exact (and_iff_right hbase).symm
  · push Not at hbase
    obtain ⟨run, hrun, hroot, hid⟩ := hbase
    have hnone := @oldTreePages_aliased st fuel _ _ _ hrun hid hroot
    refine ⟨_, mergeFreedPages_eq hnone List.Pairwise.nil hnew hnewSorted, List.Pairwise.nil, ?_⟩
    intro b
    refine iff_of_false List.not_mem_nil ?_
    rintro ⟨hbase, -⟩
    exact hid (hbase run hrun hroot)

/-- The pages of a tree in a model that has no content of pages. -/
def HasPages (st : PageStore) (s : PageIndex) : Prop :=
  ∀ root ∈ s.rootUpper, ∀ b, b ∈ (s.trees root).blocks ↔ RunPage st root b

/-- The pages of the base tree are those it reaches in the store. -/
theorem HasPages.mem_treeAt {s : PageIndex} (h : HasPages st s) :
    b ∈ (s.treeAt s.rootUpper).blocks ↔ ∃ root ∈ s.rootUpper, RunPage st root b := by
  unfold PageIndex.treeAt
  cases hroot : s.rootUpper with
  | none => simp [TreePages.mem_blocks]
  | some root =>
    rw [h root hroot]
    simp only [Option.mem_some_iff, exists_eq_left']

/-- The merge of a pending list, where trees are no more than their pages, logs what is logged on the
pages. -/
theorem freeLog_mergeIntoBase {s : PageIndex} {lay : PageIndex.PageLayout} {hashes : List UInt64}
    {runs : List PgTreRun} (hruns : ∀ run, run ∈ s.liveRuns ↔ run ∈ runs ∧ run.runId ≠ 0)
    (h : RunTree st fuel s.rootUpper) (h' : RunTree st' fuel (s.mergeIntoBase lay hashes).rootUpper)
    (hpages : HasPages st s) (hpages' : HasPages st' (s.mergeIntoBase lay hashes)) :
    ∃ blocks, mergeFreedPages st st' runs fuel s.rootUpper (s.mergeIntoBase lay hashes).rootUpper =
        some (.ok blocks) ∧ (s.mergeIntoBase lay hashes).freeLog = s.freeLog ++ blocks := by
  obtain ⟨newPages, hnew, hnewSorted, hmemNew⟩ := h'.collectPages
  have hlog : (s.mergeIntoBase lay hashes).freeLog = s.freeLog ++
      ((if s.Aliased then ∅ else (s.treeAt s.rootUpper).blocks) \
        ((s.mergeIntoBase lay hashes).treeAt (s.mergeIntoBase lay hashes).rootUpper).blocks).sort
          (· ≤ ·) := rfl
  by_cases haliased : s.Aliased
  · obtain ⟨root, hbase, run, hrun, hroot⟩ := haliased
    obtain ⟨hrun', hid⟩ := (hruns run).mp hrun
    refine ⟨_, mergeFreedPages_eq (oldTreePages_aliased hrun' hid (hroot.trans hbase.symm))
      List.Pairwise.nil hnew hnewSorted, ?_⟩
    rw [hlog, if_pos ⟨root, hbase, run, hrun, hroot⟩, Finset.empty_sdiff, Finset.sort_empty]
    rfl
  · obtain ⟨old, hold, holdSorted, hmemOld⟩ := h.collectPages
    have hbase : ∀ root ∈ s.rootUpper, ∀ run ∈ runs, run.rootUpper = some root → run.runId = 0 := by
      intro root hroot run hrun hsame
      by_contra hid
      exact haliased ⟨root, hroot, run, (hruns run).mpr ⟨hrun, hid⟩, hsame⟩
    rw [← oldTreePages_root hbase] at hold
    refine ⟨_, mergeFreedPages_eq hold holdSorted hnew hnewSorted, ?_⟩
    have hsorted := holdSorted.sublist (List.filter_sublist (p := fun b => decide (b ∉ newPages)))
    have hblocks : (s.treeAt s.rootUpper).blocks \
        ((s.mergeIntoBase lay hashes).treeAt (s.mergeIntoBase lay hashes).rootUpper).blocks =
          (old.filter fun b => b ∉ newPages).toFinset := by
      ext b
      rw [Finset.mem_sdiff, hpages.mem_treeAt, hpages'.mem_treeAt, List.mem_toFinset, List.mem_filter,
        decide_eq_true_eq, hmemOld, hmemNew]
    rw [hlog, if_neg haliased, hblocks]
    exact congrArg (s.freeLog ++ ·)
      ((List.toFinset_sort (· ≤ ·) (hsorted.imp Nat.ne_of_lt)).mpr (hsorted.imp Nat.le_of_lt))

end

/-- An entry whose posting is the leaf on block 2. -/
def leafItem (hash : UInt64) : UpperItem where
  entry := ⟨hash, some 2, 0⟩
  inlineData := []
  root_lt := by simp [invalidBlockNumber]
  length_inlineData := by simp [UpperLeafEntry.blobLength]
  inlineBytes := Or.inl (Nat.zero_le _)

/-- An index with a tree of one entry. -/
def beforeMerge : PageStore :=
  ⟨1, [pgTrePageInit .pageMeta, leafPageOf [leafItem 1], ⟨.pagePostingL, 0, 28, encodeBlock none⟩], []⟩

/-- The index with the tree after a merge, which has the posting of the old one. -/
def afterMerge : PageStore := ⟨1, beforeMerge.pages ++ [leafPageOf [leafItem 1, leafItem 2]], []⟩

/-- A merge into a base shared with a run frees the root and keeps the shared posting. -/
theorem mergeFreedPages_spec_shared : ∃ blocks,
    mergeFreedPages beforeMerge afterMerge [] 1 (some 1) (some 3) = some (.ok blocks) ∧
      1 ∈ blocks ∧ 2 ∉ blocks := by
  have hitem : ∀ hash, ∀ b ∈ (leafItem hash).entry.postingRoot, b < 3 := by
    intro hash b hb
    obtain rfl : 2 = b := Option.some.inj hb
    decide
  have hnext : ∀ b < 3, leafNext beforeMerge b = none := by decide
  have hnext' : ∀ b < 4, leafNext afterMerge b = none := by decide
  have hbefore : RunTree beforeMerge 1 (some 1) := by
    refine ⟨by decide, fun b c hc => ?_, fun root hroot => ?_⟩
    · rw [hnext b (leafNext_lt hc)] at hc
      cases hc
    · obtain rfl := Option.some.inj hroot
      refine ⟨0, by decide, [leafItem 1], ⟨by simp, by decide, rfl⟩, fun item hin => ?_⟩
      rw [List.mem_singleton.mp hin]
      exact hitem 1
  have hafter : RunTree afterMerge 1 (some 3) := by
    refine ⟨by decide, fun b c hc => ?_, fun root hroot => ?_⟩
    · rw [hnext' b (leafNext_lt hc)] at hc
      cases hc
    · obtain rfl := Option.some.inj hroot
      refine ⟨0, by decide, [leafItem 1, leafItem 2], ⟨by simp, by decide, rfl⟩, ?_⟩
      intro item hin b hb
      have hlt : b < 3 := by
        rcases List.mem_pair.mp hin with rfl | rfl
        · exact hitem 1 b hb
        · exact hitem 2 b hb
      exact hlt.trans (by decide)
  obtain ⟨blocks, heq, -, hmem⟩ := @mergeFreedPages_spec _ _ 1 [] _ _ hbefore hafter
  have hentries : readUpperEntries (leafPageOf [leafItem 1, leafItem 2]) =
      [(leafItem 1).entry, (leafItem 2).entry] := readUpperEntries_leafPageOf (by simp) (by decide)
  have hpages := fun b => @runPage_leaf afterMerge 3 b _ rfl rfl
  refine ⟨blocks, heq, ?_, ?_⟩
  · rw [hmem]
    refine ⟨by simp, ⟨1, rfl, by decide, 1, Relation.ReflTransGen.refl, Or.inl rfl⟩, ?_⟩
    rintro ⟨root, hroot, hpage⟩
    obtain rfl := Option.some.inj hroot
    rw [hpages, hentries] at hpage
    obtain ⟨-, heq | ⟨e, he, hentry⟩⟩ := hpage
    · exact absurd heq (by decide)
    · have hco : ¬e.coalesced = true := by
        rcases List.mem_pair.mp he with rfl | rfl <;> decide
      rw [EntryPage, if_neg hco] at hentry
      obtain ⟨-, -, -, -, page, hget, hkind⟩ := hentry
      obtain rfl := Option.some.inj hget
      cases hkind
  · rw [hmem]
    rintro ⟨-, -, hnot⟩
    refine hnot ⟨3, rfl, ?_⟩
    rw [hpages, hentries]
    refine ⟨by decide, Or.inr ⟨_, List.mem_cons_self, ?_⟩⟩
    exact ⟨rfl, 2, rfl, Relation.ReflTransGen.refl, _, rfl, rfl⟩

end PgTre
