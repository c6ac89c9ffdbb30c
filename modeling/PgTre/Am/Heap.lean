import PgTre.Pages.TidPacking
import PgTre.Util.TreMatch

/-!
# The heap under an ordered scan

An index stores the TID of the root of a HOT chain. The version a snapshot sees may stand anywhere
on the chain, and after pruning the root may be a redirecting line pointer. The functions of
PostgreSQL that a scan calls are parameters, with what the scan relies on: `heap_fetch` looks at
one line pointer, a heap scan returns every visible version under its own TID, and the executor
follows a chain from its root.
-/

namespace PgTre

/-! ## Pages and HOT chains -/

/-- A heap tuple. A HOT-updated one names the line pointer of its next version. -/
structure HeapTuple where
  xmin : ℕ
  xmax : ℕ
  heapOnly : Bool
  hotNext : Option ℕ
  attrs : List (Option Text)
  deriving DecidableEq

/-- The states of a line pointer. -/
inductive LinePointer
  | unused
  | dead
  | redirect (target : ℕ)
  | normal (tup : HeapTuple)
  deriving DecidableEq

/-- A heap page. -/
structure HeapPage where
  items : List LinePointer
  /-- The page holds at most `MaxHeapTuplesPerPage` line pointers. -/
  fits : items.length ≤ maxHeapTuplesPerPage

/-- The line pointer at an offset, counted from 1. -/
def HeapPage.item (page : HeapPage) (off : ℕ) : Option LinePointer :=
  if off = 0 then none else page.items[off - 1]?

/-- The tuple at an offset. -/
def HeapPage.tuple (page : HeapPage) (off : ℕ) : Option HeapTuple :=
  match page.item off with
  | some (.normal t) => some t
  | _ => none

/-- An offset with a tuple lies on the page. -/
theorem HeapPage.tuple_bounds {page : HeapPage} {off : ℕ} {t : HeapTuple}
    (h : page.tuple off = some t) : 0 < off ∧ off ≤ maxHeapTuplesPerPage := by
  unfold tuple item at h
  by_cases hzero : off = 0
  · simp [hzero] at h
  · rw [if_neg hzero] at h
    have hlt : off - 1 < page.items.length := by
      by_contra hge
      rw [List.getElem?_eq_none (by omega)] at h
      simp at h
    have hfits := page.fits
    omega

/-- A version: where it stands on its page, and the tuple. -/
abbrev Version := ℕ × HeapTuple

/-- The heap-only tuple at an offset. -/
def HeapPage.heapOnlyAt (page : HeapPage) (off : ℕ) : Option Version :=
  match page.tuple off with
  | some t => if t.heapOnly then some (off, t) else none
  | none => none

/-- The next version on a HOT chain: a heap-only tuple written by the transaction that ended this
one. -/
def HeapPage.next (page : HeapPage) (v : Version) : Option Version :=
  match v.2.hotNext with
  | none => none
  | some off => (page.heapOnlyAt off).filter (fun w => w.2.xmin = v.2.xmax)

/-- The first version of the chain rooted at an offset: the tuple there, unless it is heap-only,
or the heap-only tuple the line pointer redirects to. -/
def HeapPage.chainStart (page : HeapPage) (root : ℕ) : Option Version :=
  match page.item root with
  | some (.normal t) => if t.heapOnly then none else some (root, t)
  | some (.redirect target) => page.heapOnlyAt target
  | _ => none

/-- The versions from `v` on, at most `n` of them. -/
def HeapPage.follow (page : HeapPage) : ℕ → Version → List Version
  | 0, _ => []
  | n + 1, v => v :: (match page.next v with
      | none => []
      | some w => page.follow n w)

/-- The HOT chain rooted at an offset, in which every line pointer occurs at most once. -/
def HeapPage.hotChain (page : HeapPage) (root : ℕ) : List Version :=
  match page.chainStart root with
  | none => []
  | some v => page.follow page.items.length v

/-- A heap-only line is a tuple of the page that is marked heap-only. -/
theorem HeapPage.heapOnlyAt_eq_some {page : HeapPage} {off : ℕ} {v : Version}
    (h : page.heapOnlyAt off = some v) : page.tuple v.1 = some v.2 ∧ v.2.heapOnly = true := by
  unfold heapOnlyAt at h
  cases htuple : page.tuple off with
  | none => simp [htuple] at h
  | some t =>
    simp only [htuple, Option.ite_none_right_eq_some, Option.some.injEq] at h
    obtain ⟨honly, rfl⟩ := h
    exact ⟨htuple, honly⟩

/-- The next version is a heap-only tuple of the page. -/
theorem HeapPage.next_eq_some {page : HeapPage} {v w : Version} (h : page.next v = some w) :
    page.tuple w.1 = some w.2 ∧ w.2.heapOnly = true := by
  unfold next at h
  cases hnext : v.2.hotNext with
  | none => simp [hnext] at h
  | some off =>
    simp only [hnext, Option.filter_eq_some_iff] at h
    exact heapOnlyAt_eq_some h.1

/-- Every version after the first is a heap-only tuple of the page. -/
theorem HeapPage.mem_follow {page : HeapPage} {n : ℕ} {v w : Version} (h : w ∈ page.follow n v) :
    w = v ∨ page.tuple w.1 = some w.2 ∧ w.2.heapOnly = true := by
  induction n generalizing v with
  | zero => simp [follow] at h
  | succ n ih =>
    simp only [follow, List.mem_cons] at h
    rcases h with rfl | h
    · exact Or.inl rfl
    · cases hnext : page.next v with
      | none => simp [hnext] at h
      | some u =>
        simp only [hnext] at h
        rcases ih h with rfl | hlater
        · exact Or.inr (next_eq_some hnext)
        · exact Or.inr hlater

/-- A version of a chain is a tuple of the page, and it is the root itself or heap-only. -/
theorem HeapPage.mem_hotChain {page : HeapPage} {root : ℕ} {v : Version}
    (h : v ∈ page.hotChain root) :
    page.tuple v.1 = some v.2 ∧ (v.1 = root ∨ v.2.heapOnly = true) := by
  unfold hotChain at h
  cases hstart : page.chainStart root with
  | none => simp [hstart] at h
  | some s =>
    simp only [hstart] at h
    rcases mem_follow h with rfl | hlater
    · unfold chainStart at hstart
      split at hstart
      · rename_i t hitem
        rw [Option.ite_none_left_eq_some, Option.some.injEq] at hstart
        obtain ⟨-, rfl⟩ := hstart
        exact ⟨by simp [tuple, hitem], Or.inl rfl⟩
      · obtain ⟨htuple, honly⟩ := heapOnlyAt_eq_some hstart
        exact ⟨htuple, Or.inr honly⟩
      · cases hstart
    · exact ⟨hlater.1, Or.inr hlater.2⟩

/-- A tuple that is not heap-only begins the chain rooted at it. -/
theorem HeapPage.hotChain_of_root {page : HeapPage} {root : ℕ} {t : HeapTuple}
    (htuple : page.tuple root = some t) (hroot : t.heapOnly = false) :
    ∃ rest, page.hotChain root = (root, t) :: rest := by
  have hitem : page.item root = some (.normal t) := by
    unfold tuple at htuple
    split at htuple
    · rename_i hitem
      rw [hitem, Option.some.inj htuple]
    · cases htuple
  have hpos : 0 < page.items.length := by
    unfold item at hitem
    split_ifs at hitem
    have hlt := (List.getElem?_eq_some_iff.mp hitem).1
    omega
  obtain ⟨n, hn⟩ := Nat.exists_eq_succ_of_ne_zero hpos.ne'
  simp [hotChain, chainStart, hitem, hroot, hn, follow]

/-- A root with a chain is a line pointer of the page. -/
theorem HeapPage.root_bounds {page : HeapPage} {root : ℕ} {v : Version}
    (h : v ∈ page.hotChain root) : 0 < root ∧ root ≤ page.items.length := by
  have hitem : page.item root ≠ none := by
    intro hnone
    simp [hotChain, chainStart, hnone] at h
  unfold item at hitem
  split_ifs at hitem with hzero
  · exact absurd rfl hitem
  · have hlt : root - 1 < page.items.length := by
      by_contra hge
      exact hitem (List.getElem?_eq_none (by omega))
    omega

/-- On a page with one line pointer there is one root. -/
theorem HeapPage.root_eq_one {page : HeapPage} {root : ℕ} {v : Version}
    (hlength : page.items.length = 1) (h : v ∈ page.hotChain root) : root = 1 := by
  have hbounds := HeapPage.root_bounds h
  rw [hlength] at hbounds
  omega

/-! ## Heaps and snapshots -/

/-- `ItemPointerSetOffsetNumber`. -/
def ItemPointer.setOffset (tid : ItemPointer) (off : ℕ) : ItemPointer :=
  { tid with posid := off % 2 ^ 16, posidLt := posid_mod_lt off }

/-- Setting an offset that fits. -/
theorem ItemPointer.setOffset_posid {tid : ItemPointer} {off : ℕ} (h : off ≤ maxHeapTuplesPerPage) :
    (tid.setOffset off).posid = off := by
  have hsmall : off < 2 ^ 16 := lt_of_le_of_lt h (by decide)
  exact Nat.mod_eq_of_lt hsmall

/-- A table: its pages by block number. -/
structure Heap where
  pages : List HeapPage
  /-- Block numbers have 32 bits, and the last of them is invalid. -/
  fits : pages.length < 2 ^ 32

/-- The page of a TID. -/
def Heap.page (heap : Heap) (tid : ItemPointer) : Option HeapPage := heap.pages[tid.blkid]?

/-- The tuple at a TID. -/
def Heap.tupleAt (heap : Heap) (tid : ItemPointer) : Option HeapTuple :=
  (heap.page tid).bind (·.tuple tid.posid)

/-- The HOT chain rooted at a TID, with the versions' own TIDs. -/
def Heap.hotChain (heap : Heap) (tid : ItemPointer) : List (ItemPointer × HeapTuple) :=
  match heap.page tid with
  | none => []
  | some page => (page.hotChain tid.posid).map (fun v => (tid.setOffset v.1, v.2))

/-- Whether a snapshot sees a version. -/
abbrev Snapshot := HeapTuple → Bool

/-- A heap as a snapshot sees it. PostgreSQL keeps HOT chains apart from each other, and a
snapshot sees at most one version of a row. -/
structure HeapView where
  heap : Heap
  snapshot : Snapshot
  /-- A version belongs to one chain. -/
  apart : ∀ page ∈ heap.pages, ∀ root, ∀ v ∈ page.hotChain root, ∀ root', ∀ v' ∈ page.hotChain root',
    v.1 = v'.1 → root = root'
  /-- One version of a chain is visible. -/
  unique : ∀ page ∈ heap.pages, ∀ root, ∀ v ∈ page.hotChain root, ∀ v' ∈ page.hotChain root,
    snapshot v.2 = true → snapshot v'.2 = true → v = v'

/-- The functions of PostgreSQL's heap that a scan and the executor call. -/
structure HeapAm where
  /-- `heap_fetch`. -/
  heapFetch : Heap → Snapshot → ItemPointer → Option HeapTuple
  /-- What `heap_getnext` returns, call by call. A synchronized scan may begin on any page. -/
  heapScan : Heap → Snapshot → List (ItemPointer × HeapTuple)
  /-- `heap_get_root_tuples`: the root of the chain an offset belongs to. -/
  heapGetRootTuples : HeapPage → ℕ → Option ℕ
  /-- `index_fetch_heap`, the executor's fetch of a TID an index returned. -/
  indexFetchHeap : Heap → Snapshot → ItemPointer → Option (ItemPointer × HeapTuple)
  /-- `heap_getattr`; `NULL` is `none`. -/
  heapGetattr : HeapTuple → ℕ → Except PgError (Option Text)
  /-- `heap_fetch` examines only the tuple at the given TID. -/
  heapFetch_eq : ∀ heap snapshot tid,
    heapFetch heap snapshot tid = (heap.tupleAt tid).filter snapshot
  /-- A heap scan returns a TID once. -/
  heapScan_nodup : ∀ heap snapshot, ((heapScan heap snapshot).map Prod.fst).Nodup
  /-- A heap scan returns the visible versions under their own TIDs. -/
  mem_heapScan : ∀ heap snapshot tid t,
    (tid, t) ∈ heapScan heap snapshot ↔ heap.tupleAt tid = some t ∧ snapshot t = true
  /-- An offset is mapped only to a root whose chain it is on. -/
  heapGetRootTuples_sound : ∀ page off root, heapGetRootTuples page off = some root →
    ∃ v ∈ page.hotChain root, v.1 = off
  /-- An offset on a chain is mapped. -/
  heapGetRootTuples_complete : ∀ page root, ∀ v ∈ page.hotChain root,
    heapGetRootTuples page v.1 ≠ none
  /-- The executor's fetch follows the chain from its root to the first visible version. -/
  indexFetchHeap_eq : ∀ heap snapshot tid,
    indexFetchHeap heap snapshot tid = (heap.hotChain tid).find? (fun v => snapshot v.2)
  /-- A column is read by its number. -/
  heapGetattr_column : ∀ t attno, 0 < attno → heapGetattr t attno = .ok (t.attrs[attno - 1]?).join
  /-- There is no attribute 0. -/
  heapGetattr_zero : ∀ t, ∃ e, heapGetattr t 0 = .error e

section

variable {view : HeapView} {tid : ItemPointer} {t : HeapTuple}

/-- The tuple at a TID, through its page. -/
theorem Heap.tupleAt_eq_some {heap : Heap} :
    heap.tupleAt tid = some t ↔ ∃ page, heap.page tid = some page ∧ page.tuple tid.posid = some t := by
  simp [tupleAt, Option.bind_eq_some_iff]

/-- The offset of a tuple is small. -/
theorem Heap.posid_le {heap : Heap} (h : heap.tupleAt tid = some t) :
    tid.posid ≤ maxHeapTuplesPerPage := by
  obtain ⟨page, -, htuple⟩ := tupleAt_eq_some.mp h
  exact (HeapPage.tuple_bounds htuple).2

/-- A version of a TID's chain, through the page. -/
theorem Heap.mem_hotChain {heap : Heap} {v : ItemPointer × HeapTuple} (h : v ∈ heap.hotChain tid) :
    ∃ page, heap.page tid = some page ∧ (v.1.posid, v.2) ∈ page.hotChain tid.posid ∧
      v.1.blkid = tid.blkid := by
  unfold hotChain at h
  cases hpage : heap.page tid with
  | none => simp [hpage] at h
  | some page =>
    simp only [hpage, List.mem_map] at h
    obtain ⟨w, hw, rfl⟩ := h
    have hbound := (HeapPage.tuple_bounds (HeapPage.mem_hotChain hw).1).2
    refine ⟨page, rfl, ?_, rfl⟩
    rw [ItemPointer.setOffset_posid hbound]
    exact hw

/-- A version of the page's chain is on the chain of the root's TID. -/
theorem Heap.mem_hotChain_setOffset {heap : Heap} {page : HeapPage} {root : ℕ}
    (hpage : heap.page tid = some page) (h : (tid.posid, t) ∈ page.hotChain root) :
    (tid, t) ∈ heap.hotChain (tid.setOffset root) := by
  have hroot : (tid.setOffset root).posid = root :=
    ItemPointer.setOffset_posid ((HeapPage.root_bounds h).2.trans page.fits)
  have hpage' : heap.page (tid.setOffset root) = some page := hpage
  have hself : (tid.setOffset root).setOffset tid.posid = tid := by
    ext
    · rfl
    · exact Nat.mod_eq_of_lt tid.posidLt
  simp only [hotChain, hpage', hroot, List.mem_map, Prod.mk.injEq]
  exact ⟨_, h, hself, rfl⟩

/-- A version of a chain is the tuple at its own TID. -/
theorem Heap.tupleAt_of_mem_hotChain {heap : Heap} {v : ItemPointer × HeapTuple}
    (h : v ∈ heap.hotChain tid) : heap.tupleAt v.1 = some v.2 := by
  obtain ⟨page, hpage, hmem, hblk⟩ := mem_hotChain h
  refine tupleAt_eq_some.mpr ⟨page, ?_, (HeapPage.mem_hotChain hmem).1⟩
  rw [Heap.page, hblk]
  exact hpage

/-- A tuple that is not heap-only is on the chain rooted at its TID. -/
theorem Heap.mem_hotChain_self {heap : Heap} (htuple : heap.tupleAt tid = some t)
    (hroot : t.heapOnly = false) : (tid, t) ∈ heap.hotChain tid := by
  obtain ⟨page, hpage, hat⟩ := tupleAt_eq_some.mp htuple
  obtain ⟨rest, hchain⟩ := HeapPage.hotChain_of_root hat hroot
  have hself : tid.setOffset tid.posid = tid := by
    ext
    · rfl
    · exact ItemPointer.setOffset_posid (HeapPage.tuple_bounds hat).2
  simp [hotChain, hpage, hchain, hself]

/-- A snapshot sees at most one version of a chain. -/
theorem HeapView.eq_of_visible {v w : ItemPointer × HeapTuple} (hv : v ∈ view.heap.hotChain tid)
    (hw : w ∈ view.heap.hotChain tid) (hvis : view.snapshot v.2 = true)
    (hwvis : view.snapshot w.2 = true) : v = w := by
  obtain ⟨page, hpage, hvmem, hvblk⟩ := Heap.mem_hotChain hv
  obtain ⟨page', hpage', hwmem, hwblk⟩ := Heap.mem_hotChain hw
  obtain rfl := Option.some.inj (hpage.symm.trans hpage')
  have heq := view.unique page (List.mem_of_getElem? hpage) _ _ hvmem _ hwmem hvis hwvis
  rw [Prod.mk.injEq] at heq
  ext1
  · exact ItemPointer.ext (hvblk.trans hwblk.symm) heq.1
  · exact heq.2

/-- The executor's fetch finds the visible version of the chain. -/
theorem HeapView.indexFetchHeap_eq_some {pg : HeapAm} {v : ItemPointer × HeapTuple} :
    pg.indexFetchHeap view.heap view.snapshot tid = some v ↔
      v ∈ view.heap.hotChain tid ∧ view.snapshot v.2 = true := by
  rw [pg.indexFetchHeap_eq]
  constructor
  · intro hfind
    have hvis := List.find?_some hfind
    exact ⟨List.mem_of_find?_eq_some hfind, hvis⟩
  · rintro ⟨hmem, hvis⟩
    cases hfind : (view.heap.hotChain tid).find? (fun v => view.snapshot v.2) with
    | none => exact absurd hvis (List.find?_eq_none.mp hfind v hmem)
    | some w =>
      have hwvis := List.find?_some hfind
      rw [HeapView.eq_of_visible hmem (List.mem_of_find?_eq_some hfind) hvis hwvis]

/-- `heap_fetch` finds a visible tuple at the TID itself. -/
theorem HeapView.heapFetch_eq_some {pg : HeapAm} :
    pg.heapFetch view.heap view.snapshot tid = some t ↔
      view.heap.tupleAt tid = some t ∧ view.snapshot t = true := by
  rw [pg.heapFetch_eq, Option.filter_eq_some_iff]

/-- The root map leads from a version of a chain to the chain's root. -/
theorem HeapView.heapGetRootTuples_eq {pg : HeapAm} {page : HeapPage} {v : ItemPointer × HeapTuple}
    (hpage : view.heap.page tid = some page) (hv : v ∈ view.heap.hotChain tid) :
    pg.heapGetRootTuples page v.1.posid = some tid.posid := by
  obtain ⟨page', hpage', hmem, -⟩ := Heap.mem_hotChain hv
  obtain rfl := Option.some.inj (hpage.symm.trans hpage')
  cases hroot : pg.heapGetRootTuples page v.1.posid with
  | none => exact absurd hroot (pg.heapGetRootTuples_complete page _ _ hmem)
  | some root =>
    obtain ⟨w, hw, hoff⟩ := pg.heapGetRootTuples_sound page _ _ hroot
    rw [view.apart page (List.mem_of_getElem? hpage) root w hw _ _ hmem hoff]

end

/-! ## A reference heap -/

/-- The TIDs of the line pointers of a heap, page by page. -/
def Heap.tids (heap : Heap) : List ItemPointer :=
  (List.range heap.pages.length).flatMap fun blk =>
    (List.range' 1 (heap.pages[blk]?.elim 0 (·.items.length))).map fun off =>
      ⟨blk % 2 ^ 32, off % 2 ^ 16, blkid_mod_lt blk, posid_mod_lt off⟩

/-- Every line pointer is listed once. -/
theorem Heap.nodup_tids (heap : Heap) : heap.tids.Nodup := by
  have hblk {blk : ℕ} (h : blk ∈ List.range heap.pages.length) : blk % 2 ^ 32 = blk :=
    Nat.mod_eq_of_lt (lt_trans (List.mem_range.mp h) heap.fits)
  unfold tids
  rw [List.nodup_flatMap]
  constructor
  · intro blk _
    refine List.Nodup.map_on ?_ List.nodup_range'
    intro off hoff off' hoff' heq
    have hsmall (o : ℕ) (ho : o ∈ List.range' 1 (heap.pages[blk]?.elim 0 (·.items.length))) :
        o % 2 ^ 16 = o := by
      have hle : heap.pages[blk]?.elim 0 (·.items.length) ≤ maxHeapTuplesPerPage := by
        cases heap.pages[blk]? with
        | none => exact Nat.zero_le _
        | some page => exact page.fits
      have hlt := (List.mem_range'_1.mp ho).2
      refine Nat.mod_eq_of_lt (lt_of_lt_of_le hlt ?_)
      exact (Nat.add_le_add_left hle 1).trans (by decide)
    have hpos := congrArg ItemPointer.posid heq
    dsimp only at hpos
    rwa [hsmall off hoff, hsmall off' hoff'] at hpos
  · refine List.Pairwise.imp_of_mem ?_ List.nodup_range
    intro blk blk' hmem hmem' hne tid htid htid'
    obtain ⟨off, -, rfl⟩ := List.mem_map.mp htid
    obtain ⟨off', -, heq⟩ := List.mem_map.mp htid'
    have hb := congrArg ItemPointer.blkid heq
    dsimp only at hb
    rw [hblk hmem, hblk hmem'] at hb
    exact hne hb.symm

/-- Tuples stand at listed line pointers. -/
theorem Heap.mem_tids {heap : Heap} {tid : ItemPointer} {t : HeapTuple}
    (h : heap.tupleAt tid = some t) : tid ∈ heap.tids := by
  obtain ⟨page, hpage, htuple⟩ := tupleAt_eq_some.mp h
  have hblk : tid.blkid < heap.pages.length := (List.getElem?_eq_some_iff.mp hpage).1
  have hoff : 0 < tid.posid ∧ tid.posid ≤ page.items.length := by
    refine ⟨(HeapPage.tuple_bounds htuple).1, ?_⟩
    by_contra hbeyond
    have hnone : page.items[tid.posid - 1]? = none := List.getElem?_eq_none (by omega)
    simp [HeapPage.tuple, HeapPage.item, hnone] at htuple
  refine List.mem_flatMap.mpr ⟨tid.blkid, List.mem_range.mpr hblk, List.mem_map.mpr
    ⟨tid.posid, List.mem_range'_1.mpr ⟨hoff.1, ?_⟩, ?_⟩⟩
  · rw [Heap.page] at hpage
    rw [hpage, Option.elim_some]
    omega
  · ext
    · exact Nat.mod_eq_of_lt tid.blkidLt
    · exact Nat.mod_eq_of_lt tid.posidLt

/-- The functions of the heap, computed as they are documented. -/
def HeapAm.reference : HeapAm where
  heapFetch := fun heap snapshot tid => (heap.tupleAt tid).filter snapshot
  heapScan := fun heap snapshot =>
    heap.tids.filterMap fun tid => ((heap.tupleAt tid).filter snapshot).map fun t => (tid, t)
  heapGetRootTuples := fun page off =>
    (List.range' 1 page.items.length).find? fun root => (page.hotChain root).any fun v => v.1 = off
  indexFetchHeap := fun heap snapshot tid =>
    (heap.hotChain tid).find? fun v => snapshot v.2
  heapGetattr := fun t attno =>
    if attno = 0 then .error ⟨"invalid attnum: 0"⟩ else .ok (t.attrs[attno - 1]?).join
  heapFetch_eq := fun _ _ _ => rfl
  heapScan_nodup := fun heap snapshot => by
    rw [List.map_filterMap]
    refine List.Nodup.filterMap ?_ heap.nodup_tids
    intro tid tid' x hx hx'
    simp only [Option.mem_def, Option.map_map, Option.map_eq_some_iff, Function.comp_apply] at hx hx'
    obtain ⟨-, -, rfl⟩ := hx
    obtain ⟨-, -, rfl⟩ := hx'
    rfl
  mem_heapScan := fun heap snapshot tid t => by
    simp only [List.mem_filterMap, Option.map_eq_some_iff, Prod.mk.injEq,
      Option.filter_eq_some_iff]
    constructor
    · rintro ⟨tid', -, t', ht', rfl, rfl⟩
      exact ht'
    · intro ht
      exact ⟨tid, Heap.mem_tids ht.1, t, ht, rfl, rfl⟩
  heapGetRootTuples_sound := fun page off root h => by
    simpa using List.find?_some h
  heapGetRootTuples_complete := fun page root v hv hnone => by
    have hbounds := HeapPage.root_bounds hv
    have hmem : root ∈ List.range' 1 page.items.length := by
      rw [List.mem_range'_1]
      omega
    have hno := List.find?_eq_none.mp hnone root hmem
    simp only [List.any_eq_true, decide_eq_true_eq, not_exists, not_and] at hno
    exact hno v hv rfl
  indexFetchHeap_eq := fun _ _ _ => rfl
  heapGetattr_column := fun t attno hpos => if_neg hpos.ne'
  heapGetattr_zero := fun _ => ⟨_, rfl⟩

end PgTre
