import PgTre.Util.LinkedChain
import PgTre.Pages.TidPacking

/-!
# The pending list

Inserts append their entries to a chain of pages whose head, tail and number of entries stand on
the meta page. A merge takes the entries that are there when it begins: it notes the tail page and
how many entries the page has, reads the list up to this watermark, builds its tree, and then
removes what it read. Inserts go on meanwhile. Merges exclude each other by the merge lock.

Every entry that was appended is consumed by one merge or is in the list, and never both.
-/

namespace PgTre

/-! ## The list -/

/-- `pending_capacity` for pages of 8192 bytes: the page header takes 24 of them, the header of the
pending page 16 and the opaque area 8, and an entry has 24. -/
def pendingCapacity : ℕ := (8192 - 24 - 16 - 8) / 24

/-- `PG_TRE_PENDING_BATCH_MAX`. -/
def pendingBatchMax : ℕ := 256

/-- A page of the list. -/
structure PendingPage where
  nextPage : Option BlockNumber
  entries : List PgTrePendingEntry

/-- The pages of the index that hold pending entries, and the fields of the meta page. -/
structure PendingList where
  pages : BlockNumber → PendingPage
  pendingHead : Option BlockNumber
  pendingTail : Option BlockNumber
  pendingNEntries : ℕ

/-- The link of a page. -/
def PendingList.next (l : PendingList) (b : BlockNumber) : Option BlockNumber :=
  (l.pages b).nextPage

/-- The entries on some pages. -/
def PendingList.entriesOn (l : PendingList) (blocks : List BlockNumber) : List PgTrePendingEntry :=
  blocks.flatMap fun b => (l.pages b).entries

/-- `acquire_tail`, with what its caller then writes: the list and the page to append to. The block
`new` is used when there is no tail or it is full. -/
def acquireTail (l : PendingList) (new : BlockNumber) : PendingList × BlockNumber :=
  match l.pendingTail with
  | none =>
      ({ l with
          pages := Function.update l.pages new ⟨none, []⟩
          pendingHead := some new
          pendingTail := some new }, new)
  | some t =>
      if pendingCapacity ≤ (l.pages t).entries.length then
        ({ l with
            pages := Function.update (Function.update l.pages new ⟨none, []⟩) t
              { l.pages t with nextPage := some new }
            pendingTail := some new }, new)
      else (l, t)

/-- The number of entries a turn of `pg_tre_pending_append_batch` takes. -/
def appendTake (l : PendingList) (new : BlockNumber) (batch : List PgTrePendingEntry) : ℕ :=
  let acquired := acquireTail l new
  min batch.length (pendingCapacity - (acquired.1.pages acquired.2).entries.length)

/-- One turn of the loop of `pg_tre_pending_append_batch`. -/
def appendTurn (l : PendingList) (new : BlockNumber) (batch : List PgTrePendingEntry) :
    PendingList :=
  let acquired := acquireTail l new
  let page := acquired.1.pages acquired.2
  { acquired.1 with
    pages := Function.update acquired.1.pages acquired.2
      { page with entries := page.entries ++ batch.take (appendTake l new batch) }
    pendingNEntries := acquired.1.pendingNEntries + appendTake l new batch }

/-- The loop of `finalize_merge` over the pages after the watermark tail, which counts their
entries. -/
inductive Tally (l : PendingList) : Option BlockNumber → ℕ → Prop
  | done : Tally l none 0
  | page (b : BlockNumber) (n : ℕ) (h : Tally l (l.next b) n) :
      Tally l (some b) ((l.pages b).entries.length + n)

/-- `rewind_tail`: something was appended after the watermark. -/
def rewindTail (l : PendingList) (wmTail : BlockNumber) (wmTailN : ℕ) : Bool :=
  decide (wmTailN < (l.pages wmTail).entries.length) || (l.next wmTail).isSome ||
    decide (l.pendingTail ≠ some wmTail)

/-- `finalize_merge` on the list: the list afterwards, the number of entries that were consumed,
and the watermark tail if it is to be freed. The survivors of the watermark tail move to the front
of the page, which becomes the head; `trailing` is the number of entries after it. -/
def finalizeList (l : PendingList) (wmTail : Option BlockNumber) (wmTailN trailing : ℕ) :
    PendingList × ℕ × List BlockNumber :=
  match wmTail with
  | some t =>
      if rewindTail l t wmTailN then
        let page := l.pages t
        let surviving := page.entries.length - wmTailN + trailing
        ({ l with
            pages := Function.update l.pages t { page with entries := page.entries.drop wmTailN }
            pendingHead := some t
            pendingNEntries := surviving }, l.pendingNEntries - surviving, [])
      else ({ l with pendingHead := none, pendingTail := none, pendingNEntries := 0 },
        l.pendingNEntries, [t])
  | none => ({ l with pendingHead := none, pendingTail := none, pendingNEntries := 0 },
      l.pendingNEntries, [])

/-! ## Inserts and merges -/

/-- Where the merge is, if there is one. -/
inductive MergePhase where
  | idle
  /-- The lock is taken and the list was found not to be empty. -/
  | locked
  /-- `pg_tre_pending_scan_watermark` has read the meta page. -/
  | metaRead (head wmTail : Option BlockNumber)
  /-- It is about to read page `blk`. -/
  | walking (blk : BlockNumber) (wmTail : Option BlockNumber) (wmTailN : ℕ)
      (collected : List PgTrePendingEntry) (consumedPages : List BlockNumber)
  /-- The scan is over and the tree is being built. -/
  | building (wmTail : Option BlockNumber) (wmTailN : ℕ) (collected : List PgTrePendingEntry)
      (consumedPages : List BlockNumber)
  /-- `finalize_merge` has written its record, and these pages go to the free log. -/
  | freeing (pages : List BlockNumber)

/-- The pending list with all that goes on around it. -/
structure PendingState where
  list : PendingList
  /-- What each backend has still to append of its batch. -/
  batches : ℕ → List PgTrePendingEntry
  merge : MergePhase
  /-- The pages that `pg_tre_extend` does not give out. -/
  allocated : List BlockNumber
  freeLog : List BlockNumber
  /-- All entries ever appended, in order. -/
  appended : List PgTrePendingEntry
  /-- The entries each merge consumed. -/
  consumed : List (List PgTrePendingEntry)

/-- The scan's next phase after it has read page `blk`. On the watermark tail it takes the noted
number of entries and stops. -/
def scanPage (l : PendingList) (blk : BlockNumber) (wmTail : Option BlockNumber) (wmTailN : ℕ)
    (collected : List PgTrePendingEntry) (consumedPages : List BlockNumber) : MergePhase :=
  if some blk = wmTail then
    .building wmTail wmTailN (collected ++ (l.pages blk).entries.take wmTailN) consumedPages
  else
    match l.next blk with
    | some b => .walking b wmTail wmTailN (collected ++ (l.pages blk).entries) (consumedPages ++ [blk])
    | none => .building wmTail wmTailN (collected ++ (l.pages blk).entries) (consumedPages ++ [blk])

/-- A step of an insert, of the merge or of VACUUM's recycling. Each one is done under the locks of
the pages it touches. -/
inductive PendingStep : PendingState → PendingState → Prop
  /-- A backend begins a batch. -/
  | begin_batch (s : PendingState) (backend : ℕ) (batch : List PgTrePendingEntry)
      (hidle : s.batches backend = []) (hmax : batch.length ≤ pendingBatchMax) :
      PendingStep s { s with batches := Function.update s.batches backend batch }
  /-- A backend appends what the tail page has room for. -/
  | append (s : PendingState) (backend : ℕ) (new : BlockNumber)
      (hbatch : s.batches backend ≠ []) (hnew : new ∉ s.allocated) :
      PendingStep s { s with
        list := appendTurn s.list new (s.batches backend)
        batches := Function.update s.batches backend
          ((s.batches backend).drop (appendTake s.list new (s.batches backend)))
        allocated := if (acquireTail s.list new).2 = new then new :: s.allocated else s.allocated
        appended := s.appended ++
          (s.batches backend).take (appendTake s.list new (s.batches backend)) }
  | begin_merge (s : PendingState) (hidle : s.merge = .idle) (hlist : s.list.pendingHead ≠ none) :
      PendingStep s { s with merge := .locked }
  | read_meta (s : PendingState) (h : s.merge = .locked) :
      PendingStep s { s with merge := .metaRead s.list.pendingHead s.list.pendingTail }
  /-- The list was empty after all. -/
  | read_empty (s : PendingState) (wmTail : Option BlockNumber)
      (h : s.merge = .metaRead none wmTail) :
      PendingStep s { s with merge := .building none 0 [] [] }
  /-- The number of entries on the watermark tail is noted. -/
  | read_tail (s : PendingState) (head wmTail : BlockNumber)
      (h : s.merge = .metaRead (some head) (some wmTail)) :
      PendingStep s { s with
        merge := .walking head (some wmTail) (s.list.pages wmTail).entries.length [] [] }
  | read_page (s : PendingState) (blk : BlockNumber) (wmTail : Option BlockNumber) (wmTailN : ℕ)
      (collected : List PgTrePendingEntry) (consumedPages : List BlockNumber)
      (h : s.merge = .walking blk wmTail wmTailN collected consumedPages) :
      PendingStep s { s with merge := scanPage s.list blk wmTail wmTailN collected consumedPages }
  | finalize (s : PendingState) (wmTail : Option BlockNumber) (wmTailN trailing : ℕ)
      (collected : List PgTrePendingEntry) (consumedPages : List BlockNumber)
      (h : s.merge = .building wmTail wmTailN collected consumedPages)
      (htally : ∀ t, wmTail = some t → Tally s.list (s.list.next t) trailing) :
      PendingStep s { s with
        list := (finalizeList s.list wmTail wmTailN trailing).1
        merge := .freeing (consumedPages ++ (finalizeList s.list wmTail wmTailN trailing).2.2)
        consumed := s.consumed ++ [collected] }
  /-- A page goes to the free log. -/
  | free (s : PendingState) (b : BlockNumber) (pages : List BlockNumber)
      (h : s.merge = .freeing (b :: pages)) :
      PendingStep s { s with merge := .freeing pages, freeLog := s.freeLog ++ [b] }
  /-- The merge returns, or an error ends it. -/
  | end_merge (s : PendingState) : PendingStep s { s with merge := .idle }
  /-- A page of the free log may be given out again. -/
  | recycle (s : PendingState) (b : BlockNumber) (hb : b ∈ s.freeLog) :
      PendingStep s { s with
        freeLog := s.freeLog.erase b
        allocated := s.allocated.filter (fun a => decide (a ≠ b)) }

/-- The list of an index that was just built. -/
def PendingState.initial (pages : BlockNumber → PendingPage) : PendingState where
  list := ⟨pages, none, none, 0⟩
  batches := fun _ => []
  merge := .idle
  allocated := []
  freeLog := []
  appended := []
  consumed := []

/-! ## The invariant -/

/-- The blocks are the chain from the head to the tail, and the counter is right. -/
structure PendingList.Chain (l : PendingList) (blocks : List BlockNumber) : Prop where
  linked : ChainFrom l.next l.pendingHead blocks
  nodup : blocks.Nodup
  tail : l.pendingTail = blocks.getLast?
  count : l.pendingNEntries = (l.entriesOn blocks).length

/-- What the merge knows about the list. -/
def MergePhase.Agrees (l : PendingList) (blocks : List BlockNumber) : MergePhase → Prop
  | idle => True
  | locked => blocks ≠ []
  | metaRead head wmTail => head = blocks.head? ∧ ∃ t ∈ blocks, wmTail = some t
  | walking blk wmTail wmTailN collected consumedPages =>
      ∃ rest, blocks = consumedPages ++ blk :: rest ∧ collected = l.entriesOn consumedPages ∧
        ∃ t ∈ blk :: rest, wmTail = some t ∧ wmTailN ≤ (l.pages t).entries.length
  | building wmTail wmTailN collected consumedPages =>
      ∃ t rest, wmTail = some t ∧ blocks = consumedPages ++ t :: rest ∧
        collected = l.entriesOn consumedPages ++ (l.pages t).entries.take wmTailN ∧
        wmTailN ≤ (l.pages t).entries.length
  | freeing _ => True

/-- The pages the merge took out of the list and has not logged. -/
def MergePhase.dropped : MergePhase → List BlockNumber
  | freeing pages => pages
  | _ => []

/-- The invariant of the list, for the blocks of its chain. -/
structure PendingState.WfOn (s : PendingState) (blocks : List BlockNumber) : Prop where
  chain : s.list.Chain blocks
  history : s.appended = s.consumed.flatten ++ s.list.entriesOn blocks
  merge : s.merge.Agrees s.list blocks
  /-- Pages of the chain, pages to be logged and logged pages are distinct and allocated. -/
  distinct : (blocks ++ s.merge.dropped ++ s.freeLog).Nodup
  alloc : ∀ b ∈ blocks ++ s.merge.dropped ++ s.freeLog, b ∈ s.allocated

/-! ## Appending -/

/-- The entries of two stretches are those of the first and those of the second. -/
theorem PendingList.entriesOn_append (l : PendingList) (xs ys : List BlockNumber) :
    l.entriesOn (xs ++ ys) = l.entriesOn xs ++ l.entriesOn ys :=
  List.flatMap_append

/-- Entries on pages that are left as they are. -/
theorem PendingList.entriesOn_congr {l l' : PendingList} {blocks : List BlockNumber}
    (h : ∀ b ∈ blocks, (l'.pages b).entries = (l.pages b).entries) :
    l'.entriesOn blocks = l.entriesOn blocks :=
  List.flatMap_congr h

/-- The list grew at its end. -/
structure PendingList.Grows (l l' : PendingList) (blocks blocks' : List BlockNumber) : Prop where
  chain : blocks <+: blocks'
  entries : ∀ b ∈ blocks, (l.pages b).entries <+: (l'.pages b).entries
  fixed : ∀ b ∈ blocks.dropLast, (l'.pages b).entries = (l.pages b).entries

/-- The pages before a page of the chain keep their entries when the list grows. -/
theorem PendingList.Grows.entriesOn_eq {l l' : PendingList}
    {blocks' done rest : List BlockNumber} {b : BlockNumber}
    (h : l.Grows l' (done ++ b :: rest) blocks') : l'.entriesOn done = l.entriesOn done := by
  refine PendingList.entriesOn_congr fun x hx => h.fixed x ?_
  rw [List.dropLast_append_cons]
  exact List.mem_append_left _ hx

/-- What the merge knows stays true when the list grows. -/
theorem MergePhase.Agrees.grows {l l' : PendingList} {blocks blocks' : List BlockNumber}
    {merge : MergePhase} (h : merge.Agrees l blocks) (hgrows : l.Grows l' blocks blocks') :
    merge.Agrees l' blocks' := by
  obtain ⟨more, rfl⟩ := hgrows.chain
  cases merge with
  | idle => trivial
  | locked => exact List.append_ne_nil_of_left_ne_nil h more
  | metaRead head wmTail =>
    obtain ⟨rfl, t, ht, rfl⟩ := h
    refine ⟨?_, t, List.mem_append_left _ ht, rfl⟩
    cases blocks with
    | nil => cases ht
    | cons b blocks => rfl
  | walking blk wmTail wmTailN collected consumedPages =>
    obtain ⟨rest, rfl, rfl, t, ht, rfl, hle⟩ := h
    have hmem : t ∈ consumedPages ++ blk :: rest := List.mem_append_right _ ht
    refine ⟨rest ++ more, by simp, hgrows.entriesOn_eq.symm, t, ?_, rfl, ?_⟩
    · rw [← List.cons_append]
      exact List.mem_append_left _ ht
    · exact hle.trans (hgrows.entries t hmem).length_le
  | building wmTail wmTailN collected consumedPages =>
    obtain ⟨t, rest, rfl, rfl, rfl, hle⟩ := h
    obtain ⟨add, hadd⟩ := hgrows.entries t (List.mem_append_right _ List.mem_cons_self)
    refine ⟨t, rest ++ more, rfl, by simp, ?_, ?_⟩
    · rw [hgrows.entriesOn_eq, ← hadd, List.take_append_of_le_length hle]
    · rw [← hadd, List.length_append]
      omega
  | freeing pages => trivial

/-- The list with the pages and the fields that a turn of an append leaves: on an empty list, on
one whose tail is full, and on one whose tail has room. -/
theorem appendTurn_cases {l : PendingList} {new : BlockNumber} (hnew : l.pendingTail ≠ some new)
    (batch : List PgTrePendingEntry) :
    (l.pendingTail = none ∧ (acquireTail l new).2 = new ∧
      appendTurn l new batch =
        ⟨Function.update l.pages new ⟨none, batch.take (appendTake l new batch)⟩, some new,
          some new, l.pendingNEntries + appendTake l new batch⟩) ∨
    (∃ t, l.pendingTail = some t ∧ (acquireTail l new).2 = new ∧
      appendTurn l new batch =
        ⟨Function.update (Function.update l.pages t { l.pages t with nextPage := some new }) new
          ⟨none, batch.take (appendTake l new batch)⟩, l.pendingHead, some new,
          l.pendingNEntries + appendTake l new batch⟩) ∨
    ∃ t, l.pendingTail = some t ∧ (acquireTail l new).2 = t ∧
      appendTurn l new batch =
        ⟨Function.update l.pages t { l.pages t with
            entries := (l.pages t).entries ++ batch.take (appendTake l new batch) },
          l.pendingHead, some t, l.pendingNEntries + appendTake l new batch⟩ := by
  generalize hk : appendTake l new batch = k
  unfold appendTurn
  rw [hk]
  cases htail : l.pendingTail with
  | none =>
    left
    refine ⟨rfl, ?_, ?_⟩
    · simp [acquireTail, htail]
    · simp [acquireTail, htail]
  | some t =>
    have hne : new ≠ t := fun heq => hnew (heq ▸ htail)
    by_cases hfull : pendingCapacity ≤ (l.pages t).entries.length
    · refine Or.inr (Or.inl ⟨t, rfl, ?_, ?_⟩)
      · simp [acquireTail, htail, hfull]
      · simp [acquireTail, htail, hfull, Function.update_comm hne]
    · refine Or.inr (Or.inr ⟨t, rfl, ?_, ?_⟩)
      · simp [acquireTail, htail, hfull]
      · simp [acquireTail, htail, hfull]

/-- It takes no more than the batch has. -/
theorem length_take_appendTake (l : PendingList) (new : BlockNumber)
    (batch : List PgTrePendingEntry) :
    (batch.take (appendTake l new batch)).length = appendTake l new batch := by
  rw [List.length_take]
  exact Nat.min_eq_left (Nat.min_le_left _ _)

/-- A page linked behind the last one. -/
theorem PendingList.Chain.push {l l' : PendingList} {blocks : List BlockNumber}
    {new : BlockNumber} {taken : List PgTrePendingEntry} (h : l.Chain blocks) (hnew : new ∉ blocks)
    (hpage : l'.pages new = ⟨none, taken⟩)
    (hentries : ∀ b ∈ blocks, (l'.pages b).entries = (l.pages b).entries)
    (hlinks : ∀ b ∈ blocks.dropLast, l'.next b = l.next b)
    (hlast : ∀ t ∈ blocks.getLast?, l'.next t = some new)
    (hhead : l'.pendingHead = (blocks ++ [new]).head?) (htail : l'.pendingTail = some new)
    (hcount : l'.pendingNEntries = l.pendingNEntries + taken.length) :
    l'.Chain (blocks ++ [new]) ∧ l.Grows l' blocks (blocks ++ [new]) ∧
      l'.entriesOn (blocks ++ [new]) = l.entriesOn blocks ++ taken := by
  have hnext : l'.next new = none := by rw [PendingList.next, hpage]
  have hon : l'.entriesOn (blocks ++ [new]) = l.entriesOn blocks ++ taken := by
    rw [PendingList.entriesOn_append, PendingList.entriesOn_congr hentries]
    simp [PendingList.entriesOn, hpage]
  refine ⟨⟨?_, ?_, ?_, ?_⟩, ⟨List.prefix_append _ _, fun b hb => ?_, fun b hb => ?_⟩, hon⟩
  · rcases List.eq_nil_or_concat blocks with rfl | ⟨pre, t, hpre⟩
    · exact ⟨hhead, hnext⟩
    · rw [List.concat_eq_append] at hpre
      subst hpre
      have hstart : l'.pendingHead = l.pendingHead := by
        rw [hhead, h.linked.head?_eq, List.head?_append_of_ne_nil _ (by simp)]
      rw [hstart, List.append_assoc]
      refine h.linked.concat (fun z hz => hlinks z ?_) (hlast t (by simp)) hnext
      rwa [List.dropLast_concat]
  · exact List.Nodup.append h.nodup (List.nodup_singleton new) (by simpa using hnew)
  · rw [htail, List.getLast?_concat]
  · rw [hon, hcount, h.count, List.length_append]
  · exact (hentries b hb).symm ▸ List.prefix_rfl
  · exact hentries b (List.mem_of_mem_dropLast hb)

/-- Entries added to the last page. -/
theorem PendingList.Chain.fill {l l' : PendingList} {pre : List BlockNumber} {t : BlockNumber}
    {taken : List PgTrePendingEntry} (h : l.Chain (pre ++ [t]))
    (hpage : (l'.pages t).entries = (l.pages t).entries ++ taken)
    (hentries : ∀ b ∈ pre, (l'.pages b).entries = (l.pages b).entries)
    (hlinks : l'.next = l.next) (hhead : l'.pendingHead = l.pendingHead)
    (htail : l'.pendingTail = l.pendingTail)
    (hcount : l'.pendingNEntries = l.pendingNEntries + taken.length) :
    l'.Chain (pre ++ [t]) ∧ l.Grows l' (pre ++ [t]) (pre ++ [t]) ∧
      l'.entriesOn (pre ++ [t]) = l.entriesOn (pre ++ [t]) ++ taken := by
  have hon : l'.entriesOn (pre ++ [t]) = l.entriesOn (pre ++ [t]) ++ taken := by
    rw [PendingList.entriesOn_append, PendingList.entriesOn_append,
      PendingList.entriesOn_congr hentries]
    simp [PendingList.entriesOn, hpage]
  refine ⟨⟨?_, h.nodup, ?_, ?_⟩, ⟨List.prefix_rfl, fun b hb => ?_, fun b hb => ?_⟩, hon⟩
  · rw [hlinks, hhead]
    exact h.linked
  · rw [htail, h.tail]
  · rw [hon, hcount, h.count, List.length_append]
  · rcases List.mem_append.mp hb with hb | hb
    · exact (hentries b hb).symm ▸ List.prefix_rfl
    · rw [List.mem_singleton.mp hb, hpage]
      exact List.prefix_append _ _
  · rw [List.dropLast_concat] at hb
    exact hentries b hb

/-- A turn of an append adds what it takes to the end of the list. -/
theorem appendTurn_spec {l : PendingList} {blocks : List BlockNumber} (h : l.Chain blocks)
    {new : BlockNumber} (hnew : new ∉ blocks) (batch : List PgTrePendingEntry) :
    ∃ blocks', (blocks' = blocks ∧ (acquireTail l new).2 ≠ new ∨
        blocks' = blocks ++ [new] ∧ (acquireTail l new).2 = new) ∧
      (appendTurn l new batch).Chain blocks' ∧ l.Grows (appendTurn l new batch) blocks blocks' ∧
      (appendTurn l new batch).entriesOn blocks' =
        l.entriesOn blocks ++ batch.take (appendTake l new batch) := by
  have hlen := length_take_appendTake l new batch
  have hnotTail : l.pendingTail ≠ some new := by
    rw [h.tail]
    exact fun heq => hnew (List.mem_of_getLast? heq)
  have hne : ∀ b ∈ blocks, b ≠ new := fun b hb heq => hnew (heq ▸ hb)
  rcases appendTurn_cases hnotTail batch with
    ⟨htail, hacq, heq⟩ | ⟨t, htail, hacq, heq⟩ | ⟨t, htail, hacq, heq⟩
  · obtain rfl : blocks = [] := List.getLast?_eq_none_iff.mp (h.tail.symm.trans htail)
    refine ⟨_, Or.inr ⟨rfl, hacq⟩, ?_⟩
    refine h.push hnew ?_ nofun nofun nofun ?_ ?_ ?_
    · rw [heq]
      exact Function.update_self _ _ _
    · rw [heq]
      rfl
    · rw [heq]
    · rw [heq, hlen]
  · refine ⟨_, Or.inr ⟨rfl, hacq⟩, ?_⟩
    obtain ⟨pre, rfl⟩ := List.getLast?_eq_some_iff.mp (h.tail.symm.trans htail)
    have ht : t ∉ pre := by
      have hnodup := h.nodup
      rw [List.nodup_append] at hnodup
      exact fun hmem => hnodup.2.2 t hmem t (by simp) rfl
    refine h.push hnew ?_ (fun b hb => ?_) (fun b hb => ?_) (fun b hb => ?_) ?_ ?_ ?_
    · rw [heq]
      exact Function.update_self _ _ _
    · rw [heq]
      dsimp only
      rw [Function.update_of_ne (hne b hb)]
      by_cases hbt : b = t
      · rw [hbt, Function.update_self]
      · rw [Function.update_of_ne hbt]
    · rw [List.dropLast_concat] at hb
      have hbt : b ≠ t := by
        rintro rfl
        exact ht hb
      rw [heq, PendingList.next, PendingList.next]
      dsimp only
      rw [Function.update_of_ne (hne b (List.mem_append_left _ hb)), Function.update_of_ne hbt]
    · obtain rfl : t = b := by simpa using hb
      rw [heq, PendingList.next]
      dsimp only
      rw [Function.update_of_ne (hne t (by simp)), Function.update_self]
    · rw [heq]
      dsimp only
      rw [h.linked.head?_eq]
      exact (List.head?_append_of_ne_nil (pre ++ [t]) (by simp)).symm
    · rw [heq]
    · rw [heq, hlen]
  · obtain ⟨pre, rfl⟩ := List.getLast?_eq_some_iff.mp (h.tail.symm.trans htail)
    have ht : t ∉ pre := by
      have hnodup := h.nodup
      rw [List.nodup_append] at hnodup
      exact fun hmem => hnodup.2.2 t hmem t (by simp) rfl
    refine ⟨_, Or.inl ⟨rfl, ?_⟩, ?_⟩
    · rw [hacq]
      exact hne t (by simp)
    · refine h.fill ?_ (fun b hb => ?_) ?_ ?_ ?_ ?_
      · rw [heq]
        dsimp only
        rw [Function.update_self]
      · have hbt : b ≠ t := by
          rintro rfl
          exact ht hb
        rw [heq]
        dsimp only
        rw [Function.update_of_ne hbt]
      · rw [heq]
        funext b
        by_cases hbt : b = t
        · simp [PendingList.next, hbt]
        · simp [PendingList.next, hbt]
      · rw [heq]
      · rw [heq, htail]
      · rw [heq, hlen]

/-! ## Finalizing -/

/-- The count of the trailing entries. -/
theorem Tally.eq_length {l : PendingList} {start : Option BlockNumber} {n : ℕ}
    (h : Tally l start n) {blocks : List BlockNumber} (hchain : ChainFrom l.next start blocks) :
    n = (l.entriesOn blocks).length := by
  induction h generalizing blocks with
  | done =>
    cases blocks with
    | nil => rfl
    | cons b blocks => cases hchain.1
  | page b n htally ih =>
    cases blocks with
    | nil => cases hchain
    | cons b' blocks =>
      obtain rfl : b = b' := Option.some.inj hchain.1
      rw [ih hchain.2]
      simp [PendingList.entriesOn]

/-- The loop that counts them ends. -/
theorem tally_of_chainFrom {l : PendingList} {start : Option BlockNumber}
    {blocks : List BlockNumber} (h : ChainFrom l.next start blocks) :
    Tally l start (l.entriesOn blocks).length := by
  induction blocks generalizing start with
  | nil =>
    rw [show start = none from h]
    exact Tally.done
  | cons b blocks ih =>
    rw [h.1, PendingList.entriesOn, List.flatMap_cons, List.length_append]
    exact Tally.page b _ (ih h.2)

section

variable {l l' : PendingList} {done rest : List BlockNumber} {t : BlockNumber}
  {wmTailN trailing : ℕ}

/-- The list from the watermark tail on, without the noted number of entries of that page. -/
theorem rewound_spec (h : l.Chain (done ++ t :: rest))
    (htrailing : trailing = (l.entriesOn rest).length)
    (hl' : l' = { l with
      pages := Function.update l.pages t
        { l.pages t with entries := (l.pages t).entries.drop wmTailN }
      pendingHead := some t
      pendingNEntries := (l.pages t).entries.length - wmTailN + trailing }) :
    l'.Chain (t :: rest) ∧
      l'.entriesOn (t :: rest) = (l.pages t).entries.drop wmTailN ++ l.entriesOn rest ∧
      (l'.pages t).entries = (l.pages t).entries.drop wmTailN ∧
      ∀ b ∈ rest, (l'.pages b).entries = (l.pages b).entries := by
  have hnotin : t ∉ rest := (List.nodup_cons.mp h.nodup.of_append_right).1
  have hnext : l'.next = l.next := by
    funext b
    rw [hl']
    by_cases hb : b = t
    · simp [PendingList.next, hb]
    · simp [PendingList.next, hb]
  have hpage : ∀ b ∈ rest, (l'.pages b).entries = (l.pages b).entries := by
    intro b hb
    have hbt : b ≠ t := by
      rintro rfl
      exact hnotin hb
    rw [hl']
    simp [hbt]
  have htail : (l'.pages t).entries = (l.pages t).entries.drop wmTailN := by
    rw [hl']
    simp
  have hon : l'.entriesOn (t :: rest) = (l.pages t).entries.drop wmTailN ++ l.entriesOn rest := by
    rw [← PendingList.entriesOn_congr hpage, ← htail]
    rfl
  refine ⟨⟨?_, h.nodup.of_append_right, ?_, ?_⟩, hon, htail, hpage⟩
  · rw [hnext, hl']
    exact h.linked.drop
  · rw [hl']
    dsimp only
    rw [h.tail, List.getLast?_append_of_ne_nil _ (List.cons_ne_nil t rest)]
  · rw [hon, List.length_append, List.length_drop, ← htrailing, hl']

/-- Where nothing was appended behind the watermark, the whole list has been collected. -/
theorem eq_nil_of_not_rewindTail (h : l.Chain (done ++ t :: rest))
    (hrewind : ¬rewindTail l t wmTailN = true) :
    rest = [] ∧ (l.pages t).entries.take wmTailN = (l.pages t).entries := by
  simp only [rewindTail, Bool.or_eq_true, decide_eq_true_eq, not_or, Option.isSome_iff_ne_none,
    ne_eq, not_not, not_lt] at hrewind
  obtain ⟨⟨hfull, hnone⟩, -⟩ := hrewind
  have hhead := h.linked.drop.2.head?_eq
  rw [hnone] at hhead
  exact ⟨List.head?_eq_none_iff.mp hhead.symm, List.take_of_length_le hfull⟩

/-- `finalize_merge` removes the pages before the watermark tail and the noted number of entries on
it, and nothing else. It frees the tail only when the list is empty. -/
theorem finalizeList_spec (h : l.Chain (done ++ t :: rest))
    (hle : wmTailN ≤ (l.pages t).entries.length) (htally : Tally l (l.next t) trailing) :
    ∃ blocks', (finalizeList l (some t) wmTailN trailing).1.Chain blocks' ∧
      l.entriesOn (done ++ t :: rest) = (l.entriesOn done ++ (l.pages t).entries.take wmTailN) ++
        (finalizeList l (some t) wmTailN trailing).1.entriesOn blocks' ∧
      (finalizeList l (some t) wmTailN trailing).2.1 =
        (l.entriesOn done ++ (l.pages t).entries.take wmTailN).length ∧
      (finalizeList l (some t) wmTailN trailing).2.2 ++ blocks' = t :: rest ∧
      ∀ b ∈ done ++ t :: rest, ∀ e ∈ (l.pages b).entries,
        b ∈ blocks' ∧ e ∈ ((finalizeList l (some t) wmTailN trailing).1.pages b).entries ∨
          e ∈ l.entriesOn done ++ (l.pages t).entries.take wmTailN := by
  have htrailing := htally.eq_length h.linked.drop.2
  have hall : l.entriesOn (done ++ t :: rest) =
      l.entriesOn done ++ ((l.pages t).entries ++ l.entriesOn rest) := by
    rw [PendingList.entriesOn_append]
    rfl
  have hcount := h.count
  rw [hall, List.length_append, List.length_append] at hcount
  have hdone : ∀ b ∈ done, ∀ e ∈ (l.pages b).entries,
      e ∈ l.entriesOn done ++ (l.pages t).entries.take wmTailN :=
    fun b hb e he => List.mem_append_left _ (List.mem_flatMap.mpr ⟨b, hb, he⟩)
  by_cases hrewind : rewindTail l t wmTailN = true
  · -- The survivors of the watermark tail and the pages after it stay.
    have heq : finalizeList l (some t) wmTailN trailing =
        ({ l with
            pages := Function.update l.pages t
              { l.pages t with entries := (l.pages t).entries.drop wmTailN }
            pendingHead := some t
            pendingNEntries := (l.pages t).entries.length - wmTailN + trailing },
          l.pendingNEntries - ((l.pages t).entries.length - wmTailN + trailing), []) := by
      simp [finalizeList, hrewind]
    obtain ⟨hchain, hon, htail, hpage⟩ :=
      rewound_spec h htrailing (congrArg Prod.fst heq)
    refine ⟨t :: rest, hchain, ?_, ?_, ?_, fun b hb e he => ?_⟩
    · rw [hall, hon, List.append_assoc, ← List.append_assoc ((l.pages t).entries.take wmTailN),
        List.take_append_drop]
    · rw [heq]
      dsimp only
      rw [List.length_append, List.length_take]
      omega
    · rw [heq]
      rfl
    · rcases List.mem_append.mp hb with hb | hb
      · exact Or.inr (hdone b hb e he)
      · rcases List.mem_cons.mp hb with rfl | hb
        · rw [← List.take_append_drop wmTailN (l.pages b).entries] at he
          rcases List.mem_append.mp he with he | he
          · exact Or.inr (List.mem_append_right _ he)
          · exact Or.inl ⟨List.mem_cons_self, htail ▸ he⟩
        · exact Or.inl ⟨List.mem_cons_of_mem _ hb, (hpage b hb).symm ▸ he⟩
  · -- Nothing was appended after the watermark.
    have heq : finalizeList l (some t) wmTailN trailing =
        ({ l with pendingHead := none, pendingTail := none, pendingNEntries := 0 },
          l.pendingNEntries, [t]) := by
      simp [finalizeList, hrewind]
    obtain ⟨rfl, htake⟩ := eq_nil_of_not_rewindTail h hrewind
    rw [htake] at hdone
    rw [heq, htake, hall]
    refine ⟨[], ⟨rfl, List.nodup_nil, rfl, rfl⟩, ?_, ?_, rfl, fun b hb e he => Or.inr ?_⟩
    · simp [PendingList.entriesOn]
    · rw [hcount, List.length_append]
      simp [PendingList.entriesOn]
    · rcases List.mem_append.mp hb with hb | hb
      · exact hdone b hb e he
      · rw [List.mem_singleton.mp hb] at he
        exact List.mem_append_right _ he

end

/-! ## Steps and runs -/

/-- The scan takes the entries of a page and moves on. -/
theorem MergePhase.Agrees.scanPage {l : PendingList} {blocks : List BlockNumber}
    (hchain : l.Chain blocks) {blk : BlockNumber} {wmTail : Option BlockNumber} {wmTailN : ℕ}
    {collected : List PgTrePendingEntry} {consumedPages : List BlockNumber}
    (h : (MergePhase.walking blk wmTail wmTailN collected consumedPages).Agrees l blocks) :
    (PgTre.scanPage l blk wmTail wmTailN collected consumedPages).Agrees l blocks := by
  obtain ⟨rest, hblocks, rfl, t, ht, rfl, hle⟩ := h
  unfold PgTre.scanPage
  by_cases hblk : blk = t
  · subst hblk
    rw [if_pos rfl]
    exact ⟨blk, rest, rfl, hblocks, rfl, hle⟩
  · rw [if_neg fun heq => hblk (Option.some.inj heq)]
    -- The watermark tail comes later, so the page has a successor.
    have hrest : t ∈ rest := (List.mem_cons.mp ht).resolve_left fun heq => hblk heq.symm
    have hlinked := hchain.linked
    rw [hblocks] at hlinked
    have hnext := hlinked.drop.2.head?_eq
    cases rest with
    | nil => cases hrest
    | cons b rest =>
      rw [show l.next blk = some b from hnext]
      refine ⟨rest, ?_, ?_, t, hrest, rfl, hle⟩
      · rw [hblocks, List.append_assoc]
        rfl
      · rw [PendingList.entriesOn_append]
        simp [PendingList.entriesOn]

/-- A phase that drops no page says nothing about blocks but the chain's. -/
theorem PendingState.WfOn.setMerge {s : PendingState} {blocks : List BlockNumber}
    (h : s.WfOn blocks) {merge : MergePhase} (hagrees : merge.Agrees s.list blocks)
    (hdropped : merge.dropped = []) : PendingState.WfOn { s with merge := merge } blocks where
  chain := h.chain
  history := h.history
  merge := hagrees
  distinct := by
    rw [hdropped, List.append_nil]
    refine h.distinct.sublist ?_
    exact List.Sublist.append_right (List.sublist_append_left _ _) _
  alloc := by
    intro b hb
    rw [hdropped, List.append_nil] at hb
    apply h.alloc
    rcases List.mem_append.mp hb with hb | hb
    · exact List.mem_append_left _ (List.mem_append_left _ hb)
    · exact List.mem_append_right _ hb

/-- An entry on a page of the list stays on it or is consumed by a merge. -/
def PendingState.Survives (s s' : PendingState) (blocks blocks' : List BlockNumber) : Prop :=
  ∀ b ∈ blocks, ∀ e ∈ (s.list.pages b).entries,
    b ∈ blocks' ∧ e ∈ (s'.list.pages b).entries ∨
      ∃ collected, s'.consumed = s.consumed ++ [collected] ∧ e ∈ collected

/-- Where the list is left as it is, all entries stay. -/
theorem PendingState.survives_self {s s' : PendingState} (h : s'.list = s.list)
    (blocks : List BlockNumber) : s.Survives s' blocks blocks := by
  intro b hb e he
  rw [h]
  exact Or.inl ⟨hb, he⟩

section

variable {s s' : PendingState} {blocks : List BlockNumber}

/-- An append takes what is left of the tail page, or a page of its own. -/
theorem PendingState.WfOn.append (hs : s.WfOn blocks) {backend : ℕ} {new : BlockNumber}
    (hnew : new ∉ s.allocated)
    (hs' : s' = { s with
      list := appendTurn s.list new (s.batches backend)
      batches := Function.update s.batches backend
        ((s.batches backend).drop (appendTake s.list new (s.batches backend)))
      allocated := if (acquireTail s.list new).2 = new then new :: s.allocated else s.allocated
      appended := s.appended ++
        (s.batches backend).take (appendTake s.list new (s.batches backend)) }) :
    ∃ blocks', s'.WfOn blocks' ∧ s.Survives s' blocks blocks' := by
  subst hs'
  have hfresh : ∀ b ∈ blocks ++ s.merge.dropped ++ s.freeLog, b ≠ new := by
    rintro b hb rfl
    exact hnew (hs.alloc b hb)
  have hnotin : new ∉ blocks := by
    intro hmem
    exact hfresh new (List.mem_append_left _ (List.mem_append_left _ hmem)) rfl
  obtain ⟨blocks', hblocks', hchain, hgrows, hon⟩ :=
    appendTurn_spec hs.chain hnotin (s.batches backend)
  have hhistory : s.appended ++
        (s.batches backend).take (appendTake s.list new (s.batches backend)) =
      s.consumed.flatten ++ (appendTurn s.list new (s.batches backend)).entriesOn blocks' := by
    rw [hon, hs.history, List.append_assoc]
  have hsurvives : ∀ b ∈ blocks, ∀ e ∈ (s.list.pages b).entries,
      b ∈ blocks' ∧ e ∈ ((appendTurn s.list new (s.batches backend)).pages b).entries :=
    fun b hb e he => ⟨hgrows.chain.subset hb, (hgrows.entries b hb).subset he⟩
  rcases hblocks' with ⟨rfl, hacq⟩ | ⟨rfl, hacq⟩
  · refine ⟨blocks', ⟨hchain, hhistory, hs.merge.grows hgrows, hs.distinct, ?_⟩,
      fun b hb e he => Or.inl (hsurvives b hb e he)⟩
    rw [if_neg hacq]
    exact hs.alloc
  · refine ⟨blocks ++ [new], ⟨hchain, hhistory, hs.merge.grows hgrows, ?_, ?_⟩,
      fun b hb e he => Or.inl (hsurvives b hb e he)⟩
    · have hperm : List.Perm (blocks ++ [new] ++ s.merge.dropped ++ s.freeLog)
          (new :: (blocks ++ s.merge.dropped ++ s.freeLog)) := by
        simp only [List.append_assoc]
        exact List.perm_middle
      refine hperm.nodup_iff.mpr (List.nodup_cons.mpr ⟨fun hmem => ?_, hs.distinct⟩)
      exact hfresh new hmem rfl
    · rw [if_pos hacq]
      intro b hb
      by_cases hbn : b = new
      · exact hbn ▸ List.mem_cons_self
      · refine List.mem_cons_of_mem _ (hs.alloc b ?_)
        simpa [hbn] using hb

/-- `finalize_merge` consumes what the merge has collected, and keeps every other entry. -/
theorem PendingState.WfOn.finalize (hs : s.WfOn blocks) {wmTail : Option BlockNumber}
    {wmTailN trailing : ℕ} {collected : List PgTrePendingEntry} {consumedPages : List BlockNumber}
    (h : s.merge = .building wmTail wmTailN collected consumedPages)
    (htally : ∀ t, wmTail = some t → Tally s.list (s.list.next t) trailing)
    (hs' : s' = { s with
      list := (finalizeList s.list wmTail wmTailN trailing).1
      merge := .freeing (consumedPages ++ (finalizeList s.list wmTail wmTailN trailing).2.2)
      consumed := s.consumed ++ [collected] }) :
    ∃ blocks', s'.WfOn blocks' ∧ s.Survives s' blocks blocks' := by
  subst hs'
  have hagrees := hs.merge
  rw [h] at hagrees
  obtain ⟨t, rest, rfl, rfl, rfl, hle⟩ := hagrees
  obtain ⟨blocks', hchain, hon, -, hfreed, hsurvives⟩ :=
    finalizeList_spec hs.chain hle (htally t rfl)
  have hperm : List.Perm (blocks' ++ (consumedPages ++
      (finalizeList s.list (some t) wmTailN trailing).2.2) ++ s.freeLog)
      (consumedPages ++ t :: rest ++ s.merge.dropped ++ s.freeLog) := by
    rw [h, ← hfreed]
    simp only [MergePhase.dropped, List.append_nil]
    refine List.Perm.append_right _ ?_
    rw [← List.append_assoc consumedPages]
    exact List.perm_append_comm
  refine ⟨blocks', ⟨hchain, ?_, trivial, hperm.nodup_iff.mpr hs.distinct, fun b hb => ?_⟩,
    fun b hb e he => ?_⟩
  · dsimp only
    rw [hs.history, hon, List.flatten_append, List.append_assoc]
    simp
  · exact hs.alloc b (hperm.mem_iff.mp hb)
  · exact (hsurvives b hb e he).imp_right fun hmem => ⟨_, rfl, hmem⟩

/-- A page of the free log that is given out again leaves the list alone. -/
theorem PendingState.WfOn.recycle (hs : s.WfOn blocks) {b : BlockNumber} (hb : b ∈ s.freeLog) :
    PendingState.WfOn { s with
      freeLog := s.freeLog.erase b
      allocated := s.allocated.filter (fun a => decide (a ≠ b)) } blocks := by
  have hsub : List.Sublist (blocks ++ s.merge.dropped ++ s.freeLog.erase b)
      (blocks ++ s.merge.dropped ++ s.freeLog) :=
    List.Sublist.append_left List.erase_sublist _
  refine ⟨hs.chain, hs.history, hs.merge, hs.distinct.sublist hsub, fun x hx => ?_⟩
  refine List.mem_filter.mpr ⟨hs.alloc x (hsub.subset hx), decide_eq_true ?_⟩
  rintro rfl
  obtain ⟨-, hfree, hdisjoint⟩ := List.nodup_append.mp hs.distinct
  rcases List.mem_append.mp hx with hx | hx
  · exact hdisjoint x hx x hb rfl
  · exact (hfree.not_mem_erase) hx

end

/-- Every step keeps the invariant and loses no entry. -/
theorem PendingStep.wf {s s' : PendingState} (hstep : PendingStep s s') {blocks : List BlockNumber}
    (hs : s.WfOn blocks) : ∃ blocks', s'.WfOn blocks' ∧ s.Survives s' blocks blocks' := by
  cases hstep with
  | begin_batch backend batch hidle hmax =>
    exact ⟨blocks, ⟨hs.chain, hs.history, hs.merge, hs.distinct, hs.alloc⟩,
      PendingState.survives_self rfl _⟩
  | append backend new hbatch hnew => exact hs.append hnew rfl
  | begin_merge hidle hlist =>
    refine ⟨blocks, hs.setMerge ?_ rfl, PendingState.survives_self rfl _⟩
    intro hnil
    rw [hnil] at hs
    exact hlist hs.chain.linked
  | read_meta h =>
    have hagrees := hs.merge
    rw [h] at hagrees
    refine ⟨blocks, hs.setMerge ⟨hs.chain.linked.head?_eq, ?_⟩ rfl,
      PendingState.survives_self rfl _⟩
    obtain ⟨t, ht⟩ := Option.ne_none_iff_exists'.mp (mt List.getLast?_eq_none_iff.mp hagrees)
    exact ⟨t, List.mem_of_getLast? ht, hs.chain.tail.trans ht⟩
  | read_empty wmTail h =>
    have hagrees := hs.merge
    rw [h] at hagrees
    obtain ⟨hhead, t, ht, -⟩ := hagrees
    rw [List.head?_eq_none_iff.mp hhead.symm] at ht
    cases ht
  | read_tail head wmTail h =>
    have hagrees := hs.merge
    rw [h] at hagrees
    obtain ⟨hhead, t, ht, htail⟩ := hagrees
    obtain rfl := Option.some.inj htail
    obtain ⟨rest, rfl⟩ := List.head?_eq_some_iff.mp hhead.symm
    exact ⟨_, hs.setMerge ⟨rest, rfl, rfl, wmTail, ht, rfl, le_rfl⟩ rfl,
      PendingState.survives_self rfl _⟩
  | read_page blk wmTail wmTailN collected consumedPages h =>
    have hagrees := hs.merge
    rw [h] at hagrees
    refine ⟨blocks, hs.setMerge (hagrees.scanPage hs.chain) ?_, PendingState.survives_self rfl _⟩
    unfold scanPage
    split_ifs
    · rfl
    · split
      · rfl
      · rfl
  | finalize wmTail wmTailN trailing collected consumedPages h htally =>
    exact hs.finalize h htally rfl
  | free b pages h =>
    have hperm : List.Perm (blocks ++ pages ++ (s.freeLog ++ [b]))
        (blocks ++ s.merge.dropped ++ s.freeLog) := by
      rw [h]
      simp only [MergePhase.dropped, List.append_assoc]
      refine List.Perm.append_left _ ?_
      rw [← List.append_assoc]
      exact List.perm_append_singleton b (pages ++ s.freeLog)
    refine ⟨blocks, ⟨hs.chain, hs.history, trivial, hperm.nodup_iff.mpr hs.distinct,
      fun x hx => ?_⟩, PendingState.survives_self rfl _⟩
    exact hs.alloc x (hperm.mem_iff.mp hx)
  | end_merge => exact ⟨blocks, hs.setMerge trivial rfl, PendingState.survives_self rfl _⟩
  | recycle b hb => exact ⟨blocks, hs.recycle hb, PendingState.survives_self rfl _⟩

/-- `finalize_merge` writes no link. -/
theorem next_finalizeList (l : PendingList) (wmTail : Option BlockNumber) (wmTailN trailing : ℕ) :
    (finalizeList l wmTail wmTailN trailing).1.next = l.next := by
  funext b
  cases wmTail with
  | none => rfl
  | some t =>
    simp only [finalizeList]
    split_ifs
    · by_cases hb : b = t
      · simp [PendingList.next, hb]
      · simp [PendingList.next, hb]
    · rfl

/-- A chain of pages in use only grows at its end, by pages that were not in use. -/
theorem PendingStep.chainFrom {s s' : PendingState} (hstep : PendingStep s s')
    {blocks : List BlockNumber} (hs : s.WfOn blocks) {start : Option BlockNumber}
    {path : List BlockNumber} (hpath : ChainFrom s.list.next start path)
    (halloc : ∀ x ∈ path, x ∈ s.allocated) :
    ∃ more, ChainFrom s'.list.next start (path ++ more) ∧
      ∀ x ∈ more, x ∈ s'.allocated ∧ x ∉ s.allocated := by
  have hsame (h : ∀ x ∈ path, s'.list.next x = s.list.next x) :
      ∃ more, ChainFrom s'.list.next start (path ++ more) ∧
        ∀ x ∈ more, x ∈ s'.allocated ∧ x ∉ s.allocated := by
    refine ⟨[], ?_, nofun⟩
    rw [List.append_nil]
    exact hpath.congr h
  cases hstep with
  | append backend new hbatch hnew =>
    have hother : ∀ x ∈ path, x ≠ new := fun x hx => ne_of_mem_of_not_mem (halloc x hx) hnew
    have hnotTail : s.list.pendingTail ≠ some new := by
      rw [hs.chain.tail]
      intro heq
      have hmem : new ∈ blocks := List.mem_of_getLast? heq
      exact hnew (hs.alloc new (List.mem_append_left _ (List.mem_append_left _ hmem)))
    rcases appendTurn_cases hnotTail (s.batches backend) with
      ⟨-, -, heq⟩ | ⟨t, htail, hacq, heq⟩ | ⟨t, htail, -, heq⟩
    · apply hsame
      intro x hx
      simp only [heq, PendingList.next, Function.update_of_ne (hother x hx)]
    · by_cases ht : t ∈ path
      · -- The tail is where the chain ends.
        obtain ⟨pre, hpre⟩ := List.getLast?_eq_some_iff.mp (hs.chain.tail.symm.trans htail)
        have hlinked := hs.chain.linked
        rw [hpre] at hlinked
        have hlast := hlinked.last_eq_none
        obtain ⟨before, after, rfl⟩ := List.append_of_mem ht
        obtain rfl : after = [] := by
          have hafter := hpath.drop.2.head?_eq
          rw [hlast] at hafter
          exact List.head?_eq_none_iff.mp hafter.symm
        have htnew : t ≠ new := hother t (List.mem_append_right _ List.mem_cons_self)
        refine ⟨[new], ?_, ?_⟩
        · rw [List.append_assoc]
          refine hpath.concat (fun z hz => ?_) ?_ ?_
          · have hzt : z ≠ t := by
              rintro rfl
              exact hpath.next_ne_none hz hlast
            have hznew : z ≠ new := hother z (List.mem_append_left _ hz)
            simp only [heq, PendingList.next, Function.update_of_ne hznew, Function.update_of_ne hzt]
          · simp only [heq, PendingList.next, Function.update_of_ne htnew, Function.update_self]
          · simp only [heq, PendingList.next, Function.update_self]
        · intro x hx
          rw [List.mem_singleton.mp hx]
          dsimp only
          rw [if_pos hacq]
          exact ⟨List.mem_cons_self, hnew⟩
      · apply hsame
        intro x hx
        have hxt : x ≠ t := ne_of_mem_of_not_mem hx ht
        simp only [heq, PendingList.next, Function.update_of_ne (hother x hx),
          Function.update_of_ne hxt]
    · apply hsame
      intro x hx
      by_cases hxt : x = t
      · simp only [heq, PendingList.next, hxt, Function.update_self]
      · simp only [heq, PendingList.next, Function.update_of_ne hxt]
  | finalize wmTail wmTailN trailing collected consumedPages hmerge htally =>
    apply hsame
    intro x hx
    dsimp only
    rw [next_finalizeList]
  | begin_batch backend batch hidle hmax => exact hsame fun x hx => rfl
  | begin_merge hidle hlist => exact hsame fun x hx => rfl
  | read_meta hmerge => exact hsame fun x hx => rfl
  | read_empty wmTail hmerge => exact hsame fun x hx => rfl
  | read_tail head wmTail hmerge => exact hsame fun x hx => rfl
  | read_page blk wmTail wmTailN collected consumedPages hmerge => exact hsame fun x hx => rfl
  | free b pages hmerge => exact hsame fun x hx => rfl
  | end_merge => exact hsame fun x hx => rfl
  | recycle b hb => exact hsame fun x hx => rfl

/-- Every run keeps the invariant. -/
theorem wf_of_pendingRun {pages : BlockNumber → PendingPage} {s : PendingState}
    (hrun : Relation.ReflTransGen PendingStep (.initial pages) s) : ∃ blocks, s.WfOn blocks := by
  induction hrun with
  | refl =>
    refine ⟨[], ⟨rfl, List.nodup_nil, rfl, rfl⟩, rfl, trivial, List.nodup_nil, ?_⟩
    intro b hb
    cases hb
  | tail _ hstep ih =>
    obtain ⟨blocks, hs⟩ := ih
    obtain ⟨blocks', hs', -⟩ := hstep.wf hs
    exact ⟨blocks', hs'⟩

/-- The list is a chain from its head to its tail with the right number of entries, and every entry
that was appended is in one merge or in the list, in the order of the appends. -/
def PendingState.Consistent (s : PendingState) (blocks : List BlockNumber) : Prop :=
  ChainFrom s.list.next s.list.pendingHead blocks ∧ blocks.Nodup ∧
    s.list.pendingTail = blocks.getLast? ∧
    (s.list.pendingHead = none ↔ s.list.pendingTail = none) ∧
    s.list.pendingNEntries = (blocks.map fun b => (s.list.pages b).entries.length).sum ∧
    s.appended = s.consumed.flatten ++ s.list.entriesOn blocks

/-- A well-formed state is consistent. -/
theorem PendingState.WfOn.consistent {s : PendingState} {blocks : List BlockNumber}
    (h : s.WfOn blocks) : s.Consistent blocks := by
  refine ⟨h.chain.linked, h.chain.nodup, h.chain.tail, ?_, ?_, h.history⟩
  · rw [h.chain.linked.head?_eq, h.chain.tail, List.head?_eq_none_iff, List.getLast?_eq_none_iff]
  · rw [h.chain.count, PendingList.entriesOn, List.length_flatMap]

/-- In every state that inserts and merges reach the list is consistent. A step that makes a merge
consume entries is the finalize step, and it takes from the front of the list exactly the entries
the merge's scan collected. -/
theorem pendingList_consistent {pages : BlockNumber → PendingPage} {s : PendingState}
    (hrun : Relation.ReflTransGen PendingStep (.initial pages) s) :
    ∃ blocks, s.Consistent blocks ∧
      ∀ s', PendingStep s s' → s'.consumed ≠ s.consumed →
        ∃ wmTail wmTailN collected consumedPages blocks',
          s.merge = .building wmTail wmTailN collected consumedPages ∧
          s'.consumed = s.consumed ++ [collected] ∧ s'.Consistent blocks' ∧
          s.list.entriesOn blocks = collected ++ s'.list.entriesOn blocks' := by
  obtain ⟨blocks, hs⟩ := wf_of_pendingRun hrun
  refine ⟨blocks, hs.consistent, fun s' hstep hne => ?_⟩
  obtain ⟨blocks', hs', -⟩ := hstep.wf hs
  have hbefore := hs.history
  have hafter := hs'.history
  cases hstep with
  | finalize wmTail wmTailN trailing collected consumedPages h htally =>
    refine ⟨wmTail, wmTailN, collected, consumedPages, blocks', h, rfl, hs'.consistent, ?_⟩
    dsimp only at hafter
    rw [hbefore, List.flatten_append, List.append_assoc] at hafter
    simpa using List.append_cancel_left hafter
  | begin_batch backend batch hidle hmax => exact absurd rfl hne
  | append backend new hbatch hnew => exact absurd rfl hne
  | begin_merge hidle hlist => exact absurd rfl hne
  | read_meta h => exact absurd rfl hne
  | read_empty wmTail h => exact absurd rfl hne
  | read_tail head wmTail h => exact absurd rfl hne
  | read_page blk wmTail wmTailN collected consumedPages h => exact absurd rfl hne
  | free b pages h => exact absurd rfl hne
  | end_merge => exact absurd rfl hne
  | recycle b hb => exact absurd rfl hne

/-- A merge that has built its tree can always finalize: the count of the entries after the
watermark tail comes to an end. -/
theorem pendingMerge_finalizes {pages : BlockNumber → PendingPage} {s : PendingState}
    (hrun : Relation.ReflTransGen PendingStep (.initial pages) s) {wmTail : Option BlockNumber}
    {wmTailN : ℕ} {collected : List PgTrePendingEntry} {consumedPages : List BlockNumber}
    (h : s.merge = .building wmTail wmTailN collected consumedPages) :
    ∃ s', PendingStep s s' ∧ s'.consumed = s.consumed ++ [collected] := by
  obtain ⟨blocks, hs⟩ := wf_of_pendingRun hrun
  have hagrees := hs.merge
  rw [h] at hagrees
  obtain ⟨t, rest, rfl, rfl, -, -⟩ := hagrees
  have htally := tally_of_chainFrom hs.chain.linked.drop.2
  refine ⟨_, .finalize s (some t) wmTailN (s.list.entriesOn rest).length collected consumedPages
    h ?_, rfl⟩
  rintro t' ⟨⟩
  exact htally

/-- An entry is appended to the watermark tail while the merge reads, and survives the merge. -/
theorem pendingList_consistent_survivor :
    ∃ s, Relation.ReflTransGen PendingStep (.initial fun _ => ⟨none, []⟩) s ∧
      s.consumed = [[⟨1, 1, 0⟩]] ∧ s.appended = [⟨1, 1, 0⟩, ⟨2, 2, 0⟩] ∧
      ∃ blocks, s.Consistent blocks := by
  have hrun : Relation.ReflTransGen PendingStep (.initial fun _ => ⟨none, []⟩) _ :=
    (((((((((Relation.ReflTransGen.refl.tail
      (.begin_batch _ 0 [⟨1, 1, 0⟩] rfl (by decide))).tail
      (.append _ 0 5 (by simp) (by simp [PendingState.initial]))).tail
      (.begin_merge _ rfl (by decide))).tail
      (.read_meta _ rfl)).tail
      (.read_tail _ 5 5 rfl)).tail
      (.begin_batch _ 1 [⟨2, 2, 0⟩] rfl (by decide))).tail
      (.append _ 1 6 (by simp) (by decide))).tail
      (.read_page _ 5 _ _ _ _ rfl)).tail
      (.finalize _ _ _ 0 _ _ rfl (by rintro t ⟨⟩; exact Tally.done)))
  obtain ⟨blocks, hconsistent, -⟩ := pendingList_consistent hrun
  exact ⟨_, hrun, rfl, rfl, blocks, hconsistent⟩

end PgTre
