import PgTre.Pages.PageStore
import Mathlib.Data.List.Perm.Basic
import Mathlib.Data.List.Dedup
import Mathlib.Data.List.Sort

/-!
# The free log

`src/pages/free_log.c` logs the blocks of dropped runs on a chain of pages, and a later VACUUM reclaims
the blocks whose deletion XID is old enough. New entries go to the page at the head of the chain, and
a full head gets a new page in front of it. A drain takes the entries off all pages, but it gives up a
page only when the chain has no other.

The chain is modelled by the entries of its pages, from the head on. Nothing here depends on the blocks
the pages are on.
-/

namespace PgTre

/-- `FREE_LOG_CAP`: entries have 16 bytes and the header has 12. -/
def freeLogCap : ℕ :=
  (blcksz - maxAlign sizeOfPageHeaderData - maxAlign sizeOfOpaque - maxAlign 12) / 16

/-- `PgTreFreeLogEntry`. -/
structure FreeLogEntry where
  block : BlockNumber
  delXid : ℕ
  deriving DecidableEq

/-- The pages of the chain. -/
abbrev FreeLog := List (List FreeLogEntry)

/-! ## Append -/

/-- The loop of `pg_tre_free_log_append` that drops what equals the block before. -/
def dedupSorted : Option BlockNumber → List BlockNumber → List BlockNumber
  | _, [] => []
  | prev, b :: blocks =>
      if prev = some b then dedupSorted prev blocks else b :: dedupSorted (some b) blocks

/-- The blocks of a batch, sorted and each once. -/
def uniqBlocks (blocks : List BlockNumber) : List BlockNumber :=
  dedupSorted none (blocks.mergeSort (· ≤ ·))

/-- `free_log_append_chunk`: the number of entries that were written, and the chain. -/
def freeLogAppendChunk (log : FreeLog) (blocks : List BlockNumber) (base delXid : ℕ) :
    ℕ × FreeLog :=
  let opened := match log with
    | [] => ([], [])
    | page :: older => if freeLogCap ≤ page.length then ([], page :: older) else (page, older)
  let take := min (blocks.length - base) (freeLogCap - opened.1.length)
  (take, (opened.1 ++ ((blocks.drop base).take take).map fun b => ⟨b, delXid⟩) :: opened.2)

/-- The loop of `pg_tre_free_log_append`. -/
def freeLogAppendFrom (blocks : List BlockNumber) (delXid : ℕ) (log : FreeLog) (base : ℕ) : FreeLog :=
  if base < blocks.length then
    if (freeLogAppendChunk log blocks base delXid).1 = 0 then
      (freeLogAppendChunk log blocks base delXid).2
    else
      freeLogAppendFrom blocks delXid (freeLogAppendChunk log blocks base delXid).2
        (base + (freeLogAppendChunk log blocks base delXid).1)
  else log
  termination_by blocks.length - base
  decreasing_by omega

/-- `pg_tre_free_log_append`. -/
def pgTreFreeLogAppend (log : FreeLog) (blocks : List BlockNumber) (delXid : ℕ) : FreeLog :=
  freeLogAppendFrom (uniqBlocks blocks) delXid log 0

/-! ## Drain -/

/-- What becomes of a page: the entries that stay, the blocks that were reclaimed, and how many entries
are pending and how many of these were logged by an earlier VACUUM. -/
structure DrainedPage where
  entries : List FreeLogEntry
  reclaimed : List BlockNumber
  pending : ℕ
  pinned : ℕ

/-- The loop of `pg_tre_free_log_drain` over a page. An entry is removed by moving the last one into
its slot, which is then tested again. -/
def drainSlots (removable : ℕ → Bool) (loggedBefore : ℕ) (entries : List FreeLogEntry) (slot : ℕ) :
    DrainedPage :=
  if h : slot < entries.length then
    let e := entries[slot]
    if removable e.delXid then
      let last := entries.getLast (List.ne_nil_of_length_pos (by omega))
      let rest := drainSlots removable loggedBefore (entries.set slot last).dropLast slot
      { rest with reclaimed := e.block :: rest.reclaimed }
    else
      let rest := drainSlots removable loggedBefore entries (slot + 1)
      { rest with
        pending := rest.pending + 1
        pinned := rest.pinned + if e.delXid < loggedBefore then 1 else 0 }
  else ⟨entries, [], 0, 0⟩
  termination_by entries.length - slot
  decreasing_by
    · rw [List.length_dropLast, List.length_set]
      omega
    · omega

/-- `pg_tre_free_log_drain`. The chain is given up when it is one page that is empty. -/
def pgTreFreeLogDrain (removable : ℕ → Bool) (loggedBefore : ℕ) (log : FreeLog) :
    FreeLog × List BlockNumber × ℕ × ℕ :=
  let pages := log.map fun entries => drainSlots removable loggedBefore entries 0
  let left := pages.map DrainedPage.entries
  (if left = [[]] then [] else left, pages.flatMap DrainedPage.reclaimed,
    (pages.map DrainedPage.pending).sum, (pages.map DrainedPage.pinned).sum)

/-! ## What a batch logs -/

/-- A page of the log has room for 509 blocks. -/
@[simp] theorem freeLogCap_eq : freeLogCap = 509 := rfl

/-- Dropping repeats from a sorted list leaves each block once, without the one before it. -/
theorem dedupSorted_spec {blocks : List BlockNumber} (hsorted : blocks.Pairwise (· ≤ ·))
    {prev : Option BlockNumber} (hprev : ∀ p ∈ prev, ∀ b ∈ blocks, p ≤ b) :
    (dedupSorted prev blocks).Nodup ∧
      ∀ b, b ∈ dedupSorted prev blocks ↔ b ∈ blocks ∧ prev ≠ some b := by
  induction blocks generalizing prev with
  | nil => simp [dedupSorted]
  | cons b blocks ih =>
    obtain ⟨hb, hrest⟩ := List.pairwise_cons.mp hsorted
    unfold dedupSorted
    split_ifs with hsame
    · obtain ⟨hnodup, hmem⟩ := @ih hrest prev fun p hp c hc => hprev p hp c (List.mem_cons_of_mem b hc)
      refine ⟨hnodup, fun c => ?_⟩
      rw [hmem, List.mem_cons]
      constructor
      · rintro ⟨hc, hne⟩
        exact ⟨Or.inr hc, hne⟩
      · rintro ⟨rfl | hc, hne⟩
        · exact absurd hsame hne
        · exact ⟨hc, hne⟩
    · have hbound : ∀ p ∈ some b, ∀ c ∈ blocks, p ≤ c := by
        rintro p hp c hc
        obtain rfl := Option.some.inj hp
        exact hb c hc
      obtain ⟨hnodup, hmem⟩ := ih hrest hbound
      refine ⟨List.nodup_cons.mpr ⟨?_, hnodup⟩, fun c => ?_⟩
      · rw [hmem]
        rintro ⟨-, hne⟩
        exact hne rfl
      · rw [List.mem_cons, hmem, List.mem_cons]
        constructor
        · rintro (rfl | ⟨hc, hne⟩)
          · exact ⟨Or.inl rfl, hsame⟩
          · refine ⟨Or.inr hc, ?_⟩
            rintro hprevc
            apply hne
            -- The block before is at most the first one, which is at most all others.
            have hle := hprev c hprevc b List.mem_cons_self
            rw [Nat.le_antisymm hle (hb c hc)]
        · rintro ⟨rfl | hc, hne⟩
          · exact Or.inl rfl
          · by_cases heq : b = c
            · exact Or.inl heq.symm
            · exact Or.inr ⟨hc, fun h => heq (Option.some.inj h)⟩

/-- A batch logs its blocks, each of them once. -/
theorem uniqBlocks_spec (blocks : List BlockNumber) :
    (uniqBlocks blocks).Nodup ∧ ∀ b, b ∈ uniqBlocks blocks ↔ b ∈ blocks := by
  obtain ⟨hnodup, hmem⟩ := @dedupSorted_spec _ (List.pairwise_mergeSort' (· ≤ ·) blocks) none
    (by simp)
  refine ⟨hnodup, fun b => ?_⟩
  rw [uniqBlocks, hmem, List.mem_mergeSort]
  simp

/-- Dropping repeats gives a sublist. -/
theorem dedupSorted_sublist (prev : Option BlockNumber) (blocks : List BlockNumber) :
    (dedupSorted prev blocks).Sublist blocks := by
  induction blocks generalizing prev with
  | nil => exact List.Sublist.refl []
  | cons b blocks ih =>
    unfold dedupSorted
    split_ifs
    · exact (ih prev).cons b
    · exact (ih (some b)).cons_cons b

/-- Sorted blocks ascend when each is there once. -/
theorem uniqBlocks_sorted (blocks : List BlockNumber) : (uniqBlocks blocks).Pairwise (· < ·) := by
  have hsorted := (List.pairwise_mergeSort' (· ≤ ·) blocks).sublist
    (dedupSorted_sublist none (blocks.mergeSort (· ≤ ·)))
  exact (hsorted.and (uniqBlocks_spec blocks).1).imp fun h => lt_of_le_of_ne h.1 h.2

/-! ## What a drain reclaims -/

section

variable {removable : ℕ → Bool} {loggedBefore : ℕ} {entries : List FreeLogEntry} {slot : ℕ}

/-- The last element moved into a slot leaves the other elements. -/
theorem perm_set_dropLast {α : Type} {xs : List α} {i : ℕ} (hi : i < xs.length) (hne : xs ≠ []) :
    (xs[i] :: (xs.set i (xs.getLast hne)).dropLast).Perm xs := by
  obtain ⟨init, last, rfl⟩ : ∃ init last, xs = init ++ [last] :=
    ⟨xs.dropLast, xs.getLast hne, (List.dropLast_append_getLast hne).symm⟩
  rw [List.getLast_append_singleton]
  rw [List.length_append, List.length_singleton] at hi
  rcases Nat.lt_or_ge i init.length with hlt | hge
  · rw [List.getElem_append_left hlt, List.set_append_left _ _ hlt, List.dropLast_concat]
    calc (init[i] :: init.set i last).Perm (init[i] :: last :: init.eraseIdx i) :=
          (List.set_perm_cons_eraseIdx hlt last).cons _
      _ |>.Perm (last :: init[i] :: init.eraseIdx i) := List.Perm.swap _ _ _
      _ |>.Perm (last :: init) := (List.getElem_cons_eraseIdx_perm hlt).cons _
      _ |>.Perm (init ++ [last]) := (List.perm_append_singleton last init).symm
  · obtain rfl : i = init.length := by omega
    rw [List.getElem_concat_length rfl, List.set_append_right _ _ le_rfl, Nat.sub_self]
    simp only [List.set_cons_zero, List.dropLast_concat]
    exact (List.perm_append_singleton last init).symm

/-- Every entry of a page is reclaimed once or stays. -/
theorem drainSlots_perm (removable : ℕ → Bool) (loggedBefore : ℕ) (entries : List FreeLogEntry)
    (slot : ℕ) : ((drainSlots removable loggedBefore entries slot).reclaimed ++
      (drainSlots removable loggedBefore entries slot).entries.map FreeLogEntry.block).Perm
        (entries.map FreeLogEntry.block) := by
  induction entries, slot using drainSlots.induct removable loggedBefore with
  | case1 entries slot hslot e hremovable last ih =>
    rw [drainSlots, dif_pos hslot, if_pos hremovable]
    have hperm := (perm_set_dropLast hslot (List.ne_nil_of_length_pos (by omega))).map
      FreeLogEntry.block
    rw [List.map_cons] at hperm
    exact (ih.cons _).trans hperm
  | case2 entries slot hslot e hremovable ih =>
    rw [drainSlots, dif_pos hslot, if_neg hremovable]
    exact ih
  | case3 entries slot hslot =>
    rw [drainSlots, dif_neg hslot]
    exact List.Perm.refl _

/-- A page whose entries are all old enough is emptied. -/
theorem drainSlots_entries_eq_nil (h : ∀ e ∈ entries, removable e.delXid = true) :
    (drainSlots removable loggedBefore entries 0).entries = [] := by
  induction hn : entries.length generalizing entries with
  | zero =>
    rw [drainSlots, dif_neg (by omega)]
    exact List.eq_nil_of_length_eq_zero hn
  | succ n ih =>
    have hpos : 0 < entries.length := by omega
    have hne : entries ≠ [] := List.ne_nil_of_length_pos hpos
    rw [drainSlots, dif_pos hpos, if_pos (h _ (List.getElem_mem hpos))]
    simp only
    apply ih
    · intro e he
      apply h
      exact (perm_set_dropLast hpos hne).subset (List.mem_cons_of_mem _ he)
    · rw [List.length_dropLast, List.length_set, hn]
      omega

/-- What is reclaimed and what stays were on the chain. -/
theorem pgTreFreeLogDrain_perm (removable : ℕ → Bool) (loggedBefore : ℕ) (log : FreeLog) :
    ((pgTreFreeLogDrain removable loggedBefore log).2.1 ++
      (pgTreFreeLogDrain removable loggedBefore log).1.flatten.map FreeLogEntry.block).Perm
        (log.flatten.map FreeLogEntry.block) := by
  have hleft : (pgTreFreeLogDrain removable loggedBefore log).1.flatten =
      ((log.map fun entries => drainSlots removable loggedBefore entries 0).map
        DrainedPage.entries).flatten := by
    unfold pgTreFreeLogDrain
    simp only
    split_ifs with hone
    · rw [hone]
      rfl
    · rfl
  rw [hleft]
  unfold pgTreFreeLogDrain
  simp only
  clear hleft
  induction log with
  | nil => exact List.Perm.refl _
  | cons page log ih =>
    simp only [List.map_cons, List.flatMap_cons, List.flatten_cons, List.map_append]
    have hpage := drainSlots_perm removable loggedBefore page 0
    obtain ⟨r, hr⟩ : ∃ r, r = drainSlots removable loggedBefore page 0 := ⟨_, rfl⟩
    rw [← hr] at hpage ⊢
    rw [List.append_assoc]
    have hswap : (((log.map fun entries => drainSlots removable loggedBefore entries 0).flatMap
        DrainedPage.reclaimed) ++ (r.entries.map FreeLogEntry.block ++
          (((log.map fun entries => drainSlots removable loggedBefore entries 0).map
            DrainedPage.entries).flatten.map FreeLogEntry.block))).Perm
        (r.entries.map FreeLogEntry.block ++ (log.flatten.map FreeLogEntry.block)) := by
      rw [← List.append_assoc]
      apply (List.perm_append_comm.append_right _).trans
      rw [List.append_assoc]
      exact ih.append_left _
    apply (hswap.append_left _).trans
    rw [← List.append_assoc]
    exact hpage.append_right _

/-- A drain for which all entries are old enough empties all pages. -/
theorem pgTreFreeLogDrain_pages {log : FreeLog}
    (h : ∀ e ∈ log.flatten, removable e.delXid = true) :
    (pgTreFreeLogDrain removable loggedBefore log).1 =
      if log.length = 1 then [] else List.replicate log.length [] := by
  have hleft : ((log.map fun entries => drainSlots removable loggedBefore entries 0).map
      DrainedPage.entries) = List.replicate log.length [] := by
    rw [List.map_map, List.eq_replicate_iff]
    refine ⟨List.length_map _, ?_⟩
    intro page hpage
    obtain ⟨entries, hentries, rfl⟩ := List.mem_map.mp hpage
    apply drainSlots_entries_eq_nil
    intro e he
    exact h e (List.mem_flatten.mpr ⟨entries, hentries, he⟩)
  unfold pgTreFreeLogDrain
  simp only [hleft]
  have hone : List.replicate log.length ([] : List FreeLogEntry) = [[]] ↔ log.length = 1 := by
    constructor
    · intro heq
      simpa using congrArg List.length heq
    · intro heq
      rw [heq]
      rfl
  by_cases hlen : log.length = 1
  · rw [if_pos (hone.mpr hlen), if_pos hlen]
  · rw [if_neg (fun heq => hlen (hone.mp heq)), if_neg hlen]

end

/-! ## The length of the chain -/

/-- The chain when some entries were logged since the last drain: all pages that were pushed since then
are full but the head, and `excess` pages were behind the head before. -/
def ChainAt (log : FreeLog) (since excess : ℕ) : Prop :=
  match log with
  | [] => since = 0 ∧ excess = 0
  | head :: older => older.length = excess + (since - 1) / freeLogCap ∧
      head.length + freeLogCap * ((since - 1) / freeLogCap) = since

/-- A chunk writes an entry at least. -/
theorem freeLogAppendChunk_spec {log : FreeLog} {since excess : ℕ} (h : ChainAt log since excess)
    {blocks : List BlockNumber} {base : ℕ} (hbase : base < blocks.length) (delXid : ℕ) {wrote : ℕ}
    {log' : FreeLog} (hchunk : freeLogAppendChunk log blocks base delXid = (wrote, log')) :
    0 < wrote ∧ base + wrote ≤ blocks.length ∧ ChainAt log' (since + wrote) excess ∧
      (log'.flatten.map FreeLogEntry.block).Perm
        (log.flatten.map FreeLogEntry.block ++ (blocks.drop base).take wrote) := by
  have hcap : freeLogCap = 509 := rfl
  unfold freeLogAppendChunk at hchunk
  cases log with
  | nil =>
    obtain ⟨rfl, rfl⟩ := Prod.mk.inj hchunk
    obtain ⟨rfl, rfl⟩ := h
    simp only [List.length_nil, hcap]
    refine ⟨by omega, by omega, ⟨?_, ?_⟩, ?_⟩
    · simp only [List.length_nil, hcap]
      omega
    · simp only [List.nil_append, List.length_map, List.length_take, List.length_drop, hcap]
      omega
    · simp [Function.comp_def]
  | cons head older =>
    obtain ⟨holder, hhead⟩ := h
    rw [hcap] at holder hhead
    by_cases hfull : freeLogCap ≤ head.length
    · simp only [if_pos hfull] at hchunk
      obtain ⟨rfl, rfl⟩ := Prod.mk.inj hchunk
      simp only [List.length_nil, hcap] at hfull ⊢
      refine ⟨by omega, by omega, ⟨?_, ?_⟩, ?_⟩
      · simp only [List.length_cons, hcap]
        omega
      · simp only [List.nil_append, List.length_map, List.length_take, List.length_drop, hcap]
        omega
      · simp only [List.nil_append, List.flatten_cons, List.map_append, List.map_map,
          Function.comp_def, List.map_id']
        exact List.perm_append_comm
    · simp only [if_neg hfull] at hchunk
      obtain ⟨rfl, rfl⟩ := Prod.mk.inj hchunk
      simp only [hcap] at hfull ⊢
      refine ⟨by omega, by omega, ⟨?_, ?_⟩, ?_⟩
      · simp only [hcap]
        omega
      · simp only [List.length_append, List.length_map, List.length_take, List.length_drop, hcap]
        omega
      · simp only [List.flatten_cons, List.map_append, List.map_map, Function.comp_def,
          List.map_id', List.append_assoc]
        exact List.perm_append_comm.append_left _

/-- The batch is written to its end. -/
theorem freeLogAppendFrom_spec {log : FreeLog} {since excess : ℕ} (h : ChainAt log since excess)
    (blocks : List BlockNumber) (delXid base : ℕ) :
    ChainAt (freeLogAppendFrom blocks delXid log base) (since + (blocks.length - base)) excess ∧
      ((freeLogAppendFrom blocks delXid log base).flatten.map FreeLogEntry.block).Perm
        (log.flatten.map FreeLogEntry.block ++ blocks.drop base) := by
  induction hrest : blocks.length - base using Nat.strong_induction_on generalizing log base since with
  | _ rest ih =>
    unfold freeLogAppendFrom
    by_cases hbase : base < blocks.length
    · cases hchunk : freeLogAppendChunk log blocks base delXid with
      | mk wrote log' =>
        obtain ⟨hpos, hle, hchain, hperm⟩ := freeLogAppendChunk_spec h hbase delXid hchunk
        rw [if_pos hbase]
        simp only
        rw [if_neg (by omega)]
        obtain ⟨hchain', hperm'⟩ := ih (blocks.length - (base + wrote)) (by omega) hchain
          (base + wrote) rfl
        have hsum : since + wrote + (blocks.length - (base + wrote)) = since + rest := by omega
        rw [hsum] at hchain'
        refine ⟨hchain', hperm'.trans ?_⟩
        have hcut : (blocks.drop base).take wrote ++ blocks.drop (base + wrote) = blocks.drop base := by
          rw [← List.drop_drop, List.take_append_drop]
        rw [← hcut, ← List.append_assoc]
        exact hperm.append_right _
    · have hzero : rest = 0 := by omega
      rw [if_neg hbase, hzero, Nat.add_zero, List.drop_eq_nil_of_le (by omega), List.append_nil]
      exact ⟨h, List.Perm.refl _⟩

/-! ## Runs -/

/-- What happens to the log: a batch of blocks is appended, or the log is drained. -/
inductive FreeLogEvent where
  | append (blocks : List BlockNumber)
  | drain

/-- The entries that were logged since the last drain, and the pages that the drains before found
behind the head and left there. -/
def chainCount (events : List FreeLogEvent) : ℕ × ℕ :=
  events.foldl (fun count event => match event with
    | .append blocks => (count.1 + (uniqBlocks blocks).length, count.2)
    | .drain => (0, count.2 + (count.1 - 1) / freeLogCap)) (0, 0)

/-- The blocks that were logged, batch by batch. -/
def loggedBlocks (events : List FreeLogEvent) : List BlockNumber :=
  events.flatMap fun event => match event with
    | .append blocks => uniqBlocks blocks
    | .drain => []

/-- A run from an index without a log, with the blocks that were reclaimed. Every drain finds all
entries old enough. -/
inductive FreeLogRun : List FreeLogEvent → FreeLog → List BlockNumber → Prop
  | begin : FreeLogRun [] [] []
  | append {events : List FreeLogEvent} {log : FreeLog} {reclaimed : List BlockNumber}
      (run : FreeLogRun events log reclaimed) (blocks : List BlockNumber) (delXid : ℕ) :
      FreeLogRun (events ++ [.append blocks]) (pgTreFreeLogAppend log blocks delXid) reclaimed
  | drain {events : List FreeLogEvent} {log : FreeLog} {reclaimed : List BlockNumber}
      (run : FreeLogRun events log reclaimed) (removable : ℕ → Bool) (loggedBefore : ℕ)
      (hremovable : ∀ e ∈ log.flatten, removable e.delXid = true) :
      FreeLogRun (events ++ [.drain]) (pgTreFreeLogDrain removable loggedBefore log).1
        (reclaimed ++ (pgTreFreeLogDrain removable loggedBefore log).2.1)

section

variable {events : List FreeLogEvent} {log : FreeLog} {reclaimed : List BlockNumber}

/-- An append counts its distinct blocks. -/
theorem chainCount_append (events : List FreeLogEvent) (blocks : List BlockNumber) :
    chainCount (events ++ [.append blocks]) =
      ((chainCount events).1 + (uniqBlocks blocks).length, (chainCount events).2) := by
  simp [chainCount]

/-- A drain empties the count and leaves the pages that were filled. -/
theorem chainCount_drain (events : List FreeLogEvent) :
    chainCount (events ++ [.drain]) =
      (0, (chainCount events).2 + ((chainCount events).1 - 1) / freeLogCap) := by
  simp [chainCount]

/-- A drain leaves the head and the pages behind it, or nothing when it finds no page behind the
head. -/
theorem ChainAt.drain {since excess : ℕ} (h : ChainAt log since excess) {removable : ℕ → Bool}
    {loggedBefore : ℕ} (hremovable : ∀ e ∈ log.flatten, removable e.delXid = true) :
    ChainAt (pgTreFreeLogDrain removable loggedBefore log).1 0
        (excess + (since - 1) / freeLogCap) ∧
      (pgTreFreeLogDrain removable loggedBefore log).1.flatten = [] := by
  rw [pgTreFreeLogDrain_pages hremovable]
  cases log with
  | nil =>
    obtain ⟨rfl, rfl⟩ := h
    exact ⟨⟨rfl, rfl⟩, rfl⟩
  | cons head older =>
    obtain ⟨holder, -⟩ := h
    rw [List.length_cons]
    split_ifs with hone
    · refine ⟨⟨rfl, ?_⟩, rfl⟩
      omega
    · refine ⟨⟨?_, rfl⟩, ?_⟩
      · rw [List.length_replicate, holder]
        simp
      · rw [List.flatten_eq_nil_iff]
        intro page hpage
        exact List.eq_of_mem_replicate hpage

/-- The chain of a run, and the blocks that the run has logged: each was reclaimed once or is on the
chain. -/
theorem FreeLogRun.chain (run : FreeLogRun events log reclaimed) :
    ChainAt log (chainCount events).1 (chainCount events).2 ∧
      (reclaimed ++ log.flatten.map FreeLogEntry.block).Perm (loggedBlocks events) := by
  induction run with
  | begin => exact ⟨⟨rfl, rfl⟩, List.Perm.refl _⟩
  | @append events log reclaimed run blocks delXid ih =>
    obtain ⟨hchain, hperm⟩ := ih
    obtain ⟨hchain', hperm'⟩ := freeLogAppendFrom_spec hchain (uniqBlocks blocks) delXid 0
    rw [chainCount_append]
    refine ⟨hchain', (hperm'.append_left reclaimed).trans ?_⟩
    rw [List.drop_zero, ← List.append_assoc]
    simp only [loggedBlocks, List.flatMap_append, List.flatMap_singleton] at hperm ⊢
    exact hperm.append_right _
  | @drain events log reclaimed run removable loggedBefore hremovable ih =>
    obtain ⟨hchain, hperm⟩ := ih
    obtain ⟨hchain', -⟩ := @ChainAt.drain _ _ _ hchain removable loggedBefore hremovable
    rw [chainCount_drain]
    refine ⟨hchain', ?_⟩
    rw [List.append_assoc]
    apply ((pgTreFreeLogDrain_perm removable loggedBefore log).append_left reclaimed).trans
    simpa [loggedBlocks] using hperm

/-- A run that ends with a drain. -/
theorem FreeLogRun.of_drain (run : FreeLogRun (events ++ [.drain]) log reclaimed) :
    ∃ log₀ reclaimed₀ removable loggedBefore, FreeLogRun events log₀ reclaimed₀ ∧
      (∀ e ∈ log₀.flatten, removable e.delXid = true) ∧
      log = (pgTreFreeLogDrain removable loggedBefore log₀).1 := by
  generalize hevents : events ++ [.drain] = all at run
  cases run with
  | begin => simp at hevents
  | append run blocks delXid =>
    obtain ⟨-, hlast⟩ := List.append_inj' hevents rfl
    simp at hlast
  | @drain _ log₀ reclaimed₀ run removable loggedBefore hremovable =>
    obtain ⟨rfl, -⟩ := List.append_inj' hevents rfl
    exact ⟨log₀, reclaimed₀, removable, loggedBefore, run, hremovable, rfl⟩

/-- After a drain the chain has no entries. It has the pages that were ever behind a head, and a head
before them. -/
theorem FreeLogRun.after_drain (run : FreeLogRun (events ++ [.drain]) log reclaimed) :
    log.flatten = [] ∧ log.length = if (chainCount (events ++ [.drain])).2 = 0 then 0
      else (chainCount (events ++ [.drain])).2 + 1 := by
  obtain ⟨log₀, reclaimed₀, removable, loggedBefore, run₀, hremovable, hlog⟩ := run.of_drain
  obtain ⟨hchain₀, -⟩ := run₀.chain
  obtain ⟨hchain, hflat⟩ := @ChainAt.drain _ _ _ hchain₀ removable loggedBefore hremovable
  rw [← hlog] at hchain hflat
  rw [chainCount_drain]
  refine ⟨hflat, ?_⟩
  have hne : log.length ≠ 1 := by
    rw [hlog, pgTreFreeLogDrain_pages hremovable]
    split_ifs with hone
    · simp
    · rwa [List.length_replicate]
  cases log with
  | nil =>
    obtain ⟨-, hzero⟩ := hchain
    rw [if_pos hzero]
    rfl
  | cons head older =>
    obtain ⟨holder, -⟩ := hchain
    rw [Nat.zero_sub, Nat.zero_div, Nat.add_zero] at holder
    rw [List.length_cons] at hne ⊢
    rw [if_neg (by omega)]
    omega

end

/-! ## Runs with a bounded log -/

/-- Between two drains at most so many entries are logged. -/
def CyclesWithin (limit : ℕ) (events : List FreeLogEvent) : Prop :=
  ∀ before, before <+: events → (chainCount before).1 ≤ limit

/-- While no cycle overflows a page nothing is left behind the head. -/
theorem chainCount_eq_zero {limit : ℕ} (hlimit : limit ≤ freeLogCap) {events : List FreeLogEvent}
    (h : CyclesWithin limit events) : (chainCount events).2 = 0 := by
  induction events using List.reverseRecOn with
  | nil => rfl
  | append_singleton events event ih =>
    have hbefore : CyclesWithin limit events :=
      fun before hpre => h before (hpre.trans (List.prefix_append events [event]))
    have hzero := ih hbefore
    cases event with
    | append blocks => rw [chainCount_append, hzero]
    | drain =>
      have hle := hbefore events (List.prefix_refl events)
      rw [freeLogCap_eq] at hlimit
      rw [chainCount_drain, hzero, freeLogCap_eq]
      omega

/-- The cycle that logs a batch of blocks and drains the log, some times. -/
def freeLogCycles (limit : ℕ) : ℕ → List FreeLogEvent
  | 0 => []
  | n + 1 => freeLogCycles limit n ++ [.append (List.range limit)] ++ [.drain]

/-- The blocks of a range are distinct already. -/
theorem length_uniqBlocks_range (limit : ℕ) : (uniqBlocks (List.range limit)).length = limit := by
  obtain ⟨hnodup, hmem⟩ := uniqBlocks_spec (List.range limit)
  have hperm := (List.perm_ext_iff_of_nodup hnodup List.nodup_range).mpr hmem
  rw [hperm.length_eq, List.length_range]

/-- A number of cycles leaves that many pages for each page filled in one. -/
theorem chainCount_freeLogCycles (limit n : ℕ) :
    chainCount (freeLogCycles limit n) = (0, n * ((limit - 1) / freeLogCap)) := by
  induction n with
  | zero => simp [freeLogCycles, chainCount]
  | succ n ih =>
    rw [freeLogCycles, chainCount_drain, chainCount_append, ih, length_uniqBlocks_range, Nat.zero_add,
      Nat.succ_mul]

/-- The cycles stay within their limit. -/
theorem cyclesWithin_freeLogCycles (limit n : ℕ) : CyclesWithin limit (freeLogCycles limit n) := by
  induction n with
  | zero =>
    intro before hpre
    rw [List.prefix_nil.mp hpre]
    exact Nat.zero_le limit
  | succ n ih =>
    intro before hpre
    rw [freeLogCycles, List.prefix_concat_iff, List.prefix_concat_iff] at hpre
    rcases hpre with rfl | rfl | hpre
    · rw [chainCount_drain]
      exact Nat.zero_le limit
    · rw [chainCount_append, chainCount_freeLogCycles, length_uniqBlocks_range, Nat.zero_add]
    · exact ih before hpre

/-- The cycles can be run. -/
theorem exists_freeLogRun (limit n : ℕ) :
    ∃ log reclaimed, FreeLogRun (freeLogCycles limit n) log reclaimed := by
  induction n with
  | zero => exact ⟨[], [], .begin⟩
  | succ n ih =>
    obtain ⟨log, reclaimed, run⟩ := ih
    exact ⟨_, _, (run.append (List.range limit) 0).drain (fun _ => true) 0 fun _ _ => rfl⟩

/-- Each append of the cycles logs as many blocks as the limit says. -/
theorem length_of_append_mem_freeLogCycles {limit n : ℕ} {blocks : List BlockNumber}
    (h : FreeLogEvent.append blocks ∈ freeLogCycles limit n) : blocks.length = limit := by
  induction n with
  | zero => simp [freeLogCycles] at h
  | succ n ih =>
    simp only [freeLogCycles, List.mem_append, List.mem_singleton, reduceCtorEq, or_false,
      FreeLogEvent.append.injEq] at h
    rcases h with h | rfl
    · exact ih h
    · exact List.length_range

/-- Cycles that overflow a page leave a page behind each time. -/
theorem exists_long_chain {limit : ℕ} (hlimit : freeLogCap < limit) (bound : ℕ) :
    ∃ events log reclaimed, FreeLogRun (events ++ [.drain]) log reclaimed ∧
      CyclesWithin limit events ∧
      (∀ blocks, FreeLogEvent.append blocks ∈ events → blocks.length ≤ limit) ∧
      bound < log.length := by
  obtain ⟨log, reclaimed, run⟩ := exists_freeLogRun limit (bound + 1)
  refine ⟨freeLogCycles limit bound ++ [.append (List.range limit)], log, reclaimed, run, ?_, ?_, ?_⟩
  · intro before hpre
    exact cyclesWithin_freeLogCycles limit (bound + 1) before (hpre.trans (List.prefix_append _ _))
  · intro blocks hmem
    apply le_of_eq
    apply @length_of_append_mem_freeLogCycles limit (bound + 1)
    exact List.mem_append_left _ hmem
  · have hlength := run.after_drain.2
    have hcount := chainCount_freeLogCycles limit (bound + 1)
    rw [freeLogCycles] at hcount
    rw [hcount] at hlength
    simp only at hlength
    have hone : 1 ≤ (limit - 1) / freeLogCap := by
      rw [freeLogCap_eq] at hlimit ⊢
      omega
    have hle : bound + 1 ≤ (bound + 1) * ((limit - 1) / freeLogCap) :=
      Nat.le_mul_of_pos_right _ hone
    rw [hlength, if_neg (by omega)]
    omega

/-- After every drain all blocks that were ever logged are reclaimed, each once for each batch it was
in. The chain has bounded length in all runs that log at most `limit` entries between two drains if
and only if these fit one page. -/
theorem freeLog_bounded_iff (limit : ℕ) :
    (∀ events log reclaimed, FreeLogRun (events ++ [.drain]) log reclaimed →
      reclaimed.Perm (loggedBlocks events)) ∧
    ((∃ bound, ∀ events log reclaimed, FreeLogRun (events ++ [.drain]) log reclaimed →
      CyclesWithin limit events → log.length ≤ bound) ↔ limit ≤ freeLogCap) := by
  constructor
  · intro events log reclaimed run
    obtain ⟨-, hperm⟩ := run.chain
    rw [run.after_drain.1, List.map_nil, List.append_nil] at hperm
    simpa [loggedBlocks] using hperm
  · constructor
    · rintro ⟨bound, hbound⟩
      by_contra hlimit
      obtain ⟨events, log, reclaimed, run, hwithin, -, hlong⟩ :=
        exists_long_chain (Nat.not_le.mp hlimit) bound
      have hle := hbound events log reclaimed run hwithin
      omega
    · intro hlimit
      refine ⟨0, fun events log reclaimed run hwithin => ?_⟩
      have hle := hwithin events (List.prefix_refl events)
      rw [freeLogCap_eq] at hlimit
      rw [run.after_drain.2, chainCount_drain, chainCount_eq_zero hlimit hwithin, freeLogCap_eq,
        if_pos (by omega)]

/-- Two cycles of 600 blocks, which overflow a page: both batches are reclaimed. Batches of 509 blocks
keep the chain short. -/
theorem freeLog_bounded_twoCycles :
    (∃ log reclaimed, FreeLogRun (freeLogCycles 600 2) log reclaimed ∧
      reclaimed.Perm (loggedBlocks (freeLogCycles 600 1 ++ [.append (List.range 600)]))) ∧
    ∃ bound, ∀ events log reclaimed, FreeLogRun (events ++ [.drain]) log reclaimed →
      CyclesWithin 509 events → log.length ≤ bound := by
  obtain ⟨log, reclaimed, run⟩ := exists_freeLogRun 600 2
  refine ⟨⟨log, reclaimed, run, ?_⟩, (freeLog_bounded_iff 509).2.mpr (by decide)⟩
  exact (freeLog_bounded_iff 509).1 (freeLogCycles 600 1 ++ [.append (List.range 600)]) log
    reclaimed run

/-- No bound on the length of the batches bounds the chain: with batches of 510 blocks, a page more
than before is left behind each drain. -/
theorem freeLog_unbounded : ¬∃ bound : ℕ → ℕ, ∀ n events log reclaimed,
    FreeLogRun (events ++ [.drain]) log reclaimed →
      (∀ blocks, FreeLogEvent.append blocks ∈ events → blocks.length ≤ n) → log.length ≤ bound n := by
  rintro ⟨bound, hbound⟩
  obtain ⟨events, log, reclaimed, run, -, hbatches, hlong⟩ :=
    @exists_long_chain 510 (by decide) (bound 510)
  have hle := hbound 510 events log reclaimed run hbatches
  omega

end PgTre
