import PgTre.Am.BuiltTree
import PgTre.Am.ScanInterleaving

/-!
# The rows of an indexed table

A table is built an index, and then rows are inserted, deleted and vacuumed while the index is merged.
An insert appends its entries to the pending list in parts, and other steps may come between. At every
point the index has the rows whose inserts are over: each of their trigrams is found with their TID.
-/

namespace PgTre

open Strings

/-! ## The life of a table -/

/-- An insert that is under way: its row, and the batches it has still to append. -/
structure RowInsert where
  row : TableRow
  batches : List (List InsertEntry)

/-- A table and its index: the rows whose inserts are over, and the inserts that are under way. -/
structure IndexedTable where
  idx : ScanIndex
  rows : List TableRow
  inserting : List RowInsert

/-- An entry of a batch as `pg_tre_pending_append_batch` stores it. -/
def packEntry (pk : TidPacking) (e : InsertEntry) : Except PgError PgTrePendingEntry :=
  (packTid pk e.tid).map fun packed => ⟨e.trigramHash, packed, e.position⟩

/-- The batches after a part of the first was appended. -/
def batchesAfter (rest : List InsertEntry) (more : List (List InsertEntry)) :
    List (List InsertEntry) :=
  if rest = [] then more else rest :: more

/-- Packing an entry packs its TID and keeps its hash. -/
theorem packed_of_packEntry {pk : TidPacking} {e : InsertEntry} {p : PgTrePendingEntry}
    (h : packEntry pk e = .ok p) :
    packTid pk e.tid = .ok p.tid ∧ p.trigramHash = e.trigramHash := by
  unfold packEntry at h
  cases hpack : packTid pk e.tid with
  | error err =>
    rw [hpack] at h
    cases h
  | ok packed =>
    rw [hpack] at h
    rw [← Except.ok.inj h]
    exact ⟨rfl, rfl⟩

/-- What is stored of a batch is packed for the index. -/
theorem packed_of_mapM {pk : TidPacking} {part : List InsertEntry} {entries : List PgTrePendingEntry}
    (h : part.mapM (packEntry pk) = .ok entries) : ∀ p ∈ entries, Packed pk p.tid := by
  have hforall := forall₂_of_mapM h
  clear h
  induction hforall with
  | nil => simp
  | cons hpack _ ih =>
    intro p hp
    rcases List.mem_cons.mp hp with rfl | hp
    · exact ⟨_, (packed_of_packEntry hpack).1⟩
    · exact ih p hp

/-- The pending list with some entries at its end. -/
def ScanIndex.appendPending (idx : ScanIndex) (entries : List PgTrePendingEntry)
    (hpacked : ∀ e ∈ entries, Packed idx.tidPacking e.tid) : ScanIndex :=
  { idx with
    pending := idx.pending ++ entries
    pendingPacked := fun e he => (List.mem_append.mp he).elim (idx.pendingPacked e) (hpacked e) }

/-- The index after a merge of the first entries of the pending list. -/
def ScanIndex.consume (idx : ScanIndex) (flushToRun : Bool) (collected rest : List PgTrePendingEntry)
    (hsplit : idx.pending = collected ++ rest) : ScanIndex :=
  { idx with
    toRunIndex := if flushToRun then flushRun idx.toRunIndex collected
      else mergeBase idx.toRunIndex collected
    pending := rest
    pendingPacked := fun e he => idx.pendingPacked e (hsplit ▸ List.mem_append_right _ he) }

/-- The rows of a table have none of the TIDs. -/
def Spares (pk : TidPacking) (dead : ℕ → Bool) (row : TableRow) : Prop :=
  ∀ packed, packTid pk row.tid = .ok packed → dead packed = false

/-- A step of a table's life. -/
inductive TableStep (enc : ServerEncoding) : IndexedTable → IndexedTable → Prop
  /-- `pg_tre_aminsert` has read the text of a new row. -/
  | begin_insert (w : IndexedTable) (row : TableRow) (batches : List (List InsertEntry)) (ok : Bool)
      (hinsert : aminsert enc row.tid row.value = some (batches, .ok ok)) :
      TableStep enc w { w with inserting := ⟨row, batches⟩ :: w.inserting }
  /-- A part of a batch is appended: what one page has room for. -/
  | append (w : IndexedTable) (pre post : List RowInsert) (row : TableRow)
      (part rest : List InsertEntry) (more : List (List InsertEntry))
      (entries : List PgTrePendingEntry)
      (hinserting : w.inserting = pre ++ ⟨row, (part ++ rest) :: more⟩ :: post)
      (hpack : part.mapM (packEntry w.idx.tidPacking) = .ok entries) :
      TableStep enc w { w with
        idx := w.idx.appendPending entries (packed_of_mapM hpack)
        inserting := pre ++ ⟨row, batchesAfter rest more⟩ :: post }
  | end_insert (w : IndexedTable) (pre post : List RowInsert) (row : TableRow)
      (hinserting : w.inserting = pre ++ ⟨row, []⟩ :: post) :
      TableStep enc w { w with rows := row :: w.rows, inserting := pre ++ post }
  /-- An insert ends with an error. What it has appended stays. -/
  | abort_insert (w : IndexedTable) (pre post : List RowInsert) (ins : RowInsert)
      (hinserting : w.inserting = pre ++ ins :: post) :
      TableStep enc w { w with inserting := pre ++ post }
  | delete (w : IndexedTable) (rows : List TableRow) (hsub : rows ⊆ w.rows) :
      TableStep enc w { w with rows := rows }
  /-- `pg_tre_pending_merge`. Entries that are appended after its scan of the list stay. -/
  | merge (w : IndexedTable) (flushToRun : Bool) (collected rest : List PgTrePendingEntry)
      (hsplit : w.idx.pending = collected ++ rest) :
      TableStep enc w { w with idx := w.idx.consume flushToRun collected rest hsplit }
  /-- A flush that stops before the pending list is truncated. -/
  | flush (w : IndexedTable) (collected rest : List PgTrePendingEntry)
      (hsplit : w.idx.pending = collected ++ rest) :
      TableStep enc w { w with
        idx := { w.idx with toRunIndex := flushRun w.idx.toRunIndex collected } }
  /-- A Hanoi merge whose array has room for the live runs. -/
  | hanoi (w : IndexedTable) (hfits : w.idx.liveRuns.length ≤ runCatalogCap) :
      TableStep enc w { w with
        idx := { w.idx with toRunIndex := (hanoiMerge w.idx.toRunIndex).2 } }
  | collapse (w : IndexedTable) :
      TableStep enc w { w with idx := { w.idx with toRunIndex := collapseRuns w.idx.toRunIndex } }
  /-- `pg_tre_ambulkdelete`. The table has no row with a dead TID, and none is inserted. -/
  | vacuum (w : IndexedTable) (dead : ℕ → Bool)
      (hrows : ∀ row ∈ w.rows, Spares w.idx.tidPacking dead row)
      (hinserting : ∀ ins ∈ w.inserting, Spares w.idx.tidPacking dead ins.row) :
      TableStep enc w { w with
        idx := { w.idx with toRunIndex := postingBulkDelete dead w.idx.toRunIndex } }

/-- The tables that a build and some steps lead to. -/
def TableReachable (enc : ServerEncoding) (w : IndexedTable) : Prop :=
  ∃ pk maxEntriesMb rows idx, ambuild enc pk maxEntriesMb rows = .ok idx ∧
    Relation.ReflTransGen (TableStep enc) ⟨idx, rows, []⟩ w

/-! ## What a step keeps -/

section

variable {enc : ServerEncoding} {idx idx' : ScanIndex} {row : TableRow} {h : UInt64} {packed : ℕ}

/-- A row stays indexed when the packing stays and the finds of its TID do. -/
theorem ScanIndex.HasRow.keep (hrow : idx.HasRow enc row) (hpk : idx'.tidPacking = idx.tidPacking)
    (hkeeps : ∀ packed, packTid idx.tidPacking row.tid = .ok packed → ∀ h,
      idx.Finds h packed → idx'.Finds h packed) : idx'.HasRow enc row := by
  intro t ht
  obtain ⟨packed, hpack, hfinds⟩ := hrow t ht
  exact ⟨packed, hpk ▸ hpack, hkeeps packed hpack _ hfinds⟩

/-- Only the trees have changed, and hold what they held. -/
theorem finds_of_extends {r : RunIndex} (hextends : idx.toRunIndex.Extends r)
    (hfinds : idx.Finds h packed) : ({ idx with toRunIndex := r } : ScanIndex).Finds h packed :=
  hfinds.imp hextends.holds id

/-- Appending pending entries hides nothing that was found. -/
theorem finds_appendPending {entries : List PgTrePendingEntry}
    (hpacked : ∀ e ∈ entries, Packed idx.tidPacking e.tid) (hfinds : idx.Finds h packed) :
    (idx.appendPending entries hpacked).Finds h packed := by
  refine hfinds.imp id ?_
  rintro ⟨e, he, heq⟩
  exact ⟨e, List.mem_append_left _ he, heq⟩

/-- A merge keeps the entries that it takes from the pending list, and leaves the others there. -/
theorem finds_consume {flushToRun : Bool} {collected rest : List PgTrePendingEntry}
    (hsplit : idx.pending = collected ++ rest) (hfinds : idx.Finds h packed) :
    (idx.consume flushToRun collected rest hsplit).Finds h packed := by
  have hextends : idx.toRunIndex.Extends (if flushToRun then flushRun idx.toRunIndex collected
      else mergeBase idx.toRunIndex collected) ∧ ∀ e ∈ collected,
      (if flushToRun then flushRun idx.toRunIndex collected
        else mergeBase idx.toRunIndex collected).Holds e.trigramHash e.tid := by
    cases flushToRun with
    | true => exact extends_flushRun _ _
    | false => exact extends_mergeBase _ _
  rcases hfinds with hholds | ⟨e, he, rfl, rfl⟩
  · exact Or.inl (hextends.1.holds hholds)
  · rw [hsplit] at he
    rcases List.mem_append.mp he with he | he
    · exact Or.inl (hextends.2 e he)
    · exact Or.inr ⟨e, he, rfl, rfl⟩

/-- A bulk delete keeps the TIDs that are not dead. -/
theorem holds_postingBulkDelete {idx : RunIndex} {dead : ℕ → Bool} (hlive : dead packed = false)
    (hholds : idx.Holds h packed) : (postingBulkDelete dead idx).Holds h packed := by
  have htree : ∀ tree : UpperTree, packed ∈ tree.postings h →
      packed ∈ (tree.deleteDead dead).postings h := by
    intro tree hmem
    obtain ⟨tids, hentry, hin⟩ := UpperTree.mem_postings.mp hmem
    exact UpperTree.mem_postings.mpr ⟨tids.filter fun tid => dead tid = false,
      List.mem_map_of_mem hentry, Finset.mem_filter.mpr ⟨hin, hlive⟩⟩
  obtain ⟨run, hrun, hmem⟩ := hholds
  refine ⟨run, hrun, ?_⟩
  cases hroot : run.rootUpper with
  | none =>
    rw [hroot] at hmem
    exact absurd hmem (Finset.notMem_empty packed)
  | some b =>
    rw [hroot] at hmem
    have hany : idx.iterate.any (fun run => decide (run.rootUpper = some b)) = true :=
      List.any_eq_true.mpr ⟨run, hrun, decide_eq_true hroot⟩
    simp only [RunIndex.treeAt, postingBulkDelete, hany, if_true]
    exact htree _ hmem

end

/-! ## The entries of an insert -/

/-- The variables of `pg_tre_aminsert` before its loop. -/
theorem insertStart_sound (tid : ItemPointer) (len : ℕ) :
    (InsertState.mk [] (.insertInit len) [] []).Sound tid where
  ring_length := by simp
  ring_hashes := by simp [windows]
  roomy := SeenSet.insertInit_roomy len
  covered := ⟨fun slot hslot => absurd rfl hslot, by rintro ⟨⟩⟩
  batch_length := by
    rw [List.length_nil, pendingBatchMax]
    decide
  appended_length := by simp
  entries := by simp

/-- The entries of an insert have the TID of its row. -/
theorem aminsert_tids {enc : ServerEncoding} {tid : ItemPointer} {value : Option (List UInt8)}
    {batches : List (List InsertEntry)} {ok : Bool}
    (h : aminsert enc tid value = some (batches, .ok ok)) :
    ∀ batch ∈ batches, ∀ e ∈ batch, e.tid = tid := by
  cases value with
  | none =>
    cases h
    simp
  | some bytes =>
    obtain ⟨s, hloop, hs, -⟩ := (insertStart_sound tid bytes.length).loop (cpstreamOf enc bytes).1
    simp only [aminsert, hloop] at h
    split at h
    · cases h
    · cases h
      exact fun batch hbatch e he => ((InsertState.batches_bounds hs batch hbatch).2.2 e he).1

/-- They have the hashes of its trigrams. -/
theorem hash_mem_of_aminsert {enc : ServerEncoding} {row : TableRow}
    {batches : List (List InsertEntry)} {ok : Bool}
    (h : aminsert enc row.tid row.value = some (batches, .ok ok)) {t : Trigram}
    (ht : row.HasTrigram enc t) : hashTrigramCp t ∈ hashesOf batches := by
  obtain ⟨bytes, text, hvalue, htext, hwindow⟩ := ht
  obtain ⟨batches', heq, -, hhashes⟩ := aminsert_hashes htext row.tid
  rw [hvalue, heq] at h
  cases h
  exact (hhashes _).mpr ⟨t, hwindow, rfl⟩

/-! ## The invariant -/

/-- The rows whose inserts are over are in the index, and an insert that is under way has still to
append what the index does not have of its row. -/
structure IndexedTable.Inv (enc : ServerEncoding) (w : IndexedTable) : Prop where
  ranges : w.idx.RangesCover
  rows : ∀ row ∈ w.rows, w.idx.HasRow enc row
  tids : ∀ ins ∈ w.inserting, ∀ batch ∈ ins.batches, ∀ e ∈ batch, e.tid = ins.row.tid
  inserting : ∀ ins ∈ w.inserting, ∀ t, ins.row.HasTrigram enc t →
    hashTrigramCp t ∈ hashesOf ins.batches ∨ ∃ packed,
      packTid w.idx.tidPacking ins.row.tid = .ok packed ∧ w.idx.Finds (hashTrigramCp t) packed

section

variable {enc : ServerEncoding} {w w' : IndexedTable}

/-- A step that changes only the index keeps the invariant, if it keeps what is found with the TIDs
of the rows. -/
theorem IndexedTable.Inv.setIndex (hw : w.Inv enc) {idx : ScanIndex} (hranges : idx.RangesCover)
    (hpk : idx.tidPacking = w.idx.tidPacking)
    (hrows : ∀ row ∈ w.rows, ∀ packed, packTid w.idx.tidPacking row.tid = .ok packed → ∀ h,
      w.idx.Finds h packed → idx.Finds h packed)
    (hinserting : ∀ ins ∈ w.inserting, ∀ packed, packTid w.idx.tidPacking ins.row.tid = .ok packed →
      ∀ h, w.idx.Finds h packed → idx.Finds h packed) :
    IndexedTable.Inv enc { w with idx := idx } where
  ranges := hranges
  rows := fun row hrow => (hw.rows row hrow).keep hpk (hrows row hrow)
  tids := hw.tids
  inserting := by
    intro ins hins t ht
    refine (hw.inserting ins hins t ht).imp id ?_
    rintro ⟨packed, hpack, hfinds⟩
    exact ⟨packed, hpk ▸ hpack, hinserting ins hins packed hpack _ hfinds⟩

/-- A step that keeps all that is found. -/
theorem IndexedTable.Inv.extend (hw : w.Inv enc) {idx : ScanIndex} (hranges : idx.RangesCover)
    (hpk : idx.tidPacking = w.idx.tidPacking)
    (hfinds : ∀ h packed, w.idx.Finds h packed → idx.Finds h packed) :
    IndexedTable.Inv enc { w with idx := idx } :=
  hw.setIndex hranges hpk (fun _ _ packed _ h => hfinds h packed) fun _ _ packed _ h => hfinds h packed

/-- The hashes that are left after a part was appended. -/
theorem hashesOf_batchesAfter (rest : List InsertEntry) (more : List (List InsertEntry)) :
    hashesOf (batchesAfter rest more) = hashesOf (rest :: more) := by
  unfold batchesAfter
  split_ifs with hnil
  · rw [hnil]
    rfl
  · rfl

/-- The entries of a part are found once they are appended. -/
theorem finds_appended {idx : ScanIndex} {part : List InsertEntry} {entries : List PgTrePendingEntry}
    (hpack : part.mapM (packEntry idx.tidPacking) = .ok entries) {e : InsertEntry} (he : e ∈ part) :
    ∃ packed, packTid idx.tidPacking e.tid = .ok packed ∧
      (idx.appendPending entries (packed_of_mapM hpack)).Finds e.trigramHash packed := by
  obtain ⟨p, hp, heq⟩ := exists_of_forall₂ (forall₂_of_mapM hpack) he
  obtain ⟨htid, hhash⟩ := packed_of_packEntry heq
  exact ⟨p.tid, htid, Or.inr ⟨p, List.mem_append_right _ hp, hhash, rfl⟩⟩

/-- Appending a part of a batch keeps the invariant. -/
theorem IndexedTable.Inv.append (hw : w.Inv enc) {pre post : List RowInsert} {row : TableRow}
    {part rest : List InsertEntry} {more : List (List InsertEntry)} {entries : List PgTrePendingEntry}
    (hinserting : w.inserting = pre ++ ⟨row, (part ++ rest) :: more⟩ :: post)
    (hpack : part.mapM (packEntry w.idx.tidPacking) = .ok entries) :
    IndexedTable.Inv enc { w with
      idx := w.idx.appendPending entries (packed_of_mapM hpack)
      inserting := pre ++ ⟨row, batchesAfter rest more⟩ :: post } := by
  have hidx : IndexedTable.Inv enc
      { w with idx := w.idx.appendPending entries (packed_of_mapM hpack) } :=
    hw.extend hw.ranges rfl fun h packed => finds_appendPending (packed_of_mapM hpack)
  have hmem : (⟨row, (part ++ rest) :: more⟩ : RowInsert) ∈ w.inserting := by
    rw [hinserting]
    simp
  have hold : ∀ ins ∈ pre ++ ⟨row, batchesAfter rest more⟩ :: post,
      ins = ⟨row, batchesAfter rest more⟩ ∨ ins ∈ w.inserting := by
    intro ins hins
    rw [hinserting]
    simp only [List.mem_append, List.mem_cons] at hins ⊢
    tauto
  have htids : ∀ e ∈ part ++ rest, e.tid = row.tid := hw.tids _ hmem _ List.mem_cons_self
  refine ⟨hidx.ranges, hidx.rows, fun ins hins batch hbatch e he => ?_, fun ins hins t ht => ?_⟩
  · rcases hold ins hins with rfl | hins
    · unfold batchesAfter at hbatch
      split_ifs at hbatch with hnil
      · exact hw.tids _ hmem batch (List.mem_cons_of_mem _ hbatch) e he
      · rcases List.mem_cons.mp hbatch with rfl | hbatch
        · exact htids e (List.mem_append_right _ he)
        · exact hw.tids _ hmem batch (List.mem_cons_of_mem _ hbatch) e he
    · exact hw.tids ins hins batch hbatch e he
  · rcases hold ins hins with rfl | hins
    · rcases hidx.inserting _ hmem t ht with hleft | hfinds
      · rw [hashesOf_batchesAfter]
        simp only [hashesOf, List.flatten_cons, List.map_append, List.mem_append, List.mem_map]
          at hleft ⊢
        rcases hleft with (⟨e, he, hhash⟩ | hrest) | hmore
        · obtain ⟨packed, htid, hfinds⟩ := finds_appended hpack he
          rw [htids e (List.mem_append_left _ he)] at htid
          exact Or.inr ⟨packed, htid, hhash ▸ hfinds⟩
        · exact Or.inl (Or.inl hrest)
        · exact Or.inl (Or.inr hmore)
      · exact Or.inr hfinds
    · exact hidx.inserting ins hins t ht

/-- Every step keeps the invariant. -/
theorem TableStep.inv (hstep : TableStep enc w w') (hw : w.Inv enc) : w'.Inv enc := by
  cases hstep with
  | begin_insert row batches ok hinsert =>
    refine ⟨hw.ranges, hw.rows, fun ins hins => ?_, fun ins hins t ht => ?_⟩
    · rcases List.mem_cons.mp hins with rfl | hins
      · exact aminsert_tids hinsert
      · exact hw.tids ins hins
    · rcases List.mem_cons.mp hins with rfl | hins
      · exact Or.inl (hash_mem_of_aminsert hinsert ht)
      · exact hw.inserting ins hins t ht
  | append pre post row part rest more entries hinserting hpack => exact hw.append hinserting hpack
  | end_insert pre post row hinserting =>
    have hsub : ∀ ins ∈ pre ++ post, ins ∈ w.inserting := by
      intro ins hins
      rw [hinserting]
      simp only [List.mem_append, List.mem_cons] at hins ⊢
      tauto
    have hmem : (⟨row, []⟩ : RowInsert) ∈ w.inserting := by
      rw [hinserting]
      simp
    refine ⟨hw.ranges, fun r hr => ?_, fun ins hins => hw.tids ins (hsub ins hins),
      fun ins hins => hw.inserting ins (hsub ins hins)⟩
    rcases List.mem_cons.mp hr with rfl | hr
    · intro t ht
      rcases hw.inserting _ hmem t ht with hleft | hfinds
      · cases hleft
      · exact hfinds
    · exact hw.rows r hr
  | abort_insert pre post ins hinserting =>
    have hsub : ∀ ins ∈ pre ++ post, ins ∈ w.inserting := by
      intro ins hins
      rw [hinserting]
      simp only [List.mem_append, List.mem_cons] at hins ⊢
      tauto
    exact ⟨hw.ranges, hw.rows, fun ins hins => hw.tids ins (hsub ins hins),
      fun ins hins => hw.inserting ins (hsub ins hins)⟩
  | delete rows hsub => exact ⟨hw.ranges, fun r hr => hw.rows r (hsub hr), hw.tids, hw.inserting⟩
  | merge flushToRun collected rest hsplit =>
    refine hw.extend ?_ rfl fun h packed => finds_consume hsplit
    cases flushToRun with
    | true => exact hw.ranges.flushRun collected
    | false => exact hw.ranges.swapBase _ _
  | flush collected rest hsplit =>
    exact hw.extend (hw.ranges.flushRun collected) rfl fun h packed =>
      finds_of_extends (extends_flushRun _ _).1
  | hanoi hfits =>
    refine hw.extend (hw.ranges.hanoiLoop _ _ _) rfl fun h packed hfinds => hfinds.imp ?_ id
    exact (holds_hanoiLoop hfits h packed).mpr
  | collapse =>
    exact hw.extend hw.ranges.collapseRuns rfl fun h packed =>
      finds_of_extends (extends_collapseRuns _)
  | vacuum dead hrows hinserting =>
    refine hw.setIndex (hw.ranges.postingBulkDelete dead) rfl ?_ ?_
    · exact fun row hrow packed hpack h hfinds =>
        hfinds.imp (holds_postingBulkDelete (hrows row hrow packed hpack)) id
    · exact fun ins hins packed hpack h hfinds =>
        hfinds.imp (holds_postingBulkDelete (hinserting ins hins packed hpack)) id

end

/-- In every table that a build and some steps lead to, the invariant holds. -/
theorem TableReachable.inv {enc : ServerEncoding} {w : IndexedTable} (h : TableReachable enc w) :
    w.Inv enc := by
  obtain ⟨pk, maxEntriesMb, rows, idx, hbuild, hrun⟩ := h
  obtain ⟨tree, rfl, hrows⟩ := ambuild_hasRow hbuild
  have hstart : IndexedTable.Inv enc ⟨builtIndex pk tree rows.length, rows, []⟩ :=
    ⟨(IndexReachable.build pk tree rows.length).rangesCover, hrows, by simp, by simp⟩
  induction hrun with
  | refl => exact hstart
  | tail _ hstep ih => exact hstep.inv ih

/-! ## Every reachable table -/

/-- A total function on a list's members can be mapped over it. -/
theorem exists_mapM {α β ε : Type} {f : α → Except ε β} {l : List α}
    (h : ∀ a ∈ l, ∃ b, f a = .ok b) : ∃ l', l.mapM f = .ok l' := by
  induction l with
  | nil => exact ⟨[], rfl⟩
  | cons a l ih =>
    obtain ⟨b, hb⟩ := h a List.mem_cons_self
    obtain ⟨l', hl'⟩ := ih fun a' ha' => h a' (List.mem_cons_of_mem _ ha')
    exact ⟨b :: l', by rw [List.mapM_cons, hb, hl']; rfl⟩

/-- With legacy TIDs a build ends once the rows are scanned. -/
theorem exists_ambuild {enc : ServerEncoding} {maxEntriesMb : ℕ} {rows : List TableRow} {b : BuildState}
    (hscan : scanTable enc maxEntriesMb rows = .ok b) :
    ∃ tree, ambuild enc .legacy maxEntriesMb rows = .ok (builtIndex .legacy tree rows.length) := by
  have hload : ∃ tree, bulkloadSorted .legacy b.entries = .ok tree := by
    obtain ⟨postings, hpostings⟩ : ∃ postings,
        (sortedPostings b.entries).accums.mapM (loadPosting .legacy) = .ok postings := by
      refine exists_mapM fun a _ => ?_
      obtain ⟨tids, htids⟩ : ∃ tids, repackTids .legacy a.2 = .ok tids :=
        exists_mapM fun tid _ => ⟨_, packTid_legacy _⟩
      exact ⟨(a.1, tids.toFinset), by rw [loadPosting, htids]; rfl⟩
    unfold bulkloadSorted
    split
    next e h => cases hpostings.symm.trans h
    next postings' h => exact ⟨_, rfl⟩
  obtain ⟨tree, htree⟩ := hload
  exact ⟨tree, by rw [ambuild, hscan]; simp only [htree]⟩

/-- A table of one row. -/
def gitTableRow : TableRow := ⟨firstTid, some [103, 105, 116]⟩

/-- Its entry. -/
def gitEntry : InsertEntry := ⟨hashTrigramCp (103, 105, 116), firstTid, 0⟩

/-- The row `git` is inserted, and the pending list is merged. -/
theorem gitTable_reachable : ∃ w, TableReachable latin1Encoding w ∧ gitTableRow ∈ w.rows := by
  obtain ⟨tree, hbuild⟩ := @exists_ambuild latin1Encoding 0 [] ⟨0, []⟩ rfl
  have hempty := Relation.ReflTransGen.refl (r := TableStep latin1Encoding)
    (a := ⟨builtIndex .legacy tree 0, [], []⟩)
  have hbegun := hempty.tail (.begin_insert _ gitTableRow [[gitEntry]] true rfl)
  have happended := hbegun.tail (.append _ [] [] gitTableRow [gitEntry] [] [] _ rfl rfl)
  have hended := happended.tail (.end_insert _ [] [] gitTableRow rfl)
  have hmerged := hended.tail (.merge _ true _ [] (List.append_nil _).symm)
  exact ⟨_, ⟨.legacy, 0, [], _, hbuild, hmerged⟩, List.mem_cons_self⟩

/-- The three bytes spell the text `git`. -/
theorem gitTable_text : latin1Encoding.Spells [103, 105, 116] [103, 105, 116] := by
  refine @ServerEncoding.Spells.char latin1Encoding _ 1 103 _ rfl ?_
  refine @ServerEncoding.Spells.char latin1Encoding _ 1 105 _ rfl ?_
  exact @ServerEncoding.Spells.char latin1Encoding _ 1 116 _ rfl .nil

section

variable {enc : ServerEncoding} {w : IndexedTable} {row : TableRow} {bytes : List UInt8}
  {text : List CodePoint}

/-- The rows whose inserts are over stay in the index, whatever inserts, merges and vacuums come in
between: every trigram of such a row is found with its TID. -/
theorem tableReachable_hasRow (hw : TableReachable enc w) (hrow : row ∈ w.rows)
    (hvalue : row.value = some bytes) (htext : enc.Spells bytes text) :
    ∀ t ∈ windows text, ∃ packed, packTid w.idx.tidPacking row.tid = .ok packed ∧
      w.idx.Finds (hashTrigramCp t) packed := by
  intro t ht
  exact hw.inv.rows row hrow t ⟨bytes, text, hvalue, htext, ht⟩

/-- A reachable table with one row, which the index finds under its trigram. -/
theorem tableReachable_hasRow_git : ∃ w, TableReachable latin1Encoding w ∧ gitTableRow ∈ w.rows ∧
    ∃ packed, packTid w.idx.tidPacking firstTid = .ok packed ∧
      w.idx.Finds (hashTrigramCp (103, 105, 116)) packed := by
  obtain ⟨w, hw, hrow⟩ := gitTable_reachable
  exact ⟨w, hw, hrow, tableReachable_hasRow hw hrow rfl gitTable_text (103, 105, 116) (by decide)⟩

end

end PgTre
