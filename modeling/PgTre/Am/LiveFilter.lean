import PgTre.Am.LiveRows
import PgTre.Am.SurfFlag
import PgTre.Am.TrigramCount
import PgTre.Util.SurfQueries

/-!
# The range filter of a live table

A build also makes a SuRF over the keys of the trigrams that it has seen, one key for each hash, and
nothing is added to it later. An anchored scan is rejected when the key of its prefix is not in the
SuRF. The scan trusts it only while the pending list is empty and no merge has added a trigram. So
the SuRF has a key for every hash of the index then, and a row is rejected only if one of its
trigrams has the hash of another trigram that the build saw.
-/

namespace PgTre

open Strings

/-! ## The keys of a build -/

/-- The bytes of a value that is read to its end are a text. -/
theorem spells_of_cpstream {enc : ServerEncoding} {s : List UInt8} {text : List CodePoint}
    {fuel pos : ℕ} (hfuel : s.length ≤ fuel) (h : cpstream enc fuel pos s = (text, .ok ())) :
    enc.Spells s text := by
  induction fuel generalizing s text pos with
  | zero =>
    obtain rfl := List.eq_nil_of_length_eq_zero (Nat.le_zero.mp hfuel)
    cases h
    exact .nil
  | succ fuel ih =>
    cases s with
    | nil =>
      cases h
      exact .nil
    | cons c s =>
      rw [cpstream] at h
      · cases hchar : decodeChar enc (c :: s) with
        | error e => simp [hchar] at h
        | ok p =>
          obtain ⟨len, w⟩ := p
          obtain ⟨hpos, hle, hlt⟩ := decodeChar_lt hchar
          simp only [hchar, toInt_of_lt hlt, Int.toNat_natCast] at h
          rw [if_neg (by omega)] at h
          obtain ⟨rfl, hrest⟩ := Prod.mk.inj h
          have hdrop : ((c :: s).drop len).length ≤ fuel := by
            rw [List.length_drop]
            omega
          exact .char hchar (ih hdrop (Prod.ext rfl hrest))
      · simp

section

variable {enc : ServerEncoding} {maxEntriesMb : ℕ} {b b' : BuildState} {rows : List TableRow}

/-- The trigrams of a row are those of its text. -/
theorem TableRow.hasTrigram_iff {row : TableRow} {bytes : List UInt8} {text : List CodePoint}
    (hvalue : row.value = some bytes) (htext : enc.Spells bytes text) {t : Trigram} :
    row.HasTrigram enc t ↔ t ∈ windows text := by
  constructor
  · rintro ⟨bytes', text', hvalue', htext', ht⟩
    obtain rfl := Option.some.inj (hvalue.symm.trans hvalue')
    have hsame := (cpstream_spells htext' le_rfl 0).symm.trans (cpstream_spells htext le_rfl 0)
    rwa [(Prod.mk.inj hsame).1] at ht
  · exact fun ht => ⟨bytes, text, hvalue, htext, ht⟩

/-- A row adds tuples for its trigrams, and no others. -/
theorem extractTrigramsOf_holds {row : TableRow} {P : Trigram → Prop} (hb : Holds P b.entries)
    (h : extractTrigramsOf enc maxEntriesMb b row.tid row.value = .ok b') :
    Holds (fun t => P t ∨ row.HasTrigram enc t) b'.entries := by
  cases hvalue : row.value with
  | none =>
    rw [hvalue] at h
    cases h
    refine hb.congr fun t => ?_
    simp [TableRow.HasTrigram, hvalue]
  | some bytes =>
    rw [hvalue, extractTrigramsOf] at h
    cases hstream : cpstreamOf enc bytes with
    | mk text ended =>
      rw [hstream] at h
      cases hloop : extractLoop maxEntriesMb row.tid text [] (.init bytes.length) b with
      | error e =>
        rw [hloop] at h
        cases h
      | ok b₁ =>
        rw [hloop] at h
        cases ended with
        | error e => cases h
        | ok u =>
          cases h
          have htext : enc.Spells bytes text := spells_of_cpstream le_rfl hstream
          have hseen : (SeenSet.init bytes.length).Within b.entries :=
            ⟨fun slot hslot => absurd rfl hslot, fun hzero => absurd hzero Bool.false_ne_true⟩
          have hadded := extractLoop_holds (by simp) (by simp [windows]) hb hseen hloop
          exact hadded.congr fun t => or_congr_right (TableRow.hasTrigram_iff hvalue htext).symm

/-- The tuples of a scan are those of the trigrams of the rows. -/
theorem scanTable_holds (h : scanTable enc maxEntriesMb rows = .ok b) :
    Holds (fun t => ∃ row ∈ rows, row.HasTrigram enc t) b.entries := by
  have hloop : ∀ (rows : List TableRow) (b₀ : BuildState) (P : Trigram → Prop), Holds P b₀.entries →
      rows.foldlM (fun b row => extractTrigramsOf enc maxEntriesMb b row.tid row.value) b₀ = .ok b →
      Holds (fun t => P t ∨ ∃ row ∈ rows, row.HasTrigram enc t) b.entries := by
    intro rows
    induction rows with
    | nil =>
      intro b₀ P hb hfold
      cases hfold
      exact hb.congr fun t => by simp
    | cons row rows ih =>
      intro b₀ P hb hfold
      rw [List.foldlM_cons] at hfold
      cases hrow : extractTrigramsOf enc maxEntriesMb b₀ row.tid row.value with
      | error e =>
        rw [hrow] at hfold
        cases hfold
      | ok b₁ =>
        rw [hrow] at hfold
        refine (ih b₁ _ (extractTrigramsOf_holds hb hrow) hfold).congr fun t => ?_
        simp only [List.mem_cons, exists_eq_or_imp]
        tauto
  have hempty : Holds (fun _ => False) [] :=
    ⟨fun e he => absurd he List.not_mem_nil, fun _ hfalse => hfalse.elim⟩
  exact (hloop rows ⟨0, []⟩ _ hempty h).congr fun t => by simp

end

/-- The hash of the current posting, if there is one. -/
def PostingLoop.current (s : PostingLoop) : Option UInt64 := s.builder.map fun _ => s.curHash

/-- A turn with another hash than the current one adds a posting and a key, a turn with the same adds
none. -/
theorem PostingLoop.next_current (s : PostingLoop) (e : BuildEntry) :
    (s.next e).current = some e.trigramHash ∧
      (s.current = some e.trigramHash →
        (s.next e).finish.accums.map Prod.fst = s.finish.accums.map Prod.fst ∧
          (s.next e).finish.surfKeys = s.finish.surfKeys) ∧
      (s.current ≠ some e.trigramHash →
        (s.next e).finish.accums.map Prod.fst = s.finish.accums.map Prod.fst ++ [e.trigramHash] ∧
          (s.next e).finish.surfKeys = s.finish.surfKeys ++ [e.trigramKey]) := by
  obtain ⟨builder, curHash, lastTid, out⟩ := s
  cases builder with
  | none =>
    simp only [current, next, begin, addTid, finish, PostingOut.addKey, true_or, if_true]
    split_ifs <;> simp
  | some tids =>
    by_cases hsame : e.trigramHash = curHash
    · subst hsame
      simp only [current, next, begin, addTid, finish, PostingOut.addKey]
      split_ifs <;> simp_all
    · simp only [current, next, begin, addTid, finish, PostingOut.addKey, hsame, ne_eq,
        not_false_eq_true, or_true, if_true]
      split_ifs <;> simp [Ne.symm hsame]

/-- The postings of a stream have the hashes of its heads, and the keys are theirs. -/
theorem foldl_next_heads (stream : List BuildEntry) (s : PostingLoop) :
    (stream.foldl PostingLoop.next s).finish.accums.map Prod.fst =
        s.finish.accums.map Prod.fst ++
          (postingHeads s.current stream).map BuildEntry.trigramHash ∧
      (stream.foldl PostingLoop.next s).finish.surfKeys =
        s.finish.surfKeys ++ (postingHeads s.current stream).map BuildEntry.trigramKey := by
  induction stream generalizing s with
  | nil => simp [postingHeads]
  | cons e stream ih =>
    obtain ⟨hcurrent, hsame, hnew⟩ := s.next_current e
    obtain ⟨haccums, hkeys⟩ := ih (s.next e)
    rw [hcurrent] at haccums hkeys
    rw [List.foldl_cons, haccums, hkeys, postingHeads]
    split_ifs with hhash
    · obtain ⟨haccums', hkeys'⟩ := hsame hhash
      rw [haccums', hkeys', hhash]
      exact ⟨rfl, rfl⟩
    · obtain ⟨haccums', hkeys'⟩ := hnew hhash
      rw [haccums', hkeys', List.map_cons, List.map_cons, List.append_assoc, List.append_assoc]
      exact ⟨rfl, rfl⟩

/-- The postings of a sort have the hashes of its heads, and the keys are theirs. -/
theorem sortedPostings_heads (entries : List BuildEntry) :
    (sortedPostings entries).accums.map Prod.fst =
        (postingHeads none (entries.mergeSort BuildEntry.le)).map BuildEntry.trigramHash ∧
      (sortedPostings entries).surfKeys = buildPostings entries := by
  exact foldl_next_heads (entries.mergeSort BuildEntry.le) .start

/-- The loaded tree has hashes of tuples only. -/
theorem mem_hashes_bulkloadSorted {pk : TidPacking} {entries : List BuildEntry} {tree : UpperTree}
    (h : bulkloadSorted pk entries = .ok tree) {hash : UInt64}
    (hmem : hash ∈ tree.entries.map Prod.fst) : ∃ e ∈ entries, e.trigramHash = hash := by
  unfold bulkloadSorted at h
  split at h
  · cases h
  next postings hload =>
    obtain rfl := Except.ok.inj h
    change hash ∈ postings.map Prod.fst at hmem
    rw [← hashes_of_mapM hload, (sortedPostings_heads entries).1] at hmem
    obtain ⟨e, he, rfl⟩ := List.mem_map.mp hmem
    exact ⟨e, (onePerHash_postingHeads entries).subset e he, rfl⟩

/-- The keys of the SuRF, in order and each once. -/
def sortedKeys (entries : List BuildEntry) : List ℕ :=
  dropRepeats ((sortedPostings entries).surfKeys.mergeSort fun a b => decide (a ≤ b))

/-- The SuRF of `pg_tre_ambuild`. Without keys there is none, and `root_surf` stays invalid. -/
def buildSurf (enc : ServerEncoding) (maxEntriesMb : ℕ) (rows : List TableRow) :
    Except PgError (Option PgTreSurf) :=
  match scanTable enc maxEntriesMb rows with
  | .error e => .error e
  | .ok b =>
      if sortedKeys b.entries = [] then .ok none
      else (pgTreSurfBuild ((sortedKeys b.entries).map Nat.toUInt64)).map some

/-- The sorted keys are the keys of the posting heads. -/
theorem mem_sortedKeys {entries : List BuildEntry} {key : ℕ} :
    key ∈ sortedKeys entries ↔
      ∃ e ∈ postingHeads none (entries.mergeSort BuildEntry.le), e.trigramKey = key := by
  rw [sortedKeys, mem_dropRepeats, List.mem_mergeSort, (sortedPostings_heads entries).2]
  exact List.mem_map

/-- Dropping the repeats of an ascending list leaves it strictly ascending. -/
theorem pairwise_dropRepeats {keys : List ℕ} (h : keys.Pairwise (· ≤ ·)) :
    (dropRepeats keys).Pairwise (· < ·) := by
  induction keys using dropRepeats.induct with
  | case1 a keys ih =>
    rw [dropRepeats, if_pos rfl]
    exact ih (List.pairwise_cons.mp h).2
  | case2 a b keys hne ih =>
    obtain ⟨hfirst, hrest⟩ := List.pairwise_cons.mp h
    rw [dropRepeats, if_neg hne]
    refine List.pairwise_cons.mpr ⟨fun key hkey => ?_, ih hrest⟩
    rw [mem_dropRepeats] at hkey
    have hb := lt_of_le_of_ne (hfirst b List.mem_cons_self) hne
    rcases List.mem_cons.mp hkey with rfl | hkey
    · exact hb
    · exact hb.trans_le ((List.pairwise_cons.mp hrest).1 key hkey)
  | case3 keys hshort =>
    cases keys with
    | nil => exact List.Pairwise.nil
    | cons a keys =>
      cases keys with
      | nil => exact List.pairwise_singleton _ _
      | cons b keys => exact absurd rfl (hshort a b keys)

/-- The keys handed to the filter ascend strictly. -/
theorem sortedKeys_ascending (entries : List BuildEntry) : (sortedKeys entries).Pairwise (· < ·) := by
  apply pairwise_dropRepeats
  have hle : ((sortedPostings entries).surfKeys.mergeSort fun a b => decide (a ≤ b)).Pairwise
      fun a b => decide (a ≤ b) = true := by
    refine List.pairwise_mergeSort (fun a b c hab hbc => ?_) (fun a b => ?_) _
    · simp only [decide_eq_true_eq] at hab hbc ⊢
      exact hab.trans hbc
    · simp only [Bool.or_eq_true, decide_eq_true_eq]
      exact Nat.le_total a b
  exact hle.imp fun h => of_decide_eq_true h

/-- A trigram's key fits in 64 bits. -/
theorem trigramKeyCp_lt (t : Trigram) : trigramKeyCp t < 2 ^ 64 := by
  have hpart : ∀ n k, k ≤ 2 * cpBits → (n % 2 ^ cpBits) <<< k < 2 ^ 64 := by
    intro n k hk
    have hlt : n % 2 ^ cpBits < 2 ^ cpBits := Nat.mod_lt _ (Nat.two_pow_pos _)
    rw [Nat.shiftLeft_eq]
    calc n % 2 ^ cpBits * 2 ^ k < 2 ^ cpBits * 2 ^ k :=
          (Nat.mul_lt_mul_right (Nat.two_pow_pos k)).mpr hlt
      _ = 2 ^ (cpBits + k) := (pow_add 2 cpBits k).symm
      _ ≤ 2 ^ 64 := Nat.pow_le_pow_right (by omega) (by unfold cpBits at *; omega)
  unfold trigramKeyCp
  refine Nat.or_lt_two_pow (Nat.or_lt_two_pow (hpart _ _ le_rfl) (hpart _ _ ?_)) ?_
  · unfold cpBits
    omega
  · exact hpart t.2.2 0 (Nat.zero_le _)

/-- A range of one key overlaps if the key was taken. -/
theorem pgTreSurfRangeOverlaps_self {keys : List UInt64} (hsorted : keys.Pairwise (· < ·))
    {s : PgTreSurf} (hbuild : pgTreSurfBuild keys = .ok s) {key : UInt64} (hkey : key ∈ keys) :
    pgTreSurfRangeOverlaps s key key = true :=
  (pgTreSurfBuild_ranges hsorted hbuild key key).mpr ⟨key, hkey, UInt64.le_refl _, UInt64.le_refl _⟩

/-- There are no more keys than entries. -/
theorem length_sortedKeys_le (entries : List BuildEntry) :
    (sortedKeys entries).length ≤ entries.length := by
  have hdrop : ∀ keys : List ℕ, (dropRepeats keys).length ≤ keys.length := by
    intro keys
    induction keys using dropRepeats.induct with
    | case1 a keys ih =>
      rw [dropRepeats, if_pos rfl]
      exact ih.trans (Nat.le_succ _)
    | case2 a b keys hne ih =>
      rw [dropRepeats, if_neg hne]
      exact Nat.succ_le_succ ih
    | case3 keys hshort =>
      rw [dropRepeats]
      exact hshort
  have hheads : ∀ (stream : List BuildEntry) (cur : Option UInt64),
      (postingHeads cur stream).length ≤ stream.length := by
    intro stream
    induction stream with
    | nil => exact fun _ => Nat.le_refl 0
    | cons e stream ih =>
      intro cur
      rw [postingHeads]
      split_ifs
      · exact (ih _).trans (Nat.le_succ _)
      · exact Nat.succ_le_succ (ih _)
  calc (sortedKeys entries).length ≤ ((sortedPostings entries).surfKeys.mergeSort _).length := hdrop _
    _ = (buildPostings entries).length := by
      rw [List.length_mergeSort, (sortedPostings_heads entries).2]
    _ ≤ (entries.mergeSort BuildEntry.le).length := by
      rw [buildPostings, List.length_map]
      exact hheads _ _
    _ = entries.length := List.length_mergeSort entries

/-- The SuRF is built if the memory for its ranges may be allocated, and there is one if there are
tuples. -/
theorem exists_buildSurf {enc : ServerEncoding} {maxEntriesMb : ℕ} {rows : List TableRow}
    {b : BuildState} (hscan : scanTable enc maxEntriesMb rows = .ok b) (hne : b.entries ≠ [])
    (hsize : 8 * (b.entries.length + 1) ≤ maxAllocSize) :
    ∃ s, buildSurf enc maxEntriesMb rows = .ok (some s) := by
  have hkeys : sortedKeys b.entries ≠ [] := by
    obtain ⟨e, he⟩ := List.exists_mem_of_ne_nil _ hne
    obtain ⟨head, hhead, -⟩ := (onePerHash_postingHeads b.entries).covers e he
    exact List.ne_nil_of_mem (mem_sortedKeys.mpr ⟨head, hhead, rfl⟩)
  have hlength := length_sortedKeys_le b.entries
  obtain ⟨s, hs⟩ := @exists_pgTreSurfBuild ((sortedKeys b.entries).map Nat.toUInt64) (by
    rw [List.length_map]
    omega)
  exact ⟨s, by simp only [buildSurf, hscan, if_neg hkeys, hs, Except.map]⟩

/-- One of the rows has the trigram. -/
def HaveTrigram (enc : ServerEncoding) (rows : List TableRow) (t : Trigram) : Prop :=
  ∃ row ∈ rows, row.HasTrigram enc t

/-- For every trigram of the rows the SuRF has the key of a trigram with its hash. -/
theorem buildSurf_overlaps {enc : ServerEncoding} {maxEntriesMb : ℕ} {rows : List TableRow}
    {s : PgTreSurf} (h : buildSurf enc maxEntriesMb rows = .ok (some s)) {t : Trigram}
    (ht : HaveTrigram enc rows t) : ∃ t', HaveTrigram enc rows t' ∧
      hashTrigramCp t' = hashTrigramCp t ∧
      pgTreSurfRangeOverlaps s (trigramKeyCp t').toUInt64 (trigramKeyCp t').toUInt64 = true := by
  unfold buildSurf at h
  cases hscan : scanTable enc maxEntriesMb rows with
  | error e =>
    rw [hscan] at h
    cases h
  | ok b =>
    simp only [hscan] at h
    split_ifs at h with hempty
    · cases h
    cases hbuild : pgTreSurfBuild ((sortedKeys b.entries).map Nat.toUInt64) with
    | error e =>
      rw [hbuild] at h
      cases h
    | ok s' =>
      rw [hbuild] at h
      cases h
      have hholds := scanTable_holds hscan
      have hheads := onePerHash_postingHeads b.entries
      obtain ⟨e, he, hhash⟩ := hholds.complete t ht
      obtain ⟨head, hhead, heq⟩ := hheads.covers e he
      obtain ⟨t', ht', hhash', hkey⟩ := hholds.sound head (hheads.subset head hhead)
      refine ⟨t', ht', hhash'.symm.trans (heq.trans hhash), ?_⟩
      have hlt : ∀ key ∈ sortedKeys b.entries, key < 2 ^ 64 := by
        intro key hmem
        obtain ⟨x, hx, rfl⟩ := mem_sortedKeys.mp hmem
        obtain ⟨t'', -, -, hkey''⟩ := hholds.sound x (hheads.subset x hx)
        exact hkey'' ▸ trigramKeyCp_lt t''
      have hsorted : ((sortedKeys b.entries).map Nat.toUInt64).Pairwise (· < ·) := by
        refine List.pairwise_map.mpr ((sortedKeys_ascending b.entries).imp_of_mem ?_)
        intro key key' hkey hkey' hless
        simp only [UInt64.lt_iff_toNat_lt, Nat.toUInt64]
        rw [UInt64.toNat_ofNat_of_lt' (hlt key hkey), UInt64.toNat_ofNat_of_lt' (hlt key' hkey')]
        exact hless
      apply pgTreSurfRangeOverlaps_self hsorted hbuild
      exact List.mem_map_of_mem (mem_sortedKeys.mpr ⟨head, hhead, hkey⟩)

/-- The base tree of a build has hashes of trigrams of the rows only, and there are no runs. -/
theorem ambuild_has {enc : ServerEncoding} {pk : TidPacking} {maxEntriesMb : ℕ} {rows : List TableRow}
    {idx : ScanIndex} (h : ambuild enc pk maxEntriesMb rows = .ok idx) {hash : UInt64} :
    (idx.BaseHas hash → ∃ t, HaveTrigram enc rows t ∧ hashTrigramCp t = hash) ∧ ¬idx.RunHas hash := by
  unfold ambuild at h
  split at h
  · cases h
  next b hscan =>
    split at h
    · cases h
    next tree hload =>
      obtain rfl := Except.ok.inj h
      refine ⟨fun hhas => ?_, ?_⟩
      · have hmem : hash ∈ tree.entries.map Prod.fst := by
          by_cases hempty : tree.entries = []
          · have hroot : (builtIndex pk tree rows.length).rootUpper = none := if_pos hempty
            rw [RunIndex.BaseHas, hroot] at hhas
            cases hhas
          · have hroot : (builtIndex pk tree rows.length).rootUpper = some 1 := if_neg hempty
            rw [RunIndex.BaseHas, hroot] at hhas
            exact hhas
        obtain ⟨e, he, rfl⟩ := mem_hashes_bulkloadSorted hload hmem
        obtain ⟨t, ht, hhash, -⟩ := (scanTable_holds hscan).sound e he
        exact ⟨t, ht, hhash.symm⟩
      · rintro ⟨run, hrun, -⟩
        simp [RunIndex.liveRuns, builtIndex, catalogRuns] at hrun

/-! ## The life of the filter -/

/-- A table with the SuRF of its build. -/
structure FilteredTable extends IndexedTable where
  /-- The rows that the build saw. -/
  built : List TableRow
  /-- What `pg_tre_surf_read` reads at `root_surf`. -/
  surf : Option PgTreSurf
  surfComplete : Bool
  /-- How many entries at the head of the pending list are in the run of a flush that stopped
  halfway. -/
  flushed : ℕ

/-- A step of a table's life, with what it does to the flag of the SuRF. The scan of a merge comes
as far as those of the flushes before it that stopped halfway. -/
inductive FilteredStep (enc : ServerEncoding) : FilteredTable → FilteredTable → Prop
  /-- A step that leaves the trees alone. It may append entries. -/
  | rows (w : FilteredTable) (table : IndexedTable) (more : List PgTrePendingEntry)
      (hstep : TableStep enc w.toIndexedTable table)
      (htrees : table.idx.toRunIndex = w.idx.toRunIndex)
      (hpending : table.idx.pending = w.idx.pending ++ more) :
      FilteredStep enc w { w with toIndexedTable := table }
  /-- `pg_tre_pending_merge`. `finalize_merge` clears the flag if a trigram was added. -/
  | merge (w : FilteredTable) (flushToRun : Bool) (collected rest : List PgTrePendingEntry)
      (hsplit : w.idx.pending = collected ++ rest) (hwatermark : w.flushed ≤ collected.length) :
      FilteredStep enc w { w with
        idx := w.idx.consume flushToRun collected rest hsplit
        surfComplete := w.surfComplete && !addsTrigram (w.idx.treeAt w.idx.rootUpper) flushToRun
          (collectPending collected)
        flushed := 0 }
  /-- A flush that stops before `finalize_merge`. -/
  | flush (w : FilteredTable) (collected rest : List PgTrePendingEntry)
      (hsplit : w.idx.pending = collected ++ rest) (hwatermark : w.flushed ≤ collected.length) :
      FilteredStep enc w { w with
        idx := { w.idx with toRunIndex := flushRun w.idx.toRunIndex collected }
        flushed := collected.length }
  | hanoi (w : FilteredTable) (hfits : w.idx.liveRuns.length ≤ runCatalogCap) :
      FilteredStep enc w { w with
        idx := { w.idx with toRunIndex := (hanoiMerge w.idx.toRunIndex).2 } }
  /-- `pg_tre_collapse_runs`. Its one caller, `pg_tre_amvacuumcleanup`, has merged the pending list
  under the same lock, so that no flush is left halfway. -/
  | collapse (w : FilteredTable) (hmerged : w.flushed = 0) :
      FilteredStep enc w { w with idx := { w.idx with toRunIndex := collapseRuns w.idx.toRunIndex } }
  | vacuum (w : FilteredTable) (dead : ℕ → Bool)
      (hrows : ∀ row ∈ w.rows, Spares w.idx.tidPacking dead row)
      (hinserting : ∀ ins ∈ w.inserting, Spares w.idx.tidPacking dead ins.row) :
      FilteredStep enc w { w with
        idx := { w.idx with toRunIndex := postingBulkDelete dead w.idx.toRunIndex } }

/-- A table that was just built. The flag is set if there is a SuRF. -/
def FilteredTable.initial (idx : ScanIndex) (rows : List TableRow) (surf : Option PgTreSurf) :
    FilteredTable where
  idx := idx
  rows := rows
  inserting := []
  built := rows
  surf := surf
  surfComplete := surf.isSome
  flushed := 0

/-- The tables with a SuRF that a build and some steps lead to. -/
def FilteredReachable (enc : ServerEncoding) (w : FilteredTable) : Prop :=
  ∃ pk maxEntriesMb rows idx surf, ambuild enc pk maxEntriesMb rows = .ok idx ∧
    buildSurf enc maxEntriesMb rows = .ok surf ∧
    Relation.ReflTransGen (FilteredStep enc) (.initial idx rows surf) w

/-- `pg_tre_surf_prefilter_rejects`. -/
def FilteredTable.surfPrefilterRejects (w : FilteredTable) (q : TrigramQuery) : Bool :=
  match q.surfRange with
  | none => false
  | some (lo, hi) =>
      if q.alwaysTrue then false
      else
        match w.surf with
        | none => false
        | some surf =>
            if !w.surfComplete || !w.idx.pending.isEmpty then false
            else !pgTreSurfRangeOverlaps surf lo.toUInt64 hi.toUInt64

section

variable {enc : ServerEncoding} {w w' : FilteredTable}

/-- Seen without the SuRF it is a step of the table. -/
theorem FilteredStep.tableStep (h : FilteredStep enc w w') :
    TableStep enc w.toIndexedTable w'.toIndexedTable := by
  cases h with
  | rows table more hstep htrees hpending => exact hstep
  | merge flushToRun collected rest hsplit hwatermark =>
    exact .merge w.toIndexedTable flushToRun collected rest hsplit
  | flush collected rest hsplit hwatermark => exact .flush w.toIndexedTable collected rest hsplit
  | hanoi hfits => exact .hanoi w.toIndexedTable hfits
  | collapse hmerged => exact .collapse w.toIndexedTable
  | vacuum dead hrows hinserting => exact .vacuum w.toIndexedTable dead hrows hinserting

/-- Forgetting the filter gives a reachable table. -/
theorem FilteredReachable.table (h : FilteredReachable enc w) :
    TableReachable enc w.toIndexedTable := by
  obtain ⟨pk, maxEntriesMb, rows, idx, surf, hbuild, -, hrun⟩ := h
  exact ⟨pk, maxEntriesMb, rows, idx, hbuild, hrun.lift (fun w => w.toIndexedTable)
    fun _ _ hstep => hstep.tableStep⟩

/-! ## What the flag says -/

/-- The build has seen a trigram with the hash. -/
def FilteredTable.Saw (enc : ServerEncoding) (w : FilteredTable) (h : UInt64) : Prop :=
  ∃ t, HaveTrigram enc w.built t ∧ hashTrigramCp t = h

/-- While the flag is set, the build has seen every hash of the base tree, and every hash of a run
but for those of a flush that stopped halfway, whose entries are pending. -/
structure FilteredTable.FlagSound (enc : ServerEncoding) (w : FilteredTable) : Prop where
  surf : ∀ s, w.surf = some s → ∀ t, HaveTrigram enc w.built t → ∃ t', HaveTrigram enc w.built t' ∧
    hashTrigramCp t' = hashTrigramCp t ∧
    pgTreSurfRangeOverlaps s (trigramKeyCp t').toUInt64 (trigramKeyCp t').toUInt64 = true
  base : w.surfComplete = true → ∀ h, w.idx.BaseHas h → w.Saw enc h
  runs : w.surfComplete = true → ∀ h, w.idx.RunHas h →
    w.Saw enc h ∨ ∃ e ∈ w.idx.pending.take w.flushed, e.trigramHash = h

/-- A step of the trees that brings no trigram. -/
theorem FilteredTable.FlagSound.trees (hw : w.FlagSound enc) {r : RunIndex}
    (hbase : w.surfComplete = true → ∀ h, r.BaseHas h → w.Saw enc h)
    (hruns : ∀ h, r.RunHas h → w.idx.RunHas h) :
    FilteredTable.FlagSound enc { w with idx := { w.idx with toRunIndex := r } } where
  surf := hw.surf
  base := hbase
  runs := fun hflag h hhas => hw.runs hflag h (hruns h hhas)

/-- A merge that adds no trigram keeps the flag. -/
theorem FilteredTable.FlagSound.merge (hw : w.FlagSound enc) (flushToRun : Bool)
    {collected rest : List PgTrePendingEntry} (hsplit : w.idx.pending = collected ++ rest)
    (hwatermark : w.flushed ≤ collected.length) :
    FilteredTable.FlagSound enc { w with
      idx := w.idx.consume flushToRun collected rest hsplit
      surfComplete := w.surfComplete && !addsTrigram (w.idx.treeAt w.idx.rootUpper) flushToRun
        (collectPending collected)
      flushed := 0 } := by
  have htakes : ∀ e ∈ w.idx.pending.take w.flushed, e ∈ collected := by
    intro e he
    have hin := List.take_subset_take_left w.idx.pending hwatermark he
    rwa [hsplit, List.take_left] at hin
  refine ⟨hw.surf, fun hflag h hhas => ?_, fun hflag h hhas => Or.inl ?_⟩
  all_goals
    obtain ⟨hset, hadds⟩ := Bool.and_eq_true_iff.mp hflag
    rw [Bool.not_eq_true'] at hadds
  all_goals cases flushToRun
  · rcases baseHas_mergeBase hhas with hold | ⟨e, he, rfl⟩
    · exact hw.base hset h hold
    · exact hw.base hset _ (baseHas_of_addsTrigram hadds he)
  · exact hw.base hset h (baseHas_flushRun.mp hhas)
  · rcases hw.runs hset h (runHas_mergeBase hhas) with hold | ⟨e, he, rfl⟩
    · exact hold
    · exact hw.base hset _ (baseHas_of_addsTrigram hadds (htakes e he))
  · -- A flush that leaves the flag has taken nothing.
    have hnone : collected = [] := by
      by_contra hne
      rw [addsTrigram_flush hne] at hadds
      cases hadds
    rcases runHas_flushRun hhas with hold | ⟨e, he, -⟩
    · rcases hw.runs hset h hold with hsaw | ⟨e, he, -⟩
      · exact hsaw
      · rw [hnone] at htakes
        exact absurd (htakes e he) List.not_mem_nil
    · rw [hnone] at he
      cases he

/-- A flush that stops halfway leaves its entries pending. -/
theorem FilteredTable.FlagSound.flush (hw : w.FlagSound enc) {collected rest : List PgTrePendingEntry}
    (hsplit : w.idx.pending = collected ++ rest) (hwatermark : w.flushed ≤ collected.length) :
    FilteredTable.FlagSound enc { w with
      idx := { w.idx with toRunIndex := flushRun w.idx.toRunIndex collected }
      flushed := collected.length } where
  surf := hw.surf
  base := fun hflag h hhas => hw.base hflag h (baseHas_flushRun.mp hhas)
  runs := by
    intro hflag h hhas
    rcases runHas_flushRun hhas with hold | hnew
    · refine (hw.runs hflag h hold).imp_right ?_
      rintro ⟨e, he, hhash⟩
      exact ⟨e, List.take_subset_take_left _ hwatermark he, hhash⟩
    · right
      obtain ⟨e, he, hhash⟩ := hnew
      refine ⟨e, ?_, hhash⟩
      change e ∈ w.idx.pending.take collected.length
      rw [hsplit, List.take_left]
      exact he

/-- A pass that fails has appended its run. -/
theorem hanoiPass_appended {idx idx' : RunIndex} {target : ℕ} {e : PgError}
    (hpass : hanoiPass idx target = (some e, idx')) : idx' = hanoiAppend idx target := by
  unfold hanoiPass at hpass
  dsimp only at hpass
  split at hpass
  next e' hrewrite => exact (Prod.mk.inj hpass).2.symm
  next written hrewrite => cases (Prod.mk.inj hpass).1

/-- The Hanoi merge adds no trigram to the runs. -/
theorem runHas_hanoiLoop {maxLevels guard passes : ℕ} {idx : RunIndex} {h : UInt64}
    (hhas : (hanoiLoop maxLevels guard passes idx).2.RunHas h) : idx.RunHas h := by
  induction guard generalizing passes idx with
  | zero => exact hhas
  | succ guard ih =>
    rw [hanoiLoop] at hhas
    cases htarget : targetLevel maxLevels (hanoiCollect idx) with
    | none =>
      rw [htarget] at hhas
      exact hhas
    | some target =>
      cases hpass : hanoiPass idx target with
      | mk err idx' =>
        simp only [htarget, hpass] at hhas
        cases err with
        | some e => exact runHas_hanoiAppend (hanoiPass_appended hpass ▸ hhas)
        | none => exact (runHas_hanoiPass hpass).1 (ih hhas)

/-- Every step keeps what the flag says. -/
theorem FilteredStep.flagSound (hstep : FilteredStep enc w w') (hw : w.FlagSound enc) :
    w'.FlagSound enc := by
  cases hstep with
  | rows table more hstep htrees hpending =>
    refine ⟨hw.surf, fun hflag h hhas => ?_, fun hflag h hhas => ?_⟩
    · change table.idx.toRunIndex.BaseHas h at hhas
      rw [htrees] at hhas
      exact hw.base hflag h hhas
    · change table.idx.toRunIndex.RunHas h at hhas
      rw [htrees] at hhas
      refine (hw.runs hflag h hhas).imp_right ?_
      rintro ⟨e, he, hhash⟩
      refine ⟨e, ?_, hhash⟩
      change e ∈ table.idx.pending.take w.flushed
      rw [hpending, List.take_append]
      exact List.mem_append_left _ he
  | merge flushToRun collected rest hsplit hwatermark => exact hw.merge flushToRun hsplit hwatermark
  | flush collected rest hsplit hwatermark => exact hw.flush hsplit hwatermark
  | hanoi hfits =>
    refine hw.trees (fun hflag h hhas => hw.base hflag h ?_) fun h hhas => runHas_hanoiLoop hhas
    have hsame := sameBase_hanoiLoop w.idx.levelLimit 64 0 w.idx.toRunIndex
    exact (congrArg (fun tree => h ∈ tree.entries.map Prod.fst) hsame.baseTree).mp hhas
  | collapse hmerged =>
    refine hw.trees (fun hflag h hhas => ?_) fun h hhas => has_collapseRuns.2 hhas
    rcases has_collapseRuns.1 hhas with hbase | hrun
    · exact hw.base hflag h hbase
    · rcases hw.runs hflag h hrun with hsaw | ⟨e, he, -⟩
      · exact hsaw
      · rw [hmerged, List.take_zero] at he
        cases he
  | vacuum dead hrows hinserting =>
    refine hw.trees (fun hflag h hhas => hw.base hflag h ?_) ?_
    · rw [RunIndex.BaseHas, hashes_postingBulkDelete] at hhas
      exact hhas
    · rintro h ⟨run, hrun, hhas⟩
      rw [hashes_postingBulkDelete] at hhas
      exact ⟨run, hrun, hhas⟩

/-- In every reachable table the flag is sound. -/
theorem FilteredReachable.flagSound (h : FilteredReachable enc w) : w.FlagSound enc := by
  obtain ⟨pk, maxEntriesMb, rows, idx, surf, hbuild, hsurf, hrun⟩ := h
  have hstart : (FilteredTable.initial idx rows surf).FlagSound enc := by
    refine ⟨fun s hs t ht => ?_, fun _ h hhas => (ambuild_has hbuild).1 hhas,
      fun _ h hhas => absurd hhas (ambuild_has hbuild).2⟩
    obtain rfl : surf = some s := hs
    exact buildSurf_overlaps hsurf ht
  induction hrun with
  | refl => exact hstart
  | tail _ hstep ih => exact hstep.flagSound ih

/-! ## Rejections -/

/-- A scan is rejected only with a SuRF that is complete, and if nothing is pending. -/
theorem FilteredTable.of_surfPrefilterRejects {q : TrigramQuery}
    (h : w.surfPrefilterRejects q = true) : ∃ lo hi s, q.surfRange = some (lo, hi) ∧ w.surf = some s ∧
      w.surfComplete = true ∧ w.idx.pending = [] ∧
      pgTreSurfRangeOverlaps s lo.toUInt64 hi.toUInt64 = false := by
  unfold FilteredTable.surfPrefilterRejects at h
  cases hrange : q.surfRange with
  | none =>
    rw [hrange] at h
    cases h
  | some range =>
    cases hsurf : w.surf with
    | none => simp [hrange, hsurf] at h
    | some s =>
      simp only [hrange, hsurf] at h
      split_ifs at h with htrue huntrusted
      rw [Bool.or_eq_true, not_or] at huntrusted
      refine ⟨range.1, range.2, s, rfl, rfl, by simpa using huntrusted.1,
        by simpa using huntrusted.2, ?_⟩
      simpa using h

/-- No trigram of the row has the hash of another trigram that the build saw. -/
def FilteredTable.HashesApart (enc : ServerEncoding) (w : FilteredTable) (row : TableRow) : Prop :=
  ∀ t t', row.HasTrigram enc t → HaveTrigram enc w.built t' →
    hashTrigramCp t' = hashTrigramCp t → t' = t

/-- What a tree has is among its hashes. -/
theorem hash_mem_of_mem_postings {tree : UpperTree} {h : UInt64} {tid : ℕ}
    (hmem : tid ∈ tree.postings h) : h ∈ tree.entries.map Prod.fst := by
  obtain ⟨tids, hentry, -⟩ := UpperTree.mem_postings.mp hmem
  exact List.mem_map.mpr ⟨_, hentry, rfl⟩

/-- With nothing pending and the flag set, the build has seen the hashes that are found. -/
theorem FilteredTable.FlagSound.saw (hw : w.FlagSound enc) (hflag : w.surfComplete = true)
    (hempty : w.idx.pending = []) {h : UInt64} {tid : ℕ} (hfinds : w.idx.Finds h tid) :
    w.Saw enc h := by
  rcases hfinds with hholds | ⟨e, he, -⟩
  · rcases RunIndex.holds_iff.mp hholds with hbase | ⟨run, hrun, hmem⟩
    · exact hw.base hflag h (hash_mem_of_mem_postings hbase)
    · rcases hw.runs hflag h ⟨run, hrun, hash_mem_of_mem_postings hmem⟩ with hsaw | ⟨e, he, -⟩
      · exact hsaw
      · rw [hempty] at he
        simp at he
  · rw [hempty] at he
    cases he

/-- A scan that asks for a trigram of a row by its key is not rejected, if the hashes of the row are
apart. -/
theorem FilteredTable.FlagSound.not_rejected (hw : w.FlagSound enc) {row : TableRow}
    (hrow : w.idx.HasRow enc row) (hapart : w.HashesApart enc row) {q : TrigramQuery}
    (hrange : ∀ lo hi, q.surfRange = some (lo, hi) → lo = hi ∧
      ∃ t, row.HasTrigram enc t ∧ trigramKeyCp t = lo) : w.surfPrefilterRejects q = false := by
  by_contra hrejects
  rw [Bool.not_eq_false] at hrejects
  obtain ⟨lo, hi, s, hsome, hsurf, hflag, hempty, hmisses⟩ :=
    FilteredTable.of_surfPrefilterRejects hrejects
  obtain ⟨rfl, t, ht, rfl⟩ := hrange lo hi hsome
  -- The hash of the trigram is in a tree, so that the build saw it, and took a key for it.
  obtain ⟨packed, -, hfinds⟩ := hrow t ht
  obtain ⟨t₁, ht₁, hhash₁⟩ := hw.saw hflag hempty hfinds
  obtain ⟨t₂, ht₂, hhash₂, hoverlaps⟩ := hw.surf s hsurf t₁ ht₁
  rw [hapart t t₂ ht ht₂ (hhash₂.trans hhash₁)] at hoverlaps
  cases hoverlaps.symm.trans hmisses

end

end PgTre
