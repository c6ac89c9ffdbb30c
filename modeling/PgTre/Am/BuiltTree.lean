import PgTre.Am.CandidateExact
import PgTre.Am.Insert
import PgTre.Am.ParallelBuild

/-!
# The tree of a build

`pg_tre_ambuild` cuts the rows of a table into tuples, sorts them and loads a tree with a posting for
each hash. In the sort a TID is packed in the legacy way, and the posting packs it anew for the index.
Every trigram of a row has a tuple, and every tuple has its TID in the posting of its hash.
-/

namespace PgTre

open Strings

/-! ## The build -/

/-- A row of a table: its TID, and the bytes of the indexed value. `NULL` is `none`. -/
structure TableRow where
  tid : ItemPointer
  value : Option (List UInt8)

/-- The scan of a table by one process. -/
def scanTable (enc : ServerEncoding) (maxEntriesMb : ℕ) (rows : List TableRow) :
    Except PgError BuildState :=
  rows.foldlM (fun b row => extractTrigramsOf enc maxEntriesMb b row.tid row.value) ⟨0, []⟩

/-- `pg_tre_posting_build_add` for the TIDs of a posting, as the sort has them. -/
def repackTids (pk : TidPacking) (tids : List ℕ) : Except PgError (List ℕ) :=
  tids.mapM fun tid => packTid pk (unpackTid .legacy tid)

/-- A hash and its posting, as the upper tree is loaded with them. -/
def loadPosting (pk : TidPacking) (a : UInt64 × List ℕ) : Except PgError (UInt64 × Finset ℕ) :=
  (repackTids pk a.2).map fun tids => (a.1, tids.toFinset)

/-- A list that is mapped without an error has the images of its members, in order. -/
theorem forall₂_of_mapM {α β ε : Type} {f : α → Except ε β} {l : List α} {l' : List β}
    (h : l.mapM f = .ok l') : List.Forall₂ (fun a b => f a = .ok b) l l' := by
  induction l generalizing l' with
  | nil =>
    obtain rfl := Except.ok.inj h
    exact .nil
  | cons a l ih =>
    rw [List.mapM_cons] at h
    cases ha : f a with
    | error e =>
      rw [ha] at h
      cases h
    | ok b =>
      cases hl : l.mapM f with
      | error e =>
        rw [ha, hl] at h
        cases h
      | ok bs =>
        rw [ha, hl] at h
        obtain rfl := Except.ok.inj h
        exact .cons ha (ih hl)

/-- Related lists: every member of the first has a partner in the second. -/
theorem exists_of_forall₂ {α β : Type} {R : α → β → Prop} {l : List α} {l' : List β}
    (h : List.Forall₂ R l l') {a : α} (ha : a ∈ l) : ∃ b ∈ l', R a b := by
  induction h with
  | nil => cases ha
  | cons hab hrest ih =>
    rcases List.mem_cons.mp ha with rfl | ha
    · exact ⟨_, List.mem_cons_self, hab⟩
    · obtain ⟨b, hb, hR⟩ := ih ha
      exact ⟨b, List.mem_cons_of_mem _ hb, hR⟩

section

variable {pk : TidPacking} {a : UInt64 × List ℕ} {loaded : UInt64 × Finset ℕ}

/-- Loading a posting keeps its hash. -/
theorem loadPosting_fst (h : loadPosting pk a = .ok loaded) : loaded.1 = a.1 := by
  unfold loadPosting at h
  cases htids : repackTids pk a.2 with
  | error e =>
    rw [htids] at h
    cases h
  | ok tids =>
    rw [htids] at h
    rw [← Except.ok.inj h]

/-- The postings stand under the hashes of their accumulators. -/
theorem hashes_of_mapM {accums : List (UInt64 × List ℕ)} {postings : List (UInt64 × Finset ℕ)}
    (h : accums.mapM (loadPosting pk) = .ok postings) :
    accums.map Prod.fst = postings.map Prod.fst := by
  have hforall := forall₂_of_mapM h
  clear h
  induction hforall with
  | nil => rfl
  | cons hload _ ih => rw [List.map_cons, List.map_cons, loadPosting_fst hload, ih]

/-- The postings come in the order of their hashes. -/
theorem postings_ascending {entries : List BuildEntry} {postings : List (UInt64 × Finset ℕ)}
    (h : (sortedPostings entries).accums.mapM (loadPosting pk) = .ok postings) :
    postings.Pairwise fun e e' => e.1 < e'.1 := by
  have hasc := sortedPostings_ascending entries
  rw [hashes_of_mapM h, List.pairwise_map] at hasc
  exact hasc

end

/-- `pg_tre_upper_bulkload` on the postings of the sorted tuples. -/
def bulkloadSorted (pk : TidPacking) (entries : List BuildEntry) : Except PgError UpperTree :=
  match h : (sortedPostings entries).accums.mapM (loadPosting pk) with
  | .error e => .error e
  | .ok postings => .ok ⟨postings, postings_ascending h⟩

/-- `pg_tre_ambuild`, by one process. -/
def ambuild (enc : ServerEncoding) (pk : TidPacking) (maxEntriesMb : ℕ) (rows : List TableRow) :
    Except PgError ScanIndex :=
  match scanTable enc maxEntriesMb rows with
  | .error e => .error e
  | .ok b =>
      match bulkloadSorted pk b.entries with
      | .error e => .error e
      | .ok tree => .ok (builtIndex pk tree rows.length)

/-! ## The tuples of a row -/

section

variable {enc : ServerEncoding} {maxEntriesMb : ℕ} {tid : ItemPointer} {b b' : BuildState}

/-- The tuples a step adds have the TID of the row. -/
def Adds (tid : ItemPointer) (b b' : BuildState) : Prop :=
  ∃ added, b'.entries = b.entries ++ added ∧ ∀ e ∈ added, packTid .legacy tid = .ok e.packedTid

/-- A build state adds nothing to itself. -/
theorem Adds.refl (tid : ItemPointer) (b : BuildState) : Adds tid b b :=
  ⟨[], (List.append_nil _).symm, by simp⟩

/-- Additions of one row compose. -/
theorem Adds.trans {b'' : BuildState} (h : Adds tid b b') (h' : Adds tid b' b'') :
    Adds tid b b'' := by
  obtain ⟨added, heq, hadded⟩ := h
  obtain ⟨added', heq', hadded'⟩ := h'
  refine ⟨added ++ added', by rw [heq', heq, List.append_assoc], fun e he => ?_⟩
  rcases List.mem_append.mp he with he | he
  · exact hadded e he
  · exact hadded' e he

/-- One emitted trigram is an addition of its row. -/
theorem adds_emit {t : Trigram} (h : b.emit maxEntriesMb tid t = .ok b') : Adds tid b b' := by
  unfold BuildState.emit at h
  split_ifs at h
  cases hpack : packTid .legacy tid with
  | error e =>
    rw [hpack] at h
    cases h
  | ok packed =>
    rw [hpack] at h
    cases h
    refine ⟨_, rfl, fun e he => ?_⟩
    rw [List.mem_singleton.mp he]
    exact hpack

/-- The extraction loop only adds entries of its row. -/
theorem adds_extractLoop {text ring : List CodePoint} {seen : SeenSet}
    (h : extractLoop maxEntriesMb tid text ring seen b = .ok b') : Adds tid b b' := by
  induction text generalizing ring seen b with
  | nil =>
    cases h
    exact .refl tid _
  | cons cp text ih =>
    rw [extractLoop] at h
    dsimp only at h
    split at h
    · split at h
      · exact ih h
      · split at h
        · cases h
        next b₁ hemit => exact (adds_emit hemit).trans (ih h)
    · exact ih h

/-- Extracting one value only adds entries of its row. -/
theorem adds_extractTrigramsOf {value : Option (List UInt8)}
    (h : extractTrigramsOf enc maxEntriesMb b tid value = .ok b') : Adds tid b b' := by
  cases value with
  | none =>
    cases h
    exact .refl tid _
  | some bytes =>
    rw [extractTrigramsOf] at h
    split at h
    · cases h
    next b₁ hloop =>
      split at h
      · cases h
      · obtain rfl := Except.ok.inj h
        exact adds_extractLoop hloop

/-- Every trigram of a text that is read has a tuple with the TID of its row. -/
theorem extractTrigramsOf_tuples {bytes : List UInt8} {text : List CodePoint}
    (htext : enc.Spells bytes text)
    (h : extractTrigramsOf enc maxEntriesMb b tid (some bytes) = .ok b') :
    ∀ t ∈ windows text, ∃ e ∈ b'.entries, e.trigramHash = hashTrigramCp t ∧
      packTid .legacy tid = .ok e.packedTid := by
  intro t ht
  obtain ⟨emitted, heq, hhashes⟩ := extractTrigramsOf_hashes htext h
  obtain ⟨added, heq', hadded⟩ := adds_extractTrigramsOf h
  have hsame : added = emitted := List.append_cancel_left (heq'.symm.trans heq)
  obtain ⟨e, he, hhash⟩ := (hhashes (hashTrigramCp t)).mpr ⟨t, ht, rfl⟩
  refine ⟨e, ?_, hhash, hadded e (hsame ▸ he)⟩
  rw [heq]
  exact List.mem_append_right _ he

end

/-- A row has a trigram. -/
def TableRow.HasTrigram (enc : ServerEncoding) (row : TableRow) (t : Trigram) : Prop :=
  ∃ bytes text, row.value = some bytes ∧ enc.Spells bytes text ∧ t ∈ windows text

/-- The tuples of a scan are those of the rows: each has a TID of a row, and every trigram of a row has
one. -/
theorem scanTable_tuples {enc : ServerEncoding} {maxEntriesMb : ℕ} {rows : List TableRow}
    {b : BuildState} (h : scanTable enc maxEntriesMb rows = .ok b) :
    (∀ e ∈ b.entries, Packed .legacy e.packedTid) ∧
      ∀ row ∈ rows, ∀ t, row.HasTrigram enc t → ∃ e ∈ b.entries, e.trigramHash = hashTrigramCp t ∧
        packTid .legacy row.tid = .ok e.packedTid := by
  have hloop : ∀ (rows : List TableRow) (b₀ : BuildState),
      rows.foldlM (fun b row => extractTrigramsOf enc maxEntriesMb b row.tid row.value) b₀ = .ok b →
      (∀ e ∈ b₀.entries, Packed .legacy e.packedTid) →
      (∀ e ∈ b.entries, Packed .legacy e.packedTid) ∧ (∀ e ∈ b₀.entries, e ∈ b.entries) ∧
        ∀ row ∈ rows, ∀ t, row.HasTrigram enc t → ∃ e ∈ b.entries,
          e.trigramHash = hashTrigramCp t ∧ packTid .legacy row.tid = .ok e.packedTid := by
    intro rows
    induction rows with
    | nil =>
      intro b₀ h hpacked
      obtain rfl := Except.ok.inj h
      exact ⟨hpacked, fun e he => he, by simp⟩
    | cons row rows ih =>
      intro b₀ h hpacked
      rw [List.foldlM_cons] at h
      cases hrow : extractTrigramsOf enc maxEntriesMb b₀ row.tid row.value with
      | error e =>
        rw [hrow] at h
        cases h
      | ok b₁ =>
        rw [hrow] at h
        obtain ⟨added, heq, hadded⟩ := adds_extractTrigramsOf hrow
        have hpacked₁ : ∀ e ∈ b₁.entries, Packed .legacy e.packedTid := by
          intro e he
          rw [heq] at he
          rcases List.mem_append.mp he with he | he
          · exact hpacked e he
          · exact ⟨row.tid, hadded e he⟩
        obtain ⟨hall, hkeeps, hrows⟩ := ih b₁ h hpacked₁
        refine ⟨hall, fun e he => hkeeps e ?_, fun r hr t ht => ?_⟩
        · rw [heq]
          exact List.mem_append_left _ he
        · rcases List.mem_cons.mp hr with rfl | hr
          · obtain ⟨bytes, text, hvalue, htext, hwindow⟩ := ht
            rw [hvalue] at hrow
            obtain ⟨e, he, hhash, htid⟩ := extractTrigramsOf_tuples htext hrow t hwindow
            exact ⟨e, hkeeps e he, hhash, htid⟩
          · exact hrows r hr t ht
  obtain ⟨hall, -, hrows⟩ := hloop rows ⟨0, []⟩ h (by simp)
  exact ⟨hall, hrows⟩

/-! ## The postings of the tuples -/

/-- The postings so far have a TID for a hash. -/
def PostingLoop.Posts (s : PostingLoop) (h : UInt64) (tid : ℕ) : Prop :=
  ∃ a ∈ s.finish.accums, a.1 = h ∧ tid ∈ a.2

/-- The last TID is in the current posting, if there is one. -/
def PostingLoop.LastAdded (s : PostingLoop) : Prop :=
  ∀ tids, s.builder = some tids → s.lastTid = 2 ^ 64 - 1 ∨ s.lastTid ∈ tids

section

variable {s : PostingLoop} {e : BuildEntry} {h : UInt64} {tid : ℕ}

/-- A TID that is posted under a hash stays posted when the next group begins. -/
theorem PostingLoop.Posts.begin (hs : s.Posts h tid) : (s.begin e).Posts h tid := by
  unfold PostingLoop.begin
  split
  · obtain ⟨a, ha, heq⟩ := hs
    exact ⟨a, List.mem_append_left _ ha, heq⟩
  · exact hs

/-- A group that has begun has its own hash and a builder. -/
theorem PostingLoop.begin_builder (s : PostingLoop) (e : BuildEntry) :
    (s.begin e).curHash = e.trigramHash ∧ ∃ tids, (s.begin e).builder = some tids := by
  unfold PostingLoop.begin
  split
  · exact ⟨rfl, [], rfl⟩
  next hsame =>
    push Not at hsame
    exact ⟨hsame.2.symm, Option.ne_none_iff_exists'.mp hsame.1⟩

/-- Beginning the next group keeps the last TID added. -/
theorem PostingLoop.LastAdded.begin (hs : s.LastAdded) : (s.begin e).LastAdded := by
  unfold PostingLoop.begin
  split
  · exact fun _ _ => Or.inl rfl
  · exact hs

/-- A turn keeps the postings and adds the tuple's TID to the posting of its hash. -/
theorem PostingLoop.LastAdded.next (hs : s.LastAdded) (he : e.packedTid < 2 ^ 64 - 1) :
    (s.next e).LastAdded ∧ (∀ h tid, s.Posts h tid → (s.next e).Posts h tid) ∧
      (s.next e).Posts e.trigramHash e.packedTid := by
  obtain ⟨hhash, tids, hbuilder⟩ := s.begin_builder e
  have hlast := hs.begin (e := e) tids hbuilder
  have hkeeps : ∀ h tid, s.Posts h tid → (s.begin e).Posts h tid := fun _ _ hp => hp.begin
  have hfinish : (s.begin e).finish.accums =
      (s.begin e).out.accums ++ [((s.begin e).curHash, tids)] := by
    simp only [PostingLoop.finish, hbuilder]
  unfold PostingLoop.next PostingLoop.addTid
  split
  · have hfinish' : (PostingLoop.finish { s.begin e with
        builder := (s.begin e).builder.map (· ++ [e.packedTid]), lastTid := e.packedTid }).accums =
        (s.begin e).out.accums ++ [((s.begin e).curHash, tids ++ [e.packedTid])] := by
      simp only [PostingLoop.finish, hbuilder, Option.map_some]
    refine ⟨?_, fun h tid hp => ?_, ?_⟩
    · intro tids' htids'
      simp only [hbuilder, Option.map_some, Option.some.injEq] at htids'
      subst htids'
      exact Or.inr (by simp)
    · obtain ⟨a, ha, heq, hmem⟩ := hkeeps h tid hp
      unfold PostingLoop.Posts
      rw [hfinish']
      rw [hfinish] at ha
      rcases List.mem_append.mp ha with ha | ha
      · exact ⟨a, List.mem_append_left _ ha, heq, hmem⟩
      · obtain rfl := List.mem_singleton.mp ha
        exact ⟨_, List.mem_append_right _ (List.mem_singleton_self _), heq,
          List.mem_append_left _ hmem⟩
    · unfold PostingLoop.Posts
      rw [hfinish']
      exact ⟨_, List.mem_append_right _ (List.mem_singleton_self _), hhash, by simp⟩
  next hsame =>
    rw [not_not] at hsame
    refine ⟨hs.begin, hkeeps, ?_⟩
    unfold PostingLoop.Posts
    rw [hfinish]
    refine ⟨_, List.mem_append_right _ (List.mem_singleton_self _), hhash, ?_⟩
    rw [hsame]
    exact hlast.resolve_left (by omega)

end

/-- Every tuple of a sort has its TID in the posting of its hash. -/
theorem mem_sortedPostings {entries : List BuildEntry} (hlt : ∀ e ∈ entries, e.packedTid < 2 ^ 64 - 1)
    {e : BuildEntry} (he : e ∈ entries) :
    ∃ a ∈ (sortedPostings entries).accums, a.1 = e.trigramHash ∧ e.packedTid ∈ a.2 := by
  have hloop : ∀ (stream : List BuildEntry) (s : PostingLoop), s.LastAdded →
      (∀ e ∈ stream, e.packedTid < 2 ^ 64 - 1) →
      (∀ h tid, s.Posts h tid → (stream.foldl PostingLoop.next s).Posts h tid) ∧
        ∀ e ∈ stream, (stream.foldl PostingLoop.next s).Posts e.trigramHash e.packedTid := by
    intro stream
    induction stream with
    | nil => exact fun s _ _ => ⟨fun _ _ hp => hp, by simp⟩
    | cons e stream ih =>
      intro s hs hlt
      obtain ⟨hlast, hkeeps, hposts⟩ := hs.next (hlt e List.mem_cons_self)
      obtain ⟨hkeeps', hrest⟩ := ih _ hlast fun e' he' => hlt e' (List.mem_cons_of_mem _ he')
      refine ⟨fun h tid hp => hkeeps' h tid (hkeeps h tid hp), fun e' he' => ?_⟩
      rcases List.mem_cons.mp he' with rfl | he'
      · exact hkeeps' _ _ hposts
      · exact hrest e' he'
  have hperm := List.mergeSort_perm entries BuildEntry.le
  exact (hloop (entries.mergeSort BuildEntry.le) .start nofun
    fun e he => hlt e (hperm.mem_iff.mp he)).2 e (hperm.mem_iff.mpr he)

/-- A legacy TID stays below the top of the 64-bit range. -/
theorem legacy_lt {packed : ℕ} (h : Packed .legacy packed) : packed < 2 ^ 64 - 1 := by
  obtain ⟨tid, htid⟩ := h
  have hblk := tid.blkidLt
  have hpos := tid.posidLt
  rw [packTid_legacy, Except.ok.injEq] at htid
  omega

/-- The loaded tree has the TID of every tuple, packed for the index. -/
theorem mem_bulkloadSorted {pk : TidPacking} {entries : List BuildEntry} {tree : UpperTree}
    (h : bulkloadSorted pk entries = .ok tree)
    (hpacked : ∀ e ∈ entries, Packed .legacy e.packedTid) {e : BuildEntry} (he : e ∈ entries) :
    ∃ packed, packTid pk (unpackTid .legacy e.packedTid) = .ok packed ∧
      packed ∈ tree.postings e.trigramHash := by
  unfold bulkloadSorted at h
  split at h
  · cases h
  next postings hload =>
    obtain rfl := Except.ok.inj h
    obtain ⟨a, ha, hhash, htid⟩ := mem_sortedPostings (fun e he => legacy_lt (hpacked e he)) he
    obtain ⟨loaded, hmem, hposting⟩ := exists_of_forall₂ (forall₂_of_mapM hload) ha
    have hfst := loadPosting_fst hposting
    unfold loadPosting at hposting
    cases htids : repackTids pk a.2 with
    | error e =>
      rw [htids] at hposting
      cases hposting
    | ok tids =>
      rw [htids] at hposting
      obtain ⟨packed, hin, hpack⟩ := exists_of_forall₂ (forall₂_of_mapM htids) htid
      refine ⟨packed, hpack, UpperTree.mem_postings.mpr ⟨loaded.2, ?_, ?_⟩⟩
      · rw [← hhash, ← hfst]
        exact hmem
      · rw [← Except.ok.inj hposting]
        exact List.mem_toFinset.mpr hin

/-! ## The built index -/

/-- The base tree of a built index is the one that was loaded. -/
theorem postings_builtIndex (pk : TidPacking) (tree : UpperTree) (n : ℕ) (h : UInt64) :
    ((builtIndex pk tree n).treeAt (builtIndex pk tree n).rootUpper).postings h =
      tree.postings h := by
  by_cases hempty : tree.entries = []
  · have hroot : (builtIndex pk tree n).rootUpper = none := if_pos hempty
    have htree : tree.lookup h = none := by rw [UpperTree.lookup, hempty]; rfl
    rw [hroot, UpperTree.postings, UpperTree.postings, htree]
    rfl
  · have hroot : (builtIndex pk tree n).rootUpper = some 1 := if_neg hempty
    rw [hroot]
    rfl

/-- The index has a row: each of its trigrams is found with its TID. -/
def ScanIndex.HasRow (enc : ServerEncoding) (idx : ScanIndex) (row : TableRow) : Prop :=
  ∀ t, row.HasTrigram enc t → ∃ packed, packTid idx.tidPacking row.tid = .ok packed ∧
    idx.Finds (hashTrigramCp t) packed

/-- A built index has all rows. -/
theorem ambuild_hasRow {enc : ServerEncoding} {pk : TidPacking} {maxEntriesMb : ℕ}
    {rows : List TableRow} {idx : ScanIndex} (h : ambuild enc pk maxEntriesMb rows = .ok idx) :
    ∃ tree, idx = builtIndex pk tree rows.length ∧ ∀ row ∈ rows, idx.HasRow enc row := by
  unfold ambuild at h
  split at h
  · cases h
  next b hscan =>
    split at h
    · cases h
    next tree htree =>
      obtain rfl := Except.ok.inj h
      refine ⟨tree, rfl, fun row hrow t ht => ?_⟩
      obtain ⟨hpacked, hrows⟩ := scanTable_tuples hscan
      obtain ⟨e, he, hhash, htid⟩ := hrows row hrow t ht
      obtain ⟨packed, hpack, hposting⟩ := mem_bulkloadSorted htree hpacked he
      rw [unpackTid_packTid htid] at hpack
      refine ⟨packed, hpack, Or.inl (RunIndex.holds_iff.mpr (Or.inl ?_))⟩
      rw [postings_builtIndex, ← hhash]
      exact hposting

end PgTre
