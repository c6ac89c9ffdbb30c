import PgTre.Query.Hash
import PgTre.Strings.Windows
import PgTre.Pages.TidPacking

/-!
# The keys of the SuRF

`src/am/ambuild.c` emits a sort tuple for each trigram of each row: its hash, the row's TID and the
order-preserving key that the SuRF filter is built over. A row's tuples are deduplicated by hash, and
the posting phase takes one key for each distinct hash of the sorted stream. The key set is
therefore complete exactly when no two trigrams of the rows have the same hash.
-/

namespace PgTre

open Strings

/-! ## The tuples of a row -/

/-- A tuple of the build's sort. -/
structure BuildEntry where
  trigramHash : UInt64
  packedTid : ℕ
  trigramKey : ℕ
  deriving DecidableEq

/-- The hashes a row emitted, in an open-addressing table. A slot with 0 is free. -/
structure SeenSet where
  cap : ℕ
  slots : ℕ → UInt64
  n : ℕ
  /-- `seen_zero`: the hash 0 was emitted. -/
  zero : Bool

/-- The capacity is doubled until it is what is wanted. A text is shorter than `2 ^ 30` bytes. -/
def seenCap (want : ℕ) : ℕ → ℕ → ℕ
  | 0, cap => cap
  | fuel + 1, cap => if cap < want then seenCap want fuel (cap <<< 1) else cap

/-- The table for a text of `len` bytes. -/
def SeenSet.init (len : ℕ) : SeenSet where
  cap := min (seenCap ((if 0 < len then len else 1) + 8) 27 16) (1 <<< 22)
  slots := fun _ => 0
  n := 0
  zero := false

/-- The probes for a hash, with the number of probes left: the slot where they end, and whether
the hash was found there. -/
def SeenSet.probe (seen : SeenSet) (h : UInt64) : ℕ → ℕ → ℕ × Bool
  | 0, slot => (slot, false)
  | probes + 1, slot =>
      if seen.slots slot = 0 then (slot, false)
      else if seen.slots slot = h then (slot, true)
      else seen.probe h probes ((slot + 1) &&& (seen.cap - 1))

/-- The deduplication: the table afterwards, and whether the tuple is skipped. A table that is
full deduplicates nothing. -/
def SeenSet.check (seen : SeenSet) (h : UInt64) : SeenSet × Bool :=
  if h = 0 then
    if seen.zero then (seen, true) else ({ seen with zero := true }, false)
  else if seen.n < seen.cap then
    let slot := seen.probe h seen.cap
      (((h * 0x9E3779B97F4A7C15) >>> 40).toNat % 2 ^ 32 &&& (seen.cap - 1))
    if slot.2 then (seen, true)
    else if seen.slots slot.1 = 0 then
      ({ seen with slots := Function.update seen.slots slot.1 h, n := seen.n + 1 }, false)
    else (seen, false)
  else (seen, false)

/-- What one participant of the build has handed to its sorts. -/
structure BuildState where
  nEmitted : ℕ
  entries : List BuildEntry

/-- `PG_TRE_SORT_TUPLE_TEMP_BYTES`. -/
def sortTupleTempBytes : ℕ := 64

/-- A tuple is handed to the sort, unless the build has outgrown
`pg_tre.build_max_entries_mb`. -/
def BuildState.emit (maxEntriesMb : ℕ) (b : BuildState) (tid : ItemPointer) (t : Trigram) :
    Except PgError BuildState :=
  if 0 < maxEntriesMb ∧ maxEntriesMb * 1024 * 1024 < (b.nEmitted + 1) * sortTupleTempBytes then
    .error ⟨s!"pg_tre: index build exceeded pg_tre.build_max_entries_mb ({maxEntriesMb} MB)"⟩
  else
    match packTid .legacy tid with
    | .error e => .error e
    | .ok packed =>
        .ok ⟨b.nEmitted + 1, b.entries ++ [⟨hashTrigramCp t, packed, trigramKeyCp t⟩]⟩

/-- The loop of `extract_trigrams` over the rest of a text: the last code points are in the
ring. -/
def extractLoop (maxEntriesMb : ℕ) (tid : ItemPointer) :
    List CodePoint → List CodePoint → SeenSet → BuildState → Except PgError BuildState
  | [], _, _, b => .ok b
  | cp :: text, ring, seen, b =>
      let ring := if 3 ≤ ring.length then ring.tail ++ [cp] else ring ++ [cp]
      match ring with
      | [x, y, z] =>
          let checked := seen.check (hashTrigramCp (x, y, z))
          if checked.2 then extractLoop maxEntriesMb tid text ring checked.1 b
          else
            match b.emit maxEntriesMb tid (x, y, z) with
            | .error e => .error e
            | .ok b => extractLoop maxEntriesMb tid text ring checked.1 b
      | ring => extractLoop maxEntriesMb tid text ring seen b

/-- The bytes of a text in UTF-8. -/
def utf8Length (text : List CodePoint) : ℕ :=
  (text.map (fun cp => if cp < 0x80 then 1 else if cp < 0x800 then 2
    else if cp < 0x10000 then 3 else 4)).sum

/-- A heap tuple as the build sees it: `NULL` is `none`. -/
structure BuildRow where
  tid : ItemPointer
  value : Option (List CodePoint)

/-- `extract_trigrams`. -/
def extractTrigrams (maxEntriesMb : ℕ) (b : BuildState) (row : BuildRow) :
    Except PgError BuildState :=
  match row.value with
  | none => .ok b
  | some text => extractLoop maxEntriesMb row.tid text [] (.init (utf8Length text)) b

/-- `pgtre_scan_and_sort`: the tuples of one participant's rows. -/
def scanAndSort (maxEntriesMb : ℕ) (rows : List BuildRow) : Except PgError BuildState :=
  rows.foldlM (extractTrigrams maxEntriesMb) ⟨0, []⟩

/-! ## The posting phase -/

/-- The sort's order: the encoded tuples are compared byte by byte. -/
def BuildEntry.le (e e' : BuildEntry) : Bool :=
  decide (e.trigramHash < e'.trigramHash ∨ e.trigramHash = e'.trigramHash ∧
    (e.packedTid < e'.packedTid ∨ e.packedTid = e'.packedTid ∧ e.trigramKey ≤ e'.trigramKey))

/-- The tuples at which `build_postings` begins a posting: those whose hash is not the current
one. -/
def postingHeads : Option UInt64 → List BuildEntry → List BuildEntry
  | _, [] => []
  | curHash, e :: stream =>
      if curHash = some e.trigramHash then postingHeads curHash stream
      else e :: postingHeads (some e.trigramHash) stream

/-- `build_postings` on a sort, read through the SuRF keys it adds. -/
def buildPostings (entries : List BuildEntry) : List ℕ :=
  (postingHeads none (entries.mergeSort BuildEntry.le)).map BuildEntry.trigramKey

/-- How the heap is scanned: by one process, or by participants that each take a part of the
rows. -/
inductive HeapScan where
  | serial (rows : List BuildRow)
  /-- `request` workers were asked for beside the leader. -/
  | parallel (request : ℕ) (slices : List (List BuildRow))

/-- The indexed rows. -/
def HeapScan.rows : HeapScan → List BuildRow
  | serial rows => rows
  | parallel _ slices => slices.flatten

/-- `PG_TRE_RANGES_PER_PARTICIPANT`. -/
def rangesPerParticipant : ℕ := 4

/-- The sort of a range of hashes, merged from all participants. The width does not overflow:
there are at least two ranges. -/
def rangeEntries (nranges r : ℕ) (entries : List BuildEntry) : List BuildEntry :=
  entries.filter (fun e => e.trigramHash.toNat / ((2 ^ 64 - 1) / nranges + 1) = r)

/-- The keys that the build collects from the sorted streams. -/
def collectKeys (maxEntriesMb : ℕ) : HeapScan → Except PgError (List ℕ)
  | .serial rows =>
      match scanAndSort maxEntriesMb rows with
      | .error e => .error e
      | .ok b => .ok (buildPostings b.entries)
  | .parallel request slices =>
      match slices.mapM (scanAndSort maxEntriesMb) with
      | .error e => .error e
      | .ok bs =>
          let nranges := (request + 1) * rangesPerParticipant
          .ok ((List.range nranges).flatMap fun r =>
            buildPostings (rangeEntries nranges r (bs.flatMap BuildState.entries)))

/-- Repeated keys of the sorted array are dropped. -/
def dropRepeats : List ℕ → List ℕ
  | a :: b :: keys => if a = b then dropRepeats (b :: keys) else a :: dropRepeats (b :: keys)
  | keys => keys

/-- The keys the build hands to `pg_tre_surf_build`. -/
def surfKeys (maxEntriesMb : ℕ) (scan : HeapScan) : Except PgError (List ℕ) :=
  match collectKeys maxEntriesMb scan with
  | .error e => .error e
  | .ok keys => .ok (dropRepeats (keys.mergeSort (fun a b => decide (a ≤ b))))

/-! ## What the sorts hold -/

/-- A tuple with this hash was emitted. -/
def Emitted (entries : List BuildEntry) (h : UInt64) : Prop :=
  ∃ e ∈ entries, e.trigramHash = h

/-- The table holds only hashes that were emitted. -/
def SeenSet.Within (seen : SeenSet) (entries : List BuildEntry) : Prop :=
  (∀ slot, seen.slots slot ≠ 0 → Emitted entries (seen.slots slot)) ∧
    (seen.zero = true → Emitted entries 0)

/-- A hash emitted stays emitted when entries follow. -/
theorem Emitted.append {entries : List BuildEntry} {h : UInt64} (hem : Emitted entries h)
    (more : List BuildEntry) : Emitted (entries ++ more) h := by
  obtain ⟨e, he, hh⟩ := hem
  exact ⟨e, List.mem_append_left more he, hh⟩

/-- A seen set stays within longer lists. -/
theorem SeenSet.Within.append {seen : SeenSet} {entries : List BuildEntry}
    (hseen : seen.Within entries) (more : List BuildEntry) : seen.Within (entries ++ more) :=
  ⟨fun slot hslot => (hseen.1 slot hslot).append more, fun hzero => (hseen.2 hzero).append more⟩

/-- A probe that finds the hash ends at a slot that holds it. -/
theorem SeenSet.probe_found {seen : SeenSet} {h : UInt64} {probes slot : ℕ}
    (hfound : (seen.probe h probes slot).2 = true) :
    seen.slots (seen.probe h probes slot).1 = h := by
  induction probes generalizing slot with
  | zero => cases hfound
  | succ probes ih =>
    rw [probe] at hfound ⊢
    split_ifs at hfound ⊢ with hfree heq
    · exact heq
    · exact ih hfound

/-- A tuple is skipped only when one with its hash was emitted, and otherwise the table takes
its hash in at most. -/
theorem SeenSet.check_spec {seen : SeenSet} {entries : List BuildEntry} (h : UInt64)
    (hseen : seen.Within entries) :
    ((seen.check h).2 = true → Emitted entries h ∧ (seen.check h).1.Within entries) ∧
      ((seen.check h).2 = false → ∀ e : BuildEntry, e.trigramHash = h →
        (seen.check h).1.Within (entries ++ [e])) := by
  have hlast : ∀ e : BuildEntry, e.trigramHash = h → Emitted (entries ++ [e]) h :=
    fun e he => ⟨e, List.mem_append_right _ List.mem_cons_self, he⟩
  unfold check
  by_cases hzero : h = 0
  · rw [if_pos hzero]
    cases hflag : seen.zero with
    | true =>
      rw [if_pos rfl]
      exact ⟨fun _ => ⟨hzero ▸ hseen.2 hflag, hseen⟩, nofun⟩
    | false =>
      rw [if_neg Bool.false_ne_true]
      refine ⟨nofun, fun _ e he => ⟨?_, ?_⟩⟩
      · exact (hseen.append [e]).1
      · intro _
        exact hzero ▸ hlast e he
  · rw [if_neg hzero]
    by_cases hroom : seen.n < seen.cap
    · rw [if_pos hroom]
      dsimp only
      split_ifs with hfound hfree
      · have hslot := probe_found hfound
        refine ⟨fun _ => ⟨?_, hseen⟩, nofun⟩
        have hem := hseen.1 _ (by rw [hslot]; exact hzero)
        rwa [hslot] at hem
      · refine ⟨nofun, fun _ e he => ⟨fun slot hslot => ?_, ?_⟩⟩
        · dsimp only at hslot ⊢
          by_cases heq : slot = (seen.probe h seen.cap
              (((h * 0x9E3779B97F4A7C15) >>> 40).toNat % 2 ^ 32 &&& (seen.cap - 1))).1
          · rw [← heq, Function.update_self]
            exact hlast e he
          · rw [Function.update_of_ne heq] at hslot ⊢
            exact (hseen.append [e]).1 slot hslot
        · exact (hseen.append [e]).2
      · exact ⟨nofun, fun _ e _ => hseen.append [e]⟩
    · rw [if_neg hroom]
      exact ⟨nofun, fun _ e _ => hseen.append [e]⟩

/-- The tuple is one of a trigram in the set. -/
def BuildEntry.Of (P : Trigram → Prop) (e : BuildEntry) : Prop :=
  ∃ t, P t ∧ e.trigramHash = hashTrigramCp t ∧ e.trigramKey = trigramKeyCp t

/-- What a sort holds for the trigrams in a set: tuples of them only, and for each a tuple with
its hash. -/
structure Holds (P : Trigram → Prop) (entries : List BuildEntry) : Prop where
  sound : ∀ e ∈ entries, e.Of P
  complete : ∀ t, P t → Emitted entries (hashTrigramCp t)

/-- Emitting a tuple appends it. -/
theorem BuildState.emit_ok {maxEntriesMb : ℕ} {b b' : BuildState} {tid : ItemPointer}
    {t : Trigram} (h : b.emit maxEntriesMb tid t = .ok b') :
    ∃ packed, b'.entries = b.entries ++ [⟨hashTrigramCp t, packed, trigramKeyCp t⟩] := by
  unfold emit at h
  split_ifs at h with hguard
  cases hpack : packTid .legacy tid with
  | error e =>
    rw [hpack] at h
    cases h
  | ok packed =>
    rw [hpack] at h
    cases h
    exact ⟨packed, rfl⟩

/-- What holds of the entries depends only on the trigrams. -/
theorem Holds.congr {P Q : Trigram → Prop} {entries : List BuildEntry} (h : Holds P entries)
    (hiff : ∀ t, P t ↔ Q t) : Holds Q entries := by
  obtain rfl : P = Q := funext fun t => propext (hiff t)
  exact h

/-- A trigram whose hash was emitted may be counted in. -/
theorem Holds.skip {P : Trigram → Prop} {entries : List BuildEntry} {t : Trigram}
    (h : Holds P entries) (hem : Emitted entries (hashTrigramCp t)) :
    Holds (fun x => P x ∨ x = t) entries where
  sound := by
    intro e he
    obtain ⟨x, hx, hof⟩ := h.sound e he
    exact ⟨x, Or.inl hx, hof⟩
  complete := by
    rintro x (hx | rfl)
    · exact h.complete x hx
    · exact hem

/-- A tuple of a trigram counts it in. -/
theorem Holds.emit {P : Trigram → Prop} {entries : List BuildEntry} (h : Holds P entries)
    (t : Trigram) (packed : ℕ) :
    Holds (fun x => P x ∨ x = t) (entries ++ [⟨hashTrigramCp t, packed, trigramKeyCp t⟩]) where
  sound := by
    intro e he
    rcases List.mem_append.mp he with he | he
    · obtain ⟨x, hx, hof⟩ := h.sound e he
      exact ⟨x, Or.inl hx, hof⟩
    · rw [List.mem_singleton] at he
      subst he
      exact ⟨t, Or.inr rfl, rfl, rfl⟩
  complete := by
    rintro x (hx | rfl)
    · exact (h.complete x hx).append _
    · exact ⟨_, List.mem_append_right _ List.mem_cons_self, rfl⟩

/-- One turn of the loop with a full ring. -/
theorem extractLoop_full {maxEntriesMb : ℕ} {tid : ItemPointer} {text : List CodePoint}
    {t : Trigram} {seen : SeenSet} {b b' : BuildState} {P : Trigram → Prop}
    (hb : Holds P b.entries) (hseen : seen.Within b.entries)
    (h : (if (seen.check (hashTrigramCp t)).2 then
        extractLoop maxEntriesMb tid text [t.1, t.2.1, t.2.2] (seen.check (hashTrigramCp t)).1 b
      else
        match b.emit maxEntriesMb tid t with
        | .error e => .error e
        | .ok b => extractLoop maxEntriesMb tid text [t.1, t.2.1, t.2.2]
            (seen.check (hashTrigramCp t)).1 b) = .ok b') :
    ∃ seen₁ b₁, Holds (fun x => P x ∨ x = t) b₁.entries ∧ seen₁.Within b₁.entries ∧
      extractLoop maxEntriesMb tid text [t.1, t.2.1, t.2.2] seen₁ b₁ = .ok b' := by
  obtain ⟨hskip, hnew⟩ := seen.check_spec (hashTrigramCp t) hseen
  cases hchecked : (seen.check (hashTrigramCp t)).2 with
  | true =>
    rw [hchecked, if_pos rfl] at h
    obtain ⟨hem, hwithin⟩ := hskip hchecked
    exact ⟨_, b, hb.skip hem, hwithin, h⟩
  | false =>
    rw [hchecked, if_neg Bool.false_ne_true] at h
    cases hemit : b.emit maxEntriesMb tid t with
    | error e =>
      rw [hemit] at h
      cases h
    | ok b₁ =>
      rw [hemit] at h
      obtain ⟨packed, hentries⟩ := BuildState.emit_ok hemit
      refine ⟨_, b₁, ?_, ?_, h⟩
      · rw [hentries]
        exact hb.emit t packed
      · rw [hentries]
        exact hnew hchecked _ rfl

/-- The loop over the rest of a text adds tuples for the trigrams that begin in the ring or after
it; a full ring is counted already. -/
theorem extractLoop_holds {maxEntriesMb : ℕ} {tid : ItemPointer} {text ring : List CodePoint}
    {seen : SeenSet} {b b' : BuildState} {P : Trigram → Prop}
    (hlen : ring.length ≤ 3) (hring : ∀ t ∈ windows ring, P t)
    (hb : Holds P b.entries) (hseen : seen.Within b.entries)
    (h : extractLoop maxEntriesMb tid text ring seen b = .ok b') :
    Holds (fun t => P t ∨ t ∈ windows (ring ++ text)) b'.entries := by
  induction text generalizing ring seen b P with
  | nil =>
    cases h
    refine hb.congr fun t => ⟨Or.inl, ?_⟩
    rw [List.append_nil]
    exact fun h => h.elim id (hring t)
  | cons cp text ih =>
    -- With fewer than two code points in the ring no trigram ends at `cp`.
    rcases ring with _ | ⟨x, _ | ⟨y, _ | ⟨z, _ | ⟨w, ring⟩⟩⟩⟩
    · exact ih (by simp) (by simp [windows]) hb hseen h
    · exact ih (by simp) (by simp [windows]) hb hseen h
    · obtain ⟨seen₁, b₁, hb₁, hseen₁, h₁⟩ := extractLoop_full (t := (x, y, cp)) hb hseen h
      have hfirst : ∀ t ∈ windows [x, y, cp], P t ∨ t = (x, y, cp) := by
        intro t ht
        exact Or.inr (by simpa [windows] using ht)
      refine (ih (by simp) hfirst hb₁ hseen₁ h₁).congr fun t => ?_
      simp only [List.cons_append, List.nil_append, windows, List.mem_cons]
      tauto
    · obtain ⟨seen₁, b₁, hb₁, hseen₁, h₁⟩ := extractLoop_full (t := (y, z, cp)) hb hseen h
      have hfirst : ∀ t ∈ windows [y, z, cp], P t ∨ t = (y, z, cp) := by
        intro t ht
        exact Or.inr (by simpa [windows] using ht)
      have hold : P (x, y, z) := hring _ (by simp [windows])
      refine (ih (by simp) hfirst hb₁ hseen₁ h₁).congr fun t => ?_
      simp only [List.cons_append, List.nil_append, windows, List.mem_cons]
      constructor
      · rintro ((ht | ht) | ht)
        · exact Or.inl ht
        · exact Or.inr (Or.inr (Or.inl ht))
        · exact Or.inr (Or.inr ht)
      · rintro (ht | ht | ht)
        · exact Or.inl (Or.inl ht)
        · exact Or.inl (Or.inl (ht ▸ hold))
        · exact Or.inr ht
    · simp only [List.length_cons] at hlen
      omega

/-- The row has the trigram. -/
def BuildRow.HasTrigram (row : BuildRow) (t : Trigram) : Prop :=
  ∃ text, row.value = some text ∧ t ∈ windows text

/-- A row adds tuples for its trigrams. -/
theorem extractTrigrams_holds {maxEntriesMb : ℕ} {row : BuildRow} {b b' : BuildState}
    {P : Trigram → Prop} (hb : Holds P b.entries)
    (h : extractTrigrams maxEntriesMb b row = .ok b') :
    Holds (fun t => P t ∨ row.HasTrigram t) b'.entries := by
  unfold extractTrigrams at h
  cases hvalue : row.value with
  | none =>
    rw [hvalue] at h
    cases h
    refine hb.congr fun t => ?_
    simp [BuildRow.HasTrigram, hvalue]
  | some text =>
    rw [hvalue] at h
    have hseen : (SeenSet.init (utf8Length text)).Within b.entries :=
      ⟨fun slot hslot => absurd rfl hslot, nofun⟩
    refine (extractLoop_holds (by simp) (by simp [windows]) hb hseen h).congr fun t => ?_
    simp [BuildRow.HasTrigram, hvalue]

/-- The sorts of one participant hold the trigrams of its rows. -/
theorem scanAndSort_holds {maxEntriesMb : ℕ} {rows : List BuildRow} {b : BuildState}
    (h : scanAndSort maxEntriesMb rows = .ok b) :
    Holds (fun t => ∃ row ∈ rows, row.HasTrigram t) b.entries := by
  have hloop : ∀ {rows : List BuildRow} {b₀ b₁ : BuildState} {P : Trigram → Prop},
      Holds P b₀.entries → rows.foldlM (extractTrigrams maxEntriesMb) b₀ = .ok b₁ →
      Holds (fun t => P t ∨ ∃ row ∈ rows, row.HasTrigram t) b₁.entries := by
    intro rows
    induction rows with
    | nil =>
      intro b₀ b₁ P hb hfold
      cases hfold
      exact hb.congr fun t => by simp
    | cons row rows ih =>
      intro b₀ b₁ P hb hfold
      rw [List.foldlM_cons] at hfold
      cases hrow : extractTrigrams maxEntriesMb b₀ row with
      | error e =>
        rw [hrow] at hfold
        cases hfold
      | ok b₂ =>
        rw [hrow] at hfold
        refine (ih (extractTrigrams_holds hb hrow) hfold).congr fun t => ?_
        simp only [List.mem_cons, exists_eq_or_imp]
        tauto
  have hempty : Holds (fun _ => False) [] := ⟨nofun, nofun⟩
  exact (hloop hempty h).congr fun t => by simp

/-- So do the sorts of all participants. -/
theorem mapM_scanAndSort_holds {maxEntriesMb : ℕ} {slices : List (List BuildRow)}
    {bs : List BuildState} (h : slices.mapM (scanAndSort maxEntriesMb) = .ok bs) :
    Holds (fun t => ∃ row ∈ slices.flatten, row.HasTrigram t) (bs.flatMap BuildState.entries) := by
  induction slices generalizing bs with
  | nil =>
    cases h
    exact ⟨nofun, fun t ht => by simp at ht⟩
  | cons rows slices ih =>
    rw [List.mapM_cons] at h
    cases hrows : scanAndSort maxEntriesMb rows with
    | error e =>
      rw [hrows] at h
      cases h
    | ok b =>
      rw [hrows] at h
      cases hslices : slices.mapM (scanAndSort maxEntriesMb) with
      | error e =>
        rw [hslices] at h
        cases h
      | ok bs' =>
        rw [hslices] at h
        cases h
        have hfirst := scanAndSort_holds hrows
        have hrest := ih hslices
        rw [List.flatMap_cons, List.flatten_cons]
        refine ⟨fun e he => ?_, fun t ht => ?_⟩
        · rcases List.mem_append.mp he with he | he
          · obtain ⟨t, ⟨row, hrow, ht⟩, hof⟩ := hfirst.sound e he
            exact ⟨t, ⟨row, List.mem_append_left _ hrow, ht⟩, hof⟩
          · obtain ⟨t, ⟨row, hrow, ht⟩, hof⟩ := hrest.sound e he
            exact ⟨t, ⟨row, List.mem_append_right _ hrow, ht⟩, hof⟩
        · obtain ⟨row, hrow, ht⟩ := ht
          rcases List.mem_append.mp hrow with hrow | hrow
          · exact (hfirst.complete t ⟨row, hrow, ht⟩).append _
          · obtain ⟨e, he, hh⟩ := hrest.complete t ⟨row, hrow, ht⟩
            exact ⟨e, List.mem_append_right _ he, hh⟩

/-! ## One key for each hash -/

/-- The tuples whose keys are taken: some of the stream's, and one for each hash of it. -/
structure OnePerHash (entries heads : List BuildEntry) : Prop where
  subset : ∀ e ∈ heads, e ∈ entries
  covers : ∀ e ∈ entries, Emitted heads e.trigramHash
  unique : ∀ e ∈ heads, ∀ e' ∈ heads, e.trigramHash = e'.trigramHash → e = e'

/-- The heads of the postings are entries of the stream. -/
theorem postingHeads_subset (curHash : Option UInt64) (stream : List BuildEntry) :
    ∀ e ∈ postingHeads curHash stream, e ∈ stream := by
  induction stream generalizing curHash with
  | nil => exact nofun
  | cons e stream ih =>
    intro e' he'
    rw [postingHeads] at he'
    split_ifs at he' with hcur
    · exact List.mem_cons_of_mem _ (ih _ e' he')
    · rcases List.mem_cons.mp he' with rfl | he'
      · exact List.mem_cons_self
      · exact List.mem_cons_of_mem _ (ih _ e' he')

/-- Every hash of the stream begins a posting, except the current one. -/
theorem postingHeads_covers {curHash : Option UInt64} {stream : List BuildEntry} {e : BuildEntry}
    (he : e ∈ stream) (hcur : curHash ≠ some e.trigramHash) :
    Emitted (postingHeads curHash stream) e.trigramHash := by
  induction stream generalizing curHash with
  | nil => cases he
  | cons e₀ stream ih =>
    rw [postingHeads]
    split_ifs with hsame
    · rcases List.mem_cons.mp he with rfl | he
      · exact absurd hsame hcur
      · exact ih he hcur
    · by_cases heq : e₀.trigramHash = e.trigramHash
      · exact ⟨e₀, List.mem_cons_self, heq⟩
      · rcases List.mem_cons.mp he with rfl | he
        · exact absurd rfl heq
        · obtain ⟨e', he', hh⟩ := ih he (fun h => heq (Option.some.inj h))
          exact ⟨e', List.mem_cons_of_mem _ he', hh⟩

/-- In a sorted stream the hashes at which postings begin ascend. -/
theorem postingHeads_ascending {curHash : Option UInt64} {stream : List BuildEntry}
    (hsorted : stream.Pairwise (fun e e' => e.trigramHash ≤ e'.trigramHash))
    (hcur : ∀ e ∈ stream, ∀ c ∈ curHash, c ≤ e.trigramHash) :
    (∀ e ∈ postingHeads curHash stream, ∀ c ∈ curHash, c < e.trigramHash) ∧
      (postingHeads curHash stream).Pairwise (fun e e' => e.trigramHash < e'.trigramHash) := by
  induction stream generalizing curHash with
  | nil => exact ⟨nofun, List.Pairwise.nil⟩
  | cons e stream ih =>
    obtain ⟨hfirst, hrest⟩ := List.pairwise_cons.mp hsorted
    rw [postingHeads]
    split_ifs with hsame
    · exact ih hrest fun e' he' => hcur e' (List.mem_cons_of_mem _ he')
    · have hwithin : ∀ e' ∈ stream, ∀ c ∈ some e.trigramHash, c ≤ e'.trigramHash := by
        rintro e' he' c ⟨⟩
        exact hfirst e' he'
      obtain ⟨habove, hasc⟩ := ih hrest hwithin
      have hlt : ∀ c ∈ curHash, c < e.trigramHash := by
        intro c hc
        refine UInt64.lt_of_le_of_ne (hcur e List.mem_cons_self c hc) ?_
        rintro rfl
        exact hsame hc
      refine ⟨fun e' he' c hc => ?_, List.pairwise_cons.mpr ⟨fun e' he' => ?_, hasc⟩⟩
      · rcases List.mem_cons.mp he' with rfl | he'
        · exact hlt c hc
        · exact UInt64.lt_trans (hlt c hc) (habove e' he' _ rfl)
      · exact habove e' he' _ rfl

/-- The sort puts the hashes in order. -/
theorem pairwise_mergeSort_le (entries : List BuildEntry) :
    (entries.mergeSort BuildEntry.le).Pairwise (fun e e' => e.trigramHash ≤ e'.trigramHash) := by
  have hle : (entries.mergeSort BuildEntry.le).Pairwise (fun e e' => e.le e' = true) := by
    refine List.pairwise_mergeSort (fun a b c hab hbc => ?_) (fun a b => ?_) entries
    · simp only [BuildEntry.le, decide_eq_true_eq, UInt64.lt_iff_toNat_lt, ← UInt64.toNat_inj]
        at hab hbc ⊢
      omega
    · simp only [BuildEntry.le, Bool.or_eq_true, decide_eq_true_eq, UInt64.lt_iff_toNat_lt,
        ← UInt64.toNat_inj]
      omega
  refine hle.imp fun {e e'} h => ?_
  simp only [BuildEntry.le, decide_eq_true_eq, UInt64.lt_iff_toNat_lt, ← UInt64.toNat_inj] at h
  rw [UInt64.le_iff_toNat_le]
  omega

/-- `build_postings` takes one key for each hash. -/
theorem onePerHash_postingHeads (entries : List BuildEntry) :
    OnePerHash entries (postingHeads none (entries.mergeSort BuildEntry.le)) where
  subset := by
    intro e he
    exact List.mem_mergeSort.mp (postingHeads_subset none _ e he)
  covers := by
    intro e he
    exact postingHeads_covers (List.mem_mergeSort.mpr he) nofun
  unique := by
    have hnone : ∀ e ∈ entries.mergeSort BuildEntry.le, ∀ c ∈ (none : Option UInt64),
        c ≤ e.trigramHash := nofun
    have hasc := (postingHeads_ascending (pairwise_mergeSort_le entries) hnone).2
    have hnodup : ((postingHeads none (entries.mergeSort BuildEntry.le)).map
        BuildEntry.trigramHash).Nodup :=
      List.pairwise_map.mpr (hasc.imp fun h => UInt64.ne_of_lt h)
    exact fun e he e' he' => List.inj_on_of_nodup_map hnodup he he'

/-- A hash falls into one of the ranges. -/
theorem range_lt {nranges : ℕ} (hn : 0 < nranges) (h : UInt64) :
    h.toNat / ((2 ^ 64 - 1) / nranges + 1) < nranges := by
  have hlt := h.toNat_lt
  have hdiv := Nat.div_add_mod (2 ^ 64 - 1) nranges
  have hmod := Nat.mod_lt (2 ^ 64 - 1) hn
  rw [Nat.div_lt_iff_lt_mul (Nat.succ_pos _), Nat.mul_succ]
  omega

/-- The build takes one key for each hash, in ranges too. -/
theorem collectKeys_onePerHash {maxEntriesMb : ℕ} {scan : HeapScan} {keys : List ℕ}
    (h : collectKeys maxEntriesMb scan = .ok keys) :
    ∃ entries heads, Holds (fun t => ∃ row ∈ scan.rows, row.HasTrigram t) entries ∧
      OnePerHash entries heads ∧ ∀ key, key ∈ keys ↔ ∃ e ∈ heads, e.trigramKey = key := by
  cases scan with
  | serial rows =>
    rw [collectKeys] at h
    cases hscan : scanAndSort maxEntriesMb rows with
    | error e =>
      rw [hscan] at h
      cases h
    | ok b =>
      rw [hscan] at h
      cases h
      exact ⟨_, _, scanAndSort_holds hscan, onePerHash_postingHeads b.entries,
        fun key => List.mem_map⟩
  | parallel request slices =>
    rw [collectKeys] at h
    cases hscan : slices.mapM (scanAndSort maxEntriesMb) with
    | error e =>
      rw [hscan] at h
      cases h
    | ok bs =>
      rw [hscan] at h
      cases h
      generalize hnranges : (request + 1) * rangesPerParticipant = nranges
      have hpos : 0 < nranges := by
        rw [← hnranges, rangesPerParticipant]
        omega
      let entries := bs.flatMap BuildState.entries
      let heads := (List.range nranges).flatMap fun r =>
        postingHeads none ((rangeEntries nranges r entries).mergeSort BuildEntry.le)
      have hone := fun r => onePerHash_postingHeads (rangeEntries nranges r entries)
      -- A tuple is a head exactly when it is one of its own range.
      have hheads : ∀ e, e ∈ heads ↔ e ∈ postingHeads none ((rangeEntries nranges
          (e.trigramHash.toNat / ((2 ^ 64 - 1) / nranges + 1)) entries).mergeSort BuildEntry.le) := by
        intro e
        constructor
        · intro he
          obtain ⟨r, -, he⟩ := List.mem_flatMap.mp he
          have hr := (List.mem_filter.mp ((hone r).subset e he)).2
          rwa [of_decide_eq_true hr]
        · intro he
          exact List.mem_flatMap.mpr ⟨_, List.mem_range.mpr (range_lt hpos _), he⟩
      refine ⟨entries, heads, mapM_scanAndSort_holds hscan, ⟨?_, ?_, ?_⟩, fun key => ?_⟩
      · intro e he
        exact (List.mem_filter.mp ((hone _).subset e ((hheads e).mp he))).1
      · intro e he
        have hmem : e ∈ rangeEntries nranges
            (e.trigramHash.toNat / ((2 ^ 64 - 1) / nranges + 1)) entries :=
          List.mem_filter.mpr ⟨he, decide_eq_true rfl⟩
        obtain ⟨e', he', hhash⟩ := (hone _).covers e hmem
        refine ⟨e', (hheads e').mpr ?_, hhash⟩
        rwa [hhash]
      · intro e he e' he' hhash
        have hmem := (hheads e').mp he'
        rw [← hhash] at hmem
        exact (hone _).unique e ((hheads e).mp he) e' hmem hhash
      · simp only [heads, buildPostings, List.mem_flatMap, List.mem_map]
        constructor
        · rintro ⟨r, hr, e, he, rfl⟩
          exact ⟨e, ⟨r, hr, he⟩, rfl⟩
        · rintro ⟨e, ⟨r, hr, he⟩, rfl⟩
          exact ⟨r, hr, e, he, rfl⟩

/-! ## Completeness -/

/-- Dropping repeats keeps the members. -/
theorem mem_dropRepeats {keys : List ℕ} {key : ℕ} : key ∈ dropRepeats keys ↔ key ∈ keys := by
  induction keys using dropRepeats.induct with
  | case1 a keys ih => simp [dropRepeats, ih]
  | case2 a b keys hne ih => simp [dropRepeats, hne, ih]
  | case3 keys hshort =>
    match keys, hshort with
    | [], _ => rfl
    | [a], _ => rfl
    | a :: b :: keys, hshort => exact absurd rfl (hshort a b keys)

/-- The key as a number in base `2 ^ 21`. -/
theorem trigramKeyCp_eq {a b c : ℕ} (hb : b < 2 ^ 21) (hc : c < 2 ^ 21) (ha : a < 2 ^ 21) :
    trigramKeyCp (a, b, c) = (a * 2 ^ 21 + b) * 2 ^ 21 + c := by
  have hhigh : a <<< (2 * 21) ||| b <<< 21 = (a * 2 ^ 21 + b) <<< 21 := by
    rw [← Nat.shiftLeft_eq a 21, Nat.shiftLeft_add_eq_or_of_lt hb, Nat.shiftLeft_or_distrib,
      ← Nat.shiftLeft_add]
  simp only [trigramKeyCp, cpBits]
  rw [Nat.mod_eq_of_lt ha, Nat.mod_eq_of_lt hb, Nat.mod_eq_of_lt hc, hhigh,
    ← Nat.shiftLeft_eq (a * 2 ^ 21 + b) 21]
  exact (Nat.shiftLeft_add_eq_or_of_lt hc _).symm

/-- Its digits. -/
theorem digits_unique {a b c a' b' c' : ℕ} (hb : b < 2 ^ 21) (hc : c < 2 ^ 21)
    (hb' : b' < 2 ^ 21) (hc' : c' < 2 ^ 21)
    (h : (a * 2 ^ 21 + b) * 2 ^ 21 + c = (a' * 2 ^ 21 + b') * 2 ^ 21 + c') :
    a = a' ∧ b = b' ∧ c = c' := by
  omega

/-- The row has valid code points only. -/
def BuildRow.Valid (row : BuildRow) : Prop :=
  ∀ text, row.value = some text → ∀ cp ∈ text, cp.isValidChar

/-- A valid code point has 21 bits. -/
theorem lt_of_isValidChar {n : ℕ} (h : n.isValidChar) : n < 2 ^ 21 := by
  unfold Nat.isValidChar at h
  omega

/-- Trigrams of valid code points are told apart by their keys. -/
theorem BuildRow.Valid.eq_of_key {row row' : BuildRow} (hrow : row.Valid) (hrow' : row'.Valid)
    {t t' : Trigram} (ht : row.HasTrigram t) (ht' : row'.HasTrigram t')
    (h : trigramKeyCp t = trigramKeyCp t') : t = t' := by
  have hlt : ∀ {row : BuildRow} {a b c : ℕ}, row.Valid → row.HasTrigram (a, b, c) →
      a < 2 ^ 21 ∧ b < 2 ^ 21 ∧ c < 2 ^ 21 := by
    rintro row a b c hrow ⟨text, hvalue, hmem⟩
    obtain ⟨i, ha, hb, hc⟩ := mem_windows_iff.mp hmem
    exact ⟨lt_of_isValidChar (hrow text hvalue a (List.mem_of_getElem? ha)),
      lt_of_isValidChar (hrow text hvalue b (List.mem_of_getElem? hb)),
      lt_of_isValidChar (hrow text hvalue c (List.mem_of_getElem? hc))⟩
  obtain ⟨a, b, c⟩ := t
  obtain ⟨a', b', c'⟩ := t'
  obtain ⟨ha, hb, hc⟩ := hlt hrow ht
  obtain ⟨ha', hb', hc'⟩ := hlt hrow' ht'
  rw [trigramKeyCp_eq hb hc ha, trigramKeyCp_eq hb' hc' ha'] at h
  obtain ⟨rfl, rfl, rfl⟩ := digits_unique hb hc hb' hc' h
  rfl

/-- The rows have the trigram. -/
def HeapScan.HasTrigram (scan : HeapScan) (t : Trigram) : Prop :=
  ∃ row ∈ scan.rows, row.HasTrigram t

/-- The set has the key of a trigram exactly when the trigram is the one its hash stands for. -/
theorem surfKeys_spec {maxEntriesMb : ℕ} {scan : HeapScan} {keys : List ℕ}
    (hvalid : ∀ row ∈ scan.rows, row.Valid) (h : surfKeys maxEntriesMb scan = .ok keys) :
    ∃ stands : UInt64 → Trigram, (∀ t, scan.HasTrigram t →
        scan.HasTrigram (stands (hashTrigramCp t)) ∧
          hashTrigramCp (stands (hashTrigramCp t)) = hashTrigramCp t) ∧
      ∀ t, scan.HasTrigram t → (trigramKeyCp t ∈ keys ↔ t = stands (hashTrigramCp t)) := by
  unfold surfKeys at h
  cases hcollect : collectKeys maxEntriesMb scan with
  | error e =>
    rw [hcollect] at h
    cases h
  | ok collected =>
    rw [hcollect] at h
    obtain rfl := Except.ok.inj h
    obtain ⟨entries, heads, hholds, hone, hmem⟩ := collectKeys_onePerHash hcollect
    -- The trigram of the head with a given hash.
    have hstands : ∀ hash, ∃ t, Emitted heads hash →
        scan.HasTrigram t ∧ hashTrigramCp t = hash ∧
          ∀ e ∈ heads, e.trigramHash = hash → e.trigramKey = trigramKeyCp t := by
      intro hash
      by_cases hem : Emitted heads hash
      · obtain ⟨e, he, rfl⟩ := hem
        obtain ⟨t, ht, hhash, hkey⟩ := hholds.sound e (hone.subset e he)
        refine ⟨t, fun _ => ⟨ht, hhash.symm, fun e' he' heq => ?_⟩⟩
        rw [hone.unique e' he' e he heq, hkey]
      · exact ⟨(0, 0, 0), fun h => absurd h hem⟩
    choose stands hstands using hstands
    have hcovered : ∀ t, scan.HasTrigram t → Emitted heads (hashTrigramCp t) := by
      intro t ht
      obtain ⟨e, he, hhash⟩ := hholds.complete t ht
      exact hhash ▸ hone.covers e he
    refine ⟨stands, fun t ht => ?_, fun t ht => ?_⟩
    · obtain ⟨hhas, hhash, -⟩ := hstands _ (hcovered t ht)
      exact ⟨hhas, hhash⟩
    · rw [mem_dropRepeats, List.mem_mergeSort, hmem]
      constructor
      · rintro ⟨e, he, hkey⟩
        obtain ⟨t', ⟨row', hrow', ht'⟩, hhash', hkey'⟩ := hholds.sound e (hone.subset e he)
        obtain ⟨row, hrow, htrow⟩ := ht
        obtain rfl : t = t' := (hvalid row hrow).eq_of_key (hvalid row' hrow') htrow ht'
          (hkey.symm.trans hkey')
        obtain ⟨⟨row₁, hrow₁, ht₁⟩, -, hall⟩ := hstands _ ⟨e, he, hhash'⟩
        exact (hvalid row hrow).eq_of_key (hvalid row₁ hrow₁) htrow ht₁
          (hkey.symm.trans (hall e he hhash'))
      · intro heq
        obtain ⟨e, he, hhash⟩ := hcovered t ht
        obtain ⟨-, -, hall⟩ := hstands _ ⟨e, he, hhash⟩
        exact ⟨e, he, by rw [hall e he hhash, ← heq]⟩

/-- The build hands the keys of all trigrams of the rows to the SuRF exactly when no two of the
trigrams have the same hash. -/
theorem surfKeys_complete_iff {maxEntriesMb : ℕ} {scan : HeapScan} {keys : List ℕ}
    (hvalid : ∀ row ∈ scan.rows, row.Valid) (h : surfKeys maxEntriesMb scan = .ok keys) :
    (∀ t, scan.HasTrigram t → trigramKeyCp t ∈ keys) ↔
      ∀ t t', scan.HasTrigram t → scan.HasTrigram t' →
        hashTrigramCp t = hashTrigramCp t' → t = t' := by
  obtain ⟨stands, hstands, hmem⟩ := surfKeys_spec hvalid h
  constructor
  · intro hall t t' ht ht' hhash
    rw [(hmem t ht).mp (hall t ht), (hmem t' ht').mp (hall t' ht'), hhash]
  · intro hinj t ht
    obtain ⟨hhas, hhash⟩ := hstands t ht
    exact (hmem t ht).mpr (hinj t _ ht hhas hhash.symm)

/-- A heap of two rows. -/
def twoRows (first second : List CodePoint) : HeapScan :=
  .serial [⟨⟨0, 1, by decide, by decide⟩, some first⟩, ⟨⟨0, 2, by decide, by decide⟩, some second⟩]

/-- The table of two rows has the windows of both. -/
theorem hasTrigram_twoRows {first second : List CodePoint} {t : Trigram} :
    (twoRows first second).HasTrigram t ↔ t ∈ windows first ∨ t ∈ windows second := by
  simp [HeapScan.HasTrigram, HeapScan.rows, twoRows, BuildRow.HasTrigram]

/-- Two rows of valid code points are valid. -/
theorem valid_twoRows {first second : List CodePoint} (hfirst : ∀ cp ∈ first, cp.isValidChar)
    (hsecond : ∀ cp ∈ second, cp.isValidChar) : ∀ row ∈ (twoRows first second).rows, row.Valid := by
  intro row hrow text hvalue
  simp only [twoRows, HeapScan.rows, List.mem_cons, List.not_mem_nil, or_false] at hrow
  rcases hrow with rfl | rfl
  · cases hvalue
    exact hfirst
  · cases hvalue
    exact hsecond

/-- The rows `abc` and `bcd`. -/
theorem surfKeys_complete_abcd :
    ∃ keys, surfKeys 0 (twoRows [97, 98, 99] [98, 99, 100]) = .ok keys ∧
      ∀ t, (twoRows [97, 98, 99] [98, 99, 100]).HasTrigram t → trigramKeyCp t ∈ keys := by
  obtain ⟨keys, hkeys⟩ : ∃ keys,
      surfKeys 0 (twoRows [97, 98, 99] [98, 99, 100]) = .ok keys := ⟨_, rfl⟩
  have hvalid := @valid_twoRows [97, 98, 99] [98, 99, 100] (by decide) (by decide)
  refine ⟨keys, hkeys, (surfKeys_complete_iff hvalid hkeys).mpr ?_⟩
  intro t t' ht ht' hhash
  simp only [hasTrigram_twoRows, windows, List.mem_singleton] at ht ht'
  rcases ht with rfl | rfl
  · rcases ht' with rfl | rfl
    · rfl
    · exact absurd hhash (by decide)
  · rcases ht' with rfl | rfl
    · exact absurd hhash (by decide)
    · rfl

/-- The rows `man` and U+1A95 U+30B1 `n` are two trigrams with one hash, and only the first one's
key is taken. -/
theorem surfKeys_incomplete :
    ¬∀ (maxEntriesMb : ℕ) (scan : HeapScan) (keys : List ℕ),
      (∀ row ∈ scan.rows, row.Valid) → surfKeys maxEntriesMb scan = .ok keys →
      ∀ t, scan.HasTrigram t → trigramKeyCp t ∈ keys := by
  intro hall
  have hvalid := @valid_twoRows [109, 97, 110] [0x1A95, 0x30B1, 110] (by decide) (by decide)
  obtain ⟨keys, hkeys⟩ : ∃ keys,
      surfKeys 0 (twoRows [109, 97, 110] [0x1A95, 0x30B1, 110]) = .ok keys := ⟨_, rfl⟩
  obtain ⟨stands, -, hmem⟩ := surfKeys_spec hvalid hkeys
  have hfirst : (twoRows [109, 97, 110] [0x1A95, 0x30B1, 110]).HasTrigram (109, 97, 110) :=
    hasTrigram_twoRows.mpr (Or.inl (by decide))
  have hsecond : (twoRows [109, 97, 110] [0x1A95, 0x30B1, 110]).HasTrigram
      (0x1A95, 0x30B1, 110) := hasTrigram_twoRows.mpr (Or.inr (by decide))
  have heq := (hmem _ hfirst).mp (hall _ _ _ hvalid hkeys _ hfirst)
  have heq' := (hmem _ hsecond).mp (hall _ _ _ hvalid hkeys _ hsecond)
  have hhash : hashTrigramCp (109, 97, 110) = hashTrigramCp (0x1A95, 0x30B1, 110) := by decide
  rw [hhash, ← heq'] at heq
  exact absurd heq (by decide)

end PgTre
