import PgTre.Pages.PostingRoundTrip
import PgTre.Pages.SparsemapLibrary

/-!
# Runs of builds

The postings of an index are built one after the other, and with coalescing they share a writer. When
the writer has finished, each of them is read as the set of its TIDs. The way a posting is stored is
not a matter of its size alone: of two postings of one size, one may be on a leaf and the other on two.
-/

namespace PgTre

open Layout Sparsemap
open Bytes (SparsemapLibrary postingLeafBudget storable_of_card)

/-! ## Runs -/

/-- A posting that was built: the TIDs, the builder that was given them, and what it returned. -/
structure RunPosting where
  tids : List ItemPointer
  builder : PostingBuilder
  out : BuiltPosting

/-- A run of builds that share a writer, or have none, with the postings built so far. Between two
builds the index may get other pages; nothing that is written changes, and the page that the writer
holds stays as it is. -/
inductive BuildRun (lib : SparsemapLibrary) (g : GrowingMap) :
    Option CoalescedWriter → PageStore → List RunPosting → Prop
  | begin (coalesce : Bool) (st : PageStore) :
      BuildRun lib g (if coalesce then some none else none) st []
  | build {cw cw' : Option CoalescedWriter} {st st' : PageStore} {log : List RunPosting}
      {pk : TidPacking} {trigramHash : UInt64} {expectedBytes : ℕ} {tids : List ItemPointer}
      {b : PostingBuilder} {out : BuiltPosting} (run : BuildRun lib g cw st log) (hne : tids ≠ [])
      (hascending : tids.Pairwise ItemPointer.Before)
      (hbuilder : postingBuilderOf pk trigramHash expectedBytes tids = .ok b)
      (hfinish : pgTrePostingBuildFinishEx lib g cw st b = .ok (out, cw', st')) :
      BuildRun lib g cw' st' (log ++ [⟨tids, b, out⟩])
  | other {cw : Option CoalescedWriter} {st st' : PageStore} {log : List RunPosting}
      (run : BuildRun lib g cw st log) (hwrites : LeafWrites (heldBlocks cw) st st') :
      BuildRun lib g cw st' log

/-- A posting is stored, in the log of the writer if it is coalesced. -/
structure RunPosting.Stored (lib : SparsemapLibrary) (st : PageStore) (clog : List CoalescedEntry)
    (e : RunPosting) : Prop where
  ne_nil : e.tids ≠ []
  ascending : e.tids.Pairwise ItemPointer.Before
  holds : ∃ trigramHash, e.builder.Holds e.builder.packing trigramHash e.tids
  stored : ∃ storage, StoredAs lib st e.builder.tids e.out storage
  coalesced : ∀ blkno slot, e.out.coalesced = some (blkno, slot) → slot < 2 ^ 16 ∧
    ⟨coalescedBlobOf e.builder.trigramHash (lib.encode e.builder.tids.toFinset), blkno, slot⟩ ∈ clog

section

variable {lib : SparsemapLibrary} {g : GrowingMap} {st st' : PageStore}
  {cw cw' : Option CoalescedWriter} {log : List RunPosting} {clog clog' : List CoalescedEntry}
  {tids : List ℕ} {out : BuiltPosting}

/-- What is stored stays stored while the pages are kept. -/
theorem StoredAs.keeps {storage : StorageClass} (h : StoredAs lib st tids out storage)
    (hkeeps : st.Keeps st') : StoredAs lib st' tids out storage := by
  cases storage with
  | inline => exact h
  | coalesced => exact h
  | leaf =>
    obtain ⟨root, hout, hchain, hslice⟩ := h
    exact ⟨root, hout, hchain.keeps hkeeps, hslice⟩
  | leaves =>
    obtain ⟨root, slices, hout, hchain, hrest⟩ := h
    exact ⟨root, slices, hout, hchain.keeps hkeeps, hrest⟩

/-- A run's posting stays stored while pages and the coalesced log are kept. -/
theorem RunPosting.Stored.keeps {e : RunPosting} (h : e.Stored lib st clog) (hkeeps : st.Keeps st')
    (hclog : clog ⊆ clog') : e.Stored lib st' clog' := by
  obtain ⟨storage, hstored⟩ := h.stored
  refine ⟨h.ne_nil, h.ascending, h.holds, ⟨storage, hstored.keeps hkeeps⟩, ?_⟩
  intro blkno slot hout
  obtain ⟨hslot, hmem⟩ := h.coalesced blkno slot hout
  exact ⟨hslot, hclog hmem⟩

/-- A builder that holds rows is not empty. -/
theorem PostingBuilder.Holds.ne_nil {b : PostingBuilder} {pk : TidPacking} {trigramHash : UInt64}
    {tids : List ItemPointer} (h : b.Holds pk trigramHash tids) (hne : tids ≠ []) : b.tids ≠ [] := by
  intro hnil
  apply hne
  rw [← h.map_unpackTid, hnil, List.map_nil]

/-- A page that a writer holds stays as it is when the blocks that are held do. -/
theorem LeafWrites.open_eq (h : LeafWrites (heldBlocks cw) st st') :
    ∀ page, writerOf cw = some page → st'.pages[page.blkno]? = st.pages[page.blkno]? := by
  intro page hpage
  match cw, h, hpage with
  | some (some page'), h, hpage =>
    obtain rfl : page' = page := Option.some.inj hpage
    exact h.held_eq page'.blkno (by simp [heldBlocks])

/-- Throughout a run every posting is stored as its build left it. -/
theorem BuildRun.inv (hone : OneTidFits lib) (run : BuildRun lib g cw st log) :
    ∃ clog, CoalescedRun (writerOf cw) st clog ∧ ∀ e ∈ log, e.Stored lib st clog := by
  induction run with
  | begin coalesce st =>
    refine ⟨[], ?_, by simp⟩
    cases coalesce with
    | false => exact CoalescedRun.begin st
    | true => exact CoalescedRun.begin st
  | other run hwrites ih =>
    obtain ⟨clog, hrun, hlog⟩ := ih
    refine ⟨clog, hrun.other hwrites.keeps hwrites.open_eq, fun e he => ?_⟩
    exact (hlog e he).keeps hwrites.keeps (List.Subset.refl clog)
  | @build cw cw' st st' log pk trigramHash expectedBytes tids b out run hne hascending hbuilder
      hfinish ih =>
    obtain ⟨clog, hrun, hlog⟩ := ih
    obtain ⟨placed, hinv⟩ := hrun.inv
    have hholds := postingBuilderOf_holds hbuilder
    obtain ⟨out', cw₁, st₁, hfinish', hstored, hstep, hkeeps⟩ :=
      pgTrePostingBuildFinishEx_spec hone (hholds.ne_nil hne) hholds.bounded hinv
    rw [hfinish] at hfinish'
    obtain ⟨rfl, rfl, rfl⟩ : out = out' ∧ cw' = cw₁ ∧ st' = st₁ := by simpa using hfinish'
    have hentry : ∀ clog', (∀ blkno slot, out.coalesced = some (blkno, slot) → slot < 2 ^ 16 ∧
        ⟨coalescedBlobOf b.trigramHash (lib.encode b.tids.toFinset), blkno, slot⟩ ∈ clog') →
        clog ⊆ clog' → ∀ e ∈ log ++ [⟨tids, b, out⟩], e.Stored lib st' clog' := by
      intro clog' hcoalesced hsub e he
      rcases List.mem_append.mp he with he | he
      · exact (hlog e he).keeps hkeeps hsub
      · obtain rfl := List.mem_singleton.mp he
        refine ⟨hne, hascending, ⟨trigramHash, ?_⟩, ⟨_, hstored⟩, hcoalesced⟩
        rw [hholds.packing]
        exact hholds
    rcases hstep with ⟨hnone, rfl, hwrites⟩ | ⟨w, w', blkno, slot, rfl, rfl, hout, hslot, hadd⟩
    · refine ⟨clog, hrun.other hwrites.keeps hwrites.open_eq,
        hentry clog ?_ (List.Subset.refl clog)⟩
      intro blkno slot hout
      rw [hnone] at hout
      cases hout
    · refine ⟨_, hrun.add hadd, hentry _ ?_ (List.subset_append_left _ _)⟩
      intro blkno' slot' hout'
      rw [hout] at hout'
      obtain ⟨rfl, rfl⟩ : blkno = blkno' ∧ slot = slot' := by simpa using hout'
      exact ⟨hslot, by simp⟩

/-- The marker of a coalesced posting has its slot. -/
theorem coalescedMarker {slot : ℕ} (h : slot < 2 ^ 16) :
    (pgTreCoalescedFlag + slot).testBit 31 = true ∧ (pgTreCoalescedFlag + slot) % 2 ^ 16 = slot := by
  have hflag : pgTreCoalescedFlag = 2 ^ 31 := rfl
  constructor
  · rw [hflag, Nat.testBit_two_pow_add_eq, Nat.testBit_lt_two_pow (by omega)]
    rfl
  · omega

/-- There are no more slices than TIDs. -/
theorem length_slices_le {slices : List (List ℕ)} (h : ∀ slice ∈ slices, slice ≠ []) :
    slices.length ≤ slices.flatten.length := by
  have hlength : (slices.map List.length).length = slices.length := List.length_map _
  rw [List.length_flatten, ← hlength]
  apply List.length_le_sum_of_one_le
  intro n hn
  obtain ⟨slice, hslice, rfl⟩ := List.mem_map.mp hn
  exact List.length_pos_of_ne_nil (h slice hslice)

/-- The reader has the TIDs of a posting that is stored, once the writer has finished, if the library
reads the maps of some of them. -/
theorem RunPosting.Stored.materialize_of_reads {e : RunPosting}
    (hreads : ∀ s ⊆ e.builder.tids.toFinset, lib.Reads s) (hstored : e.Stored lib st clog)
    (hcoalesced : ∀ c ∈ clog, c.Written st) (hlimit : st.pages.length ≤ invalidBlockNumber) {fuel : ℕ}
    (hfuel : e.tids.length ≤ fuel) :
    e.out.materialize lib st fuel = some (.ok (some e.builder.tids.toFinset)) := by
  obtain ⟨trigramHash, hholds⟩ := hstored.holds
  have hlen : e.builder.tids.length = e.tids.length := by
    rw [← hholds.map_unpackTid, List.length_map]
  have hcount := hholds.length_lt
  obtain ⟨hopen, hheader⟩ := hreads e.builder.tids.toFinset (Finset.Subset.refl _)
  obtain ⟨storage, hways⟩ := hstored.stored
  cases storage with
  | inline =>
    have hout : e.out = _ := hways
    rw [hout, BuiltPosting.materialize]
    simp only [pgTrePostingMaterialize, List.take_length, hopen, Option.map_some]
  | coalesced =>
    obtain ⟨⟨blkno, slot⟩, hout⟩ := hways
    obtain ⟨hslot, hmem⟩ := hstored.coalesced blkno slot (by rw [hout])
    obtain ⟨stored, placed, p, hget, hblobs, hp, hblob⟩ := hcoalesced _ hmem
    have hany : (UInt64.ofNat coalescedHashAny).toNat = coalescedHashAny := by
      rw [UInt64.toNat_ofNat']
      exact Nat.mod_eq_of_lt (by decide)
    have hresolve := hblobs.resolve hp hget (Or.inl hany)
    obtain ⟨hflag, hmod⟩ := coalescedMarker hslot
    rw [hblob] at hresolve
    simp only [coalescedBlobOf] at hresolve
    have hne : lib.encode e.builder.tids.toFinset ≠ [] := by
      intro hnil
      rw [hnil] at hheader
      simp at hheader
    rw [hout, BuiltPosting.materialize]
    simp only [pgTrePostingMaterialize, hflag, if_true, hmod, hresolve, if_neg hne, hopen,
      Option.map_some]
  | leaf =>
    obtain ⟨root, hout, hchain, hslice⟩ := hways
    have hpos := List.length_pos_of_ne_nil hstored.ne_nil
    have hone : [e.builder.tids].length ≤ fuel := by
      rw [List.length_singleton]
      omega
    have hread := hchain.materialize (by simpa using hreads _ (Finset.Subset.refl _))
      (by simpa using hslice) (by simp) hlimit (by simp) hone
    rw [hout, BuiltPosting.materialize]
    simpa using hread
  | leaves =>
    obtain ⟨root, slices, hout, hchain, htwo, hflatten, hgood⟩ := hways
    have hle := length_slices_le fun slice hslice => (hgood slice hslice).ne_nil
    rw [hflatten] at hle
    have hmany : slices.reverse.length ≤ fuel ∧ slices.reverse.length < 2 ^ 64 ∧
        slices.reverse ≠ [] := by
      rw [List.length_reverse, Ne, List.reverse_eq_nil_iff, ← List.length_eq_zero_iff]
      omega
    have hslices : ∀ slice ∈ slices.reverse, lib.Reads slice.toFinset := by
      intro slice hslice
      apply hreads
      intro tid htid
      rw [List.mem_toFinset] at htid ⊢
      rw [← hflatten]
      exact List.mem_flatten_of_mem (List.mem_reverse.mp hslice) htid
    have hread := hchain.materialize hslices
      (fun slice hslice => hgood slice (List.mem_reverse.mp hslice)) hmany.2.2 hlimit hmany.2.1 hmany.1
    have hset : slices.reverse.flatten.toFinset = e.builder.tids.toFinset := by
      ext tid
      rw [← hflatten]
      simp
    rw [hout, BuiltPosting.materialize]
    rw [hset] at hread
    exact hread

/-- A posting of a run is read as its TIDs, once the writer has finished, if the library reads the maps
of some of them. -/
theorem BuildRun.read (hone : OneTidFits lib) (run : BuildRun lib g cw st log)
    (hlimit : (pgTreCoalescedWriterFinish (writerOf cw) st).pages.length ≤ invalidBlockNumber)
    {e : RunPosting} (he : e ∈ log) (hreads : ∀ s ⊆ e.builder.tids.toFinset, lib.Reads s) {fuel : ℕ}
    (hfuel : e.tids.length ≤ fuel) :
    ∃ sm, e.out.materialize lib (pgTreCoalescedWriterFinish (writerOf cw) st) fuel =
        some (.ok (some sm)) ∧
      sm.image (unpackTid e.builder.packing) = e.tids.toFinset ∧ sm.card = e.tids.length := by
  obtain ⟨clog, hrun, hlog⟩ := run.inv hone
  obtain ⟨placed, hinv⟩ := hrun.inv
  have hkeeps : st.Keeps (pgTreCoalescedWriterFinish (writerOf cw) st) := by
    cases hw : writerOf cw with
    | none => exact PageStore.Keeps.refl st
    | some page => exact (hinv.opened page hw).keeps_write _
  have hstored := (hlog e he).keeps hkeeps (List.Subset.refl clog)
  obtain ⟨trigramHash, hholds⟩ := hstored.holds
  have hnodup : e.builder.tids.Nodup := (hholds.ascending hstored.ascending).imp Nat.ne_of_lt
  refine ⟨_, hstored.materialize_of_reads hreads hinv.finish hlimit hfuel, ?_, ?_⟩
  · ext tid
    rw [Finset.mem_image, List.mem_toFinset, ← hholds.map_unpackTid, List.mem_map]
    simp only [List.mem_toFinset]
  · rw [List.toFinset_card_of_nodup hnodup, ← hholds.map_unpackTid, List.length_map]

/-- A build of a posting always ends, in the way of storing that the outcome of the probe and the
size of the map say. A chain has the TIDs cut into slices, each on a leaf of its own. Whatever was
built with one writer or with none is read as the set of its TIDs, once the writer has finished, if
the library reads the maps of some of them. -/
theorem postingBuild_materialize (hone : OneTidFits lib)
    (run : BuildRun lib g cw st log)
    (hlimit : (pgTreCoalescedWriterFinish (writerOf cw) st).pages.length ≤ invalidBlockNumber) :
    (∀ (pk : TidPacking) (trigramHash : UInt64) (expectedBytes : ℕ) (tids : List ItemPointer)
      (b : PostingBuilder), tids ≠ [] → tids.Pairwise ItemPointer.Before →
      postingBuilderOf pk trigramHash expectedBytes tids = .ok b →
      b.tids.map (unpackTid pk) = tids ∧ b.tids.Nodup ∧
        ∃ out cw' st', pgTrePostingBuildFinishEx lib g cw st b = .ok (out, cw', st') ∧
          StoredAs lib st' b.tids out
            (storageClass (b.multi g) cw.isSome (lib.encode b.tids.toFinset).length)) ∧
    ∀ e ∈ log, (∀ s ⊆ e.builder.tids.toFinset, lib.Reads s) → ∀ fuel, e.tids.length ≤ fuel →
      ∃ sm, e.out.materialize lib (pgTreCoalescedWriterFinish (writerOf cw) st) fuel =
          some (.ok (some sm)) ∧
        sm.image (unpackTid e.builder.packing) = e.tids.toFinset ∧ sm.card = e.tids.length := by
  constructor
  · intro pk trigramHash expectedBytes tids b hne hascending hbuilder
    obtain ⟨clog, hrun, -⟩ := run.inv hone
    obtain ⟨placed, hinv⟩ := hrun.inv
    have hholds := postingBuilderOf_holds hbuilder
    obtain ⟨out, cw', st', hfinish, hstored, -, -⟩ :=
      pgTrePostingBuildFinishEx_spec hone (hholds.ne_nil hne) hholds.bounded hinv
    exact ⟨hholds.map_unpackTid, (hholds.ascending hascending).imp Nat.ne_of_lt, out, cw', st', hfinish,
      hstored⟩
  · intro e he hreads fuel hfuel
    exact run.read hone hlimit he hreads hfuel

end

/-! ## Two postings of one size -/

/-- The number of bytes of a map whose numbers fill no vector: a chunk has its start and its descriptor,
and a vector one word. -/
def chunkMapSize (s : Finset ℕ) : ℕ := 8 + 16 * (s.image (· / 2048)).card + 8 * (s.image (· / 64)).card

/-- A map that grows as in `sparsemap.c`, for numbers that do not fill whole vectors. A new chunk takes
24 bytes, and with any other number there must be room for 16; eight more must stay free. -/
def chunkGrowing : GrowingMap where
  Map := Finset ℕ × ℕ
  create budget := (∅, maxAlign budget)
  addGrow m tid :=
    let need := if m.1 = ∅ ∨ tid / 2048 ∈ m.1.image (· / 2048) then 16 else 24
    if chunkMapSize m.1 + need + 8 ≤ m.2 then (insert tid m.1, m.2)
    else (insert tid m.1, max (2 * m.2) 4096)
  capacity := Prod.snd

/-- Every TID fits a leaf. -/
theorem sparsemapLibrary_oneTidFits : OneTidFits sparsemapLibrary := fun tid _ =>
  (length_encode_single tid).trans (by decide)

/-- A builder takes every list of TIDs that can be packed, up to half of the largest `int`. -/
theorem postingBuilderOf_ok {pk : TidPacking} {tids : List ItemPointer} {f : ItemPointer → ℕ}
    (hpack : ∀ tid ∈ tids, packTid pk tid = .ok (f tid)) (hlength : tids.length ≤ intMax / 2)
    (trigramHash : UInt64) (expectedBytes : ℕ) :
    ∃ b, postingBuilderOf pk trigramHash expectedBytes tids = .ok b ∧ b.tids = tids.map f := by
  have hrun : ∀ (tids : List ItemPointer) (b₀ : PostingBuilder), b₀.packing = pk →
      (∀ tid ∈ tids, packTid pk tid = .ok (f tid)) → b₀.tids.length + tids.length ≤ intMax / 2 →
      ∃ b, tids.foldlM pgTrePostingBuildAdd b₀ = .ok b ∧ b.tids = b₀.tids ++ tids.map f := by
    intro tids
    induction tids with
    | nil =>
      intro b₀ _ _ _
      exact ⟨b₀, rfl, by simp⟩
    | cons tid tids ih =>
      intro b₀ hpk hpack hlength
      rw [List.length_cons] at hlength
      have hadd : ∃ b₁, pgTrePostingBuildAdd b₀ tid = .ok b₁ ∧ b₁.packing = pk ∧
          b₁.tids = b₀.tids ++ [f tid] := by
        unfold pgTrePostingBuildAdd
        rw [hpk, hpack tid List.mem_cons_self]
        simp only [bind, Except.bind, pure, Except.pure]
        rw [if_neg (by omega)]
        exact ⟨_, rfl, rfl, rfl⟩
      obtain ⟨b₁, hadd, hpk₁, htids₁⟩ := hadd
      obtain ⟨b, hfold, htids⟩ := ih b₁ hpk₁
        (fun tid' htid' => hpack tid' (List.mem_cons_of_mem _ htid'))
        (by rw [htids₁, List.length_append, List.length_singleton]; omega)
      refine ⟨b, ?_, ?_⟩
      · rw [List.foldlM_cons, hadd]
        exact hfold
      · rw [htids, htids₁, List.map_cons, List.append_assoc, List.singleton_append]
  obtain ⟨b, hfold, htids⟩ := hrun tids (pgTrePostingBuildBeginSized pk trigramHash expectedBytes) rfl
    hpack (by simpa [pgTrePostingBuildBeginSized] using hlength)
  exact ⟨b, hfold, htids⟩

/-- A TID for which there is room is counted. -/
theorem fillWhile_step {g : GrowingMap} {cap₀ tid : ℕ} {fill fill' : g.Map} (tids : List ℕ)
    (hadd : g.addGrow fill tid = fill') (hcap : ¬cap₀ < g.capacity fill') :
    fillWhile g cap₀ fill (tid :: tids) = fillWhile g cap₀ fill' tids + 1 := by
  rw [fillWhile.eq_2]
  simp only [hadd, if_neg hcap]

/-- A TID for which the map grows ends the count. -/
theorem fillWhile_stop {g : GrowingMap} {cap₀ tid : ℕ} {fill fill' : g.Map} (tids : List ℕ)
    (hadd : g.addGrow fill tid = fill') (hcap : cap₀ < g.capacity fill') :
    fillWhile g cap₀ fill (tid :: tids) = 0 := by
  rw [fillWhile.eq_2]
  simp only [hadd, if_pos hcap]

/-- The packed TID at the first offset of a block. -/
def firstOf (i : ℕ) : ℕ := 65536 * (i + 1) + 1

/-- The first offsets of some blocks. -/
def firstSet (n : ℕ) : Finset ℕ := (Finset.range n).image firstOf

/-- The set of first numbers, member by member. -/
theorem mem_firstSet {n m : ℕ} : m ∈ firstSet n ↔ ∃ i < n, firstOf i = m := by
  simp [firstSet]

/-- A set of first numbers takes 24 bytes a chunk. -/
theorem length_firstSet (n : ℕ) : chunkMapSize (firstSet n) = 8 + 24 * n := by
  have himage : ∀ k, k = 64 ∨ k = 2048 → ((firstSet n).image (· / k)).card = n := by
    intro k hk
    rw [firstSet, Finset.image_image, Finset.card_image_of_injective, Finset.card_range]
    intro i j heq
    simp only [Function.comp_apply, firstOf] at heq
    rcases hk with rfl | rfl
    · omega
    · omega
  rw [chunkMapSize, himage 64 (Or.inl rfl), himage 2048 (Or.inr rfl)]
  omega

/-- One more chunk adds its first number. -/
theorem firstSet_succ (n : ℕ) : firstSet (n + 1) = insert (firstOf n) (firstSet n) := by
  rw [firstSet, Finset.range_add_one, Finset.image_insert, firstSet]

/-- The probe finds room for the first offsets of 337 blocks. -/
theorem fillWhile_firstSet (rest : List ℕ) {j m : ℕ} (h : j + m ≤ 337) :
    fillWhile chunkGrowing 8120 (firstSet j, 8120) ((List.range' j m).map firstOf ++ rest) =
      m + fillWhile chunkGrowing 8120 (firstSet (j + m), 8120) rest := by
  induction m generalizing j with
  | zero => simp
  | succ m ih =>
    have hadd : chunkGrowing.addGrow (firstSet j, 8120) (firstOf j) = (firstSet (j + 1), 8120) := by
      have hlength := length_firstSet j
      unfold chunkGrowing
      simp only
      rw [firstSet_succ]
      split_ifs with hnone hroom hroom
      · rfl
      · omega
      · rfl
      · omega
    have hcap : ¬8120 < chunkGrowing.capacity (firstSet (j + 1), 8120) := lt_irrefl 8120
    have hstep := fillWhile_step ((List.range' (j + 1) m).map firstOf ++ rest) hadd hcap
    have hrest := @ih (j + 1) (by omega)
    have heq : j + 1 + m = j + (m + 1) := by omega
    rw [heq] at hrest
    rw [List.range'_succ, List.map_cons, List.cons_append]
    refine hstep.trans ?_
    rw [hrest]
    omega

/-- Two more offsets of the last of these blocks, which share a vector. -/
def secondOf : ℕ := 65536 * 337 + 65

def thirdOf : ℕ := 65536 * 337 + 66

/-- The first offsets of 337 blocks, and one more. -/
def secondSet : Finset ℕ := insert secondOf (firstSet 337)

/-- The maps with one and with both of the offsets have the same size. -/
theorem length_secondSet :
    chunkMapSize secondSet = 8104 ∧ chunkMapSize (insert thirdOf secondSet) = 8104 := by
  have hold := length_firstSet 337
  have hnew : secondOf / 64 ∉ (firstSet 337).image (· / 64) := by
    intro hmem
    obtain ⟨m, hm, heq⟩ := Finset.mem_image.mp hmem
    obtain ⟨i, hi, rfl⟩ := mem_firstSet.mp hm
    unfold firstOf secondOf at heq
    omega
  have hchunk : secondOf / 2048 ∈ (firstSet 337).image (· / 2048) :=
    Finset.mem_image.mpr ⟨firstOf 336, mem_firstSet.mpr ⟨336, by omega, rfl⟩, by decide⟩
  have hone : 8 + 16 * (secondSet.image (· / 2048)).card + 8 * (secondSet.image (· / 64)).card =
      8104 := by
    rw [chunkMapSize] at hold
    rw [secondSet, Finset.image_insert, Finset.image_insert, Finset.insert_eq_of_mem hchunk,
      Finset.card_insert_of_notMem hnew]
    omega
  -- The last number is in a vector that is there.
  have hmem : ∀ k, thirdOf / k = secondOf / k → thirdOf / k ∈ secondSet.image (· / k) :=
    fun k hk => Finset.mem_image.mpr ⟨secondOf, Finset.mem_insert_self _ _, hk.symm⟩
  constructor
  · rw [chunkMapSize]
    exact hone
  · rw [chunkMapSize, Finset.image_insert, Finset.image_insert,
      Finset.insert_eq_of_mem (hmem 2048 (by decide)), Finset.insert_eq_of_mem (hmem 64 (by decide))]
    exact hone

/-- The packed TIDs of the two postings. -/
def secondList : List ℕ := (List.range' 0 337).map firstOf ++ [secondOf]

def thirdList : List ℕ := secondList ++ [thirdOf]

/-- The first numbers ascend. -/
theorem firstOf_ascending (m : ℕ) : ((List.range' 0 m).map firstOf).Pairwise (· < ·) := by
  rw [List.pairwise_map]
  refine List.Pairwise.imp (R := (· < ·)) (fun hlt => ?_) List.pairwise_lt_range'
  unfold firstOf
  omega

/-- The third list ascends. -/
theorem thirdList_ascending : thirdList.Pairwise (· < ·) := by
  rw [thirdList, secondList, List.append_assoc, List.pairwise_append]
  refine ⟨firstOf_ascending 337, by decide, ?_⟩
  intro m hm n hn
  obtain ⟨i, hi, rfl⟩ := List.mem_map.mp hm
  have hlt : i < 337 := by simpa using hi
  have hcases : n = secondOf ∨ n = thirdOf := by simpa using hn
  rcases hcases with rfl | rfl
  · unfold firstOf secondOf
    omega
  · unfold firstOf thirdOf
    omega

/-- The two leaves' worth of TIDs. -/
theorem length_secondList : secondList.length = 338 ∧ thirdList.length = 339 := by
  simp [thirdList, secondList]

/-- The library gives both postings a map of the same size, and a smaller one to the first offsets of a
hundred blocks. -/
theorem length_encode_lists : (sparsemapLibrary.encode secondList.toFinset).length = 8104 ∧
    (sparsemapLibrary.encode thirdList.toFinset).length = 8104 ∧
    (sparsemapLibrary.encode ((List.range' 0 100).map firstOf).toFinset).length = 2408 := by
  obtain ⟨hsecond, hthird⟩ := length_secondList
  have hascending : secondList.Pairwise (· < ·) :=
    thirdList_ascending.sublist (List.sublist_append_left _ _)
  refine ⟨?_, ?_, ?_⟩
  · exact @length_encode_toFinset secondList hascending (by omega) 1013 (by decide +kernel)
  · exact @length_encode_toFinset thirdList thirdList_ascending (by omega) 1013 (by decide +kernel)
  · exact @length_encode_toFinset _ (firstOf_ascending 100) (by simp) 301 (by decide +kernel)

/-- With one of the offsets the TIDs fit the map of the probe, and with both they do not. -/
theorem leafFillCount_secondList :
    leafFillCount chunkGrowing secondList postingLeafBudget = 338 ∧
      leafFillCount chunkGrowing thirdList postingLeafBudget = 338 := by
  have hcreate : chunkGrowing.create postingLeafBudget = (firstSet 0, 8120) := rfl
  have hcap : chunkGrowing.capacity (firstSet 0, 8120) = 8120 := rfl
  have hlength := length_firstSet 337
  have hlength' := length_secondSet.1
  have hmem : ∀ s : Finset ℕ, firstOf 336 ∈ s → ∀ m, m / 2048 = firstOf 336 / 2048 →
      m / 2048 ∈ s.image (· / 2048) := fun s hs m hm => Finset.mem_image.mpr ⟨_, hs, hm.symm⟩
  have hlast : firstOf 336 ∈ firstSet 337 := mem_firstSet.mpr ⟨336, by omega, rfl⟩
  have hsecond : chunkGrowing.addGrow (firstSet 337, 8120) secondOf = (secondSet, 8120) := by
    unfold chunkGrowing
    simp only
    rw [if_pos (Or.inr (hmem _ hlast secondOf (by decide))), if_pos (by omega), secondSet]
  have hthird : chunkGrowing.addGrow (secondSet, 8120) thirdOf = (insert thirdOf secondSet, 16240) := by
    unfold chunkGrowing
    simp only
    rw [if_pos (Or.inr (hmem secondSet (Finset.mem_insert_of_mem hlast) thirdOf (by decide))),
      if_neg (by omega)]
    rfl
  have hroom : ¬8120 < chunkGrowing.capacity (secondSet, 8120) := lt_irrefl 8120
  have hcount : ∀ rest, fillWhile chunkGrowing 8120 (secondSet, 8120) rest = 0 →
      leafFillCount chunkGrowing (secondList ++ rest) postingLeafBudget = 338 := by
    intro rest hrest
    have hfirst := @fillWhile_firstSet (secondOf :: rest) 0 337 le_rfl
    rw [Nat.zero_add] at hfirst
    have hstep := (fillWhile_step rest hsecond hroom).trans (congrArg (· + 1) hrest)
    unfold leafFillCount
    simp only [hcreate, hcap]
    rw [secondList, List.append_assoc, List.singleton_append, hfirst]
    have hvalue : 337 + fillWhile chunkGrowing 8120 (firstSet 337, 8120) (secondOf :: rest) = 338 := by
      rw [hstep]
    rw [hvalue]
    rfl
  constructor
  · have h := hcount [] rfl
    rwa [List.append_nil] at h
  · apply hcount [thirdOf]
    exact fillWhile_stop [] hthird (by decide)

/-- The TID at an offset of a block. -/
def pointerAt (blk off : ℕ) : ItemPointer :=
  ⟨blk % 2 ^ 32, off % 2 ^ 16, blkid_mod_lt blk, posid_mod_lt off⟩

/-- The TIDs of the two postings. -/
def secondTids : List ItemPointer :=
  (List.range' 0 337).map (fun i => pointerAt (i + 1) 1) ++ [pointerAt 337 65]

def thirdTids : List ItemPointer := secondTids ++ [pointerAt 337 66]

/-- The TIDs ascend, and their numbers are those of the lists. -/
theorem thirdTids_spec : thirdTids.Pairwise ItemPointer.Before ∧
    secondTids.map (fun tid => tid.blkid * 2 ^ 16 + tid.posid) = secondList ∧
    thirdTids.map (fun tid => tid.blkid * 2 ^ 16 + tid.posid) = thirdList := by
  have hfirst : (List.range' 0 337).map (fun i => (pointerAt (i + 1) 1).blkid * 2 ^ 16 +
      (pointerAt (i + 1) 1).posid) = (List.range' 0 337).map firstOf := by
    apply List.map_congr_left
    intro i hi
    have hlt : i < 337 := by simpa using hi
    unfold pointerAt firstOf
    simp only
    omega
  have hsecond : secondTids.map (fun tid => tid.blkid * 2 ^ 16 + tid.posid) = secondList := by
    rw [secondTids, List.map_append, List.map_map]
    exact congrArg (· ++ [secondOf]) hfirst
  refine ⟨?_, hsecond, ?_⟩
  · rw [thirdTids, secondTids, List.append_assoc, List.pairwise_append, List.pairwise_map]
    refine ⟨?_, by decide, ?_⟩
    · apply List.Pairwise.imp_of_mem (R := (· < ·)) _ List.pairwise_lt_range'
      intro i j hi hj hlt
      have hi' : i < 337 := by simpa using hi
      have hj' : j < 337 := by simpa using hj
      left
      unfold pointerAt
      simp only
      omega
    · intro tid htid tid' htid'
      obtain ⟨i, hi, rfl⟩ := List.mem_map.mp htid
      have hi' : i < 337 := by simpa using hi
      have hcases : tid' = pointerAt 337 65 ∨ tid' = pointerAt 337 66 := by simpa using htid'
      rcases hcases with rfl | rfl
      · unfold ItemPointer.Before pointerAt
        simp only
        omega
      · unfold ItemPointer.Before pointerAt
        simp only
        omega
  · rw [thirdTids, List.map_append, hsecond]
    rfl

/-- Two postings of one size: the first is stored on one leaf, and the other, which has one more TID,
on a chain of leaves. -/
theorem storage_not_by_size : ∃ (tids tids' : List ItemPointer) (b b' : PostingBuilder),
    tids ≠ [] ∧ tids.Pairwise ItemPointer.Before ∧ postingBuilderOf .legacy 7 0 tids = .ok b ∧
    tids' ≠ [] ∧ tids'.Pairwise ItemPointer.Before ∧ postingBuilderOf .legacy 7 0 tids' = .ok b' ∧
    (sparsemapLibrary.encode b.tids.toFinset).length =
      (sparsemapLibrary.encode b'.tids.toFinset).length ∧
    (∃ out cw' st', pgTrePostingBuildFinishEx sparsemapLibrary chunkGrowing none ⟨1, [], []⟩ b =
      .ok (out, cw', st') ∧ StoredAs sparsemapLibrary st' b.tids out .leaf) ∧
    ∃ out cw' st', pgTrePostingBuildFinishEx sparsemapLibrary chunkGrowing none ⟨1, [], []⟩ b' =
      .ok (out, cw', st') ∧ StoredAs sparsemapLibrary st' b'.tids out .leaves := by
  obtain ⟨hascending, hsecond, hthird⟩ := thirdTids_spec
  obtain ⟨b, hb, hbtids⟩ := @postingBuilderOf_ok .legacy secondTids _
    (fun tid _ => packTid_legacy tid) (by simp [secondTids, intMax]) 7 0
  obtain ⟨b', hb', hbtids'⟩ := @postingBuilderOf_ok .legacy thirdTids _
    (fun tid _ => packTid_legacy tid) (by simp [thirdTids, secondTids, intMax]) 7 0
  rw [hsecond] at hbtids
  rw [hthird] at hbtids'
  have hprefix : secondTids.Pairwise ItemPointer.Before :=
    hascending.sublist (List.sublist_append_left _ _)
  have hinv : CoalescedInv (writerOf none) ⟨1, [], []⟩ [] [] := by
    constructor
    · intro page hpage
      cases hpage
    · simp
  obtain ⟨hlength, hlength', -⟩ := length_encode_lists
  obtain ⟨hcount, hcount'⟩ := leafFillCount_secondList
  have hlen : secondList.length = 338 := by simp [secondList]
  have hlen' : thirdList.length = 339 := by simp [thirdList, hlen]
  have hmulti : b.multi chunkGrowing = false := by
    rw [PostingBuilder.multi, hbtids, hcount, hlen]
    simp
  have hmulti' : b'.multi chunkGrowing = true := by
    rw [PostingBuilder.multi, hbtids', hcount', hlen']
    simp [thirdList]
  have hsz : (sparsemapLibrary.encode b.tids.toFinset).length = 8104 := by
    rw [hbtids]
    exact hlength
  have hsz' : (sparsemapLibrary.encode b'.tids.toFinset).length = 8104 := by
    rw [hbtids']
    exact hlength'
  have hholds := postingBuilderOf_holds hb
  have hholds' := postingBuilderOf_holds hb'
  have hne : secondTids ≠ [] := by simp [secondTids]
  have hne' : thirdTids ≠ [] := by simp [thirdTids]
  obtain ⟨out, cw, st, hfinish, hstored, -⟩ := @pgTrePostingBuildFinishEx_spec _ chunkGrowing _ none b
    _ _ sparsemapLibrary_oneTidFits (hholds.ne_nil hne) hholds.bounded hinv
  obtain ⟨out', cw', st', hfinish', hstored', -⟩ := @pgTrePostingBuildFinishEx_spec _ chunkGrowing _
    none b' _ _ sparsemapLibrary_oneTidFits (hholds'.ne_nil hne') hholds'.bounded hinv
  rw [hmulti, hsz] at hstored
  rw [hmulti', hsz'] at hstored'
  exact ⟨secondTids, thirdTids, b, b', hne, hprefix, hb, hne', hascending, hb', hsz.trans hsz'.symm,
    ⟨out, cw, st, hfinish, hstored⟩, out', cw', st', hfinish', hstored'⟩

/-! ## In the bytes of the library -/

section

variable {cw cw' : Option CoalescedWriter} {st st' : PageStore} {log : List RunPosting}
  {g : GrowingMap} {lib : SparsemapLibrary}

/-- A packed TID has 48 bits. -/
theorem Packed.lt {pk : TidPacking} {packed : ℕ} (h : Packed pk packed) : packed < 2 ^ 48 := by
  obtain ⟨tid, htid⟩ := h
  have hblk := tid.blkidLt
  have hpos := tid.posidLt
  cases pk with
  | legacy =>
    rw [packTid_legacy] at htid
    obtain rfl := Except.ok.inj htid
    omega
  | dense =>
    simp only [packTid] at htid
    split_ifs at htid with hlarge
    simp only [denseStride, maxHeapTuplesPerPage, Except.ok.injEq] at htid hlarge
    omega

/-- The library reads the maps of some TIDs of a posting. -/
theorem PostingBuilder.Holds.reads {b : PostingBuilder} {pk : TidPacking} {trigramHash : UInt64}
    {tids : List ItemPointer} (h : b.Holds pk trigramHash tids) (hshort : tids.length ≤ 2 ^ 31 - 2048) :
    ∀ s ⊆ b.tids.toFinset, sparsemapLibrary.Reads s := by
  intro s hs
  have hlength : b.tids.length = tids.length := by rw [← h.map_unpackTid, List.length_map]
  refine sparsemapLibrary_lawful.reads (storable_of_card (fun tid htid => ?_) ?_)
  · exact (h.mem_packed tid (List.mem_toFinset.mp (hs htid))).lt
  · have hle := (Finset.card_le_card hs).trans b.tids.toFinset_card_le
    rw [hlength] at hle
    exact hle.trans hshort

/-- Whatever postings are built with one writer or with none, in any of the four ways of storing, each
is read from the bytes as the set of its TIDs, once the writer has finished. -/
theorem postingBuild_sparsemapLibrary (run : BuildRun sparsemapLibrary g cw st log)
    (hshort : ∀ e ∈ log, e.tids.length ≤ 2 ^ 31 - 2048)
    (hlimit : (pgTreCoalescedWriterFinish (writerOf cw) st).pages.length ≤ invalidBlockNumber) :
    ∀ e ∈ log, ∀ fuel, e.tids.length ≤ fuel →
      ∃ sm, e.out.materialize sparsemapLibrary (pgTreCoalescedWriterFinish (writerOf cw) st) fuel =
          some (.ok (some sm)) ∧
        sm.image (unpackTid e.builder.packing) = e.tids.toFinset ∧ sm.card = e.tids.length := by
  intro e he fuel hfuel
  obtain ⟨clog, -, hlog⟩ := run.inv sparsemapLibrary_oneTidFits
  obtain ⟨trigramHash, hholds⟩ := (hlog e he).holds
  exact run.read sparsemapLibrary_oneTidFits hlimit he (hholds.reads (hshort e he)) hfuel

/-! ## The number of pages -/

/-- Extending takes at most one page. -/
theorem length_extend_le (st : PageStore) (held : List BlockNumber) (kind : PageTreKind) :
    (st.extend held kind).2.pages.length ≤ st.pages.length + 1 := by
  unfold PageStore.extend
  cases reusablePage st.pages held st.fsm with
  | none => simp
  | some r => simp

/-- A single leaf takes at most one page. -/
theorem length_writeSingleLeaf_le {held : List BlockNumber} {trigramHash : UInt64} {data : List UInt8}
    {minTid maxTid nTids : ℕ} {rightLink : Option BlockNumber} {blkno : BlockNumber}
    (h : writeSingleLeaf st held trigramHash data minTid maxTid nTids rightLink = .ok (blkno, st')) :
    st'.pages.length ≤ st.pages.length + 1 := by
  unfold writeSingleLeaf at h
  split_ifs at h
  obtain ⟨-, rfl⟩ := Prod.mk.inj (Except.ok.inj h)
  rw [PageStore.write, List.length_set]
  exact length_extend_le st held _

/-- A chain has no more leaves than TIDs. -/
theorem length_writeLeaves_le {held : List BlockNumber} {trigramHash : UInt64} {tids : List ℕ}
    {rightLink root : Option BlockNumber}
    (h : writeLeaves lib g held trigramHash st tids rightLink = .ok (root, st')) :
    st'.pages.length ≤ st.pages.length + tids.length := by
  induction hn : tids.length using Nat.strong_induction_on generalizing st tids rightLink with
  | _ n ih =>
    rw [writeLeaves] at h
    by_cases hnil : tids = []
    · rw [if_pos hnil] at h
      obtain ⟨-, rfl⟩ := Prod.mk.inj (Except.ok.inj h)
      omega
    · rw [if_neg hnil] at h
      dsimp only at h
      split_ifs at h
      have hpos := (exactSlice_spec lib tids (leafFillCount_pos g tids postingLeafBudget)).1
      have hsome := List.length_pos_of_ne_nil hnil
      cases hleaf : writeSingleLeaf st held trigramHash
          (exactSlice lib tids (leafFillCount g tids postingLeafBudget)).2 (tids.headD 0)
          ((tids.take (exactSlice lib tids (leafFillCount g tids postingLeafBudget)).1).getLastD 0)
          (exactSlice lib tids (leafFillCount g tids postingLeafBudget)).1 rightLink with
      | error e =>
        rw [hleaf] at h
        cases h
      | ok r =>
        obtain ⟨blkno, st₁⟩ := r
        rw [hleaf] at h
        have hone := length_writeSingleLeaf_le hleaf
        have hrest := ih _ (by rw [List.length_drop]; omega) h rfl
        rw [List.length_drop] at hrest
        omega

/-- Making room for a blob takes at most two pages. -/
theorem length_coalescedPageFor_le (w : CoalescedWriter) (st : PageStore) (blob : CoalescedBlob) :
    (coalescedPageFor w st blob).2.pages.length ≤ st.pages.length + 2 := by
  have hopen : ∀ st : PageStore, (openCoalescedPage st).2.pages.length ≤ st.pages.length + 1 :=
    fun st => length_extend_le st [] _
  have hflush : ∀ (page : CoalescedPage) (st : PageStore),
      (flushCoalescedPage page st).pages.length = st.pages.length :=
    fun page st => by rw [flushCoalescedPage, PageStore.write, List.length_set]
  unfold coalescedPageFor
  cases w with
  | none =>
    dsimp only
    have hfirst := hopen st
    split_ifs
    · have hsecond := hopen (flushCoalescedPage (openCoalescedPage st).1 (openCoalescedPage st).2)
      rw [hflush] at hsecond
      omega
    · omega
  | some page =>
    dsimp only
    split_ifs
    · have hsecond := hopen (flushCoalescedPage page st)
      rw [hflush] at hsecond
      omega
    · exact Nat.le_add_right _ _

/-- A step whose result is used has one. -/
theorem ok_of_bind {α β : Type} {x : Except PgError α} {f : α → Except PgError β} {r : β}
    (h : (x >>= f) = .ok r) : ∃ a, x = .ok a ∧ f a = .ok r := by
  cases x with
  | error e => cases h
  | ok a => exact ⟨a, rfl, h⟩

/-- Adding a coalesced posting takes at most two pages. -/
theorem length_pgTreCoalescedAdd_le {w : CoalescedWriter} {blob : CoalescedBlob}
    {r : (BlockNumber × ℕ) × CoalescedWriter × PageStore} (h : pgTreCoalescedAdd w st blob = .ok r) :
    r.2.2.pages.length ≤ st.pages.length + 2 := by
  obtain ⟨_, -, hr⟩ := ok_of_bind h
  obtain rfl := Except.ok.inj hr
  exact length_coalescedPageFor_le w st blob

/-- A build takes no more new pages than its TIDs and two. -/
theorem length_pgTrePostingBuildFinishEx_le {b : PostingBuilder} {out : BuiltPosting}
    (h : pgTrePostingBuildFinishEx lib g cw st b = .ok (out, cw', st')) :
    st'.pages.length ≤ st.pages.length + b.tids.length + 2 := by
  have hleaf : ∀ {r}, writeSingleLeaf st (heldBlocks cw) b.trigramHash (lib.encode b.tids.toFinset)
      b.minTid b.maxTid b.tids.length none = .ok r →
        r.2.pages.length ≤ st.pages.length + b.tids.length + 2 := fun hr => by
    have hle := length_writeSingleLeaf_le hr
    omega
  have hleaves : ∀ {r}, writeLeaves lib g (heldBlocks cw) b.trigramHash st b.tids none = .ok r →
      r.2.pages.length ≤ st.pages.length + b.tids.length + 2 := fun hr =>
    (length_writeLeaves_le hr).trans (Nat.le_add_right _ _)
  -- What follows the attempt to coalesce.
  have hrest : ∀ {fits : Prop} [Decidable fits], (if fits then do
        let r ← writeSingleLeaf st (heldBlocks cw) b.trigramHash (lib.encode b.tids.toFinset)
          b.minTid b.maxTid b.tids.length none
        return (⟨some r.1, none, 0, none⟩, cw, r.2)
      else do
        let r ← writeLeaves lib g (heldBlocks cw) b.trigramHash st b.tids none
        return (⟨r.1, none, 0, none⟩, cw, r.2)) = Except.ok (out, cw', st') →
      st'.pages.length ≤ st.pages.length + b.tids.length + 2 := by
    intro fits _ h
    split_ifs at h
    · obtain ⟨r, hr, hout⟩ := ok_of_bind h
      obtain ⟨-, hout⟩ := Prod.mk.inj (Except.ok.inj hout)
      rw [← (Prod.mk.inj hout).2]
      exact hleaf hr
    · obtain ⟨r, hr, hout⟩ := ok_of_bind h
      obtain ⟨-, hout⟩ := Prod.mk.inj (Except.ok.inj hout)
      rw [← (Prod.mk.inj hout).2]
      exact hleaves hr
  unfold pgTrePostingBuildFinishEx at h
  dsimp only at h
  by_cases hinline : (!b.multi g) = true ∧ (lib.encode b.tids.toFinset).length ≤ pgTreInlinePostingMax
  · rw [if_pos hinline] at h
    obtain ⟨-, hout⟩ := Prod.mk.inj (Except.ok.inj h)
    rw [← (Prod.mk.inj hout).2]
    omega
  · rw [if_neg hinline] at h
    cases cw with
    | none => exact hrest h
    | some w =>
      dsimp only at h
      by_cases hcoalesced : (!b.multi g) = true ∧
          pgTreInlinePostingMax < (lib.encode b.tids.toFinset).length ∧
          (lib.encode b.tids.toFinset).length ≤ pgTreCoalesceMax
      · rw [if_pos hcoalesced] at h
        obtain ⟨r, hr, hout⟩ := ok_of_bind h
        obtain ⟨-, hout⟩ := Prod.mk.inj (Except.ok.inj hout)
        rw [← (Prod.mk.inj hout).2]
        have hle := length_pgTreCoalescedAdd_le hr
        exact hle.trans (Nat.add_le_add_right (Nat.le_add_right _ _) 2)
      · rw [if_neg hcoalesced] at h
        exact hrest h

/-- Finishing the writer adds no page. -/
theorem length_pgTreCoalescedWriterFinish (w : CoalescedWriter) (st : PageStore) :
    (pgTreCoalescedWriterFinish w st).pages.length = st.pages.length := by
  cases w with
  | none => rfl
  | some page =>
    rw [pgTreCoalescedWriterFinish, flushCoalescedPage, PageStore.write, List.length_set]

/-! ## A run with all ways of storing -/

/-- A run with a writer goes on with a posting in the legacy packing. -/
theorem BuildRun.next {tids : List ItemPointer} {w : CoalescedWriter}
    (run : BuildRun sparsemapLibrary g (some w) st log) (hne : tids ≠ [])
    (hascending : tids.Pairwise ItemPointer.Before) (hlength : tids.length ≤ intMax / 2) :
    ∃ b out w' st', b.tids = tids.map (fun tid => tid.blkid * 2 ^ 16 + tid.posid) ∧
      b.Holds .legacy 7 tids ∧
      BuildRun sparsemapLibrary g (some w') st' (log ++ [⟨tids, b, out⟩]) ∧
      StoredAs sparsemapLibrary st' b.tids out
        (storageClass (b.multi g) true (sparsemapLibrary.encode b.tids.toFinset).length) ∧
      st.Keeps st' ∧ st'.pages.length ≤ st.pages.length + tids.length + 2 := by
  obtain ⟨clog, hrun, -⟩ := run.inv sparsemapLibrary_oneTidFits
  obtain ⟨placed, hinv⟩ := hrun.inv
  obtain ⟨b, hb, htids⟩ := @postingBuilderOf_ok .legacy tids _ (fun tid _ => packTid_legacy tid)
    hlength 7 0
  have hholds := postingBuilderOf_holds hb
  obtain ⟨out, cw', st', hfinish, hstored, hstep, hkeeps⟩ :=
    @pgTrePostingBuildFinishEx_spec sparsemapLibrary g st (some w) b placed clog
      sparsemapLibrary_oneTidFits (hholds.ne_nil hne) hholds.bounded hinv
  have hpages := length_pgTrePostingBuildFinishEx_le hfinish
  rw [htids, List.length_map] at hpages
  obtain ⟨w', rfl⟩ : ∃ w', cw' = some w' := by
    rcases hstep with ⟨-, heq, -⟩ | ⟨-, w', -, -, -, heq, -⟩
    · exact ⟨w, heq⟩
    · exact ⟨w', heq⟩
  exact ⟨b, out, w', st', htids, hholds, run.build hne hascending hb hfinish, hstored, hkeeps, hpages⟩

/-- The first offsets of a hundred blocks. -/
def coalescedTids : List ItemPointer := (List.range' 0 100).map fun i => pointerAt (i + 1) 1

/-- The hundred coalesced TIDs ascend and are packed as the first hundred first numbers. -/
theorem coalescedTids_spec : coalescedTids.Pairwise ItemPointer.Before ∧
    coalescedTids.map (fun tid => tid.blkid * 2 ^ 16 + tid.posid) =
      (List.range' 0 100).map firstOf := by
  constructor
  · have hsub : coalescedTids.Sublist thirdTids := by
      have hrange : (List.range' 0 100).Sublist (List.range' 0 337) :=
        List.range'_sublist_right.mpr (by decide)
      exact ((hrange.map _).trans (List.sublist_append_left _ _)).trans (List.sublist_append_left _ _)
    exact thirdTids_spec.1.sublist hsub
  · rw [coalescedTids, List.map_map]
    apply List.map_congr_left
    intro i hi
    have hlt : i < 100 := by simpa using hi
    simp only [Function.comp_apply, pointerAt, firstOf]
    omega

/-- The probe finds room for the first offsets of up to 337 blocks. -/
theorem leafFillCount_firstOf {m : ℕ} (hpos : 0 < m) (hle : m ≤ 337) :
    leafFillCount chunkGrowing ((List.range' 0 m).map firstOf) postingLeafBudget = m := by
  have hcreate : chunkGrowing.create postingLeafBudget = (firstSet 0, 8120) := rfl
  have hcap : chunkGrowing.capacity (firstSet 0, 8120) = 8120 := rfl
  have hend : fillWhile chunkGrowing 8120 (firstSet (0 + m), 8120) [] = 0 := rfl
  have hfill := (@fillWhile_firstSet [] 0 m (by omega)).trans (congrArg (m + ·) hend)
  rw [List.append_nil] at hfill
  unfold leafFillCount
  simp only [hcreate, hcap, hfill]
  exact if_pos hpos

/-- Where a posting goes, from what the probe counts and the size of its map. -/
theorem storageClass_of_tids {b : PostingBuilder} {tids : List ℕ} {n sz : ℕ} {c : StorageClass}
    (htids : b.tids = tids) (hne : tids ≠ [])
    (hcount : leafFillCount g tids postingLeafBudget = n)
    (hsz : (lib.encode tids.toFinset).length = sz)
    (hclass : storageClass (decide (n < tids.length)) true sz = c) :
    storageClass (b.multi g) true (lib.encode b.tids.toFinset).length = c := by
  rw [PostingBuilder.multi, htids, decide_eq_true hne, Bool.true_and, hcount, hsz, hclass]

/-- A run of four postings with a writer: one inline, one on a coalesced page, one on a leaf, and one on
a chain of leaves. -/
theorem exists_fourPostings : ∃ (w : CoalescedWriter) (st : PageStore) (log : List RunPosting),
    BuildRun sparsemapLibrary chunkGrowing (some w) st log ∧
    log.map RunPosting.tids = [[pointerAt 1 1], coalescedTids, secondTids, thirdTids] ∧
    List.Forall₂ (fun e storage => StoredAs sparsemapLibrary st e.builder.tids e.out storage) log
      [.inline, .coalesced, .leaf, .leaves] ∧
    (∀ e ∈ log, e.tids.length ≤ 1000 ∧ e.builder.Holds .legacy 7 e.tids) ∧ st.pages.length ≤ 1000 := by
  obtain ⟨hascending, hsecond, hthird⟩ := thirdTids_spec
  obtain ⟨hcoalesced, hfirst⟩ := coalescedTids_spec
  obtain ⟨hsize, hsize', hsize''⟩ := length_encode_lists
  obtain ⟨hcount, hcount'⟩ := leafFillCount_secondList
  obtain ⟨hlen, hlen'⟩ := length_secondList
  have hlength : coalescedTids.length = 100 := by simp [coalescedTids]
  have hlength' : secondTids.length = 338 := by simp [secondTids]
  have hlength'' : thirdTids.length = 339 := by simp [thirdTids, hlength']
  have hnil : ∀ {α : Type} {xs : List α} {n : ℕ}, xs.length = n → 0 < n → xs ≠ [] :=
    fun hxs hn => List.ne_nil_of_length_pos (hxs ▸ hn)
  have hmax : intMax = 2 ^ 31 - 1 := rfl
  have run₀ : BuildRun sparsemapLibrary chunkGrowing (some none) ⟨1, [], []⟩ [] := BuildRun.begin true _
  obtain ⟨b₁, out₁, w₁, st₁, htids₁, hholds₁, run₁, hstored₁, -, hpages₁⟩ :=
    @BuildRun.next _ _ _ [pointerAt 1 1] _ run₀ (List.cons_ne_nil _ _) (List.pairwise_singleton _ _)
      (by rw [List.length_singleton]; omega)
  obtain ⟨b₂, out₂, w₂, st₂, htids₂, hholds₂, run₂, hstored₂, hkeeps₂, hpages₂⟩ :=
    run₁.next (hnil hlength (by decide)) hcoalesced (by omega)
  obtain ⟨b₃, out₃, w₃, st₃, htids₃, hholds₃, run₃, hstored₃, hkeeps₃, hpages₃⟩ :=
    run₂.next (hnil hlength' (by decide)) (hascending.sublist (List.sublist_append_left _ _)) (by omega)
  obtain ⟨b₄, out₄, w₄, st₄, htids₄, hholds₄, run₄, hstored₄, hkeeps₄, hpages₄⟩ :=
    run₃.next (hnil hlength'' (by decide)) hascending (by omega)
  rw [hfirst] at htids₂
  rw [hsecond] at htids₃
  rw [hthird] at htids₄
  have hclass₁ := storageClass_of_tids (c := .inline) htids₁ (List.cons_ne_nil _ _)
    (leafFillCount_firstOf Nat.one_pos (by decide)) rfl
    (if_pos ((length_encode_single _).trans (by decide)))
  have hclass₂ := storageClass_of_tids (c := .coalesced) htids₂
    (hnil (List.length_map _) (by simp)) (leafFillCount_firstOf (by decide) (by decide)) hsize''
    (by rw [List.length_map, List.length_range']; decide)
  have hclass₃ := storageClass_of_tids (c := .leaf) htids₃ (hnil hlen (by decide)) hcount hsize
    (by rw [hlen]; decide)
  have hclass₄ := storageClass_of_tids (c := .leaves) htids₄ (hnil hlen' (by decide)) hcount'
    hsize' (by rw [hlen']; decide)
  rw [hclass₁] at hstored₁
  rw [hclass₂] at hstored₂
  rw [hclass₃] at hstored₃
  rw [hclass₄] at hstored₄
  rw [List.length_singleton] at hpages₁
  have hpages₀ : (PageStore.mk 1 [] []).pages.length = 0 := rfl
  refine ⟨w₄, st₄, _, run₄, rfl, ?_, ?_, by omega⟩
  · exact .cons (((hstored₁.keeps hkeeps₂).keeps hkeeps₃).keeps hkeeps₄)
      (.cons ((hstored₂.keeps hkeeps₃).keeps hkeeps₄) (.cons (hstored₃.keeps hkeeps₄)
        (.cons hstored₄ .nil)))
  · intro e he
    simp only [List.nil_append, List.cons_append, List.mem_cons, List.not_mem_nil, or_false] at he
    rcases he with rfl | rfl | rfl | rfl
    · exact ⟨by simp, hholds₁⟩
    · exact ⟨by simp only [hlength]; omega, hholds₂⟩
    · exact ⟨by simp only [hlength']; omega, hholds₃⟩
    · exact ⟨by simp only [hlength'']; omega, hholds₄⟩

/-- The four postings of such a run are read back. -/
theorem postingBuild_materialize_four : ∃ (w : CoalescedWriter) (st : PageStore)
    (log : List RunPosting), BuildRun sparsemapLibrary chunkGrowing (some w) st log ∧
    log.map RunPosting.tids = [[pointerAt 1 1], coalescedTids, secondTids, thirdTids] ∧
    List.Forall₂ (fun e storage => StoredAs sparsemapLibrary st e.builder.tids e.out storage) log
      [.inline, .coalesced, .leaf, .leaves] ∧
    ∀ e ∈ log, ∃ sm, e.out.materialize sparsemapLibrary (pgTreCoalescedWriterFinish w st) 1000 =
        some (.ok (some sm)) ∧
      sm.image (unpackTid e.builder.packing) = e.tids.toFinset ∧ sm.card = e.tids.length := by
  obtain ⟨w, st, log, run, htids, hstored, hlog, hpages⟩ := exists_fourPostings
  have hlimit : (pgTreCoalescedWriterFinish w st).pages.length ≤ invalidBlockNumber := by
    rw [length_pgTreCoalescedWriterFinish]
    exact hpages.trans (by decide)
  refine ⟨w, st, log, run, htids, hstored, fun e he => ?_⟩
  obtain ⟨hshort, hholds⟩ := hlog e he
  exact (postingBuild_materialize sparsemapLibrary_oneTidFits run hlimit).2 e he
    (hholds.reads (hshort.trans (by decide))) 1000 hshort

/-- The same postings, read from the bytes of the library. -/
theorem postingBuild_sparsemapLibrary_four : ∃ (w : CoalescedWriter) (st : PageStore)
    (log : List RunPosting), BuildRun sparsemapLibrary chunkGrowing (some w) st log ∧
    log.map RunPosting.tids = [[pointerAt 1 1], coalescedTids, secondTids, thirdTids] ∧
    List.Forall₂ (fun e storage => StoredAs sparsemapLibrary st e.builder.tids e.out storage) log
      [.inline, .coalesced, .leaf, .leaves] ∧
    ∀ e ∈ log, ∃ sm, e.out.materialize sparsemapLibrary (pgTreCoalescedWriterFinish w st) 1000 =
        some (.ok (some sm)) ∧
      sm.image (unpackTid e.builder.packing) = e.tids.toFinset ∧ sm.card = e.tids.length := by
  obtain ⟨w, st, log, run, htids, hstored, hlog, hpages⟩ := exists_fourPostings
  have hlimit : (pgTreCoalescedWriterFinish w st).pages.length ≤ invalidBlockNumber := by
    rw [length_pgTreCoalescedWriterFinish]
    exact hpages.trans (by decide)
  exact ⟨w, st, log, run, htids, hstored, fun e he => postingBuild_sparsemapLibrary run
    (fun e he => (hlog e he).1.trans (by decide)) hlimit e he 1000 (hlog e he).1⟩

end

end PgTre
