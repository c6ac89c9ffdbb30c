import Mathlib.Data.Fintype.Fin
import Mathlib.Algebra.Order.BigOperators.Group.Finset
import PgTre.Am.SurfBuild

/-!
# The parallel build

The participants of a parallel build each scan some of the rows. A tuple goes to one sort of the
participant for each range of hashes. When all scans are done the participants claim the ranges one
by one: whoever claims a range merges its sorts, builds the postings and writes what the upper tree
and the SuRF need to a file. The leader reads the files in the order of the ranges.

Whatever rows a participant gets, however many ranges there are and whoever claims them, the leader
reads what `build_postings` makes of one sort of all rows.
-/

namespace PgTre

/-! ## `build_postings` -/

/-- `PostingOut`: the postings with their hashes, and the SuRF keys. A posting is given by the TIDs
that were added to it. -/
structure PostingOut where
  accums : List (UInt64 × List ℕ)
  surfKeys : List ℕ
deriving DecidableEq

/-- The variables of `build_postings`. -/
structure PostingLoop where
  builder : Option (List ℕ)
  curHash : UInt64
  lastTid : ℕ
  out : PostingOut

/-- `finish_posting`, when there is a posting to finish. A posting is never skipped:
`pg_tre.min_trigram_freq` is at most 1. -/
def PostingLoop.finish (s : PostingLoop) : PostingOut :=
  match s.builder with
  | none => s.out
  | some tids => { s.out with accums := s.out.accums ++ [(s.curHash, tids)] }

/-- `posting_out_add_key`. -/
def PostingOut.addKey (out : PostingOut) (key : ℕ) : PostingOut :=
  { out with surfKeys := out.surfKeys ++ [key] }

/-- A tuple with another hash begins a posting. -/
def PostingLoop.begin (s : PostingLoop) (e : BuildEntry) : PostingLoop :=
  if s.builder = none ∨ e.trigramHash ≠ s.curHash then
    { builder := some []
      curHash := e.trigramHash
      lastTid := 2 ^ 64 - 1
      out := s.finish.addKey e.trigramKey }
  else s

/-- A TID that was just added is not added again. -/
def PostingLoop.addTid (s : PostingLoop) (e : BuildEntry) : PostingLoop :=
  if e.packedTid ≠ s.lastTid then
    { s with builder := s.builder.map (· ++ [e.packedTid]), lastTid := e.packedTid }
  else s

/-- One turn of the loop of `build_postings`. -/
def PostingLoop.next (s : PostingLoop) (e : BuildEntry) : PostingLoop :=
  (s.begin e).addTid e

/-- The variables before the loop. -/
def PostingLoop.start : PostingLoop :=
  ⟨none, 0, 2 ^ 64 - 1, ⟨[], []⟩⟩

/-- `build_postings` on the tuples of a sorted stream. -/
def postingStream (stream : List BuildEntry) : PostingOut :=
  (stream.foldl PostingLoop.next .start).finish

/-- The output of the posting phase on the tuples of a sort. -/
def sortedPostings (entries : List BuildEntry) : PostingOut :=
  postingStream (entries.mergeSort BuildEntry.le)

/-! ## The ranges -/

/-- The number of ranges, an `int`. -/
structure RangePlan where
  nranges : ℕ
  two_le : 2 ≤ nranges
  lt_int : nranges < 2 ^ 31

/-- The ranges `pgtre_begin_parallel` plans for so many participants. -/
def RangePlan.forParticipants (scantuplesortstates : ℕ) (hpos : 0 < scantuplesortstates)
    (hmax : scantuplesortstates < 2 ^ 29) : RangePlan where
  nranges := scantuplesortstates * rangesPerParticipant
  two_le := by
    unfold rangesPerParticipant
    omega
  lt_int := by
    unfold rangesPerParticipant
    omega

/-- `range_width`. -/
def RangePlan.rangeWidth (plan : RangePlan) : UInt64 :=
  0xFFFFFFFFFFFFFFFF / UInt64.ofNat plan.nranges + 1

/-- The sort that a tuple with this hash goes to. -/
def RangePlan.route (plan : RangePlan) (h : UInt64) : ℕ :=
  (h / plan.rangeWidth).toNat

/-- The tuples of a participant that go to the sort of a range. -/
def RangePlan.run (plan : RangePlan) (entries : List BuildEntry) (r : ℕ) : List BuildEntry :=
  entries.filter fun e => decide (plan.route e.trigramHash = r)

/-- The range of a hash is its quotient by the range width. -/
theorem RangePlan.route_eq (plan : RangePlan) (h : UInt64) :
    plan.route h = h.toNat / ((2 ^ 64 - 1) / plan.nranges + 1) := by
  have hlo := plan.two_le
  have hhi := plan.lt_int
  have hmod : plan.nranges % 2 ^ 64 = plan.nranges := Nat.mod_eq_of_lt (by omega)
  have hhalf : (2 ^ 64 - 1) / plan.nranges ≤ (2 ^ 64 - 1) / 2 := Nat.div_le_div_left hlo (by omega)
  have hwidth : plan.rangeWidth.toNat = (2 ^ 64 - 1) / plan.nranges + 1 := by
    rw [rangeWidth, UInt64.toNat_add, UInt64.toNat_div, UInt64.toNat_ofNat', hmod]
    exact Nat.mod_eq_of_lt (by
      change (2 ^ 64 - 1) / plan.nranges + 1 < 2 ^ 64
      omega)
  rw [route, UInt64.toNat_div, hwidth]

/-- Every hash goes to a range that exists. -/
theorem RangePlan.route_lt (plan : RangePlan) (h : UInt64) : plan.route h < plan.nranges := by
  have hlo := plan.two_le
  rw [route_eq]
  exact range_lt (by omega) h

/-- The ranges are in the order of the hashes. -/
theorem RangePlan.route_mono (plan : RangePlan) {h h' : UInt64} (hle : h ≤ h') :
    plan.route h ≤ plan.route h' := by
  rw [route_eq, route_eq]
  exact Nat.div_le_div_right (UInt64.le_iff_toNat_le.mp hle)

/-! ## The files -/

/-- What is written to a range's file, one item for each `BufFileWrite` of a count, a posting or a
key. -/
inductive FileItem where
  | count (n : ℕ)
  | accum (hash : UInt64) (tids : List ℕ)
  | key (k : ℕ)
deriving DecidableEq

/-- The file of a range. -/
def writeRange (out : PostingOut) : List FileItem :=
  [.count out.accums.length, .count out.surfKeys.length] ++
    out.accums.map (fun a => .accum a.1 a.2) ++ out.surfKeys.map .key

/-- The next `n` postings of a file are read. -/
def readAccums : ℕ → List FileItem → Option (List (UInt64 × List ℕ) × List FileItem)
  | 0, file => some ([], file)
  | n + 1, .accum hash tids :: file =>
      (readAccums n file).map fun rest => ((hash, tids) :: rest.1, rest.2)
  | _ + 1, _ => none

/-- The next `n` keys of a file are read. -/
def readKeys : ℕ → List FileItem → Option (List ℕ)
  | 0, _ => some []
  | n + 1, .key k :: file => (readKeys n file).map (k :: ·)
  | _ + 1, _ => none

/-- The leader reads a file: what it holds is put after what was read before. A file that is too
short raises an error. -/
def readRange (out : PostingOut) : List FileItem → Option PostingOut
  | .count nAccums :: .count surfN :: file =>
      match readAccums nAccums file with
      | none => none
      | some (accums, file) =>
          (readKeys surfN file).map fun keys => ⟨out.accums ++ accums, out.surfKeys ++ keys⟩
  | _ => none

/-- One output after another. -/
def PostingOut.append (out out' : PostingOut) : PostingOut :=
  ⟨out.accums ++ out'.accums, out.surfKeys ++ out'.surfKeys⟩

/-- Reading back the accumulators written gives them and the rest of the file. -/
theorem readAccums_map (accums : List (UInt64 × List ℕ)) (file : List FileItem) :
    readAccums accums.length (accums.map (fun a => .accum a.1 a.2) ++ file) =
      some (accums, file) := by
  induction accums with
  | nil => rfl
  | cons a accums ih =>
    rw [List.map_cons, List.cons_append, List.length_cons, readAccums, ih]
    rfl

/-- Reading back the keys written gives them. -/
theorem readKeys_map (keys : List ℕ) : readKeys keys.length (keys.map .key) = some keys := by
  induction keys with
  | nil => rfl
  | cons k keys ih =>
    rw [List.map_cons, List.length_cons, readKeys, ih]
    rfl

/-- What was written is read back. -/
theorem readRange_writeRange (out out' : PostingOut) :
    readRange out (writeRange out') = some (out.append out') := by
  simp only [writeRange, List.cons_append, List.nil_append, readRange]
  rw [readAccums_map]
  dsimp only
  rw [readKeys_map]
  rfl

/-! ## Streams one after the other -/

/-- The variables when `out` was there before. -/
def PostingLoop.under (out : PostingOut) (s : PostingLoop) : PostingLoop :=
  { s with out := out.append s.out }

/-- Finishing commutes with output that stands before. -/
theorem PostingLoop.finish_under (out : PostingOut) (s : PostingLoop) :
    (s.under out).finish = out.append s.finish := by
  unfold finish under
  cases s.builder with
  | none => rfl
  | some tids => simp only [PostingOut.append, List.append_assoc]

/-- One entry of the loop commutes with output that stands before. -/
theorem PostingLoop.next_under (out : PostingOut) (s : PostingLoop) (e : BuildEntry) :
    (s.under out).next e = (s.next e).under out := by
  have hbegin : (s.under out).begin e = (s.begin e).under out := by
    unfold PostingLoop.begin
    split
    next hnew =>
      rw [if_pos (show s.builder = none ∨ e.trigramHash ≠ s.curHash from hnew), finish_under]
      simp only [under, PostingOut.addKey, PostingOut.append, List.append_assoc]
    next hsame => rw [if_neg (show ¬(s.builder = none ∨ e.trigramHash ≠ s.curHash) from hsame)]
  unfold next
  rw [hbegin]
  unfold addTid under
  dsimp only
  split <;> rfl

/-- The loop commutes with output that stands before. -/
theorem PostingLoop.foldl_under (out : PostingOut) (s : PostingLoop) (stream : List BuildEntry) :
    stream.foldl next (s.under out) = (stream.foldl next s).under out := by
  induction stream generalizing s with
  | nil => rfl
  | cons e stream ih => rw [List.foldl_cons, List.foldl_cons, next_under, ih]

/-- The current hash is one of the stream. -/
theorem PostingLoop.curHash_mem {stream : List BuildEntry} {s : PostingLoop} {P : UInt64 → Prop}
    (hstart : s.builder ≠ none → P s.curHash) (hstream : ∀ e ∈ stream, P e.trigramHash) :
    (stream.foldl next s).builder ≠ none → P (stream.foldl next s).curHash := by
  induction stream generalizing s with
  | nil => exact hstart
  | cons e stream ih =>
    rw [List.foldl_cons]
    refine ih ?_ (fun e' he' => hstream e' (List.mem_cons_of_mem e he'))
    intro hbuilder
    have he := hstream e List.mem_cons_self
    unfold next addTid PostingLoop.begin at hbuilder ⊢
    split_ifs at hbuilder ⊢ with hnew
    · exact he
    · exact he
    · exact hstart (fun h => hnew (.inl h))
    · exact hstart (fun h => hnew (.inl h))

/-- A stream whose hashes are other ones begins a posting of its own. -/
theorem PostingLoop.next_fresh {s : PostingLoop} {e : BuildEntry}
    (hfresh : s.builder ≠ none → e.trigramHash ≠ s.curHash) :
    s.next e = (PostingLoop.start.next e).under s.finish := by
  have hnew : s.builder = none ∨ e.trigramHash ≠ s.curHash := by
    by_cases h : s.builder = none
    · exact .inl h
    · exact .inr (hfresh h)
  have hbegin : s.begin e = (PostingLoop.start.begin e).under s.finish := by
    unfold PostingLoop.begin
    rw [if_pos hnew, if_pos (.inl rfl)]
    simp only [under, start, finish, PostingOut.addKey, PostingOut.append, List.append_nil,
      List.nil_append]
  unfold next
  rw [hbegin]
  unfold addTid under
  dsimp only
  split <;> rfl

/-- Two streams without a common hash give their postings one after the other. -/
theorem postingStream_append {stream stream' : List BuildEntry}
    (hdisjoint : ∀ e ∈ stream, ∀ e' ∈ stream', e'.trigramHash ≠ e.trigramHash) :
    postingStream (stream ++ stream') = (postingStream stream).append (postingStream stream') := by
  unfold postingStream
  rw [List.foldl_append]
  cases stream' with
  | nil =>
    simp only [List.foldl_nil, PostingLoop.finish, PostingLoop.start, PostingOut.append,
      List.append_nil]
  | cons e stream' =>
    have hfresh := @PostingLoop.curHash_mem stream .start (fun h => e.trigramHash ≠ h)
      (fun h => absurd rfl h) (fun e' he' => hdisjoint e' he' e List.mem_cons_self)
    rw [List.foldl_cons, List.foldl_cons, PostingLoop.next_fresh hfresh,
      PostingLoop.foldl_under, PostingLoop.finish_under]

/-- The outputs of some ranges, one after the other. -/
def appendOuts (outs : List PostingOut) : PostingOut :=
  outs.foldl PostingOut.append ⟨[], []⟩

/-- The empty output is neutral. -/
theorem PostingOut.nil_append (out : PostingOut) : PostingOut.append ⟨[], []⟩ out = out := rfl

/-- One more output is appended at the end. -/
theorem appendOuts_concat (outs : List PostingOut) (out : PostingOut) :
    appendOuts (outs ++ [out]) = (appendOuts outs).append out := by
  rw [appendOuts, List.foldl_append]
  rfl

/-! ## One sort and many -/

/-- The sort order is transitive. -/
theorem BuildEntry.le_trans {a b c : BuildEntry} (hab : a.le b = true) (hbc : b.le c = true) :
    a.le c = true := by
  simp only [BuildEntry.le, decide_eq_true_eq, UInt64.lt_iff_toNat_lt, ← UInt64.toNat_inj]
    at hab hbc ⊢
  omega

/-- The sort order is total. -/
theorem BuildEntry.le_total (a b : BuildEntry) : (a.le b || b.le a) = true := by
  simp only [BuildEntry.le, Bool.or_eq_true, decide_eq_true_eq, UInt64.lt_iff_toNat_lt,
    ← UInt64.toNat_inj]
  omega

/-- The sort order is antisymmetric. -/
theorem BuildEntry.le_antisymm {a b : BuildEntry} (hab : a.le b = true) (hba : b.le a = true) :
    a = b := by
  obtain ⟨h, t, k⟩ := a
  obtain ⟨h', t', k'⟩ := b
  simp only [BuildEntry.le, decide_eq_true_eq, UInt64.lt_iff_toNat_lt, ← UInt64.toNat_inj]
    at hab hba
  rw [BuildEntry.mk.injEq, ← UInt64.toNat_inj]
  omega

/-- The sort order puts the hashes first. -/
theorem BuildEntry.hash_le {a b : BuildEntry} (hab : a.le b = true) :
    a.trigramHash ≤ b.trigramHash := by
  simp only [BuildEntry.le, decide_eq_true_eq, UInt64.lt_iff_toNat_lt, ← UInt64.toNat_inj] at hab
  rw [UInt64.le_iff_toNat_le]
  omega

/-- The sorted entries are in order. -/
theorem pairwise_sorted (entries : List BuildEntry) :
    (entries.mergeSort BuildEntry.le).Pairwise fun e e' => e.le e' = true := by
  apply List.pairwise_mergeSort
  · intro a b c
    exact BuildEntry.le_trans
  · exact BuildEntry.le_total

/-- Sorts of the same tuples give the same stream. -/
theorem mergeSort_perm {entries entries' : List BuildEntry} (hperm : entries.Perm entries') :
    entries.mergeSort BuildEntry.le = entries'.mergeSort BuildEntry.le := by
  refine List.Perm.eq_of_pairwise (fun _ _ _ _ => BuildEntry.le_antisymm) (pairwise_sorted _)
    (pairwise_sorted _) ?_
  exact (List.mergeSort_perm entries _).trans (hperm.trans (List.mergeSort_perm entries' _).symm)

/-- The tuples of the ranges below `n` are those routed there. -/
theorem flatMap_run_perm (plan : RangePlan) (entries : List BuildEntry) (n : ℕ) :
    ((List.range n).flatMap fun r => plan.run entries r).Perm
      (entries.filter fun e => decide (plan.route e.trigramHash < n)) := by
  induction n with
  | zero => simp
  | succ n ih =>
    rw [List.range_succ, List.flatMap_append, List.flatMap_singleton]
    have hsplit := List.filter_append_perm (fun e => decide (plan.route e.trigramHash < n))
      (entries.filter fun e => decide (plan.route e.trigramHash < n + 1))
    rw [List.filter_filter, List.filter_filter] at hsplit
    have hlow : (fun e : BuildEntry => decide (plan.route e.trigramHash < n) &&
        decide (plan.route e.trigramHash < n + 1)) =
        fun e => decide (plan.route e.trigramHash < n) := by
      funext e
      rw [← Bool.decide_and]
      exact decide_eq_decide.mpr (by omega)
    have hlast : (fun e : BuildEntry => !decide (plan.route e.trigramHash < n) &&
        decide (plan.route e.trigramHash < n + 1)) =
        fun e => decide (plan.route e.trigramHash = n) := by
      funext e
      rw [← decide_not, ← Bool.decide_and]
      exact decide_eq_decide.mpr (by omega)
    rw [hlow, hlast] at hsplit
    exact (ih.append_right _).trans hsplit

/-- The sort of all tuples is the sorts of the ranges, one after the other. -/
theorem mergeSort_eq_flatMap (plan : RangePlan) (entries : List BuildEntry) :
    entries.mergeSort BuildEntry.le =
      (List.range plan.nranges).flatMap fun r => (plan.run entries r).mergeSort BuildEntry.le := by
  refine List.Perm.eq_of_pairwise (fun _ _ _ _ => BuildEntry.le_antisymm) (pairwise_sorted _) ?_ ?_
  · rw [List.pairwise_flatMap]
    refine ⟨fun r _ => pairwise_sorted _, ?_⟩
    refine List.pairwise_lt_range.imp ?_
    intro r r' hrr' e he e' he'
    rw [List.mem_mergeSort, RangePlan.run, List.mem_filter, decide_eq_true_eq] at he he'
    rcases Bool.or_eq_true_iff.mp (e.le_total e') with h | h
    · exact h
    · have := plan.route_mono (BuildEntry.hash_le h)
      omega
  · have hall : (entries.filter fun e => decide (plan.route e.trigramHash < plan.nranges)) =
        entries := List.filter_eq_self.mpr fun e _ => decide_eq_true (plan.route_lt _)
    have hruns := flatMap_run_perm plan entries plan.nranges
    rw [hall] at hruns
    refine (List.mergeSort_perm entries _).trans (hruns.symm.trans ?_)
    exact List.Perm.flatMap_left _ fun r _ => (List.mergeSort_perm _ _).symm

/-- The postings of one sort are those of the ranges, one after the other. -/
theorem sortedPostings_eq_appendOuts (plan : RangePlan) (entries : List BuildEntry) :
    sortedPostings entries =
      appendOuts ((List.range plan.nranges).map fun r => sortedPostings (plan.run entries r)) := by
  have hranges : ∀ n, postingStream ((List.range n).flatMap fun r =>
      (plan.run entries r).mergeSort BuildEntry.le) =
      appendOuts ((List.range n).map fun r => sortedPostings (plan.run entries r)) := by
    intro n
    induction n with
    | zero => rfl
    | succ n ih =>
      rw [List.range_succ, List.flatMap_append, List.flatMap_singleton, List.map_append,
        List.map_singleton, appendOuts_concat, ← ih]
      refine postingStream_append ?_
      intro e he e' he' hhash
      obtain ⟨r, hr, he⟩ := List.mem_flatMap.mp he
      rw [List.mem_mergeSort, RangePlan.run, List.mem_filter, decide_eq_true_eq] at he he'
      rw [List.mem_range] at hr
      rw [hhash] at he'
      omega
  rw [sortedPostings, mergeSort_eq_flatMap plan, hranges]

/-! ## The order of the postings -/

/-- The finished postings are in the order of their hashes, before the current one. -/
structure PostingLoop.Ascends (s : PostingLoop) : Prop where
  accums : (s.out.accums.map Prod.fst).Pairwise (· < ·)
  below : ∀ a ∈ s.out.accums, a.1 < s.curHash
  first : s.builder = none → s.out.accums = []

/-- The finished accumulators ascend in their hashes. -/
theorem PostingLoop.Ascends.finish {s : PostingLoop} (hs : s.Ascends) :
    (s.finish.accums.map Prod.fst).Pairwise (· < ·) := by
  unfold PostingLoop.finish
  cases s.builder with
  | none => exact hs.accums
  | some tids =>
    simp only [List.map_append, List.map_cons, List.map_nil]
    refine List.pairwise_append.mpr ⟨hs.accums, List.pairwise_singleton _ _, ?_⟩
    intro h hh h' hh'
    obtain ⟨a, ha, rfl⟩ := List.mem_map.mp hh
    rw [List.mem_singleton.mp hh']
    exact hs.below a ha

/-- An entry in order keeps the accumulators ascending. -/
theorem PostingLoop.Ascends.next {s : PostingLoop} (hs : s.Ascends) {e : BuildEntry}
    (hle : s.builder ≠ none → s.curHash ≤ e.trigramHash) :
    (s.next e).Ascends ∧ (s.next e).builder ≠ none ∧ (s.next e).curHash = e.trigramHash := by
  have hbegin : (s.begin e).Ascends ∧ (s.begin e).builder ≠ none ∧
      (s.begin e).curHash = e.trigramHash := by
    unfold PostingLoop.begin
    split
    next hnew =>
      refine ⟨⟨hs.finish, ?_, nofun⟩, nofun, rfl⟩
      -- What was finished is before the new hash.
      intro a ha
      change a ∈ s.finish.accums at ha
      unfold PostingLoop.finish at ha
      cases hbuilder : s.builder with
      | none =>
        rw [hbuilder] at ha
        rw [hs.first hbuilder] at ha
        cases ha
      | some tids =>
        rw [hbuilder] at ha hnew hle
        have hlt : s.curHash < e.trigramHash := by
          have hne := hnew.resolve_left nofun
          have hle' := hle nofun
          rw [UInt64.le_iff_toNat_le] at hle'
          rw [UInt64.lt_iff_toNat_lt]
          rw [ne_eq, ← UInt64.toNat_inj] at hne
          omega
        rcases List.mem_append.mp ha with ha | ha
        · exact UInt64.lt_trans (hs.below a ha) hlt
        · rw [List.mem_singleton.mp ha]
          exact hlt
    next hsame =>
      push Not at hsame
      exact ⟨hs, hsame.1, hsame.2.symm⟩
  obtain ⟨hasc, hbuilder, hhash⟩ := hbegin
  unfold PostingLoop.next addTid
  split
  · refine ⟨⟨hasc.accums, hasc.below, fun h => ?_⟩, ?_, hhash⟩
    · exact absurd (Option.map_eq_none_iff.mp h) hbuilder
    · exact fun h => hbuilder (Option.map_eq_none_iff.mp h)
  · exact ⟨hasc, hbuilder, hhash⟩

/-- The postings come in the order of their hashes, each hash once. -/
theorem sortedPostings_ascending (entries : List BuildEntry) :
    ((sortedPostings entries).accums.map Prod.fst).Pairwise (· < ·) := by
  have hloop : ∀ (stream : List BuildEntry) (s : PostingLoop), s.Ascends →
      stream.Pairwise (fun e e' => e.trigramHash ≤ e'.trigramHash) →
      (s.builder ≠ none → ∀ e ∈ stream, s.curHash ≤ e.trigramHash) →
      (stream.foldl PostingLoop.next s).Ascends := by
    intro stream
    induction stream with
    | nil => exact fun s hs _ _ => hs
    | cons e stream ih =>
      intro s hs hsorted hle
      obtain ⟨hfirst, hrest⟩ := List.pairwise_cons.mp hsorted
      obtain ⟨hasc, -, hhash⟩ := hs.next (e := e) (fun h => hle h e List.mem_cons_self)
      refine ih _ hasc hrest ?_
      intro _ e' he'
      rw [hhash]
      exact hfirst e' he'
  refine (hloop _ .start ⟨List.Pairwise.nil, nofun, fun _ => rfl⟩ (pairwise_mergeSort_le entries)
    (fun h => absurd rfl h)).finish

/-! ## The tuples of the rows -/

/-- The extraction loop appends the same entries whatever stands before them. -/
theorem exists_loopTuples (tid : ItemPointer) (text ring : List CodePoint) (seen : SeenSet) :
    ∃ tuples, ∀ maxEntriesMb b b', extractLoop maxEntriesMb tid text ring seen b = .ok b' →
      b'.entries = b.entries ++ tuples := by
  induction text generalizing ring seen with
  | nil =>
    refine ⟨[], fun maxEntriesMb b b' h => ?_⟩
    cases h
    rw [List.append_nil]
  | cons cp text ih =>
    simp only [extractLoop]
    generalize (if 3 ≤ ring.length then ring.tail ++ [cp] else ring ++ [cp]) = ring
    split
    next x y z =>
      generalize seen.check (hashTrigramCp (x, y, z)) = checked
      obtain ⟨tuples, htuples⟩ := ih [x, y, z] checked.1
      cases hskip : checked.2 with
      | true => exact ⟨tuples, htuples⟩
      | false =>
        refine ⟨⟨hashTrigramCp (x, y, z), tid.blkid <<< 16 ||| tid.posid,
          trigramKeyCp (x, y, z)⟩ :: tuples, fun maxEntriesMb b b' h => ?_⟩
        rw [if_neg Bool.false_ne_true] at h
        unfold BuildState.emit at h
        split_ifs at h with hguard
        have hrest := htuples maxEntriesMb _ b' h
        rw [hrest, List.append_assoc]
        rfl
    next => exact ih ring seen

/-- A row gives the same tuples whenever it is scanned. -/
theorem exists_rowTuples : ∃ tuples : BuildRow → List BuildEntry, ∀ row maxEntriesMb b b',
    extractTrigrams maxEntriesMb b row = .ok b' → b'.entries = b.entries ++ tuples row := by
  have hrow : ∀ row : BuildRow, ∃ tuples, ∀ maxEntriesMb b b',
      extractTrigrams maxEntriesMb b row = .ok b' → b'.entries = b.entries ++ tuples := by
    intro row
    obtain ⟨tid, value⟩ := row
    cases value with
    | none =>
      refine ⟨[], fun maxEntriesMb b b' h => ?_⟩
      cases h
      rw [List.append_nil]
    | some text => exact exists_loopTuples tid text [] (.init (utf8Length text))
  exact ⟨fun row => (hrow row).choose, fun row => (hrow row).choose_spec⟩

/-- A serial scan appends the entries of each row in turn. -/
theorem scanAndSort_tuples {tuples : BuildRow → List BuildEntry} {maxEntriesMb : ℕ}
    (htuples : ∀ row maxEntriesMb b b', extractTrigrams maxEntriesMb b row = .ok b' →
      b'.entries = b.entries ++ tuples row)
    {rows : List BuildRow} {b : BuildState} (h : scanAndSort maxEntriesMb rows = .ok b) :
    b.entries = rows.flatMap tuples := by
  have hloop : ∀ (rows : List BuildRow) (b₀ : BuildState),
      rows.foldlM (extractTrigrams maxEntriesMb) b₀ = .ok b →
      b.entries = b₀.entries ++ rows.flatMap tuples := by
    intro rows
    induction rows with
    | nil =>
      intro b₀ h
      cases h
      rw [List.flatMap_nil, List.append_nil]
    | cons row rows ih =>
      intro b₀ h
      rw [List.foldlM_cons] at h
      cases hrow : extractTrigrams maxEntriesMb b₀ row with
      | error e =>
        rw [hrow] at h
        cases h
      | ok b₁ =>
        rw [hrow] at h
        rw [ih b₁ h, htuples row maxEntriesMb b₀ b₁ hrow, List.flatMap_cons, List.append_assoc]
  exact hloop rows ⟨0, []⟩ h

/-- However the rows are assigned to participants, these emit the tuples of one scan. -/
theorem mapM_scanAndSort_perm {maxEntriesMb : ℕ} {rows : List BuildRow}
    {shares : List (List BuildRow)} {b : BuildState} {bs : List BuildState}
    (hassign : shares.flatten.Perm rows) (hserial : scanAndSort maxEntriesMb rows = .ok b)
    (hshares : shares.mapM (scanAndSort maxEntriesMb) = .ok bs) :
    (bs.flatMap BuildState.entries).Perm b.entries := by
  obtain ⟨tuples, htuples⟩ := exists_rowTuples
  have hall : ∀ (shares : List (List BuildRow)) (bs : List BuildState),
      shares.mapM (scanAndSort maxEntriesMb) = .ok bs →
      bs.flatMap BuildState.entries = shares.flatten.flatMap tuples := by
    intro shares
    induction shares with
    | nil =>
      intro bs h
      cases h
      rfl
    | cons share shares ih =>
      intro bs h
      rw [List.mapM_cons] at h
      cases hfirst : scanAndSort maxEntriesMb share with
      | error e =>
        rw [hfirst] at h
        cases h
      | ok b₁ =>
        rw [hfirst] at h
        cases hrest : shares.mapM (scanAndSort maxEntriesMb) with
        | error e =>
          rw [hrest] at h
          cases h
        | ok bs₁ =>
          rw [hrest] at h
          cases h
          rw [List.flatMap_cons, List.flatten_cons, List.flatMap_append, ih bs₁ hrest,
            scanAndSort_tuples htuples hfirst]
  rw [hall shares bs hshares, scanAndSort_tuples htuples hserial]
  exact hassign.flatMap_right _

/-! ## The participants -/

/-- Where a participant is. -/
inductive BuildPhase where
  /-- It scans its rows into its sorts. -/
  | scanning
  /-- It has reported its scan and waits for the others. -/
  | waiting
  /-- It is about to claim a range. -/
  | claiming
  | building (r : ℕ)
  /-- The file is written, but not yet counted. -/
  | written
  | finished
deriving DecidableEq

/-- The shared state of a build with `n` participants. -/
structure ParallelState (n : ℕ) where
  phase : Fin n → BuildPhase
  /-- The sorts of a participant, by range. -/
  runs : Fin n → ℕ → List BuildEntry
  /-- 0 until the leader has set it. -/
  nparticipants : ℕ
  nparticipantsdone : ℕ
  nextrange : ℕ
  rangesdone : ℕ
  files : ℕ → Option (List FileItem)
  /-- The ranges whose files were written, in this order. -/
  built : List ℕ
  /-- What the leader has read. -/
  out : Option PostingOut

/-- The leader's merge of the sorts of a range, and the postings built from it. -/
def ParallelState.rangeOut {n : ℕ} (s : ParallelState n) (r : ℕ) : PostingOut :=
  sortedPostings (List.ofFn fun p => s.runs p r).flatten

/-- The leader reads the files in the order of the ranges. -/
def readRanges (files : ℕ → Option (List FileItem)) (nranges : ℕ) : Option PostingOut :=
  (List.range nranges).foldlM (fun out r => (files r).bind (readRange out)) ⟨[], []⟩

section

variable {n : ℕ} (plan : RangePlan) (emitted : Fin n → List BuildEntry) (leader : Fin n)

/-- A step of a participant. -/
inductive ParallelStep : ParallelState n → ParallelState n → Prop
  /-- `pgtre_begin_parallel` says how many participants there are. -/
  | set_nparticipants (s : ParallelState n) (hunset : s.nparticipants = 0) :
      ParallelStep s { s with nparticipants := n }
  /-- `pgtre_finish_range_sorts`. -/
  | finish_scan (s : ParallelState n) (p : Fin n) (hphase : s.phase p = .scanning) :
      ParallelStep s { s with
        phase := Function.update s.phase p .waiting
        runs := Function.update s.runs p (plan.run (emitted p))
        nparticipantsdone := s.nparticipantsdone + 1 }
  /-- The wait at the head of `pgtre_build_ranges` is over. -/
  | all_scanned (s : ParallelState n) (p : Fin n) (hphase : s.phase p = .waiting)
      (hset : 0 < s.nparticipants) (hdone : s.nparticipantsdone = s.nparticipants) :
      ParallelStep s { s with phase := Function.update s.phase p .claiming }
  | claim (s : ParallelState n) (p : Fin n) (hphase : s.phase p = .claiming)
      (hrange : s.nextrange < plan.nranges) :
      ParallelStep s { s with
        phase := Function.update s.phase p (.building s.nextrange)
        nextrange := s.nextrange + 1 }
  /-- No range is left. -/
  | leave (s : ParallelState n) (p : Fin n) (hphase : s.phase p = .claiming)
      (hrange : plan.nranges ≤ s.nextrange) :
      ParallelStep s { s with
        phase := Function.update s.phase p .finished
        nextrange := s.nextrange + 1 }
  | write_file (s : ParallelState n) (p : Fin n) (r : ℕ) (hphase : s.phase p = .building r) :
      ParallelStep s { s with
        phase := Function.update s.phase p .written
        files := Function.update s.files r (some (writeRange (s.rangeOut r)))
        built := s.built ++ [r] }
  | report (s : ParallelState n) (p : Fin n) (hphase : s.phase p = .written) :
      ParallelStep s { s with
        phase := Function.update s.phase p .claiming
        rangesdone := s.rangesdone + 1 }
  /-- The end of `pgtre_parallel_postings`. -/
  | read_files (s : ParallelState n) (out : PostingOut) (hphase : s.phase leader = .finished)
      (hdone : s.rangesdone = plan.nranges) (hunread : s.out = none)
      (hread : readRanges s.files plan.nranges = some out) :
      ParallelStep s { s with out := some out }

/-- The state at the launch of the workers. -/
def ParallelState.launched (n : ℕ) : ParallelState n where
  phase := fun _ => .scanning
  runs := fun _ _ => []
  nparticipants := 0
  nparticipantsdone := 0
  nextrange := 0
  rangesdone := 0
  files := fun _ => none
  built := []
  out := none

/-- The states of a parallel build. -/
def ParallelReachable (s : ParallelState n) : Prop :=
  Relation.ReflTransGen (ParallelStep plan emitted leader) (.launched n) s

end

/-! ## Counting participants -/

/-- The participants' phases, weighed and summed up. -/
def phaseSum {n : ℕ} (weight : BuildPhase → ℕ) (phase : Fin n → BuildPhase) : ℕ :=
  ∑ p, weight (phase p)

/-- Changing one participant's phase changes the sum by that phase's weight. -/
theorem phaseSum_update {n : ℕ} (weight : BuildPhase → ℕ) (phase : Fin n → BuildPhase) (p : Fin n)
    (x : BuildPhase) :
    phaseSum weight (Function.update phase p x) + weight (phase p) =
      phaseSum weight phase + weight x := by
  unfold phaseSum
  rw [← Finset.add_sum_erase _ _ (Finset.mem_univ p),
    ← Finset.add_sum_erase _ (fun q => weight (phase q)) (Finset.mem_univ p), Function.update_self]
  have hrest : ∑ q ∈ Finset.univ.erase p, weight (Function.update phase p x q) =
      ∑ q ∈ Finset.univ.erase p, weight (phase q) := by
    refine Finset.sum_congr rfl fun q hq => ?_
    rw [Function.update_of_ne (Finset.ne_of_mem_erase hq)]
  rw [hrest]
  omega

/-- 1 for a participant whose scan is done. -/
def BuildPhase.scanned : BuildPhase → ℕ
  | .scanning => 0
  | _ => 1

/-- 1 for a participant with a file that is not counted. -/
def BuildPhase.uncounted : BuildPhase → ℕ
  | .written => 1
  | _ => 0

/-- At most every participant has scanned. -/
theorem phaseSum_scanned_le {n : ℕ} (phase : Fin n → BuildPhase) :
    phaseSum BuildPhase.scanned phase ≤ n := by
  have hle : phaseSum BuildPhase.scanned phase ≤ ∑ _p : Fin n, 1 := by
    refine Finset.sum_le_sum fun p _ => ?_
    cases phase p <;> simp only [BuildPhase.scanned, le_refl, zero_le]
  simpa using hle

/-- When all have scanned, none is scanning. -/
theorem ne_scanning_of_phaseSum {n : ℕ} {phase : Fin n → BuildPhase}
    (hall : phaseSum BuildPhase.scanned phase = n) (p : Fin n) : phase p ≠ .scanning := by
  intro hscan
  have hupdate := phaseSum_update BuildPhase.scanned phase p .waiting
  have hle := phaseSum_scanned_le (Function.update phase p .waiting)
  rw [hscan] at hupdate
  simp only [BuildPhase.scanned] at hupdate
  omega

/-! ## What holds in every state -/

section

variable {n : ℕ} (plan : RangePlan) (emitted : Fin n → List BuildEntry) (leader : Fin n)

/-- The output of a range, from the tuples of all participants. -/
def rangeResult (r : ℕ) : PostingOut :=
  sortedPostings (plan.run (List.ofFn emitted).flatten r)

/-- What holds in every state of a build. -/
structure ParallelState.Sound (s : ParallelState n) : Prop where
  nparticipants : s.nparticipants = 0 ∨ s.nparticipants = n
  scanned : s.nparticipantsdone = phaseSum BuildPhase.scanned s.phase
  /-- A participant works on the ranges only when all scans are done. -/
  barrier : ∀ p, s.phase p ≠ .scanning → s.phase p ≠ .waiting → ∀ q, s.phase q ≠ .scanning
  runs : ∀ p, s.phase p ≠ .scanning → s.runs p = plan.run (emitted p)
  /-- The ranges that were claimed are built or being built. -/
  claimed : ∀ r, (r ∈ s.built ∨ ∃ p, s.phase p = .building r) ↔
    r < plan.nranges ∧ r < s.nextrange
  one_builder : ∀ p q r, s.phase p = .building r → s.phase q = .building r → p = q
  not_built : ∀ p r, s.phase p = .building r → r ∉ s.built
  nodup : s.built.Nodup
  files : ∀ r ∈ s.built, s.files r = some (writeRange (rangeResult plan emitted r))
  counted : s.rangesdone + phaseSum BuildPhase.uncounted s.phase = s.built.length
  finished : ∀ p, s.phase p = .finished → plan.nranges ≤ s.nextrange
  out : ∀ out, s.out = some out → s.built.Perm (List.range plan.nranges) ∧
    out = appendOuts ((List.range plan.nranges).map (rangeResult plan emitted))

variable {plan emitted leader} {s s' : ParallelState n}

/-- The launched state is sound. -/
theorem ParallelState.Sound.launched : (ParallelState.launched n).Sound plan emitted where
  nparticipants := .inl rfl
  scanned := by
    have hzero : phaseSum BuildPhase.scanned (ParallelState.launched n).phase = 0 :=
      Finset.sum_eq_zero fun p _ => rfl
    rw [hzero]
    rfl
  barrier := fun p hp => absurd rfl hp
  runs := fun p hp => absurd rfl hp
  claimed := by
    intro r
    simp [ParallelState.launched]
  one_builder := nofun
  not_built := nofun
  nodup := List.nodup_nil
  files := nofun
  counted := by
    have hzero : phaseSum BuildPhase.uncounted (ParallelState.launched n).phase = 0 :=
      Finset.sum_eq_zero fun p _ => rfl
    rw [hzero]
    rfl
  finished := nofun
  out := nofun

/-- A participant builds a range from the tuples of all. -/
theorem ParallelState.Sound.rangeOut (hs : s.Sound plan emitted) {p : Fin n} {r : ℕ}
    (hphase : s.phase p = .building r) : s.rangeOut r = rangeResult plan emitted r := by
  have hscanned := hs.barrier p (by rw [hphase]; nofun) (by rw [hphase]; nofun)
  have hruns : (fun q => s.runs q r) = fun q => plan.run (emitted q) r := by
    funext q
    rw [hs.runs q (hscanned q)]
  rw [ParallelState.rangeOut, rangeResult, hruns]
  unfold RangePlan.run
  rw [List.filter_flatten, List.map_ofFn]
  rfl

/-- When the last file is counted, every range has been built. -/
theorem ParallelState.Sound.built_perm (hs : s.Sound plan emitted)
    (hdone : plan.nranges ≤ s.built.length) : s.built.Perm (List.range plan.nranges) := by
  have hsub : s.built ⊆ List.range plan.nranges := by
    intro r hr
    exact List.mem_range.mpr ((hs.claimed r).mp (.inl hr)).1
  exact (hs.nodup.subperm hsub).perm_of_length_le (by rw [List.length_range]; exact hdone)

/-- The leader's reading of files that all exist. -/
theorem readRanges_eq {files : ℕ → Option (List FileItem)} {result : ℕ → PostingOut} {m : ℕ}
    (hfiles : ∀ r < m, files r = some (writeRange (result r))) :
    readRanges files m = some (appendOuts ((List.range m).map result)) := by
  induction m with
  | zero => rfl
  | succ m ih =>
    have hrest := ih fun r hr => hfiles r (by omega)
    unfold readRanges at hrest ⊢
    rw [List.range_succ, List.foldlM_append, hrest, List.map_append, List.map_singleton,
      appendOuts_concat]
    simp only [Option.bind_eq_bind, Option.bind_some, List.foldlM_cons, List.foldlM_nil,
      hfiles m (by omega), readRange_writeRange]
    rfl

/-- Once every range is built, reading the files gives the results range by range. -/
theorem ParallelState.Sound.readRanges (hs : s.Sound plan emitted)
    (hbuilt : s.built.Perm (List.range plan.nranges)) :
    PgTre.readRanges s.files plan.nranges =
      some (appendOuts ((List.range plan.nranges).map (rangeResult plan emitted))) :=
  readRanges_eq fun r hr => hs.files r (hbuilt.mem_iff.mpr (List.mem_range.mpr hr))

/-- A phase other than the new one was there before. -/
theorem of_update_eq {phase : Fin n → BuildPhase} {p q : Fin n} {x y : BuildPhase}
    (h : Function.update phase p x q = y) (hx : x ≠ y) : phase q = y := by
  by_cases hq : q = p
  · rw [hq, Function.update_self] at h
    exact absurd h hx
  · rwa [Function.update_of_ne hq] at h

/-- A step between phases that build nothing leaves the builders alone. -/
theorem update_building_iff {phase : Fin n → BuildPhase} {p : Fin n} {x : BuildPhase}
    (hbefore : ∀ r, phase p ≠ .building r) (hafter : ∀ r, x ≠ .building r) (q : Fin n) (r : ℕ) :
    Function.update phase p x q = .building r ↔ phase q = .building r := by
  by_cases hq : q = p
  · rw [hq, Function.update_self]
    exact iff_of_false (hafter r) (hbefore r)
  · rw [Function.update_of_ne hq]

/-- A participant goes on to a phase that builds nothing, and the counters go along. -/
theorem ParallelState.Sound.move (hs : s.Sound plan emitted) {p : Fin n} {x : BuildPhase}
    {nextrange rangesdone : ℕ} (hbefore : ∀ r, s.phase p ≠ .building r)
    (hafter : ∀ r, x ≠ .building r) (hscanned : s.phase p ≠ .scanning) (hx : x ≠ .scanning)
    (hbarrier : x ≠ .waiting → ∀ q, s.phase q ≠ .scanning)
    (hnext : ∀ r < plan.nranges, r < nextrange ↔ r < s.nextrange)
    (hfinished : x = .finished → plan.nranges ≤ s.nextrange) (hgrow : s.nextrange ≤ nextrange)
    (hcounted : rangesdone + x.uncounted = s.rangesdone + (s.phase p).uncounted) :
    ({ s with
        phase := Function.update s.phase p x
        nextrange := nextrange
        rangesdone := rangesdone } : ParallelState n).Sound plan emitted where
  nparticipants := hs.nparticipants
  scanned := by
    have hupdate := phaseSum_update BuildPhase.scanned s.phase p x
    have hone : ∀ y : BuildPhase, y ≠ .scanning → y.scanned = 1 := by
      intro y hy
      cases y <;> first | rfl | exact absurd rfl hy
    rw [hone _ hscanned, hone _ hx] at hupdate
    have := hs.scanned
    dsimp only
    omega
  barrier := by
    intro q hq hq' q'
    have hbefore' : s.phase q' ≠ .scanning := by
      by_cases hqp : q = p
      · dsimp only at hq'
        rw [hqp, Function.update_self] at hq'
        exact hbarrier hq' q'
      · dsimp only at hq hq'
        rw [Function.update_of_ne hqp] at hq hq'
        exact hs.barrier q hq hq' q'
    exact fun h => hbefore' (of_update_eq h hx)
  runs := by
    intro q hq
    by_cases hqp : q = p
    · rw [hqp]
      exact hs.runs p hscanned
    · dsimp only at hq
      rw [Function.update_of_ne hqp] at hq
      exact hs.runs q hq
  claimed := by
    intro r
    simp only [update_building_iff hbefore hafter]
    rw [hs.claimed r]
    exact and_congr_right fun hr => (hnext r hr).symm
  one_builder := by
    simp only [update_building_iff hbefore hafter]
    exact hs.one_builder
  not_built := by
    simp only [update_building_iff hbefore hafter]
    exact hs.not_built
  nodup := hs.nodup
  files := hs.files
  counted := by
    have hupdate := phaseSum_update BuildPhase.uncounted s.phase p x
    have := hs.counted
    dsimp only
    omega
  finished := by
    intro q hq
    refine le_trans ?_ hgrow
    by_cases hqp : q = p
    · dsimp only at hq
      rw [hqp, Function.update_self] at hq
      exact hfinished hq
    · dsimp only at hq
      rw [Function.update_of_ne hqp] at hq
      exact hs.finished q hq
  out := hs.out

/-- Finishing a scan keeps the state sound. -/
theorem ParallelState.Sound.finish_scan (hs : s.Sound plan emitted) {p : Fin n}
    (hphase : s.phase p = .scanning) :
    ({ s with
        phase := Function.update s.phase p .waiting
        runs := Function.update s.runs p (plan.run (emitted p))
        nparticipantsdone := s.nparticipantsdone + 1 } : ParallelState n).Sound plan emitted := by
  have hbefore : ∀ r, s.phase p ≠ .building r := by
    intro r
    rw [hphase]
    nofun
  have hafter : ∀ r, BuildPhase.waiting ≠ .building r := nofun
  refine { hs with
    scanned := ?_, barrier := ?_, runs := ?_, claimed := ?_, one_builder := ?_, not_built := ?_,
    counted := ?_, finished := ?_ }
  · have hupdate := phaseSum_update BuildPhase.scanned s.phase p .waiting
    rw [hphase] at hupdate
    have := hs.scanned
    simp only [BuildPhase.scanned] at hupdate
    dsimp only
    omega
  · -- No participant is past the barrier while `p` scans.
    intro q hq hq'
    by_cases hqp : q = p
    · dsimp only at hq'
      rw [hqp, Function.update_self] at hq'
      exact absurd rfl hq'
    · dsimp only at hq hq'
      rw [Function.update_of_ne hqp] at hq hq'
      exact absurd hphase (hs.barrier q hq hq' p)
  · intro q hq
    by_cases hqp : q = p
    · rw [hqp]
      exact Function.update_self ..
    · dsimp only at hq ⊢
      rw [Function.update_of_ne hqp] at hq ⊢
      exact hs.runs q hq
  · intro r
    simp only [update_building_iff hbefore hafter]
    exact hs.claimed r
  · simp only [update_building_iff hbefore hafter]
    exact hs.one_builder
  · simp only [update_building_iff hbefore hafter]
    exact hs.not_built
  · have hupdate := phaseSum_update BuildPhase.uncounted s.phase p .waiting
    rw [hphase] at hupdate
    have := hs.counted
    simp only [BuildPhase.uncounted] at hupdate
    dsimp only
    omega
  · intro q hq
    exact hs.finished q (of_update_eq hq nofun)

/-- Claiming a range keeps the state sound. -/
theorem ParallelState.Sound.claim (hs : s.Sound plan emitted) {p : Fin n}
    (hphase : s.phase p = .claiming) (hrange : s.nextrange < plan.nranges) :
    ({ s with
        phase := Function.update s.phase p (.building s.nextrange)
        nextrange := s.nextrange + 1 } : ParallelState n).Sound plan emitted := by
  have hscanned : s.phase p ≠ .scanning := by
    rw [hphase]
    nofun
  have hfresh : s.nextrange ∉ s.built := by
    intro hmem
    exact absurd ((hs.claimed _).mp (.inl hmem)).2 (lt_irrefl _)
  have hother : ∀ q, s.phase q ≠ .building s.nextrange := by
    intro q hq
    exact absurd ((hs.claimed _).mp (.inr ⟨q, hq⟩)).2 (lt_irrefl _)
  have hbuilding : ∀ q r, Function.update s.phase p (.building s.nextrange) q = .building r ↔
      q = p ∧ r = s.nextrange ∨ s.phase q = .building r := by
    intro q r
    by_cases hqp : q = p
    · rw [hqp, Function.update_self, hphase]
      simp [eq_comm]
    · rw [Function.update_of_ne hqp]
      simp [hqp]
  refine { hs with
    scanned := ?_, barrier := ?_, runs := ?_, claimed := ?_, one_builder := ?_, not_built := ?_,
    counted := ?_, finished := ?_ }
  · have hupdate := phaseSum_update BuildPhase.scanned s.phase p (.building s.nextrange)
    rw [hphase] at hupdate
    have := hs.scanned
    simp only [BuildPhase.scanned] at hupdate
    dsimp only
    omega
  · intro _ _ _ q h
    exact hs.barrier p hscanned (by rw [hphase]; nofun) q (of_update_eq h nofun)
  · intro q hq
    refine hs.runs q ?_
    exact hs.barrier p hscanned (by rw [hphase]; nofun) q
  · intro r
    have hold := hs.claimed r
    simp only [hbuilding]
    constructor
    · rintro (hr | ⟨q, ⟨-, rfl⟩ | hq⟩)
      · have := hold.mp (.inl hr)
        omega
      · omega
      · have := hold.mp (.inr ⟨q, hq⟩)
        omega
    · rintro ⟨hr, hlt⟩
      by_cases hlast : r = s.nextrange
      · exact .inr ⟨p, .inl ⟨rfl, hlast⟩⟩
      · rcases hold.mpr ⟨hr, by omega⟩ with h | ⟨q, hq⟩
        · exact .inl h
        · exact .inr ⟨q, .inr hq⟩
  · intro q q' r hq hq'
    rw [hbuilding] at hq hq'
    rcases hq with ⟨rfl, rfl⟩ | hq <;> rcases hq' with ⟨rfl, hr⟩ | hq'
    · rfl
    · exact absurd hq' (hother q')
    · rw [hr] at hq
      exact absurd hq (hother q)
    · exact hs.one_builder q q' r hq hq'
  · intro q r hq
    rw [hbuilding] at hq
    rcases hq with ⟨-, rfl⟩ | hq
    · exact hfresh
    · exact hs.not_built q r hq
  · have hupdate := phaseSum_update BuildPhase.uncounted s.phase p (.building s.nextrange)
    rw [hphase] at hupdate
    have := hs.counted
    simp only [BuildPhase.uncounted] at hupdate
    dsimp only
    omega
  · intro q hq
    have := hs.finished q (of_update_eq hq nofun)
    dsimp only
    omega

/-- Writing a range's file keeps the state sound. -/
theorem ParallelState.Sound.write_file (hs : s.Sound plan emitted) {p : Fin n} {r : ℕ}
    (hphase : s.phase p = .building r) :
    ({ s with
        phase := Function.update s.phase p .written
        files := Function.update s.files r (some (writeRange (s.rangeOut r)))
        built := s.built ++ [r] } : ParallelState n).Sound plan emitted := by
  have hscanned : s.phase p ≠ .scanning := by
    rw [hphase]
    rintro ⟨⟩
  have hwaited : s.phase p ≠ .waiting := by
    rw [hphase]
    rintro ⟨⟩
  have hbarrier := hs.barrier p hscanned hwaited
  have hfresh := hs.not_built p r hphase
  have hbuilding : ∀ q r', Function.update s.phase p .written q = .building r' ↔
      q ≠ p ∧ s.phase q = .building r' := by
    intro q r'
    by_cases hqp : q = p
    · rw [hqp, Function.update_self]
      simp
    · rw [Function.update_of_ne hqp]
      simp [hqp]
  refine { hs with
    scanned := ?_, barrier := ?_, runs := ?_, claimed := ?_, one_builder := ?_, not_built := ?_,
    nodup := ?_, files := ?_, counted := ?_, finished := ?_, out := ?_ }
  · have hupdate := phaseSum_update BuildPhase.scanned s.phase p .written
    rw [hphase] at hupdate
    have := hs.scanned
    simp only [BuildPhase.scanned] at hupdate
    dsimp only
    omega
  · intro _ _ _ q h
    exact hbarrier q (of_update_eq h (by rintro ⟨⟩))
  · intro q hq
    exact hs.runs q (hbarrier q)
  · intro r'
    rw [← hs.claimed r']
    simp only [hbuilding, List.mem_append, List.mem_singleton]
    constructor
    · rintro ((h | rfl) | ⟨q, -, hq⟩)
      · exact .inl h
      · exact .inr ⟨p, hphase⟩
      · exact .inr ⟨q, hq⟩
    · rintro (h | ⟨q, hq⟩)
      · exact .inl (.inl h)
      · by_cases hqp : q = p
        · rw [hqp, hphase, BuildPhase.building.injEq] at hq
          exact .inl (.inr hq.symm)
        · exact .inr ⟨q, hqp, hq⟩
  · intro q q' r' hq hq'
    rw [hbuilding] at hq hq'
    exact hs.one_builder q q' r' hq.2 hq'.2
  · intro q r' hq
    rw [hbuilding] at hq
    rw [List.mem_append, List.mem_singleton]
    rintro (h | rfl)
    · exact hs.not_built q r' hq.2 h
    · exact hq.1 (hs.one_builder q p r' hq.2 hphase)
  · exact List.nodup_append.mpr ⟨hs.nodup, List.nodup_singleton r, by
      intro a ha b hb hab
      rw [List.mem_singleton.mp hb] at hab
      exact hfresh (hab ▸ ha)⟩
  · intro r' hr'
    dsimp only
    by_cases hrr : r' = r
    · rw [hrr, Function.update_self, hs.rangeOut hphase]
    · rw [Function.update_of_ne hrr]
      refine hs.files r' ?_
      rw [List.mem_append, List.mem_singleton] at hr'
      exact hr'.resolve_right hrr
  · have hupdate := phaseSum_update BuildPhase.uncounted s.phase p .written
    rw [hphase] at hupdate
    have := hs.counted
    simp only [BuildPhase.uncounted] at hupdate
    simp only [List.length_append, List.length_singleton]
    omega
  · intro q hq
    exact hs.finished q (of_update_eq hq (by rintro ⟨⟩))
  · -- The leader has read nothing yet: `r` was not among the ranges it would have read.
    intro out hout
    have hrange := ((hs.claimed r).mp (.inr ⟨p, hphase⟩)).1
    exact absurd ((hs.out out hout).1.mem_iff.mpr (List.mem_range.mpr hrange)) hfresh

/-- One step keeps what holds. -/
theorem ParallelState.Sound.step (hs : s.Sound plan emitted)
    (hstep : ParallelStep plan emitted leader s s') : s'.Sound plan emitted := by
  cases hstep with
  | set_nparticipants hunset => exact { hs with nparticipants := .inr rfl }
  | finish_scan p hphase => exact hs.finish_scan hphase
  | all_scanned p hphase hset hdone =>
    have hn : s.nparticipants = n := hs.nparticipants.resolve_left (by omega)
    have hall := ne_scanning_of_phaseSum (hs.scanned.symm.trans (hdone.trans hn))
    exact hs.move (by rw [hphase]; nofun) nofun (by rw [hphase]; nofun) nofun (fun _ => hall)
      (fun _ _ => Iff.rfl) nofun le_rfl (by rw [hphase]; rfl)
  | claim p hphase hrange => exact hs.claim hphase hrange
  | leave p hphase hrange =>
    have hall := hs.barrier p (by rw [hphase]; nofun) (by rw [hphase]; nofun)
    exact hs.move (by rw [hphase]; nofun) nofun (by rw [hphase]; nofun) nofun (fun _ => hall)
      (fun r hr => by omega) (fun _ => hrange) (by omega) (by rw [hphase]; rfl)
  | write_file p r hphase => exact hs.write_file hphase
  | report p hphase =>
    have hall := hs.barrier p (by rw [hphase]; nofun) (by rw [hphase]; nofun)
    exact hs.move (by rw [hphase]; nofun) nofun (by rw [hphase]; nofun) nofun (fun _ => hall)
      (fun _ _ => Iff.rfl) nofun le_rfl (by rw [hphase]; rfl)
  | read_files out hphase hdone hunread hread =>
    have hcounted := hs.counted
    have hbuilt := hs.built_perm (by omega)
    refine { hs with out := ?_ }
    intro out' hout
    cases hout
    rw [hs.readRanges hbuilt, Option.some.injEq] at hread
    exact ⟨hbuilt, hread.symm⟩

/-- Every reachable state is sound. -/
theorem ParallelReachable.sound (hreach : ParallelReachable plan emitted leader s) :
    s.Sound plan emitted := by
  induction hreach with
  | refl => exact .launched
  | tail _ hstep ih => exact ih.step hstep

/-! ## The build ends -/

/-- What is left to do for a participant. -/
def BuildPhase.left : BuildPhase → ℕ
  | .scanning => 3
  | .waiting => 2
  | .claiming => 1
  | .building _ => 3
  | .written => 2
  | .finished => 0

/-- What is left to do. -/
def ParallelState.left (plan : RangePlan) (s : ParallelState n) : ℕ :=
  phaseSum BuildPhase.left s.phase + 3 * (plan.nranges - s.nextrange) +
    (if s.nparticipants = 0 then 1 else 0) + (if s.out = none then 1 else 0)

/-- Every step lowers what is left to do. -/
theorem ParallelStep.left_lt (hn : 0 < n) (hstep : ParallelStep plan emitted leader s s') :
    s'.left plan < s.left plan := by
  unfold ParallelState.left
  cases hstep with
  | set_nparticipants hunset =>
    dsimp only
    rw [if_neg (show ¬n = 0 by omega), if_pos hunset]
    omega
  | finish_scan p hphase | all_scanned p hphase | report p hphase | write_file p r hphase =>
    have hupdate := fun x => phaseSum_update BuildPhase.left s.phase p x
    simp only [hphase] at hupdate
    dsimp only
    first
      | have h := hupdate .waiting; simp only [BuildPhase.left] at h; omega
      | have h := hupdate .claiming; simp only [BuildPhase.left] at h; omega
      | have h := hupdate .written; simp only [BuildPhase.left] at h; omega
  | claim p hphase hrange =>
    have h := phaseSum_update BuildPhase.left s.phase p (.building s.nextrange)
    rw [hphase] at h
    simp only [BuildPhase.left] at h
    dsimp only
    omega
  | leave p hphase hrange =>
    have h := phaseSum_update BuildPhase.left s.phase p .finished
    rw [hphase] at h
    simp only [BuildPhase.left] at h
    dsimp only
    omega
  | read_files out hphase hdone hunread hread =>
    dsimp only
    rw [if_neg (by nofun : ¬(some out = none)), if_pos hunread]
    omega

/-- As long as the leader has read nothing, someone can go on. -/
theorem ParallelState.Sound.progress (hs : s.Sound plan emitted) (hout : s.out = none) :
    ∃ s', ParallelStep plan emitted leader s s' := by
  rcases hs.nparticipants with hunset | hset
  · exact ⟨_, .set_nparticipants s hunset⟩
  by_cases hscan : ∃ p, s.phase p = .scanning
  · obtain ⟨p, hp⟩ := hscan
    exact ⟨_, .finish_scan s p hp⟩
  push Not at hscan
  have hdone : s.nparticipantsdone = s.nparticipants := by
    have hone : phaseSum BuildPhase.scanned s.phase = ∑ _p : Fin n, 1 := by
      refine Finset.sum_congr rfl fun p _ => ?_
      have := hscan p
      cases hp : s.phase p <;> first | rfl | exact absurd hp this
    rw [hs.scanned, hone, hset]
    simp
  by_cases hbusy : ∃ p, s.phase p ≠ .finished
  · obtain ⟨p, hp⟩ := hbusy
    cases hphase : s.phase p with
    | scanning => exact absurd hphase (hscan p)
    | waiting =>
      have hpos : 0 < n := Fin.pos p
      exact ⟨_, .all_scanned s p hphase (by omega) hdone⟩
    | claiming =>
      by_cases hrange : s.nextrange < plan.nranges
      · exact ⟨_, .claim s p hphase hrange⟩
      · exact ⟨_, .leave s p hphase (by omega)⟩
    | building r => exact ⟨_, .write_file s p r hphase⟩
    | written => exact ⟨_, .report s p hphase⟩
    | finished => exact absurd hphase hp
  push Not at hbusy
  -- All participants have left: every range was claimed, built and counted.
  have hnext := hs.finished leader (hbusy leader)
  have hall : List.range plan.nranges ⊆ s.built := by
    intro r hr
    have hr' := List.mem_range.mp hr
    rcases (hs.claimed r).mpr ⟨hr', by omega⟩ with h | ⟨p, hp⟩
    · exact h
    · rw [hbusy p] at hp
      cases hp
  have hlength := (List.nodup_range.subperm hall).length_le
  have hbuilt := hs.built_perm (by simpa using hlength)
  have hzero : phaseSum BuildPhase.uncounted s.phase = 0 := by
    refine Finset.sum_eq_zero fun p _ => ?_
    rw [hbusy p]
    rfl
  have hcounted := hs.counted
  rw [hzero, hbuilt.length_eq, List.length_range] at hcounted
  exact ⟨_, .read_files s _ (hbusy leader) (by omega) hout (hs.readRanges hbuilt)⟩

end

/-- The tuples of each participant. -/
def emittedBy (bs : List BuildState) (p : Fin bs.length) : List BuildEntry :=
  (bs.get p).entries

/-- A parallel build gives what the serial build gives, for every assignment of the rows, every
number of ranges and every order of the participants' steps. The hashes go to ranges that exist,
every range is built once and read once, and the build ends. -/
theorem parallel_build_eq_serial (plan : RangePlan) {maxEntriesMb : ℕ} {rows : List BuildRow}
    {shares : List (List BuildRow)} {b : BuildState} {bs : List BuildState}
    (hassign : shares.flatten.Perm rows) (hserial : scanAndSort maxEntriesMb rows = .ok b)
    (hshares : shares.mapM (scanAndSort maxEntriesMb) = .ok bs) (leader : Fin bs.length) :
    (∀ h, plan.route h < plan.nranges) ∧
    ((sortedPostings b.entries).accums.map Prod.fst).Pairwise (· < ·) ∧
    (∀ s, ParallelReachable plan (emittedBy bs) leader s →
      (∀ out, s.out = some out →
        out = sortedPostings b.entries ∧ s.built.Perm (List.range plan.nranges)) ∧
      (s.out = none → ∃ s', ParallelStep plan (emittedBy bs) leader s s')) ∧
    ¬∃ run : ℕ → ParallelState bs.length,
      ∀ i, ParallelStep plan (emittedBy bs) leader (run i) (run (i + 1)) := by
  have hresult : appendOuts ((List.range plan.nranges).map (rangeResult plan (emittedBy bs))) =
      sortedPostings b.entries := by
    have hflatten : (List.ofFn (emittedBy bs)).flatten = bs.flatMap BuildState.entries := by
      have hmap : List.ofFn (emittedBy bs) = bs.map BuildState.entries := by
        unfold emittedBy
        simp only [List.get_eq_getElem]
        exact List.ofFn_getElem_eq_map bs BuildState.entries
      rw [hmap, List.flatMap_def]
    unfold rangeResult
    rw [hflatten, ← sortedPostings_eq_appendOuts, sortedPostings, sortedPostings,
      mergeSort_perm (mapM_scanAndSort_perm hassign hserial hshares)]
  refine ⟨plan.route_lt, sortedPostings_ascending b.entries, ?_, ?_⟩
  · intro s hreach
    have hs := hreach.sound
    refine ⟨fun out hout => ?_, hs.progress⟩
    obtain ⟨hbuilt, hread⟩ := hs.out out hout
    exact ⟨hread.trans hresult, hbuilt⟩
  · rintro ⟨run, hrun⟩
    -- Each step leaves less to do.
    have hless : ∀ i, (run i).left plan + i ≤ (run 0).left plan := by
      intro i
      induction i with
      | zero => omega
      | succ i ih =>
        have := (hrun i).left_lt (Fin.pos leader)
        omega
    have := hless ((run 0).left plan + 1)
    omega

/-- The rows `abc` and `bcd`, scanned by one process and by two that each take one of them. -/
theorem parallel_build_abcd :
    ∃ b bs, ∃ leader : Fin (List.length bs), ∃ plan : RangePlan,
      scanAndSort 0 (twoRows [97, 98, 99] [98, 99, 100]).rows = .ok b ∧
      (∀ s, ParallelReachable plan (emittedBy bs) leader s → ∀ out, s.out = some out →
        out = sortedPostings b.entries) ∧
      ¬∃ run : ℕ → ParallelState bs.length,
        ∀ i, ParallelStep plan (emittedBy bs) leader (run i) (run (i + 1)) := by
  let first : BuildRow := ⟨⟨0, 1, by decide, by decide⟩, some [97, 98, 99]⟩
  let second : BuildRow := ⟨⟨0, 2, by decide, by decide⟩, some [98, 99, 100]⟩
  obtain ⟨b, hb⟩ : ∃ b, scanAndSort 0 [first, second] = .ok b := ⟨_, rfl⟩
  obtain ⟨b₁, hb₁⟩ : ∃ b, scanAndSort 0 [second] = .ok b := ⟨_, rfl⟩
  obtain ⟨b₂, hb₂⟩ : ∃ b, scanAndSort 0 [first] = .ok b := ⟨_, rfl⟩
  have hshares : [[second], [first]].mapM (scanAndSort 0) = .ok [b₁, b₂] := by
    rw [List.mapM_cons, List.mapM_cons, List.mapM_nil, hb₁, hb₂]
    rfl
  have hassign : [[second], [first]].flatten.Perm [first, second] := List.Perm.swap first second []
  obtain ⟨-, -, hout, hends⟩ := parallel_build_eq_serial
    (.forParticipants 2 (by omega) (by omega)) hassign hb hshares ⟨0, Nat.zero_lt_succ 1⟩
  exact ⟨b, [b₁, b₂], ⟨0, Nat.zero_lt_succ 1⟩, _, hb,
    fun s hs out h => ((hout s hs).1 out h).1, hends⟩

end PgTre
