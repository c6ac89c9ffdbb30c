import PgTre.Sparsemap.Small
import PgTre.Sparsemap.Intersection
import PgTre.Sparsemap.Lookup
import PgTre.Util.Sparsemap

/-!
# Sets of numbers in either form

What the index does with sparsemaps, on maps in either form, is what it does with finite sets: it adds
numbers one at a time and in bulk, takes unions and intersections, looks numbers up, lists and counts
them. A small map is put into chunks where the library reads chunks.
-/

namespace PgTre.Sparsemap

/-! ## Operations -/

/-- The numbers of a map. -/
def SparseMap.members : SparseMap → Finset ℕ
  | .small ws => (smallBits ws).toFinset
  | .chunked cs => Sparsemap.members cs

/-- `__sm_materialize`: the bits of a small map are added to a new one, which is put into chunks. -/
def materialize (ws : List ℕ) : List Chunk :=
  match (smallBits ws).foldl add (.chunked []) with
  | .small ws => promote ws
  | .chunked cs => cs

/-- `__sm_chunk_view`. -/
def chunkView : SparseMap → List Chunk
  | .small ws => materialize ws
  | .chunked cs => cs

/-- `sm_union`. The result is put into its smaller form, but a copy of one of the maps is not. -/
def unionOf (a b : SparseMap) : Option SparseMap :=
  let va := chunkView a
  let vb := chunkView b
  (unionChunks va vb).map fun cs => if va = [] ∨ vb = [] then .chunked cs else tryDemote cs

/-- `sm_intersection`. The result is put into its smaller form. -/
def intersectionOf (a b : SparseMap) : Option SparseMap :=
  (intersectChunks (chunkView a) (chunkView b)).map tryDemote

/-- `sm_rank`. -/
def rankOf (m : SparseMap) (lo hi : ℕ) : ℕ := rank (chunkView m) lo hi

/-- `sm_cardinality`, without the count that it keeps. -/
def cardinalityOf : SparseMap → ℕ
  | .small ws => (ws.map popcount).sum
  | .chunked cs => cardinality cs

/-- The loop of `sm_next_member` over the vectors of a small map. -/
def nextVector (w : ℕ) : List ℕ → Option ℕ
  | [] => none
  | v :: vs => if v ≠ 0 then some (w * 64 + ctz v) else nextVector (w + 1) vs

/-- `sm_next_member` on a small map. -/
def smallNext (ws : List ℕ) (prev : Option ℕ) : Option ℕ :=
  let start := match prev with
    | none => 0
    | some p => p + 1
  match ws.drop (start / 64) with
  | [] => none
  | v :: vs => nextVector (start / 64) ((v &&& shl onesVector (start % 64)) :: vs)

/-- `sm_next_member`. A small map does not move the cursor. -/
def nextOf (m : SparseMap) (prev : Option ℕ) (cur : Option (List Chunk)) :
    Option ℕ × Option (List Chunk) :=
  match m with
  | .small ws => (smallNext ws prev, cur)
  | .chunked cs => nextMember cs prev cur

/-- What makes a map grow. -/
inductive Command where
  | add (idx : ℕ)
  | addMany (arr : List ℕ)

/-- The map after a command. -/
def Command.run (m : SparseMap) : Command → SparseMap
  | .add idx => Sparsemap.add m idx
  | .addMany arr => Sparsemap.addMany m arr

/-- The numbers that a command adds. -/
def Command.numbers : Command → Finset ℕ
  | .add idx => {idx}
  | .addMany arr => arr.toFinset

/-! ## Growing -/

section

variable {m a b : SparseMap} {ws vs : List ℕ} {n w : ℕ} {P : ℕ → Prop}

/-- The members of a map are the numbers it has. -/
theorem mem_membersOf : n ∈ m.members ↔ m.Has n := by
  cases m with
  | small ws => rw [SparseMap.members, List.mem_toFinset, mem_smallBits, SparseMap.Has]
  | chunked cs => rw [SparseMap.members, mem_members, SparseMap.Has]

/-- One command adds its numbers. -/
theorem Command.run_spec {c : Command} (h : m.Ok) (hroom : ∀ n ∈ c.numbers, n + 2048 < 2 ^ 64)
    (hshort : Short fun n => n ∈ c.numbers ∪ m.members) :
    (c.run m).Ok ∧ (c.run m).members = c.numbers ∪ m.members := by
  cases c with
  | add idx =>
    have hiff : ∀ n, n ∈ {idx} ∪ m.members ↔ m.Has n ∨ n = idx := fun n => by
      rw [Finset.mem_union, Finset.mem_singleton, mem_membersOf, or_comm]
    obtain ⟨hok, hhas⟩ := add_spec h (hroom idx (Finset.mem_singleton_self idx))
      (hshort.congr fun n => (hiff n).symm)
    exact ⟨hok, Finset.ext fun n => mem_membersOf.trans ((hhas n).trans (hiff n).symm)⟩
  | addMany arr =>
    have hiff : ∀ n, n ∈ arr.toFinset ∪ m.members ↔ m.Has n ∨ n ∈ arr := fun n => by
      rw [Finset.mem_union, List.mem_toFinset, mem_membersOf, or_comm]
    obtain ⟨hok, hhas⟩ := addMany_spec h (fun n hn => hroom n (List.mem_toFinset.mpr hn))
      (hshort.congr fun n => (hiff n).symm)
    exact ⟨hok, Finset.ext fun n => mem_membersOf.trans ((hhas n).trans (hiff n).symm)⟩

/-- Any number of commands adds their numbers, and the map is in one of its forms after each of them, if
no run gets more numbers than a run-length chunk has room for. -/
theorem commands_spec {cmds : List Command} (h : m.Ok)
    (hroom : ∀ c ∈ cmds, ∀ n ∈ c.numbers, n + 2048 < 2 ^ 64)
    (hshort : Short fun n => n ∈ cmds.foldl (fun s c => c.numbers ∪ s) m.members) :
    (cmds.foldl Command.run m).Ok ∧
      (cmds.foldl Command.run m).members = cmds.foldl (fun s c => c.numbers ∪ s) m.members := by
  induction cmds generalizing m with
  | nil => exact ⟨h, rfl⟩
  | cons c cmds ih =>
    rw [List.foldl_cons] at hshort
    rw [List.foldl_cons, List.foldl_cons]
    have hgrows : ∀ (cmds : List Command) (s : Finset ℕ), ∀ n ∈ s,
        n ∈ cmds.foldl (fun s c => c.numbers ∪ s) s := by
      intro cmds
      induction cmds with
      | nil => exact fun s n hn => hn
      | cons c cmds ih => exact fun s n hn => ih _ n (Finset.mem_union_right _ hn)
    obtain ⟨hok, hmembers⟩ := Command.run_spec h (hroom c List.mem_cons_self)
      (hshort.mono fun n hn => hgrows cmds _ n hn)
    rw [← hmembers] at hshort ⊢
    exact ih hok (fun d hd => hroom d (List.mem_cons_of_mem _ hd)) hshort

/-- A map grown over two forms keeps the members of its commands. -/
theorem commands_small : ([Command.add 5, .add 3000, .addMany [70, 5, 9000]].foldl Command.run
      (.chunked [])).Ok ∧
    ([Command.add 5, .add 3000, .addMany [70, 5, 9000]].foldl Command.run (.chunked [])).members =
      [Command.add 5, .add 3000, .addMany [70, 5, 9000]].foldl (fun s c => c.numbers ∪ s) ∅ := by
  refine commands_spec laid_nil ?_ (short_of_lt fun n hn => ?_)
  · have hall : ∀ c ∈ [Command.add 5, .add 3000, .addMany [70, 5, 9000]],
        ∀ n ∈ c.numbers, n < 10000 := by
      decide
    intro c hc n hn
    have hlt := hall c hc n hn
    omega
  · have hall : ∀ n ∈ [Command.add 5, .add 3000, .addMany [70, 5, 9000]].foldl
        (fun s c => c.numbers ∪ s) ∅, n < 10000 := by decide
    exact (hall n hn).trans (by decide)

/-- Numbers that are added one after the other. -/
theorem foldl_add_spec {ns : List ℕ} (h : m.Ok) (hroom : ∀ n ∈ ns, n + 2048 < 2 ^ 64)
    (hshort : Short fun n => m.Has n ∨ n ∈ ns) :
    (ns.foldl add m).Ok ∧ ∀ n, (ns.foldl add m).Has n ↔ m.Has n ∨ n ∈ ns := by
  induction ns generalizing m with
  | nil => exact ⟨h, fun n => (or_iff_left List.not_mem_nil).symm⟩
  | cons i ns ih =>
    have hcons : ∀ n, m.Has n ∨ n ∈ i :: ns ↔ (m.Has n ∨ n = i) ∨ n ∈ ns := fun n => by
      rw [List.mem_cons, or_assoc]
    obtain ⟨hok, hhas⟩ := add_spec h (hroom i List.mem_cons_self)
      (hshort.mono fun n hn => (hcons n).mpr (Or.inl hn))
    have hiff : ∀ n, (add m i).Has n ∨ n ∈ ns ↔ m.Has n ∨ n ∈ i :: ns := fun n =>
      (or_congr_left (hhas n)).trans (hcons n).symm
    obtain ⟨hok', hhas'⟩ := ih hok (fun n hn => hroom n (List.mem_cons_of_mem _ hn)) (hshort.congr hiff)
    exact ⟨hok', fun n => (hhas' n).trans (hiff n)⟩

/-- Adding an array in bulk gives the set that adding its numbers one after the other gives. -/
theorem members_addMany {arr : List ℕ} (h : m.Ok) (hroom : ∀ n ∈ arr, n + 2048 < 2 ^ 64)
    (hshort : Short fun n => n ∈ m.members ∪ arr.toFinset) :
    (addMany m arr).members = (arr.foldl add m).members := by
  have hiff : ∀ n, m.Has n ∨ n ∈ arr ↔ n ∈ m.members ∪ arr.toFinset := fun n => by
    rw [Finset.mem_union, mem_membersOf, List.mem_toFinset]
  obtain ⟨-, hmany⟩ := addMany_spec h hroom (hshort.congr hiff)
  obtain ⟨-, hfold⟩ := foldl_add_spec h hroom (hshort.congr hiff)
  ext n
  rw [mem_membersOf, mem_membersOf, hmany, hfold]

/-- Adding many numbers at once is adding them one by one, repeats included. -/
theorem members_addMany_runMap : (addMany (.chunked runMap) [9000, 5, 5000, 9000]).members =
    ([9000, 5, 5000, 9000].foldl add (.chunked runMap)).members := by
  have hall : ∀ n ∈ [9000, 5, 5000, 9000], n < 10000 := by decide
  refine members_addMany (show SparseMap.Ok (.chunked runMap) from laid_runMap) (fun n hn => ?_)
    (short_of_lt fun n hn => ?_)
  · have hlt := hall n hn
    omega
  · rcases Finset.mem_union.mp hn with hn | hn
    · obtain ⟨c, hc, hhas⟩ := mem_membersOf.mp hn
      rw [List.mem_singleton.mp hc] at hhas
      exact (show n < 4096 from hhas.2.1).trans (by decide)
    · exact (hall n (List.mem_toFinset.mp hn)).trans (by decide)

/-! ## Chunks -/

/-- A small map in chunks has its numbers. -/
theorem materialize_spec (h : SmallOk ws) :
    Laid (materialize ws) ∧ ∀ n, Sparsemap.Has (materialize ws) n ↔ SmallHas ws n := by
  have hlt : ∀ n, SparseMap.Has (.chunked []) n ∨ n ∈ smallBits ws → n < 1024 := fun n hn =>
    (mem_smallBits.mp (hn.resolve_left (not_has_nil n))).lt h
  obtain ⟨hok, hhas⟩ := @foldl_add_spec (.chunked []) (smallBits ws) laid_nil
    (fun n hn => by have := hlt n (Or.inr hn); omega)
    (short_of_lt fun n hn => (hlt n hn).trans (by decide))
  have hiff : ∀ n, SparseMap.Has ((smallBits ws).foldl add (.chunked [])) n ↔ SmallHas ws n := fun n =>
    (hhas n).trans ((or_iff_right (not_has_nil n)).trans mem_smallBits)
  unfold materialize
  generalize (smallBits ws).foldl add (.chunked []) = m at hok hiff ⊢
  cases m with
  | small ws' =>
    obtain ⟨hlaid, hhas'⟩ := promote_spec hok
    exact ⟨hlaid, fun n => (hhas' n).trans (hiff n)⟩
  | chunked cs => exact ⟨hok, hiff⟩

/-- The chunks of a map have its numbers. -/
theorem chunkView_spec (h : m.Ok) :
    Laid (chunkView m) ∧ Sparsemap.members (chunkView m) = m.members := by
  cases m with
  | small ws =>
    obtain ⟨hlaid, hhas⟩ := materialize_spec h
    refine ⟨hlaid, Finset.ext fun n => ?_⟩
    rw [mem_membersOf, mem_members]
    exact hhas n
  | chunked cs => exact ⟨h, rfl⟩

/-- The smaller form of a map has its numbers. -/
theorem members_tryDemote {cs : List Chunk} (h : Laid cs) :
    (tryDemote cs).members = Sparsemap.members cs := by
  ext n
  rw [mem_membersOf, mem_members]
  exact (tryDemote_spec h).2 n

/-- The numbers 5 and 70, in a small map. -/
def smallMap : SparseMap := .small [32, 64]

/-- The small map is well formed. -/
theorem ok_smallMap : smallMap.Ok := ⟨by decide, by decide, by decide⟩

/-- The map with a run is well formed. -/
theorem ok_runMap : (SparseMap.chunked runMap).Ok := laid_runMap

/-- Numbers in two chunks. -/
def twoChunks : SparseMap := [5, 3000, 70, 3001].foldl add (.chunked [])

/-- The map of two chunks has its four numbers. -/
theorem twoChunks_spec : twoChunks.Ok ∧ ∀ n, twoChunks.Has n ↔ n ∈ [5, 3000, 70, 3001] := by
  have hall : ∀ n ∈ [5, 3000, 70, 3001], n < 10000 := by decide
  have hiff : ∀ n, SparseMap.Has (.chunked []) n ∨ n ∈ [5, 3000, 70, 3001] ↔ n ∈ [5, 3000, 70, 3001] :=
    fun n => or_iff_right (not_has_nil n)
  obtain ⟨hok, hhas⟩ := @foldl_add_spec (.chunked []) [5, 3000, 70, 3001] laid_nil
    (fun n hn => by have := hall n hn; omega)
    (short_of_lt fun n hn => (hall n ((hiff n).mp hn)).trans (by decide))
  exact ⟨hok, fun n => (hhas n).trans (hiff n)⟩

/-- The map of two chunks is well formed. -/
theorem ok_twoChunks : twoChunks.Ok := twoChunks_spec.1

/-- The members of the map of two chunks. -/
theorem members_twoChunks : twoChunks.members = {5, 3000, 70, 3001} := by
  ext n
  rw [mem_membersOf, twoChunks_spec.2]
  simp

/-- `sm_union` is the union of sets, and the result is a map. -/
theorem unionOf_spec (ha : a.Ok) (hb : b.Ok) :
    (unionOf a b).map SparseMap.members = smUnion a.members b.members ∧ ∀ m ∈ unionOf a b, m.Ok := by
  obtain ⟨hlaida, hmema⟩ := chunkView_spec ha
  obtain ⟨hlaidb, hmemb⟩ := chunkView_spec hb
  obtain ⟨hmap, hlaid⟩ := unionChunks_spec hlaida hlaidb
  rw [hmema, hmemb] at hmap
  unfold unionOf
  dsimp only
  split_ifs
  · -- one of the maps is copied
    rw [Option.map_map]
    refine ⟨hmap, fun m hm => ?_⟩
    obtain ⟨cs, hcs, rfl⟩ := Option.mem_map.mp hm
    exact hlaid cs hcs
  · rw [Option.map_map]
    refine ⟨hmap ▸ Option.map_congr fun cs hcs => members_tryDemote (hlaid cs hcs), fun m hm => ?_⟩
    obtain ⟨cs, hcs, rfl⟩ := Option.mem_map.mp hm
    exact (tryDemote_spec (hlaid cs hcs)).1

/-- Unions of small maps and of chunked ones. -/
theorem unionOf_smallMap :
    ((unionOf smallMap (.small [128])).map SparseMap.members =
        smUnion smallMap.members (SparseMap.small [128]).members ∧
      ∀ m ∈ unionOf smallMap (.small [128]), m.Ok) ∧
    ((unionOf twoChunks (.chunked runMap)).map SparseMap.members =
        smUnion twoChunks.members (SparseMap.chunked runMap).members ∧
      ∀ m ∈ unionOf twoChunks (.chunked runMap), m.Ok) :=
  ⟨unionOf_spec ok_smallMap ⟨by decide, by decide, by decide⟩, unionOf_spec ok_twoChunks ok_runMap⟩

/-- The union of two small maps is put into small form again. -/
example : unionOf smallMap (.small [128]) = some (.small [160, 64]) := by rfl

/-- `sm_intersection` is the intersection of sets, and the result is a map. -/
theorem intersectionOf_spec (ha : a.Ok) (hb : b.Ok) :
    (intersectionOf a b).map SparseMap.members = smIntersection a.members b.members ∧
      ∀ m ∈ intersectionOf a b, m.Ok := by
  obtain ⟨hlaida, hmema⟩ := chunkView_spec ha
  obtain ⟨hlaidb, hmemb⟩ := chunkView_spec hb
  obtain ⟨hmap, hlaid⟩ := intersectChunks_spec hlaida hlaidb
  rw [hmema, hmemb] at hmap
  unfold intersectionOf
  rw [Option.map_map]
  refine ⟨hmap ▸ Option.map_congr fun cs hcs => members_tryDemote (hlaid cs hcs), fun m hm => ?_⟩
  obtain ⟨cs, hcs, rfl⟩ := Option.mem_map.mp hm
  exact (tryDemote_spec (hlaid cs hcs)).1

/-- Intersections of small maps and of chunked ones. -/
theorem intersectionOf_smallMap :
    ((intersectionOf smallMap (.chunked runMap)).map SparseMap.members =
        smIntersection smallMap.members (SparseMap.chunked runMap).members ∧
      ∀ m ∈ intersectionOf smallMap (.chunked runMap), m.Ok) ∧
    ((intersectionOf twoChunks (.chunked runMap)).map SparseMap.members =
        smIntersection twoChunks.members (SparseMap.chunked runMap).members ∧
      ∀ m ∈ intersectionOf twoChunks (.chunked runMap), m.Ok) :=
  ⟨intersectionOf_spec ok_smallMap ok_runMap, intersectionOf_spec ok_twoChunks ok_runMap⟩

/-! ## Reading -/

/-- `sm_contains` is membership. -/
theorem containsIn_iff (h : m.Ok) : containsIn m n = true ↔ n ∈ m.members := by
  cases m with
  | small ws =>
    rw [mem_membersOf]
    exact smallContains_iff
  | chunked cs => exact contains_iff_mem_members h

/-- A lookup in the second chunk. -/
theorem containsIn_twoChunks : containsIn twoChunks 3000 = true ↔ 3000 ∈ twoChunks.members :=
  containsIn_iff ok_twoChunks

/-- `sm_rank` counts the numbers between two others. -/
theorem rankOf_eq (h : m.Ok) (lo hi : ℕ) :
    rankOf m lo hi = (m.members.filter fun n => lo ≤ n ∧ n ≤ hi).card := by
  obtain ⟨hlaid, hmembers⟩ := chunkView_spec h
  rw [rankOf, (rank_cardinality_spec hlaid).1, hmembers]

/-- A word lists as many numbers as it has bits. -/
theorem length_setBitsOf (base w : ℕ) : (setBitsOf base w).length = popcount w := by
  rw [setBitsOf, List.length_map, popcount, Nat.count, List.countP_eq_length_filter]
  simp

/-- The bits of a small map are found in order. -/
theorem smallBits_sorted (ws : List ℕ) : (smallBits ws).Pairwise (· < ·) := by
  have hword : ∀ base w, (setBitsOf base w).Pairwise (· < ·) := by
    intro base w
    refine List.pairwise_map.mpr (List.Pairwise.imp (fun hlt => ?_)
      (List.pairwise_lt_range.filter _))
    exact Nat.add_lt_add_left hlt base
  have hbounds : ∀ base w, ∀ n ∈ setBitsOf base w, base ≤ n ∧ n < base + 64 := by
    intro base w n hn
    obtain ⟨b, hb, rfl⟩ := List.mem_map.mp hn
    have hlt := List.mem_range.mp (List.mem_filter.mp hb).1
    omega
  refine List.pairwise_flatMap.mpr ⟨fun i _ => hword _ _, ?_⟩
  refine List.Pairwise.imp (fun hlt p hp q hq => ?_) List.pairwise_lt_range
  have hp' := hbounds _ _ p hp
  have hq' := hbounds _ _ q hq
  omega

/-- A small map lists as many numbers as its words have bits. -/
theorem length_smallBits (ws : List ℕ) : (smallBits ws).length = (ws.map popcount).sum := by
  have hmap : (List.range ws.length).map (fun i => ws.getD i 0) = ws := by
    refine List.ext_getElem (by simp) fun i _ hi => ?_
    simp [hi]
  have hlengths : (List.range ws.length).map (fun i => (setBitsOf (i * 64) (ws.getD i 0)).length) =
      ws.map popcount := by
    conv_rhs => rw [← hmap]
    rw [List.map_map]
    exact List.map_congr_left fun i _ => length_setBitsOf _ _
  rw [smallBits, List.length_flatMap, hlengths]

/-- `sm_cardinality` counts all numbers. -/
theorem cardinalityOf_eq (h : m.Ok) : cardinalityOf m = m.members.card := by
  cases m with
  | small ws =>
    have hnodup : (smallBits ws).Nodup := (smallBits_sorted ws).imp fun hlt => Nat.ne_of_lt hlt
    rw [SparseMap.members, List.toFinset_card_of_nodup hnodup, length_smallBits]
    rfl
  | chunked cs => exact (rank_cardinality_spec h).2

/-- `sm_rank` counts the numbers of a map between two others, and `sm_cardinality` counts all. -/
theorem rankOf_cardinalityOf (h : m.Ok) :
    (∀ lo hi, rankOf m lo hi = (m.members.filter fun n => lo ≤ n ∧ n ≤ hi).card) ∧
      cardinalityOf m = m.members.card :=
  ⟨rankOf_eq h, cardinalityOf_eq h⟩

/-- Ranks and the cardinality of a map of two chunks. -/
theorem rankOf_cardinalityOf_twoChunks :
    (∀ lo hi, rankOf twoChunks lo hi = (twoChunks.members.filter fun n => lo ≤ n ∧ n ≤ hi).card) ∧
      cardinalityOf twoChunks = twoChunks.members.card :=
  rankOf_cardinalityOf ok_twoChunks

/-- The least number of some vectors. -/
theorem nextVector_isNext (hvs : ∀ v ∈ vs, v < 2 ^ 64) {prev : Option ℕ}
    (hafter : ∀ n, w * 64 ≤ n → (vs.getD (n / 64 - w) 0).testBit (n % 64) = true → After prev n) :
    IsNext (fun n => w * 64 ≤ n ∧ (vs.getD (n / 64 - w) 0).testBit (n % 64) = true) prev
      (nextVector w vs) := by
  induction vs generalizing w with
  | nil =>
    rintro n ⟨-, hbit⟩
    rw [List.getD_nil, Nat.zero_testBit] at hbit
    cases hbit
  | cons v vs ih =>
    have hrest : ∀ n, (w + 1) * 64 ≤ n → (v :: vs).getD (n / 64 - w) 0 =
        vs.getD (n / 64 - (w + 1)) 0 := by
      intro n hn
      have hsucc : n / 64 - w = n / 64 - (w + 1) + 1 := by omega
      rw [hsucc, List.getD_cons_succ]
    rw [nextVector]
    by_cases hne : v ≠ 0
    · rw [if_pos hne]
      obtain ⟨hlt, hbit, hleast⟩ := ctz_spec hne (hvs v List.mem_cons_self)
      have hdiv : (w * 64 + ctz v) / 64 - w = 0 := by omega
      have hmod : (w * 64 + ctz v) % 64 = ctz v := by omega
      have hin : ((v :: vs).getD ((w * 64 + ctz v) / 64 - w) 0).testBit
          ((w * 64 + ctz v) % 64) = true := by
        rw [hdiv, hmod]
        exact hbit
      refine ⟨⟨Nat.le_add_right _ _, hin⟩, hafter _ (Nat.le_add_right _ _) hin, ?_⟩
      rintro n ⟨hle, hn⟩ -
      by_cases hword : n / 64 - w = 0
      · rw [hword, List.getD_cons_zero] at hn
        have hle' := hleast _ hn
        omega
      · omega
    · rw [if_neg hne]
      have hstep : ∀ n, ((w + 1) * 64 ≤ n ∧ (vs.getD (n / 64 - (w + 1)) 0).testBit (n % 64) = true) ↔
          w * 64 ≤ n ∧ ((v :: vs).getD (n / 64 - w) 0).testBit (n % 64) = true := by
        intro n
        by_cases hfar : (w + 1) * 64 ≤ n
        · rw [hrest n hfar]
          exact and_congr_left fun _ => by omega
        · refine iff_of_false (fun hn => hfar hn.1) ?_
          rintro ⟨hle, hn⟩
          have hword : n / 64 - w = 0 := by omega
          rw [hword, List.getD_cons_zero, not_not.mp hne, Nat.zero_testBit] at hn
          cases hn
      exact (ih (fun u hu => hvs u (List.mem_cons_of_mem _ hu)) fun n hn hbit =>
        hafter n ((hstep n).mp ⟨hn, hbit⟩).1 ((hstep n).mp ⟨hn, hbit⟩).2).congr hstep

/-- The next number of a small map. -/
theorem smallNext_isNext (h : SmallOk ws) (prev : Option ℕ) :
    IsNext (SmallHas ws) prev (smallNext ws prev) := by
  obtain ⟨start, hstart, hafter⟩ : ∃ start, (match prev with
      | none => 0
      | some p => p + 1) = start ∧ ∀ n, After prev n ↔ start ≤ n := by
    cases prev with
    | none => exact ⟨0, rfl, fun n => iff_of_true after_none (Nat.zero_le n)⟩
    | some p => exact ⟨p + 1, rfl, fun n => after_some⟩
  have hdrop : ∀ i, (ws.drop (start / 64)).getD i 0 = ws.getD (start / 64 + i) 0 := fun i => by
    rw [List.getD_eq_getElem?_getD, List.getElem?_drop, ← List.getD_eq_getElem?_getD]
  have hmem : ∀ v ∈ ws.drop (start / 64), v < 2 ^ 64 := fun v hv =>
    h.words_lt v (List.mem_of_mem_drop hv)
  unfold smallNext
  dsimp only
  rw [hstart]
  cases hvs : ws.drop (start / 64) with
  | nil =>
    intro n hn hle
    have hlen := List.drop_eq_nil_iff.mp hvs
    have hlt := hn.lt_length
    have hle' := (hafter n).mp hle
    omega
  | cons v vs =>
    rw [hvs] at hdrop hmem
    have hiff : ∀ n, (start / 64 * 64 ≤ n ∧ (((v &&& shl onesVector (start % 64)) :: vs).getD
        (n / 64 - start / 64) 0).testBit (n % 64) = true) ↔ SmallHas ws n ∧ start ≤ n := by
      intro n
      by_cases hle : start / 64 ≤ n / 64
      · have hword := hdrop (n / 64 - start / 64)
        rw [Nat.add_sub_cancel' hle] at hword
        rw [SmallHas, ← hword]
        by_cases hfirst : n / 64 - start / 64 = 0
        · have hlt : n % 64 < 64 := Nat.mod_lt _ (by decide)
          rw [hfirst, List.getD_cons_zero, List.getD_cons_zero, Nat.testBit_and, testBit_shl _ _ hlt,
            testBit_onesVector, Bool.and_eq_true, Bool.and_eq_true, decide_eq_true_eq,
            decide_eq_true_eq]
          have hbound : (start % 64 ≤ n % 64 ∧ n % 64 - start % 64 < 64) ↔ start ≤ n := by omega
          rw [hbound]
          exact and_iff_right (by omega)
        · obtain ⟨i, hi⟩ := Nat.exists_eq_succ_of_ne_zero hfirst
          rw [hi, List.getD_cons_succ, List.getD_cons_succ, and_comm]
          exact and_congr_right fun _ => by omega
      · exact iff_of_false (fun hn => hle (by omega)) fun hn => hle (by omega)
    have hnext := @nextVector_isNext ((v &&& shl onesVector (start % 64)) :: vs) (start / 64) ?_ prev
      fun n hle hbit => (hafter n).mpr ((hiff n).mp ⟨hle, hbit⟩).2
    · refine (hnext.skip (Q := fun n => SmallHas ws n ∧ ¬start ≤ n) fun n hn hle => ?_).congr
        fun n => ?_
      · exact hn.2 ((hafter n).mp hle)
      · rw [hiff]
        tauto
    · intro u hu
      rcases List.mem_cons.mp hu with rfl | hu
      · exact Nat.and_lt_two_pow _ (shl_lt _ _)
      · exact hmem u (List.mem_cons_of_mem _ hu)

/-- The loop over the numbers of a map lists them in order and each once. -/
theorem enumerate_nextOf (h : m.Ok) {fuel : ℕ} (hfuel : m.members.card < fuel) :
    enumerate (nextOf m) fuel none none = m.members.sort (· ≤ ·) := by
  cases m with
  | small ws =>
    have hall : (SparseMap.members (.small ws)).filter (After none) = SparseMap.members (.small ws) :=
      Finset.filter_true_of_mem fun n _ => after_none
    have hsort := @enumerate_eq_sort _ (nextOf (.small ws)) (SparseMap.members (.small ws))
      (fun _ _ => True) (fun prev cur _ => ⟨(smallNext_isNext h prev).congr fun n =>
        (@mem_membersOf (.small ws) n).symm, fun m _ => trivial⟩) fuel none none trivial
      (by rw [hall]; exact hfuel)
    rw [hsort, hall]
  | chunked cs => exact enumerate_nextMember h hfuel

/-- The numbers of a map of two chunks, in order. -/
theorem enumerate_nextOf_twoChunks : enumerate (nextOf twoChunks) 5 none none =
    twoChunks.members.sort (· ≤ ·) :=
  enumerate_nextOf ok_twoChunks (by rw [members_twoChunks]; decide)

end

end PgTre.Sparsemap
