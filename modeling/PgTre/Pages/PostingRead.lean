import PgTre.Util.Sparsemap
import PgTre.Util.LinkedChain
import PgTre.Pages.RunCatalog

/-!
# Reading a posting chain while VACUUM runs

A posting that does not fit its upper leaf is a chain of posting leaves. The scan of
`pg_tre_posting_materialize` locks one leaf at a time and merges the leaves as a binary counter.
VACUUM walks the same chain with lock coupling, strips dead TIDs, and unlinks the leaves it
empties. An unlinked leaf keeps its right link, so a scan that already holds the block number of
the leaf finds its way back into the chain. It reads an empty leaf there, and the counter takes
the union of two empty leaves for a failed allocation.
-/

namespace PgTre

/-! ## The merge -/

/-- How the merge of the leaves ends early. -/
inductive MergeStop where
  /-- `return NULL`. -/
  | null
  | error (e : PgError)
  deriving DecidableEq

/-- A leaf is carried upward through the occupied slots. A union that is `NULL` ends the
merge. -/
def carryLeaf (root : BlockNumber) : List Sm → Finset ℕ → Except MergeStop (List Sm)
  | [], _ => .error (.error ⟨s!"pg_tre: posting chain from block {root} is too long"⟩)
  | none :: slots, sm => .ok (some sm :: slots)
  | some slot :: slots, sm =>
      match smUnion slot sm with
      | none => .error .null
      | some merged =>
          match carryLeaf root slots merged with
          | .error stop => .error stop
          | .ok slots => .ok (none :: slots)

/-- The slots before the first leaf. -/
def emptySlots : List Sm := List.replicate 64 none

/-- The slots after the leaves that were read so far. -/
def carryLeaves (root : BlockNumber) (slots : List Sm) (leaves : List (Finset ℕ)) :
    Except MergeStop (List Sm) :=
  leaves.foldlM (carryLeaf root) slots

/-- The occupied slots are folded, smallest first. -/
def foldSlots : List Sm → Sm → Sm
  | [], sm => sm
  | none :: slots, sm => foldSlots slots sm
  | some slot :: slots, none => foldSlots slots (some slot)
  | some slot :: slots, some sm =>
      match smUnion slot sm with
      | none => none
      | some merged => foldSlots slots (some merged)

/-- What `pg_tre_posting_materialize` returns. -/
def mergeReturn : Except MergeStop (List Sm) → Except PgError Sm
  | .error .null => .ok none
  | .error (.error e) => .error e
  | .ok slots => .ok (foldSlots slots none)

/-- The number of leaves the slots stand for. -/
def slotWeight : List Sm → ℕ
  | [] => 0
  | none :: slots => 2 * slotWeight slots
  | some _ :: slots => 2 * slotWeight slots + 1

/-- The TIDs in the slots. -/
def SlotsHold (slots : List Sm) (tid : ℕ) : Prop := ∃ slot ∈ slots, tid ∈ smMembers slot

/-- No slot holds an empty map. -/
def SlotsNonempty (slots : List Sm) : Prop := ∀ slot ∈ slots, slot ≠ some ∅

/-- A slot list holds what its first slot or the others hold. -/
@[simp] theorem slotsHold_cons {slot : Sm} {slots : List Sm} {tid : ℕ} :
    SlotsHold (slot :: slots) tid ↔ tid ∈ smMembers slot ∨ SlotsHold slots tid := by
  simp [SlotsHold]

/-- No slot of the list is an empty map when the first is not and the others are not. -/
@[simp] theorem slotsNonempty_cons {slot : Sm} {slots : List Sm} :
    SlotsNonempty (slot :: slots) ↔ slot ≠ some ∅ ∧ SlotsNonempty slots := by
  simp [SlotsNonempty]

/-- A union with a nonempty map is not `NULL`. -/
theorem smUnion_eq_some {a b : Finset ℕ} (h : ¬(a = ∅ ∧ b = ∅)) : smUnion a b = some (a ∪ b) := by
  unfold smUnion
  rw [if_neg]
  rwa [Finset.union_eq_empty]

/-- A nonempty map is carried to a free slot, if there is one. -/
theorem carryLeaf_spec (root : BlockNumber) {slots : List Sm} {sm : Finset ℕ}
    (hslots : SlotsNonempty slots) (hsm : sm ≠ ∅)
    (hroom : slotWeight slots + 1 < 2 ^ slots.length) :
    ∃ slots', carryLeaf root slots sm = .ok slots' ∧ SlotsNonempty slots' ∧
      slots'.length = slots.length ∧ slotWeight slots' = slotWeight slots + 1 ∧
      ∀ tid, SlotsHold slots' tid ↔ SlotsHold slots tid ∨ tid ∈ sm := by
  induction slots generalizing sm with
  | nil => simp [slotWeight] at hroom
  | cons slot slots ih =>
    obtain ⟨hslot, hrest⟩ := slotsNonempty_cons.mp hslots
    rw [List.length_cons, pow_succ] at hroom
    cases slot with
    | none =>
      refine ⟨some sm :: slots, rfl, ?_, rfl, rfl, fun tid => ?_⟩
      · exact slotsNonempty_cons.mpr ⟨fun h => hsm (Option.some.inj h), hrest⟩
      · simp [or_comm]
    | some a =>
      simp only [slotWeight] at hroom
      have hunion : smUnion a sm = some (a ∪ sm) := smUnion_eq_some fun h => hsm h.2
      have hne : a ∪ sm ≠ ∅ := fun h => hsm (Finset.union_eq_empty.mp h).2
      obtain ⟨slots', hcarry, hslots', hlen, hweight, hhold⟩ := ih hrest hne (by omega)
      refine ⟨none :: slots', ?_, ?_, ?_, ?_, fun tid => ?_⟩
      · simp only [carryLeaf, hunion, hcarry]
      · exact slotsNonempty_cons.mpr ⟨by simp, hslots'⟩
      · simp [hlen]
      · simp only [slotWeight]
        omega
      · simp only [slotsHold_cons, smMembers_none, smMembers_some, hhold, Finset.mem_union,
          Finset.notMem_empty, false_or]
        tauto

/-- Two leaves that the counter unites with each other are both empty. -/
def EmptyPair : List (Finset ℕ) → Prop
  | a :: b :: leaves => a = ∅ ∧ b = ∅ ∨ EmptyPair leaves
  | _ => False

instance decidableEmptyPair : (leaves : List (Finset ℕ)) → Decidable (EmptyPair leaves)
  | [] => isFalse id
  | [_] => isFalse id
  | a :: b :: leaves =>
      have := decidableEmptyPair leaves
      inferInstanceAs (Decidable (a = ∅ ∧ b = ∅ ∨ EmptyPair leaves))

/-- The merge of the leaves stops at the first two that are united and both empty. Otherwise
the slots hold every TID, and above the first slot none is empty. -/
theorem carryLeaves_spec (root : BlockNumber) {slots : List Sm} (leaves : List (Finset ℕ))
    (hslots : SlotsNonempty slots)
    (hroom : slotWeight slots * 2 + leaves.length < 2 ^ (slots.length + 1)) :
    EmptyPair leaves ∧ carryLeaves root (none :: slots) leaves = .error .null ∨
      ¬EmptyPair leaves ∧ ∃ slot slots', carryLeaves root (none :: slots) leaves =
          .ok (slot :: slots') ∧ SlotsNonempty slots' ∧
        ∀ tid, SlotsHold (slot :: slots') tid ↔
          SlotsHold slots tid ∨ ∃ leaf ∈ leaves, tid ∈ leaf := by
  -- Two leaves at a time: they leave the first slot as they found it.
  induction leaves using EmptyPair.induct generalizing slots with
  | case1 a b leaves ih =>
    by_cases hboth : a = ∅ ∧ b = ∅
    · left
      obtain ⟨rfl, rfl⟩ := hboth
      refine ⟨Or.inl ⟨rfl, rfl⟩, ?_⟩
      simp [carryLeaves, List.foldlM_cons, carryLeaf]
      rfl
    · have hunion : smUnion a b = some (a ∪ b) := smUnion_eq_some hboth
      have hne : a ∪ b ≠ ∅ := fun h => hboth (Finset.union_eq_empty.mp h)
      simp only [List.length_cons, pow_succ] at hroom
      obtain ⟨slots₁, hcarry, hslots₁, hlen, hweight, hhold⟩ :=
        carryLeaf_spec root hslots hne (by omega)
      have hfold : carryLeaves root (none :: slots) (a :: b :: leaves) =
          carryLeaves root (none :: slots₁) leaves := by
        simp only [carryLeaves, List.foldlM_cons]
        have hb : carryLeaf root (some a :: slots) b = .ok (none :: slots₁) := by
          simp only [carryLeaf, hunion, hcarry]
        change (carryLeaf root (some a :: slots) b >>= fun s =>
          List.foldlM (carryLeaf root) s leaves) = _
        rw [hb]
        rfl
      have hpair : EmptyPair (a :: b :: leaves) ↔ EmptyPair leaves := or_iff_right hboth
      rw [hfold, hpair]
      rcases ih hslots₁ (by rw [hlen, pow_succ]; omega) with hnull |
        ⟨hno, slot, slots', hok, hne', hmem⟩
      · exact Or.inl hnull
      · refine Or.inr ⟨hno, slot, slots', hok, hne', fun tid => ?_⟩
        rw [hmem, hhold]
        simp only [Finset.mem_union, List.mem_cons, exists_eq_or_imp, or_assoc]
  | case2 leaves hshort =>
    right
    match leaves, hshort with
    | [], _ => exact ⟨id, none, slots, rfl, hslots, fun tid => by simp⟩
    | [a], _ =>
      refine ⟨id, some a, slots, rfl, hslots, fun tid => ?_⟩
      simp [or_comm]
    | a :: b :: leaves, hshort => exact absurd rfl (hshort a b leaves)

/-- Folding slots that are not empty loses no TID. -/
theorem mem_foldSlots {slots : List Sm} (hslots : SlotsNonempty slots) (sm : Sm) (tid : ℕ) :
    tid ∈ smMembers (foldSlots slots sm) ↔ tid ∈ smMembers sm ∨ SlotsHold slots tid := by
  induction slots generalizing sm with
  | nil => simp [foldSlots, SlotsHold]
  | cons slot slots ih =>
    obtain ⟨hslot, hrest⟩ := slotsNonempty_cons.mp hslots
    cases slot with
    | none => simp [foldSlots, ih hrest]
    | some a =>
      cases sm with
      | none => simp [foldSlots, ih hrest]
      | some s =>
        have hunion : smUnion a s = some (a ∪ s) :=
          smUnion_eq_some fun h => hslot (congrArg some h.1)
        simp only [foldSlots, hunion, ih hrest, smMembers_some, Finset.mem_union, slotsHold_cons]
        tauto

/-- With all slots free at first and fewer than `2 ^ 64` leaves, the slots never run out. -/
theorem carryLeaves_emptySlots (root : BlockNumber) {leaves : List (Finset ℕ)}
    (hlen : leaves.length < 2 ^ 64) :
    EmptyPair leaves ∧ carryLeaves root emptySlots leaves = .error .null ∨
      ¬EmptyPair leaves ∧ ∃ slot slots, carryLeaves root emptySlots leaves =
          .ok (slot :: slots) ∧ SlotsNonempty slots ∧
        ∀ tid, SlotsHold (slot :: slots) tid ↔ ∃ leaf ∈ leaves, tid ∈ leaf := by
  have hempty : SlotsNonempty (List.replicate 63 none) := by
    intro slot hslot
    rw [List.eq_of_mem_replicate hslot]
    simp
  have hnone : ∀ tid, ¬SlotsHold (List.replicate 63 none) tid := by
    rintro tid ⟨s, hs, htid⟩
    rw [List.eq_of_mem_replicate hs] at htid
    simp at htid
  have hweight : slotWeight (List.replicate 63 none) = 0 := rfl
  have hslots : emptySlots = none :: List.replicate 63 none := rfl
  have hroom : slotWeight (List.replicate 63 none) * 2 + leaves.length <
      2 ^ ((List.replicate 63 (none : Sm)).length + 1) := by
    rw [hweight, List.length_replicate]
    omega
  rw [hslots]
  rcases carryLeaves_spec root leaves hempty hroom with
    hnull | ⟨hpair, slot, slots, hok, hslots, hmem⟩
  · exact Or.inl hnull
  · refine Or.inr ⟨hpair, slot, slots, hok, hslots, fun tid => ?_⟩
    rw [hmem, or_iff_right (hnone tid)]

/-- A chain of fewer than `2 ^ 64` leaves is merged to the union of its leaves, unless the
counter unites two empty ones. Then it is merged to `NULL`. -/
theorem mergeReturn_carryLeaves (root : BlockNumber) {leaves : List (Finset ℕ)}
    (hlen : leaves.length < 2 ^ 64) :
    ∃ sm, mergeReturn (carryLeaves root emptySlots leaves) = .ok sm ∧
      ∀ tid, tid ∈ smMembers sm ↔ ¬EmptyPair leaves ∧ ∃ leaf ∈ leaves, tid ∈ leaf := by
  rcases carryLeaves_emptySlots root hlen with ⟨hpair, hnull⟩ | ⟨hpair, slot, slots, hok, hslots, hmem⟩
  · exact ⟨none, by rw [hnull]; rfl, fun tid => by simp [hpair]⟩
  · refine ⟨foldSlots (slot :: slots) none, by rw [hok]; rfl, fun tid => ?_⟩
    have hfirst : foldSlots (slot :: slots) none = foldSlots slots slot := by
      cases slot with
      | none => rfl
      | some a => rfl
    rw [hfirst, mem_foldSlots hslots, ← slotsHold_cons, hmem]
    exact (and_iff_right hpair).symm

/-! ## Leaves, the reader and VACUUM -/

/-- A posting leaf. -/
structure PostingLeaf where
  rightLink : Option BlockNumber
  tids : Finset ℕ
  /-- `PG_TRE_LEAF_DELETED`. -/
  deleted : Bool := false

/-- `posting_leaf_delete`: the leaf after the repack and the number of TIDs that remain. The
repacked map may outgrow the page, and then the leaf is left as it was. An empty map always
fits. -/
def postingLeafDelete (leaf : PostingLeaf) (dead : ℕ → Bool) (fits : Bool) : PostingLeaf × ℕ :=
  let keep := leaf.tids.filter (fun tid => dead tid = false)
  if leaf.tids = keep then (leaf, keep.card)
  else if fits = false ∧ keep ≠ ∅ then (leaf, leaf.tids.card)
  else ({ leaf with tids := keep }, keep.card)

/-- `posting_leaf_unlink`: the predecessor takes over the right link, and the leaf becomes an
empty waypoint that keeps its own. -/
def postingLeafUnlink (pages : BlockNumber → PostingLeaf) (prev cur : BlockNumber) :
    BlockNumber → PostingLeaf :=
  Function.update
    (Function.update pages prev { pages prev with rightLink := (pages cur).rightLink })
    cur ⟨(pages cur).rightLink, ∅, true⟩

/-- A pass of `posting_tree_delete` between two leaves: the predecessor it keeps locked, the leaf
it comes to next, and the TIDs its callback calls dead. -/
structure DeletePass where
  prev : Option BlockNumber
  cur : Option BlockNumber
  dead : ℕ → Bool

/-- One turn of the loop of `posting_tree_delete`, at leaf `b`. -/
def DeletePass.visit (pass : DeletePass) (pages : BlockNumber → PostingLeaf) (b : BlockNumber)
    (fits : Bool) : (BlockNumber → PostingLeaf) × DeletePass :=
  let next := (pages b).rightLink
  let repacked := postingLeafDelete (pages b) pass.dead fits
  let pages := Function.update pages b repacked.1
  match pass.prev with
  | none => (pages, ⟨some b, next, pass.dead⟩)
  | some p =>
      if repacked.2 = 0 then (postingLeafUnlink pages p b, ⟨some p, next, pass.dead⟩)
      else (pages, ⟨some b, next, pass.dead⟩)

/-- Where the reader is. -/
inductive ReaderStatus where
  /-- It is about to lock this leaf. -/
  | reading (next : BlockNumber) (slots : List Sm)
  | returned (result : Except PgError Sm)

/-- `pg_tre_posting_materialize` between two leaves. -/
structure PostingReader where
  status : ReaderStatus
  /-- The leaves it read, in order. -/
  seen : List (Finset ℕ)

/-- One turn of the loop of `pg_tre_posting_materialize`: lock a leaf, copy its map and its right
link, and carry the map into the slots. -/
def PostingReader.read (seen : List (Finset ℕ)) (slots : List Sm) (root : BlockNumber)
    (leaf : PostingLeaf) : PostingReader where
  seen := seen ++ [leaf.tids]
  status :=
    match carryLeaf root slots leaf.tids with
    | .error stop => .returned (mergeReturn (.error stop))
    | .ok slots =>
        match leaf.rightLink with
        | some next => .reading next slots
        | none => .returned (mergeReturn (.ok slots))

/-- The pages of a posting, the pass of VACUUM if there is one, and the reader. -/
structure PostingState where
  pages : BlockNumber → PostingLeaf
  vacuum : Option DeletePass
  reader : PostingReader

/-- A step of the reader or of VACUUM. The reader waits for a leaf that VACUUM keeps locked. -/
inductive PostingStep (root : BlockNumber) : PostingState → PostingState → Prop where
  | begin_pass (s : PostingState) (dead : ℕ → Bool) (h : s.vacuum = none) :
      PostingStep root s { s with vacuum := some ⟨none, some root, dead⟩ }
  | visit (s : PostingState) (pass : DeletePass) (b : BlockNumber) (fits : Bool)
      (h : s.vacuum = some pass) (hcur : pass.cur = some b) :
      PostingStep root s { s with
        pages := (pass.visit s.pages b fits).1
        vacuum := some (pass.visit s.pages b fits).2 }
  /-- The pass ends, or an error ends it. -/
  | end_pass (s : PostingState) : PostingStep root s { s with vacuum := none }
  | read (s : PostingState) (b : BlockNumber) (slots : List Sm)
      (h : s.reader.status = .reading b slots)
      (hlock : ∀ pass, s.vacuum = some pass → pass.prev ≠ some b) :
      PostingStep root s { s with reader := .read s.reader.seen slots root (s.pages b) }

/-- A posting leaf chain on disk. -/
structure PostingChain where
  pages : BlockNumber → PostingLeaf
  root : BlockNumber
  rest : List BlockNumber
  nodup : (root :: rest).Nodup
  /-- A block number is a `uint32`, and the last one is `InvalidBlockNumber`. -/
  valid : ∀ b ∈ root :: rest, b < 2 ^ 32 - 1
  linked : ∀ (i : ℕ) (h : i < (root :: rest).length),
    (pages (root :: rest)[i]).rightLink = (root :: rest)[i + 1]?

/-- The blocks of the chain from left to right. -/
def PostingChain.blocks (c : PostingChain) : List BlockNumber := c.root :: c.rest

/-- A reader that has not read a leaf, and no pass of VACUUM. -/
def PostingChain.start (c : PostingChain) : PostingState :=
  ⟨c.pages, none, ⟨.reading c.root emptySlots, []⟩⟩

/-- The right links of the leaves. -/
def rightLinks (pages : BlockNumber → PostingLeaf) (b : BlockNumber) : Option BlockNumber :=
  (pages b).rightLink

/-- The chain from the root has the TID. -/
def PostingState.InChain (root : BlockNumber) (s : PostingState) (tid : ℕ) : Prop :=
  ∃ b, Reaches (rightLinks s.pages) root b ∧ tid ∈ (s.pages b).tids

/-! ## One turn of VACUUM -/

/-- The repack keeps the right link and adds no TID. -/
theorem postingLeafDelete_spec (leaf : PostingLeaf) (dead : ℕ → Bool) (fits : Bool) :
    (postingLeafDelete leaf dead fits).1.rightLink = leaf.rightLink ∧
      (postingLeafDelete leaf dead fits).1.tids ⊆ leaf.tids := by
  simp only [postingLeafDelete]
  split_ifs
  · exact ⟨rfl, Finset.Subset.refl _⟩
  · exact ⟨rfl, Finset.Subset.refl _⟩
  · exact ⟨rfl, Finset.filter_subset _ _⟩

/-- A turn strips TIDs from its leaf. It either moves on with the leaf as the new predecessor, or
splices the leaf out and leaves it empty. -/
theorem DeletePass.visit_cases (pass : DeletePass) (pages : BlockNumber → PostingLeaf)
    (b : BlockNumber) (fits : Bool) (hprev : pass.prev ≠ some b) :
    (∀ x, ((pass.visit pages b fits).1 x).tids ⊆ (pages x).tids) ∧
      (rightLinks (pass.visit pages b fits).1 = rightLinks pages ∧
          (pass.visit pages b fits).2 = ⟨some b, rightLinks pages b, pass.dead⟩ ∨
        ∃ p, pass.prev = some p ∧ ((pass.visit pages b fits).1 b).tids = ∅ ∧
          rightLinks (pass.visit pages b fits).1 = spliced (rightLinks pages) p b ∧
          (pass.visit pages b fits).2 = ⟨some p, rightLinks pages b, pass.dead⟩) := by
  obtain ⟨hright, hsub⟩ := postingLeafDelete_spec (pages b) pass.dead fits
  generalize hleaf : postingLeafDelete (pages b) pass.dead fits = repacked at hright hsub
  -- Without an unlink only the TIDs of leaf `b` change.
  have hkeep : (∀ x, (Function.update pages b repacked.1 x).tids ⊆ (pages x).tids) ∧
      rightLinks (Function.update pages b repacked.1) = rightLinks pages := by
    constructor
    · intro x
      by_cases hx : x = b
      · subst hx
        rw [Function.update_self]
        exact hsub
      · rw [Function.update_of_ne hx]
    · funext x
      by_cases hx : x = b
      · subst hx
        rw [rightLinks, Function.update_self]
        exact hright
      · rw [rightLinks, Function.update_of_ne hx, rightLinks]
  unfold visit
  simp only [hleaf]
  cases hp : pass.prev with
  | none => exact ⟨hkeep.1, Or.inl ⟨hkeep.2, rfl⟩⟩
  | some p =>
    have hpb : p ≠ b := fun h => hprev (h ▸ hp)
    by_cases hzero : repacked.2 = 0
    · simp only [if_pos hzero]
      refine ⟨fun x => ?_, Or.inr ⟨p, rfl, ?_, ?_, rfl⟩⟩
      · by_cases hx : x = b
        · simp [postingLeafUnlink, hx]
        · by_cases hxp : x = p
          · simp [postingLeafUnlink, hxp, hpb]
          · simp [postingLeafUnlink, hx, hxp]
      · simp [postingLeafUnlink]
      · funext x
        by_cases hx : x = b
        · subst hx
          simp [rightLinks, postingLeafUnlink, spliced, hpb.symm, hright]
        · by_cases hxp : x = p
          · simp [rightLinks, postingLeafUnlink, spliced, hxp, hpb, hright]
          · simp [rightLinks, postingLeafUnlink, spliced, hx, hxp]
    · simp only [if_neg hzero]
      exact ⟨hkeep.1, Or.inl ⟨hkeep.2, rfl⟩⟩

/-! ## What holds in every state -/

/-- The state of the reader agrees with the leaves it read, and it comes to leaves further and
further right. -/
def PostingReader.Wf (c : PostingChain) (reader : PostingReader) : Prop :=
  match reader.status with
  | .reading next slots =>
      carryLeaves c.root emptySlots reader.seen = .ok slots ∧ next ∈ c.blocks ∧
        reader.seen.length ≤ c.blocks.idxOf next
  | .returned result =>
      result = mergeReturn (carryLeaves c.root emptySlots reader.seen) ∧
        reader.seen.length ≤ c.blocks.length

/-- Links stay among the blocks of the chain and go right, and VACUUM holds the predecessor of
the leaf it comes to. -/
structure PostingState.Wf (c : PostingChain) (s : PostingState) : Prop where
  rises : ∀ b ∈ c.blocks, ∀ b', rightLinks s.pages b = some b' →
    b' ∈ c.blocks ∧ c.blocks.idxOf b < c.blocks.idxOf b'
  cur_mem : ∀ pass, s.vacuum = some pass → ∀ b, pass.cur = some b → b ∈ c.blocks
  prev_mem : ∀ pass, s.vacuum = some pass → ∀ p, pass.prev = some p →
    p ∈ c.blocks ∧ rightLinks s.pages p = pass.cur
  reader : s.reader.Wf c

/-- In the chain on disk each leaf links to the next block. -/
theorem PostingChain.rises (c : PostingChain) {b b' : BlockNumber} (hb : b ∈ c.blocks)
    (hlink : rightLinks c.pages b = some b') :
    b' ∈ c.blocks ∧ c.blocks.idxOf b < c.blocks.idxOf b' := by
  have hlt : c.blocks.idxOf b < c.blocks.length := List.idxOf_lt_length_iff.mpr hb
  have hnext := c.linked (c.blocks.idxOf b) hlt
  have hget : (c.root :: c.rest)[c.blocks.idxOf b] = b := List.getElem_idxOf hlt
  rw [hget] at hnext
  rw [rightLinks, hnext] at hlink
  obtain ⟨hlt', hb'⟩ := List.getElem?_eq_some_iff.mp hlink
  refine ⟨hb' ▸ List.getElem_mem hlt', ?_⟩
  have hidx : c.blocks.idxOf b' = c.blocks.idxOf b + 1 := by
    rw [← hb']
    exact c.nodup.idxOf_getElem _ hlt'
  omega

/-- The chain is well formed before the first step. -/
theorem PostingChain.start_wf (c : PostingChain) : c.start.Wf c where
  rises := fun _ hb _ hlink => c.rises hb hlink
  cur_mem := by
    intro pass h
    cases h
  prev_mem := by
    intro pass h
    cases h
  reader := ⟨rfl, List.mem_cons_self, Nat.zero_le _⟩

/-- The predecessor VACUUM holds is not the leaf it comes to. -/
theorem PostingState.Wf.prev_ne {c : PostingChain} {s : PostingState} (hs : s.Wf c)
    {pass : DeletePass} {b : BlockNumber} (hpass : s.vacuum = some pass)
    (hcur : pass.cur = some b) : pass.prev ≠ some b := by
  intro hprev
  obtain ⟨hmem, hlink⟩ := hs.prev_mem pass hpass b hprev
  exact absurd (hs.rises b hmem b (hlink.trans hcur)).2 (lt_irrefl _)

/-- A leaf more in the fold over the leaves. -/
theorem carryLeaves_concat {root : BlockNumber} {slots slots' : List Sm}
    {leaves : List (Finset ℕ)} (leaf : Finset ℕ)
    (h : carryLeaves root slots leaves = .ok slots') :
    carryLeaves root slots (leaves ++ [leaf]) = carryLeaf root slots' leaf := by
  unfold carryLeaves at h ⊢
  rw [List.foldlM_append, h]
  change List.foldlM (carryLeaf root) slots' [leaf] = carryLeaf root slots' leaf
  rw [List.foldlM_cons]
  cases carryLeaf root slots' leaf with
  | error stop => rfl
  | ok slots'' => rfl

/-- A turn of the reader. -/
theorem PostingReader.Wf.read {c : PostingChain} {s : PostingState} {b : BlockNumber}
    {slots : List Sm} (hs : s.Wf c) (hstatus : s.reader.status = .reading b slots) :
    (PostingReader.read s.reader.seen slots c.root (s.pages b)).Wf c := by
  have hwf := hs.reader
  simp only [PostingReader.Wf, hstatus] at hwf
  obtain ⟨hcarry, hb, hlen⟩ := hwf
  have hlt : c.blocks.idxOf b < c.blocks.length := List.idxOf_lt_length_iff.mpr hb
  have hconcat := carryLeaves_concat (s.pages b).tids hcarry
  simp only [PostingReader.Wf, PostingReader.read]
  cases hleaf : carryLeaf c.root slots (s.pages b).tids with
  | error stop =>
    refine ⟨by rw [hconcat, hleaf], ?_⟩
    rw [List.length_append, List.length_singleton]
    omega
  | ok slots' =>
    cases hright : (s.pages b).rightLink with
    | none =>
      refine ⟨by rw [hconcat, hleaf], ?_⟩
      rw [List.length_append, List.length_singleton]
      omega
    | some next =>
      obtain ⟨hmem, hrise⟩ := hs.rises b hb next hright
      refine ⟨by rw [hconcat, hleaf], hmem, ?_⟩
      rw [List.length_append, List.length_singleton]
      omega

/-- A turn of VACUUM keeps the links in order. -/
theorem PostingState.Wf.visit {c : PostingChain} {s : PostingState} (hs : s.Wf c)
    {pass : DeletePass} {b : BlockNumber} (hpass : s.vacuum = some pass)
    (hcur : pass.cur = some b) (fits : Bool) :
    PostingState.Wf c ⟨(pass.visit s.pages b fits).1, some (pass.visit s.pages b fits).2,
      s.reader⟩ := by
  have hb : b ∈ c.blocks := hs.cur_mem pass hpass b hcur
  have hcurmem : ∀ b', rightLinks s.pages b = some b' → b' ∈ c.blocks :=
    fun b' hlink => (hs.rises b hb b' hlink).1
  obtain ⟨-, ⟨hlinks, hnext⟩ | ⟨p, hp, -, hlinks, hnext⟩⟩ :=
    pass.visit_cases s.pages b fits (hs.prev_ne hpass hcur)
  · refine ⟨?_, ?_, ?_, hs.reader⟩
    · rw [hlinks]
      exact hs.rises
    · rintro pass' hpass' b' hb'
      obtain rfl := Option.some.inj hpass'
      rw [hnext] at hb'
      exact hcurmem b' hb'
    · rintro pass' hpass' p hp
      obtain rfl := Option.some.inj hpass'
      rw [hnext] at hp ⊢
      obtain rfl := Option.some.inj hp
      exact ⟨hb, by rw [hlinks]⟩
  · obtain ⟨hpmem, hplink⟩ := hs.prev_mem pass hpass p hp
    rw [hcur] at hplink
    refine ⟨?_, ?_, ?_, hs.reader⟩
    · intro x hx y hxy
      rw [hlinks] at hxy
      by_cases hxp : x = p
      · -- The spliced link goes over the leaf.
        subst hxp
        rw [spliced, if_pos rfl] at hxy
        have hfirst := (hs.rises x hx b hplink).2
        obtain ⟨hy, hsecond⟩ := hs.rises b hb y hxy
        exact ⟨hy, by omega⟩
      · rw [spliced, if_neg hxp] at hxy
        exact hs.rises x hx y hxy
    · rintro pass' hpass' b' hb'
      obtain rfl := Option.some.inj hpass'
      rw [hnext] at hb'
      exact hcurmem b' hb'
    · rintro pass' hpass' p' hp'
      obtain rfl := Option.some.inj hpass'
      rw [hnext] at hp' ⊢
      obtain rfl := Option.some.inj hp'
      exact ⟨hpmem, by rw [hlinks, spliced, if_pos rfl]⟩

/-- Every step keeps the links in order. -/
theorem PostingStep.wf {c : PostingChain} {s s' : PostingState} (hs : s.Wf c)
    (hstep : PostingStep c.root s s') : s'.Wf c := by
  cases hstep with
  | begin_pass dead h =>
    refine ⟨hs.rises, ?_, ?_, hs.reader⟩
    · intro pass hpass b hb
      obtain rfl := Option.some.inj hpass
      obtain rfl := Option.some.inj hb
      exact List.mem_cons_self
    · intro pass hpass p hp
      obtain rfl := Option.some.inj hpass
      cases hp
  | visit pass b fits h hcur => exact hs.visit h hcur fits
  | end_pass =>
    refine ⟨hs.rises, ?_, ?_, hs.reader⟩
    · intro pass hpass
      cases hpass
    · intro pass hpass
      cases hpass
  | read b slots h hlock => exact ⟨hs.rises, hs.cur_mem, hs.prev_mem, .read hs h⟩

/-- So does every run. -/
theorem wf_of_postingRun {c : PostingChain} {s : PostingState}
    (hrun : Relation.ReflTransGen (PostingStep c.root) c.start s) : s.Wf c := by
  induction hrun with
  | refl => exact c.start_wf
  | tail _ hstep ih => exact hstep.wf ih

/-! ## The reader misses no leaf -/

/-- A leaf that has the TID after a step had it before. -/
theorem PostingStep.tids_subset {c : PostingChain} {s s' : PostingState} (hs : s.Wf c)
    (hstep : PostingStep c.root s s') (b : BlockNumber) :
    (s'.pages b).tids ⊆ (s.pages b).tids := by
  cases hstep with
  | begin_pass dead h => exact Finset.Subset.refl _
  | visit pass b' fits h hcur =>
    exact (pass.visit_cases s.pages b' fits (hs.prev_ne h hcur)).1 b
  | end_pass => exact Finset.Subset.refl _
  | read b' slots h hlock => exact Finset.Subset.refl _

/-- A step changes what is reachable only by splicing out an empty leaf. -/
theorem PostingStep.reaches_iff {c : PostingChain} {s s' : PostingState} (hs : s.Wf c)
    (hstep : PostingStep c.root s s') {x b : BlockNumber} (hb : (s'.pages b).tids.Nonempty) :
    Reaches (rightLinks s'.pages) x b ↔ Reaches (rightLinks s.pages) x b := by
  cases hstep with
  | begin_pass dead h => exact Iff.rfl
  | visit pass b' fits h hcur =>
    have hne := hs.prev_ne h hcur
    obtain ⟨-, ⟨hlinks, -⟩ | ⟨p, hp, hempty, hlinks, -⟩⟩ := pass.visit_cases s.pages b' fits hne
    · simp only [hlinks]
    · have hplink := (hs.prev_mem pass h p hp).2.trans hcur
      have hpb : b' ≠ p := fun heq => hne (heq ▸ hp)
      have hbb' : b ≠ b' := by
        rintro rfl
        rw [hempty] at hb
        exact Finset.not_nonempty_empty hb
      simp only [hlinks]
      exact ⟨Reaches.of_spliced hplink, Reaches.spliced hplink hpb hbb'⟩
  | end_pass => exact Iff.rfl
  | read b' slots h hlock => exact Iff.rfl

/-- The reader has the TID already or is on its way to the leaf that has it. It is done with a
merge that failed. -/
def PostingReader.OnWay (links : BlockNumber → Option BlockNumber) (b : BlockNumber) (tid : ℕ)
    (reader : PostingReader) : Prop :=
  (∃ leaf ∈ reader.seen, tid ∈ leaf) ∨
    match reader.status with
    | .reading next _ => Reaches links next b
    | .returned _ => EmptyPair reader.seen

/-- The blocks of a chain are fewer than the slots of the counter can stand for. -/
theorem PostingChain.length_blocks_lt (c : PostingChain) : c.blocks.length < 2 ^ 64 := by
  have hsub : c.blocks.toFinset ⊆ Finset.range (2 ^ 32 - 1) := by
    intro b hb
    exact Finset.mem_range.mpr (c.valid b (List.mem_toFinset.mp hb))
  have hcard := Finset.card_le_card hsub
  have hnodup : c.blocks.Nodup := c.nodup
  rw [List.toFinset_card_of_nodup hnodup, Finset.card_range] at hcard
  omega

/-- The reader never reads more leaves than the chain had. -/
theorem PostingReader.Wf.length_seen_le {c : PostingChain} {reader : PostingReader}
    (h : reader.Wf c) : reader.seen.length ≤ c.blocks.length := by
  unfold PostingReader.Wf at h
  split at h
  · have hlt := List.idxOf_lt_length_iff.mpr h.2.1
    omega
  · exact h.2

/-- A turn of the reader keeps it on its way. -/
theorem PostingReader.OnWay.read {c : PostingChain} {s : PostingState} {b p : BlockNumber}
    {slots : List Sm} {tid : ℕ} (hs : s.Wf c) (hstatus : s.reader.status = .reading b slots)
    (htid : tid ∈ (s.pages p).tids) (hway : s.reader.OnWay (rightLinks s.pages) p tid) :
    (PostingReader.read s.reader.seen slots c.root (s.pages b)).OnWay (rightLinks s.pages) p tid := by
  have hread := PostingReader.Wf.read hs hstatus
  have hwf := hs.reader
  simp only [PostingReader.Wf, hstatus] at hwf
  simp only [OnWay, hstatus] at hway
  have hlen : (s.reader.seen ++ [(s.pages b).tids]).length < 2 ^ 64 :=
    lt_of_le_of_lt hread.length_seen_le c.length_blocks_lt
  have hconcat := carryLeaves_concat (s.pages b).tids hwf.1
  rcases hway with ⟨leaf, hleaf, hmem⟩ | hreach
  · exact Or.inl ⟨leaf, List.mem_append_left _ hleaf, hmem⟩
  · rcases hreach.eq_or_next with rfl | ⟨next, hnext, hreach⟩
    · exact Or.inl ⟨_, List.mem_append_right _ List.mem_cons_self, htid⟩
    · right
      simp only [PostingReader.read]
      cases hcarry : carryLeaf c.root slots (s.pages b).tids with
      | ok slots' =>
        rw [rightLinks] at hnext
        simp only [hnext]
        exact hreach
      | error stop =>
        rcases carryLeaves_emptySlots c.root hlen with ⟨hpair, -⟩ | ⟨-, slot, slots', hok, -⟩
        · exact hpair
        · rw [hconcat, hcarry] at hok
          cases hok

/-- A TID that is in the chain after a run is in one leaf of it throughout, and the reader has it
or is on its way to that leaf. -/
theorem onWay_of_postingRun {c : PostingChain} {s : PostingState} {b : BlockNumber} {tid : ℕ}
    (hrun : Relation.ReflTransGen (PostingStep c.root) c.start s)
    (hreach : Reaches (rightLinks s.pages) c.root b) (htid : tid ∈ (s.pages b).tids) :
    s.reader.OnWay (rightLinks s.pages) b tid := by
  induction hrun with
  | refl => exact Or.inr hreach
  | @tail s s' hrun hstep ih =>
    have hs : s.Wf c := wf_of_postingRun hrun
    have hnonempty : (s'.pages b).tids.Nonempty := ⟨tid, htid⟩
    have hbefore : tid ∈ (s.pages b).tids := hstep.tids_subset hs b htid
    have hway := ih ((hstep.reaches_iff hs hnonempty).mp hreach) hbefore
    -- The reader's own position is as reachable as before.
    have hkeep : s.reader.OnWay (rightLinks s'.pages) b tid := by
      rcases hway with hseen | hway
      · exact Or.inl hseen
      · refine Or.inr ?_
        cases hstatus : s.reader.status with
        | reading next slots =>
          simp only [hstatus] at hway
          exact (hstep.reaches_iff hs hnonempty).mpr hway
        | returned result =>
          simp only [hstatus] at hway
          exact hway
    cases hstep with
    | begin_pass dead h => exact hkeep
    | visit pass b' fits h hcur => exact hkeep
    | end_pass => exact hkeep
    | read b' slots h hlock => exact PostingReader.OnWay.read hs h htid hway

/-! ## What the reader returns -/

/-- The reader reads each leaf of the chain at most once and then returns. It returns every TID
that is in the chain before and after exactly when no two leaves that it united were both empty
when it read them, or there is no such TID. -/
theorem postingMaterialize_keeps_iff {c : PostingChain} {s : PostingState}
    (hrun : Relation.ReflTransGen (PostingStep c.root) c.start s) :
    (∀ next slots, s.reader.status = .reading next slots →
        s.reader.seen.length < c.blocks.length) ∧
      ∀ result, s.reader.status = .returned result →
        ((∀ tid, c.start.InChain c.root tid → s.InChain c.root tid →
            ∃ sm, result = .ok sm ∧ tid ∈ smMembers sm) ↔
          ¬EmptyPair s.reader.seen ∨
            ∀ tid, c.start.InChain c.root tid → ¬s.InChain c.root tid) := by
  have hwf : s.reader.Wf c := (wf_of_postingRun hrun).reader
  constructor
  · intro next slots hstatus
    simp only [PostingReader.Wf, hstatus] at hwf
    have hlt := List.idxOf_lt_length_iff.mpr hwf.2.1
    omega
  · intro result hstatus
    have hlen := lt_of_le_of_lt hwf.length_seen_le c.length_blocks_lt
    simp only [PostingReader.Wf, hstatus] at hwf
    obtain ⟨sm, hsm, hmem⟩ := mergeReturn_carryLeaves c.root hlen
    have hresult : result = .ok sm := hwf.1.trans hsm
    constructor
    · intro hall
      by_cases hpair : EmptyPair s.reader.seen
      · right
        intro tid hstart hend
        obtain ⟨sm', hsm', htid⟩ := hall tid hstart hend
        obtain rfl : sm = sm' := Except.ok.inj (hresult.symm.trans hsm')
        exact ((hmem tid).mp htid).1 hpair
      · exact Or.inl hpair
    · rintro (hpair | hnone) tid hstart hend
      · obtain ⟨b, hreach, htid⟩ := hend
        have hway := onWay_of_postingRun hrun hreach htid
        simp only [PostingReader.OnWay, hstatus] at hway
        exact ⟨sm, hresult, (hmem tid).mpr ⟨hpair, hway.resolve_right hpair⟩⟩
      · exact absurd hend (hnone tid hstart)

/-- A chain of three leaves. An earlier VACUUM emptied the first one, which as the head of the
chain was not unlinked. -/
def emptiedHead : PostingChain where
  pages := fun b => if b = 10 then ⟨some 11, ∅, false⟩
    else if b = 11 then ⟨some 12, {5}, false⟩ else ⟨none, {9}, false⟩
  root := 10
  rest := [11, 12]
  nodup := by decide
  valid := by decide
  linked := by decide

/-- One pass of VACUUM over the chain, with TID 5 dead. -/
def vacuumFive (s : PostingState) : PostingState :=
  let first := DeletePass.visit ⟨none, some 10, fun tid => tid == 5⟩ s.pages 10 true
  let second := first.2.visit first.1 11 true
  ⟨(second.2.visit second.1 12 true).1, none, s.reader⟩

/-- The pass is one of the interleaving. -/
theorem postingRun_vacuumFive {s : PostingState} (hvacuum : s.vacuum = none)
    (hpages : s.pages = emptiedHead.pages) :
    Relation.ReflTransGen (PostingStep 10) s (vacuumFive s) := by
  obtain ⟨pages, vacuum, reader⟩ := s
  subst hvacuum hpages
  refine Relation.ReflTransGen.head (.begin_pass _ (fun tid => tid == 5) rfl) ?_
  refine Relation.ReflTransGen.head (.visit _ _ 10 true rfl rfl) ?_
  refine Relation.ReflTransGen.head (.visit _ _ 11 true rfl rfl) ?_
  refine Relation.ReflTransGen.head (.visit _ _ 12 true rfl rfl) ?_
  exact Relation.ReflTransGen.single (.end_pass _)

/-- One leaf is read while VACUUM is not there. -/
def readFree (root b : BlockNumber) (slots : List Sm) (s : PostingState) : PostingState :=
  { s with reader := .read s.reader.seen slots root (s.pages b) }

/-- A read with no VACUUM at work is a step. -/
theorem postingStep_readFree {root b : BlockNumber} {slots : List Sm} {s : PostingState}
    (hvacuum : s.vacuum = none) (hstatus : s.reader.status = .reading b slots) :
    PostingStep root s (readFree root b slots s) := by
  refine .read s b slots hstatus fun pass hpass => ?_
  rw [hvacuum] at hpass
  cases hpass

/-- VACUUM unlinks the second leaf after the reader read it, and nothing is lost. -/
theorem postingMaterialize_keeps_emptiedHead :
    ∃ s result, Relation.ReflTransGen (PostingStep 10) emptiedHead.start s ∧
      s.reader.status = .returned result ∧
      ∀ tid, emptiedHead.start.InChain 10 tid → s.InChain 10 tid →
        ∃ sm, result = .ok sm ∧ tid ∈ smMembers sm := by
  have hrun : Relation.ReflTransGen (PostingStep emptiedHead.root) emptiedHead.start _ :=
    ((((Relation.ReflTransGen.refl.tail (postingStep_readFree rfl rfl)).tail
      (postingStep_readFree rfl rfl)).trans (postingRun_vacuumFive rfl rfl)).tail
      (postingStep_readFree rfl rfl))
  exact ⟨_, _, hrun, rfl, ((postingMaterialize_keeps_iff hrun).2 _ rfl).mpr (Or.inl (by decide))⟩

/-- VACUUM unlinks the second leaf when the reader is about to read it. The reader unites two
empty leaves, returns `NULL`, and has lost the TID of the third. -/
theorem postingMaterialize_loses :
    ¬∀ (c : PostingChain) (s : PostingState) (result : Except PgError Sm),
      Relation.ReflTransGen (PostingStep c.root) c.start s →
      s.reader.status = .returned result →
      ∀ tid, c.start.InChain c.root tid → s.InChain c.root tid →
        ∃ sm, result = .ok sm ∧ tid ∈ smMembers sm := by
  intro hall
  have hrun : Relation.ReflTransGen (PostingStep 10) emptiedHead.start _ :=
    (((Relation.ReflTransGen.refl.tail (postingStep_readFree rfl rfl)).trans
      (postingRun_vacuumFive rfl rfl)).tail (postingStep_readFree rfl rfl))
  have hstart : emptiedHead.start.InChain 10 9 := by
    have hfirst : Links (rightLinks emptiedHead.pages) 10 11 := rfl
    have hsecond : Links (rightLinks emptiedHead.pages) 11 12 := rfl
    exact ⟨12, (Relation.ReflTransGen.single hfirst).tail hsecond, by decide⟩
  obtain ⟨sm, hsm, htid⟩ := hall emptiedHead _ _ hrun rfl 9 hstart
    ⟨12, Relation.ReflTransGen.single rfl, by decide⟩
  obtain rfl : none = sm := Except.ok.inj hsm
  simp at htid

end PgTre
