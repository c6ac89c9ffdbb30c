import PgTre.Sparsemap.Union

/-!
# The intersection of two sparsemaps

`sm_intersection` of `src/util/sparsemap.c` walks through the chunks of both maps at once, and leaves
the one that ends first.
-/

namespace PgTre.Sparsemap

/-! ## The walk -/

/-- Both maps, and the chunks appended so far. -/
structure MeetState where
  a : List Chunk
  b : List Chunk
  acc : List Chunk

/-- Two windows, intersected, without the vectors that have no room in both. -/
def meetEncoded (start : ℕ) (aw bw : ℕ → ℕ) (ac bc : ℕ → Bool) : Option Chunk :=
  encodeSparse start (fun i => if ac i && bc i then aw i &&& bw i else 0) fun i => ac i && bc i

/-- The numbers that are in both of two chunks that overlap. -/
def meetOverlap (acc : List Chunk) (a b : Chunk) : List Chunk :=
  if ¬a.isRle ∧ ¬b.isRle ∧ a.start = b.start then
    appendEncoded acc (meetEncoded a.start a.words b.words a.capFlags b.capFlags)
  else if a.isRle ∧ b.isRle then
    let aSetEnd := a.start + rleLength a.desc
    let bSetEnd := b.start + rleLength b.desc
    appendRun acc (if b.start < a.start then a.start else b.start)
      (if aSetEnd < bSetEnd then aSetEnd else bSetEnd)
  else if a.isRle ∧ ¬b.isRle then
    appendEncoded acc (meetEncoded b.start (expandRle a b.start) b.words b.capFlags b.capFlags)
  else if ¬a.isRle ∧ b.isRle then
    appendEncoded acc (meetEncoded a.start a.words (expandRle b a.start) a.capFlags a.capFlags)
  else
    appendEncoded acc (meetEncoded a.start a.words b.words a.capFlags b.capFlags)

/-- A pass of the loop of `sm_intersection` over the first chunks of both maps. -/
def meetStep (a b : Chunk) (as bs acc : List Chunk) : MeetState :=
  if a.stop ≤ b.start then ⟨as, b :: bs, acc⟩
  else if b.stop ≤ a.start then ⟨a :: as, bs, acc⟩
  else
    ⟨if a.stop ≤ b.stop then as else a :: as, if b.stop ≤ a.stop then bs else b :: bs,
      meetOverlap acc a b⟩

/-- The loop of `sm_intersection`, with fuel for the chunks of both maps. -/
def meetLoop : ℕ → MeetState → MeetState
  | 0, s => s
  | fuel + 1, s =>
      match s.a, s.b with
      | a :: as, b :: bs => meetLoop fuel (meetStep a b as bs s.acc)
      | _, _ => s

/-- `sm_intersection` on maps with chunks: `NULL` if the result has none. -/
def intersectChunks (a b : List Chunk) : Option (List Chunk) :=
  if a = [] ∨ b = [] then none
  else
    let acc := (meetLoop (a.length + b.length) ⟨a, b, []⟩).acc
    if acc = [] then none else some acc.reverse

/-! ## The chunks of a pass -/

section

variable {a b c : Chunk} {acc : List Chunk} {f n : ℕ}

/-- The numbers of two windows, intersected. -/
theorem inWindow_and {v w : ℕ → ℕ} {start : ℕ} :
    InWindow (fun i => v i &&& w i) start n ↔ InWindow v start n ∧ InWindow w start n := by
  unfold InWindow
  rw [Nat.testBit_and, Bool.and_eq_true]
  tauto

/-- What lies in a window depends on its words. -/
theorem inWindow_congr {v w : ℕ → ℕ} {start : ℕ} (h : ∀ i < 32, v i = w i) :
    InWindow v start n ↔ InWindow w start n := by
  unfold InWindow
  constructor
  · rintro ⟨hs, he, hbit⟩
    rw [h _ (by omega)] at hbit
    exact ⟨hs, he, hbit⟩
  · rintro ⟨hs, he, hbit⟩
    rw [← h _ (by omega)] at hbit
    exact ⟨hs, he, hbit⟩

/-- Two windows that have room everywhere are appended as their intersection. -/
theorem meetEncoded_appended {aw bw : ℕ → ℕ} {ac bc : ℕ → Bool} (h : Below f acc)
    (hf : f ≤ c.start) (hc : c.Ok) (hs : ¬c.isRle) (hac : ∀ i < 32, ac i = true)
    (hbc : ∀ i < 32, bc i = true) (hbw : ∀ i < 32, bw i < 2 ^ 64) :
    Appended acc (fun n => InWindow aw c.start n ∧ InWindow bw c.start n) c.stop
      (appendEncoded acc (meetEncoded c.start aw bw ac bc)) := by
  have hstop : c.stop = c.start + 2048 := by rw [Chunk.stop, hc.capacity_of_sparse hs]
  have hlt := hc.stop_lt
  have hcap : ∀ i < 32, (ac i && bc i) = true := fun i hi => by rw [hac i hi, hbc i hi]; rfl
  rw [hstop] at hlt ⊢
  refine (appendEncoded_appended h hf hc.aligned hlt hcap fun i hi => ?_).congr fun n => ?_
  · rw [if_pos (hcap i hi)]
    exact Nat.and_lt_two_pow _ (hbw i hi)
  · rw [← inWindow_and]
    exact inWindow_congr fun i hi => if_pos (hcap i hi)

/-- The intersection of two chunks that overlap is appended. -/
theorem meetOverlap_appended (h : Below f acc) (ha : a.Ok) (hb : b.Ok)
    (hf : f ≤ a.start ∨ f ≤ b.start) (hab : b.start < a.stop) (hba : a.start < b.stop) :
    ∃ f', Appended acc (fun n => a.Holds n ∧ b.Holds n) f' (meetOverlap acc a b) ∧
      f' ≤ a.stop ∧ f' ≤ b.stop := by
  have hala := ha.aligned
  have halb := hb.aligned
  have hla := ha.start_add_le_stop
  have hlb := hb.start_add_le_stop
  have henda := ha.dvd_stop
  have hendb := hb.dvd_stop
  have hlt := ha.stop_lt
  have hsparse : ∀ c : Chunk, c.Ok → ¬c.isRle → c.stop = c.start + 2048 := fun c hc hs => by
    rw [Chunk.stop, hc.capacity_of_sparse hs]
  unfold meetOverlap
  by_cases hra : a.isRle <;> by_cases hrb : b.isRle
  · rw [if_neg fun hs => hs.1 hra, if_pos ⟨hra, hrb⟩]
    dsimp only
    have hlena := (ha.rle hra).2.1
    have hlenb := (hb.rle hrb).2.1
    have hstopa : a.stop = a.start + rleCapacity a.desc := by
      rw [Chunk.stop, Chunk.capacity_of_rle hra]
    have hstopb : b.stop = b.start + rleCapacity b.desc := by
      rw [Chunk.stop, Chunk.capacity_of_rle hrb]
    obtain ⟨stop, hdvd, hsa, hsb, hmin⟩ : ∃ stop, 2048 ∣ stop ∧ stop ≤ a.stop ∧ stop ≤ b.stop ∧
        (stop = a.stop ∨ stop = b.stop) := by
      rcases le_total a.stop b.stop with hle | hle
      · exact ⟨a.stop, henda, le_rfl, hle, Or.inl rfl⟩
      · exact ⟨b.stop, hendb, hle, le_rfl, Or.inr rfl⟩
    refine ⟨stop, ?_, hsa, hsb⟩
    by_cases hsome : (if b.start < a.start then a.start else b.start) <
        if a.start + rleLength a.desc < b.start + rleLength b.desc then
          a.start + rleLength a.desc else b.start + rleLength b.desc
    · refine (appendRun_appended h ?_ ?_ hsome hdvd ?_ (by omega)).congr fun n => ?_
      · split_ifs <;> omega
      · split_ifs <;> omega
      · split_ifs <;> omega
      · rw [ha.holds_of_rle hra, hb.holds_of_rle hrb]
        split_ifs <;> omega
    · have hnone : ∀ lo hi, ¬lo < hi → appendRun acc lo hi = acc := fun lo hi hle =>
        if_pos (Nat.le_of_not_lt hle)
      rw [hnone _ _ hsome]
      refine (h.mono ?_).appended fun n => ?_
      · omega
      · rw [ha.holds_of_rle hra, hb.holds_of_rle hrb]
        split_ifs at hsome <;> omega
  · have hstop := hsparse b hb hrb
    rw [if_neg fun hs => hs.1 hra, if_neg fun hr => hrb hr.2, if_pos ⟨hra, hrb⟩]
    refine ⟨b.stop, ?_, by omega, le_rfl⟩
    refine (meetEncoded_appended h (by omega) hb hrb (fun i hi => hb.capFlags_of_sparse hrb hi)
      (fun i hi => hb.capFlags_of_sparse hrb hi)
      fun i _ => Chunk.words_lt hb.vecs_lt i).congr fun n => ?_
    rw [inWindow_expandRle, ha.holds_of_rle hra, hb.holds_of_sparse hrb]
    constructor
    · rintro ⟨⟨-, hrun⟩, hwin⟩
      exact ⟨hrun, hwin⟩
    · rintro ⟨hrun, hwin⟩
      exact ⟨⟨⟨hwin.1, hwin.2.1⟩, hrun⟩, hwin⟩
  · have hstop := hsparse a ha hra
    rw [if_neg fun hs => hs.2.1 hrb, if_neg fun hr => hra hr.1, if_neg fun hr => hra hr.1,
      if_pos ⟨hra, hrb⟩]
    refine ⟨a.stop, ?_, le_rfl, by omega⟩
    refine (meetEncoded_appended h (by omega) ha hra (fun i hi => ha.capFlags_of_sparse hra hi)
      (fun i hi => ha.capFlags_of_sparse hra hi) fun i _ => expandRle_lt _ _ _).congr fun n => ?_
    rw [inWindow_expandRle, ha.holds_of_sparse hra, hb.holds_of_rle hrb]
    constructor
    · rintro ⟨hwin, -, hrun⟩
      exact ⟨hwin, hrun⟩
    · rintro ⟨hwin, hrun⟩
      exact ⟨hwin, ⟨hwin.1, hwin.2.1⟩, hrun⟩
  · have hstopa := hsparse a ha hra
    have hstopb := hsparse b hb hrb
    have heq : a.start = b.start := by omega
    rw [if_pos ⟨hra, hrb, heq⟩]
    refine ⟨a.stop, ?_, le_rfl, by omega⟩
    refine (meetEncoded_appended h (by omega) ha hra (fun i hi => ha.capFlags_of_sparse hra hi)
      (fun i hi => hb.capFlags_of_sparse hrb hi)
      fun i _ => Chunk.words_lt hb.vecs_lt i).congr fun n => ?_
    rw [ha.holds_of_sparse hra, hb.holds_of_sparse hrb, heq]

end

/-! ## The intersection -/

/-- The chunks appended so far are in order, and both maps are. What is left of one of them comes
after the chunks. -/
structure MeetState.Ordered (f : ℕ) (s : MeetState) : Prop where
  below : Below f s.acc
  a : Laid s.a
  b : Laid s.b
  after : (∀ c ∈ s.a, f ≤ c.start) ∨ ∀ c ∈ s.b, f ≤ c.start

/-- The numbers appended so far, and those left in both maps. -/
def MeetState.Shows (s : MeetState) (n : ℕ) : Prop := Has s.acc n ∨ Has s.a n ∧ Has s.b n

section

variable {a b : Chunk} {as bs acc : List Chunk} {f n : ℕ} {s : MeetState}

/-- A number of the first chunk is before those of the later ones. -/
theorem Laid.not_has_of_lt (h : Laid (a :: as)) (hn : n < a.stop) : ¬Has as n :=
  fun has => absurd (h.le_of_has has) (Nat.not_le_of_lt hn)

/-- If both first chunks are left, nothing of one is in the later chunks of the other. -/
theorem meet_both {A As B Bs C : Prop} (hbs : A → ¬Bs) (has : B → ¬As) :
    (C ∨ A ∧ B) ∨ As ∧ Bs ↔ C ∨ (A ∨ As) ∧ (B ∨ Bs) := by
  tauto

/-- If one first chunk is left, nothing of it is in the later chunks of the other. -/
theorem meet_first {A As B Bs C : Prop} (hbs : A → ¬Bs) :
    (C ∨ A ∧ B) ∨ As ∧ (B ∨ Bs) ↔ C ∨ (A ∨ As) ∧ (B ∨ Bs) := by
  tauto

/-- Where the first of one list is done, only the rest of it can meet the other list. -/
theorem meet_second {A As B Bs C : Prop} (has : B → ¬As) :
    (C ∨ A ∧ B) ∨ (A ∨ As) ∧ Bs ↔ C ∨ (A ∨ As) ∧ (B ∨ Bs) := by
  tauto

/-- A pass keeps the order, and loses no number and adds none. -/
theorem meetStep_spec (h : MeetState.Ordered f ⟨a :: as, b :: bs, acc⟩) :
    (∃ f', (meetStep a b as bs acc).Ordered f') ∧
      ∀ n, (meetStep a b as bs acc).Shows n ↔ MeetState.Shows ⟨a :: as, b :: bs, acc⟩ n := by
  obtain ⟨hbelow, hla, hlb, hafter⟩ := h
  dsimp only at hbelow hla hlb hafter
  unfold meetStep
  by_cases hafirst : a.stop ≤ b.start
  · rw [if_pos hafirst]
    refine ⟨⟨f, hbelow, hla.tail, hlb, ?_⟩, fun n => ?_⟩
    · exact hafter.imp (fun hall c hc => hall c (List.mem_cons_of_mem _ hc)) id
    · have hno : ¬(a.Holds n ∧ Has (b :: bs) n) := by
        rintro ⟨hn, hhas⟩
        have hlt := hn.2.1
        rcases has_cons.mp hhas with hbn | hbs
        · have hle := hbn.1
          omega
        · have hle := hlb.le_of_has hbs
          have hstart := hlb.head.start_lt_stop
          omega
      unfold MeetState.Shows
      dsimp only
      rw [has_cons (c := a)]
      tauto
  rw [if_neg hafirst]
  by_cases hbfirst : b.stop ≤ a.start
  · rw [if_pos hbfirst]
    refine ⟨⟨f, hbelow, hla, hlb.tail, ?_⟩, fun n => ?_⟩
    · exact hafter.imp id fun hall c hc => hall c (List.mem_cons_of_mem _ hc)
    · have hno : ¬(Has (a :: as) n ∧ b.Holds n) := by
        rintro ⟨hhas, hn⟩
        have hlt := hn.2.1
        rcases has_cons.mp hhas with han | has
        · have hle := han.1
          omega
        · have hle := hla.le_of_has has
          have hstart := hla.head.start_lt_stop
          omega
      unfold MeetState.Shows
      dsimp only
      rw [has_cons (c := b)]
      tauto
  rw [if_neg hbfirst]
  obtain ⟨f', happ, hfa, hfb⟩ := meetOverlap_appended hbelow hla.head hlb.head
    (hafter.imp (fun hall => hall a List.mem_cons_self) fun hall => hall b List.mem_cons_self)
    (Nat.lt_of_not_le hafirst) (Nat.lt_of_not_le hbfirst)
  refine ⟨⟨f', happ.below, ?_, ?_, ?_⟩, fun n => ?_⟩
  · dsimp only
    split_ifs
    · exact hla.tail
    · exact hla
  · dsimp only
    split_ifs
    · exact hlb.tail
    · exact hlb
  · dsimp only
    -- The chunk that ends first is left, and the later ones start after it.
    rcases le_total a.stop b.stop with hle | hle
    · rw [if_pos hle]
      exact Or.inl fun c hc => hfa.trans (hla.le_start hc)
    · rw [if_pos hle]
      exact Or.inr fun c hc => hfb.trans (hlb.le_start hc)
  · have hna : b.stop ≤ a.stop → b.Holds n → ¬Has as n := fun hle hn =>
      hla.not_has_of_lt (hn.2.1.trans_le hle)
    have hnb : a.stop ≤ b.stop → a.Holds n → ¬Has bs n := fun hle hn =>
      hlb.not_has_of_lt (hn.2.1.trans_le hle)
    unfold MeetState.Shows
    dsimp only
    rw [happ.2 n]
    by_cases hle : a.stop ≤ b.stop <;> by_cases hle' : b.stop ≤ a.stop
    · rw [if_pos hle, if_pos hle', has_cons (c := a), has_cons (c := b)]
      exact meet_both (hnb hle) (hna hle')
    · rw [if_pos hle, if_neg hle', has_cons (c := a), has_cons (c := b)]
      exact meet_first (hnb hle)
    · rw [if_neg hle, if_pos hle', has_cons (c := a), has_cons (c := b)]
      exact meet_second (hna hle')
    · omega

/-- A pass leaves at least one chunk. -/
theorem length_meetStep (a b : Chunk) (as bs acc : List Chunk) :
    (meetStep a b as bs acc).a.length + (meetStep a b as bs acc).b.length <
      (a :: as).length + (b :: bs).length := by
  unfold meetStep
  by_cases hafirst : a.stop ≤ b.start
  · rw [if_pos hafirst]
    dsimp only [List.length_cons]
    omega
  rw [if_neg hafirst]
  by_cases hbfirst : b.stop ≤ a.start
  · rw [if_pos hbfirst]
    dsimp only [List.length_cons]
    omega
  rw [if_neg hbfirst]
  dsimp only
  split_ifs
  all_goals
    dsimp only [List.length_cons]
    omega

/-- The walk keeps the order, loses no number and adds none, and leaves all chunks of one map. -/
theorem meetLoop_spec (fuel : ℕ) (h : s.Ordered f) (hfuel : s.a.length + s.b.length ≤ fuel) :
    (∃ f', (meetLoop fuel s).Ordered f') ∧ (∀ n, (meetLoop fuel s).Shows n ↔ s.Shows n) ∧
      ((meetLoop fuel s).a = [] ∨ (meetLoop fuel s).b = []) := by
  induction fuel generalizing s f with
  | zero =>
    refine ⟨⟨f, h⟩, fun n => Iff.rfl, Or.inl ?_⟩
    rw [meetLoop]
    exact List.eq_nil_of_length_eq_zero (by omega)
  | succ fuel ih =>
    obtain ⟨ca, cb, acc⟩ := s
    cases ca with
    | nil => exact ⟨⟨f, h⟩, fun n => Iff.rfl, Or.inl rfl⟩
    | cons a as =>
      cases cb with
      | nil => exact ⟨⟨f, h⟩, fun n => Iff.rfl, Or.inr rfl⟩
      | cons b bs =>
        obtain ⟨⟨f', hord⟩, hshows⟩ := meetStep_spec h
        have hlen := length_meetStep a b as bs acc
        obtain ⟨hord', hshows', hend⟩ := ih hord (by dsimp only at hfuel; omega)
        exact ⟨hord', fun n => (hshows' n).trans (hshows n), hend⟩

/-- The intersection of two maps has the numbers that both have, in chunks that are in order. -/
theorem intersectChunks_spec {ca cb : List Chunk} (ha : Laid ca) (hb : Laid cb) :
    (intersectChunks ca cb).map members = smIntersection (members ca) (members cb) ∧
      ∀ cs ∈ intersectChunks ca cb, Laid cs := by
  by_cases hnil : ca = [] ∨ cb = []
  · have hmeet : members ca ∩ members cb = ∅ := by
      rcases hnil with rfl | rfl
      · exact Finset.empty_inter _
      · exact Finset.inter_empty _
    rw [intersectChunks, if_pos hnil, smIntersection, if_pos hmeet]
    exact ⟨rfl, fun cs hcs => absurd hcs (by simp)⟩
  have hord : MeetState.Ordered 0 ⟨ca, cb, []⟩ :=
    ⟨trivial, ha, hb, Or.inl fun _ _ => Nat.zero_le _⟩
  obtain ⟨⟨f, hbelow, -, -, -⟩, hshows, hend⟩ := meetLoop_spec (ca.length + cb.length) hord le_rfl
  unfold intersectChunks
  rw [if_neg hnil]
  generalize meetLoop (ca.length + cb.length) ⟨ca, cb, []⟩ = s at hbelow hshows hend ⊢
  have hhas : ∀ n, Has s.acc n ↔ Has ca n ∧ Has cb n := by
    intro n
    have hno : ¬(Has s.a n ∧ Has s.b n) := by
      rintro ⟨hna, hnb⟩
      rcases hend with hnil | hnil
      · exact not_has_nil n (hnil ▸ hna)
      · exact not_has_nil n (hnil ▸ hnb)
    have hstart := hshows n
    unfold MeetState.Shows at hstart
    rw [or_iff_left hno, or_iff_right (not_has_nil n)] at hstart
    exact hstart
  have hmem : members ca ∩ members cb = members s.acc := by
    ext n
    rw [Finset.mem_inter, mem_members, mem_members, mem_members, hhas]
  dsimp only
  rw [smIntersection, hmem]
  by_cases hacc : s.acc = []
  · have hempty : members s.acc = ∅ := by
      rw [hacc]
      rfl
    rw [if_pos hacc, if_pos hempty]
    exact ⟨rfl, fun cs hcs => absurd hcs (by simp)⟩
  · have hlaid := hbelow.laid.1
    have hrev : members s.acc.reverse = members s.acc := by
      ext n
      rw [mem_members, mem_members, has_reverse]
    have hne : members s.acc ≠ ∅ := by
      rw [← hrev]
      exact members_ne_empty hlaid (by simpa using hacc)
    rw [if_neg hacc, if_neg hne, Option.map_some, hrev]
    exact ⟨rfl, fun cs hcs => Option.some.inj hcs ▸ hlaid⟩

end

end PgTre.Sparsemap
