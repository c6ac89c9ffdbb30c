import PgTre.Sparsemap.Add
import PgTre.Sparsemap.Emit
import PgTre.Sparsemap.Runs

/-!
# Adding many numbers to a sparsemap

`__sm_add_many_core` of `src/util/sparsemap.c`. The numbers are sorted and put into runs, and a sweep
over the runs of the map and these runs emits a new map, whose runs are then joined.
-/

namespace PgTre.Sparsemap

/-! ## The runs of some numbers -/

/-- The loop of `__sm_coalesce_sorted`, with the run that may still grow. -/
def coalesceFrom (r : ℕ × ℕ) : List ℕ → List (ℕ × ℕ)
  | [] => [r]
  | v :: vs =>
      if v ≤ r.2 then coalesceFrom (if v = r.2 then (r.1, v + 1) else r) vs
      else r :: coalesceFrom (v, v + 1) vs

/-- `__sm_coalesce_sorted`. -/
def coalesceSorted : List ℕ → List (ℕ × ℕ)
  | [] => []
  | v :: vs => coalesceFrom (v, v + 1) vs

/-! ## The sweep -/

/-- The runs of a map from the one in hand on, some other runs, where the sweep is, and the emitter. -/
structure Sweep where
  a : List (ℕ × ℕ)
  b : List (ℕ × ℕ)
  pos : Option ℕ
  e : Emitter

/-- Where the first of two runs starts. -/
def firstLo (a b : Option (ℕ × ℕ)) : ℕ :=
  match a, b with
  | none, none => 0
  | none, some s => s.1
  | some r, none => r.1
  | some r, some s => if s.1 < r.1 then s.1 else r.1

/-- A run has a number. -/
def covers (r : Option (ℕ × ℕ)) (pos : ℕ) : Bool := r.any fun r => r.1 ≤ pos && pos < r.2

/-- The next number at which a run starts or ends, if it comes before another. -/
def nextBound (r : Option (ℕ × ℕ)) (pos next : ℕ) : ℕ :=
  match r with
  | none => next
  | some r =>
      let next := if pos < r.1 ∧ r.1 < next then r.1 else next
      if r.1 ≤ pos ∧ r.2 < next then r.2 else next

/-- A run that has ended gives way to what is left. -/
def passed (rs : List (ℕ × ℕ)) (pos : ℕ) (rest : List (ℕ × ℕ)) : List (ℕ × ℕ) :=
  match rs with
  | [] => []
  | r :: _ => if r.2 ≤ pos then rest else rs

/-- Where the sweep goes on: a gap before the runs that are left is skipped. -/
def sweepPos (s : Sweep) : ℕ :=
  let lo := firstLo s.a.head? s.b.head?
  match s.pos with
  | none => lo
  | some pos => if pos < lo then lo else pos

/-- One round of the loop of `__sm_union_runs`. -/
def sweepStep (s : Sweep) : Sweep :=
  let a := s.a.head?
  let b := s.b.head?
  let pos := sweepPos s
  let next := nextBound b pos (nextBound a pos (2 ^ 64 - 1))
  ⟨passed s.a next (runNext s.a.tail), passed s.b next s.b.tail, some next,
    if covers a pos || covers b pos then emitRun s.e pos next else s.e⟩

/-- The loop of `__sm_union_runs`. -/
def sweepLoop : ℕ → Sweep → Sweep
  | 0, s => s
  | fuel + 1, s => if s.a = [] ∧ s.b = [] then s else sweepLoop fuel (sweepStep s)

/-- `__sm_union_runs`, with the runs of the map as they are decoded. A round passes the start or the
end of a run. -/
def unionRuns (raw runs : List (ℕ × ℕ)) : List Chunk :=
  let s := sweepLoop (2 * (raw.length + runs.length)) ⟨runNext raw, runs, none, ⟨[], none⟩⟩
  coalesceMap (emitFlush s.e).acc.reverse

/-- `__sm_add_many_core`, up to the buffer that the new map goes to. -/
def addManyCore (raw : List (ℕ × ℕ)) (arr : List ℕ) : List Chunk :=
  unionRuns raw (coalesceSorted (arr.mergeSort fun m n => m ≤ n))

/-! ## Runs in order -/

section

variable {r : ℕ × ℕ} {rs rest raw runs : List (ℕ × ℕ)} {vs arr : List ℕ} {cs : List Chunk}
  {pos next fuel f n : ℕ} {s : Sweep} {P : ℕ → Prop}

/-- The runs from a list of numbers cover the first run and the list. -/
theorem coalesceFrom_spec (hr : r.1 < r.2) (hvs : vs.Pairwise (· ≤ ·))
    (hle : ∀ v ∈ vs, r.2 ≤ v + 1) : Ordered (coalesceFrom r vs) ∧
      ∀ n, Covered (coalesceFrom r vs) n ↔ (r.1 ≤ n ∧ n < r.2) ∨ n ∈ vs := by
  induction vs generalizing r with
  | nil =>
    refine ⟨ordered_cons.mpr ⟨hr, fun s hs => absurd hs List.not_mem_nil, ordered_nil⟩, fun n => ?_⟩
    exact covered_cons.trans (or_congr_right (iff_of_false (not_covered_nil n) List.not_mem_nil))
  | cons v vs ih =>
    obtain ⟨hleast, hvs⟩ := List.pairwise_cons.mp hvs
    have hv := hle v List.mem_cons_self
    rw [coalesceFrom]
    by_cases hnear : v ≤ r.2
    · rw [if_pos hnear]
      by_cases hnext : v = r.2
      · rw [if_pos hnext]
        obtain ⟨hord, hcov⟩ := @ih (r.1, v + 1) (by dsimp only; omega) hvs fun w hw =>
          Nat.succ_le_succ (hleast w hw)
        refine ⟨hord, fun n => ?_⟩
        rw [hcov, List.mem_cons, ← or_assoc]
        apply or_congr_left
        dsimp only
        omega
      · rw [if_neg hnext]
        obtain ⟨hord, hcov⟩ := ih hr hvs fun w hw => hle w (List.mem_cons_of_mem _ hw)
        refine ⟨hord, fun n => ?_⟩
        rw [hcov, List.mem_cons, ← or_assoc]
        apply or_congr_left
        omega
    · rw [if_neg hnear]
      obtain ⟨hord, hcov⟩ := @ih (v, v + 1) (Nat.lt_succ_self v) hvs fun w hw =>
        Nat.succ_le_succ (hleast w hw)
      refine ⟨ordered_cons.mpr ⟨hr, fun s hs => ?_, hord⟩, fun n => ?_⟩
      · have hlt := hord.1 s hs
        rcases (hcov s.1).mp ⟨s, hs, le_rfl, hlt⟩ with hn | hn
        · have hn' : v ≤ s.1 := hn.1
          omega
        · have hn' := hleast _ hn
          omega
      · rw [covered_cons, hcov, List.mem_cons]
        apply or_congr_right
        apply or_congr_left
        dsimp only
        omega

/-- The runs of sorted numbers have these numbers. -/
theorem coalesceSorted_spec (hvs : vs.Pairwise (· ≤ ·)) : Ordered (coalesceSorted vs) ∧
    ∀ n, Covered (coalesceSorted vs) n ↔ n ∈ vs := by
  cases vs with
  | nil => exact ⟨ordered_nil, fun n => iff_of_false (not_covered_nil n) List.not_mem_nil⟩
  | cons v vs =>
    obtain ⟨hleast, hvs⟩ := List.pairwise_cons.mp hvs
    obtain ⟨hord, hcov⟩ := @coalesceFrom_spec (v, v + 1) vs (Nat.lt_succ_self v) hvs fun w hw =>
      Nat.succ_le_succ (hleast w hw)
    refine ⟨hord, fun n => (hcov n).trans ?_⟩
    rw [List.mem_cons]
    apply or_congr_left
    dsimp only
    omega

/-! ## One side of the sweep -/

/-- The runs that are left on one side are in order, and the first has not ended. -/
def Side (rs : List (ℕ × ℕ)) (pos : ℕ) : Prop := Ordered rs ∧ ∀ r ∈ rs.head?, pos < r.2

/-- Where a run starts, or ends if it has started. -/
def edge (r : ℕ × ℕ) (pos : ℕ) : ℕ := if pos < r.1 then r.1 else r.2

/-- The starts and ends that are left. -/
def weight (rs : List (ℕ × ℕ)) (pos : ℕ) : ℕ :=
  match rs with
  | [] => 0
  | r :: rs => 2 * rs.length + if pos < r.1 then 2 else 1

/-- A list weighs at most two for each run. -/
theorem weight_le (rs : List (ℕ × ℕ)) (pos : ℕ) : weight rs pos ≤ 2 * rs.length := by
  cases rs with
  | nil => exact le_rfl
  | cons r rs =>
    rw [weight, List.length_cons]
    split_ifs <;> omega

/-- The next bound of a run is its edge or the one given. -/
theorem nextBound_some (r : ℕ × ℕ) (pos next : ℕ) :
    nextBound (some r) pos next = min (edge r pos) next := by
  unfold nextBound edge
  dsimp only
  split_ifs <;> omega

/-- The edge of a run lies ahead and inside. -/
theorem edge_spec (hr : r.1 < r.2) (hpos : pos < r.2) : pos < edge r pos ∧ edge r pos ≤ r.2 := by
  unfold edge
  split_ifs <;> omega

/-- A run covers the numbers between its ends. -/
theorem covers_some : covers (some r) pos = true ↔ r.1 ≤ pos ∧ pos < r.2 := by
  rw [covers, Option.any_some, Bool.and_eq_true, decide_eq_true_eq, decide_eq_true_eq]

/-- Up to the next start or end, a side has all numbers or none. -/
theorem Side.covers_iff (h : Side rs pos) (hnext : ∀ r ∈ rs.head?, next ≤ edge r pos) (hle : pos ≤ n)
    (hlt : n < next) : covers rs.head? pos = true ↔ Covered rs n := by
  cases rs with
  | nil => exact iff_of_false (by simp [covers]) (not_covered_nil n)
  | cons r rs =>
    have hr := h.1.head
    have hpos := h.2 r rfl
    have hedge := hnext r rfl
    have hnot : ¬Covered rs n := fun hn => by
      have hle' := h.1.le_of_covered hn
      have hend := (edge_spec hr hpos).2
      omega
    rw [List.head?_cons, covers_some, covered_cons, or_iff_left hnot]
    unfold edge at hedge
    split_ifs at hedge <;> omega

/-- The side after the next start or end. -/
theorem Side.passed (h : Side rs pos) (hnext : ∀ r ∈ rs.head?, next ≤ edge r pos) (hlt : pos < next)
    (hrest : Ordered rest) (hcov : ∀ n, Covered rest n ↔ Covered rs.tail n)
    (hlen : rest.length ≤ rs.tail.length) : Side (passed rs next rest) next ∧
      (∀ n, next ≤ n → (Covered (passed rs next rest) n ↔ Covered rs n)) ∧
      weight (passed rs next rest) next ≤ weight rs pos ∧
      ((∃ r ∈ rs.head?, next = edge r pos) → weight (passed rs next rest) next < weight rs pos) := by
  cases rs with
  | nil =>
    refine ⟨⟨ordered_nil, fun r hr => by cases hr⟩, fun n _ => Iff.rfl, le_rfl, ?_⟩
    rintro ⟨r, hr, -⟩
    cases hr
  | cons r rs =>
    have hr := h.1.head
    have hpos := h.2 r rfl
    have hedge := hnext r rfl
    have hspec := edge_spec hr hpos
    unfold Sparsemap.passed
    dsimp only
    by_cases hend : r.2 ≤ next
    · rw [if_pos hend]
      have hweight : weight rest next < weight (r :: rs) pos := by
        have hle := weight_le rest next
        rw [List.tail_cons] at hlen
        rw [weight]
        split_ifs <;> omega
      refine ⟨⟨hrest, fun s hs => ?_⟩, fun n hn => ?_, hweight.le, fun _ => hweight⟩
      · have hs' := List.mem_of_mem_head? hs
        have hlt' := hrest.1 s hs'
        have hle := h.1.le_of_covered ((hcov s.1).mp ⟨s, hs', le_rfl, hlt'⟩)
        omega
      · rw [hcov, covered_cons, List.tail_cons, or_iff_right (by omega)]
    · rw [if_neg hend]
      refine ⟨⟨h.1, fun s hs => ?_⟩, fun n _ => Iff.rfl, ?_, ?_⟩
      · cases hs
        omega
      · rw [weight, weight]
        split_ifs <;> omega
      · rintro ⟨s, hs, heq⟩
        cases hs
        rw [weight, weight]
        unfold edge at heq
        split_ifs at heq ⊢ <;> omega

/-! ## One round of the sweep -/

/-- Where the sweep is. It starts at the first number. -/
def Sweep.at (s : Sweep) : ℕ := s.pos.getD 0

/-- The numbers that the sweep has not reached. -/
def Sweep.Left (s : Sweep) (n : ℕ) : Prop := (Covered s.a n ∨ Covered s.b n) ∧ s.at ≤ n

/-- The runs end before the last window. -/
def Fits (rs : List (ℕ × ℕ)) : Prop := ∀ r ∈ rs, r.2 + 2047 < 2 ^ 64

/-- What was emitted is before the sweep, and the runs that are left have not ended. -/
structure Sweep.Ready (s : Sweep) (P : ℕ → Prop) : Prop where
  a : Side s.a s.at
  b : Side s.b s.at
  fitsA : Fits s.a
  fitsB : Fits s.b
  emits : Emits s.e s.at P

/-- The first start is the least one. -/
theorem firstLo_le {a b : Option (ℕ × ℕ)} :
    (∀ r ∈ a, firstLo a b ≤ r.1) ∧ ∀ r ∈ b, firstLo a b ≤ r.1 := by
  unfold firstLo
  cases a with
  | none =>
    cases b with
    | none => simp
    | some s => simp
  | some r =>
    cases b with
    | none => simp
    | some s =>
      simp only [Option.mem_some_iff, forall_eq']
      split_ifs <;> omega

/-- The position of the sweep moves to the first start. -/
theorem sweepPos_eq (s : Sweep) : sweepPos s = max s.at (firstLo s.a.head? s.b.head?) := by
  unfold sweepPos Sweep.at
  cases s.pos with
  | none => exact (Nat.zero_max _).symm
  | some pos =>
    rw [Option.getD_some]
    dsimp only
    split_ifs <;> omega

/-- A gap has no numbers. -/
theorem Sweep.Ready.skip (h : s.Ready P) :
    (∀ n, s.Left n ↔ (Covered s.a n ∨ Covered s.b n) ∧ sweepPos s ≤ n) ∧
      Side s.a (sweepPos s) ∧ Side s.b (sweepPos s) := by
  obtain ⟨hlea, hleb⟩ := @firstLo_le s.a.head? s.b.head?
  have hfirst : ∀ n, Covered s.a n ∨ Covered s.b n → firstLo s.a.head? s.b.head? ≤ n := by
    rintro n (hn | hn)
    · obtain ⟨r, hr, hle⟩ := Ordered.head_le h.a.1 hn
      exact (hlea r hr).trans hle
    · obtain ⟨r, hr, hle⟩ := Ordered.head_le h.b.1 hn
      exact (hleb r hr).trans hle
  rw [sweepPos_eq]
  refine ⟨fun n => ?_, ⟨h.a.1, fun r hr => ?_⟩, ⟨h.b.1, fun r hr => ?_⟩⟩
  · unfold Sweep.Left
    constructor
    · rintro ⟨hn, hle⟩
      exact ⟨hn, max_le hle (hfirst n hn)⟩
    · rintro ⟨hn, hle⟩
      exact ⟨hn, (le_max_left _ _).trans hle⟩
  · have hlt := h.a.1.1 r (List.mem_of_mem_head? hr)
    exact max_lt (h.a.2 r hr) ((hlea r hr).trans_lt hlt)
  · have hlt := h.b.1.1 r (List.mem_of_mem_head? hr)
    exact max_lt (h.b.2 r hr) ((hleb r hr).trans_lt hlt)

/-- The next start or end of two sides is after the sweep, and one side has it. -/
theorem nextBound_spec {as bs : List (ℕ × ℕ)} (ha : Side as pos) (hb : Side bs pos) (hfa : Fits as)
    (hfb : Fits bs) (hne : ¬(as = [] ∧ bs = []))
    (hnext : next = nextBound bs.head? pos (nextBound as.head? pos (2 ^ 64 - 1))) :
    pos < next ∧ next + 2047 < 2 ^ 64 ∧ (∀ r ∈ as.head?, next ≤ edge r pos) ∧
      (∀ r ∈ bs.head?, next ≤ edge r pos) ∧
      ((∃ r ∈ as.head?, next = edge r pos) ∨ ∃ r ∈ bs.head?, next = edge r pos) := by
  have hedge : ∀ rs, Side rs pos → Fits rs → ∀ r ∈ rs.head?, pos < edge r pos ∧
      edge r pos + 2047 < 2 ^ 64 := by
    intro rs hrs hfits r hr
    have hmem := List.mem_of_mem_head? hr
    have hspec := edge_spec (hrs.1.1 r hmem) (hrs.2 r hr)
    have hfit := hfits r hmem
    exact ⟨hspec.1, by omega⟩
  have hea := hedge as ha hfa
  have heb := hedge bs hb hfb
  cases as with
  | nil =>
    cases bs with
    | nil => exact absurd ⟨rfl, rfl⟩ hne
    | cons r bs =>
      have her := heb r rfl
      rw [List.head?_cons, List.head?_nil, nextBound_some, nextBound] at hnext
      have heq : next = edge r pos := by omega
      simp only [List.head?_cons, List.head?_nil, Option.mem_some_iff, forall_eq']
      exact ⟨by omega, by omega, by simp, heq.le, Or.inr ⟨r, rfl, heq⟩⟩
  | cons q as =>
    have heq := hea q rfl
    cases bs with
    | nil =>
      rw [List.head?_cons, List.head?_nil, nextBound, nextBound_some] at hnext
      have heq' : next = edge q pos := by omega
      simp only [List.head?_cons, List.head?_nil, Option.mem_some_iff, forall_eq']
      exact ⟨by omega, by omega, heq'.le, by simp, Or.inl ⟨q, rfl, heq'⟩⟩
    | cons r bs =>
      have her := heb r rfl
      rw [List.head?_cons, List.head?_cons, nextBound_some, nextBound_some] at hnext
      simp only [List.head?_cons, Option.mem_some_iff, forall_eq', exists_eq_left']
      omega

/-- Passing a run leaves a fitting rest. -/
theorem Fits.passed (h : Fits rs) (hrest : Fits rest) : Fits (Sparsemap.passed rs pos rest) := by
  cases rs with
  | nil => exact h
  | cons r rs =>
    unfold Sparsemap.passed
    dsimp only
    split_ifs
    · exact hrest
    · exact h

/-- Runs with fewer numbers do not end later. -/
theorem Fits.of_covered (h : Fits rs) (hrest : Ordered rest)
    (hcov : ∀ n, Covered rest n → Covered rs n) : Fits rest := by
  intro r hr
  have hlt := hrest.1 r hr
  obtain ⟨q, hq, -, hend⟩ := hcov (r.2 - 1) ⟨r, hr, by omega, by omega⟩
  have hfit := h q hq
  omega

/-- Moving on lowers the weight. -/
theorem weight_anti {pos' : ℕ} (rs : List (ℕ × ℕ)) (hle : pos ≤ pos') :
    weight rs pos' ≤ weight rs pos := by
  cases rs with
  | nil => exact le_rfl
  | cons r rs =>
    rw [weight, weight]
    split_ifs <;> omega

/-- A side has what it had, from some number on. -/
theorem left_of_passed {A A' B B' : Prop} (hle : pos ≤ next) (ha : next ≤ n → (A' ↔ A))
    (hb : next ≤ n → (B' ↔ B)) (hP : P n ↔ (A ∨ B) ∧ pos ≤ n ∧ n < next) :
    P n ∨ (A' ∨ B') ∧ next ≤ n ↔ (A ∨ B) ∧ pos ≤ n := by
  by_cases hn : next ≤ n
  · rw [ha hn, hb hn, hP]
    have hlt : ¬n < next := by omega
    have hle' : pos ≤ n := by omega
    tauto
  · have hlt : n < next := by omega
    tauto

/-- One round moves what it passes to the emitter. -/
theorem sweepStep_spec (h : s.Ready P) (hne : ¬(s.a = [] ∧ s.b = []))
    (hshort : Short fun n => P n ∨ s.Left n) : ∃ Q : ℕ → Prop, (sweepStep s).Ready Q ∧
      (∀ n, Q n ∨ (sweepStep s).Left n ↔ P n ∨ s.Left n) ∧
      weight (sweepStep s).a (sweepStep s).at + weight (sweepStep s).b (sweepStep s).at <
        weight s.a s.at + weight s.b s.at := by
  obtain ⟨hleft, ha, hb⟩ := h.skip
  have hat : s.at ≤ sweepPos s := by
    rw [sweepPos_eq]
    exact le_max_left _ _
  have hwa := weight_anti s.a hat
  have hwb := weight_anti s.b hat
  unfold sweepStep
  dsimp only
  generalize hnext : nextBound s.b.head? (sweepPos s)
    (nextBound s.a.head? (sweepPos s) (2 ^ 64 - 1)) = next
  generalize sweepPos s = pos at hleft ha hb hat hwa hwb hnext ⊢
  obtain ⟨hlt, hfit, hnexta, hnextb, hedge⟩ := nextBound_spec ha hb h.fitsA h.fitsB hne hnext.symm
  have htail : Ordered s.a.tail := by
    cases hs : s.a with
    | nil => exact ordered_nil
    | cons r rs => exact (hs ▸ ha.1).tail
  obtain ⟨hordn, hcovn, hlenn⟩ := runNext_spec htail
  obtain ⟨hsidea, hcova, hweighta, hlessa⟩ := ha.passed hnexta hlt hordn hcovn hlenn
  have htailb : Ordered s.b.tail := by
    cases hs : s.b with
    | nil => exact ordered_nil
    | cons r rs => exact (hs ▸ hb.1).tail
  obtain ⟨hsideb, hcovb, hweightb, hlessb⟩ := hb.passed hnextb hlt htailb (fun _ => Iff.rfl) le_rfl
  have hfitsa : Fits (runNext s.a.tail) := h.fitsA.of_covered hordn fun n hn => by
    obtain ⟨r, hr, hin⟩ := (hcovn n).mp hn
    exact ⟨r, List.mem_of_mem_tail hr, hin⟩
  have hfitsb : Fits s.b.tail := fun r hr => h.fitsB r (List.mem_of_mem_tail hr)
  have hcovers : ∀ n, pos ≤ n → n < next → ((covers s.a.head? pos || covers s.b.head? pos) = true ↔
      Covered s.a n ∨ Covered s.b n) := by
    intro n hle hlt'
    rw [Bool.or_eq_true, ha.covers_iff hnexta hle hlt', hb.covers_iff hnextb hle hlt']
  have hemits : ∃ Q : ℕ → Prop, Emits (if (covers s.a.head? pos || covers s.b.head? pos) = true then
      emitRun s.e pos next else s.e) next Q ∧
        ∀ n, Q n ↔ P n ∨ (Covered s.a n ∨ Covered s.b n) ∧ pos ≤ n ∧ n < next := by
    by_cases hcover : (covers s.a.head? pos || covers s.b.head? pos) = true
    · rw [if_pos hcover]
      have hrun : next - pos ≤ 2 ^ 31 - 2048 := by
        apply hshort
        intro n hle hlt'
        exact Or.inr ((hleft n).mpr ⟨(hcovers n hle hlt').mp hcover, hle⟩)
      refine ⟨_, emitRun_spec h.emits hat (by omega) hfit hlt, fun n => or_congr_right ?_⟩
      constructor
      · rintro ⟨hle, hlt'⟩
        exact ⟨(hcovers n hle hlt').mp hcover, hle, hlt'⟩
      · rintro ⟨-, hin⟩
        exact hin
    · rw [if_neg hcover]
      refine ⟨P, h.emits.mono (by omega), fun n => (or_iff_left ?_).symm⟩
      rintro ⟨hn, hle, hlt'⟩
      exact hcover ((hcovers n hle hlt').mpr hn)
  obtain ⟨Q, hemits, hQ⟩ := hemits
  refine ⟨Q, ⟨hsidea, hsideb, h.fitsA.passed hfitsa, h.fitsB.passed hfitsb, hemits⟩, fun n => ?_, ?_⟩
  · rw [hQ, hleft, or_assoc]
    apply or_congr_right
    exact @left_of_passed pos next n (fun n => (Covered s.a n ∨ Covered s.b n) ∧ pos ≤ n ∧ n < next)
      (Covered s.a n) _ (Covered s.b n) _ hlt.le (hcova n) (hcovb n) Iff.rfl
  · have hless : weight (Sparsemap.passed s.a next (runNext s.a.tail)) next +
        weight (Sparsemap.passed s.b next s.b.tail) next < weight s.a pos + weight s.b pos := by
      rcases hedge with hedge | hedge
      · have := hlessa hedge
        omega
      · have := hlessb hedge
        omega
    exact hless.trans_le (Nat.add_le_add hwa hwb)

/-- When no run is left, all numbers are emitted. -/
theorem Sweep.Ready.done (h : s.Ready P) (hdone : s.a = [] ∧ s.b = []) :
    Emits s.e s.at fun n => P n ∨ s.Left n := by
  refine h.emits.congr fun n => (or_iff_left ?_).symm
  rw [Sweep.Left, hdone.1, hdone.2]
  rintro ⟨hn | hn, -⟩ <;> exact not_covered_nil n hn

/-- A list without weight is empty. -/
theorem eq_nil_of_weight (h : weight rs pos = 0) : rs = [] := by
  cases rs with
  | nil => rfl
  | cons r rs =>
    rw [weight] at h
    split_ifs at h

/-- The sweep emits what is left. -/
theorem sweepLoop_spec (fuel : ℕ) (h : s.Ready P) (hfuel : weight s.a s.at + weight s.b s.at ≤ fuel)
    (hshort : Short fun n => P n ∨ s.Left n) :
    ∃ f, Emits (sweepLoop fuel s).e f fun n => P n ∨ s.Left n := by
  induction fuel generalizing s P with
  | zero =>
    exact ⟨_, h.done ⟨@eq_nil_of_weight s.a s.at (by omega), @eq_nil_of_weight s.b s.at (by omega)⟩⟩
  | succ fuel ih =>
    rw [sweepLoop]
    by_cases hend : s.a = [] ∧ s.b = []
    · rw [if_pos hend]
      exact ⟨_, h.done hend⟩
    · rw [if_neg hend]
      obtain ⟨Q, hready, hQ, hless⟩ := sweepStep_spec h hend hshort
      obtain ⟨f, hemits⟩ := ih hready (by omega) (hshort.congr hQ)
      exact ⟨f, hemits.congr hQ⟩

/-! ## The new map -/

/-- The map that the sweep makes has the numbers of both sides. -/
theorem unionRuns_spec (hraw : Ordered raw) (hfitsRaw : Fits raw) (hruns : Ordered runs)
    (hfits : Fits runs) (hshort : Short fun n => Covered raw n ∨ Covered runs n) :
    Laid (unionRuns raw runs) ∧
      ∀ n, Has (unionRuns raw runs) n ↔ Covered raw n ∨ Covered runs n := by
  obtain ⟨hnext, hcov, hlen⟩ := runNext_spec hraw
  have hready : Sweep.Ready ⟨runNext raw, runs, none, ⟨[], none⟩⟩ fun _ => False := by
    refine ⟨⟨hnext, fun r hr => ?_⟩, ⟨hruns, fun r hr => ?_⟩,
      hfitsRaw.of_covered hnext fun n => (hcov n).mp, hfits, trivial, fun n => ?_⟩
    · exact (Nat.zero_le _).trans_lt (hnext.1 r (List.mem_of_mem_head? hr))
    · exact (Nat.zero_le _).trans_lt (hruns.1 r (List.mem_of_mem_head? hr))
    · exact iff_of_false (not_has_nil n) id
  have hleft : ∀ n, False ∨ Sweep.Left ⟨runNext raw, runs, none, ⟨[], none⟩⟩ n ↔
      Covered raw n ∨ Covered runs n := by
    intro n
    rw [false_or, Sweep.Left, and_iff_left (show Sweep.at ⟨_, _, none, _⟩ ≤ n from Nat.zero_le n)]
    exact or_congr_left (hcov n)
  have hfuel : weight (runNext raw) 0 + weight runs 0 ≤ 2 * (raw.length + runs.length) := by
    have ha := weight_le (runNext raw) 0
    have hb := weight_le runs 0
    omega
  obtain ⟨f, hemits⟩ := sweepLoop_spec (2 * (raw.length + runs.length)) hready hfuel
    (hshort.congr hleft)
  have hend : f ≤ (f + 2047) / 2048 * 2048 := by omega
  obtain ⟨hbelow, hhas⟩ := emitFlush_spec (hemits.congr hleft) (dvd_mul_left 2048 ((f + 2047) / 2048))
    (by omega) (hemits.pending_ne hend)
  have hhas' : ∀ n, Has (emitFlush (sweepLoop (2 * (raw.length + runs.length))
      ⟨runNext raw, runs, none, ⟨[], none⟩⟩).e).acc.reverse n ↔ Covered raw n ∨ Covered runs n :=
    fun n => has_reverse.trans (hhas n)
  obtain ⟨hlaid, hhas''⟩ := coalesceMap_spec hbelow.laid.1 (hshort.congr hhas')
  exact ⟨hlaid, fun n => (hhas'' n).trans (hhas' n)⟩

/-- The runs of a map end before the last window. -/
theorem fits_rawRuns (h : Laid cs) : Fits (rawRuns cs) := by
  obtain ⟨hraw, hcov⟩ := rawRuns_spec h
  intro r hr
  have hlt := hraw.1 r hr
  obtain ⟨c, hc, -, hstop, -⟩ := (hcov (r.2 - 1)).mp ⟨r, hr, by omega, by omega⟩
  have hdvd := (h.1 c hc).dvd_stop
  have hend := (h.1 c hc).stop_lt
  omega

/-- The numbers of an array in any order, some of them maybe more than once, are added to the runs of a
map. -/
theorem addManyCore_spec (hraw : Ordered raw) (hfits : Fits raw)
    (hroom : ∀ n ∈ arr, n + 2048 < 2 ^ 64) (hshort : Short fun n => Covered raw n ∨ n ∈ arr) :
    Laid (addManyCore raw arr) ∧ ∀ n, Has (addManyCore raw arr) n ↔ Covered raw n ∨ n ∈ arr := by
  have hmem : ∀ n, n ∈ arr.mergeSort (fun m n => m ≤ n) ↔ n ∈ arr := fun n => List.mem_mergeSort
  have hsorted : (arr.mergeSort fun m n => m ≤ n).Pairwise (· ≤ ·) := by
    have hsort := @List.pairwise_mergeSort ℕ (fun m n => decide (m ≤ n))
      (fun a b c hab hbc => by simp only [decide_eq_true_eq] at *; omega)
      (fun a b => by simp only [Bool.or_eq_true, decide_eq_true_eq]; omega) arr
    simpa using hsort
  obtain ⟨hord, hcov⟩ := coalesceSorted_spec hsorted
  have hcov' : ∀ n, Covered (coalesceSorted (arr.mergeSort fun m n => m ≤ n)) n ↔ n ∈ arr :=
    fun n => (hcov n).trans (hmem n)
  have hiff : ∀ n, Covered raw n ∨ Covered (coalesceSorted (arr.mergeSort fun m n => m ≤ n)) n ↔
      Covered raw n ∨ n ∈ arr := fun n => or_congr_right (hcov' n)
  have hfits' : Fits (coalesceSorted (arr.mergeSort fun m n => m ≤ n)) := by
    intro r hr
    have hlt := hord.1 r hr
    have hroom' := hroom _ ((hcov' (r.2 - 1)).mp ⟨r, hr, by omega, by omega⟩)
    omega
  obtain ⟨hlaid, hhas⟩ := unionRuns_spec hraw hfits hord hfits' (hshort.congr hiff)
  exact ⟨hlaid, fun n => (hhas n).trans (hiff n)⟩

end

end PgTre.Sparsemap
