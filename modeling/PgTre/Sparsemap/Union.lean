import PgTre.Sparsemap.Append
import PgTre.Util.Sparsemap
import Mathlib.Algebra.GroupWithZero.Divisibility

/-!
# The union of two sparsemaps

`sm_union` of `src/util/sparsemap.c` walks through the chunks of both maps at once. A cursor for each
map says how far its first chunk is already in the result, since a run may reach over many chunks of
the other map.
-/

namespace PgTre.Sparsemap

/-! ## The walk -/

/-- What is left of a map: its chunks, and how far the first is read. -/
structure Left where
  chunks : List Chunk
  cursor : ℕ

/-- Both maps, and the chunks appended so far. -/
structure UnionState where
  a : Left
  b : Left
  acc : List Chunk

/-- A cursor is at least at the start of its chunk. -/
def clamp (c : Chunk) (cursor : ℕ) : ℕ := if cursor < c.start then c.start else cursor

/-- A chunk that is read to its end is left. -/
def advance (c : Chunk) (cs : List Chunk) (cursor : ℕ) : Left :=
  if c.stop ≤ cursor then ⟨cs, 0⟩ else ⟨c :: cs, cursor⟩

/-- What is left of a chunk is appended. -/
def copyChunk (acc : List Chunk) (c : Chunk) (cursor : ℕ) : List Chunk :=
  if cursor = c.start then c :: acc else emitChunkBits acc c cursor c.stop

/-- The vectors of a chunk from a cursor on. -/
def cursorWords (c : Chunk) (cursor : ℕ) : ℕ → ℕ :=
  if c.start < cursor then maskFrom c.words (cursor - c.start) else c.words

/-- The vectors of a chunk that have room from a cursor on. -/
def cursorFlags (c : Chunk) (cursor i : ℕ) : Bool :=
  c.capFlags i && !(c.start < cursor && i < (cursor - c.start) / 64)

/-- Two runs that overlap another are appended as one, if there is no gap between them. -/
def appendRuns (acc : List Chunk) (as ae bs be : ℕ) : List Chunk :=
  if as < ae ∧ bs < be then
    if (if as ≤ bs then bs else as) ≤ (if as ≤ bs then ae else be) then
      appendRun acc (if as < bs then as else bs) (if be < ae then ae else be)
    else
      appendRun (appendRun acc (if as ≤ bs then as else bs) (if as ≤ bs then ae else be))
        (if as ≤ bs then bs else as) (if as ≤ bs then be else ae)
  else if as < ae then appendRun acc as ae
  else if bs < be then appendRun acc bs be
  else acc

/-- Two chunks of which not both are runs, as one window. -/
def mixedChunk (a b : Chunk) : Option Chunk :=
  if a.isRle ∧ ¬b.isRle then
    encodeSparse b.start (fun i => expandRle a b.start i ||| b.words i) fun i =>
      b.capFlags i || b.capFlags i
  else if ¬a.isRle ∧ b.isRle then
    encodeSparse a.start (fun i => a.words i ||| expandRle b a.start i) fun i =>
      a.capFlags i || a.capFlags i
  else
    encodeSparse a.start (fun i => a.words i ||| b.words i) fun i => a.capFlags i || b.capFlags i

/-- The part of two chunks before a number, from their cursors on: both runs, or a window. -/
def appendOverlap (acc : List Chunk) (a b : Chunk) (ovStart ovEnd : ℕ) : List Chunk :=
  if a.isRle ∧ b.isRle then
    let aSetEnd := a.start + rleLength a.desc
    let bSetEnd := b.start + rleLength b.desc
    appendRuns acc (if a.start < ovStart then ovStart else a.start)
      (if ovEnd < aSetEnd then ovEnd else aSetEnd) (if b.start < ovStart then ovStart else b.start)
      (if ovEnd < bSetEnd then ovEnd else bSetEnd)
  else appendEncoded acc (mixedChunk a b)

/-- The bits of a chunk before the overlap are appended. -/
def appendBefore (acc : List Chunk) (c : Chunk) (cursor ovStart : ℕ) : List Chunk :=
  if cursor < ovStart then emitChunkBits acc c cursor ovStart else acc

/-- A pass of the loop of `sm_union` over the first chunks of both maps. -/
def unionStep (a b : Chunk) (s : UnionState) : UnionState :=
  let aCursor := clamp a s.a.cursor
  let bCursor := clamp b s.b.cursor
  let aRest := s.a.chunks.tail
  let bRest := s.b.chunks.tail
  if a.stop ≤ bCursor then
    ⟨⟨aRest, 0⟩, ⟨b :: bRest, bCursor⟩, copyChunk s.acc a aCursor⟩
  else if b.stop ≤ aCursor then
    ⟨⟨a :: aRest, aCursor⟩, ⟨bRest, 0⟩, copyChunk s.acc b bCursor⟩
  else if ¬a.isRle ∧ ¬b.isRle ∧ a.start = b.start then
    ⟨⟨aRest, 0⟩, ⟨bRest, 0⟩, appendEncoded s.acc (encodeSparse a.start
      (fun i => cursorWords a aCursor i ||| cursorWords b bCursor i)
      fun i => cursorFlags a aCursor i || cursorFlags b bCursor i)⟩
  else
    let ovStart := if bCursor < aCursor then aCursor else bCursor
    let ovEnd := if a.stop < b.stop then a.stop else b.stop
    let acc := appendBefore (appendBefore s.acc a aCursor ovStart) b bCursor ovStart
    -- A sparse chunk goes into its window whole, and is left even if the other run ends inside it.
    ⟨advance a aRest (if a.isRle then ovEnd else a.stop),
      advance b bRest (if b.isRle then ovEnd else b.stop),
      appendOverlap acc a b ovStart ovEnd⟩

/-- The loop of `sm_union`, with fuel for the chunks of both maps. -/
def unionLoop : ℕ → UnionState → UnionState
  | 0, s => s
  | fuel + 1, s =>
      match s.a.chunks, s.b.chunks with
      | a :: _, b :: _ => unionLoop fuel (unionStep a b s)
      | _, _ => s

/-- The loops of `sm_union` that append what is left of a map. -/
def copyRest (acc : List Chunk) : List Chunk → ℕ → List Chunk
  | [], _ => acc
  | c :: cs, cursor =>
      copyRest (if 0 < cursor ∧ c.start < cursor then emitChunkBits acc c cursor c.stop
        else c :: acc) cs 0

/-- `sm_union` on maps with chunks: `NULL` if both are empty, a copy if one is. -/
def unionChunks (a b : List Chunk) : Option (List Chunk) :=
  if a = [] ∧ b = [] then none
  else if a = [] then some b
  else if b = [] then some a
  else
    let s := unionLoop (a.length + b.length) ⟨⟨a, 0⟩, ⟨b, 0⟩, []⟩
    let acc := copyRest (copyRest s.acc s.a.chunks s.a.cursor) s.b.chunks s.b.cursor
    if acc = [] then none else some acc.reverse

/-! ## What is left -/

/-- The chunks of a map are in order, and no two of them overlap. -/
def Laid (cs : List Chunk) : Prop :=
  (∀ c ∈ cs, c.Ok) ∧ cs.Pairwise fun c d => c.stop ≤ d.start

/-- A number is left in a map. -/
def Left.Has (l : Left) (n : ℕ) : Prop := Sparsemap.Has l.chunks n ∧ l.cursor ≤ n

/-- What is left of a map starts at some number. Only a run is read in part. -/
def Left.From (f : ℕ) (l : Left) : Prop :=
  Laid l.chunks ∧ ∀ c ∈ l.chunks.head?, f ≤ clamp c l.cursor ∧
    (l.cursor ≤ c.start ∨ c.isRle ∧ 2048 ∣ l.cursor ∧ l.cursor < c.stop)

section

variable {c d : Chunk} {cs : List Chunk} {f cursor n lo hi : ℕ}

/-- The first chunk is well formed. -/
theorem Laid.head (h : Laid (c :: cs)) : c.Ok := h.1 c List.mem_cons_self

/-- The other chunks are laid out. -/
theorem Laid.tail (h : Laid (c :: cs)) : Laid cs :=
  ⟨fun d hd => h.1 d (List.mem_cons_of_mem _ hd), h.2.of_cons⟩

/-- Two lists are laid out in order when the first ends before the second. -/
theorem laid_append {ds : List Chunk} :
    Laid (cs ++ ds) ↔ Laid cs ∧ Laid ds ∧ ∀ c ∈ cs, ∀ d ∈ ds, c.stop ≤ d.start := by
  simp only [Laid, List.mem_append, List.pairwise_append, or_imp, forall_and]
  tauto

/-- The later chunks start after the first. -/
theorem Laid.le_start (h : Laid (c :: cs)) (hd : d ∈ cs) : c.stop ≤ d.start :=
  (List.pairwise_cons.mp h.2).1 d hd

/-- The numbers of the later chunks are after the first. -/
theorem Laid.le_of_has (h : Laid (c :: cs)) (hn : Has cs n) : c.stop ≤ n := by
  obtain ⟨d, hd, hstart, -⟩ := hn
  exact (h.le_start hd).trans hstart

/-- The cursor of the first chunk. -/
theorem Left.From.clamp (h : Left.From f ⟨c :: cs, cursor⟩) :
    c.start ≤ clamp c cursor ∧ clamp c cursor < c.stop ∧ 2048 ∣ clamp c cursor ∧
      f ≤ clamp c cursor ∧ (clamp c cursor = c.start ∨ c.isRle) := by
  obtain ⟨hlaid, hhead⟩ := h
  obtain ⟨hf, hcur⟩ := hhead c rfl
  have hlt := hlaid.head.start_lt_stop
  have haligned := hlaid.head.aligned
  unfold Sparsemap.clamp at *
  dsimp only at hf hcur
  rcases hcur with hle | ⟨hrle, hdvd, hstop⟩
  · have hclamp : (if cursor < c.start then c.start else cursor) = c.start := by
      split_ifs <;> omega
    rw [hclamp] at hf ⊢
    exact ⟨le_rfl, hlt, haligned, hf, Or.inl rfl⟩
  · refine ⟨?_, ?_, ?_, hf, Or.inr hrle⟩ <;> split_ifs <;> omega

/-- Reading the first chunk up to some number leaves what is after it. -/
theorem Laid.advance (h : Laid (c :: cs)) (hhi : lo ≤ hi) (hstop : hi ≤ c.stop) (hdvd : 2048 ∣ hi)
    (hrle : hi < c.stop → c.isRle) :
    (advance c cs hi).From hi ∧
      ∀ n, Left.Has ⟨c :: cs, lo⟩ n ↔ (c.Holds n ∧ lo ≤ n ∧ n < hi) ∨ (advance c cs hi).Has n := by
  unfold Sparsemap.advance
  by_cases hdone : c.stop ≤ hi
  · rw [if_pos hdone]
    refine ⟨⟨h.tail, fun d hd => ?_⟩, fun n => ?_⟩
    · have hle := h.le_start (List.mem_of_mem_head? hd)
      unfold Sparsemap.clamp
      refine ⟨?_, Or.inl (Nat.zero_le _)⟩
      dsimp only
      split_ifs <;> omega
    · unfold Left.Has
      dsimp only
      rw [has_cons]
      constructor
      · rintro ⟨hc | hcs, hle⟩
        · exact Or.inl ⟨hc, hle, hc.2.1.trans_le hdone⟩
        · exact Or.inr ⟨hcs, Nat.zero_le n⟩
      · rintro (⟨hc, hle, -⟩ | ⟨hcs, -⟩)
        · exact ⟨Or.inl hc, hle⟩
        · exact ⟨Or.inr hcs, (hhi.trans hstop).trans (h.le_of_has hcs)⟩
  · rw [if_neg hdone]
    have hlt : hi < c.stop := Nat.lt_of_not_le hdone
    refine ⟨⟨h, fun d hd => ?_⟩, fun n => ?_⟩
    · obtain rfl : c = d := Option.some.inj hd
      unfold Sparsemap.clamp
      refine ⟨?_, Or.inr ⟨hrle hlt, hdvd, hlt⟩⟩
      dsimp only
      split_ifs <;> omega
    · unfold Left.Has
      dsimp only
      rw [has_cons]
      constructor
      · rintro ⟨hc | hcs, hle⟩
        · by_cases hn : n < hi
          · exact Or.inl ⟨hc, hle, hn⟩
          · exact Or.inr ⟨Or.inl hc, Nat.le_of_not_lt hn⟩
        · exact Or.inr ⟨Or.inr hcs, hstop.trans (h.le_of_has hcs)⟩
      · rintro (⟨hc, hle, -⟩ | ⟨hor, hle⟩)
        · exact ⟨Or.inl hc, hle⟩
        · exact ⟨hor, hhi.trans hle⟩

/-- A chunk that is read to its end leaves the later ones. -/
theorem Laid.pop (h : Laid (c :: cs)) (hhi : lo ≤ c.stop) :
    Left.From c.stop ⟨cs, 0⟩ ∧
      ∀ n, Left.Has ⟨c :: cs, lo⟩ n ↔ (c.Holds n ∧ lo ≤ n) ∨ Left.Has ⟨cs, 0⟩ n := by
  have hadv : Sparsemap.advance c cs c.stop = ⟨cs, 0⟩ := if_pos le_rfl
  obtain ⟨hfrom, hhas⟩ := h.advance hhi le_rfl h.head.dvd_stop fun hlt => absurd hlt (lt_irrefl _)
  rw [hadv] at hfrom hhas
  refine ⟨hfrom, fun n => (hhas n).trans (or_congr_left ?_)⟩
  constructor
  · rintro ⟨hc, hle, -⟩
    exact ⟨hc, hle⟩
  · rintro ⟨hc, hle⟩
    exact ⟨hc, hle, hc.2.1⟩

/-- The cursor of the first chunk does not matter before its start. -/
theorem Laid.has_clamp (h : Laid (c :: cs)) :
    Left.Has ⟨c :: cs, cursor⟩ n ↔ Left.Has ⟨c :: cs, clamp c cursor⟩ n := by
  unfold Left.Has clamp
  dsimp only
  constructor
  · rintro ⟨hhas, hle⟩
    have hstart : c.start ≤ n := by
      rcases has_cons.mp hhas with hc | hcs
      · exact hc.1
      · exact h.head.start_lt_stop.le.trans (h.le_of_has hcs)
    exact ⟨hhas, by split_ifs <;> omega⟩
  · rintro ⟨hhas, hle⟩
    exact ⟨hhas, by split_ifs at hle <;> omega⟩

/-- A first chunk that is not read further is left from where its cursor is. -/
theorem Left.From.keep (h : Left.From f ⟨c :: cs, cursor⟩) (hlo : lo ≤ Sparsemap.clamp c cursor) :
    Left.From lo ⟨c :: cs, Sparsemap.clamp c cursor⟩ := by
  obtain ⟨hstart, hstop, hdvd, -, hor⟩ := h.clamp
  refine ⟨h.1, fun d hd => ?_⟩
  obtain rfl : c = d := Option.some.inj hd
  refine ⟨?_, ?_⟩
  · rw [Sparsemap.clamp]
    dsimp only
    split_ifs <;> omega
  · rcases hor with heq | hrle
    · exact Or.inl heq.le
    · exact Or.inr ⟨hrle, hdvd, hstop⟩

end

/-! ## The chunks of a pass -/

section

variable {a b c : Chunk} {acc : List Chunk} {f n lo hi ovStart ovEnd : ℕ}

/-- The numbers of two windows, united. -/
theorem inWindow_or {v w : ℕ → ℕ} {start : ℕ} :
    InWindow (fun i => v i ||| w i) start n ↔ InWindow v start n ∨ InWindow w start n := by
  unfold InWindow
  rw [Nat.testBit_or, Bool.or_eq_true]
  tauto

/-- A sparse chunk has all its slots inside its capacity. -/
theorem Chunk.Ok.capFlags_of_sparse (hc : c.Ok) (h : ¬c.isRle) {i : ℕ} (hi : i < 32) :
    c.capFlags i = true := by
  rw [Chunk.capFlags, bne_iff_ne]
  exact hc.sparse h i hi

/-- What is left of a chunk is appended. -/
theorem copyChunk_appended (h : Below f acc) (hc : c.Ok) (hf : f ≤ lo) (hlo : 2048 ∣ lo)
    (hlt : lo < c.stop) (hor : lo = c.start ∨ c.isRle) :
    Appended acc (fun n => c.Holds n ∧ lo ≤ n) c.stop (copyChunk acc c lo) := by
  unfold copyChunk
  by_cases heq : lo = c.start
  · rw [if_pos heq]
    refine (h.appended_cons hc (heq ▸ hf)).congr fun n => ?_
    constructor
    · intro hn
      exact ⟨hn, heq ▸ hn.1⟩
    · rintro ⟨hn, -⟩
      exact hn
  · rw [if_neg heq]
    refine (emitChunkBits_appended h hf hc (hor.resolve_left heq) hlo hc.dvd_stop hlt.le
      le_rfl).congr fun n => ?_
    constructor
    · rintro ⟨hn, hle, -⟩
      exact ⟨hn, hle⟩
    · rintro ⟨hn, hle⟩
      exact ⟨hn, hle, hn.2.1⟩

/-- The bits of a run before the overlap are appended. -/
theorem appendBefore_appended (h : Below f acc) (hf : f ≤ lo) (hc : c.Ok) (hlo : 2048 ∣ lo)
    (hov : 2048 ∣ ovStart) (hle : lo ≤ ovStart) (hstop : ovStart ≤ c.stop)
    (hrle : lo < ovStart → c.isRle) :
    Appended acc (fun n => c.Holds n ∧ lo ≤ n ∧ n < ovStart) ovStart
      (appendBefore acc c lo ovStart) := by
  unfold appendBefore
  by_cases hlt : lo < ovStart
  · rw [if_pos hlt]
    exact emitChunkBits_appended h hf hc (hrle hlt) hlo hov hle hstop
  · rw [if_neg hlt]
    exact (h.mono (hf.trans hle)).appended fun n => by omega

/-- Two runs that start together are appended as the longer one. -/
theorem appendRuns_appended {ae be stop : ℕ} (h : Below f acc) (hf : f ≤ lo) (hlo : 2048 ∣ lo)
    (hstop : 2048 ∣ stop) (hle : lo ≤ stop) (ha : ae ≤ stop) (hb : be ≤ stop)
    (hlt : stop < 2 ^ 64) :
    Appended acc (fun n => lo ≤ n ∧ (n < ae ∨ n < be)) stop (appendRuns acc lo ae lo be) := by
  unfold appendRuns
  by_cases hboth : lo < ae ∧ lo < be
  · rw [if_pos hboth, if_pos (by rw [if_pos le_rfl, if_pos le_rfl]; exact hboth.1.le),
      if_neg (lt_irrefl lo)]
    refine (appendRun_appended h hf hlo ?_ hstop ?_ hlt).congr fun n => ?_ <;> split_ifs <;> omega
  · rw [if_neg hboth]
    by_cases hsome : lo < ae
    · rw [if_pos hsome]
      exact (appendRun_appended h hf hlo hsome hstop ha hlt).congr fun n => by omega
    · rw [if_neg hsome]
      by_cases hsome' : lo < be
      · rw [if_pos hsome']
        exact (appendRun_appended h hf hlo hsome' hstop hb hlt).congr fun n => by omega
      · rw [if_neg hsome']
        exact (h.mono (hf.trans hle)).appended fun n => by omega

/-- The overlap of two runs is appended. -/
theorem appendOverlap_of_rle (h : Below f acc) (hf : f ≤ ovStart) (ha : a.Ok) (hb : b.Ok)
    (hra : a.isRle) (hrb : b.isRle) (hdvd : 2048 ∣ ovStart) (hend : 2048 ∣ ovEnd)
    (hle : ovStart ≤ ovEnd) (hsa : a.start ≤ ovStart) (hsb : b.start ≤ ovStart)
    (hea : ovEnd ≤ a.stop) :
    Appended acc (fun n => (a.Holds n ∨ b.Holds n) ∧ ovStart ≤ n ∧ n < ovEnd) ovEnd
      (appendOverlap acc a b ovStart ovEnd) := by
  have hlt := ha.stop_lt
  have has : (if a.start < ovStart then ovStart else a.start) = ovStart := by
    split_ifs <;> omega
  have hbs : (if b.start < ovStart then ovStart else b.start) = ovStart := by
    split_ifs <;> omega
  unfold appendOverlap
  rw [if_pos ⟨hra, hrb⟩]
  dsimp only
  rw [has, hbs]
  refine (appendRuns_appended h hf hdvd hend hle ?_ ?_ (by omega)).congr fun n => ?_
  · split_ifs <;> omega
  · split_ifs <;> omega
  · rw [ha.holds_of_rle hra, hb.holds_of_rle hrb]
    split_ifs <;> omega

/-- A run and a sparse chunk in it, as one window. -/
theorem appendEncoded_mixed {w : ℕ → ℕ} {cap : ℕ → Bool} (h : Below f acc) (hf : f ≤ c.start)
    (hc : c.Ok) (hs : ¬c.isRle) (hcap : ∀ i < 32, cap i = true) (hw : ∀ i < 32, w i < 2 ^ 64)
    (hin : ∀ n, InWindow w c.start n ↔
      InWindow (expandRle a c.start) c.start n ∨ InWindow c.words c.start n)
    (ha : a.Ok) (hr : a.isRle) :
    Appended acc (fun n => (a.Holds n ∨ c.Holds n) ∧ c.start ≤ n ∧ n < c.stop) c.stop
      (appendEncoded acc (encodeSparse c.start w cap)) := by
  have hstop : c.stop = c.start + 2048 := by rw [Chunk.stop, hc.capacity_of_sparse hs]
  have hlt := hc.stop_lt
  rw [hstop] at hlt ⊢
  refine (appendEncoded_appended h hf hc.aligned hlt hcap hw).congr fun n => ?_
  rw [hin, inWindow_expandRle, hc.holds_of_sparse hs, ha.holds_of_rle hr]
  constructor
  · rintro (⟨hwin, hrun⟩ | hwin)
    · exact ⟨Or.inl hrun, hwin⟩
    · exact ⟨Or.inr hwin, hwin.1, hwin.2.1⟩
  · rintro ⟨hrun | hwin, hbounds⟩
    · exact Or.inl ⟨hbounds, hrun⟩
    · exact Or.inr hwin

/-- A run and a sparse chunk that overlap are appended as the window of the sparse chunk. -/
theorem appendOverlap_of_mixed (h : Below f acc) (hf : f ≤ ovStart) (ha : a.Ok) (hb : b.Ok)
    (hmixed : (a.isRle ∧ ¬b.isRle ∧ ovStart = b.start ∧ ovEnd = b.stop) ∨
      (¬a.isRle ∧ b.isRle ∧ ovStart = a.start ∧ ovEnd = a.stop)) :
    Appended acc (fun n => (a.Holds n ∨ b.Holds n) ∧ ovStart ≤ n ∧ n < ovEnd) ovEnd
      (appendOverlap acc a b ovStart ovEnd) := by
  unfold appendOverlap mixedChunk
  rcases hmixed with ⟨hra, hrb, rfl, rfl⟩ | ⟨hra, hrb, rfl, rfl⟩
  · rw [if_neg fun hboth => hrb hboth.2, if_pos ⟨hra, hrb⟩]
    refine appendEncoded_mixed h hf hb hrb ?_ ?_ (fun n => inWindow_or) ha hra
    · intro i hi
      rw [hb.capFlags_of_sparse hrb hi]
      rfl
    · intro i _
      exact Nat.or_lt_two_pow (expandRle_lt _ _ _) (Chunk.words_lt hb.vecs_lt i)
  · rw [if_neg fun hboth => hra hboth.1, if_neg fun hboth => hra hboth.1, if_pos ⟨hra, hrb⟩]
    refine (appendEncoded_mixed h hf ha hra ?_ ?_ (fun n => inWindow_or.trans or_comm) hb
      hrb).congr fun n => by rw [or_comm]
    · intro i hi
      rw [ha.capFlags_of_sparse hra hi]
      rfl
    · intro i _
      exact Nat.or_lt_two_pow (Chunk.words_lt ha.vecs_lt i) (expandRle_lt _ _ _)

/-- Two sparse chunks of one window are appended as one. -/
theorem appendEncoded_aligned (h : Below f acc) (hf : f ≤ a.start) (ha : a.Ok) (hb : b.Ok)
    (hsa : ¬a.isRle) (hsb : ¬b.isRle) (heq : a.start = b.start) :
    Appended acc (fun n => a.Holds n ∨ b.Holds n) a.stop
      (appendEncoded acc (encodeSparse a.start
        (fun i => cursorWords a a.start i ||| cursorWords b b.start i)
        fun i => cursorFlags a a.start i || cursorFlags b b.start i)) := by
  have hstop : a.stop = a.start + 2048 := by rw [Chunk.stop, ha.capacity_of_sparse hsa]
  have hlt := ha.stop_lt
  have hwords : ∀ c : Chunk, cursorWords c c.start = c.words := fun c => if_neg (lt_irrefl _)
  have hcap : ∀ i < 32, (cursorFlags a a.start i || cursorFlags b b.start i) = true := by
    intro i hi
    rw [cursorFlags, ha.capFlags_of_sparse hsa hi]
    simp
  rw [hstop] at hlt ⊢
  rw [hwords, hwords]
  refine (appendEncoded_appended h hf ha.aligned hlt hcap fun i _ =>
    Nat.or_lt_two_pow (Chunk.words_lt ha.vecs_lt i) (Chunk.words_lt hb.vecs_lt i)).congr
    fun n => ?_
  rw [inWindow_or, ha.holds_of_sparse hsa, hb.holds_of_sparse hsb, heq]

/-- The bits of both chunks before the overlap are appended: those of the one that starts first. -/
theorem appendBefore_both {ka kb : ℕ} (h : Below f acc) (hfa : f ≤ ka) (hfb : f ≤ kb) (ha : a.Ok)
    (hb : b.Ok) (hka : 2048 ∣ ka) (hkb : 2048 ∣ kb) (hsa : ovStart ≤ a.stop)
    (hsb : ovStart ≤ b.stop) (hmax : ovStart = if kb < ka then ka else kb)
    (hra : ka < ovStart → a.isRle) (hrb : kb < ovStart → b.isRle) :
    Appended acc
      (fun n => (a.Holds n ∧ ka ≤ n ∧ n < ovStart) ∨ (b.Holds n ∧ kb ≤ n ∧ n < ovStart)) ovStart
      (appendBefore (appendBefore acc a ka ovStart) b kb ovStart) := by
  by_cases hlt : ka < kb
  · have hov : ovStart = kb := by
      rw [hmax, if_neg (by omega)]
    have hafter : appendBefore (appendBefore acc a ka ovStart) b kb ovStart =
        appendBefore acc a ka ovStart := if_neg (by omega)
    rw [hafter]
    refine (appendBefore_appended h hfa ha hka (hov ▸ hkb) (by omega) hsa hra).congr fun n => ?_
    constructor
    · exact Or.inl
    · rintro (hn | ⟨-, hle, hn⟩)
      · exact hn
      · omega
  · have hov : ovStart = ka := by
      rw [hmax]
      split_ifs <;> omega
    have hbefore : appendBefore acc a ka ovStart = acc := if_neg (by omega)
    rw [hbefore]
    refine (appendBefore_appended h hfb hb hkb (hov ▸ hka) (by omega) hsb hrb).congr fun n => ?_
    constructor
    · exact Or.inr
    · rintro (⟨-, hle, hn⟩ | hn)
      · omega
      · exact hn

/-- Chunks that overlap and are not both sparse: the part before the end of the first is appended. -/
theorem appendOverlap_appended {ka kb : ℕ} (h : Below f acc) (ha : a.Ok) (hb : b.Ok)
    (hka : a.start ≤ ka ∧ ka < a.stop ∧ 2048 ∣ ka ∧ f ≤ ka ∧ (ka = a.start ∨ a.isRle))
    (hkb : b.start ≤ kb ∧ kb < b.stop ∧ 2048 ∣ kb ∧ f ≤ kb ∧ (kb = b.start ∨ b.isRle))
    (hab : kb < a.stop) (hba : ka < b.stop)
    (hsparse : ¬(¬a.isRle ∧ ¬b.isRle ∧ a.start = b.start))
    (hmax : ovStart = if kb < ka then ka else kb)
    (hmin : ovEnd = if a.stop < b.stop then a.stop else b.stop) :
    Appended acc (fun n => (a.Holds n ∧ ka ≤ n ∧ n < ovEnd) ∨ (b.Holds n ∧ kb ≤ n ∧ n < ovEnd))
        ovEnd
        (appendOverlap (appendBefore (appendBefore acc a ka ovStart) b kb ovStart) a b ovStart
          ovEnd) ∧
      ka ≤ ovEnd ∧ kb ≤ ovEnd ∧ (ovEnd < a.stop → a.isRle) ∧ (ovEnd < b.stop → b.isRle) := by
  obtain ⟨hsa, hea, hda, hfa, hora⟩ := hka
  obtain ⟨hsb, heb, hdb, hfb, horb⟩ := hkb
  have hcapa := fun hs => ha.capacity_of_sparse hs
  have hcapb := fun hs => hb.capacity_of_sparse hs
  have hala := ha.aligned
  have halb := hb.aligned
  have hendb := hb.dvd_stop
  have henda := ha.dvd_stop
  -- A sparse chunk is one window, so that a run that overlaps it reaches over all of it.
  have hshape : (a.isRle ∧ b.isRle) ∨
      (a.isRle ∧ ¬b.isRle ∧ kb = b.start ∧ ka ≤ b.start ∧ b.stop ≤ a.stop) ∨
      (¬a.isRle ∧ b.isRle ∧ ka = a.start ∧ kb ≤ a.start ∧ a.stop ≤ b.stop) := by
    by_cases hra : a.isRle <;> by_cases hrb : b.isRle
    · exact Or.inl ⟨hra, hrb⟩
    · have hkb' := horb.resolve_right hrb
      have hstop : b.stop = b.start + 2048 := by rw [Chunk.stop, hcapb hrb]
      exact Or.inr (Or.inl ⟨hra, hrb, hkb', by omega, by omega⟩)
    · have hka' := hora.resolve_right hra
      have hstop : a.stop = a.start + 2048 := by rw [Chunk.stop, hcapa hra]
      exact Or.inr (Or.inr ⟨hra, hrb, hka', by omega, by omega⟩)
    · have hka' := hora.resolve_right hra
      have hkb' := horb.resolve_right hrb
      have hstop : a.stop = a.start + 2048 := by rw [Chunk.stop, hcapa hra]
      have hstop' : b.stop = b.start + 2048 := by rw [Chunk.stop, hcapb hrb]
      exact absurd ⟨hra, hrb, by omega⟩ hsparse
  have hovs : ka ≤ ovStart ∧ kb ≤ ovStart ∧ (ovStart = ka ∨ ovStart = kb) := by
    rw [hmax]
    split_ifs <;> omega
  have hove : ovEnd ≤ a.stop ∧ ovEnd ≤ b.stop ∧ (ovEnd = a.stop ∨ ovEnd = b.stop) := by
    rw [hmin]
    split_ifs <;> omega
  have hbefore := appendBefore_both h hfa hfb ha hb hda hdb (by omega) (by omega) hmax
    (fun hlt => by
      rcases hshape with hr | hr | hr
      · exact hr.1
      · exact hr.1
      · omega)
    (fun hlt => by
      rcases hshape with hr | hr | hr
      · exact hr.2
      · omega
      · exact hr.2.1)
  have hover : Appended (appendBefore (appendBefore acc a ka ovStart) b kb ovStart)
      (fun n => (a.Holds n ∨ b.Holds n) ∧ ovStart ≤ n ∧ n < ovEnd) ovEnd
      (appendOverlap (appendBefore (appendBefore acc a ka ovStart) b kb ovStart) a b ovStart
        ovEnd) := by
    rcases hshape with ⟨hra, hrb⟩ | ⟨hra, hrb, hkb, hle, hstop⟩ | ⟨hra, hrb, hka, hle, hstop⟩
    · exact appendOverlap_of_rle hbefore.below le_rfl ha hb hra hrb (by omega) (by omega) (by omega)
        (by omega) (by omega) hove.1
    · exact appendOverlap_of_mixed hbefore.below le_rfl ha hb
        (Or.inl ⟨hra, hrb, by omega, by omega⟩)
    · exact appendOverlap_of_mixed hbefore.below le_rfl ha hb
        (Or.inr ⟨hra, hrb, by omega, by omega⟩)
  refine ⟨(hbefore.trans hover).congr fun n => ?_, by omega, by omega, ?_, ?_⟩
  · have hle : ovStart ≤ ovEnd := by omega
    by_cases hA : a.Holds n <;> by_cases hB : b.Holds n <;>
      simp only [hA, hB, true_and, false_and, or_true, or_false, false_or] <;> omega
  · rcases hshape with hr | hr | hr
    · exact fun _ => hr.1
    · exact fun _ => hr.1
    · omega
  · rcases hshape with hr | hr | hr
    · exact fun _ => hr.2
    · omega
    · exact fun _ => hr.2.1

end

/-! ## The union -/

/-- The chunks appended so far are in order, and what is left of both maps comes after them. -/
structure UnionState.Ordered (f : ℕ) (s : UnionState) : Prop where
  below : Below f s.acc
  a : s.a.From f
  b : s.b.From f

/-- The numbers appended so far and left. -/
def UnionState.Shows (s : UnionState) (n : ℕ) : Prop := Has s.acc n ∨ s.a.Has n ∨ s.b.Has n

section

variable {a b : Chunk} {as bs acc : List Chunk} {f ac bc n : ℕ} {s : UnionState}

/-- What a pass appends is what it takes from what is left. -/
theorem shows_of_appended {s s' : UnionState} {P Pa Pb : ℕ → Prop} {f : ℕ}
    (hacc : Appended s.acc P f s'.acc) (ha : ∀ n, s.a.Has n ↔ Pa n ∨ s'.a.Has n)
    (hb : ∀ n, s.b.Has n ↔ Pb n ∨ s'.b.Has n) (hP : ∀ n, P n ↔ Pa n ∨ Pb n) (n : ℕ) :
    s'.Shows n ↔ s.Shows n := by
  unfold UnionState.Shows
  rw [hacc.2 n, ha n, hb n, hP n]
  tauto

/-- A pass keeps the order, and loses no number and adds none. -/
theorem unionStep_spec (h : UnionState.Ordered f ⟨⟨a :: as, ac⟩, ⟨b :: bs, bc⟩, acc⟩) :
    (∃ f', (unionStep a b ⟨⟨a :: as, ac⟩, ⟨b :: bs, bc⟩, acc⟩).Ordered f') ∧
      ∀ n, (unionStep a b ⟨⟨a :: as, ac⟩, ⟨b :: bs, bc⟩, acc⟩).Shows n ↔
        UnionState.Shows ⟨⟨a :: as, ac⟩, ⟨b :: bs, bc⟩, acc⟩ n := by
  obtain ⟨hbelow, hfa, hfb⟩ := h
  dsimp only at hbelow hfa hfb
  have hla : Laid (a :: as) := hfa.1
  have hlb : Laid (b :: bs) := hfb.1
  have ha := hla.head
  have hb := hlb.head
  have hka := hfa.clamp
  have hkb := hfb.clamp
  have hclampa := fun n => @Laid.has_clamp a as ac n hla
  have hclampb := fun n => @Laid.has_clamp b bs bc n hlb
  unfold unionStep
  dsimp only [List.tail_cons]
  obtain ⟨hsa, hea, hda, hfka, hora⟩ := hka
  obtain ⟨hsb, heb, hdb, hfkb, horb⟩ := hkb
  by_cases hafirst : a.stop ≤ clamp b bc
  · rw [if_pos hafirst]
    have happ := copyChunk_appended hbelow ha hfka hda hea hora
    obtain ⟨hpop, hhas⟩ := hla.pop hea.le
    refine ⟨⟨a.stop, happ.below, hpop, hfb.keep hafirst⟩, fun n => ?_⟩
    exact shows_of_appended happ (fun n => (hclampa n).trans (hhas n))
      (fun n => (hclampb n).trans (by rw [false_or])) (fun n => by rw [or_false]) n
  rw [if_neg hafirst]
  by_cases hbfirst : b.stop ≤ clamp a ac
  · rw [if_pos hbfirst]
    have happ := copyChunk_appended hbelow hb hfkb hdb heb horb
    obtain ⟨hpop, hhas⟩ := hlb.pop heb.le
    refine ⟨⟨b.stop, happ.below, hfa.keep hbfirst, hpop⟩, fun n => ?_⟩
    exact shows_of_appended happ (fun n => (hclampa n).trans (by rw [false_or]))
      (fun n => (hclampb n).trans (hhas n)) (fun n => by rw [false_or]) n
  rw [if_neg hbfirst]
  by_cases hsparse : ¬a.isRle ∧ ¬b.isRle ∧ a.start = b.start
  · rw [if_pos hsparse]
    obtain ⟨hra, hrb, heq⟩ := hsparse
    have hka := hora.resolve_right hra
    have hkb := horb.resolve_right hrb
    have hstop : a.stop = b.stop := by
      rw [Chunk.stop, Chunk.stop, ha.capacity_of_sparse hra, hb.capacity_of_sparse hrb, heq]
    have happ := appendEncoded_aligned hbelow (hka ▸ hfka) ha hb hra hrb heq
    rw [hka, hkb]
    obtain ⟨hpopa, hhasa⟩ := hla.pop ha.start_lt_stop.le
    obtain ⟨hpopb, hhasb⟩ := hlb.pop hb.start_lt_stop.le
    refine ⟨⟨a.stop, happ.below, hpopa, hstop ▸ hpopb⟩, fun n => ?_⟩
    simp only [hka] at hclampa
    simp only [hkb] at hclampb
    refine shows_of_appended happ (fun n => (hclampa n).trans (hhasa n))
      (fun n => (hclampb n).trans (hhasb n)) (fun n => ?_) n
    constructor
    · rintro (hn | hn)
      · exact Or.inl ⟨hn, hn.1⟩
      · exact Or.inr ⟨hn, hn.1⟩
    · rintro (hn | hn)
      · exact Or.inl hn.1
      · exact Or.inr hn.1
  · rw [if_neg hsparse]
    obtain ⟨happ, hlea, hleb, hra, hrb⟩ := @appendOverlap_appended a b acc f _ _ _ _ hbelow ha hb
      ⟨hsa, hea, hda, hfka, hora⟩ ⟨hsb, heb, hdb, hfkb, horb⟩ (Nat.lt_of_not_le hafirst)
      (Nat.lt_of_not_le hbfirst) hsparse rfl rfl
    have hend : ∀ e, e = (if a.stop < b.stop then a.stop else b.stop) →
        2048 ∣ e ∧ e ≤ a.stop ∧ e ≤ b.stop := by
      rintro e rfl
      have henda := ha.dvd_stop
      have hendb := hb.dvd_stop
      split_ifs <;> omega
    obtain ⟨hdvd, hstopa, hstopb⟩ := hend _ rfl
    have hcura : (if a.isRle then if a.stop < b.stop then a.stop else b.stop else a.stop) =
        if a.stop < b.stop then a.stop else b.stop := by
      by_cases hrle : a.isRle
      · rw [if_pos hrle]
      · rw [if_neg hrle]
        exact le_antisymm (Nat.le_of_not_lt fun hlt => hrle (hra hlt)) hstopa
    have hcurb : (if b.isRle then if a.stop < b.stop then a.stop else b.stop else b.stop) =
        if a.stop < b.stop then a.stop else b.stop := by
      by_cases hrle : b.isRle
      · rw [if_pos hrle]
      · rw [if_neg hrle]
        exact le_antisymm (Nat.le_of_not_lt fun hlt => hrle (hrb hlt)) hstopb
    rw [hcura, hcurb]
    obtain ⟨hlefta, hhasa⟩ := hla.advance hlea hstopa hdvd hra
    obtain ⟨hleftb, hhasb⟩ := hlb.advance hleb hstopb hdvd hrb
    refine ⟨⟨_, happ.below, hlefta, hleftb⟩, fun n => ?_⟩
    exact shows_of_appended happ (fun n => (hclampa n).trans (hhasa n))
      (fun n => (hclampb n).trans (hhasb n)) (fun n => Iff.rfl) n

/-- Advancing the cursor drops a chunk that ends before it. -/
theorem length_advance (c : Chunk) (cs : List Chunk) (cursor : ℕ) :
    (advance c cs cursor).chunks.length ≤ cs.length + 1 ∧
      (c.stop ≤ cursor → (advance c cs cursor).chunks.length = cs.length) := by
  unfold advance
  by_cases hdone : c.stop ≤ cursor
  · rw [if_pos hdone]
    exact ⟨Nat.le_succ _, fun _ => rfl⟩
  · rw [if_neg hdone]
    exact ⟨le_rfl, fun h => absurd h hdone⟩

/-- A pass reads at least one chunk to its end. -/
theorem length_unionStep (a b : Chunk) (as bs acc : List Chunk) (ac bc : ℕ) :
    (unionStep a b ⟨⟨a :: as, ac⟩, ⟨b :: bs, bc⟩, acc⟩).a.chunks.length +
      (unionStep a b ⟨⟨a :: as, ac⟩, ⟨b :: bs, bc⟩, acc⟩).b.chunks.length <
        (a :: as).length + (b :: bs).length := by
  unfold unionStep
  dsimp only [List.tail_cons]
  by_cases hafirst : a.stop ≤ clamp b bc
  · rw [if_pos hafirst]
    dsimp only [List.length_cons]
    omega
  rw [if_neg hafirst]
  by_cases hbfirst : b.stop ≤ clamp a ac
  · rw [if_pos hbfirst]
    dsimp only [List.length_cons]
    omega
  rw [if_neg hbfirst]
  by_cases hsparse : ¬a.isRle ∧ ¬b.isRle ∧ a.start = b.start
  · rw [if_pos hsparse]
    dsimp only [List.length_cons]
    omega
  rw [if_neg hsparse]
  dsimp only [List.length_cons]
  obtain ⟨hlea, hpopa⟩ :=
    length_advance a as (if a.isRle then if a.stop < b.stop then a.stop else b.stop else a.stop)
  obtain ⟨hleb, hpopb⟩ :=
    length_advance b bs (if b.isRle then if a.stop < b.stop then a.stop else b.stop else b.stop)
  -- A sparse chunk is read to its end, and of two runs the one that ends first.
  by_cases hdone : a.stop ≤
      if a.isRle then if a.stop < b.stop then a.stop else b.stop else a.stop
  · have heq := hpopa hdone
    omega
  · have hdone' : b.stop ≤
        if b.isRle then if a.stop < b.stop then a.stop else b.stop else b.stop := by
      split_ifs at hdone ⊢ <;> omega
    have heq := hpopb hdone'
    omega

/-- The walk keeps the order, loses no number and adds none, and reads one of the maps to its
end. -/
theorem unionLoop_spec (fuel : ℕ) (h : s.Ordered f)
    (hfuel : s.a.chunks.length + s.b.chunks.length ≤ fuel) :
    (∃ f', (unionLoop fuel s).Ordered f') ∧ (∀ n, (unionLoop fuel s).Shows n ↔ s.Shows n) ∧
      ((unionLoop fuel s).a.chunks = [] ∨ (unionLoop fuel s).b.chunks = []) := by
  induction fuel generalizing s f with
  | zero =>
    refine ⟨⟨f, h⟩, fun n => Iff.rfl, Or.inl ?_⟩
    rw [unionLoop]
    exact List.eq_nil_of_length_eq_zero (by omega)
  | succ fuel ih =>
    obtain ⟨⟨ca, ac⟩, ⟨cb, bc⟩, acc⟩ := s
    cases ca with
    | nil => exact ⟨⟨f, h⟩, fun n => Iff.rfl, Or.inl rfl⟩
    | cons a as =>
      cases cb with
      | nil => exact ⟨⟨f, h⟩, fun n => Iff.rfl, Or.inr rfl⟩
      | cons b bs =>
        obtain ⟨⟨f', hord⟩, hshows⟩ := unionStep_spec h
        have hlen := length_unionStep a b as bs acc ac bc
        obtain ⟨hord', hshows', hend⟩ := ih hord (by dsimp only at hfuel; omega)
        exact ⟨hord', fun n => (hshows' n).trans (hshows n), hend⟩

/-- What is left of a map is appended. -/
theorem copyRest_appended {cs : List Chunk} {cursor : ℕ} (h : Below f acc)
    (hleft : Left.From f ⟨cs, cursor⟩) :
    ∃ f', Appended acc (Left.Has ⟨cs, cursor⟩) f' (copyRest acc cs cursor) := by
  induction cs generalizing acc f cursor with
  | nil => exact ⟨f, h.appended fun n hn => not_has_nil n hn.1⟩
  | cons c cs ih =>
    have hlaid : Laid (c :: cs) := hleft.1
    obtain ⟨hstart, hstop, hdvd, hf, hor⟩ := hleft.clamp
    have hcopy : (if 0 < cursor ∧ c.start < cursor then emitChunkBits acc c cursor c.stop
        else c :: acc) = copyChunk acc c (clamp c cursor) := by
      unfold copyChunk clamp
      by_cases hpart : 0 < cursor ∧ c.start < cursor
      · rw [if_pos hpart, if_neg (by omega : ¬cursor < c.start), if_neg (by omega)]
      · rw [if_neg hpart, if_pos (by split_ifs <;> omega)]
    have happ := copyChunk_appended h hlaid.head hf hdvd hstop hor
    obtain ⟨hpop, hhas⟩ := hlaid.pop hstop.le
    obtain ⟨f', happ'⟩ := ih happ.below hpop
    rw [copyRest, hcopy]
    exact ⟨f', (happ.trans happ').congr fun n => ((hlaid.has_clamp).trans (hhas n)).symm⟩

/-- The chunks appended so far, the first one first, are in order. -/
theorem Below.laid (h : Below f acc) : Laid acc.reverse ∧ ∀ c ∈ acc, c.stop ≤ f := by
  induction acc generalizing f with
  | nil => exact ⟨⟨fun c hc => absurd hc (by simp), List.Pairwise.nil⟩, fun c hc => absurd hc (by simp)⟩
  | cons c acc ih =>
    obtain ⟨hc, hstop, hbelow⟩ := h
    obtain ⟨⟨hok, hpair⟩, hle⟩ := ih hbelow
    have hlt := hc.start_lt_stop
    refine ⟨⟨fun d hd => ?_, ?_⟩, fun d hd => ?_⟩
    · rcases List.mem_cons.mp (List.mem_reverse.mp hd) with rfl | hd
      · exact hc
      · exact hok d (List.mem_reverse.mpr hd)
    · rw [List.reverse_cons, List.pairwise_append]
      refine ⟨hpair, List.pairwise_singleton _ _, fun d hd e he => ?_⟩
      rw [List.mem_singleton.mp he]
      exact hle d (List.mem_reverse.mp hd)
    · rcases List.mem_cons.mp hd with rfl | hd
      · exact hstop
      · exact (hle d hd).trans (by omega)

/-- A map is left as a whole. -/
theorem Laid.from {cs : List Chunk} (h : Laid cs) : Left.From 0 ⟨cs, 0⟩ :=
  ⟨h, fun _ _ => ⟨Nat.zero_le _, Or.inl (Nat.zero_le _)⟩⟩

/-- The order of the chunks does not matter for what they have. -/
theorem has_reverse {cs : List Chunk} : Has cs.reverse n ↔ Has cs n := by
  unfold Has
  simp only [List.mem_reverse]

/-- Laid chunks have a number. -/
theorem Laid.nonempty {cs : List Chunk} (h : Laid cs) (hne : cs ≠ []) : ∃ n, Has cs n := by
  cases cs with
  | nil => exact absurd rfl hne
  | cons c cs =>
    obtain ⟨n, hn⟩ := h.head.nonempty
    exact ⟨n, has_cons.mpr (Or.inl hn)⟩

/-- The chunks that `sm_union` appends. -/
theorem unionChunks_of_cons {a b : Chunk} {as bs : List Chunk} (ha : Laid (a :: as))
    (hb : Laid (b :: bs)) : ∃ cs, unionChunks (a :: as) (b :: bs) = some cs ∧ Laid cs ∧
      ∀ n, Has cs n ↔ Has (a :: as) n ∨ Has (b :: bs) n := by
  have hord : UnionState.Ordered 0 ⟨⟨a :: as, 0⟩, ⟨b :: bs, 0⟩, []⟩ := ⟨trivial, ha.from, hb.from⟩
  obtain ⟨⟨f, hbelow, hfroma, hfromb⟩, hshows, hend⟩ :=
    unionLoop_spec ((a :: as).length + (b :: bs).length) hord le_rfl
  unfold unionChunks
  rw [if_neg (by simp), if_neg (by simp), if_neg (by simp)]
  dsimp only
  generalize unionLoop ((a :: as).length + (b :: bs).length)
    ⟨⟨a :: as, 0⟩, ⟨b :: bs, 0⟩, []⟩ = s at hbelow hfroma hfromb hshows hend ⊢
  have hmem : ∀ n, s.Shows n ↔ Has (a :: as) n ∨ Has (b :: bs) n := by
    intro n
    rw [hshows, UnionState.Shows, Left.Has, Left.Has]
    simp [not_has_nil]
  -- Only one of the maps has chunks left.
  have hrest : ∃ f' acc', copyRest (copyRest s.acc s.a.chunks s.a.cursor) s.b.chunks s.b.cursor =
      acc' ∧ Below f' acc' ∧ ∀ n, Has acc' n ↔ s.Shows n := by
    rcases hend with hnil | hnil
    · obtain ⟨f', happ⟩ := copyRest_appended hbelow hfromb
      refine ⟨f', _, ?_, happ.below, fun n => ?_⟩
      · rw [hnil, copyRest]
      · have hno : ¬s.a.Has n := fun hn => not_has_nil n (hnil ▸ hn.1)
        rw [happ.2 n, UnionState.Shows, or_iff_right hno]
    · obtain ⟨f', happ⟩ := copyRest_appended hbelow hfroma
      refine ⟨f', _, ?_, happ.below, fun n => ?_⟩
      · rw [hnil, copyRest]
      · have hno : ¬s.b.Has n := fun hn => not_has_nil n (hnil ▸ hn.1)
        rw [happ.2 n, UnionState.Shows, or_iff_left hno]
  obtain ⟨f', acc', heq, hbelow', hhas⟩ := hrest
  rw [heq]
  have hne : acc' ≠ [] := by
    rintro rfl
    obtain ⟨n, hn⟩ := ha.nonempty (List.cons_ne_nil _ _)
    exact not_has_nil n ((hhas n).mpr ((hmem n).mpr (Or.inl hn)))
  rw [if_neg hne]
  exact ⟨acc'.reverse, rfl, hbelow'.laid.1, fun n => by rw [has_reverse, hhas, hmem]⟩

/-- Laid chunks have members. -/
theorem members_ne_empty {cs : List Chunk} (h : Laid cs) (hne : cs ≠ []) : members cs ≠ ∅ := by
  obtain ⟨n, hn⟩ := h.nonempty hne
  exact Finset.ne_empty_of_mem (mem_members.mpr hn)

/-- The union of two maps has the numbers of both, in chunks that are in order. -/
theorem unionChunks_spec {ca cb : List Chunk} (ha : Laid ca) (hb : Laid cb) :
    (unionChunks ca cb).map members = smUnion (members ca) (members cb) ∧
      ∀ cs ∈ unionChunks ca cb, Laid cs := by
  have hnil : members [] = ∅ := rfl
  cases ca with
  | nil =>
    cases cb with
    | nil => exact ⟨rfl, fun cs hcs => absurd hcs (by simp [unionChunks])⟩
    | cons b bs =>
      have heq : unionChunks [] (b :: bs) = some (b :: bs) := by simp [unionChunks]
      rw [heq, hnil, smUnion, Finset.empty_union, if_neg (members_ne_empty hb (List.cons_ne_nil _ _))]
      exact ⟨rfl, fun cs hcs => Option.some.inj hcs ▸ hb⟩
  | cons a as =>
    cases cb with
    | nil =>
      have heq : unionChunks (a :: as) [] = some (a :: as) := by simp [unionChunks]
      rw [heq, hnil, smUnion, Finset.union_empty, if_neg (members_ne_empty ha (List.cons_ne_nil _ _))]
      exact ⟨rfl, fun cs hcs => Option.some.inj hcs ▸ ha⟩
    | cons b bs =>
      obtain ⟨cs, heq, hlaid, hhas⟩ := unionChunks_of_cons ha hb
      have hmem : members cs = members (a :: as) ∪ members (b :: bs) := by
        ext n
        rw [Finset.mem_union, mem_members, mem_members, mem_members, hhas]
      have hne : members (a :: as) ∪ members (b :: bs) ≠ ∅ := by
        rw [← hmem]
        apply members_ne_empty hlaid
        rintro rfl
        obtain ⟨n, hn⟩ := ha.nonempty (List.cons_ne_nil _ _)
        exact not_has_nil n ((hhas n).mpr (Or.inl hn))
      rw [heq, smUnion, if_neg hne, Option.map_some, hmem]
      exact ⟨rfl, fun cs' hcs => Option.some.inj hcs ▸ hlaid⟩

/-- The numbers from 0 to 2999, in a run. -/
def runMap : List Chunk := [⟨0, rleDesc 4096 3000, []⟩]

/-- The map with a run is laid out. -/
theorem laid_runMap : Laid runMap := by
  refine ⟨fun c hc => ?_, List.pairwise_singleton _ _⟩
  rw [List.mem_singleton.mp hc]
  exact (ok_rle (dvd_zero _) ⟨2, rfl⟩ (by decide) (by decide) (by decide) (by decide)).1

end

end PgTre.Sparsemap
