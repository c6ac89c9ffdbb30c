import PgTre.Query.TilePieces

/-!
# Soundness of trigram neighbourhoods for approximate patterns

The spine lists the trigrams inside the literal runs. In a string the pattern matches they
stand at distinct positions, and `k` edits spoil at most `3 k` of them. When the spine is no
longer than that, `pg_tre_tile_spine` succeeds only for one edit, ASCII trigrams and a
single-byte encoding, and there two trigrams of the spine are enough: whatever the edit, it
leaves in the text one of them or a trigram that differs from one of them in a single byte.
-/

namespace PgTre

open Strings

/-! ## Positions of the spine -/

/-- The positions of a buffer's tail, moved behind a first entry that takes `n` characters. -/
private def shiftPosition (n : ℕ) (f : ℕ → ℕ) : ℕ → ℕ
  | 0 => 0
  | i + 1 => f i + n

/-- Where the literals of the buffer stand in a text that spells it. -/
theorem Spells.exists_position {buf : List (Option CodePoint)} {w : List CodePoint}
    (h : Spells buf w) :
    ∃ f : ℕ → ℕ, f 0 = 0 ∧ ∀ i c, buf[i]? = some (some c) →
      w[f i]? = some c ∧ f (i + 1) = f i + 1 ∧ ∀ j, i < j → f i < f j := by
  induction h with
  | nil => exact ⟨id, rfl, by simp⟩
  | literal c _ ih =>
    obtain ⟨f, hzero, hf⟩ := ih
    refine ⟨shiftPosition 1 f, rfl, fun i d hd => ?_⟩
    cases i with
    | zero =>
      refine ⟨by simpa [shiftPosition] using hd, by simp [shiftPosition, hzero], fun j hj => ?_⟩
      obtain ⟨j, rfl⟩ := Nat.exists_eq_add_of_lt hj
      simp [shiftPosition]
    | succ i =>
      obtain ⟨hat, hnext, hmono⟩ := hf i d (by simpa using hd)
      refine ⟨by simpa [shiftPosition] using hat, by simp [shiftPosition, hnext], fun j hj => ?_⟩
      obtain ⟨j, rfl⟩ : ∃ j', j = j' + 1 := ⟨j - 1, by omega⟩
      have hlt := hmono j (by omega)
      simp only [shiftPosition]
      omega
  | gap x _ ih =>
    obtain ⟨f, -, hf⟩ := ih
    refine ⟨shiftPosition x.length f, rfl, fun i d hd => ?_⟩
    cases i with
    | zero => simp at hd
    | succ i =>
      obtain ⟨hat, hnext, hmono⟩ := hf i d (by simpa using hd)
      refine ⟨?_, ?_, fun j hj => ?_⟩
      · rw [shiftPosition, List.getElem?_append_right (by omega), Nat.add_sub_cancel]
        exact hat
      · simp only [shiftPosition, hnext]
        omega
      · obtain ⟨j, rfl⟩ : ∃ j', j = j' + 1 := ⟨j - 1, by omega⟩
        have hlt := hmono j (by omega)
        simp only [shiftPosition]
        omega

/-- An entry of the spine stands for three literals in a row. -/
theorem spineEntries_spec {offset : ℕ} {l : List (Option CodePoint)} {e : SpineEntry}
    (h : e ∈ spineEntries offset l) :
    ∃ i, e.patternOffset = offset + i ∧ l[i]? = some (some e.trigram.1) ∧
      l[i + 1]? = some (some e.trigram.2.1) ∧ l[i + 2]? = some (some e.trigram.2.2) := by
  fun_induction spineEntries offset l with
  | case1 offset a b c l ih =>
    rcases List.mem_cons.mp h with rfl | h
    · exact ⟨0, by simp⟩
    · obtain ⟨i, hoff, h₁, h₂, h₃⟩ := ih h
      exact ⟨i + 1, by omega, by simpa using h₁, by simpa using h₂, by simpa using h₃⟩
  | case2 offset x l hne ih =>
    obtain ⟨i, hoff, h₁, h₂, h₃⟩ := ih h
    exact ⟨i + 1, by omega, by simpa using h₁, by simpa using h₂, by simpa using h₃⟩
  | case3 => simp at h

/-- The entries of the spine come in the order of their positions. -/
theorem spineEntries_pairwise (offset : ℕ) (l : List (Option CodePoint)) :
    (spineEntries offset l).Pairwise (fun e e' => e.patternOffset < e'.patternOffset) := by
  fun_induction spineEntries offset l with
  | case1 offset a b c l ih =>
    refine List.pairwise_cons.mpr ⟨fun e he => ?_, ih⟩
    obtain ⟨i, hoff, -⟩ := spineEntries_spec he
    simp only
    omega
  | case2 offset x l hne ih => exact ih
  | case3 => exact List.Pairwise.nil

/-- In a string the tree matches, the trigrams of the spine stand at ascending positions. -/
theorem exists_spine_position {ast : RegexAst} {spine : List SpineEntry}
    (hspine : extractSpineFromAst ast spineCap = some spine) {pre w post : List CodePoint}
    (hmatch : ast.Matches pre w post) :
    spine.length ≤ spineCap ∧ ∃ g : SpineEntry → ℕ,
      spine.Pairwise (fun e e' => g e < g e') ∧
      ∀ e ∈ spine, w[g e]? = some e.trigram.1 ∧ w[g e + 1]? = some e.trigram.2.1 ∧
        w[g e + 2]? = some e.trigram.2.2 := by
  simp only [extractSpineFromAst, Option.bind_eq_bind, Option.bind_eq_some_iff] at hspine
  obtain ⟨buf, hbuf, hspine⟩ := hspine
  split_ifs at hspine with hlen
  obtain rfl := Option.some.inj hspine
  obtain ⟨f, -, hf⟩ := (spells_of_matches hbuf hmatch).exists_position
  refine ⟨not_lt.mp hlen, fun e => f e.patternOffset, ?_, fun e he => ?_⟩
  · refine (spineEntries_pairwise 0 buf).imp_of_mem fun {e e'} he _ hlt => ?_
    obtain ⟨i, hoff, hfirst, -, -⟩ := spineEntries_spec he
    rw [Nat.zero_add] at hoff
    rw [← hoff] at hfirst
    exact (hf _ _ hfirst).2.2 _ hlt
  · obtain ⟨i, hoff, h₁, h₂, h₃⟩ := spineEntries_spec he
    rw [Nat.zero_add] at hoff
    subst hoff
    obtain ⟨hat₁, hnext₁, -⟩ := hf _ _ h₁
    obtain ⟨hat₂, hnext₂, -⟩ := hf _ _ h₂
    obtain ⟨hat₃, -, -⟩ := hf _ _ h₃
    refine ⟨hat₁, by rwa [← hnext₁], ?_⟩
    rw [show f e.patternOffset + 2 = f (e.patternOffset + 1) + 1 by omega, ← hnext₂]
    exact hat₃

/-! ## What the tiles list -/

/-- A tile lists the expansion of each of its trigrams. -/
theorem tileAlts_eq_some {s : Settings} {k tileK : ℤ} {tile : List SpineEntry}
    {alts res : List TrigramDisjunct} (h : tileAlts s k tileK tile alts = some res) :
    alts ⊆ res ∧ ∀ e ∈ tile, ∃ tris, ulevenExpandCp e.trigram tileK expandedCap = some tris ∧
      ∀ x ∈ tris, ∃ a ∈ res, a.trigramHash = hashTrigramCp x := by
  induction tile generalizing alts with
  | nil =>
    obtain rfl := Option.some.inj h
    exact ⟨List.Subset.refl _, by simp⟩
  | cons e tile ih =>
    rw [tileAlts] at h
    cases htris : ulevenExpandCp e.trigram tileK expandedCap with
    | none => simp [htris] at h
    | some tris =>
      simp only [htris] at h
      by_cases hfanout : s.maxExtractionFanout < alts.length + tris.length
      · rw [if_pos hfanout] at h
        cases h
      rw [if_neg hfanout] at h
      obtain ⟨hsub, hrest⟩ := ih h
      refine ⟨List.Subset.trans (List.subset_append_left _ _) hsub,
        List.forall_mem_cons.mpr ⟨⟨tris, htris, fun x hx => ?_⟩, hrest⟩⟩
      exact ⟨_, hsub (List.mem_append_right _ (List.mem_map_of_mem hx)), rfl⟩

/-- A finished loop has written every tile. -/
theorem tileLoop_eq_ok {s : Settings} {k tileK : ℤ} {spine : List SpineEntry}
    {tileSize remaining t : ℕ} {out res : List TrigramConjunct}
    (h : tileLoop s k tileK spine tileSize remaining t out = .ok res) :
    out ⊆ res ∧ ∀ i < remaining, ∃ c ∈ res,
      tileConjunct s k tileK ((spine.drop ((t + i) * tileSize)).take tileSize) = some c := by
  induction remaining generalizing t out with
  | zero =>
    simp only [tileLoop, Except.ok.injEq] at h
    subst h
    exact ⟨List.Subset.refl _, by simp⟩
  | succ remaining ih =>
    rw [tileLoop] at h
    cases hc : tileConjunct s k tileK ((spine.drop (t * tileSize)).take tileSize) with
    | none => simp [hc] at h
    | some c =>
      simp only [hc] at h
      obtain ⟨hsub, hrest⟩ := ih h
      refine ⟨List.Subset.trans (List.subset_append_left _ _) hsub, fun i hi => ?_⟩
      cases i with
      | zero => exact ⟨c, hsub (by simp), by simpa using hc⟩
      | succ i =>
        obtain ⟨c', hmem, hc'⟩ := hrest i (by omega)
        exact ⟨c', hmem, by rwa [show t + (i + 1) = t + 1 + i by omega]⟩

/-- Every entry of the spine lies in one of the tiles. -/
theorem mem_tile {spine : List SpineEntry} {n : ℕ} (hn : 0 < n) {e : SpineEntry} (he : e ∈ spine) :
    ∃ i < n, e ∈ (spine.drop (i * ((spine.length + n - 1) / n))).take ((spine.length + n - 1) / n) := by
  obtain ⟨j, hj, rfl⟩ := List.getElem_of_mem he
  generalize hsize : (spine.length + n - 1) / n = size
  have hcover : spine.length ≤ n * size := by
    have hdiv := Nat.lt_div_mul_add hn (a := spine.length + n - 1)
    rw [hsize, Nat.mul_comm] at hdiv
    omega
  have hpos : 0 < size := by
    rcases Nat.eq_zero_or_pos size with rfl | hpos
    · omega
    · exact hpos
  refine ⟨j / size, Nat.div_lt_of_lt_mul (by rw [Nat.mul_comm]; omega), ?_⟩
  have hmod := Nat.mod_lt j hpos
  have hsplit : j / size * size + j % size = j := by
    rw [Nat.mul_comm]
    exact Nat.div_add_mod j size
  refine List.mem_iff_getElem?.mpr ⟨j % size, ?_⟩
  rw [List.getElem?_take_of_lt hmod, List.getElem?_drop, hsplit, List.getElem?_eq_getElem hj]

/-- When `pg_tre_tile_spine` returns true for a positive `int32` budget, nothing has wrapped
around: the tiles are no more than the spine, which is longer than `3 k` unless every trigram
is ASCII in a single-byte encoding, and the tiles list every trigram's expansion. -/
theorem tileSpine_eq_true {s : Settings} {spine : List SpineEntry} {k : ℤ} {out q : TrigramQuery}
    (hk : 1 ≤ k) (hint : k ≤ int32Max) (hlen : spine.length ≤ spineCap)
    (h : tileSpine s spine k out = .ok (true, q)) :
    k < spine.length ∧ (anyExactOnly s spine = true → 3 * k < spine.length) ∧
      ∀ e ∈ spine, ∃ tris,
        ulevenExpandCp e.trigram (if 2 < k then 2 else k) expandedCap = some tris ∧
        ∀ x ∈ tris, ∃ c ∈ q.conjuncts, ∃ a ∈ c.alts, a.trigramHash = hashTrigramCp x := by
  generalize htileK : (if 2 < k then 2 else k) = tileK
  unfold tileSpine at h
  dsimp only at h
  rw [htileK] at h
  split_ifs at h with hempty hexact htiles hneg
  · simp at h
  · simp at h
  · simp at h
  have hn : wrap32 (k + 1) = k + 1 := by
    by_cases hmax : k = int32Max
    · have hwrapped : wrap32 (int32Max + 1) < 0 := by decide
      rw [hmax] at hneg
      exact absurd hwrapped hneg
    · unfold int32Max at hint hmax
      exact wrap32_eq_self (by omega) (by omega)
  have hthree : wrap32 (3 * k) = 3 * k := by
    rw [hn] at htiles
    unfold spineCap at hlen
    exact wrap32_eq_self (by omega) (by omega)
  rw [hn] at htiles h
  rw [hthree] at hexact
  refine ⟨by omega, fun hany => by_contra fun hle => hexact ⟨hany, by omega⟩, fun e he => ?_⟩
  obtain ⟨i, hi, hmem⟩ := mem_tile (by omega : 0 < (k + 1).toNat) he
  have hpos : 0 < tileK := by
    rw [← htileK]
    split_ifs <;> omega
  cases hloop : tileLoop s k tileK spine ((spine.length + (k + 1).toNat - 1) / (k + 1).toNat)
      (k + 1).toNat 0 [] with
  | error tiles => simp [hloop] at h
  | ok tiles =>
    simp only [hloop, Except.ok.injEq, Prod.mk.injEq, true_and] at h
    subst h
    obtain ⟨c, hc, hconj⟩ := (tileLoop_eq_ok hloop).2 i hi
    rw [tileConjunct, if_pos hpos, Nat.zero_add, Option.map_eq_some_iff] at hconj
    obtain ⟨alts, halts, rfl⟩ := hconj
    obtain ⟨tris, htris, hlisted⟩ := (tileAlts_eq_some halts).2 e hmem
    exact ⟨tris, htris, fun x hx => ⟨_, hc, hlisted x hx⟩⟩

/-! ## What an expansion lists -/

/-- Radius two overflows on every ASCII trigram. -/
theorem ulevenExpandCp_two_eq_none {tri : Trigram} (h : allAscii tri = true) :
    ulevenExpandCp tri 2 expandedCap = none := by
  rw [ulevenExpandCp, if_neg (by simp [expandedCap]), if_neg (by simp [h])]
  simp only [expandedCap, ulevenExpand_two_eq_none]

/-- Radius one on an ASCII trigram lists every trigram that differs from it in one byte. -/
theorem oneOff_mem_ulevenExpandCp {tri z : Trigram} {tris : List Trigram} {t : List CodePoint}
    (h : ulevenExpandCp tri 1 expandedCap = some tris) (hascii : allAscii tri = true)
    (ht : ∀ c ∈ t, c ≤ 0xFF) (hz : OneOff t tri z) : z ∈ tris := by
  rw [ulevenExpandCp, if_neg (by simp [expandedCap]), if_neg (by simp [hascii])] at h
  have hone : ulevenExpand tri 1 expandedCap = ulevenExpandK1 tri expandedCap := by
    simp [ulevenExpand, expandedCap]
  rw [hone] at h
  cases hexp : ulevenExpandK1 tri expandedCap with
  | none => simp [hexp] at h
  | some res =>
    simp only [hexp, Option.some.injEq] at h
    rw [← h, mem_dedupeTrigrams]
    obtain ⟨e, he, hz⟩ := hz
    obtain ⟨h₁, h₂, h₃⟩ := subst_mem_ulevenExpandK1 hexp (ht e he)
    rcases hz with rfl | rfl | rfl
    · exact h₁
    · exact h₂
    · exact h₃

/-- An expansion of radius one or two lists the trigram itself. -/
theorem self_mem_ulevenExpandCp {tri : Trigram} {tileK : ℤ} {tris : List Trigram}
    (hK : tileK = 1 ∨ tileK = 2) (h : ulevenExpandCp tri tileK expandedCap = some tris) :
    tri ∈ tris := by
  cases hascii : allAscii tri with
  | false =>
    rw [ulevenExpandCp, if_neg (by rcases hK with rfl | rfl <;> simp [expandedCap]),
      if_pos (Or.inr hascii)] at h
    rw [← Option.some.inj h]
    exact List.mem_singleton_self tri
  | true =>
    rcases hK with rfl | rfl
    · have hbyte : ∀ c ∈ [tri.1], c ≤ 0xFF := by
        simp only [allAscii, decide_eq_true_eq] at hascii
        simp only [List.mem_singleton, forall_eq]
        exact hascii.1.trans (by decide)
      exact oneOff_mem_ulevenExpandCp h hascii hbyte ⟨tri.1, by simp, Or.inl rfl⟩
    · rw [ulevenExpandCp_two_eq_none hascii] at h
      cases h

/-- The trigrams of a spine that can be expanded in full are ASCII, in a single-byte
encoding. -/
theorem ascii_of_not_anyExactOnly {s : Settings} {spine : List SpineEntry}
    (h : anyExactOnly s spine = false) :
    s.dbMaxCharLen ≤ 1 ∧ ∀ e ∈ spine, allAscii e.trigram = true := by
  simp only [anyExactOnly, Bool.or_eq_false_iff, decide_eq_false_iff_not, not_lt,
    List.any_eq_false, Bool.or_eq_true, decide_eq_true_eq, not_or] at h
  refine ⟨h.1, fun e he => ?_⟩
  obtain ⟨⟨h₁, h₂⟩, h₃⟩ := h.2 e he
  simp [allAscii, h₁, h₂, h₃]

/-! ## Survival -/

/-- Of a spine longer than `3 k` one trigram survives `k` edits. -/
theorem exists_spine_window {spine : List SpineEntry} {g : SpineEntry → ℕ} {w t : List CodePoint}
    {k : ℕ} (hpair : spine.Pairwise (fun e e' => g e < g e'))
    (hat : ∀ e ∈ spine, w[g e]? = some e.trigram.1 ∧ w[g e + 1]? = some e.trigram.2.1 ∧
      w[g e + 2]? = some e.trigram.2.2) (hedits : Edits k w t) (hlong : 3 * k < spine.length) :
    ∃ e ∈ spine, e.trigram ∈ windows t := by
  have hnodup : (spine.map g).Nodup := by
    rw [List.nodup_iff_pairwise_ne, List.pairwise_map]
    exact hpair.imp fun hlt => hlt.ne
  have hcard : 3 * k < (spine.map g).toFinset.card := by
    rwa [List.toFinset_card_of_nodup hnodup, List.length_map]
  have hin : ∀ i ∈ (spine.map g).toFinset, i + 3 ≤ w.length := by
    intro i hi
    obtain ⟨e, he, rfl⟩ := List.mem_map.mp (List.mem_toFinset.mp hi)
    obtain ⟨h₁, h₂, h₃⟩ := hat e he
    exact (windowAt_eq h₁ h₂ h₃).2
  obtain ⟨i, hi, hinside⟩ := hedits.window_survives hin hcard
  obtain ⟨e, he, rfl⟩ := List.mem_map.mp (List.mem_toFinset.mp hi)
  obtain ⟨h₁, h₂, h₃⟩ := hat e he
  rw [(windowAt_eq h₁ h₂ h₃).1] at hinside
  exact ⟨e, he, mem_windows_of_isInfix hinside⟩

/-- Soundness of approximate extraction by trigram neighbourhoods. Whenever
`pg_tre_tile_spine` returns true for the spine of a tree, a budget `k ≥ 1` of type `int32` and
any fan-out limit, every text with a substring within `k` edits of a match contains a listed
trigram; in a single-byte encoding the text's characters are bytes. -/
theorem tileSpine_sound (s : Settings) (ast : RegexAst) (spine : List SpineEntry) (k : ℤ)
    (out q : TrigramQuery) (t : List CodePoint)
    (hspine : extractSpineFromAst ast spineCap = some spine) (hk : 1 ≤ k) (hint : k ≤ int32Max)
    (h : tileSpine s spine k out = .ok (true, q))
    (hbytes : s.dbMaxCharLen ≤ 1 → ∀ c ∈ t, c ≤ 0xFF) (hoccurs : ast.OccursWithin k.toNat t) :
    ∃ c ∈ q.conjuncts, ∃ a ∈ c.alts, HasTrigram t a.trigramHash := by
  obtain ⟨x, s', y, rfl, before, w, after, hmatch, hedits⟩ := hoccurs
  obtain ⟨hlen, g, hpair, hat⟩ := exists_spine_position hspine hmatch
  obtain ⟨htiles, hexact, hlisted⟩ := tileSpine_eq_true hk hint hlen h
  have hsub : windows s' ⊆ windows (x ++ (s' ++ y)) :=
    windows_subset_of_isInfix ⟨x, y, by simp⟩
  have hfound {e : SpineEntry} (he : e ∈ spine) {tris : List Trigram}
      (htris : ulevenExpandCp e.trigram (if 2 < k then 2 else k) expandedCap = some tris)
      {z : Trigram} (hz : z ∈ tris) (hzt : z ∈ windows s') :
      ∃ c ∈ q.conjuncts, ∃ a ∈ c.alts, HasTrigram (x ++ (s' ++ y)) a.trigramHash := by
    obtain ⟨tris', htris', hall⟩ := hlisted e he
    obtain rfl : tris = tris' := by simpa [htris] using htris'
    obtain ⟨c, hc, a, ha, hash⟩ := hall z hz
    exact ⟨c, hc, a, ha, z, hsub hzt, hash.symm⟩
  cases hany : anyExactOnly s spine with
  | true =>
    have hlong := hexact hany
    obtain ⟨e, he, hwin⟩ := exists_spine_window hpair hat hedits (by omega)
    obtain ⟨tris, htris, -⟩ := hlisted e he
    have hK : (if 2 < k then 2 else k) = 1 ∨ (if 2 < k then 2 else k) = 2 := by
      split_ifs <;> omega
    exact hfound he htris (self_mem_ulevenExpandCp hK htris) hwin
  | false =>
    obtain ⟨hsingle, hascii⟩ := ascii_of_not_anyExactOnly hany
    obtain ⟨e, e', rest, rfl⟩ : ∃ e e' rest, spine = e :: e' :: rest := by
      match spine, htiles with
      | [], htiles => simp at htiles; omega
      | [_], htiles => simp at htiles; omega
      | e :: e' :: rest, _ => exact ⟨e, e', rest, rfl⟩
    obtain ⟨tris, htris, -⟩ := hlisted e (by simp)
    obtain ⟨tris', htris', -⟩ := hlisted e' (by simp)
    have hone : k = 1 := by
      by_contra hne
      have hK : (if 2 < k then 2 else k) = 2 := by split_ifs <;> omega
      rw [hK, ulevenExpandCp_two_eq_none (hascii e (by simp))] at htris
      cases htris
    subst hone
    have hmem : ∀ c ∈ s', c ≤ 0xFF := fun c hc => hbytes hsingle c (by simp [hc])
    have hlt : g e < g e' := List.rel_of_pairwise_cons hpair (by simp)
    obtain ⟨z, hz, hoff | hoff⟩ :=
      hedits.near_window hlt (hat e (by simp)) (hat e' (by simp))
    · exact hfound (by simp) htris
        (oneOff_mem_ulevenExpandCp htris (hascii e (by simp)) hmem hoff) hz
    · exact hfound (by simp) htris'
        (oneOff_mem_ulevenExpandCp htris' (hascii e' (by simp)) hmem hoff) hz

/-- The pattern `αβγδεζ`. -/
def greekWord : RegexAst := (RegexAst.literal 945).followedBy [946, 947, 948, 949, 950]

/-- In a multibyte encoding the four trigrams of `αβγδεζ` survive one edit: the text
`xαβγωεζ` has the first of them. -/
theorem tileSpine_sound_greekWord :
    ∃ spine q, extractSpineFromAst greekWord spineCap = some spine ∧
      tileSpine ⟨256, 4⟩ spine 1 .zero = .ok (true, q) ∧
      ∃ c ∈ q.conjuncts, ∃ a ∈ c.alts,
        HasTrigram [120, 945, 946, 947, 969, 949, 950] a.trigramHash := by
  have hwithin : greekWord.OccursWithin 1 [120, 945, 946, 947, 969, 949, 950] := by
    refine ⟨[120], [945, 946, 947, 969, 949, 950], [], rfl, [], [945, 946, 947, 948, 949, 950], [],
      ?_, ?_⟩
    · exact @RegexAst.followedBy_matches (.literal 945) _ [945] _ _ rfl
    · exact .keep _ (.keep _ (.keep _ (.subst _ _ (Edits.refl 0 _))))
  refine ⟨_, _, rfl, rfl, ?_⟩
  exact tileSpine_sound ⟨256, 4⟩ greekWord _ 1 .zero _ _ rfl (by decide) (by decide) rfl
    (by decide) hwithin

end PgTre
