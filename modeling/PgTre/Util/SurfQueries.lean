import PgTre.Util.SurfTrie

/-!
# Exact answers of the range filter

The trie has every key in full, so both queries of `src/util/surf.c` are exact. A point query follows
the bytes of the key. A range query looks for the smallest key that is not below the range: it
follows the bytes of the bound, and where they end it takes the next edge of the deepest node on the
path that has one.
-/

namespace PgTre

/-! ## The loops over the labels of a node -/

section

variable {b : UInt8} {ls : List UInt8} {p : ℕ}

/-- A label that is there is found at its place. -/
theorem scanLabel_of_mem (hasc : ls.Pairwise (· < ·)) (h : b ∈ ls) :
    ∃ j, ls[j]? = some b ∧ scanLabel b ls p = some (p + j) := by
  induction ls generalizing p with
  | nil => simp at h
  | cons l ls ih =>
    obtain ⟨hfirst, hrest⟩ := List.pairwise_cons.mp hasc
    unfold scanLabel
    rcases List.mem_cons.mp h with rfl | h
    · exact ⟨0, rfl, by simp⟩
    · have hlt := hfirst b h
      obtain ⟨j, hget, hscan⟩ := @ih (p + 1) hrest h
      have hnot : ¬b < l := UInt8.not_lt.mpr (UInt8.le_of_lt hlt)
      refine ⟨j + 1, by simpa using hget, ?_⟩
      rw [if_neg (UInt8.ne_of_lt hlt), if_neg hnot, hscan]
      congr 1
      omega

/-- A label that is not there is not found. -/
theorem scanLabel_of_not_mem (h : b ∉ ls) : scanLabel b ls p = none := by
  induction ls generalizing p with
  | nil => rfl
  | cons l ls ih =>
    rw [List.mem_cons, not_or] at h
    obtain ⟨hl, hls⟩ := h
    unfold scanLabel
    rw [if_neg (Ne.symm hl), ih hls, ite_self]

/-- When no label is found all are below. -/
theorem scanGe_eq_none (h : scanGe b ls p = none) : ∀ l ∈ ls, l < b := by
  induction ls generalizing p with
  | nil => simp
  | cons l ls ih =>
    unfold scanGe at h
    split_ifs at h with hle
    intro l' hl'
    rcases List.mem_cons.mp hl' with rfl | hl'
    · exact UInt8.not_le.mp hle
    · exact ih h l' hl'

/-- The label found is the first that is not below. -/
theorem scanGe_eq_some {q : ℕ} {l : UInt8} (h : scanGe b ls p = some (q, l)) :
    ∃ j, q = p + j ∧ ls[j]? = some l ∧ b ≤ l ∧ ∀ i < j, ∀ l', ls[i]? = some l' → l' < b := by
  induction ls generalizing p with
  | nil => simp [scanGe] at h
  | cons l₀ ls ih =>
    unfold scanGe at h
    split_ifs at h with hle
    · obtain ⟨rfl, rfl⟩ : p = q ∧ l₀ = l := by simpa using h
      exact ⟨0, rfl, rfl, hle, by omega⟩
    · obtain ⟨j, rfl, hget, hb, hbefore⟩ := ih h
      refine ⟨j + 1, by omega, by simpa using hget, hb, ?_⟩
      intro i hi l' hl'
      cases i with
      | zero =>
        obtain rfl : l₀ = l' := by simpa using hl'
        exact UInt8.not_le.mp hle
      | succ i => exact hbefore i (by omega) l' (by simpa using hl')

end

/-- In an ascending list the first key that is not below a bound is the least. -/
theorem find?_eq_some_of_least {keys : List UInt64} (hsorted : keys.Pairwise (· < ·))
    {lo key : UInt64} (hmem : key ∈ keys) (hle : lo ≤ key)
    (hleast : ∀ k ∈ keys, lo ≤ k → key ≤ k) : keys.find? (lo ≤ ·) = some key := by
  induction keys with
  | nil => simp at hmem
  | cons k keys ih =>
    obtain ⟨hfirst, hrest⟩ := List.pairwise_cons.mp hsorted
    by_cases hk : lo ≤ k
    · rw [List.find?_cons_of_pos (by simpa using hk)]
      rcases List.mem_cons.mp hmem with rfl | hmem
      · rfl
      · have hle' := hleast k List.mem_cons_self hk
        exact absurd hle' (UInt64.not_le.mpr (hfirst key hmem))
    · rw [List.find?_cons_of_neg (by simpa using hk)]
      rcases List.mem_cons.mp hmem with rfl | hmem
      · exact absurd hle hk
      · exact ih hrest hmem fun k' hk' => hleast k' (List.mem_cons_of_mem _ hk')

/-- The first key of a sorted list that is not below the bound is the least one. -/
theorem least_of_find? {keys : List UInt64} (hsorted : keys.Pairwise (· < ·)) {lo key : UInt64}
    (h : keys.find? (lo ≤ ·) = some key) :
    key ∈ keys ∧ lo ≤ key ∧ ∀ k ∈ keys, lo ≤ k → key ≤ k := by
  obtain ⟨hle, front, back, rfl, hfront⟩ := List.find?_eq_some_iff_append.mp h
  refine ⟨by simp, by simpa using hle, fun k hk hlo => ?_⟩
  rcases List.mem_append.mp hk with hk | hk
  · have hnot := hfront k hk
    simp only [Bool.not_eq_true', decide_eq_false_iff_not] at hnot
    exact absurd hlo hnot
  · rcases List.mem_cons.mp hk with rfl | hk
    · exact UInt64.le_refl _
    · have hasc := (List.pairwise_append.mp hsorted).2.1
      exact UInt64.le_of_lt ((List.pairwise_cons.mp hasc).1 k hk)

section

variable {keys : List UInt64} (hsorted : keys.Pairwise (· < ·))
  {s : PgTreSurf} {nodes : List SurfNode} (hs : s.Reads nodes) (hok : ∀ v ∈ nodes, v.Ok keys)
include hsorted hs hok

/-! ## Point queries -/

/-- The scan of a node finds the edge with the next byte of a key, or the key is not in the node. -/
theorem scanLabel_nodeLabels {i : ℕ} {v : SurfNode} (hv : nodes[i]? = some v) (key : UInt64) :
    (∃ j e, (emitRange v.1 true v.2)[j]? = some e ∧ e.label = keyByte key v.1 ∧
      scanLabel (keyByte key v.1) (nodeLabels s i) (surfNodeFirst s i) =
        some (surfNodeFirst s i + j)) ∨
    (scanLabel (keyByte key v.1) (nodeLabels s i) (surfNodeFirst s i) = none ∧ key ∉ v.2) := by
  have hvok := hok v (List.mem_of_getElem? hv)
  obtain ⟨-, hlabels, hall⟩ := @emitRange_spec v.1 true v.2 (hvok.pairwise hsorted)
  rw [hs.labels i v hv]
  by_cases hmem : keyByte key v.1 ∈ (emitRange v.1 true v.2).map (·.label)
  · left
    obtain ⟨j, hget, hscan⟩ := @scanLabel_of_mem _ _ (surfNodeFirst s i) hlabels hmem
    rw [List.getElem?_map, Option.map_eq_some_iff] at hget
    obtain ⟨e, he, hlabel⟩ := hget
    exact ⟨j, e, he, hlabel, hscan⟩
  · right
    refine ⟨scanLabel_of_not_mem hmem, fun hkey => ?_⟩
    obtain ⟨e, he, hlabel⟩ := hall key hkey
    exact hmem (List.mem_map.mpr ⟨e, he, hlabel⟩)

/-- Below a node whose prefix a key has, the walk of `pg_tre_surf_may_contain` finds the key if it
is there. -/
theorem mayContainFrom_iff {n i : ℕ} {v : SurfNode} (hv : nodes[i]? = some v) (hd : v.1 + n = 7)
    {key : UInt64} (hpre : ∀ k ∈ v.2, keyPrefix v.1 k = keyPrefix v.1 key) :
    mayContainFrom s key (n + 1) i = true ↔ key ∈ v.2 := by
  induction n generalizing i v with
  | zero =>
    have hvok := hok v (List.mem_of_getElem? hv)
    have hdepth : 7 - 0 = v.1 := by omega
    unfold mayContainFrom
    rw [hdepth]
    rcases scanLabel_nodeLabels hsorted hs hok hv key with ⟨j, e, he, hlabel, hscan⟩ | ⟨hscan, hkey⟩
    · have hmem := List.mem_of_getElem? he
      obtain ⟨hne, hchild, -⟩ := (@emitRange_spec v.1 true v.2 (hvok.pairwise hsorted)).1 e hmem
      have hterminal : e.hasChild = false := by
        rw [hchild, decide_eq_false_iff_not]
        omega
      rw [hscan]
      simp only [if_true, hs.hasChild i v j e hv he, hterminal, Bool.not_false, true_iff]
      -- The one key below the edge has all bytes of the key.
      obtain ⟨k, hk⟩ := List.exists_mem_of_ne_nil _ hne
      obtain ⟨hkv, hbyte⟩ := (hvok.mem_keys hsorted hmem).mp hk
      have height : keyPrefix 8 k = keyPrefix 8 key := by
        have hsucc := (@keyPrefix_succ_inj v.1 k key (by omega)).mpr ⟨hpre k hkv, by rw [hbyte, hlabel]⟩
        rwa [show v.1 + 1 = 8 by omega] at hsucc
      rw [← eq_of_keyPrefix_eight height]
      exact hkv
    · rw [hscan]
      simpa using hkey
  | succ n ih =>
    have hvok := hok v (List.mem_of_getElem? hv)
    have hdepth : 7 - (n + 1) = v.1 := by omega
    unfold mayContainFrom
    rw [hdepth]
    rcases scanLabel_nodeLabels hsorted hs hok hv key with ⟨j, e, he, hlabel, hscan⟩ | ⟨hscan, hkey⟩
    · have hmem := List.mem_of_getElem? he
      have hchild : e.hasChild = true := by
        rw [((@emitRange_spec v.1 true v.2 (hvok.pairwise hsorted)).1 e hmem).2.1, decide_eq_true_eq]
        omega
      have hbelow := hs.child i v j e hv he hchild
      rw [hscan]
      simp only [hs.hasChild i v j e hv he, hchild, Bool.not_true, Bool.false_eq_true, if_false,
        Nat.add_eq_zero_iff, one_ne_zero, and_false]
      rw [ih hbelow (by simp only; omega), hvok.mem_keys hsorted hmem, hlabel]
      · simp
      · intro k hk
        obtain ⟨hkv, hbyte⟩ := (hvok.mem_keys hsorted hmem).mp hk
        exact (keyPrefix_succ_inj hvok.depth_le).mpr ⟨hpre k hkv, by rw [hbyte, hlabel]⟩
    · rw [hscan]
      simpa using hkey

/-! ## The successor of a key -/

/-- The leftmost path below an edge ends with the first key below it. -/
theorem surfMinBelow_eq {n i j : ℕ} {v : SurfNode} {e : SurfEdge} (hv : nodes[i]? = some v)
    (he : (emitRange v.1 true v.2)[j]? = some e) (hd : v.1 + n = 7) {key : UInt64}
    (hkey : e.keys.head? = some key) :
    surfMinBelow s n (surfNodeFirst s i + j) (keyBytes (v.1 + 1) key) = some key := by
  induction n generalizing i j v e with
  | zero =>
    have hvok := hok v (List.mem_of_getElem? hv)
    have hchild := ((@emitRange_spec v.1 true v.2 (hvok.pairwise hsorted)).1 e
      (List.mem_of_getElem? he)).2.1
    have hterminal : e.hasChild = false := by
      rw [hchild, decide_eq_false_iff_not]
      omega
    have height : v.1 + 1 = 8 := by omega
    unfold surfMinBelow
    rw [hs.hasChild i v j e hv he, hterminal, height, accKey_keyBytes]
    rfl
  | succ n ih =>
    have hvok := hok v (List.mem_of_getElem? hv)
    have hchild := ((@emitRange_spec v.1 true v.2 (hvok.pairwise hsorted)).1 e
      (List.mem_of_getElem? he)).2.1
    have hdescends : e.hasChild = true := by
      rw [hchild, decide_eq_true_eq]
      omega
    have hbelow := hs.child i v j e hv he hdescends
    obtain ⟨ks, hks⟩ : ∃ ks, e.keys = key :: ks := by
      cases hk : e.keys with
      | nil => simp [hk] at hkey
      | cons k ks =>
        obtain rfl : k = key := by simpa [hk] using hkey
        exact ⟨ks, rfl⟩
    obtain ⟨e', es, hemit, hlabel, hhead⟩ := @emitRange_cons (v.1 + 1) true key ks
    have he' : (emitRange (v.1 + 1) true e.keys)[0]? = some e' := by
      rw [hks, hemit]
      rfl
    have hget := hs.label _ (v.1 + 1, e.keys) 0 e' hbelow he'
    have hrest := ih hbelow he' (by simp only; omega) hhead
    rw [Nat.add_zero] at hget hrest
    unfold surfMinBelow
    simp only [hs.hasChild i v j e hv he, hdescends, Bool.not_true, Bool.false_eq_true, if_false]
    rw [hget, hlabel, ← keyBytes_succ]
    exact hrest

omit hs in
/-- The least key that is not below the bound, at a node on the path of the bound: the first key
below the first edge with a greater byte, when no key with the next byte of the bound as well is
left. -/
theorem find?_eq_head {v : SurfNode} (hv : v ∈ nodes) {lo : UInt64}
    (hrange : ∀ k ∈ keys, k ∈ v.2 ↔ keyPrefix v.1 k = keyPrefix v.1 lo) {j : ℕ} {e : SurfEdge}
    (he : (emitRange v.1 true v.2)[j]? = some e) (hgreater : keyByte lo v.1 < e.label)
    (hbefore : ∀ i < j, ∀ e', (emitRange v.1 true v.2)[i]? = some e' → e'.label ≤ keyByte lo v.1)
    (hnone : ∀ k ∈ keys, keyPrefix (v.1 + 1) k = keyPrefix (v.1 + 1) lo → k < lo) :
    ∃ key, e.keys.head? = some key ∧ keyPrefix v.1 key = keyPrefix v.1 lo ∧
      keyByte key v.1 = e.label ∧ keys.find? (lo ≤ ·) = some key := by
  have hvok := hok v hv
  obtain ⟨hedges, hlabels, hall⟩ := @emitRange_spec v.1 true v.2 (hvok.pairwise hsorted)
  have hmem := List.mem_of_getElem? he
  have hd := hvok.depth_le
  obtain ⟨q, hq⟩ := hvok.complete
  have hin : ∀ k ∈ v.2, k ∈ keys := by
    intro k hk
    rw [hq] at hk
    exact (List.mem_filter.mp hk).1
  cases hkeys : e.keys with
  | nil => exact absurd hkeys (hedges e hmem).1
  | cons key ks =>
    obtain ⟨hkv, hbyte⟩ := (hvok.mem_keys hsorted hmem).mp (hkeys ▸ List.mem_cons_self)
    have hpre := (hrange key (hin key hkv)).mp hkv
    have hlt : lo < key := lt_of_keyByte_lt hd hpre.symm (by rw [hbyte]; exact hgreater)
    have hasc : (key :: ks).Pairwise (· < ·) := by
      rw [← hkeys, (hedges e hmem).2.2, hq]
      exact (hsorted.filter _).filter _
    refine ⟨key, rfl, hpre, hbyte, ?_⟩
    apply find?_eq_some_of_least hsorted (hin key hkv) (UInt64.le_of_lt hlt)
    intro k hk hle
    have hprele := @keyPrefix_le v.1 _ _ hle
    rcases Nat.lt_or_eq_of_le hprele with hprelt | hpreeq
    · exact UInt64.le_of_lt (@lt_of_keyPrefix_lt v.1 _ _ (by rw [hpre]; exact hprelt))
    · -- The key is in the node, below an edge with a greater byte.
      have hkmem := (hrange k hk).mpr hpreeq.symm
      obtain ⟨e', he', hlabel'⟩ := hall k hkmem
      obtain ⟨j', hj', hget'⟩ := List.mem_iff_getElem.mp he'
      have hget'' : (emitRange v.1 true v.2)[j']? = some e' := by
        rw [List.getElem?_eq_getElem hj', hget']
      have hbyte' : keyByte lo v.1 < keyByte k v.1 := by
        apply UInt8.lt_of_le_of_ne (keyByte_le hd hpreeq hle)
        intro heq
        have hless := hnone k hk ((keyPrefix_succ_inj hd).mpr ⟨hpreeq.symm, heq.symm⟩)
        exact absurd hle (UInt64.not_le.mpr hless)
      have hjj' : j ≤ j' := by
        by_contra hlt'
        have hle' := hbefore j' (by omega) e' hget''
        rw [hlabel'] at hle'
        exact absurd hle' (UInt8.not_le.mpr hbyte')
      rcases Nat.lt_or_eq_of_le hjj' with hlt' | rfl
      · obtain ⟨hj, hgetj⟩ := List.getElem?_eq_some_iff.mp he
        have hlabellt := List.pairwise_iff_getElem.mp hlabels j j' (by simpa using hj)
          (by simpa using hj') hlt'
        rw [List.getElem_map, List.getElem_map, hgetj, hget', hlabel', ← hbyte] at hlabellt
        exact UInt64.le_of_lt (lt_of_keyByte_lt hd (by rw [hpre, hpreeq]) hlabellt)
      · obtain rfl : e' = e := by
          rw [he] at hget''
          exact (Option.some.inj hget'').symm
        have hkin := (hvok.mem_keys hsorted he').mpr ⟨hkmem, hlabel'.symm⟩
        rw [hkeys] at hkin
        rcases List.mem_cons.mp hkin with rfl | hkin
        · exact UInt64.le_refl _
        · exact UInt64.le_of_lt ((List.pairwise_cons.mp hasc).1 k hkin)

end

/-! ## Backtracking -/

section

variable {s : PgTreSurf} {nodes : List SurfNode} {keys : List UInt64} {lo : UInt64}

/-- The next position after the one chosen in a node, or the end. -/
def nextPos (s : PgTreSurf) (f : ℕ × ℕ) : ℕ :=
  if f.2 = surfNodeEnd s f.1 then surfNodeEnd s f.1 else f.2 + 1

/-- What `surf_successor` records of a node on the path of the bound: the node has the keys with the
first bytes of the bound, and up to the position chosen the labels are not greater than its next
byte, behind it they are. -/
structure SurfFrame (s : PgTreSurf) (nodes : List SurfNode) (keys : List UInt64) (lo : UInt64)
    (d : ℕ) (f : ℕ × ℕ) (v : SurfNode) : Prop where
  node : nodes[f.1]? = some v
  depth : v.1 = d
  range : ∀ k ∈ keys, k ∈ v.2 ↔ keyPrefix v.1 k = keyPrefix v.1 lo
  first_le : surfNodeFirst s f.1 ≤ nextPos s f
  passed : ∀ j e, (emitRange v.1 true v.2)[j]? = some e →
    (surfNodeFirst s f.1 + j < nextPos s f ↔ e.label ≤ keyByte lo v.1)

/-- The path recorded so far, the deepest node first. -/
def SurfPath (s : PgTreSurf) (nodes : List SurfNode) (keys : List UInt64) (lo : UInt64) :
    List (ℕ × ℕ) → Prop
  | [] => True
  | f :: above => (∃ v, SurfFrame s nodes keys lo above.length f v) ∧ SurfPath s nodes keys lo above

variable (hsorted : keys.Pairwise (· < ·)) (hs : s.Reads nodes) (hok : ∀ v ∈ nodes, v.Ok keys)
include hsorted hs hok

/-- When no key that is left has the whole path and is not below the bound, backtracking finds the
least key that is not below it. -/
theorem surfBacktrack_eq {path : List (ℕ × ℕ)} (hpath : SurfPath s nodes keys lo path) {n : ℕ}
    (hn : path.length ≤ n + 1)
    (hnone : ∀ k ∈ keys, keyPrefix path.length k = keyPrefix path.length lo → k < lo) :
    surfBacktrack s (keyBytes n lo) path = keys.find? (lo ≤ ·) := by
  induction path with
  | nil =>
    rw [surfBacktrack, eq_comm, List.find?_eq_none]
    intro k hk
    have hlt := hnone k hk (by simp)
    simpa using hlt
  | cons f above ih =>
    obtain ⟨⟨v, hframe⟩, habove⟩ := hpath
    have hvok := hok v (List.mem_of_getElem? hframe.node)
    have hd := hvok.depth_le
    have hdepth := hframe.depth
    have hstop := hs.stop f.1 v hframe.node
    rw [List.length_cons] at hn hnone
    rw [← hdepth] at hn hnone ih
    unfold surfBacktrack
    simp only [← nextPos.eq_def, ← hdepth]
    split_ifs with hmore
    · -- The next edge has a greater byte, and those before it have not.
      obtain ⟨j, hj⟩ : ∃ j, nextPos s f = surfNodeFirst s f.1 + j :=
        ⟨nextPos s f - surfNodeFirst s f.1, by have := hframe.first_le; omega⟩
      have hjlt : j < (emitRange v.1 true v.2).length := by omega
      have hget := List.getElem?_eq_getElem hjlt
      generalize (emitRange v.1 true v.2)[j] = e at hget
      have hgreater : keyByte lo v.1 < e.label := by
        have hpassed := hframe.passed j e hget
        rw [hj] at hpassed
        exact UInt8.not_le.mp fun hle => absurd (hpassed.mpr hle) (by omega)
      have hbefore : ∀ i < j, ∀ e', (emitRange v.1 true v.2)[i]? = some e' →
          e'.label ≤ keyByte lo v.1 := by
        intro i hi e' he'
        exact (hframe.passed i e' he').mp (by omega)
      obtain ⟨key, hkey, hpre, hbyte, hfind⟩ := find?_eq_head hsorted hok
        (List.mem_of_getElem? hframe.node) hframe.range hget hgreater hbefore hnone
      have hacc : (keyBytes n lo).take v.1 ++ [s.labels.getD (nextPos s f) 0] =
          keyBytes (v.1 + 1) key := by
        rw [take_keyBytes (by omega), hj, hs.label f.1 v j e hframe.node hget, keyBytes_succ, hbyte,
          keyBytes_congr hpre.symm (by omega)]
      rw [hacc, hj, hfind]
      exact surfMinBelow_eq hsorted hs hok hframe.node hget (by omega) hkey
    · apply ih habove (by omega)
      -- No key with the shorter prefix is left: all edges have bytes that are not greater.
      intro k hk hpre
      have hkmem := (hframe.range k hk).mpr hpre
      obtain ⟨e, he, hlabel⟩ :=
        (@emitRange_spec v.1 true v.2 (hvok.pairwise hsorted)).2.2 k hkmem
      obtain ⟨j, hj, hget⟩ := List.mem_iff_getElem.mp he
      have hget' : (emitRange v.1 true v.2)[j]? = some e := by
        rw [List.getElem?_eq_getElem hj, hget]
      have hle := (hframe.passed j e hget').mp (by omega)
      rw [hlabel] at hle
      by_cases heq : keyByte k v.1 = keyByte lo v.1
      · exact hnone k hk ((keyPrefix_succ_inj hd).mpr ⟨hpre, heq⟩)
      · exact lt_of_keyByte_lt hd hpre (UInt8.lt_of_le_of_ne hle heq)

omit hs in
/-- A key that goes on with a byte of the bound is below the edge of this byte. -/
theorem label_of_keyPrefix {v : SurfNode} (hv : v ∈ nodes)
    (hrange : ∀ k ∈ keys, k ∈ v.2 ↔ keyPrefix v.1 k = keyPrefix v.1 lo) {k : UInt64} (hk : k ∈ keys)
    (hpre : keyPrefix (v.1 + 1) k = keyPrefix (v.1 + 1) lo) :
    keyByte lo v.1 ∈ (emitRange v.1 true v.2).map (·.label) := by
  have hvok := hok v hv
  obtain ⟨hpre', hbyte⟩ := (keyPrefix_succ_inj hvok.depth_le).mp hpre
  obtain ⟨e, he, hlabel⟩ := (@emitRange_spec v.1 true v.2 (hvok.pairwise hsorted)).2.2 k
    ((hrange k hk).mpr hpre')
  exact List.mem_map.mpr ⟨e, he, by rw [hlabel, hbyte]⟩

/-- The scan of a node on the path of the bound: backtracking from it, or an edge with a greater
byte, finds the least key that is not below the bound; else the edge with its next byte is found. -/
theorem scanGe_nodeLabels {i : ℕ} {v : SurfNode} (hv : nodes[i]? = some v)
    (hrange : ∀ k ∈ keys, k ∈ v.2 ↔ keyPrefix v.1 k = keyPrefix v.1 lo) {path : List (ℕ × ℕ)}
    (hpath : SurfPath s nodes keys lo path) (hlen : path.length = v.1) :
    match scanGe (keyByte lo v.1) (nodeLabels s i) (surfNodeFirst s i) with
    | none => surfBacktrack s (keyBytes v.1 lo) ((i, surfNodeEnd s i) :: path) =
        keys.find? (lo ≤ ·)
    | some (p, l) => ∃ j e, (emitRange v.1 true v.2)[j]? = some e ∧ e.label = l ∧
        p = surfNodeFirst s i + j ∧
        (l ≠ keyByte lo v.1 → surfMinBelow s (7 - v.1) p (keyBytes v.1 lo ++ [l]) =
          keys.find? (lo ≤ ·)) ∧
        (l = keyByte lo v.1 → SurfPath s nodes keys lo ((i, p) :: path)) := by
  have hmem := List.mem_of_getElem? hv
  have hvok := hok v hmem
  have hd := hvok.depth_le
  obtain ⟨-, hlabels, -⟩ := @emitRange_spec v.1 true v.2 (hvok.pairwise hsorted)
  have hstop := hs.stop i v hv
  rw [hs.labels i v hv]
  cases hscan : scanGe (keyByte lo v.1) ((emitRange v.1 true v.2).map (·.label))
      (surfNodeFirst s i) with
  | none =>
    have hless := scanGe_eq_none hscan
    have hnext : nextPos s (i, surfNodeEnd s i) = surfNodeEnd s i := by simp [nextPos]
    have hframe : SurfFrame s nodes keys lo path.length (i, surfNodeEnd s i) v := by
      refine ⟨hv, hlen.symm, hrange, by rw [hnext]; simp only; omega, ?_⟩
      intro j e he
      obtain ⟨hj, -⟩ := List.getElem?_eq_some_iff.mp he
      have hlabel := hless e.label (List.mem_map_of_mem (List.mem_of_getElem? he))
      rw [hnext]
      exact iff_of_true (by simp only; omega) (UInt8.le_of_lt hlabel)
    have hpath' : SurfPath s nodes keys lo ((i, surfNodeEnd s i) :: path) := ⟨⟨v, hframe⟩, hpath⟩
    apply surfBacktrack_eq hsorted hs hok hpath'
    · rw [List.length_cons, hlen]
    · intro k hk hpre
      rw [List.length_cons, hlen] at hpre
      have hlabel := label_of_keyPrefix hsorted hok hmem hrange hk hpre
      exact absurd (hless _ hlabel) (UInt8.lt_irrefl _)
  | some found =>
    obtain ⟨p, l⟩ := found
    obtain ⟨j, rfl, hget, hle, hbefore⟩ := scanGe_eq_some hscan
    rw [List.getElem?_map, Option.map_eq_some_iff] at hget
    obtain ⟨e, he, rfl⟩ := hget
    have hbefore' : ∀ i < j, ∀ e', (emitRange v.1 true v.2)[i]? = some e' →
        e'.label < keyByte lo v.1 := by
      intro i hi e' he'
      exact hbefore i hi e'.label (by rw [List.getElem?_map, he']; rfl)
    have hbehind : ∀ j' e', (emitRange v.1 true v.2)[j']? = some e' → j < j' →
        e.label < e'.label := by
      intro j' e' he' hlt
      obtain ⟨hj, hgetj⟩ := List.getElem?_eq_some_iff.mp he
      obtain ⟨hj', hgetj'⟩ := List.getElem?_eq_some_iff.mp he'
      have h := List.pairwise_iff_getElem.mp hlabels j j' (by simpa using hj) (by simpa using hj') hlt
      rwa [List.getElem_map, List.getElem_map, hgetj, hgetj'] at h
    refine ⟨j, e, he, rfl, rfl, fun hne => ?_, fun heq => ?_⟩
    · have hgreater : keyByte lo v.1 < e.label := UInt8.lt_of_le_of_ne hle (Ne.symm hne)
      have hnone : ∀ k ∈ keys, keyPrefix (v.1 + 1) k = keyPrefix (v.1 + 1) lo → k < lo := by
        intro k hk hpre
        obtain ⟨e', he', hlabel⟩ :=
          List.mem_map.mp (label_of_keyPrefix hsorted hok hmem hrange hk hpre)
        obtain ⟨j', hj', hgetj'⟩ := List.mem_iff_getElem.mp he'
        have hget' : (emitRange v.1 true v.2)[j']? = some e' := by
          rw [List.getElem?_eq_getElem hj', hgetj']
        rcases Nat.lt_trichotomy j' j with hlt | rfl | hlt
        · have := hbefore' j' hlt e' hget'
          exact absurd hlabel (UInt8.ne_of_lt this)
        · rw [he] at hget'
          rw [← Option.some.inj hget'] at hlabel
          exact absurd hlabel hne
        · have := UInt8.lt_trans hgreater (hbehind j' e' hget' hlt)
          exact absurd hlabel.symm (UInt8.ne_of_lt this)
      obtain ⟨key, hkey, hpre, hbyte, hfind⟩ := find?_eq_head hsorted hok hmem hrange he hgreater
        (fun i hi e' he' => UInt8.le_of_lt (hbefore' i hi e' he')) hnone
      rw [hfind, ← hbyte, ← keyBytes_congr hpre (by omega), ← keyBytes_succ]
      exact surfMinBelow_eq hsorted hs hok hv he (by omega) hkey
    · obtain ⟨hj, -⟩ := List.getElem?_eq_some_iff.mp he
      have hnext : nextPos s (i, surfNodeFirst s i + j) = surfNodeFirst s i + j + 1 := by
        rw [nextPos, if_neg (by simp only; omega)]
      refine ⟨⟨v, hv, hlen.symm, hrange, by rw [hnext]; simp only; omega, ?_⟩, hpath⟩
      intro j' e' he'
      rw [hnext]
      simp only
      rcases Nat.lt_trichotomy j' j with hlt | rfl | hlt
      · exact iff_of_true (by omega) (UInt8.le_of_lt (hbefore' j' hlt e' he'))
      · rw [he] at he'
        rw [← Option.some.inj he', heq]
        exact iff_of_true (by omega) (UInt8.le_refl _)
      · have := hbehind j' e' he' hlt
        rw [heq] at this
        exact iff_of_false (by omega) (UInt8.not_le.mpr this)

omit hs in
/-- The keys below the edge with the next byte of the bound. -/
theorem mem_keys_of_label {v : SurfNode} (hv : v ∈ nodes)
    (hrange : ∀ k ∈ keys, k ∈ v.2 ↔ keyPrefix v.1 k = keyPrefix v.1 lo) {e : SurfEdge}
    (he : e ∈ emitRange v.1 true v.2) (hlabel : e.label = keyByte lo v.1) {k : UInt64}
    (hk : k ∈ keys) : k ∈ e.keys ↔ keyPrefix (v.1 + 1) k = keyPrefix (v.1 + 1) lo := by
  have hvok := hok v hv
  rw [hvok.mem_keys hsorted he, hrange k hk, hlabel, keyPrefix_succ_inj hvok.depth_le]

/-- Phase 1 of `surf_successor` finds the least key that is not below the bound. -/
theorem surfDescend_eq {n i : ℕ} {v : SurfNode} (hv : nodes[i]? = some v) (hd : v.1 + n = 7)
    (hrange : ∀ k ∈ keys, k ∈ v.2 ↔ keyPrefix v.1 k = keyPrefix v.1 lo) {path : List (ℕ × ℕ)}
    (hpath : SurfPath s nodes keys lo path) (hlen : path.length = v.1) :
    surfDescend s lo (n + 1) i path (keyBytes v.1 lo) = keys.find? (lo ≤ ·) := by
  induction n generalizing i v path with
  | zero =>
    have hmem := List.mem_of_getElem? hv
    have hedges := (@emitRange_spec v.1 true v.2 ((hok v hmem).pairwise hsorted)).1
    have hscan := scanGe_nodeLabels hsorted hs hok hv hrange hpath hlen
    have hdepth : 7 - 0 = v.1 := by omega
    unfold surfDescend
    rw [hdepth]
    cases hfound : scanGe (keyByte lo v.1) (nodeLabels s i) (surfNodeFirst s i) with
    | none =>
      rw [hfound] at hscan
      exact hscan
    | some found =>
      rw [hfound] at hscan
      obtain ⟨j, e, he, hlabel, hp, hmin, -⟩ := hscan
      obtain ⟨hne, hchild, -⟩ := hedges e (List.mem_of_getElem? he)
      have hterminal : bvGet s.hasChild found.1 = false := by
        rw [hp, hs.hasChild i v j e hv he, hchild, decide_eq_false_iff_not]
        omega
      by_cases hbyte : found.2 = keyByte lo v.1
      · simp only [hbyte, ne_eq, not_true_eq_false, if_false, hterminal, Bool.not_false, and_self,
          if_true]
        -- The one key below the edge is the bound.
        obtain ⟨k, hk⟩ := List.exists_mem_of_ne_nil _ hne
        have hkv := (((hok v hmem).mem_keys hsorted (List.mem_of_getElem? he)).mp hk).1
        have hkeys : k ∈ keys := by
          obtain ⟨q, hq⟩ := (hok v hmem).complete
          rw [hq] at hkv
          exact (List.mem_filter.mp hkv).1
        have hpre := (mem_keys_of_label hsorted hok hmem hrange (List.mem_of_getElem? he)
          (by rw [hlabel, hbyte]) hkeys).mp hk
        rw [show v.1 + 1 = 8 by omega] at hpre
        obtain rfl := eq_of_keyPrefix_eight hpre
        exact (find?_eq_some_of_least hsorted hkeys (UInt64.le_refl _) fun _ _ h => h).symm
      · have hzero : 7 - v.1 = 0 := by omega
        rw [hzero] at hmin
        simp only [ne_eq, hbyte, not_false_eq_true, if_true]
        exact hmin hbyte
  | succ n ih =>
    have hmem := List.mem_of_getElem? hv
    have hedges := (@emitRange_spec v.1 true v.2 ((hok v hmem).pairwise hsorted)).1
    have hscan := scanGe_nodeLabels hsorted hs hok hv hrange hpath hlen
    have hdepth : 7 - (n + 1) = v.1 := by omega
    unfold surfDescend
    rw [hdepth]
    cases hfound : scanGe (keyByte lo v.1) (nodeLabels s i) (surfNodeFirst s i) with
    | none =>
      rw [hfound] at hscan
      exact hscan
    | some found =>
      rw [hfound] at hscan
      obtain ⟨j, e, he, hlabel, hp, hmin, hdown⟩ := hscan
      have hchild : e.hasChild = true := by
        rw [(hedges e (List.mem_of_getElem? he)).2.1, decide_eq_true_eq]
        omega
      have hdescends : bvGet s.hasChild found.1 = true := by
        rw [hp, hs.hasChild i v j e hv he, hchild]
      by_cases hbyte : found.2 = keyByte lo v.1
      · have hbelow := hs.child i v j e hv he hchild
        rw [← hp] at hbelow
        simp only [hbyte, ne_eq, not_true_eq_false, if_false, hdescends, Bool.not_true,
          Bool.false_eq_true, and_false]
        rw [← keyBytes_succ]
        apply ih hbelow
        · simp only
          omega
        · intro k hk
          exact mem_keys_of_label hsorted hok hmem hrange (List.mem_of_getElem? he)
            (by rw [hlabel, hbyte]) hk
        · exact hdown hbyte
        · rw [List.length_cons, hlen]
      · have hroom : 7 - v.1 = n + 1 := by omega
        rw [hroom] at hmin
        simp only [ne_eq, hbyte, not_false_eq_true, if_true]
        exact hmin hbyte

end

/-! ## Exactness -/

/-- The trie of no keys has no labels, any other has. -/
theorem nLabels_surfLevels {keys : List UInt64} (hne : keys ≠ []) :
    (surfLevels 8 0 [keys]).1 ≠ [] := by
  cases keys with
  | nil => exact absurd rfl hne
  | cons key keys =>
    obtain ⟨e, es, hemit, -⟩ := @emitRange_cons 0 true key keys
    rw [surfLevels, if_neg (by simp)]
    simp [hemit]

/-- The root has all keys. -/
theorem surfNodes_root {keys : List UInt64} : (surfNodes 8 0 [keys])[0]? = some (0, keys) := by
  rw [surfNodes, if_neg (by simp)]
  rfl

/-- The filter is built when there is memory for one range more than there are keys. -/
theorem exists_pgTreSurfBuild {keys : List UInt64} (hsize : 8 * (keys.length + 1) ≤ maxAllocSize) :
    ∃ s, pgTreSurfBuild keys = .ok s := by
  unfold pgTreSurfBuild
  split_ifs with hne hbig
  · exact ⟨_, rfl⟩
  · omega
  · exact ⟨_, rfl⟩

/-- A filter with keys finds the least key that is not below a bound, and the keys. -/
theorem pgTreSurfBuild_reads {keys : List UInt64} (hsorted : keys.Pairwise (· < ·)) (hne : keys ≠ [])
    {s : PgTreSurf} (hbuild : pgTreSurfBuild keys = .ok s) :
    s.nLabels ≠ 0 ∧ (∀ key, mayContainFrom s key 8 0 = true ↔ key ∈ keys) ∧
      ∀ lo, surfSuccessor s lo = keys.find? (lo ≤ ·) := by
  unfold pgTreSurfBuild at hbuild
  rw [if_neg hne] at hbuild
  split_ifs at hbuild with hsize
  obtain rfl := Except.ok.inj hbuild
  have hs := surfOfEdges_reads hsorted hne (surfLevels 8 0 [keys]).2 keys.length
  have hlabels : (surfLevels 8 0 [keys]).1.length ≠ 0 := by
    rw [Ne, List.length_eq_zero_iff]
    exact nLabels_surfLevels hne
  have hok := @surfNodes_ok keys hsorted 8 0 [keys] fun r hr => by
    obtain rfl := List.mem_singleton.mp hr
    exact ⟨by omega, hne, 0, by simp⟩
  generalize hfilter : surfOfEdges (surfLevels 8 0 [keys]).1 (surfLevels 8 0 [keys]).2
    keys.length = s at hs
  have hn : s.nLabels ≠ 0 := by
    rw [← hfilter]
    exact hlabels
  refine ⟨hn, fun key => mayContainFrom_iff hsorted hs hok surfNodes_root rfl (by simp), fun lo => ?_⟩
  rw [surfSuccessor, if_neg hn]
  exact surfDescend_eq hsorted hs hok surfNodes_root rfl (by simp) trivial rfl

/-- A range overlaps if one of the keys lies in it. -/
theorem pgTreSurfBuild_ranges {keys : List UInt64} (hsorted : keys.Pairwise (· < ·)) {s : PgTreSurf}
    (hbuild : pgTreSurfBuild keys = .ok s) (lo hi : UInt64) :
    pgTreSurfRangeOverlaps s lo hi = true ↔ ∃ key ∈ keys, lo ≤ key ∧ key ≤ hi := by
  by_cases hne : keys = []
  · rw [pgTreSurfBuild, if_pos hne] at hbuild
    obtain rfl := Except.ok.inj hbuild
    simp [pgTreSurfRangeOverlaps, surfOfEdges, hne]
  · obtain ⟨hn, -, hsucc⟩ := pgTreSurfBuild_reads hsorted hne hbuild
    rw [pgTreSurfRangeOverlaps, if_neg hn, hsucc]
    split_ifs with hempty
    · -- An empty range is not looked up.
      simp only [false_iff]
      rintro ⟨key, -, hlo, hhi⟩
      exact absurd (UInt64.le_trans hlo hhi) (UInt64.not_le.mpr hempty)
    · cases hfind : keys.find? (lo ≤ ·) with
      | none =>
        rw [List.find?_eq_none] at hfind
        simp only [Bool.false_eq_true, false_iff]
        rintro ⟨key, hkey, hlo, -⟩
        exact hfind key hkey (by simpa using hlo)
      | some succ =>
        obtain ⟨hmem, hlo, hleast⟩ := least_of_find? hsorted hfind
        simp only [decide_eq_true_eq]
        constructor
        · intro hhi
          exact ⟨succ, hmem, hlo, hhi⟩
        · rintro ⟨key, hkey, hlo', hhi⟩
          exact UInt64.le_trans (hleast key hkey hlo') hhi

/-- The range filter of `pg_tre_surf_build` is exact: a key may be contained if it is one of the
keys, and a range overlaps if one of the keys lies in it. The filter is built unless the memory for
one range more than there are keys is refused. -/
theorem pgTreSurfBuild_exact {keys : List UInt64} (hsorted : keys.Pairwise (· < ·)) :
    (∀ s, pgTreSurfBuild keys = .ok s →
      (∀ key, pgTreSurfMayContain s key = true ↔ key ∈ keys) ∧
      ∀ lo hi, pgTreSurfRangeOverlaps s lo hi = true ↔ ∃ key ∈ keys, lo ≤ key ∧ key ≤ hi) ∧
    (8 * (keys.length + 1) ≤ maxAllocSize → ∃ s, pgTreSurfBuild keys = .ok s) := by
  refine ⟨fun s hbuild => ⟨fun key => ?_, pgTreSurfBuild_ranges hsorted hbuild⟩, exists_pgTreSurfBuild⟩
  by_cases hne : keys = []
  · rw [pgTreSurfBuild, if_pos hne] at hbuild
    obtain rfl := Except.ok.inj hbuild
    simp [pgTreSurfMayContain, surfOfEdges, hne]
  · obtain ⟨hn, hmem, -⟩ := pgTreSurfBuild_reads hsorted hne hbuild
    rw [pgTreSurfMayContain, if_neg hn]
    exact hmem key

/-- Two keys that differ in the last byte. -/
theorem pgTreSurfBuild_exact_pair :
    ∃ s, pgTreSurfBuild [256, 259] = .ok s ∧ pgTreSurfMayContain s 259 = true ∧
      pgTreSurfMayContain s 257 = false ∧ pgTreSurfRangeOverlaps s 257 300 = true ∧
      pgTreSurfRangeOverlaps s 257 258 = false := by
  obtain ⟨hexact, hbuilt⟩ := pgTreSurfBuild_exact (show [256, 259].Pairwise (· < ·) by decide)
  obtain ⟨s, hs⟩ := hbuilt (by decide)
  obtain ⟨hpoint, hrange⟩ := hexact s hs
  refine ⟨s, hs, ?_, ?_, ?_, ?_⟩
  · rw [hpoint]
    decide
  · rw [← Bool.not_eq_true, hpoint]
    decide
  · rw [hrange]
    decide
  · rw [← Bool.not_eq_true, hrange]
    decide

end PgTre
