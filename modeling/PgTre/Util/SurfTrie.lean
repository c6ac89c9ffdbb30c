import PgTre.Util.Surf
import Mathlib.Data.List.TakeWhile
import Mathlib.Tactic.Ring

/-!
# The nodes of the range filter

The edges that `pg_tre_surf_build` lists are those of the nodes of a trie, level by level. A node is
a prefix that some key has, and its range the keys with that prefix. Selection finds the edges of a
node in the list, and ranks find the node below an edge.
-/

namespace PgTre

/-! ## Bytes and prefixes of a key -/

/-- The first bytes of a key, as a number. -/
def keyPrefix (d : ℕ) (key : UInt64) : ℕ := key.toNat / 256 ^ (8 - d)

section

variable {d : ℕ} {key key' : UInt64}

/-- A byte of a key, counted from the most significant. -/
theorem toNat_keyByte (hd : d ≤ 7) :
    (keyByte key d).toNat = key.toNat / 256 ^ (7 - d) % 256 := by
  have hshift : (8 * (7 - d)).toUInt64.toNat % 64 = 8 * (7 - d) := by
    have hlt : 8 * (7 - d) < 2 ^ 64 := by omega
    have hval : (8 * (7 - d)).toUInt64.toNat = 8 * (7 - d) := by
      rw [Nat.toUInt64, UInt64.toNat_ofNat', Nat.mod_eq_of_lt hlt]
    omega
  rw [keyByte, UInt64.toNat_toUInt8, UInt64.toNat_shiftRight, hshift, Nat.shiftRight_eq_div_pow,
    Nat.pow_mul]

/-- No byte, no prefix. -/
@[simp] theorem keyPrefix_zero (key : UInt64) : keyPrefix 0 key = 0 :=
  Nat.div_eq_of_lt key.toNat_lt

/-- Eight bytes are the key. -/
@[simp] theorem keyPrefix_eight (key : UInt64) : keyPrefix 8 key = key.toNat := by
  simp [keyPrefix]

/-- A longer prefix is the shorter one and the next byte. -/
theorem keyPrefix_succ (hd : d ≤ 7) :
    keyPrefix (d + 1) key = keyPrefix d key * 256 + (keyByte key d).toNat := by
  have hexp : 8 - d = 7 - d + 1 := by omega
  have hexp' : 8 - (d + 1) = 7 - d := by omega
  rw [keyPrefix, keyPrefix, toNat_keyByte hd, hexp, hexp', Nat.pow_succ, ← Nat.div_div_eq_div_mul]
  omega

/-- Longer prefixes agree when the shorter ones and the next bytes do. -/
theorem keyPrefix_succ_inj (hd : d ≤ 7) :
    keyPrefix (d + 1) key = keyPrefix (d + 1) key' ↔
      keyPrefix d key = keyPrefix d key' ∧ keyByte key d = keyByte key' d := by
  rw [keyPrefix_succ hd, keyPrefix_succ hd, ← UInt8.toNat_inj]
  have h := (keyByte key d).toNat_lt
  have h' := (keyByte key' d).toNat_lt
  omega

/-- Prefixes rise with the keys. -/
theorem keyPrefix_le (h : key ≤ key') : keyPrefix d key ≤ keyPrefix d key' :=
  Nat.div_le_div_right (UInt64.le_iff_toNat_le.mp h)

/-- Keys are ordered as their prefixes are. -/
theorem lt_of_keyPrefix_lt (h : keyPrefix d key < keyPrefix d key') : key < key' := by
  by_contra hle
  have := @keyPrefix_le d key' key (UInt64.not_lt.mp hle)
  omega

/-- Where the prefixes agree, the next byte decides. -/
theorem lt_of_keyByte_lt (hd : d ≤ 7) (hpre : keyPrefix d key = keyPrefix d key')
    (h : keyByte key d < keyByte key' d) : key < key' := by
  apply @lt_of_keyPrefix_lt (d + 1)
  rw [keyPrefix_succ hd, keyPrefix_succ hd, hpre]
  have := UInt8.lt_iff_toNat_lt.mp h
  omega

/-- Behind one prefix the next bytes rise with the keys. -/
theorem keyByte_le (hd : d ≤ 7) (hpre : keyPrefix d key = keyPrefix d key') (h : key ≤ key') :
    keyByte key d ≤ keyByte key' d := by
  by_contra hlt
  have := lt_of_keyByte_lt hd hpre.symm (UInt8.not_le.mp hlt)
  exact absurd h (UInt64.not_le.mpr this)

/-- Keys with the same eight bytes are equal. -/
theorem eq_of_keyPrefix_eight (h : keyPrefix 8 key = keyPrefix 8 key') : key = key' := by
  rw [keyPrefix_eight, keyPrefix_eight] at h
  exact UInt64.toNat_inj.mp h

/-- Keys with a common prefix have its bytes. -/
theorem keyByte_congr {i : ℕ} (h : keyPrefix d key = keyPrefix d key') (hi : i < d) (hd : d ≤ 8) :
    keyByte key i = keyByte key' i := by
  have hexp : 256 ^ (7 - i) = 256 ^ (8 - d) * 256 ^ (d - 1 - i) := by
    rw [← Nat.pow_add]
    congr 1
    omega
  apply UInt8.toNat_inj.mp
  rw [toNat_keyByte (by omega), toNat_keyByte (by omega), hexp, ← Nat.div_div_eq_div_mul,
    ← Nat.div_div_eq_div_mul]
  unfold keyPrefix at h
  rw [h]

/-- The first bytes of a key. -/
def keyBytes (d : ℕ) (key : UInt64) : List UInt8 := (List.range d).map (keyByte key)

/-- There are as many bytes as asked for. -/
@[simp] theorem length_keyBytes (d : ℕ) (key : UInt64) : (keyBytes d key).length = d := by
  simp [keyBytes]

/-- The next byte comes last. -/
theorem keyBytes_succ (d : ℕ) (key : UInt64) :
    keyBytes (d + 1) key = keyBytes d key ++ [keyByte key d] := by
  simp [keyBytes, List.range_succ]

/-- Keys with one prefix have the same bytes. -/
theorem keyBytes_congr (h : keyPrefix d key = keyPrefix d key') (hd : d ≤ 8) :
    keyBytes d key = keyBytes d key' := by
  apply List.map_congr_left
  intro i hi
  exact keyByte_congr h (List.mem_range.mp hi) hd

/-- The first bytes of a key are its shorter prefix. -/
theorem take_keyBytes {n : ℕ} (h : d ≤ n) : (keyBytes n key).take d = keyBytes d key := by
  rw [keyBytes, ← List.map_take, List.take_range, Nat.min_eq_left h, keyBytes]

/-- The first bytes of a key, put together. -/
theorem toNat_accKey (hd : d ≤ 8) :
    (accKey (keyBytes d key)).toNat = keyPrefix d key * 256 ^ (8 - d) := by
  induction d with
  | zero => simp [accKey, keyBytes]
  | succ d ih =>
    have hfold : accKey (keyBytes (d + 1) key) =
        accKey (keyBytes d key) ||| (keyByte key d).toUInt64 <<< (8 * (7 - d)).toUInt64 := by
      rw [keyBytes_succ, accKey, List.zipIdx_append, List.foldl_append, ← accKey]
      simp
    have hshift : (8 * (7 - d)).toUInt64.toNat % 64 = 8 * (7 - d) := by
      have hval : (8 * (7 - d)).toUInt64.toNat = 8 * (7 - d) := by
        rw [Nat.toUInt64, UInt64.toNat_ofNat', Nat.mod_eq_of_lt (by omega)]
      omega
    have hexp : 8 - d = 7 - d + 1 := by omega
    have hexp' : 8 - (d + 1) = 7 - d := by omega
    have hpow : 256 ^ (7 - d) = 2 ^ (8 * (7 - d)) := by rw [Nat.pow_mul]
    have hbyte : (keyByte key d).toNat < 256 := (keyByte key d).toNat_lt
    have hsmall : (keyByte key d).toNat * 2 ^ (8 * (7 - d)) < 2 ^ (8 * (7 - d) + 8) := by
      rw [Nat.pow_add, Nat.mul_comm]
      exact Nat.mul_lt_mul_of_pos_left (by omega) (Nat.two_pow_pos _)
    have hword : 2 ^ (8 * (7 - d) + 8) ≤ 2 ^ 64 := Nat.pow_le_pow_right (by omega) (by omega)
    have hterm : ((keyByte key d).toUInt64 <<< (8 * (7 - d)).toUInt64).toNat =
        (keyByte key d).toNat * 2 ^ (8 * (7 - d)) := by
      rw [UInt64.toNat_shiftLeft, hshift, UInt8.toNat_toUInt64, Nat.shiftLeft_eq,
        Nat.mod_eq_of_lt (by omega)]
    have hprefix : keyPrefix d key * 256 ^ (8 - d) =
        2 ^ (8 * (7 - d) + 8) * keyPrefix d key := by
      rw [hexp, Nat.pow_succ, hpow, Nat.pow_add]
      ring
    rw [hfold, UInt64.toNat_or, ih (by omega), hterm, hprefix,
      ← Nat.two_pow_add_eq_or_of_lt hsmall, hexp', keyPrefix_succ (by omega), hpow, Nat.pow_add]
    ring

/-- All bytes of a key give the key. -/
theorem accKey_keyBytes (key : UInt64) : accKey (keyBytes 8 key) = key := by
  apply UInt64.toNat_inj.mp
  rw [toNat_accKey le_rfl]
  simp

end

/-! ## The edges of a node -/

section

variable {depth : ℕ} {first : Bool} {range : KeyRange}

/-- The groups of a range whose bytes do not descend: every group has all keys with its byte, and
every byte has its group. -/
theorem emitRange_spec (h : range.Pairwise fun k k' => keyByte k depth ≤ keyByte k' depth) :
    (∀ e ∈ emitRange depth first range, e.keys ≠ [] ∧ e.hasChild = decide (depth < 7) ∧
      e.keys = range.filter fun k => keyByte k depth = e.label) ∧
    ((emitRange depth first range).map (·.label)).Pairwise (· < ·) ∧
    ∀ k ∈ range, ∃ e ∈ emitRange depth first range, e.label = keyByte k depth := by
  fun_induction emitRange depth first range with
  | case1 => simp
  | case2 first key keys ih =>
    generalize hb : keyByte key depth = b at ih
    obtain ⟨hfirst, hrest⟩ := List.pairwise_cons.mp h
    rw [hb] at hfirst
    set same := fun k => decide (keyByte k depth = b) with hsame
    -- The keys behind the group have greater bytes.
    have hdrop : ∀ k ∈ keys.dropWhile same, b < keyByte k depth := by
      intro k hk
      have hsuffix := List.dropWhile_suffix (l := keys) same
      cases hbehind : keys.dropWhile same with
      | nil => simp [hbehind] at hk
      | cons k' ks =>
        have hne : same k' = false := by
          have := List.head_dropWhile_not same (l := keys) (by simp [hbehind])
          simpa [hbehind] using this
        have hsorted : (k' :: ks).Pairwise fun k k' => keyByte k depth ≤ keyByte k' depth := by
          rw [← hbehind]
          exact hrest.sublist hsuffix.sublist
        have hk' : b < keyByte k' depth := by
          have hle := hfirst k' (hsuffix.subset (by simp [hbehind]))
          have hne' : keyByte k' depth ≠ b := by simpa [hsame] using hne
          exact UInt8.lt_of_le_of_ne hle (Ne.symm hne')
        rw [hbehind] at hk
        rcases List.mem_cons.mp hk with rfl | hk
        · exact hk'
        · exact UInt8.lt_of_lt_of_le hk' ((List.pairwise_cons.mp hsorted).1 k hk)
    have htake : ∀ k ∈ keys.takeWhile same, keyByte k depth = b := by
      intro k hk
      simpa [hsame] using List.mem_takeWhile_imp hk
    have hsplit : keys = keys.takeWhile same ++ keys.dropWhile same :=
      List.takeWhile_append_dropWhile.symm
    obtain ⟨hedges, hlabels, hall⟩ :=
      ih (hrest.sublist (List.dropWhile_suffix same).sublist)
    have hgreater : ∀ e ∈ emitRange depth false (keys.dropWhile same), b < e.label := by
      intro e he
      obtain ⟨hne, -, hkeys⟩ := hedges e he
      obtain ⟨k, hk⟩ := List.exists_mem_of_ne_nil _ hne
      rw [hkeys, List.mem_filter, decide_eq_true_eq] at hk
      rw [← hk.2]
      exact hdrop k hk.1
    refine ⟨?_, ?_, ?_⟩
    · intro e he
      rcases List.mem_cons.mp he with rfl | he
      · refine ⟨by simp, rfl, ?_⟩
        have hin : (keys.takeWhile same).filter same = keys.takeWhile same := by
          apply List.filter_eq_self.mpr
          intro k hk
          simpa [hsame] using htake k hk
        have hout : (keys.dropWhile same).filter same = [] := by
          apply List.filter_eq_nil_iff.mpr
          intro k hk
          have hlt := hdrop k hk
          simpa [hsame] using (UInt8.ne_of_lt hlt).symm
        have hkey : same key = true := by simpa [hsame] using hb
        change key :: keys.takeWhile same = (key :: keys).filter same
        rw [List.filter_cons_of_pos hkey]
        conv_rhs => rw [hsplit, List.filter_append, hin, hout, List.append_nil]
      · obtain ⟨hne, hchild, hkeys⟩ := hedges e he
        have hlt := hgreater e he
        refine ⟨hne, hchild, ?_⟩
        have hkey : ¬decide (keyByte key depth = e.label) = true := by
          rw [decide_eq_true_eq, hb]
          exact UInt8.ne_of_lt hlt
        have hout : (keys.takeWhile same).filter
            (fun k => decide (keyByte k depth = e.label)) = [] := by
          apply List.filter_eq_nil_iff.mpr
          intro k hk
          rw [decide_eq_true_eq, htake k hk]
          exact UInt8.ne_of_lt hlt
        have hcons : (key :: keys).filter (fun k => decide (keyByte k depth = e.label)) =
            keys.filter fun k => decide (keyByte k depth = e.label) := List.filter_cons_of_neg hkey
        rw [hcons]
        conv_rhs => rw [hsplit, List.filter_append, hout, List.nil_append]
        exact hkeys
    · rw [List.map_cons, List.pairwise_cons]
      refine ⟨?_, hlabels⟩
      intro l hl
      obtain ⟨e, he, rfl⟩ := List.mem_map.mp hl
      exact hgreater e he
    · intro k hk
      rcases List.mem_cons.mp hk with rfl | hk
      · exact ⟨_, List.mem_cons_self, hb.symm⟩
      · rw [hsplit] at hk
        rcases List.mem_append.mp hk with hk | hk
        · exact ⟨_, List.mem_cons_self, (htake k hk).symm⟩
        · obtain ⟨e, he, hlabel⟩ := hall k hk
          exact ⟨e, List.mem_cons_of_mem _ he, hlabel⟩

/-- The first edge of a node is marked, and no other. -/
theorem marked_emitRange (h : range ≠ []) :
    RankSelect.Marked (·.louds) (emitRange depth true range) := by
  have hfalse : ∀ first r, first = false → ∀ e ∈ emitRange depth first r, e.louds = false := by
    intro first r hfirst
    fun_induction emitRange depth first r with
    | case1 => simp
    | case2 first key keys ih =>
      intro e he
      rcases List.mem_cons.mp he with rfl | he
      · exact hfirst
      · exact ih rfl e he
  cases range with
  | nil => exact absurd rfl h
  | cons key keys =>
    rw [emitRange]
    exact ⟨rfl, hfalse _ _ rfl⟩

/-- The first edge of a node has the first key of its range. -/
theorem emitRange_cons (key : UInt64) (keys : KeyRange) :
    ∃ e es, emitRange depth first (key :: keys) = e :: es ∧ e.label = keyByte key depth ∧
      e.keys.head? = some key := by
  rw [emitRange]
  exact ⟨_, _, rfl, rfl, rfl⟩

end

/-! ## The nodes -/

/-- A node as the loop over the depths meets it: its depth and its range. -/
abbrev SurfNode := ℕ × KeyRange

/-- The edges of a node, with its depth. -/
def nodeEdges (v : SurfNode) : List (ℕ × SurfEdge) := (emitRange v.1 true v.2).map (v.1, ·)

/-- The nodes, level by level. -/
def surfNodes : ℕ → ℕ → List KeyRange → List SurfNode
  | 0, _, _ => []
  | n + 1, depth, cur =>
      if cur = [] then []
      else cur.map (depth, ·) ++
        surfNodes n (depth + 1) (nextRanges (cur.flatMap (emitRange depth true)))

/-- The edges of a level's nodes are those that its ranges emit. -/
theorem flatMap_nodeEdges (depth : ℕ) (cur : List KeyRange) :
    (cur.map (depth, ·)).flatMap nodeEdges = (cur.flatMap (emitRange depth true)).map (depth, ·) := by
  rw [List.flatMap_map, List.map_flatMap]
  rfl

/-- The edges that are emitted are those of the nodes. -/
theorem surfLevels_eq (n depth : ℕ) (cur : List KeyRange) :
    surfLevels n depth cur =
      (((surfNodes n depth cur).flatMap nodeEdges).map Prod.snd, (surfNodes n depth cur).length) := by
  induction n generalizing depth cur with
  | zero => rfl
  | succ n ih =>
    unfold surfLevels surfNodes
    split_ifs with hcur
    · rfl
    · simp only [List.flatMap_append, List.map_append, flatMap_nodeEdges, List.map_map, ih]
      simp [Function.comp_def]

/-- A node has a depth above the last byte, and its range is all keys with some prefix. -/
structure SurfNode.Ok (keys : List UInt64) (v : SurfNode) : Prop where
  depth_le : v.1 ≤ 7
  ne_nil : v.2 ≠ []
  complete : ∃ q, v.2 = keys.filter fun k => keyPrefix v.1 k = q

section

variable {keys : List UInt64} {v : SurfNode}

/-- The keys of a node share its prefix. -/
theorem SurfNode.Ok.keyPrefix_eq (hv : v.Ok keys) {k k' : UInt64} (hk : k ∈ v.2) (hk' : k' ∈ v.2) :
    keyPrefix v.1 k = keyPrefix v.1 k' := by
  obtain ⟨q, hq⟩ := hv.complete
  rw [hq, List.mem_filter, decide_eq_true_eq] at hk hk'
  rw [hk.2, hk'.2]

variable (hsorted : keys.Pairwise (· < ·))
include hsorted

/-- Within a node the keys ascend with their next byte. -/
theorem SurfNode.Ok.pairwise (hv : v.Ok keys) :
    v.2.Pairwise fun k k' => keyByte k v.1 ≤ keyByte k' v.1 := by
  obtain ⟨q, hq⟩ := hv.complete
  have hrange : v.2.Pairwise (· < ·) := by
    rw [hq]
    exact hsorted.filter _
  apply hrange.imp_of_mem
  intro k k' hk hk' hlt
  exact keyByte_le hv.depth_le (hv.keyPrefix_eq hk hk') (UInt64.le_of_lt hlt)

/-- The keys below an edge are those of the node with its byte. -/
theorem SurfNode.Ok.mem_keys (hv : v.Ok keys) {e : SurfEdge} (he : e ∈ emitRange v.1 true v.2)
    {k : UInt64} : k ∈ e.keys ↔ k ∈ v.2 ∧ keyByte k v.1 = e.label := by
  have hkeys := ((emitRange_spec (hv.pairwise hsorted)).1 e he).2.2
  rw [hkeys, List.mem_filter, decide_eq_true_eq]

/-- The node below an edge. -/
theorem SurfNode.Ok.child (hv : v.Ok keys) {e : SurfEdge} (he : e ∈ emitRange v.1 true v.2)
    (hchild : e.hasChild = true) : SurfNode.Ok keys (v.1 + 1, e.keys) := by
  obtain ⟨hne, hdepth, hkeys⟩ := (emitRange_spec (hv.pairwise hsorted)).1 e he
  obtain ⟨q, hq⟩ := hv.complete
  rw [hchild, eq_comm, decide_eq_true_eq] at hdepth
  refine ⟨by omega, hne, q * 256 + e.label.toNat, ?_⟩
  rw [hkeys, hq, List.filter_filter]
  apply List.filter_congr
  intro k _
  rw [keyPrefix_succ hv.depth_le, ← Bool.decide_and, decide_eq_decide, ← UInt8.toNat_inj]
  have h := (keyByte k v.1).toNat_lt
  have h' := e.label.toNat_lt
  omega

/-- The nodes of the next depth. -/
theorem SurfNode.ok_nextRanges {depth : ℕ} {cur : List KeyRange}
    (hcur : ∀ r ∈ cur, SurfNode.Ok keys (depth, r)) :
    ∀ r ∈ nextRanges (cur.flatMap (emitRange depth true)), SurfNode.Ok keys (depth + 1, r) := by
  intro r hr
  obtain ⟨e, he, rfl⟩ := List.mem_map.mp hr
  obtain ⟨hmem, hchild⟩ := List.mem_filter.mp he
  obtain ⟨r', hr', he'⟩ := List.mem_flatMap.mp hmem
  exact (hcur r' hr').child hsorted he' hchild

/-- The nodes of a level below well-formed ranges are well formed. -/
theorem surfNodes_ok {n depth : ℕ} {cur : List KeyRange}
    (hcur : ∀ r ∈ cur, SurfNode.Ok keys (depth, r)) : ∀ v ∈ surfNodes n depth cur, v.Ok keys := by
  induction n generalizing depth cur with
  | zero => simp [surfNodes]
  | succ n ih =>
    unfold surfNodes
    split_ifs with hnil
    · simp
    · intro v hv
      rcases List.mem_append.mp hv with hv | hv
      · obtain ⟨r, hr, rfl⟩ := List.mem_map.mp hv
        exact hcur r hr
      · exact ih (SurfNode.ok_nextRanges hsorted hcur) v hv

omit hsorted in
/-- The nodes start with those of the first depth. -/
theorem surfNodes_eq_append {n depth : ℕ} (hn : n + depth = 8) {cur : List KeyRange}
    (hcur : ∀ r ∈ cur, SurfNode.Ok keys (depth, r)) :
    ∃ below, surfNodes n depth cur = cur.map (depth, ·) ++ below := by
  cases n with
  | zero =>
    obtain rfl : cur = [] := by
      apply List.eq_nil_iff_forall_not_mem.mpr
      intro r hr
      have hdepth : depth ≤ 7 := (hcur r hr).depth_le
      omega
    exact ⟨[], rfl⟩
  | succ n =>
    unfold surfNodes
    split_ifs with hnil
    · exact ⟨[], by simp [hnil]⟩
    · exact ⟨_, rfl⟩

/-- Behind the nodes of the first depth come the nodes below all edges that descend, in the order
of these edges. -/
theorem drop_surfNodes {n depth : ℕ} (hn : n + depth = 8) {cur : List KeyRange}
    (hcur : ∀ r ∈ cur, SurfNode.Ok keys (depth, r)) :
    (surfNodes n depth cur).drop cur.length =
      (((surfNodes n depth cur).flatMap nodeEdges).filter (·.2.hasChild)).map
        fun x => (x.1 + 1, x.2.keys) := by
  induction n generalizing depth cur with
  | zero => simp [surfNodes]
  | succ n ih =>
    have hnext := SurfNode.ok_nextRanges hsorted hcur
    have hrest := ih (by omega) hnext
    obtain ⟨below, hbelow⟩ := surfNodes_eq_append (show n + (depth + 1) = 8 by omega) hnext
    unfold surfNodes
    split_ifs with hnil
    · simp
    · have hlevel : ((cur.map (depth, ·)).flatMap nodeEdges).filter (·.2.hasChild) =
          ((cur.flatMap (emitRange depth true)).filter (·.hasChild)).map (depth, ·) := by
        rw [flatMap_nodeEdges, List.filter_map]
        rfl
      have hfirst : (((cur.map (depth, ·)).flatMap nodeEdges).filter (·.2.hasChild)).map
          (fun x => (x.1 + 1, x.2.keys)) =
          (nextRanges (cur.flatMap (emitRange depth true))).map (depth + 1, ·) := by
        rw [hlevel, nextRanges, List.map_map, List.map_map]
        rfl
      rw [List.drop_left' (by simp), List.flatMap_append, List.filter_append, List.map_append,
        hfirst, ← hrest, hbelow, List.drop_left' (by simp)]

end

/-! ## Navigation -/

/-- A filter that reads as the edges of a list of nodes. -/
structure PgTreSurf.Reads (s : PgTreSurf) (nodes : List SurfNode) : Prop where
  labels : ∀ i v, nodes[i]? = some v → nodeLabels s i = (emitRange v.1 true v.2).map (·.label)
  stop : ∀ i v, nodes[i]? = some v →
    surfNodeEnd s i = surfNodeFirst s i + (emitRange v.1 true v.2).length
  label : ∀ i v j e, nodes[i]? = some v → (emitRange v.1 true v.2)[j]? = some e →
    s.labels.getD (surfNodeFirst s i + j) 0 = e.label
  hasChild : ∀ i v j e, nodes[i]? = some v → (emitRange v.1 true v.2)[j]? = some e →
    bvGet s.hasChild (surfNodeFirst s i + j) = e.hasChild
  child : ∀ i v j e, nodes[i]? = some v → (emitRange v.1 true v.2)[j]? = some e →
    e.hasChild = true → nodes[surfChildNode s (surfNodeFirst s i + j)]? = some (v.1 + 1, e.keys)

/-! What is built of blocks of edges. -/

section

variable {blocks : List (List (ℕ × SurfEdge))} {nNodes nKeys i : ℕ}

/-- The labels are those of the edges. -/
theorem labels_surfOfEdges (xs : List (ℕ × SurfEdge)) :
    (surfOfEdges (xs.map Prod.snd) nNodes nKeys).labels = xs.map fun x => x.2.label := by
  rw [surfOfEdges, List.map_map]
  rfl

/-- The child bits are those of the edges. -/
theorem hasChild_surfOfEdges (xs : List (ℕ × SurfEdge)) :
    (surfOfEdges (xs.map Prod.snd) nNodes nKeys).hasChild =
      bvOfBits (xs.map fun x => x.2.hasChild) := by
  simp only [surfOfEdges, List.map_map, Function.comp_def]

/-- The first-edge bits are those of the edges. -/
theorem louds_surfOfEdges (xs : List (ℕ × SurfEdge)) :
    (surfOfEdges (xs.map Prod.snd) nNodes nKeys).louds = bvOfBits (xs.map fun x => x.2.louds) := by
  simp only [surfOfEdges, List.map_map, Function.comp_def]

variable (hmarked : ∀ block ∈ blocks, RankSelect.Marked (fun x : ℕ × SurfEdge => x.2.louds) block)
include hmarked

/-- The set bit of a number is where the block of the number begins. -/
theorem bvSelect1_blocks (hi : i < blocks.length) :
    bvSelect1 (surfOfEdges (blocks.flatten.map Prod.snd) nNodes nKeys).louds (i + 1) =
      some (RankSelect.blockStart blocks i) := by
  have hset := RankSelect.ofList_blockStart hmarked hi
  have hrank := RankSelect.rank_blockStart hmarked (le_of_lt hi)
  have hlt := RankSelect.blockStart_lt hmarked hi
  have hselect := bvSelect1_bvOfBits hset (by rw [List.length_map]; exact hlt)
  rw [hrank] at hselect
  rw [louds_surfOfEdges, hselect]

/-- A node's edges start where its block does. -/
theorem surfNodeFirst_blocks (hi : i < blocks.length) :
    surfNodeFirst (surfOfEdges (blocks.flatten.map Prod.snd) nNodes nKeys) i =
      RankSelect.blockStart blocks i := by
  rw [surfNodeFirst, bvSelect1_blocks hmarked hi, Option.getD_some]

/-- A node's edges end where its block does. -/
theorem surfNodeEnd_blocks (hi : i < blocks.length) :
    surfNodeEnd (surfOfEdges (blocks.flatten.map Prod.snd) nNodes nKeys) i =
      RankSelect.blockStart blocks (i + 1) := by
  unfold surfNodeEnd
  by_cases hlast : i + 1 < blocks.length
  · rw [bvSelect1_blocks hmarked hlast, Option.getD_some]
  · have htop : i + 1 = blocks.length := by omega
    have hrank := RankSelect.rank_blockStart hmarked (le_refl blocks.length)
    rw [RankSelect.blockStart_length] at hrank
    rw [louds_surfOfEdges, bvSelect1_eq_none, Option.getD_none, htop, RankSelect.blockStart_length]
    · rw [surfOfEdges, List.length_map]
    · rw [List.length_map, hrank]
      omega

end

/-- A node has one first edge. -/
theorem marked_nodeEdges {v : SurfNode} (h : v.2 ≠ []) :
    RankSelect.Marked (fun x : ℕ × SurfEdge => x.2.louds) (nodeEdges v) := by
  have hone := @marked_emitRange v.1 v.2 h
  unfold nodeEdges
  cases hedges : emitRange v.1 true v.2 with
  | nil =>
    rw [hedges] at hone
    exact hone.elim
  | cons e es =>
    rw [hedges] at hone
    refine ⟨hone.1, fun x hx => ?_⟩
    obtain ⟨e', he', rfl⟩ := List.mem_map.mp hx
    exact hone.2 e' he'

/-- What `pg_tre_surf_build` makes of the edges of the nodes reads as these nodes. -/
theorem surfOfEdges_reads {keys : List UInt64} (hsorted : keys.Pairwise (· < ·)) (hne : keys ≠ [])
    (nNodes nKeys : ℕ) :
    (surfOfEdges (surfLevels 8 0 [keys]).1 nNodes nKeys).Reads (surfNodes 8 0 [keys]) := by
  have hroot : ∀ r ∈ [keys], SurfNode.Ok keys (0, r) := by
    intro r hr
    obtain rfl := List.mem_singleton.mp hr
    exact ⟨by omega, hne, 0, by simp⟩
  have hok := @surfNodes_ok keys hsorted 8 0 [keys] hroot
  have hdrop := drop_surfNodes hsorted (show 8 + 0 = 8 by omega) hroot
  rw [surfLevels_eq]
  generalize surfNodes 8 0 [keys] = nodes at hok hdrop
  obtain ⟨blocks, hblocks⟩ : ∃ blocks, blocks = nodes.map nodeEdges := ⟨_, rfl⟩
  have hflat : nodes.flatMap nodeEdges = blocks.flatten := by rw [hblocks, List.flatMap_def]
  have hmarked : ∀ block ∈ blocks, RankSelect.Marked (fun x : ℕ × SurfEdge => x.2.louds) block := by
    intro block hblock
    rw [hblocks] at hblock
    obtain ⟨v, hv, rfl⟩ := List.mem_map.mp hblock
    exact marked_nodeEdges (hok v hv).ne_nil
  simp only [hflat] at hdrop ⊢
  -- A node and an edge of it among the blocks and all edges.
  have hnode : ∀ i v, nodes[i]? = some v → ∃ hi : i < blocks.length, blocks[i] = nodeEdges v := by
    intro i v hv
    obtain ⟨hi, hget⟩ := List.getElem?_eq_some_iff.mp hv
    exact ⟨by simpa [hblocks] using hi, by simp [hblocks, hget]⟩
  have hedge : ∀ i v j e, nodes[i]? = some v → (emitRange v.1 true v.2)[j]? = some e →
      blocks.flatten[surfNodeFirst (surfOfEdges (blocks.flatten.map Prod.snd) nNodes nKeys) i + j]? =
        some (v.1, e) := by
    intro i v j e hv he
    obtain ⟨hi, hblock⟩ := hnode i v hv
    obtain ⟨hj, hget⟩ := List.getElem?_eq_some_iff.mp he
    have hj' : j < blocks[i].length := by
      rw [hblock, nodeEdges, List.length_map]
      exact hj
    rw [surfNodeFirst_blocks hmarked hi, RankSelect.getElem?_flatten_blocks hi hj']
    simp [hblock, nodeEdges, hget]
  constructor
  case labels =>
    intro i v hv
    obtain ⟨hi, hblock⟩ := hnode i v hv
    have hbefore : (((blocks.take i).flatten).map fun x => x.2.label).length =
        RankSelect.blockStart blocks i := by rw [List.length_map, RankSelect.blockStart]
    have hin : (blocks[i].map fun x => x.2.label).length = blocks[i].length := List.length_map _
    rw [nodeLabels, surfNodeFirst_blocks hmarked hi, surfNodeEnd_blocks hmarked hi,
      RankSelect.blockStart_succ hi, Nat.add_sub_cancel_left, labels_surfOfEdges,
      RankSelect.flatten_eq_blocks hi, List.map_append, List.drop_left' hbefore, List.map_append,
      List.take_left' hin, hblock, nodeEdges, List.map_map]
    rfl
  case stop =>
    intro i v hv
    obtain ⟨hi, hblock⟩ := hnode i v hv
    rw [surfNodeEnd_blocks hmarked hi, surfNodeFirst_blocks hmarked hi,
      RankSelect.blockStart_succ hi, hblock, nodeEdges, List.length_map]
  case label =>
    intro i v j e hv he
    have hget := hedge i v j e hv he
    rw [labels_surfOfEdges, List.getD_eq_getElem?_getD, List.getElem?_map, hget]
    rfl
  case hasChild =>
    intro i v j e hv he
    have hget := hedge i v j e hv he
    rw [hasChild_surfOfEdges, bvGet_bvOfBits, RankSelect.ofList, List.getD_eq_getElem?_getD,
      List.getElem?_map, hget]
    rfl
  case child =>
    intro i v j e hv he hchild
    have hget := hedge i v j e hv he
    generalize surfNodeFirst _ i + j = pos at hget
    obtain ⟨hlt, -⟩ := List.getElem?_eq_some_iff.mp hget
    have hset : RankSelect.ofList (blocks.flatten.map fun x => x.2.hasChild) pos = true := by
      rw [RankSelect.ofList, List.getD_eq_getElem?_getD, List.getElem?_map, hget]
      exact hchild
    have hrank := @RankSelect.getElem?_filter_rank _ (fun x : ℕ × SurfEdge => x.2.hasChild) _ _ _
      hget hchild
    rw [surfChildNode, hasChild_surfOfEdges, bvRank1_bvOfBits (by rw [List.length_map]; exact hlt),
      RankSelect.rank_succ, if_pos hset, Nat.add_comm]
    have hbelow := congrArg (fun l => l[RankSelect.rank (RankSelect.ofList
      (blocks.flatten.map fun x => x.2.hasChild)) pos]?) hdrop
    simp only [List.length_singleton, List.getElem?_drop, List.getElem?_map, hrank] at hbelow
    exact hbelow

end PgTre
