import PgTre.Util.CharDecode
import PgTre.Util.OpenAddressing
import PgTre.Pages.Pending
import PgTre.Am.SurfBuild

/-!
# The trigrams of an insert

`pg_tre_aminsert` cuts the text of a new row into trigrams and hands their hashes to the pending
list, 256 at a time. It has its own table to hand each hash over once, with other sizes, another
slot function and another limit than the one of the build. Both read the text through
`pg_tre_cpstream_next`, which decodes it in the encoding of the database.
-/

namespace PgTre

open Strings OpenAddressing

/-! ## Decoding a text -/

/-- The characters `pg_tre_cpstream_next` returns from byte `pos` on, until it returns a negative
one or raises an error. -/
def cpstream (enc : ServerEncoding) : ℕ → ℕ → List UInt8 → List CodePoint × Except PgError Unit
  | 0, _, _ => ([], .ok ())
  | _ + 1, _, [] => ([], .ok ())
  | fuel + 1, pos, s =>
      match decodeChar enc s with
      | .error _ =>
          let encoding := enc.name
          ([], .error
            ⟨s!"invalid byte sequence for encoding \"{encoding}\" at byte offset {pos}"⟩)
      | .ok (len, w) =>
          let cp := w.toInt32.toInt
          if cp < 0 then ([], .ok ())
          else
            let rest := cpstream enc fuel (pos + len) (s.drop len)
            (cp.toNat :: rest.1, rest.2)

/-- The stream of a whole text. -/
def cpstreamOf (enc : ServerEncoding) (bytes : List UInt8) : List CodePoint × Except PgError Unit :=
  cpstream enc bytes.length 0 bytes

/-- The bytes are a text of the encoding with these characters. -/
inductive ServerEncoding.Spells (enc : ServerEncoding) : List UInt8 → List CodePoint → Prop
  | nil : enc.Spells [] []
  | char {s : List UInt8} {len : ℕ} {w : UInt32} {text : List CodePoint}
      (hchar : decodeChar enc s = .ok (len, w)) (hrest : enc.Spells (s.drop len) text) :
      enc.Spells s (w.toNat :: text)

/-! ## `pg_tre_aminsert` -/

/-- `SEEN_MAX`. -/
def seenMax : ℕ := 1 <<< 22

/-- The capacity is doubled while it is below twice the length. -/
def insertCap (len : ℕ) : ℕ → ℕ → ℕ
  | 0, cap => cap
  | fuel + 1, cap =>
      if cap < seenMax ∧ cap < len * 2 then insertCap len fuel (cap <<< 1) else cap

/-- The table for a text of `len` bytes: `SEEN_STACK` slots at least. -/
def SeenSet.insertInit (len : ℕ) : SeenSet where
  cap := insertCap len 13 512
  slots := fun _ => 0
  n := 0
  zero := false

/-- The deduplication of `pg_tre_aminsert`: the table afterwards, and whether the hash is skipped.
Past half of its capacity the table is not asked. `none` stands for a search that goes around the
table without an end. -/
def SeenSet.insertCheck (seen : SeenSet) (h : UInt64) : Option (SeenSet × Bool) :=
  if h = 0 then
    if seen.zero then some (seen, true) else some ({ seen with zero := true }, false)
  else if seen.n < seen.cap / 2 then
    match OpenAddressing.probe (fun slot => (slot + 1) &&& (seen.cap - 1))
      (fun slot => seen.slots slot == 0 || seen.slots slot == h) seen.cap
      (h.toNat % 2 ^ 32 &&& (seen.cap - 1)) with
    | none => none
    | some slot =>
        if seen.slots slot = h then some (seen, true)
        else some ({ seen with slots := Function.update seen.slots slot h, n := seen.n + 1 }, false)
  else some (seen, false)

/-- What is handed to `pg_tre_pending_append_batch` for each entry. -/
structure InsertEntry where
  trigramHash : UInt64
  tid : ItemPointer
  position : ℕ
deriving DecidableEq

/-- The variables of the loop of `pg_tre_aminsert`, and the batches it has appended. -/
structure InsertState where
  ring : List CodePoint
  seen : SeenSet
  batch : List InsertEntry
  appended : List (List InsertEntry)

/-- A hash is put into the batch. A full batch is appended to the pending list. -/
def InsertState.push (s : InsertState) (tid : ItemPointer) (h : UInt64) : InsertState :=
  let batch := s.batch ++ [⟨h, tid, 0⟩]
  if batch.length = pendingBatchMax then { s with batch := [], appended := s.appended ++ [batch] }
  else { s with batch := batch }

/-- The part of a turn with a full ring. -/
def InsertState.hand (tid : ItemPointer) (s : InsertState) (h : UInt64) : Option InsertState :=
  match s.seen.insertCheck h with
  | none => none
  | some (seen, true) => some { s with seen := seen }
  | some (seen, false) => some (InsertState.push { s with seen := seen } tid h)

/-- One turn of the loop. -/
def InsertState.next (tid : ItemPointer) (s : InsertState) (cp : CodePoint) : Option InsertState :=
  let ring := if 3 ≤ s.ring.length then s.ring.tail ++ [cp] else s.ring ++ [cp]
  match ring with
  | [x, y, z] => InsertState.hand tid { s with ring := ring } (hashTrigramCp (x, y, z))
  | ring => some { s with ring := ring }

/-- The loop of `pg_tre_aminsert`. -/
def insertLoop (tid : ItemPointer) (text : List CodePoint) (s : InsertState) : Option InsertState :=
  text.foldlM (InsertState.next tid) s

/-- The batches at the end of the loop, with the last one. -/
def InsertState.batches (s : InsertState) : List (List InsertEntry) :=
  if 0 < s.batch.length then s.appended ++ [s.batch] else s.appended

/-- `pg_tre_aminsert`, up to the merge that may follow: the batches that are appended to the
pending list, and what it returns. `NULL` is `none`. A result of `none` stands for a loop without
an end. -/
def aminsert (enc : ServerEncoding) (tid : ItemPointer) (value : Option (List UInt8)) :
    Option (List (List InsertEntry) × Except PgError Bool) :=
  match value with
  | none => some ([], .ok false)
  | some bytes =>
      let stream := cpstreamOf enc bytes
      match insertLoop tid stream.1 ⟨[], .insertInit bytes.length, [], []⟩ with
      | none => none
      | some s =>
          match stream.2 with
          | .error e => some (s.appended, .error e)
          | .ok _ => some (s.batches, .ok true)

/-- `extract_trigrams` on the bytes of a value. -/
def extractTrigramsOf (enc : ServerEncoding) (maxEntriesMb : ℕ) (b : BuildState) (tid : ItemPointer)
    (value : Option (List UInt8)) : Except PgError BuildState :=
  match value with
  | none => .ok b
  | some bytes =>
      let stream := cpstreamOf enc bytes
      match extractLoop maxEntriesMb tid stream.1 [] (.init bytes.length) b with
      | .error e => .error e
      | .ok b' =>
          match stream.2 with
          | .error e => .error e
          | .ok _ => .ok b'

/-- On the text of a row in UTF-8 this is what the build does. -/
theorem extractTrigramsOf_utf8 {enc : ServerEncoding} {bytes : List UInt8} {text : List CodePoint}
    (hstream : cpstreamOf enc bytes = (text, .ok ())) (hlen : bytes.length = utf8Length text)
    (maxEntriesMb : ℕ) (b : BuildState) (tid : ItemPointer) :
    extractTrigramsOf enc maxEntriesMb b tid (some bytes) =
      extractTrigrams maxEntriesMb b ⟨tid, some text⟩ := by
  simp only [extractTrigramsOf, extractTrigrams, hstream, hlen]
  cases extractLoop maxEntriesMb tid text [] (.init (utf8Length text)) b <;> rfl

/-! ## The stream -/

/-- The stream of a text is all its characters. -/
theorem cpstream_spells {enc : ServerEncoding} {s : List UInt8} {text : List CodePoint}
    (htext : enc.Spells s text) {fuel : ℕ} (hfuel : s.length ≤ fuel) (pos : ℕ) :
    cpstream enc fuel pos s = (text, .ok ()) := by
  induction htext generalizing fuel pos with
  | nil => cases fuel <;> rfl
  | @char s len w text hchar hrest ih =>
    obtain ⟨hpos, hle, hlt⟩ := decodeChar_lt hchar
    cases fuel with
    | zero => omega
    | succ fuel =>
      have hdrop : (s.drop len).length ≤ fuel := by
        rw [List.length_drop]
        omega
      cases s with
      | nil =>
        simp only [List.length_nil] at hle
        omega
      | cons c s =>
        rw [cpstream]
        · simp only [hchar, toInt_of_lt hlt, ih hdrop (pos + len), Int.toNat_natCast]
          rw [if_neg (by omega)]
        · simp

/-! ## The table -/

/-- The capacity is a power of two, and at most `n` of its slots are taken. -/
structure SeenSet.Roomy (seen : SeenSet) : Prop where
  cap : ∃ k, seen.cap = 2 ^ k
  used : ((Finset.range seen.cap).filter fun slot => seen.slots slot ≠ 0).card ≤ seen.n

/-- The table holds only hashes of the list. -/
def SeenSet.Covered (seen : SeenSet) (hashes : List UInt64) : Prop :=
  (∀ slot, seen.slots slot ≠ 0 → seen.slots slot ∈ hashes) ∧ (seen.zero = true → 0 ∈ hashes)

/-- Hashes appended to the list stay covered. -/
theorem SeenSet.Covered.append {seen : SeenSet} {hashes : List UInt64}
    (hseen : seen.Covered hashes) (more : List UInt64) : seen.Covered (hashes ++ more) :=
  ⟨fun slot hslot => List.mem_append_left more (hseen.1 slot hslot),
    fun hzero => List.mem_append_left more (hseen.2 hzero)⟩

/-- The capacity grows by doubling, so it stays a power of two. -/
theorem insertCap_pow (len : ℕ) {fuel k : ℕ} : ∃ j, insertCap len fuel (2 ^ k) = 2 ^ j := by
  induction fuel generalizing k with
  | zero => exact ⟨k, rfl⟩
  | succ fuel ih =>
    rw [insertCap]
    split
    · rw [Nat.shiftLeft_eq, ← pow_add]
      exact ih
    · exact ⟨k, rfl⟩

/-- The set starts roomy at any length. -/
theorem SeenSet.insertInit_roomy (len : ℕ) : (SeenSet.insertInit len).Roomy where
  cap := insertCap_pow len (k := 9)
  used := by
    apply le_of_eq
    refine Finset.card_eq_zero.mpr (Finset.filter_eq_empty_iff.mpr ?_)
    intro slot _ hslot
    exact hslot rfl

/-- The search of a table that is at most half full ends, at a free slot or at the hash. -/
theorem SeenSet.Roomy.probe {seen : SeenSet} (hroomy : seen.Roomy) (h : UInt64)
    (hhalf : seen.n < seen.cap / 2) :
    ∃ slot, OpenAddressing.probe (fun slot => (slot + 1) &&& (seen.cap - 1))
        (fun slot => seen.slots slot == 0 || seen.slots slot == h) seen.cap
        (h.toNat % 2 ^ 32 &&& (seen.cap - 1)) = some slot ∧
      (seen.slots slot = 0 ∨ seen.slots slot = h) := by
  obtain ⟨k, hk⟩ := hroomy.cap
  have hmask : ∀ i, i &&& (seen.cap - 1) = i % seen.cap := by
    intro i
    rw [hk, Nat.and_two_pow_sub_one_eq_mod]
  obtain ⟨free, hfree, hslot⟩ := exists_free hroomy.used (by omega)
  rw [not_not] at hslot
  simp only [hmask]
  have hexists : ∃ s < seen.cap, (seen.slots s == 0 || seen.slots s == h) = true :=
    ⟨free, hfree, by rw [hslot]; rfl⟩
  obtain ⟨slot, hprobe, -, hstop⟩ := exists_probe_eq_some
    (Nat.mod_lt (h.toNat % 2 ^ 32) (show seen.cap > 0 by omega)) hexists
  refine ⟨slot, hprobe, ?_⟩
  simpa using hstop

/-- A hash is skipped only when it was handed over, and otherwise the table takes it in at
most. -/
theorem SeenSet.Roomy.insertCheck {seen : SeenSet} (hroomy : seen.Roomy) {hashes : List UInt64}
    (hseen : seen.Covered hashes) (h : UInt64) :
    ∃ seen' skip, seen.insertCheck h = some (seen', skip) ∧ seen'.Roomy ∧
      (skip = true → h ∈ hashes ∧ seen'.Covered hashes) ∧
      (skip = false → seen'.Covered (hashes ++ [h])) := by
  have hlast : h ∈ hashes ++ [h] := List.mem_append_right _ List.mem_cons_self
  unfold SeenSet.insertCheck
  by_cases hzero : h = 0
  · rw [if_pos hzero]
    cases hflag : seen.zero with
    | true =>
      rw [if_pos rfl]
      exact ⟨seen, true, rfl, hroomy, fun _ => ⟨hzero ▸ hseen.2 hflag, hseen⟩, nofun⟩
    | false =>
      rw [if_neg Bool.false_ne_true]
      refine ⟨_, false, rfl, ⟨hroomy.cap, hroomy.used⟩, nofun, fun _ => ⟨?_, ?_⟩⟩
      · exact (hseen.append [h]).1
      · intro _
        rwa [hzero] at hlast ⊢
  · rw [if_neg hzero]
    by_cases hhalf : seen.n < seen.cap / 2
    · rw [if_pos hhalf]
      obtain ⟨slot, hprobe, hslot⟩ := hroomy.probe h hhalf
      rw [hprobe]
      dsimp only
      by_cases hheld : seen.slots slot = h
      · rw [if_pos hheld]
        refine ⟨seen, true, rfl, hroomy, fun _ => ⟨?_, hseen⟩, nofun⟩
        have hmem := hseen.1 slot (by rw [hheld]; exact hzero)
        rwa [hheld] at hmem
      · rw [if_neg hheld]
        refine ⟨_, false, rfl, ⟨hroomy.cap, ?_⟩, nofun, fun _ => ⟨?_, ?_⟩⟩
        · refine card_used_le hroomy.used (s := slot) ?_
          intro i hi hused
          dsimp only at hused
          rwa [Function.update_of_ne hi] at hused
        · intro i hused
          dsimp only at hused ⊢
          by_cases hi : i = slot
          · rw [hi, Function.update_self]
            exact hlast
          · rw [Function.update_of_ne hi] at hused ⊢
            exact (hseen.append [h]).1 i hused
        · exact (hseen.append [h]).2
    · rw [if_neg hhalf]
      exact ⟨seen, false, rfl, hroomy, nofun, fun _ => hseen.append [h]⟩

/-! ## The loop -/

/-- The hashes of some batches. -/
def hashesOf (batches : List (List InsertEntry)) : List UInt64 :=
  batches.flatten.map InsertEntry.trigramHash

/-- The hashes handed over so far, with those of the current batch. -/
def InsertState.hashes (s : InsertState) : List UInt64 :=
  hashesOf (s.appended ++ [s.batch])

/-- What holds at each turn of the loop. -/
structure InsertState.Sound (tid : ItemPointer) (s : InsertState) : Prop where
  ring_length : s.ring.length ≤ 3
  ring_hashes : ∀ t ∈ windows s.ring, hashTrigramCp t ∈ s.hashes
  roomy : s.seen.Roomy
  covered : s.seen.Covered s.hashes
  batch_length : s.batch.length < pendingBatchMax
  appended_length : ∀ batch ∈ s.appended, batch.length = pendingBatchMax
  entries : ∀ batch ∈ s.appended ++ [s.batch], ∀ e ∈ batch, e.tid = tid ∧ e.position = 0

/-- A push appends its hash. -/
theorem InsertState.push_hashes (s : InsertState) (tid : ItemPointer) (h : UInt64) :
    (s.push tid h).hashes = s.hashes ++ [h] := by
  unfold push
  dsimp only
  split <;> simp [hashes, hashesOf]

/-- A push leaves the ring alone. -/
@[simp] theorem InsertState.push_ring (s : InsertState) (tid : ItemPointer) (h : UInt64) :
    (s.push tid h).ring = s.ring := by
  unfold push
  dsimp only
  split <;> rfl

/-- A push leaves the seen set alone. -/
@[simp] theorem InsertState.push_seen (s : InsertState) (tid : ItemPointer) (h : UInt64) :
    (s.push tid h).seen = s.seen := by
  unfold push
  dsimp only
  split <;> rfl

/-- A hash goes into the batch; the ring and the table are those of the state it goes to. -/
theorem InsertState.Sound.push {tid : ItemPointer} {s : InsertState} (hs : s.Sound tid)
    {ring : List CodePoint} {seen : SeenSet} {h : UInt64} (hlen : ring.length ≤ 3)
    (hring : ∀ t ∈ windows ring, hashTrigramCp t = h) (hroomy : seen.Roomy)
    (hseen : seen.Covered (s.hashes ++ [h])) :
    (InsertState.push { s with ring := ring, seen := seen } tid h).Sound tid := by
  have hhashes := InsertState.push_hashes { s with ring := ring, seen := seen } tid h
  have hold := hs.entries
  refine ⟨?_, ?_, ?_, ?_, ?_, ?_, ?_⟩
  · simpa using hlen
  · intro t ht
    rw [InsertState.push_ring] at ht
    rw [hhashes, hring t ht]
    exact List.mem_append_right _ List.mem_cons_self
  · simpa using hroomy
  · rw [hhashes, InsertState.push_seen]
    exact hseen
  · have hbatch := hs.batch_length
    unfold InsertState.push
    dsimp only
    split
    · exact Nat.lt_of_le_of_lt (Nat.zero_le _) hbatch
    next hfull =>
      simp only [List.length_append, List.length_singleton] at hfull ⊢
      omega
  · unfold InsertState.push
    dsimp only
    split
    next hfull =>
      intro batch hbatch
      rcases List.mem_append.mp hbatch with hbatch | hbatch
      · exact hs.appended_length batch hbatch
      · rw [List.mem_singleton.mp hbatch]
        exact hfull
    next => exact hs.appended_length
  · simp only [List.mem_append, List.mem_singleton] at hold
    unfold InsertState.push
    dsimp only
    split
    · simp only [List.mem_append, List.mem_singleton]
      rintro batch ((hbatch | rfl) | rfl) e he
      · exact hold batch (.inl hbatch) e he
      · rcases List.mem_append.mp he with he | he
        · exact hold s.batch (.inr rfl) e he
        · rw [List.mem_singleton.mp he]
          exact ⟨rfl, rfl⟩
      · cases he
    · simp only [List.mem_append, List.mem_singleton]
      rintro batch (hbatch | rfl) e he
      · exact hold batch (.inl hbatch) e he
      · rcases List.mem_append.mp he with he | he
        · exact hold s.batch (.inr rfl) e he
        · rw [List.mem_singleton.mp he]
          exact ⟨rfl, rfl⟩

/-- A hash that was seen is skipped. -/
theorem InsertState.hand_skip {tid : ItemPointer} {s : InsertState} {h : UInt64} {seen : SeenSet}
    (hcheck : s.seen.insertCheck h = some (seen, true)) :
    s.hand tid h = some { s with seen := seen } := by
  unfold hand
  rw [hcheck]

/-- A new hash is pushed. -/
theorem InsertState.hand_new {tid : ItemPointer} {s : InsertState} {h : UInt64} {seen : SeenSet}
    (hcheck : s.seen.insertCheck h = some (seen, false)) :
    s.hand tid h = some (InsertState.push { s with seen := seen } tid h) := by
  unfold hand
  rw [hcheck]

/-- A turn that ends with a full ring hands over the hash of the trigram in it, unless it was. -/
theorem InsertState.Sound.hand {tid : ItemPointer} {s : InsertState} (hs : s.Sound tid)
    (x y z : CodePoint) :
    ∃ s', InsertState.hand tid { s with ring := [x, y, z] } (hashTrigramCp (x, y, z)) = some s' ∧
      s'.Sound tid ∧ s'.ring = [x, y, z] ∧
      ∀ h, h ∈ s'.hashes ↔ h ∈ s.hashes ∨ hashTrigramCp (x, y, z) = h := by
  obtain ⟨seen, skip, hcheck, hroomy, hskip, hnew⟩ :=
    hs.roomy.insertCheck hs.covered (hashTrigramCp (x, y, z))
  have hwindow : ∀ t ∈ windows [x, y, z], t = (x, y, z) := by
    intro t ht
    simpa [windows] using ht
  cases skip with
  | true =>
    obtain ⟨hmem, hcovered⟩ := hskip rfl
    refine ⟨_, InsertState.hand_skip hcheck, ?_, rfl, ?_⟩
    · exact { hs with
        ring_length := by simp
        ring_hashes := fun t ht => hwindow t ht ▸ hmem
        roomy := hroomy
        covered := hcovered }
    · intro h
      constructor
      · exact Or.inl
      · rintro (hh | rfl)
        · exact hh
        · exact hmem
  | false =>
    refine ⟨_, InsertState.hand_new hcheck,
      hs.push (by simp) (fun t ht => by rw [hwindow t ht]) hroomy (hnew rfl),
      InsertState.push_ring _ _ _, ?_⟩
    intro h
    rw [InsertState.push_hashes, List.mem_append, List.mem_singleton]
    exact or_congr Iff.rfl eq_comm

/-- One turn of the loop: the ring moves on, and the trigram that ends here is handed over. -/
theorem InsertState.Sound.next {tid : ItemPointer} {s : InsertState} (hs : s.Sound tid)
    (cp : CodePoint) :
    ∃ s', s.next tid cp = some s' ∧ s'.Sound tid ∧
      ∀ text h, (h ∈ s'.hashes ∨ ∃ t ∈ windows (s'.ring ++ text), hashTrigramCp t = h) ↔
        h ∈ s.hashes ∨ ∃ t ∈ windows (s.ring ++ cp :: text), hashTrigramCp t = h := by
  obtain ⟨ring, seen, batch, appended⟩ := s
  simp only [InsertState.next]
  rcases ring with _ | ⟨x, _ | ⟨y, _ | ⟨z, _ | ⟨w, ring⟩⟩⟩⟩
  · exact ⟨_, rfl, { hs with ring_length := by simp, ring_hashes := by simp [windows] },
      fun text h => Iff.rfl⟩
  · exact ⟨_, rfl, { hs with ring_length := by simp, ring_hashes := by simp [windows] },
      fun text h => Iff.rfl⟩
  · obtain ⟨s', hnext, hs', hring, hhashes⟩ := hs.hand x y cp
    refine ⟨s', ?_, hs', fun text h => ?_⟩
    · simpa only [List.length_cons, List.length_nil, Nat.reduceAdd, Nat.reduceLeDiff, if_false,
        if_true, List.tail_cons, List.cons_append, List.nil_append] using hnext
    rw [hhashes, hring]
    simp only [List.cons_append, List.nil_append, windows, List.mem_cons, exists_eq_or_imp]
    rw [or_assoc, or_self_left]
  · obtain ⟨s', hnext, hs', hring, hhashes⟩ := hs.hand y z cp
    have hfirst := hs.ring_hashes (x, y, z) (by simp [windows])
    refine ⟨s', ?_, hs', fun text h => ?_⟩
    · simpa only [List.length_cons, List.length_nil, Nat.reduceAdd, Nat.reduceLeDiff, if_false,
        if_true, List.tail_cons, List.cons_append, List.nil_append] using hnext
    rw [hhashes, hring]
    simp only [List.cons_append, List.nil_append, windows, List.mem_cons, exists_eq_or_imp]
    rw [or_assoc, or_self_left]
    constructor
    · rintro (hh | hh)
      · exact .inl hh
      · exact .inr (.inr hh)
    · rintro (hh | hh | hh)
      · exact .inl hh
      · exact .inl (hh ▸ hfirst)
      · exact .inr hh
  · have hlen := hs.ring_length
    simp only [List.length_cons] at hlen
    omega

/-- The loop hands over the hashes of the trigrams that begin in the ring or after it. -/
theorem InsertState.Sound.loop {tid : ItemPointer} {s : InsertState} (hs : s.Sound tid)
    (text : List CodePoint) :
    ∃ s', insertLoop tid text s = some s' ∧ s'.Sound tid ∧
      ∀ h, h ∈ s'.hashes ↔
        h ∈ s.hashes ∨ ∃ t ∈ windows (s.ring ++ text), hashTrigramCp t = h := by
  induction text generalizing s with
  | nil =>
    refine ⟨s, rfl, hs, fun h => ⟨Or.inl, ?_⟩⟩
    rw [List.append_nil]
    rintro (hh | ⟨t, ht, rfl⟩)
    · exact hh
    · exact hs.ring_hashes t ht
  | cons cp text ih =>
    obtain ⟨s₁, hnext, hs₁, hwindows⟩ := hs.next cp
    obtain ⟨s', hloop, hs', hhashes⟩ := ih hs₁
    refine ⟨s', ?_, hs', fun h => (hhashes h).trans (hwindows text h)⟩
    unfold insertLoop at hloop ⊢
    rw [List.foldlM_cons, hnext]
    exact hloop

/-- The batches hold the hashes in order. -/
theorem InsertState.hashesOf_batches (s : InsertState) : hashesOf s.batches = s.hashes := by
  unfold batches hashes
  split
  · rfl
  next hempty =>
    have : s.batch = [] := List.eq_nil_of_length_eq_zero (by omega)
    simp [hashesOf, this]

/-- No batch is empty or too long, and every entry carries the row's TID. -/
theorem InsertState.batches_bounds {tid : ItemPointer} {s : InsertState} (hs : s.Sound tid) :
    ∀ batch ∈ s.batches, batch ≠ [] ∧ batch.length ≤ pendingBatchMax ∧
      ∀ e ∈ batch, e.tid = tid ∧ e.position = 0 := by
  have hfull : ∀ batch ∈ s.appended, batch ≠ [] ∧ batch.length ≤ pendingBatchMax ∧
      ∀ e ∈ batch, e.tid = tid ∧ e.position = 0 := by
    intro batch hbatch
    have hlength := hs.appended_length batch hbatch
    refine ⟨?_, by omega, hs.entries batch (List.mem_append_left _ hbatch)⟩
    rintro rfl
    cases hlength
  unfold batches
  split
  next hrest =>
    intro batch hbatch
    rcases List.mem_append.mp hbatch with hbatch | hbatch
    · exact hfull batch hbatch
    · rw [List.mem_singleton.mp hbatch]
      refine ⟨List.length_pos_iff.mp hrest, hs.batch_length.le, ?_⟩
      exact hs.entries s.batch (List.mem_append_right _ List.mem_cons_self)
  next => exact hfull

/-- What an insert appends: the hashes of the trigrams of its text, in batches of the row's TID. -/
theorem aminsert_hashes {enc : ServerEncoding} {bytes : List UInt8} {text : List CodePoint}
    (htext : enc.Spells bytes text) (tid : ItemPointer) :
    ∃ batches, aminsert enc tid (some bytes) = some (batches, .ok true) ∧
      (∀ batch ∈ batches, batch ≠ [] ∧ batch.length ≤ pendingBatchMax ∧
        ∀ e ∈ batch, e.tid = tid ∧ e.position = 0) ∧
      ∀ h, h ∈ hashesOf batches ↔ ∃ t ∈ windows text, hashTrigramCp t = h := by
  have hinit : (InsertState.mk [] (.insertInit bytes.length) [] []).Sound tid := by
    refine ⟨by simp, by simp [windows], SeenSet.insertInit_roomy _, ?_, ?_, by simp, by simp⟩
    · exact ⟨fun slot hslot => absurd rfl hslot, by rintro ⟨⟩⟩
    · simp only [List.length_nil, pendingBatchMax]
      omega
  obtain ⟨s, hloop, hs, hhashes⟩ := hinit.loop text
  refine ⟨s.batches, ?_, InsertState.batches_bounds hs, ?_⟩
  · have hstream : cpstreamOf enc bytes = (text, .ok ()) := cpstream_spells htext le_rfl 0
    simp only [aminsert, hstream, hloop]
  · intro h
    rw [InsertState.hashesOf_batches, hhashes, List.nil_append]
    refine or_iff_right ?_
    simp [InsertState.hashes, hashesOf]

/-! ## The build -/

/-- The tuples `before` stand before the ones that are emitted. -/
def BuildState.after (before : List BuildEntry) (b : BuildState) : BuildState :=
  ⟨b.nEmitted, before ++ b.entries⟩

/-- Emitting commutes with entries that stand before. -/
theorem BuildState.emit_after (maxEntriesMb : ℕ) (b : BuildState) (tid : ItemPointer) (t : Trigram)
    (before : List BuildEntry) :
    (b.after before).emit maxEntriesMb tid t =
      (b.emit maxEntriesMb tid t).map (BuildState.after before) := by
  unfold emit BuildState.after
  dsimp only
  split
  · rfl
  · cases packTid .legacy tid with
    | error e => rfl
    | ok packed =>
      simp only [Except.map, List.append_assoc]

/-- What the loop of the build emits does not depend on what was emitted before. -/
theorem extractLoop_after (maxEntriesMb : ℕ) (tid : ItemPointer) (text ring : List CodePoint)
    (seen : SeenSet) (b : BuildState) (before : List BuildEntry) :
    extractLoop maxEntriesMb tid text ring seen (b.after before) =
      (extractLoop maxEntriesMb tid text ring seen b).map (BuildState.after before) := by
  induction text generalizing ring seen b with
  | nil => rfl
  | cons cp text ih =>
    rw [extractLoop, extractLoop]
    dsimp only
    split
    · split
      · exact ih _ _ b
      · rw [BuildState.emit_after]
        cases b.emit maxEntriesMb tid _ with
        | error e => rfl
        | ok b₁ => exact ih _ _ b₁
    · exact ih _ _ b

/-- Without the guard on its size the loop of the build ends. -/
theorem extractLoop_unbounded (tid : ItemPointer) (text ring : List CodePoint) (seen : SeenSet)
    (b : BuildState) : ∃ b', extractLoop 0 tid text ring seen b = .ok b' := by
  induction text generalizing ring seen b with
  | nil => exact ⟨b, rfl⟩
  | cons cp text ih =>
    rw [extractLoop]
    dsimp only
    split
    · split
      · exact ih _ _ b
      · rw [BuildState.emit, if_neg (by omega)]
        exact ih _ _ _
    · exact ih _ _ b

/-- What the build emits for a text: tuples for the hashes of its trigrams. -/
theorem extractTrigramsOf_hashes {enc : ServerEncoding} {bytes : List UInt8}
    {text : List CodePoint} (htext : enc.Spells bytes text) {maxEntriesMb : ℕ} {b b' : BuildState}
    {tid : ItemPointer} (h : extractTrigramsOf enc maxEntriesMb b tid (some bytes) = .ok b') :
    ∃ emitted, b'.entries = b.entries ++ emitted ∧
      ∀ h, Emitted emitted h ↔ ∃ t ∈ windows text, hashTrigramCp t = h := by
  have hstream : cpstreamOf enc bytes = (text, .ok ()) := cpstream_spells htext le_rfl 0
  have hstart : b = BuildState.after b.entries ⟨b.nEmitted, []⟩ := by
    rw [BuildState.after, List.append_nil]
  simp only [extractTrigramsOf, hstream] at h
  rw [hstart, extractLoop_after] at h
  cases hloop : extractLoop maxEntriesMb tid text [] (.init bytes.length) ⟨b.nEmitted, []⟩ with
  | error e =>
    rw [hloop] at h
    cases h
  | ok b₁ =>
    rw [hloop] at h
    cases h
    have hseen : (SeenSet.init bytes.length).Within [] :=
      ⟨fun slot hslot => absurd rfl hslot, nofun⟩
    have hholds := extractLoop_holds (P := fun _ => False) (by simp) (by simp [windows])
      ⟨by simp, by simp⟩ hseen hloop
    refine ⟨b₁.entries, rfl, fun h => ⟨?_, ?_⟩⟩
    · rintro ⟨e, he, rfl⟩
      obtain ⟨t, ht, hhash, -⟩ := hholds.sound e he
      rw [List.nil_append] at ht
      exact ⟨t, ht.resolve_left id, hhash.symm⟩
    · rintro ⟨t, ht, rfl⟩
      exact hholds.complete t (.inr ht)

/-- An insert and a build index a text under the same hashes: those of all its runs of three
characters. The build does so whenever its limit on the number of tuples lets it end, and without
the limit it ends. -/
theorem aminsert_extractTrigrams_same_hashes {enc : ServerEncoding} {bytes : List UInt8}
    {text : List CodePoint} (htext : enc.Spells bytes text) (tid : ItemPointer) (b : BuildState) :
    (∃ batches, aminsert enc tid (some bytes) = some (batches, .ok true) ∧
      (∀ batch ∈ batches, batch ≠ [] ∧ batch.length ≤ pendingBatchMax ∧
        ∀ e ∈ batch, e.tid = tid ∧ e.position = 0) ∧
      ∀ h, h ∈ hashesOf batches ↔ ∃ t ∈ windows text, hashTrigramCp t = h) ∧
    (∀ maxEntriesMb b', extractTrigramsOf enc maxEntriesMb b tid (some bytes) = .ok b' →
      ∃ emitted, b'.entries = b.entries ++ emitted ∧
        ∀ h, Emitted emitted h ↔ ∃ t ∈ windows text, hashTrigramCp t = h) ∧
    ∃ b', extractTrigramsOf enc 0 b tid (some bytes) = .ok b' := by
  refine ⟨aminsert_hashes htext tid, fun maxEntriesMb b' h => extractTrigramsOf_hashes htext h, ?_⟩
  obtain ⟨b', hloop⟩ := extractLoop_unbounded tid text [] (.init bytes.length) b
  have hstream : cpstreamOf enc bytes = (text, .ok ()) := cpstream_spells htext le_rfl 0
  exact ⟨b', by simp only [extractTrigramsOf, hstream, hloop]⟩

/-- LATIN1: a character is a byte. -/
def latin1Encoding : ServerEncoding where
  name := "LATIN1"
  mblenOrIncomplete := fun _ => some 1
  verifymbchar := fun _ => 1
  mb2wchar := fun s => (s.headD 0).toUInt32
  mblen_pos := by
    intro s len hlen
    cases hlen
    omega

/-- The first tuple of a heap. -/
def firstTid : ItemPointer := ⟨0, 1, zero_lt_blkid, one_lt_posid⟩

/-- The text "été", whose only trigram is the whole of it. -/
theorem aminsert_extractTrigrams_latin1 :
    (∃ batches, aminsert latin1Encoding firstTid (some [0xE9, 0x74, 0xE9]) = some (batches, .ok true) ∧
      (∀ batch ∈ batches, batch ≠ [] ∧ batch.length ≤ pendingBatchMax ∧
        ∀ e ∈ batch, e.tid = firstTid ∧ e.position = 0) ∧
      ∀ h, h ∈ hashesOf batches ↔ ∃ t ∈ windows [0xE9, 0x74, 0xE9], hashTrigramCp t = h) ∧
    (∀ maxEntriesMb b',
      extractTrigramsOf latin1Encoding maxEntriesMb ⟨0, []⟩ firstTid (some [0xE9, 0x74, 0xE9]) =
        .ok b' →
      ∃ emitted, b'.entries = [] ++ emitted ∧
        ∀ h, Emitted emitted h ↔ ∃ t ∈ windows [0xE9, 0x74, 0xE9], hashTrigramCp t = h) ∧
    ∃ b', extractTrigramsOf latin1Encoding 0 ⟨0, []⟩ firstTid (some [0xE9, 0x74, 0xE9]) = .ok b' := by
  have hspells : latin1Encoding.Spells [0xE9, 0x74, 0xE9] [0xE9, 0x74, 0xE9] := by
    refine @ServerEncoding.Spells.char latin1Encoding _ 1 0xE9 _ rfl ?_
    refine @ServerEncoding.Spells.char latin1Encoding _ 1 0x74 _ rfl ?_
    exact @ServerEncoding.Spells.char latin1Encoding _ 1 0xE9 _ rfl .nil
  exact aminsert_extractTrigrams_same_hashes hspells firstTid ⟨0, []⟩

end PgTre
