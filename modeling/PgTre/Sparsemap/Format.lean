import PgTre.Sparsemap.Forms

/-!
# The stored form of a sparsemap

`sm_open_copy`, `sm_open` and `sm_validate` of `src/util/sparsemap.c` on the bytes of a buffer. A map
says itself where it ends, so that a posting may store more bytes behind it.
-/

namespace PgTre.Sparsemap

/-! ## Writing -/

/-- `SM_SMALL_FLAG`. -/
def smallFlag : ℕ := 2 ^ 63

/-- The words of a chunk: its start, its descriptor and the stored vectors. -/
def chunkWords (c : Chunk) : List ℕ := c.start :: c.desc :: c.vecs

/-- The words of the chunks of a map. -/
def chunkStream (cs : List Chunk) : List ℕ := cs.flatMap chunkWords

/-- The words of a map: `m_data` up to `m_data_used`. -/
def mapWords : SparseMap → List ℕ
  | .small ws => (smallFlag + ws.length) :: ws
  | .chunked cs => cs.length :: chunkStream cs

/-- The bytes of a map: `sm_get_data` and `sm_get_size`. -/
def SparseMap.bytes (m : SparseMap) : List UInt8 := (mapWords m).flatMap word

/-! ## Reading -/

/-- The stored vectors that a descriptor asks for. -/
def storedWords (desc : ℕ) : ℕ := sizeWords desc - 1

/-- The walk of `__sm_get_size_impl`: the chunks that the buffer has, up to a count. -/
def walkChunks : ℕ → List ℕ → List Chunk
  | count + 1, start :: desc :: rest =>
      if rest.length < storedWords desc then []
      else ⟨start, desc, rest.take (storedWords desc)⟩ ::
        walkChunks count (rest.drop (storedWords desc))
  | _, _ => []

/-- The stored vectors of a chunk have room. -/
def SlotsFit (c : Chunk) : Prop :=
  c.desc &&& 0xAAAAAAAAAAAAAAAA = 0 ∨
    (Nat.log2 (c.desc &&& 0xAAAAAAAAAAAAAAAA) / 2 + 1) * 64 ≤ c.capacity

instance (c : Chunk) : Decidable (SlotsFit c) := inferInstanceAs (Decidable (_ ∨ _))

/-- The loop of `sm_validate`, with the start and the end of the chunk before. An end may wrap to
zero. -/
def validateWalk : ℕ → Option (ℕ × ℕ) → List ℕ → Bool
  | 0, _, p => p.isEmpty
  | count + 1, prev, start :: desc :: rest =>
      let c : Chunk := ⟨start, desc, rest.take (storedWords desc)⟩
      let chunkEnd := (start + c.capacity) % 2 ^ 64
      if prev.any fun q => start ≤ q.1 then false
      else if start % 2048 ≠ 0 then false
      else if rest.length < storedWords desc then false
      else if c.isRle ∧ c.capacity < rleLength desc then false
      else if ¬c.isRle ∧ ¬SlotsFit c then false
      else if chunkEnd ≠ 0 ∧ chunkEnd < start then false
      else if prev.any fun q => q.2 ≠ 0 && start < q.2 then false
      else validateWalk count (some (start, chunkEnd)) (rest.drop (storedWords desc))
  | _ + 1, _, _ => false

/-- `sm_validate` on the first `used` words of a buffer. -/
def validate (data : List ℕ) (used : ℕ) : Bool :=
  match data with
  | [] => true
  | header :: body =>
      if used = 0 then true
      else if header.testBit 63 then
        let nwords := header % 2 ^ 32
        nwords ≤ smallMaxWords && used = 1 + nwords && (nwords = 0 || body.getD (nwords - 1) 0 ≠ 0)
      else if header = 0 then used = 1
      else validateWalk header none (body.take (used - 1))

/-- The words of some bytes. What is left at the end is no word. -/
def wordsOf : List UInt8 → List ℕ
  | b₀ :: b₁ :: b₂ :: b₃ :: b₄ :: b₅ :: b₆ :: b₇ :: rest =>
      ofBytes [b₀, b₁, b₂, b₃, b₄, b₅, b₆, b₇] :: wordsOf rest
  | _ => []

/-- What `sm_open` and `sm_open_copy` do with the words of a buffer and the number of bytes given. -/
def openBuffer (buf : List ℕ) (n : ℕ) : Option SparseMap :=
  let header := buf.headD 0
  let body := buf.tail
  if header.testBit 63 then
    let nwords := header % 2 ^ 32
    if n < 8 * (1 + nwords) ∨ validate buf (1 + nwords) = false then none
    else some (.small (body.take nwords))
  else
    let cs := walkChunks header body
    if cs.length ≠ header ∨ validate buf (1 + (chunkStream cs).length) = false then none
    else some (.chunked cs)

/-- The buffer that `sm_create` makes, with some bytes copied to its start. -/
def copyBuffer (data : List UInt8) (slack : ℕ) : List UInt8 :=
  data ++ List.replicate ((max (data.length + slack) 8 + 7) / 8 * 8 - data.length) 0

/-- `sm_open_copy`, when there is memory. -/
def openCopy (data : List UInt8) (slack : ℕ) : Option SparseMap :=
  if data = [] then some (.chunked []) else openBuffer (wordsOf (copyBuffer data slack)) data.length

/-- `sm_open` on a map from `sm_wrap`. What is not valid becomes the empty map. -/
def openWrapped (data : List UInt8) : SparseMap :=
  (openBuffer (wordsOf data) data.length).getD (.chunked [])

/-! ## What was written is read -/

section

variable {c : Chunk} {cs : List Chunk} {m : SparseMap} {p ws buf : List ℕ} {data : List UInt8}
  {prev : Option (ℕ × ℕ)} {count desc slack i : ℕ}

/-- Bytes of a word are those of the number in them. -/
theorem wordBytes_ofBytes (bytes : List UInt8) : wordBytes bytes.length (ofBytes bytes) = bytes := by
  induction bytes with
  | nil => rfl
  | cons b bytes ih =>
    have hlt := b.toNat_lt
    have hdiv : (b.toNat + 256 * ofBytes bytes) / 256 = ofBytes bytes := by omega
    have hbyte : UInt8.ofNat (b.toNat + 256 * ofBytes bytes) = b := by
      apply UInt8.toNat_inj.mp
      rw [UInt8.toNat_ofNat']
      omega
    rw [List.length_cons, ofBytes, wordBytes, hdiv, hbyte, ih]

/-- Words are read as they were written. -/
theorem wordsOf_flatMap_word (hws : ∀ w ∈ ws, w < 2 ^ 64) (rest : List UInt8) :
    wordsOf (ws.flatMap word ++ rest) = ws ++ wordsOf rest := by
  induction ws with
  | nil => rfl
  | cons w ws ih =>
    have hw : ofBytes (word w) = w := by
      rw [word, ofBytes_wordBytes, Nat.mod_eq_of_lt (by simpa using hws w List.mem_cons_self)]
    rw [List.flatMap_cons, List.append_assoc, List.cons_append,
      ← ih fun v hv => hws v (List.mem_cons_of_mem _ hv)]
    exact congrArg (· :: wordsOf (ws.flatMap word ++ rest)) hw

/-- The words of a buffer without an end that is no word are its bytes. -/
theorem flatMap_word_wordsOf (h : 8 ∣ data.length) : (wordsOf data).flatMap word = data := by
  induction data using wordsOf.induct with
  | case1 b₀ b₁ b₂ b₃ b₄ b₅ b₆ b₇ rest ih =>
    have hrest : 8 ∣ rest.length := by
      simp only [List.length_cons] at h
      omega
    have hword : word (ofBytes [b₀, b₁, b₂, b₃, b₄, b₅, b₆, b₇]) = [b₀, b₁, b₂, b₃, b₄, b₅, b₆, b₇] :=
      wordBytes_ofBytes [b₀, b₁, b₂, b₃, b₄, b₅, b₆, b₇]
    rw [wordsOf, List.flatMap_cons, ih hrest, hword]
    rfl
  | case2 data hshort =>
    match data, h, hshort with
    | [], _, _ => rfl
    | [_], h, _ => simp at h
    | [_, _], h, _ => simp at h
    | [_, _, _], h, _ => simp at h
    | [_, _, _, _], h, _ => simp at h
    | [_, _, _, _, _], h, _ => simp at h
    | [_, _, _, _, _, _], h, _ => simp at h
    | [_, _, _, _, _, _, _], h, _ => simp at h
    | b₀ :: b₁ :: b₂ :: b₃ :: b₄ :: b₅ :: b₆ :: b₇ :: rest, _, hshort =>
      exact absurd rfl (hshort b₀ b₁ b₂ b₃ b₄ b₅ b₆ b₇ rest)

/-- Bytes make a number of their width. -/
theorem ofBytes_lt (bytes : List UInt8) : ofBytes bytes < 256 ^ bytes.length := by
  induction bytes with
  | nil => decide
  | cons b bytes ih =>
    have hlt := b.toNat_lt
    rw [ofBytes, List.length_cons, pow_succ]
    omega

/-- The words of a buffer fit in 64 bits. -/
theorem wordsOf_lt : ∀ w ∈ wordsOf data, w < 2 ^ 64 := by
  induction data using wordsOf.induct with
  | case1 b₀ b₁ b₂ b₃ b₄ b₅ b₆ b₇ rest ih =>
    rw [wordsOf]
    have hlt := ofBytes_lt [b₀, b₁, b₂, b₃, b₄, b₅, b₆, b₇]
    have hpow : 256 ^ 8 = 2 ^ 64 := by decide
    exact List.forall_mem_cons.mpr ⟨hlt.trans_eq hpow, ih⟩
  | case2 data hshort =>
    rw [wordsOf.eq_2 _ hshort]
    exact fun w hw => absurd hw List.not_mem_nil

/-- A chunk stores the vectors that its descriptor asks for. -/
theorem Chunk.Ok.length_vecs (hc : c.Ok) : c.vecs.length = storedWords c.desc := by
  unfold storedWords
  by_cases hrle : c.isRle
  · have hflag : flagsAt c.desc 31 = 1 := hrle
    rw [(hc.rle hrle).2.2, sizeWords, if_pos hflag]
    rfl
  · rw [hc.length hrle, sizeWords_of_sparse hrle, Nat.add_sub_cancel_left]

/-- The walk reads the chunks of a stream. -/
theorem walkChunks_stream (h : ∀ c ∈ cs, c.vecs.length = storedWords c.desc) (rest : List ℕ) :
    walkChunks cs.length (chunkStream cs ++ rest) = cs := by
  induction cs with
  | nil => cases rest <;> rfl
  | cons c cs ih =>
    have hc := h c List.mem_cons_self
    have hcons : chunkStream (c :: cs) ++ rest =
        c.start :: c.desc :: (c.vecs ++ (chunkStream cs ++ rest)) := by
      unfold chunkStream chunkWords
      simp
    rw [hcons, List.length_cons, walkChunks, if_neg (by rw [List.length_append]; omega), ← hc,
      List.take_left, List.drop_left, ih fun d hd => h d (List.mem_cons_of_mem _ hd)]

/-- A slot is mixed or full when its high bit is set. -/
theorem two_le_flagsAt_iff : 2 ≤ flagsAt desc i ↔ desc.testBit (2 * i + 1) = true := by
  have hpow : 2 ^ (2 * i + 1) = 4 ^ i * 2 := by
    rw [pow_succ, pow_mul]
    rfl
  rw [flagsAt, Nat.testBit_eq_decide_div_mod_eq, decide_eq_true_eq, hpow, ← Nat.div_div_eq_div_mul]
  omega

/-- The mask of `sm_validate` has the high bit of each flag. -/
theorem testBit_mask : ∀ i < 32, Nat.testBit 0xAAAAAAAAAAAAAAAA (2 * i + 1) = true := by decide

/-- The vectors that a chunk of the library stores have room. -/
theorem Chunk.Ok.slotsFit (hc : c.Ok) (h : ¬c.isRle) : SlotsFit c := by
  unfold SlotsFit
  by_cases hzero : c.desc &&& 0xAAAAAAAAAAAAAAAA = 0
  · exact Or.inl hzero
  · right
    have hlog : Nat.log2 (c.desc &&& 0xAAAAAAAAAAAAAAAA) < 64 :=
      (Nat.log2_lt hzero).mpr (Nat.and_lt_two_pow _ (by decide))
    rw [hc.capacity_of_sparse h]
    omega

/-- `sm_validate` accepts the chunks of the library. -/
theorem validateWalk_stream (h : Laid cs)
    (hprev : ∀ q ∈ prev, ∀ c ∈ cs, q.1 < c.start ∧ q.2 ≤ c.start) :
    validateWalk cs.length prev (chunkStream cs) = true := by
  induction cs generalizing prev with
  | nil => rfl
  | cons c cs ih =>
    have hc := h.head
    have hcons : chunkStream (c :: cs) = c.start :: c.desc :: (c.vecs ++ chunkStream cs) := by
      unfold chunkStream chunkWords
      simp
    have hlen := hc.length_vecs
    have hstop := hc.stop_lt
    have hlt := hc.start_lt_stop
    have haligned := hc.aligned
    have hbefore : ¬(prev.any fun q => decide (c.start ≤ q.1)) = true := by
      rw [Option.any_eq_true]
      rintro ⟨q, hq, hle⟩
      have hlt := (hprev q hq c List.mem_cons_self).1
      rw [decide_eq_true_eq] at hle
      omega
    have hoverlap : ¬(prev.any fun q => q.2 ≠ 0 && c.start < q.2) = true := by
      rw [Option.any_eq_true]
      rintro ⟨q, hq, hle⟩
      have hle' := (hprev q hq c List.mem_cons_self).2
      rw [Bool.and_eq_true, decide_eq_true_eq, decide_eq_true_eq] at hle
      omega
    have hrle : ¬(c.isRle ∧ c.capacity < rleLength c.desc) := by
      rintro ⟨hrle, hlt'⟩
      rw [Chunk.capacity_of_rle hrle] at hlt'
      have hle := (hc.rle hrle).2.1
      omega
    have hslots : ¬(¬c.isRle ∧ ¬SlotsFit c) := fun hnot => hnot.2 (hc.slotsFit hnot.1)
    have hend : (c.start + c.capacity) % 2 ^ 64 = c.stop := Nat.mod_eq_of_lt hstop
    rw [hcons, List.length_cons, validateWalk, ← hlen, List.take_left, List.drop_left]
    rw [if_neg hbefore, if_neg (by omega), if_neg (by rw [List.length_append]; omega), if_neg hrle,
      if_neg hslots, hend, if_neg (by omega), if_neg hoverlap]
    apply ih h.tail
    rintro q hq d hd
    cases hq
    have hle := h.le_start hd
    exact ⟨by omega, hle⟩

/-- There are fewer chunks than numbers. -/
theorem Laid.length_lt (h : Laid cs) : cs.length < 2 ^ 63 := by
  have hcount : ∀ (cs : List Chunk) (f : ℕ), Laid cs → (∀ c ∈ cs, f ≤ c.start) → f < 2 ^ 64 →
      f + 2048 * cs.length ≤ 2 ^ 64 := by
    intro cs
    induction cs with
    | nil => exact fun f _ _ hf => by rw [List.length_nil, Nat.mul_zero]; exact hf.le
    | cons c cs ih =>
      intro f hlaid hstart hf
      have hroom := hlaid.head.start_add_le_stop
      have hle := hstart c List.mem_cons_self
      have hrest := ih c.stop hlaid.tail (fun d hd => hlaid.le_start hd) hlaid.head.stop_lt
      calc f + 2048 * (c :: cs).length = f + 2048 + 2048 * cs.length := by
            rw [List.length_cons]
            omega
        _ ≤ c.stop + 2048 * cs.length :=
            Nat.add_le_add_right ((Nat.add_le_add_right hle 2048).trans hroom) _
        _ ≤ 2 ^ 64 := hrest
  have hle := hcount cs 0 h (fun _ _ => Nat.zero_le _) (by decide)
  omega

/-- The words of chunks are not read as a small map. -/
theorem testBit_of_lt {n : ℕ} (h : n < 2 ^ 63) : n.testBit 63 = false := Nat.testBit_lt_two_pow h

/-- `sm_validate` accepts the chunks of the library, whatever follows them. -/
theorem validate_stream (h : Laid cs) (rest : List ℕ) :
    validate (cs.length :: (chunkStream cs ++ rest)) (1 + (chunkStream cs).length) = true := by
  unfold validate
  dsimp only
  rw [if_neg (by omega), if_neg (by rw [testBit_of_lt h.length_lt]; decide)]
  by_cases hempty : cs.length = 0
  · rw [if_pos hempty, List.length_eq_zero_iff.mp hempty]
    rfl
  · rw [if_neg hempty, Nat.add_sub_cancel_left, List.take_left]
    exact validateWalk_stream h fun q hq => by cases hq

/-- The header of a small map. -/
theorem header_small (hlen : i ≤ 16) :
    (smallFlag + i).testBit 63 = true ∧ (smallFlag + i) % 2 ^ 32 = i := by
  unfold smallFlag
  constructor
  · rw [Nat.testBit_eq_decide_div_mod_eq, decide_eq_true_eq]
    omega
  · omega

/-- Opening a buffer, by its header. -/
theorem openBuffer_cons (header : ℕ) (body : List ℕ) (n : ℕ) : openBuffer (header :: body) n =
    if header.testBit 63 then
      if n < 8 * (1 + header % 2 ^ 32) ∨
          validate (header :: body) (1 + header % 2 ^ 32) = false then none
      else some (.small (body.take (header % 2 ^ 32)))
    else if (walkChunks header body).length ≠ header ∨
        validate (header :: body) (1 + (chunkStream (walkChunks header body)).length) = false then none
    else some (.chunked (walkChunks header body)) := rfl

/-- A map is read from its words, whatever follows them. -/
theorem openBuffer_mapWords (h : m.Ok) (rest : List ℕ) {n : ℕ} (hn : 8 * (mapWords m).length ≤ n) :
    openBuffer (mapWords m ++ rest) n = some m := by
  cases m with
  | small ws =>
    obtain ⟨hflag, hmod⟩ := header_small (show ws.length ≤ 16 from h.length_le)
    have hlast : ws.length = 0 ∨ (ws ++ rest).getD (ws.length - 1) 0 ≠ 0 := by
      rcases Nat.eq_zero_or_pos ws.length with hzero | hpos
      · exact Or.inl hzero
      · right
        rw [List.getD_append _ _ _ _ (by omega)]
        exact h.last_ne _ ((getLast?_eq_getD _).mpr ⟨List.ne_nil_of_length_pos hpos, rfl⟩)
    have hvalid : validate ((smallFlag + ws.length) :: (ws ++ rest)) (1 + ws.length) = true := by
      unfold validate
      dsimp only
      rw [if_neg (by omega), if_pos hflag, hmod]
      simp only [Bool.and_eq_true, Bool.or_eq_true, decide_eq_true_eq]
      exact ⟨⟨h.length_le, trivial⟩, hlast⟩
    have hread : ¬(n < 8 * (1 + ws.length) ∨
        validate ((smallFlag + ws.length) :: (ws ++ rest)) (1 + ws.length) = false) := by
      rw [hvalid]
      rw [mapWords, List.length_cons] at hn
      rintro (hlt | hfalse)
      · omega
      · cases hfalse
    rw [mapWords, List.cons_append, openBuffer_cons, if_pos hflag, hmod, if_neg hread, List.take_left]
  | chunked cs =>
    have hlaid : Laid cs := h
    have hwalk := walkChunks_stream (fun c hc => (hlaid.1 c hc).length_vecs) rest
    have hread : ¬(cs.length ≠ cs.length ∨
        validate (cs.length :: (chunkStream cs ++ rest)) (1 + (chunkStream cs).length) = false) := by
      rw [validate_stream hlaid]
      rintro (hne | hfalse)
      · exact hne rfl
      · cases hfalse
    rw [mapWords, List.cons_append, openBuffer_cons,
      if_neg (by rw [testBit_of_lt hlaid.length_lt]; decide), hwalk, if_neg hread]

/-- The words of a map are words. -/
theorem mapWords_lt (h : m.Ok) : ∀ w ∈ mapWords m, w < 2 ^ 64 := by
  cases m with
  | small ws =>
    have hlen : ws.length ≤ 16 := h.length_le
    refine List.forall_mem_cons.mpr ⟨?_, h.words_lt⟩
    unfold smallFlag
    omega
  | chunked cs =>
    have hlaid : Laid cs := h
    refine List.forall_mem_cons.mpr ⟨hlaid.length_lt.trans (by decide), fun w hw => ?_⟩
    obtain ⟨c, hc, hw⟩ := List.mem_flatMap.mp hw
    have hok := hlaid.1 c hc
    rcases List.mem_cons.mp hw with rfl | hw
    · exact hok.start_lt_stop.trans hok.stop_lt
    · rcases List.mem_cons.mp hw with rfl | hw
      · exact hok.desc_lt
      · exact hok.vecs_lt w hw

/-- The bytes of a map are eight for each word. -/
theorem length_bytes (m : SparseMap) : m.bytes.length = 8 * (mapWords m).length := by
  rw [SparseMap.bytes, List.length_flatMap, Nat.mul_comm]
  simp

/-- A map is read from its bytes, whatever follows them. -/
theorem openCopy_bytes (h : m.Ok) (rest : List UInt8) (slack : ℕ) :
    openCopy (m.bytes ++ rest) slack = some m := by
  have hlen := length_bytes m
  have hne : m.bytes ++ rest ≠ [] := by
    have hpos : 0 < (mapWords m).length := by cases m <;> exact Nat.succ_pos _
    apply List.ne_nil_of_length_pos
    rw [List.length_append]
    omega
  rw [openCopy, if_neg hne, copyBuffer, List.append_assoc, SparseMap.bytes,
    wordsOf_flatMap_word (mapWords_lt h)]
  apply openBuffer_mapWords h
  rw [List.length_append, ← hlen, SparseMap.bytes]
  exact Nat.le_add_right _ _

/-- A map that is wrapped is read from its bytes. -/
theorem openWrapped_bytes (h : m.Ok) : openWrapped m.bytes = m := by
  have hlen := length_bytes m
  have hnil : wordsOf [] = [] := rfl
  have hwords := wordsOf_flatMap_word (mapWords_lt h) []
  rw [List.append_nil, hnil] at hwords
  rw [openWrapped, hlen, SparseMap.bytes, hwords, openBuffer_mapWords h [] le_rfl, Option.getD_some]

/-- A map is read from its bytes, copied with whatever follows them or wrapped. -/
theorem open_bytes (h : m.Ok) :
    (∀ rest slack, openCopy (m.bytes ++ rest) slack = some m) ∧ openWrapped m.bytes = m :=
  ⟨openCopy_bytes h, openWrapped_bytes h⟩

/-- A small map and a map of two chunks go through their bytes. -/
theorem open_bytes_twoChunks :
    ((∀ rest slack, openCopy (smallMap.bytes ++ rest) slack = some smallMap) ∧
        openWrapped smallMap.bytes = smallMap) ∧
      (∀ rest slack, openCopy (twoChunks.bytes ++ rest) slack = some twoChunks) ∧
        openWrapped twoChunks.bytes = twoChunks :=
  ⟨open_bytes ok_smallMap, open_bytes ok_twoChunks⟩

/-! ## What is accepted -/

/-- A chunk that `sm_validate` accepts. -/
structure Chunk.Valid (c : Chunk) : Prop where
  aligned : 2048 ∣ c.start
  stop_le : c.stop ≤ 2 ^ 64
  rle : c.isRle → rleLength c.desc ≤ c.capacity
  sparse : ¬c.isRle → ∀ i < 32, 2 ≤ flagsAt c.desc i → (i + 1) * 64 ≤ c.capacity
  length : c.vecs.length = storedWords c.desc

/-- A chunk starts after the one before and after its end, unless that is the end of all numbers. -/
def Follows (c d : Chunk) : Prop := c.start < d.start ∧ (c.stop ≤ d.start ∨ c.stop = 2 ^ 64)

/-- A map that `sm_validate` accepts. -/
def SparseMap.Valid : SparseMap → Prop
  | .small ws => ws.length ≤ smallMaxWords ∧ ∀ w ∈ ws.getLast?, w ≠ 0
  | .chunked cs => (∀ c ∈ cs, c.Valid) ∧ cs.IsChain Follows

/-- A slot with bits lies inside the chunk. -/
theorem SlotsFit.le (h : SlotsFit c) (hi : i < 32) (hflag : 2 ≤ flagsAt c.desc i) :
    (i + 1) * 64 ≤ c.capacity := by
  have hbit : (c.desc &&& 0xAAAAAAAAAAAAAAAA).testBit (2 * i + 1) = true := by
    rw [Nat.testBit_and, two_le_flagsAt_iff.mp hflag, testBit_mask i hi, Bool.and_self]
  rcases h with hzero | hfit
  · rw [hzero, Nat.zero_testBit] at hbit
    cases hbit
  · have hne : c.desc &&& 0xAAAAAAAAAAAAAAAA ≠ 0 := by
      intro hzero
      rw [hzero, Nat.zero_testBit] at hbit
      cases hbit
    have hle : 2 * i + 1 ≤ Nat.log2 (c.desc &&& 0xAAAAAAAAAAAAAAAA) :=
      (Nat.le_log2 hne).mpr (Nat.ge_two_pow_of_testBit hbit)
    omega

/-- A chunk's room stays below 2 ^ 31. -/
theorem capacity_lt (c : Chunk) : c.capacity < 2 ^ 31 := by
  unfold Chunk.capacity
  split_ifs
  · exact Nat.mod_lt _ (by decide)
  · omega

/-- A buffer that the loop of `sm_validate` accepts is the words of valid chunks, and of nothing
else. -/
theorem exists_of_validateWalk (hp : ∀ w ∈ p, w < 2 ^ 64) (h : validateWalk count prev p = true) :
    ∃ cs, cs.length = count ∧ p = chunkStream cs ∧ (∀ c ∈ cs, c.Valid) ∧ cs.IsChain Follows ∧
      ∀ q ∈ prev, ∀ c ∈ cs.head?, q.1 < c.start ∧ (q.2 ≤ c.start ∨ q.2 = 0) := by
  induction count generalizing prev p with
  | zero =>
    rw [validateWalk, List.isEmpty_iff] at h
    exact ⟨[], rfl, h, fun c hc => absurd hc List.not_mem_nil, List.IsChain.nil,
      fun q _ c hc => by cases hc⟩
  | succ count ih =>
    match p, hp, h with
    | [], _, h => cases h
    | [_], _, h => cases h
    | start :: desc :: rest, hp, h =>
      rw [validateWalk] at h
      split_ifs at h with hbefore haligned hlen hrle hslots hend hoverlap
      obtain ⟨cs, hcount, hstream, hvalid, hchain, hfirst⟩ :=
        ih (fun w hw => hp w (by simp [List.mem_of_mem_drop hw])) h
      generalize hc : Chunk.mk start desc (rest.take (storedWords desc)) = c at hrle hslots hend hfirst
      have hstart : c.start = start := by rw [← hc]
      have hdesc : c.desc = desc := by rw [← hc]
      have hvecs : c.vecs.length = storedWords c.desc := by
        rw [hdesc, ← hc, List.length_take]
        omega
      have hlt : start < 2 ^ 64 := hp start List.mem_cons_self
      have hcap := capacity_lt c
      have hsum : c.stop = start + c.capacity := by rw [Chunk.stop, hstart]
      have hstop : c.stop ≤ 2 ^ 64 := by
        rw [hsum]
        omega
      have hvalid' : c.Valid := by
        refine ⟨by rw [hstart]; omega, hstop, fun h' => ?_, fun h' => ?_, hvecs⟩
        · rw [hdesc]
          exact Nat.le_of_not_lt fun hlt' => hrle ⟨h', hlt'⟩
        · exact fun i hi hflag => (not_not.mp fun hnot => hslots ⟨h', hnot⟩ : SlotsFit c).le hi hflag
      refine ⟨c :: cs, by rw [List.length_cons, hcount], ?_, ?_, ?_, fun q hq d hd => ?_⟩
      · rw [← hc]
        unfold chunkStream chunkWords at hstream ⊢
        rw [List.flatMap_cons, ← hstream]
        simp
      · exact fun d hd => (List.mem_cons.mp hd).elim (fun heq => heq ▸ hvalid') (hvalid d)
      · refine List.isChain_cons.mpr ⟨fun d hd => ?_, hchain⟩
        obtain ⟨hafter, hgap⟩ := hfirst _ rfl d hd
        refine ⟨by rw [hstart]; exact hafter, ?_⟩
        rw [hsum]
        dsimp only at hgap
        omega
      · cases hd
        rw [hstart]
        rw [Option.any_eq_true] at hbefore hoverlap
        have hafter : ¬start ≤ q.1 := fun hle => hbefore ⟨q, hq, decide_eq_true hle⟩
        have hgap : ¬(q.2 ≠ 0 ∧ start < q.2) := fun hle => hoverlap ⟨q, hq, by simpa using hle⟩
        omega

/-- The chunks that the walk has read are at the start of the buffer. -/
theorem walkChunks_prefix (count : ℕ) (p : List ℕ) :
    ∃ rest, p = chunkStream (walkChunks count p) ++ rest ∧
    ∀ c ∈ walkChunks count p, c.vecs.length = storedWords c.desc := by
  have hnone : ∃ rest, p = chunkStream [] ++ rest ∧
      ∀ c ∈ ([] : List Chunk), c.vecs.length = storedWords c.desc :=
    ⟨p, rfl, fun c hc => absurd hc List.not_mem_nil⟩
  induction count generalizing p with
  | zero => exact hnone
  | succ count ih =>
    match p, hnone with
    | [], hnone => exact hnone
    | [_], hnone => exact hnone
    | start :: desc :: words, hnone =>
      rw [walkChunks]
      split_ifs with hlen
      · exact hnone
      · obtain ⟨rest, hrest, hall⟩ := ih (words.drop (storedWords desc))
          ⟨_, rfl, fun c hc => absurd hc List.not_mem_nil⟩
        refine ⟨rest, ?_, fun c hc => ?_⟩
        · unfold chunkStream chunkWords at hrest ⊢
          rw [List.flatMap_cons, List.append_assoc, ← hrest]
          simp
        · rcases List.mem_cons.mp hc with rfl | hc
          · dsimp only
            rw [List.length_take]
            omega
          · exact hall c hc

/-- What is accepted is valid, and its words after the header are those of the buffer. -/
theorem valid_of_openBuffer {n : ℕ} (hbuf : ∀ w ∈ buf, w < 2 ^ 64) (hlen : n ≤ 8 * buf.length)
    (h : openBuffer buf n = some m) : m.Valid ∧ (mapWords m).tail <+: buf.tail := by
  cases buf with
  | nil =>
    cases h
    exact ⟨⟨fun c hc => absurd hc List.not_mem_nil, List.IsChain.nil⟩, List.nil_prefix⟩
  | cons header body =>
    have hwords : ∀ w ∈ body, w < 2 ^ 64 := fun w hw => hbuf w (List.mem_cons_of_mem _ hw)
    rw [List.length_cons] at hlen
    rw [openBuffer_cons] at h
    rw [List.tail_cons]
    split_ifs at h with hflag hbad hbad
    · cases h
      push Not at hbad
      obtain ⟨hroom, hvalid⟩ := hbad
      rw [Bool.ne_false_iff] at hvalid
      unfold validate at hvalid
      dsimp only at hvalid
      rw [if_neg (by omega), if_pos hflag] at hvalid
      simp only [Bool.and_eq_true, Bool.or_eq_true, decide_eq_true_eq] at hvalid
      obtain ⟨⟨hle, -⟩, hlast⟩ := hvalid
      have hlen' : (body.take (header % 2 ^ 32)).length = header % 2 ^ 32 := by
        rw [List.length_take]
        omega
      refine ⟨⟨hlen'.trans_le hle, fun w hw => ?_⟩, List.take_prefix _ _⟩
      obtain ⟨hne, rfl⟩ := (getLast?_eq_getD w).mp hw
      rw [hlen']
      have hpos := List.length_pos_iff.mpr hne
      rw [hlen'] at hpos
      have hget : (body.take (header % 2 ^ 32)).getD (header % 2 ^ 32 - 1) 0 =
          body.getD (header % 2 ^ 32 - 1) 0 := by
        rw [List.getD_eq_getElem?_getD, List.getElem?_take_of_lt (by omega),
          ← List.getD_eq_getElem?_getD]
      rw [hget]
      exact hlast.resolve_left (by omega)
    · cases h
      push Not at hbad
      obtain ⟨hcount, hvalid⟩ := hbad
      obtain ⟨rest, hrest, hall⟩ := walkChunks_prefix header body
      generalize walkChunks header body = cs at hcount hvalid hrest hall ⊢
      refine ⟨?_, rest, hrest.symm⟩
      rw [Bool.ne_false_iff] at hvalid
      unfold validate at hvalid
      dsimp only at hvalid
      rw [if_neg (by omega), if_neg hflag] at hvalid
      by_cases hzero : header = 0
      · rw [hzero, List.length_eq_zero_iff] at hcount
        rw [hcount]
        exact ⟨fun c hc => absurd hc List.not_mem_nil, List.IsChain.nil⟩
      · rw [if_neg hzero, Nat.add_sub_cancel_left, hrest, List.take_left] at hvalid
        obtain ⟨ds, hlen, hstream, hvalid', hchain, -⟩ := exists_of_validateWalk
          (fun w hw => hwords w (hrest ▸ List.mem_append_left _ hw)) hvalid
        have heq : cs = ds := by
          have hcs := walkChunks_stream hall rest
          have hds := walkChunks_stream (fun c hc => (hvalid' c hc).length) rest
          rw [← hcs, ← hds, hcount, hlen, hstream]
        rw [heq]
        exact ⟨hvalid', hchain⟩

/-- A prefix of words is a prefix of bytes. -/
theorem flatMap_word_prefix {vs : List ℕ} (h : vs <+: ws) : vs.flatMap word <+: ws.flatMap word := by
  obtain ⟨rest, rfl⟩ := h
  rw [List.flatMap_append]
  exact List.prefix_append _ _

/-- What `sm_open_copy` accepts is valid, and its bytes after the header are those of the buffer. -/
theorem valid_of_openCopy (h : openCopy data slack = some m) :
    m.Valid ∧ m.bytes.drop 8 <+: (copyBuffer data slack).drop 8 := by
  have hempty : (SparseMap.chunked []).Valid :=
    ⟨fun c hc => absurd hc List.not_mem_nil, List.IsChain.nil⟩
  unfold openCopy at h
  split_ifs at h with hnil
  · cases h
    exact ⟨hempty, List.nil_prefix⟩
  · have hlen : (copyBuffer data slack).length = (max (data.length + slack) 8 + 7) / 8 * 8 := by
      rw [copyBuffer, List.length_append, List.length_replicate]
      omega
    have hwords := @flatMap_word_wordsOf (copyBuffer data slack) (hlen ▸ Nat.dvd_mul_left 8 _)
    have hcount : (copyBuffer data slack).length = 8 * (wordsOf (copyBuffer data slack)).length := by
      conv_lhs => rw [← hwords]
      rw [List.length_flatMap, Nat.mul_comm]
      simp
    obtain ⟨hvalid, hprefix⟩ := valid_of_openBuffer wordsOf_lt (by omega) h
    refine ⟨hvalid, ?_⟩
    have hbytes := flatMap_word_prefix hprefix
    have htail : ∀ ws : List ℕ, ws.tail.flatMap word = (ws.flatMap word).drop 8 := fun ws => by
      cases ws with
      | nil => rfl
      | cons w ws => rw [List.tail_cons, List.flatMap_cons, List.drop_left' (length_word w)]
    rw [htail, htail, hwords] at hbytes
    exact hbytes

/-- A map with a run is opened and found valid. -/
theorem valid_of_openCopy_runMap : (SparseMap.chunked runMap).Valid ∧
    (SparseMap.chunked runMap).bytes.drop 8 <+:
    (copyBuffer (SparseMap.chunked runMap).bytes 64).drop 8 :=
  valid_of_openCopy rfl

end

end PgTre.Sparsemap
