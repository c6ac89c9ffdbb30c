import PgTre.Util.PatternInput

/-!
# Stored values of `tre_pattern`

A value is a packed structure behind a length word. In a table it may have a header of one byte, be
compressed, or lie in another table. The functions of `src/util/type_pattern.c` expand an argument
before they read the fields at their offsets, and two functions of `src/module.c` do not.
-/

namespace PgTre

open Layout Sparsemap

/-! ## Forms of a value -/

/-- An `int32` in memory. -/
def int32Bytes (v : ℤ) : List UInt8 := wordBytes 4 (v % 2 ^ 32).toNat

/-- The numbers of the structure in their order. -/
def TrePatternValue.fields (pat : TrePatternValue) : List ℤ :=
  [pat.maxCost, pat.costIns, pat.costDel, pat.costSubst, pat.flags, pat.pattern.length]

/-- The structure behind its length word. -/
def TrePatternValue.payload (pat : TrePatternValue) : List UInt8 :=
  pat.fields.flatMap int32Bytes ++ pat.pattern

/-- A value in one of the forms in which it is passed to a function, with the payload that expanding
it yields. A header of one byte counts itself in 7 bits, compression has to save bytes, and a value out
of line leaves a pointer of fixed size. -/
inductive PatternDatum
  | fourByte (payload : List UInt8)
  | oneByte (payload : List UInt8) (h : 1 + payload.length < 128)
  | compressed (payload body : List UInt8) (info : ℕ) (h : 8 + body.length + 2 < payload.length)
  | outOfLine (payload pointer : List UInt8) (h : pointer.length = 16)

def PatternDatum.payload : PatternDatum → List UInt8
  | fourByte payload => payload
  | oneByte payload _ => payload
  | compressed payload _ _ _ => payload
  | outOfLine payload _ _ => payload

/-- The bytes that the argument points to. -/
def PatternDatum.bytes : PatternDatum → List UInt8
  | fourByte payload => wordBytes 4 (4 * (4 + payload.length)) ++ payload
  | oneByte payload _ => UInt8.ofNat (2 * (1 + payload.length) + 1) :: payload
  | compressed _ body info _ => wordBytes 4 (4 * (8 + body.length) + 2) ++ (wordBytes 4 info ++ body)
  | outOfLine _ pointer _ => 1 :: 18 :: pointer

/-- `PG_DETOAST_DATUM`. -/
def PatternDatum.detoast (d : PatternDatum) : PatternDatum := fourByte d.payload

/-- The `int32` at an offset. -/
def int32At (bytes : List UInt8) (off : ℕ) : ℤ := toInt32 (numberAt bytes off 4)

/-- The fields and the pattern at their offsets. A read behind the end of the bytes is not defined. -/
def readTrePattern (bytes : List UInt8) : Option TrePatternValue :=
  if bytes.length < 28 ∨ int32At bytes 24 < 0 ∨ bytes.length < 28 + int32At bytes 24 then none
  else some ⟨int32At bytes 4, int32At bytes 8, int32At bytes 12, int32At bytes 16, int32At bytes 20,
    bytesAt bytes 28 (int32At bytes 24).toNat⟩

/-! ## Readers -/

/-- What a function takes from a value: the pattern, the budget and the costs. -/
structure PatternUse where
  pattern : List UInt8
  numbers : PatternNumbers
  deriving DecidableEq

def TrePatternValue.use (pat : TrePatternValue) : PatternUse := ⟨pat.pattern, pat.numbers⟩

/-- `PG_GETARG_TRE_PATTERN`. -/
def getargTrePattern (d : PatternDatum) : Option TrePatternValue := readTrePattern d.detoast.bytes

/-- The arguments of `tre_match_scalar` for `pg_tre_amatch_with_costs`. -/
def treMatchScalar (d : PatternDatum) : Option PatternUse :=
  (getargTrePattern d).map fun pat =>
    ⟨pat.pattern, ⟨pat.maxCost, pat.costIns, pat.costDel, pat.costSubst⟩⟩

/-- What `tre_pattern_out` formats. -/
def trePatternOutArg (d : PatternDatum) : Option PatternUse :=
  (getargTrePattern d).map TrePatternValue.use

/-- What `tre_pattern_send` writes, besides the flags. -/
def trePatternSend (d : PatternDatum) : Option PatternUse :=
  (getargTrePattern d).map TrePatternValue.use

/-- The arguments of `pg_tre_distance_pattern` for the matcher. It takes the pointer as it is. -/
def pgTreDistancePattern (d : PatternDatum) : Option PatternUse :=
  (readTrePattern d.bytes).map fun pat => ⟨pat.pattern, ⟨pat.maxCost, 1, 1, 1⟩⟩

/-- The arguments of `pg_tre_similarity_pattern` for the matcher, by way of `tre_compute_similarity`. -/
def pgTreSimilarityPattern (d : PatternDatum) : Option PatternUse :=
  (readTrePattern d.bytes).map fun pat => ⟨pat.pattern, ⟨pat.maxCost, 1, 1, 1⟩⟩

/-- The functions that take a value of the type. -/
inductive PatternReader
  | matchScalar
  | out
  | send
  | distance
  | similarity
  deriving DecidableEq

def PatternReader.uses : PatternReader → PatternDatum → Option PatternUse
  | matchScalar => treMatchScalar
  | out => trePatternOutArg
  | send => trePatternSend
  | distance => pgTreDistancePattern
  | similarity => pgTreSimilarityPattern

/-- The readers that expand their argument. -/
def PatternReader.Expands (r : PatternReader) : Prop := r ≠ distance ∧ r ≠ similarity

instance (r : PatternReader) : Decidable r.Expands := inferInstanceAs (Decidable (_ ∧ _))

/-- The length word of a value is four bytes long. -/
def PatternDatum.IsFourByte : PatternDatum → Prop
  | fourByte _ => True
  | _ => False

/-- A value that the type can hold. -/
structure TrePatternValue.Storable (pat : TrePatternValue) : Prop where
  maxCost : IsInt32 pat.maxCost
  costIns : IsInt32 pat.costIns
  costDel : IsInt32 pat.costDel
  costSubst : IsInt32 pat.costSubst
  flags : IsInt32 pat.flags
  length : pat.pattern.length < 2 ^ 30

/-! ## The structure in memory -/

section

variable {pat : TrePatternValue} {d : PatternDatum}

/-- An `int32` takes four bytes. -/
@[simp] theorem length_int32Bytes (v : ℤ) : (int32Bytes v).length = 4 := length_wordBytes 4 _

/-- The cast of the unsigned word gives the number back. -/
theorem toInt32_emod {v : ℤ} (h : IsInt32 v) : toInt32 (v % 2 ^ 32) = v := by
  have hsame : Int.bmod (v % ((2 ^ 32 : ℕ) : ℤ)) (2 ^ 32) = Int.bmod v (2 ^ 32) :=
    Int.emod_bmod v (2 ^ 32)
  exact hsame.trans (toInt32_of_isInt32 h)

/-- A field is read as it was written. -/
theorem int32At_fields {header ys : List UInt8} {vs : List ℤ} {i : ℕ} (hheader : header.length = 4)
    (hi : i < vs.length) (h : IsInt32 vs[i]) :
    int32At (header ++ (vs.flatMap int32Bytes ++ ys)) (4 + 4 * i) = vs[i] := by
  have hlt : (vs[i] % 2 ^ 32).toNat < 256 ^ 4 := by omega
  have hcast : (((vs[i] % 2 ^ 32).toNat : ℕ) : ℤ) = vs[i] % 2 ^ 32 := by omega
  have hread := bytesAt_flatMap_records length_int32Bytes hi ys
  rw [int32At, numberAt, bytesAt_append_right (show 4 + 4 * i = header.length + 4 * i by omega), hread,
    int32Bytes, ofBytes_wordBytes, Nat.mod_eq_of_lt hlt, hcast, toInt32_emod h]

/-- The payload has the header's 24 bytes and the pattern. -/
theorem length_payload (pat : TrePatternValue) : pat.payload.length = 24 + pat.pattern.length := by
  rw [TrePatternValue.payload, List.length_append, length_flatMap_records length_int32Bytes]
  rfl

/-- A value behind a length word of four bytes is read as it was stored. -/
theorem readTrePattern_fourByte (h : pat.Storable) :
    readTrePattern (PatternDatum.fourByte pat.payload).bytes = some pat := by
  obtain ⟨hcost, hins, hdel, hsubst, hflags, hlen⟩ := h
  have hlength : IsInt32 (pat.pattern.length : ℤ) := ⟨by omega, by omega⟩
  rw [PatternDatum.bytes]
  set header := wordBytes 4 (4 * (4 + pat.payload.length))
  have hsize : header.length = 4 := length_wordBytes 4 _
  have htotal : (header ++ pat.payload).length = 28 + pat.pattern.length := by
    rw [List.length_append, length_payload]
    omega
  have hpattern : bytesAt (header ++ pat.payload) 28 pat.pattern.length = pat.pattern := by
    rw [TrePatternValue.payload, ← List.append_assoc, @bytesAt_append_right _ _ 28 _ 0]
    · exact bytesAt_self rfl
    · rw [List.length_append, hsize, length_flatMap_records length_int32Bytes]
      rfl
  have hcount : pat.fields.length = 6 := rfl
  have h4 : int32At (header ++ pat.payload) 4 = pat.maxCost :=
    @int32At_fields header pat.pattern pat.fields 0 hsize (by omega) hcost
  have h8 : int32At (header ++ pat.payload) 8 = pat.costIns :=
    @int32At_fields header pat.pattern pat.fields 1 hsize (by omega) hins
  have h12 : int32At (header ++ pat.payload) 12 = pat.costDel :=
    @int32At_fields header pat.pattern pat.fields 2 hsize (by omega) hdel
  have h16 : int32At (header ++ pat.payload) 16 = pat.costSubst :=
    @int32At_fields header pat.pattern pat.fields 3 hsize (by omega) hsubst
  have h20 : int32At (header ++ pat.payload) 20 = pat.flags :=
    @int32At_fields header pat.pattern pat.fields 4 hsize (by omega) hflags
  have h24 : int32At (header ++ pat.payload) 24 = pat.pattern.length :=
    @int32At_fields header pat.pattern pat.fields 5 hsize (by omega) hlength
  have hwithin : ¬((header ++ pat.payload).length < 28 ∨ (pat.pattern.length : ℤ) < 0 ∨
      ((header ++ pat.payload).length : ℤ) < 28 + pat.pattern.length) := by
    rw [htotal]
    clear * -
    omega
  rw [readTrePattern, h24, if_neg hwithin, h4, h8, h12, h16, h20, Int.toNat_natCast, hpattern]

/-- A reader sees no more bytes of a pattern than there are. -/
theorem length_of_readTrePattern {bytes : List UInt8} (h : readTrePattern bytes = some pat) :
    28 + pat.pattern.length ≤ bytes.length := by
  rw [readTrePattern] at h
  split_ifs at h with hend
  obtain rfl := Option.some.inj h
  dsimp only
  rw [length_bytesAt (by omega)]
  omega

/-- In every other form a value takes fewer bytes. -/
theorem length_bytes_lt (hd : ¬d.IsFourByte) (hpayload : 24 ≤ d.payload.length) :
    d.bytes.length < 4 + d.payload.length := by
  cases d with
  | fourByte payload => exact absurd trivial hd
  | oneByte payload h =>
    rw [PatternDatum.bytes, List.length_cons, PatternDatum.payload]
    omega
  | compressed payload body info h =>
    rw [PatternDatum.bytes, List.length_append, List.length_append, length_wordBytes, length_wordBytes,
      PatternDatum.payload]
    omega
  | outOfLine payload pointer h =>
    rw [PatternDatum.payload] at hpayload
    rw [PatternDatum.bytes, List.length_cons, List.length_cons, h, PatternDatum.payload]
    omega

/-- The fields at their offsets are the stored ones only behind a length word of four bytes: in every
other form the value ends before the pattern would. -/
theorem readTrePattern_bytes_iff {seen : TrePatternValue} (h : pat.Storable)
    (hd : d.payload = pat.payload) (hseen : readTrePattern d.bytes = some seen) :
    seen.pattern = pat.pattern ↔ d.IsFourByte := by
  constructor
  · intro hsame
    by_contra hform
    have hread := length_of_readTrePattern hseen
    have hpayload := length_payload pat
    rw [← hd] at hpayload
    have := length_bytes_lt hform (by omega)
    rw [hsame] at hread
    omega
  · intro hform
    cases d with
    | fourByte payload =>
      obtain rfl : payload = pat.payload := hd
      rw [readTrePattern_fourByte h] at hseen
      rw [← Option.some.inj hseen]
    | _ => exact absurd hform id

/-- A storable value is read back from its payload. -/
theorem getargTrePattern_eq (h : pat.Storable) (hd : d.payload = pat.payload) :
    getargTrePattern d = some pat := by
  rw [getargTrePattern, PatternDatum.detoast, hd]
  exact readTrePattern_fourByte h

/-- The functions on the pointer as it is use what was stored exactly for a length word of four bytes
and unit costs. -/
theorem unexpanded_use_iff (h : pat.Storable) (hd : d.payload = pat.payload) :
    ((readTrePattern d.bytes).map fun seen => (⟨seen.pattern, ⟨seen.maxCost, 1, 1, 1⟩⟩ : PatternUse)) =
        some pat.use ↔
      d.IsFourByte ∧ pat.costIns = 1 ∧ pat.costDel = 1 ∧ pat.costSubst = 1 := by
  constructor
  · intro huse
    obtain ⟨seen, hseen, hsame⟩ := Option.map_eq_some_iff.mp huse
    have hform := (readTrePattern_bytes_iff h hd hseen).mp (congrArg PatternUse.pattern hsame)
    have hnumbers := congrArg PatternUse.numbers hsame
    exact ⟨hform, (congrArg PatternNumbers.costIns hnumbers).symm,
      (congrArg PatternNumbers.costDel hnumbers).symm,
        (congrArg PatternNumbers.costSubst hnumbers).symm⟩
  · rintro ⟨hform, hins, hdel, hsubst⟩
    cases d with
    | fourByte payload =>
      obtain rfl : payload = pat.payload := hd
      rw [readTrePattern_fourByte h, Option.map_some, TrePatternValue.use,
        TrePatternValue.numbers, hins, hdel, hsubst]
    | _ => exact absurd hform id

/-- A reader uses the pattern, the budget and the costs that were stored exactly when it expands its
argument, or gets it behind a length word of four bytes with unit costs. -/
theorem PatternReader.uses_stored_iff (r : PatternReader) (h : pat.Storable)
    (hd : d.payload = pat.payload) :
    r.uses d = some pat.use ↔
      r.Expands ∨ d.IsFourByte ∧ pat.costIns = 1 ∧ pat.costDel = 1 ∧ pat.costSubst = 1 := by
  have hexpanded := getargTrePattern_eq h hd
  have hunexpanded := unexpanded_use_iff h hd
  cases r with
  | matchScalar =>
    refine iff_of_true ?_ (Or.inl (by decide))
    rw [PatternReader.uses, treMatchScalar, hexpanded]
    rfl
  | out =>
    refine iff_of_true ?_ (Or.inl (by decide))
    rw [PatternReader.uses, trePatternOutArg, hexpanded]
    rfl
  | send =>
    refine iff_of_true ?_ (Or.inl (by decide))
    rw [PatternReader.uses, trePatternSend, hexpanded]
    rfl
  | distance => exact hunexpanded.trans (or_iff_right (by decide)).symm
  | similarity => exact hunexpanded.trans (or_iff_right (by decide)).symm

/-- A small value as a constructor makes it. -/
theorem PatternReader.uses_stored_distance :
    PatternReader.uses .distance (.fourByte (TrePatternValue.payload ⟨1, 1, 1, 1, 0, [97]⟩)) =
      some ⟨[97], ⟨1, 1, 1, 1⟩⟩ :=
  (@PatternReader.uses_stored_iff ⟨1, 1, 1, 1, 0, [97]⟩
    (.fourByte (TrePatternValue.payload ⟨1, 1, 1, 1, 0, [97]⟩)) .distance
    ⟨by decide, by decide, by decide, by decide, by decide, by decide⟩ rfl).mpr
    (Or.inr ⟨trivial, rfl, rfl, rfl⟩)

/-- The same value read from a table has a header of one byte and ends before the structure does.
The costs of a value are not used in any form. -/
theorem PatternReader.uses_ne_stored :
    PatternReader.uses .distance (.oneByte (TrePatternValue.payload ⟨1, 1, 1, 1, 0, [97]⟩)
      (by decide)) ≠
        some (TrePatternValue.use ⟨1, 1, 1, 1, 0, [97]⟩) ∧
    PatternReader.uses .distance (.fourByte (TrePatternValue.payload ⟨2, 1, 2, 1, 0, [97]⟩)) ≠
      some (TrePatternValue.use ⟨2, 1, 2, 1, 0, [97]⟩) := by
  constructor
  · decide
  · decide

end

end PgTre
