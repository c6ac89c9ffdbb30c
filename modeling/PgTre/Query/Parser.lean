import PgTre.Query.Tokens

/-!
# The parser of patterns

`src/query/tre_grammar.y` is a grammar for a parser generator, and `src/query/parser.c` feeds the
generated parser with tokens. Here is a parser for the grammar that shifts one token at a time, and
the loop that feeds it. The loop ends, since every token consumes input.
-/

namespace PgTre

/-! ## Character classes -/

/-- The inner loop of the sort: the range in front is exchanged with each later one that begins
before it. -/
def exchangeFrom (r : ℕ × ℕ) :
    List (ℕ × ℕ) → (ℕ × ℕ) × List (ℕ × ℕ)
  | [] => (r, [])
  | s :: rs =>
      if s.1 < r.1 then ((exchangeFrom s rs).1, r :: (exchangeFrom s rs).2)
      else ((exchangeFrom r rs).1, s :: (exchangeFrom r rs).2)

/-- The sort, for as many places as given. -/
def exchangeSort : ℕ → List (ℕ × ℕ) → List (ℕ × ℕ)
  | 0, rs => rs
  | _ + 1, [] => []
  | n + 1, r :: rs => (exchangeFrom r rs).1 :: exchangeSort n (exchangeFrom r rs).2

/-- The merge, with the last range written. Ranges that touch are merged as well. -/
def mergeRanges (last : ℕ × ℕ) :
    List (ℕ × ℕ) → List (ℕ × ℕ)
  | [] => [last]
  | r :: rs =>
      if r.1 ≤ last.2 + 1 then
        mergeRanges (last.1, if last.2 < r.2 then r.2 else last.2) rs
      else last :: mergeRanges r rs

/-- The ranges `normalize_class` leaves. -/
def normalizeRanges (rs : List (ℕ × ℕ)) : List (ℕ × ℕ) :=
  match exchangeSort rs.length rs with
  | [] => []
  | r :: rs => mergeRanges r rs

/-- A pass permutes the ranges. -/
theorem exchangeFrom_perm (r : ℕ × ℕ) (rs : List (ℕ × ℕ)) :
    ((exchangeFrom r rs).1 :: (exchangeFrom r rs).2).Perm (r :: rs) := by
  induction rs generalizing r with
  | nil => exact List.Perm.refl _
  | cons s rs ih =>
    unfold exchangeFrom
    split
    · have hswap := (List.Perm.swap r (exchangeFrom s rs).1 (exchangeFrom s rs).2)
      exact hswap.symm.symm.trans ((ih s).cons r)
    · have hswap := (List.Perm.swap s (exchangeFrom r rs).1 (exchangeFrom r rs).2)
      exact (hswap.trans ((ih r).cons s)).trans (List.Perm.swap r s rs)

/-- A pass brings a range to the front that begins first. -/
theorem exchangeFrom_le (r : ℕ × ℕ) (rs : List (ℕ × ℕ)) :
    ∀ s ∈ r :: rs, (exchangeFrom r rs).1.1 ≤ s.1 := by
  induction rs generalizing r with
  | nil => simp [exchangeFrom]
  | cons s rs ih =>
    intro x hx
    unfold exchangeFrom
    split
    · have hs := ih s s (by simp)
      rcases List.mem_cons.mp hx with rfl | hx
      · simp only
        omega
      · exact ih s x hx
    · have hr := ih r r (by simp)
      rcases List.mem_cons.mp hx with rfl | hx
      · exact hr
      · rcases List.mem_cons.mp hx with rfl | hx
        · simp only
          omega
        · exact ih r x (List.mem_cons_of_mem _ hx)

/-- The sort permutes the ranges. -/
theorem exchangeSort_perm (n : ℕ) (rs : List (ℕ × ℕ)) :
    (exchangeSort n rs).Perm rs := by
  induction n generalizing rs with
  | zero => exact List.Perm.refl _
  | succ n ih =>
    cases rs with
    | nil => exact List.Perm.refl _
    | cons r rs => exact ((ih _).cons _).trans (exchangeFrom_perm r rs)

/-- The sort leaves the ranges in order. -/
theorem exchangeSort_sorted (n : ℕ) (rs : List (ℕ × ℕ)) (hn : rs.length ≤ n) :
    (exchangeSort n rs).Pairwise (fun r s => r.1 ≤ s.1) := by
  induction n generalizing rs with
  | zero =>
    have hnil : rs = [] := List.length_eq_zero_iff.mp (by omega)
    simp [hnil, exchangeSort]
  | succ n ih =>
    cases rs with
    | nil => simp [exchangeSort]
    | cons r rs =>
      have hlength := (exchangeFrom_perm r rs).length_eq
      simp only [List.length_cons] at hlength hn
      rw [exchangeSort, List.pairwise_cons]
      refine ⟨?_, ih _ (by omega)⟩
      intro s hs
      apply exchangeFrom_le r rs
      have hmem := (exchangeSort_perm n _).mem_iff.mp hs
      exact (exchangeFrom_perm r rs).mem_iff.mp (List.mem_cons_of_mem _ hmem)

/-- The merge of sorted ranges leaves no range empty. -/
theorem mergeRanges_valid {last : ℕ × ℕ} {rs : List (ℕ × ℕ)}
    (hlast : last.1 ≤ last.2) (hvalid : ∀ r ∈ rs, r.1 ≤ r.2) :
    ∀ r ∈ mergeRanges last rs, r.1 ≤ r.2 := by
  induction rs generalizing last with
  | nil => simpa [mergeRanges] using hlast
  | cons r rs ih =>
    have hr := hvalid r (by simp)
    have hrs : ∀ s ∈ rs, s.1 ≤ s.2 := fun s hs => hvalid s (List.mem_cons_of_mem _ hs)
    unfold mergeRanges
    split
    · apply ih _ hrs
      simp only
      split <;> omega
    · intro s hs
      rcases List.mem_cons.mp hs with rfl | hs
      · exact hlast
      · exact ih hr hrs s hs

/-- Whatever the merge writes begins where the last range begins, or later. -/
theorem mergeRanges_le {last : ℕ × ℕ} {rs : List (ℕ × ℕ)}
    (hsorted : (last :: rs).Pairwise (fun r s => r.1 ≤ s.1)) :
    ∀ r ∈ mergeRanges last rs, last.1 ≤ r.1 := by
  induction rs generalizing last with
  | nil => simp [mergeRanges]
  | cons r rs ih =>
    obtain ⟨hle, htail⟩ := List.pairwise_cons.mp hsorted
    obtain ⟨-, hrest⟩ := List.pairwise_cons.mp htail
    unfold mergeRanges
    split
    · apply ih
      rw [List.pairwise_cons]
      exact ⟨fun s hs => hle s (List.mem_cons_of_mem _ hs), hrest⟩
    · intro s hs
      rcases List.mem_cons.mp hs with rfl | hs
      · omega
      · have hlast := hle r (by simp)
        have hs := ih htail s hs
        omega

/-- The merge of sorted ranges leaves them apart. -/
theorem mergeRanges_sorted {last : ℕ × ℕ} {rs : List (ℕ × ℕ)}
    (hsorted : (last :: rs).Pairwise (fun r s => r.1 ≤ s.1)) :
    (mergeRanges last rs).Pairwise (fun r s => r.2 < s.1) := by
  induction rs generalizing last with
  | nil => simp [mergeRanges]
  | cons r rs ih =>
    obtain ⟨hle, htail⟩ := List.pairwise_cons.mp hsorted
    obtain ⟨-, hrest⟩ := List.pairwise_cons.mp htail
    unfold mergeRanges
    split
    · apply ih
      rw [List.pairwise_cons]
      exact ⟨fun s hs => hle s (List.mem_cons_of_mem _ hs), hrest⟩
    · rw [List.pairwise_cons]
      refine ⟨?_, ih htail⟩
      intro s hs
      have hs := mergeRanges_le htail s hs
      omega

/-- `normalize_class`. -/
def normalizeClass (rs : List (ℕ × ℕ)) (hvalid : ∀ r ∈ rs, r.1 ≤ r.2) :
    RegexClass where
  ranges := normalizeRanges rs
  valid := by
    have hperm := exchangeSort_perm rs.length rs
    unfold normalizeRanges
    split
    · simp
    · rename_i r rs' heq
      rw [heq] at hperm
      apply mergeRanges_valid
      · exact hvalid r (hperm.mem_iff.mp (by simp))
      · intro s hs
        exact hvalid s (hperm.mem_iff.mp (List.mem_cons_of_mem _ hs))
  sorted := by
    have hsorted := exchangeSort_sorted rs.length rs le_rfl
    unfold normalizeRanges
    split
    · simp
    · rename_i r rs' heq
      rw [heq] at hsorted
      exact mergeRanges_sorted hsorted

/-- `regex_ast_class_range`, on a range that is not empty. -/
def classRange (lo hi : CodePoint) (h : lo ≤ hi) : RegexClass where
  ranges := [(lo, hi)]
  valid := by simpa using h
  sorted := by simp

/-- `regex_ast_class_char`. -/
def classChar (c : CodePoint) : RegexClass := classRange c c le_rfl

/-- `regex_ast_class_union`. -/
def classUnion (a b : RegexClass) : RegexClass :=
  normalizeClass (a.ranges ++ b.ranges) (by
    intro r hr
    rcases List.mem_append.mp hr with hr | hr
    · exact a.valid r hr
    · exact b.valid r hr)

/-- `regex_ast_class`. -/
def regexAstClass (body : RegexClass) (negated : Bool) : RegexAst :=
  .charclass negated (normalizeClass body.ranges body.valid)

/-! ## The parser -/

/-- What is read of a bracket: nothing, the caret, items and then a literal that may begin a range,
the dash behind it, or items that end with a range. -/
inductive ClassPhase where
  | opened
  | caret
  | literal (negated : Bool) (body : Option RegexClass) (c : CodePoint)
  | dash (negated : Bool) (body : Option RegexClass) (c : CodePoint)
  | items (negated : Bool) (body : RegexClass)

/-- What is read of a brace. -/
inductive BracePhase where
  | opened
  | count (m : ℕ)
  | comma (m : ℕ)
  | bounds (m n : ℕ)
  | approx (k : ℕ)

/-- Where the parser stands between two atoms. -/
inductive Inside where
  | pattern
  | bracket (phase : ClassPhase)
  | brace (phase : BracePhase)

/-- What is read of an alternation: the branches before the last bar, the part of the last branch
that is complete, and an atom that a quantifier may follow. -/
structure Frame where
  alts : Option RegexAst
  cat : Option RegexAst
  atom : Option RegexAst

/-- Nothing is read. -/
def Frame.empty : Frame := ⟨none, none, none⟩

/-- The parser's stack. The frames below are those of the groups that are open. -/
structure ParserState where
  stack : List Frame
  frame : Frame
  inside : Inside

/-- The parser before the first token. -/
def ParserState.start : ParserState := ⟨[], .empty, .pattern⟩

/-- `classbody` with one more `classitem`. -/
def addItem (body : Option RegexClass) (item : RegexClass) : RegexClass :=
  match body with
  | none => item
  | some body => classUnion body item

/-- The `concatenation` with one more `quantified`. -/
def addQuantified (cat : Option RegexAst) (a : RegexAst) : RegexAst :=
  match cat with
  | none => a
  | some cat => .concat cat a

/-- The `concatenation` that is read. -/
def Frame.concatenation (f : Frame) : Option RegexAst :=
  match f.atom with
  | none => f.cat
  | some a => some (addQuantified f.cat a)

/-- The `alternation` with one more `concatenation`. -/
def addBranch (alts : Option RegexAst) (c : RegexAst) : RegexAst :=
  match alts with
  | none => c
  | some alts => .alt alts c

/-- The `alternation` that is read. -/
def Frame.alternation (f : Frame) : Option RegexAst :=
  f.concatenation.map (addBranch f.alts)

/-- The atom before is complete. -/
def Frame.closeAtom (f : Frame) : Frame := ⟨f.alts, f.concatenation, none⟩

/-- One more atom. -/
def Frame.addAtom (f : Frame) (a : RegexAst) : Frame := ⟨f.alts, f.concatenation, some a⟩

/-- A quantifier behind the last atom. -/
def Frame.quantify (f : Frame) (q : RegexAst → RegexAst) : Option Frame :=
  f.atom.map (fun a => ⟨f.alts, some (addQuantified f.cat (q a)), none⟩)

/-- The message of `%syntax_error`. -/
def unsupportedSyntax : String := "unsupported syntax"

/-- A state, or a syntax error. -/
def orUnsupported {α : Type} : Option α → Except String α
  | none => .error unsupportedSyntax
  | some a => .ok a

/-- `charclass` from its body and the closing bracket. -/
def charclass (negated : Bool) (body : RegexClass) (isOpaque : Bool) : RegexAst :=
  if isOpaque then .any else regexAstClass body negated

/-- A token inside brackets: the bracket goes on, or is an atom. -/
def ClassPhase.shift : ClassPhase → TreToken → Except String (ClassPhase ⊕ RegexAst)
  | .opened, .caret => .ok (.inl .caret)
  | .opened, .literal c => .ok (.inl (.literal false none c))
  | .caret, .literal c => .ok (.inl (.literal true none c))
  | .literal neg body c, .literal c' =>
      .ok (.inl (.literal neg (some (addItem body (classChar c))) c'))
  | .literal neg body c, .dash => .ok (.inl (.dash neg body c))
  | .literal neg body c, .rbracket isOpaque =>
      .ok (.inr (charclass neg (addItem body (classChar c)) isOpaque))
  | .dash neg body lo, .literal hi =>
      if h : lo ≤ hi then .ok (.inl (.items neg (addItem body (classRange lo hi h))))
      else .error s!"invalid character range [{lo}-{hi}]"
  | .items neg body, .literal c => .ok (.inl (.literal neg (some body) c))
  | .items neg body, .rbracket isOpaque => .ok (.inr (charclass neg body isOpaque))
  | _, _ => .error unsupportedSyntax

/-- A token inside braces: the brace goes on, or is a quantifier. -/
def BracePhase.shift : BracePhase → TreToken → Option (BracePhase ⊕ (RegexAst → RegexAst))
  | .opened, .int m => some (.inl (.count m))
  | .opened, .approx k => some (.inl (.approx k))
  | .count m, .rbrace => some (.inr (fun a => .rep a m (some m)))
  | .count m, .comma => some (.inl (.comma m))
  | .comma m, .rbrace => some (.inr (fun a => .rep a m none))
  | .comma m, .int n => some (.inl (.bounds m n))
  | .bounds m n, .rbrace => some (.inr (fun a => .rep a m (some n)))
  | .approx k, .rbrace => some (.inr (fun a => .approx a k))
  | _, _ => none

/-- The atom a token is by itself. -/
def TreToken.atom : TreToken → Option RegexAst
  | .literal c => some (.literal c)
  | .dot => some .any
  | .anchorStart => some (.anchor .start)
  | .anchorEnd => some (.anchor .finish)
  | _ => none

/-- The quantifier a token is by itself. -/
def TreToken.quantifier : TreToken → Option (RegexAst → RegexAst)
  | .star => some (fun a => .rep a 0 none)
  | .plus => some (fun a => .rep a 1 none)
  | .question => some (fun a => .rep a 0 (some 1))
  | _ => none

/-- A token that is an atom or a quantifier. -/
def ParserState.shiftPlain (ps : ParserState) (t : TreToken) : Option ParserState :=
  match t.atom with
  | some a => some { ps with frame := ps.frame.addAtom a }
  | none =>
      t.quantifier.bind (fun q => (ps.frame.quantify q).map (fun f => { ps with frame := f }))

/-- A token between two atoms. -/
def ParserState.shiftPattern (ps : ParserState) (t : TreToken) : Option ParserState :=
  match t with
  | .pipe => ps.frame.alternation.map (fun a => { ps with frame := ⟨some a, none, none⟩ })
  | .lparen => some { ps with stack := ps.frame.closeAtom :: ps.stack, frame := .empty }
  | .rparen =>
      match ps.stack with
      | [] => none
      | f :: stack =>
          ps.frame.alternation.map
            (fun a => { ps with stack := stack, frame := f.addAtom a })
  | .lbracket => some { ps with frame := ps.frame.closeAtom, inside := .bracket .opened }
  | .lbrace => ps.frame.atom.map (fun _ => { ps with inside := .brace .opened })
  | t => ps.shiftPlain t

/-- `pg_tre_rx_parse`, on a token other than the end. -/
def ParserState.shift (ps : ParserState) (t : TreToken) : Except String ParserState :=
  match ps.inside with
  | .pattern => orUnsupported (ps.shiftPattern t)
  | .bracket phase =>
      match phase.shift t with
      | .error e => .error e
      | .ok (.inl phase) => .ok { ps with inside := .bracket phase }
      | .ok (.inr a) => .ok { ps with frame := ps.frame.addAtom a, inside := .pattern }
  | .brace phase =>
      match phase.shift t with
      | none => .error unsupportedSyntax
      | some (.inl phase) => .ok { ps with inside := .brace phase }
      | some (.inr q) =>
          orUnsupported ((ps.frame.quantify q).map
            (fun f => { ps with frame := f, inside := .pattern }))

/-- `pg_tre_rx_parse`, on the end. -/
def ParserState.finish (ps : ParserState) : Except String RegexAst :=
  match ps.stack, ps.inside with
  | [], .pattern => orUnsupported ps.frame.alternation
  | _, _ => .error unsupportedSyntax

/-- A result that is supported was there. -/
theorem orUnsupported_eq_ok {α : Type} {o : Option α} {a : α} (h : orUnsupported o = .ok a) :
    o = some a := by
  cases o with
  | none => cases h
  | some b => exact congrArg some (Except.ok.inj h)

/-- Only the closing bracket ends a bracket. -/
theorem ClassPhase.shift_inr {phase : ClassPhase} {t : TreToken} {a : RegexAst}
    (h : phase.shift t = .ok (.inr a)) : ∃ isOpaque, t = .rbracket isOpaque := by
  cases phase <;> cases t <;> first | cases h; done | exact ⟨_, rfl⟩ | skip
  simp only [ClassPhase.shift] at h
  split at h <;> cases h

/-- A parse that ends has closed its groups and brackets. -/
theorem ParserState.finish_inside {ps : ParserState} {a : RegexAst} (h : ps.finish = .ok a) :
    ps.stack = [] ∧ ps.inside = .pattern ∧ ps.frame.alternation = some a := by
  obtain ⟨stack, frame, inside⟩ := ps
  unfold ParserState.finish at h
  cases stack with
  | nil =>
    cases inside with
    | pattern => exact ⟨rfl, rfl, orUnsupported_eq_ok h⟩
    | _ => cases h
  | cons f stack => cases h

/-- The loop of `tre_parse_regex`. The result has the flag `force_always_true` beside the root. -/
def parseLoop (enc : Encoding) (reading : BracketReading) :
    ℕ → TokenizerState → ParserState → Except ScanError (RegexAst × Bool)
  | 0, _, _ => .error (.syntaxError none)
  | fuel + 1, ts, ps =>
      match tokenizeNext enc reading ts with
      | .eof =>
          match ps.finish with
          | .error e => .error (.syntaxError (some e))
          | .ok root => .ok (root, ts.forceAlwaysTrue)
      | .error e => .error e
      | .token t ts' =>
          match ps.shift t with
          | .error e => .error (.syntaxError (some e))
          | .ok ps' => parseLoop enc reading fuel ts' ps'

/-- Without a message there is no root either. -/
def ScanError.orEmptyPattern : ScanError → ScanError
  | .syntaxError none => .syntaxError (some "empty pattern")
  | e => e

/-- Reads a pattern with a reading of the backslash inside brackets. A byte makes at most two
tokens. -/
def parseRegex (enc : Encoding) (reading : BracketReading) (pattern : List UInt8) :
    Except ScanError (RegexAst × Bool) :=
  (parseLoop enc reading (2 * pattern.length + 1) (initTokenizer pattern) .start).mapError
    ScanError.orEmptyPattern

/-- `tre_parse_regex`. -/
def treParseRegex (enc : Encoding) (pattern : List UInt8) : Except ScanError (RegexAst × Bool) :=
  parseRegex enc .index pattern

/-- A loop that ends well has ended, or goes on behind a token. -/
theorem parseLoop_eq_ok {enc : Encoding} {reading : BracketReading} {fuel : ℕ}
    {ts : TokenizerState} {ps : ParserState} {r : RegexAst × Bool}
    (h : parseLoop enc reading fuel ts ps = .ok r) :
    (tokenizeNext enc reading ts = .eof ∧ ps.finish = .ok r.1 ∧ ts.forceAlwaysTrue = r.2) ∨
    ∃ n t ts' ps', fuel = n + 1 ∧ tokenizeNext enc reading ts = .token t ts' ∧
      ps.shift t = .ok ps' ∧ parseLoop enc reading n ts' ps' = .ok r := by
  cases fuel with
  | zero => cases h
  | succ n =>
    unfold parseLoop at h
    cases htoken : tokenizeNext enc reading ts with
    | eof =>
      simp only [htoken] at h
      cases hfinish : ps.finish with
      | error e => simp [hfinish] at h
      | ok root =>
        simp only [hfinish, Except.ok.injEq] at h
        exact Or.inl ⟨rfl, by rw [← h], by rw [← h]⟩
    | error e => simp [htoken] at h
    | token t ts' =>
      simp only [htoken] at h
      cases hshift : ps.shift t with
      | error e => simp [hshift] at h
      | ok ps' =>
        simp only [hshift] at h
        exact Or.inr ⟨n, t, ts', ps', rfl, rfl, hshift, h⟩

/-- A parse is a run of the loop from the start. -/
theorem parseRegex_eq_ok {enc : Encoding} {reading : BracketReading} {pattern : List UInt8}
    {r : RegexAst × Bool} (h : parseRegex enc reading pattern = .ok r) :
    parseLoop enc reading (2 * pattern.length + 1) (initTokenizer pattern) .start = .ok r := by
  unfold parseRegex at h
  cases hloop : parseLoop enc reading (2 * pattern.length + 1) (initTokenizer pattern) .start with
  | error e =>
    rw [hloop] at h
    cases h
  | ok r' =>
    rw [hloop] at h
    exact h

/-! ## The loop ends -/

/-- More fuel than there is input changes nothing. -/
theorem parseLoop_succ {enc : Encoding} {reading : BracketReading} {fuel : ℕ} {ts : TokenizerState}
    {ps : ParserState} (h : ts.size < fuel) :
    parseLoop enc reading (fuel + 1) ts ps = parseLoop enc reading fuel ts ps := by
  induction fuel generalizing ts ps with
  | zero => omega
  | succ fuel ih =>
    rw [parseLoop, parseLoop]
    cases htoken : tokenizeNext enc reading ts with
    | eof => rfl
    | error e => rfl
    | token t ts' =>
      have hsize := tokenizeNext_size htoken
      cases hshift : ps.shift t with
      | error e => simp only [hshift]
      | ok ps' =>
        simp only [hshift]
        apply ih
        omega

/-- The loop never runs out of fuel. -/
theorem parseRegex_fuel {enc : Encoding} {reading : BracketReading} {pattern : List UInt8} {fuel : ℕ}
    (h : 2 * pattern.length < fuel) :
    parseRegex enc reading pattern =
      (parseLoop enc reading fuel (initTokenizer pattern) .start).mapError
        ScanError.orEmptyPattern := by
  obtain ⟨more, rfl⟩ := Nat.exists_eq_add_of_lt h
  induction more with
  | zero => rfl
  | succ more ih =>
    have hsize : (initTokenizer pattern).size < 2 * pattern.length + more + 1 := by
      have hinit : (initTokenizer pattern).size = 2 * pattern.length := rfl
      omega
    rw [ih (by omega)]
    exact congrArg (Except.mapError ScanError.orEmptyPattern) (parseLoop_succ hsize).symm

/-- Reading characters raises no error. -/
theorem parseLoop_raised {enc : Encoding} {reading : BracketReading} {fuel : ℕ} {ts : TokenizerState}
    {ps : ParserState} {e : PgError} (hvalid : enc.Valid ts.rest) :
    parseLoop enc reading fuel ts ps ≠ .error (.raised e) := by
  induction fuel generalizing ts ps with
  | zero => simp [parseLoop]
  | succ fuel ih =>
    intro h
    rw [parseLoop] at h
    cases htoken : tokenizeNext enc reading ts with
    | eof =>
      cases hfinish : ps.finish <;> simp [htoken, hfinish] at h
    | error e' =>
      simp only [htoken, Except.error.injEq] at h
      exact tokenizeNext_raised hvalid (h ▸ htoken)
    | token t ts' =>
      simp only [htoken] at h
      cases hshift : ps.shift t with
      | error e' => simp [hshift] at h
      | ok ps' =>
        simp only [hshift] at h
        exact ih (tokenizeNext_valid hvalid htoken) h

/-- A pattern of characters is accepted or not, without an error. -/
theorem parseRegex_raised {enc : Encoding} {reading : BracketReading} {pattern : List UInt8}
    {e : PgError} (hvalid : enc.Valid pattern) :
    parseRegex enc reading pattern ≠ .error (.raised e) := by
  intro h
  unfold parseRegex at h
  cases hloop : parseLoop enc reading (2 * pattern.length + 1) (initTokenizer pattern) .start with
  | ok r =>
    rw [hloop] at h
    cases h
  | error e' =>
    rw [hloop] at h
    cases e' with
    | syntaxError errmsg => cases errmsg <;> cases h
    | raised e'' => exact @parseLoop_raised _ _ _ (initTokenizer pattern) _ e'' hvalid hloop

end PgTre
