import PgTre.Query.Parser

/-!
# The grammar of patterns

The rules of `src/query/tre_grammar.y`, with the values they build. A list of tokens takes the parser
to a tree exactly if the grammar derives the tokens with that tree.
-/

namespace PgTre

/-! ## The rules -/

/-- `classitem`. -/
inductive ClassItem : List TreToken → RegexClass → Prop
  | char (c : CodePoint) : ClassItem [.literal c] (classChar c)
  | range (lo hi : CodePoint) (h : lo ≤ hi) :
      ClassItem [.literal lo, .dash, .literal hi] (classRange lo hi h)

/-- `classbody`. -/
inductive ClassBody : List TreToken → RegexClass → Prop
  | item {ts : List TreToken} {a : RegexClass} (h : ClassItem ts a) : ClassBody ts a
  | union {ts us : List TreToken} {a b : RegexClass} (h : ClassBody ts a) (h' : ClassItem us b) :
      ClassBody (ts ++ us) (classUnion a b)

/-- `charclass`. -/
inductive CharClass : List TreToken → RegexAst → Prop
  | plain {ts : List TreToken} {body : RegexClass} (isOpaque : Bool) (h : ClassBody ts body) :
      CharClass (.lbracket :: (ts ++ [.rbracket isOpaque])) (charclass false body isOpaque)
  | negated {ts : List TreToken} {body : RegexClass} (isOpaque : Bool) (h : ClassBody ts body) :
      CharClass (.lbracket :: .caret :: (ts ++ [.rbracket isOpaque])) (charclass true body isOpaque)

/-- What may stand behind an atom. -/
inductive Quantifier : List TreToken → (RegexAst → RegexAst) → Prop
  | star : Quantifier [.star] (fun a => .rep a 0 none)
  | plus : Quantifier [.plus] (fun a => .rep a 1 none)
  | question : Quantifier [.question] (fun a => .rep a 0 (some 1))
  | count (m : ℕ) : Quantifier [.lbrace, .int m, .rbrace] (fun a => .rep a m (some m))
  | atLeast (m : ℕ) : Quantifier [.lbrace, .int m, .comma, .rbrace] (fun a => .rep a m none)
  | bounds (m n : ℕ) :
      Quantifier [.lbrace, .int m, .comma, .int n, .rbrace] (fun a => .rep a m (some n))
  | approx (k : ℕ) : Quantifier [.lbrace, .approx k, .rbrace] (fun a => .approx a k)

/-- The nonterminals that depend on each other. -/
inductive Nonterminal where
  | alternation
  | concatenation
  | quantified
  | atom

/-- `Derives nt ts a`: the tokens are a phrase of the nonterminal, and the value is `a`. -/
inductive Derives : Nonterminal → List TreToken → RegexAst → Prop
  | branch {ts : List TreToken} {a : RegexAst} (h : Derives .concatenation ts a) :
      Derives .alternation ts a
  | alt {ts us : List TreToken} {a b : RegexAst} (h : Derives .alternation ts a)
      (h' : Derives .concatenation us b) : Derives .alternation (ts ++ .pipe :: us) (.alt a b)
  | single {ts : List TreToken} {a : RegexAst} (h : Derives .quantified ts a) :
      Derives .concatenation ts a
  | concat {ts us : List TreToken} {a b : RegexAst} (h : Derives .concatenation ts a)
      (h' : Derives .quantified us b) : Derives .concatenation (ts ++ us) (.concat a b)
  | once {ts : List TreToken} {a : RegexAst} (h : Derives .atom ts a) : Derives .quantified ts a
  | repeated {ts us : List TreToken} {a : RegexAst} {q : RegexAst → RegexAst} (h : Derives .atom ts a)
      (h' : Quantifier us q) : Derives .quantified (ts ++ us) (q a)
  | group {ts : List TreToken} {a : RegexAst} (h : Derives .alternation ts a) :
      Derives .atom (.lparen :: (ts ++ [.rparen])) a
  | literal (c : CodePoint) : Derives .atom [.literal c] (.literal c)
  | charclass {ts : List TreToken} {a : RegexAst} (h : CharClass ts a) : Derives .atom ts a
  | dot : Derives .atom [.dot] .any
  | anchorStart : Derives .atom [.anchorStart] (.anchor .start)
  | anchorEnd : Derives .atom [.anchorEnd] (.anchor .finish)

/-- The parser on several tokens. -/
def ParserState.shiftAll : ParserState → List TreToken → Except String ParserState
  | ps, [] => .ok ps
  | ps, t :: ts =>
      match ps.shift t with
      | .error e => .error e
      | .ok ps' => ps'.shiftAll ts

/-- A run of tokens may be shifted in two parts. -/
theorem ParserState.shiftAll_append {ps ps' : ParserState} {ts us : List TreToken}
    (h : ps.shiftAll ts = .ok ps') : ps.shiftAll (ts ++ us) = ps'.shiftAll us := by
  induction ts generalizing ps with
  | nil =>
    cases h
    rfl
  | cons t ts ih =>
    rw [List.cons_append, ParserState.shiftAll]
    rw [ParserState.shiftAll] at h
    cases hshift : ps.shift t with
    | error e => simp [hshift] at h
    | ok ps'' =>
      rw [hshift] at h
      exact ih h

/-! ## The parser reads what the grammar derives -/

/-- The first token is shifted before the others. -/
theorem ParserState.shiftAll_cons {ps ps' : ParserState} {t : TreToken} {ts : List TreToken}
    (h : ps.shift t = .ok ps') : ps.shiftAll (t :: ts) = ps'.shiftAll ts := by
  rw [ParserState.shiftAll, h]

/-- Whether the bracket is negated, and the items read. There are none before the first, and behind
a dash an item is not complete. -/
def ClassPhase.read : ClassPhase → Option (Bool × Option RegexClass)
  | .opened => some (false, none)
  | .caret => some (true, none)
  | .literal negated body c => some (negated, some (addItem body (classChar c)))
  | .dash _ _ _ => none
  | .items negated body => some (negated, some body)

/-- A literal may follow where an item may. -/
theorem ClassPhase.shift_literal {phase : ClassPhase} {negated : Bool} {body : Option RegexClass}
    (h : phase.read = some (negated, body)) (c : CodePoint) :
    phase.shift (.literal c) = .ok (.inl (.literal negated body c)) := by
  cases phase <;> cases h <;> rfl

/-- A closing bracket ends a class that has an item. -/
theorem ClassPhase.shift_close {phase : ClassPhase} {negated : Bool} {body : RegexClass}
    (h : phase.read = some (negated, some body)) (isOpaque : Bool) :
    phase.shift (.rbracket isOpaque) = .ok (.inr (PgTre.charclass negated body isOpaque)) := by
  cases phase <;> cases h <;> rfl

/-- Inside a bracket a token changes the phase of the class. -/
theorem ParserState.shift_inside {ps : ParserState} {phase phase' : ClassPhase} {t : TreToken}
    (hps : ps.inside = .bracket phase) (h : phase.shift t = .ok (.inl phase')) :
    ps.shift t = .ok { ps with inside := .bracket phase' } := by
  simp only [ParserState.shift, hps, h]

/-- The token that closes a bracket adds its class to the frame. -/
theorem ParserState.shift_closing {ps : ParserState} {phase : ClassPhase} {t : TreToken}
    {a : RegexAst} (hps : ps.inside = .bracket phase) (h : phase.shift t = .ok (.inr a)) :
    ps.shift t = .ok { ps with frame := ps.frame.addAtom a, inside := .pattern } := by
  simp only [ParserState.shift, hps, h]

/-- An item of a bracket. -/
theorem ClassItem.shiftAll {ts : List TreToken} {b : RegexClass} (h : ClassItem ts b)
    (ps : ParserState) {phase : ClassPhase} {negated : Bool} {body : Option RegexClass}
    (hps : ps.inside = .bracket phase) (hphase : phase.read = some (negated, body)) :
    ∃ phase', ps.shiftAll ts = .ok { ps with inside := .bracket phase' } ∧
      phase'.read = some (negated, some (addItem body b)) := by
  cases h with
  | char c =>
    refine ⟨.literal negated body c, ?_, rfl⟩
    rw [ParserState.shiftAll_cons (ParserState.shift_inside hps (ClassPhase.shift_literal hphase c))]
    rfl
  | range lo hi h =>
    refine ⟨.items negated (addItem body (classRange lo hi h)), ?_, rfl⟩
    rw [ParserState.shiftAll_cons
      (ParserState.shift_inside hps (ClassPhase.shift_literal hphase lo))]
    have hlast : (ClassPhase.dash negated body lo).shift (.literal hi) =
        .ok (.inl (.items negated (addItem body (classRange lo hi h)))) := by
      simp only [ClassPhase.shift, dif_pos h]
    rw [ParserState.shiftAll_cons (ParserState.shift_inside rfl rfl),
      ParserState.shiftAll_cons (ParserState.shift_inside rfl hlast)]
    rfl

/-- The items of a bracket. -/
theorem ClassBody.shiftAll {ts : List TreToken} {a : RegexClass} (h : ClassBody ts a)
    (ps : ParserState) {phase : ClassPhase} {negated : Bool} (hps : ps.inside = .bracket phase)
    (hphase : phase.read = some (negated, none)) :
    ∃ phase', ps.shiftAll ts = .ok { ps with inside := .bracket phase' } ∧
      phase'.read = some (negated, some a) := by
  induction h with
  | item h => exact h.shiftAll ps hps hphase
  | union h h' ih =>
    obtain ⟨phase', hrun, hread⟩ := ih
    obtain ⟨phase'', hrun', hread'⟩ :=
      h'.shiftAll { ps with inside := .bracket phase' } rfl hread
    exact ⟨phase'', by rw [ParserState.shiftAll_append hrun, hrun'], hread'⟩

/-- A bracket that is open, up to its end. -/
theorem ClassBody.shiftAll_close {ts : List TreToken} {body : RegexClass} (h : ClassBody ts body)
    (ps : ParserState) {phase : ClassPhase} {negated : Bool} (hps : ps.inside = .bracket phase)
    (hphase : phase.read = some (negated, none)) (isOpaque : Bool) :
    ps.shiftAll (ts ++ [.rbracket isOpaque]) =
      .ok { ps with
        frame := ps.frame.addAtom (PgTre.charclass negated body isOpaque)
        inside := .pattern } := by
  obtain ⟨phase', hrun, hread⟩ := h.shiftAll ps hps hphase
  rw [ParserState.shiftAll_append hrun,
    ParserState.shiftAll_cons (ParserState.shift_closing rfl (ClassPhase.shift_close hread isOpaque))]
  rfl

/-- A bracket. -/
theorem CharClass.shiftAll {ts : List TreToken} {a : RegexAst} (h : CharClass ts a)
    (ps : ParserState) (hps : ps.inside = .pattern) :
    ps.shiftAll ts = .ok { ps with frame := ps.frame.addAtom a } := by
  have hopen : ps.shift .lbracket =
      .ok { ps with frame := ps.frame.closeAtom, inside := .bracket .opened } := by
    simp only [ParserState.shift, hps, ParserState.shiftPattern, orUnsupported]
  cases h with
  | plain isOpaque h =>
    rw [ParserState.shiftAll_cons hopen, h.shiftAll_close _ rfl rfl isOpaque, ← hps]
    rfl
  | negated isOpaque h =>
    rw [ParserState.shiftAll_cons hopen, ParserState.shiftAll_cons (ParserState.shift_inside rfl rfl),
      h.shiftAll_close _ rfl rfl isOpaque, ← hps]
    rfl

/-- A quantifier behind an atom. -/
theorem Quantifier.shiftAll {ts : List TreToken} {q : RegexAst → RegexAst} (h : Quantifier ts q)
    (ps : ParserState) (hps : ps.inside = .pattern) {a : RegexAst} (ha : ps.frame.atom = some a) :
    ps.shiftAll ts =
      .ok { ps with frame := ⟨ps.frame.alts, some (addQuantified ps.frame.cat (q a)), none⟩ } := by
  obtain ⟨stack, ⟨alts, cat, atom⟩, inside⟩ := ps
  obtain rfl : inside = .pattern := hps
  obtain rfl : atom = some a := ha
  cases h <;> rfl

/-- What the parser makes of a phrase. -/
def Derives.Shifted : Nonterminal → List TreToken → RegexAst → Prop
  | .atom, ts, a => ∀ ps : ParserState, ps.inside = .pattern →
      ps.shiftAll ts = .ok { ps with frame := ps.frame.addAtom a }
  | .quantified, ts, a => ∀ ps : ParserState, ps.inside = .pattern →
      ∃ f, ps.shiftAll ts = .ok { ps with frame := f } ∧ f.alts = ps.frame.alts ∧
        f.concatenation = some (addQuantified ps.frame.concatenation a)
  | .concatenation, ts, a => ∀ ps : ParserState, ps.inside = .pattern →
      ps.frame.concatenation = none →
      ∃ f, ps.shiftAll ts = .ok { ps with frame := f } ∧ f.alts = ps.frame.alts ∧
        f.concatenation = some a
  | .alternation, ts, a => ∀ ps : ParserState, ps.inside = .pattern → ps.frame = .empty →
      ∃ f, ps.shiftAll ts = .ok { ps with frame := f } ∧ f.alternation = some a

/-- What is derived can be shifted. -/
theorem Derives.shifted {nt : Nonterminal} {ts : List TreToken} {a : RegexAst}
    (h : Derives nt ts a) : Derives.Shifted nt ts a := by
  induction h with
  | branch h ih =>
    intro ps hps hframe
    obtain ⟨f, hrun, halts, hcat⟩ := ih ps hps (by rw [hframe]; rfl)
    refine ⟨f, hrun, ?_⟩
    rw [Frame.alternation, hcat, halts, hframe]
    rfl
  | @alt ts us a b h h' ih ih' =>
    intro ps hps hframe
    obtain ⟨f, hrun, hf⟩ := ih ps hps hframe
    have hbar : ParserState.shift { ps with frame := f } .pipe =
        .ok { ps with frame := ⟨some a, none, none⟩ } := by
      simp only [ParserState.shift, hps, ParserState.shiftPattern, hf, orUnsupported, Option.map_some]
    obtain ⟨f', hrun', halts, hcat⟩ := ih' { ps with frame := ⟨some a, none, none⟩ } hps rfl
    refine ⟨f', ?_, ?_⟩
    · rw [ParserState.shiftAll_append hrun, ParserState.shiftAll_cons hbar, hrun']
    · rw [Frame.alternation, hcat, halts]
      rfl
  | single h ih =>
    intro ps hps hcat
    obtain ⟨f, hrun, halts, hf⟩ := ih ps hps
    refine ⟨f, hrun, halts, ?_⟩
    rw [hf, hcat]
    rfl
  | concat h h' ih ih' =>
    intro ps hps hcat
    obtain ⟨f, hrun, halts, hf⟩ := ih ps hps hcat
    obtain ⟨f', hrun', halts', hf'⟩ := ih' { ps with frame := f } hps
    refine ⟨f', by rw [ParserState.shiftAll_append hrun, hrun'], halts'.trans halts, ?_⟩
    rw [hf']
    simp only [hf]
    rfl
  | once h ih =>
    intro ps hps
    exact ⟨_, ih ps hps, rfl, rfl⟩
  | @repeated ts us a q h h' ih =>
    intro ps hps
    have hrun' := h'.shiftAll { ps with frame := ps.frame.addAtom a } hps rfl
    exact ⟨⟨ps.frame.alts, some (addQuantified ps.frame.concatenation (q a)), none⟩,
      by rw [ParserState.shiftAll_append (ih ps hps), hrun']; rfl, rfl, rfl⟩
  | @group ts a h ih =>
    intro ps hps
    have hopen : ps.shift .lparen =
        .ok { ps with stack := ps.frame.closeAtom :: ps.stack, frame := .empty } := by
      simp only [ParserState.shift, hps, ParserState.shiftPattern, orUnsupported]
    obtain ⟨f, hrun, hf⟩ :=
      ih { ps with stack := ps.frame.closeAtom :: ps.stack, frame := .empty } hps rfl
    have hclose : ParserState.shift { ps with stack := ps.frame.closeAtom :: ps.stack, frame := f }
        .rparen = .ok { ps with frame := ps.frame.addAtom a } := by
      simp only [ParserState.shift, hps, ParserState.shiftPattern, hf, orUnsupported, Option.map_some]
      rfl
    rw [ParserState.shiftAll_cons hopen, ParserState.shiftAll_append hrun,
      ParserState.shiftAll_cons hclose]
    rfl
  | charclass h => exact fun ps hps => h.shiftAll ps hps
  | _ =>
    rintro ⟨stack, frame, inside⟩ hps
    obtain rfl : inside = .pattern := hps
    rfl

/-! ## What the parser accepts is derived -/

/-- The branches before the last bar. -/
def readsAlts : Option RegexAst → List TreToken → Prop
  | none, ts => ts = []
  | some a, ts => ∃ us, ts = us ++ [.pipe] ∧ Derives .alternation us a

/-- A part that may be missing. -/
def readsPart (nt : Nonterminal) : Option RegexAst → List TreToken → Prop
  | none, ts => ts = []
  | some a, ts => Derives nt ts a

/-- The tokens a frame stands for. -/
def Frame.Reads (f : Frame) (ts : List TreToken) : Prop :=
  ∃ us vs ws, ts = us ++ (vs ++ ws) ∧ readsAlts f.alts us ∧ readsPart .concatenation f.cat vs ∧
    readsPart .atom f.atom ws

/-- A quantified piece extends the concatenation that is read. -/
theorem readsPart_addQuantified {cat : Option RegexAst} {a : RegexAst} {vs ws : List TreToken}
    (hcat : readsPart .concatenation cat vs) (ha : Derives .quantified ws a) :
    Derives .concatenation (vs ++ ws) (addQuantified cat a) := by
  cases cat with
  | none =>
    obtain rfl : vs = [] := hcat
    exact .single ha
  | some c => exact .concat hcat ha

/-- The tokens of a frame are those of its alternatives and of its concatenation. -/
theorem Frame.Reads.concatenation {f : Frame} {ts : List TreToken} (h : f.Reads ts) :
    ∃ us vs, ts = us ++ vs ∧ readsAlts f.alts us ∧
      readsPart .concatenation f.concatenation vs := by
  obtain ⟨us, vs, ws, rfl, halts, hcat, hatom⟩ := h
  refine ⟨us, vs ++ ws, rfl, halts, ?_⟩
  unfold Frame.concatenation
  cases ha : f.atom with
  | none =>
    rw [ha] at hatom
    obtain rfl : ws = [] := hatom
    simpa using hcat
  | some a =>
    rw [ha] at hatom
    exact readsPart_addQuantified hcat (.once hatom)

/-- The alternation of a frame is derived from its tokens. -/
theorem Frame.Reads.alternation {f : Frame} {ts : List TreToken} {a : RegexAst} (h : f.Reads ts)
    (ha : f.alternation = some a) : Derives .alternation ts a := by
  obtain ⟨us, vs, rfl, halts, hcat⟩ := h.concatenation
  obtain ⟨c, hc, rfl⟩ := Option.map_eq_some_iff.mp ha
  rw [hc] at hcat
  cases hf : f.alts with
  | none =>
    rw [hf] at halts
    obtain rfl : us = [] := halts
    exact .branch hcat
  | some b =>
    rw [hf] at halts
    obtain ⟨us, rfl, hb⟩ := halts
    rw [List.append_assoc]
    exact .alt hb hcat

/-- Closing the atom reads no token. -/
theorem Frame.Reads.closeAtom {f : Frame} {ts : List TreToken} (h : f.Reads ts) :
    f.closeAtom.Reads ts := by
  obtain ⟨us, vs, rfl, halts, hcat⟩ := h.concatenation
  exact ⟨us, vs, [], by simp, halts, hcat, rfl⟩

/-- An atom added reads its tokens. -/
theorem Frame.Reads.addAtom {f : Frame} {ts ws : List TreToken} {a : RegexAst} (h : f.Reads ts)
    (ha : Derives .atom ws a) : (f.addAtom a).Reads (ts ++ ws) := by
  obtain ⟨us, vs, rfl, halts, hcat⟩ := h.concatenation
  exact ⟨us, vs, ws, by simp, halts, hcat, ha⟩

/-- A quantifier applied reads its tokens. -/
theorem Frame.Reads.quantify {f f' : Frame} {ts us : List TreToken} {q : RegexAst → RegexAst}
    (h : f.Reads ts) (hq : Quantifier us q) (hf : f.quantify q = some f') : f'.Reads (ts ++ us) := by
  obtain ⟨a, ha, rfl⟩ := Option.map_eq_some_iff.mp hf
  obtain ⟨alts, vs, ws, rfl, halts, hcat, hatom⟩ := h
  rw [ha] at hatom
  exact ⟨alts, vs ++ (ws ++ us), [], by simp, halts,
    readsPart_addQuantified hcat (.repeated hatom hq), rfl⟩

/-- The tokens that open a bracket. -/
def opening (negated : Bool) : List TreToken :=
  if negated then [.lbracket, .caret] else [.lbracket]

/-- The items of a bracket, if there are any. -/
def readsBody : Option RegexClass → List TreToken → Prop
  | none, ts => ts = []
  | some body, ts => ClassBody ts body

/-- The tokens a bracket stands for. -/
def ClassPhase.Reads : ClassPhase → List TreToken → Prop
  | .opened, ts => ts = [.lbracket]
  | .caret, ts => ts = [.lbracket, .caret]
  | .literal negated body c, ts =>
      ∃ us, ts = opening negated ++ (us ++ [.literal c]) ∧ readsBody body us
  | .dash negated body c, ts =>
      ∃ us, ts = opening negated ++ (us ++ [.literal c, .dash]) ∧ readsBody body us
  | .items negated body, ts => ∃ us, ts = opening negated ++ us ∧ ClassBody us body

/-- The tokens a brace stands for. -/
def BracePhase.tokens : BracePhase → List TreToken
  | .opened => [.lbrace]
  | .count m => [.lbrace, .int m]
  | .comma m => [.lbrace, .int m, .comma]
  | .bounds m n => [.lbrace, .int m, .comma, .int n]
  | .approx k => [.lbrace, .approx k]

/-- An item added extends the body of the class. -/
theorem ClassBody.addItem {body : Option RegexClass} {item : RegexClass} {ts us : List TreToken}
    (hbody : readsBody body ts) (hitem : ClassItem us item) :
    ClassBody (ts ++ us) (PgTre.addItem body item) := by
  cases body with
  | none =>
    obtain rfl : ts = [] := hbody
    exact .item hitem
  | some body => exact .union hbody hitem

/-- A phase that is read has its opening and a body. -/
theorem ClassPhase.Reads.read {phase : ClassPhase} {ts : List TreToken} (h : phase.Reads ts)
    {negated : Bool} {body : Option RegexClass} (hread : phase.read = some (negated, body)) :
    ∃ us, ts = opening negated ++ us ∧ readsBody body us := by
  cases phase with
  | opened =>
    cases hread
    exact ⟨[], h, rfl⟩
  | caret =>
    cases hread
    exact ⟨[], h, rfl⟩
  | literal negated body c =>
    cases hread
    obtain ⟨us, rfl, hus⟩ := h
    exact ⟨us ++ [.literal c], rfl, ClassBody.addItem hus (.char c)⟩
  | dash negated body c => cases hread
  | items negated body =>
    cases hread
    exact h

/-- A bracket that goes on. -/
theorem ClassPhase.Reads.shift {phase phase' : ClassPhase} {t : TreToken} {ts : List TreToken}
    (h : phase.Reads ts) (hs : phase.shift t = .ok (.inl phase')) : phase'.Reads (ts ++ [t]) := by
  cases t with
  | literal c =>
    cases hread : phase.read with
    | some r =>
      obtain ⟨negated, body⟩ := r
      cases (ClassPhase.shift_literal hread c).symm.trans hs
      obtain ⟨us, rfl, hus⟩ := h.read hread
      exact ⟨us, by simp, hus⟩
    | none =>
      cases phase with
      | dash negated body lo =>
        obtain ⟨us, rfl, hus⟩ := h
        simp only [ClassPhase.shift] at hs
        split at hs
        · cases hs
          exact ⟨us ++ [.literal lo, .dash, .literal c], by simp,
            ClassBody.addItem hus (.range lo c ‹_›)⟩
        · cases hs
      | _ => cases hread
  | dash =>
    cases phase with
    | literal negated body c =>
      cases hs
      obtain ⟨us, rfl, hus⟩ := h
      exact ⟨us, by simp, hus⟩
    | _ => cases hs
  | caret =>
    cases phase with
    | opened =>
      cases hs
      obtain rfl : ts = [.lbracket] := h
      exact rfl
    | _ => cases hs
  | _ => cases phase <;> cases hs

/-- A bracket that ends. -/
theorem ClassPhase.Reads.close {phase : ClassPhase} {t : TreToken} {ts : List TreToken}
    {a : RegexAst} (h : phase.Reads ts) (hs : phase.shift t = .ok (.inr a)) :
    CharClass (ts ++ [t]) a := by
  obtain ⟨isOpaque, rfl⟩ := ClassPhase.shift_inr hs
  have hclose : ∀ {negated us body}, ClassBody us body →
      CharClass (opening negated ++ us ++ [.rbracket isOpaque])
        (PgTre.charclass negated body isOpaque) := by
    intro negated us body hus
    cases negated with
    | false => exact .plain isOpaque hus
    | true => exact .negated isOpaque hus
  cases phase with
  | literal negated body c =>
    cases hs
    obtain ⟨us, rfl, hus⟩ := h
    exact hclose (ClassBody.addItem hus (.char c))
  | items negated body =>
    cases hs
    obtain ⟨us, rfl, hus⟩ := h
    exact hclose hus
  | _ => cases hs

/-- A brace that goes on keeps its tokens. -/
theorem BracePhase.shift_tokens {phase phase' : BracePhase} {t : TreToken}
    (h : phase.shift t = some (.inl phase')) : phase'.tokens = phase.tokens ++ [t] := by
  cases phase <;> cases t <;> cases h <;> rfl

/-- A brace that ends is a quantifier. -/
theorem BracePhase.shift_quantifier {phase : BracePhase} {t : TreToken} {q : RegexAst → RegexAst}
    (h : phase.shift t = some (.inr q)) : Quantifier (phase.tokens ++ [t]) q := by
  cases phase <;> cases t <;> cases h <;> constructor

/-- The tokens the groups stand for that are open. -/
def readsStack : List Frame → List TreToken → Prop
  | [], ts => ts = []
  | f :: stack, ts => ∃ us vs, ts = us ++ (vs ++ [.lparen]) ∧ readsStack stack us ∧ f.Reads vs

/-- The tokens of what the parser is inside of. -/
def Inside.Reads : Inside → List TreToken → Prop
  | .pattern, ts => ts = []
  | .bracket phase, ts => phase.Reads ts
  | .brace phase, ts => ts = phase.tokens

/-- The tokens the parser has read. -/
def ParserState.Reads (ps : ParserState) (ts : List TreToken) : Prop :=
  ∃ us vs ws, ts = us ++ (vs ++ ws) ∧ readsStack ps.stack us ∧ ps.frame.Reads vs ∧
    ps.inside.Reads ws

/-- An atom token derives its atom. -/
theorem TreToken.atom_derives {t : TreToken} {a : RegexAst} (h : t.atom = some a) :
    Derives .atom [t] a := by
  cases t with
  | literal c =>
    cases h
    exact .literal c
  | dot =>
    cases h
    exact .dot
  | anchorStart =>
    cases h
    exact .anchorStart
  | anchorEnd =>
    cases h
    exact .anchorEnd
  | _ => cases h

/-- A quantifier token is a quantifier. -/
theorem TreToken.quantifier_derives {t : TreToken} {q : RegexAst → RegexAst}
    (h : t.quantifier = some q) : Quantifier [t] q := by
  cases t <;> cases h <;> constructor

/-- The empty frame has read nothing. -/
theorem Frame.Reads.empty : Frame.empty.Reads [] := ⟨[], [], [], rfl, rfl, rfl, rfl⟩

/-- A token outside the brackets is read. -/
theorem ParserState.Reads.shiftPlain {ps ps' : ParserState} {t : TreToken} {ts : List TreToken}
    (h : ps.Reads ts) (hps : ps.inside = .pattern) (hs : ps.shiftPlain t = some ps') :
    ps'.Reads (ts ++ [t]) := by
  obtain ⟨us, vs, ws, rfl, hstack, hframe, hinside⟩ := h
  rw [hps] at hinside
  obtain rfl : ws = [] := hinside
  unfold ParserState.shiftPlain at hs
  cases ht : t.atom with
  | some a =>
    simp only [ht, Option.some.injEq] at hs
    subst hs
    refine ⟨us, vs ++ [t], [], by simp, hstack, hframe.addAtom (TreToken.atom_derives ht), ?_⟩
    rw [hps]
    rfl
  | none =>
    simp only [ht] at hs
    obtain ⟨q, hq, hs⟩ := Option.bind_eq_some_iff.mp hs
    obtain ⟨f, hf, rfl⟩ := Option.map_eq_some_iff.mp hs
    refine ⟨us, vs ++ [t], [], by simp, hstack,
      hframe.quantify (TreToken.quantifier_derives hq) hf, ?_⟩
    rw [hps]
    rfl

/-- A token between two atoms. -/
theorem ParserState.Reads.shiftPattern {ps ps' : ParserState} {t : TreToken} {ts : List TreToken}
    (h : ps.Reads ts) (hps : ps.inside = .pattern) (hs : ps.shiftPattern t = some ps') :
    ps'.Reads (ts ++ [t]) := by
  obtain ⟨us, vs, ws, hts, hstack, hframe, hinside⟩ := id h
  rw [hps] at hinside
  obtain rfl : ws = [] := hinside
  rw [List.append_nil] at hts
  subst hts
  cases t with
  | pipe =>
    obtain ⟨a, ha, rfl⟩ := Option.map_eq_some_iff.mp hs
    have hbar : Frame.Reads ⟨some a, none, none⟩ (vs ++ [.pipe]) :=
      ⟨vs ++ [.pipe], [], [], by simp, ⟨vs, rfl, hframe.alternation ha⟩, rfl, rfl⟩
    exact ⟨us, vs ++ [.pipe], [], by simp, hstack, hbar, by rw [hps]; rfl⟩
  | lparen =>
    cases hs
    exact ⟨us ++ (vs ++ [.lparen]), [], [], by simp, ⟨us, vs, rfl, hstack, hframe.closeAtom⟩,
      .empty, by rw [hps]; rfl⟩
  | rparen =>
    simp only [ParserState.shiftPattern] at hs
    cases hbelow : ps.stack with
    | nil => simp [hbelow] at hs
    | cons f stack =>
      rw [hbelow] at hstack
      simp only [hbelow] at hs
      obtain ⟨a, ha, rfl⟩ := Option.map_eq_some_iff.mp hs
      obtain ⟨us, vs', rfl, hstack, hf⟩ := hstack
      have hgroup := hf.addAtom (Derives.group (hframe.alternation ha))
      exact ⟨us, vs' ++ .lparen :: (vs ++ [.rparen]), [], by simp, hstack, hgroup, by rw [hps]; rfl⟩
  | lbracket =>
    cases hs
    exact ⟨us, vs, [.lbracket], by simp, hstack, hframe.closeAtom, rfl⟩
  | lbrace =>
    obtain ⟨a, -, rfl⟩ := Option.map_eq_some_iff.mp hs
    exact ⟨us, vs, [.lbrace], by simp, hstack, hframe, rfl⟩
  | _ => exact h.shiftPlain hps hs

/-- Every token the parser shifts is read. -/
theorem ParserState.Reads.shift {ps ps' : ParserState} {t : TreToken} {ts : List TreToken}
    (h : ps.Reads ts) (hs : ps.shift t = .ok ps') : ps'.Reads (ts ++ [t]) := by
  unfold ParserState.shift at hs
  cases hp : ps.inside with
  | pattern =>
    simp only [hp] at hs
    exact h.shiftPattern hp (orUnsupported_eq_ok hs)
  | bracket phase =>
    obtain ⟨us, vs, ws, rfl, hstack, hframe, hinside⟩ := h
    rw [hp] at hinside
    simp only [hp] at hs
    cases hshift : phase.shift t with
    | error e => simp [hshift] at hs
    | ok next =>
      cases next with
      | inl phase' =>
        simp only [hshift, Except.ok.injEq] at hs
        subst hs
        exact ⟨us, vs, ws ++ [t], by simp, hstack, hframe, ClassPhase.Reads.shift hinside hshift⟩
      | inr a =>
        simp only [hshift, Except.ok.injEq] at hs
        subst hs
        have hclass := ClassPhase.Reads.close hinside hshift
        exact ⟨us, vs ++ (ws ++ [t]), [], by simp, hstack, hframe.addAtom (.charclass hclass), rfl⟩
  | brace phase =>
    obtain ⟨us, vs, ws, rfl, hstack, hframe, hinside⟩ := h
    rw [hp] at hinside
    obtain rfl : ws = phase.tokens := hinside
    simp only [hp] at hs
    cases hshift : phase.shift t with
    | none => simp [hshift] at hs
    | some next =>
      cases next with
      | inl phase' =>
        simp only [hshift, Except.ok.injEq] at hs
        subst hs
        exact ⟨us, vs, phase'.tokens, by simp [BracePhase.shift_tokens hshift], hstack, hframe, rfl⟩
      | inr q =>
        simp only [hshift] at hs
        obtain ⟨f, hf, rfl⟩ := Option.map_eq_some_iff.mp (orUnsupported_eq_ok hs)
        have hquantified := hframe.quantify (BracePhase.shift_quantifier hshift) hf
        exact ⟨us, vs ++ (phase.tokens ++ [t]), [], by simp, hstack, hquantified, rfl⟩

/-- A run of tokens is read. -/
theorem ParserState.Reads.shiftAll {ps ps' : ParserState} {ts us : List TreToken} (h : ps.Reads ts)
    (hs : ps.shiftAll us = .ok ps') : ps'.Reads (ts ++ us) := by
  induction us generalizing ps ts with
  | nil =>
    cases hs
    simpa using h
  | cons t us ih =>
    rw [ParserState.shiftAll] at hs
    cases hshift : ps.shift t with
    | error e => simp [hshift] at hs
    | ok ps'' =>
      rw [hshift] at hs
      have hrest := ih (h.shift hshift) hs
      rwa [List.append_assoc] at hrest

/-! ## The parser is one for the grammar -/

/-- `pattern`: the parser gives the tokens a tree exactly if the grammar does. -/
theorem shiftAll_finish_iff {ts : List TreToken} {a : RegexAst} :
    (∃ ps, ParserState.start.shiftAll ts = .ok ps ∧ ps.finish = .ok a) ↔
      Derives .alternation ts a := by
  constructor
  · rintro ⟨ps, hrun, hfinish⟩
    obtain ⟨hstack, hinside, halts⟩ := ParserState.finish_inside hfinish
    have hstart : ParserState.start.Reads [] := ⟨[], [], [], rfl, rfl, .empty, rfl⟩
    obtain ⟨us, vs, ws, hts, hus, hvs, hws⟩ := hstart.shiftAll hrun
    rw [hstack] at hus
    rw [hinside] at hws
    obtain rfl : us = [] := hus
    obtain rfl : ws = [] := hws
    rw [List.nil_append, List.nil_append, List.append_nil] at hts
    subst hts
    exact hvs.alternation halts
  · intro h
    obtain ⟨f, hrun, hf⟩ := h.shifted .start rfl rfl
    refine ⟨_, hrun, ?_⟩
    simp only [ParserState.finish, ParserState.start, hf, orUnsupported]

/-- What the tokenizer makes of the rest of a pattern. -/
inductive Tokenizes (enc : Encoding) (reading : BracketReading) :
    TokenizerState → List TreToken → Bool → Prop
  | eof {ts : TokenizerState} (h : tokenizeNext enc reading ts = .eof) :
      Tokenizes enc reading ts [] ts.forceAlwaysTrue
  | token {ts ts' : TokenizerState} {t : TreToken} {tokens : List TreToken} {force : Bool}
      (h : tokenizeNext enc reading ts = .token t ts')
      (h' : Tokenizes enc reading ts' tokens force) : Tokenizes enc reading ts (t :: tokens) force

section Loop

variable {enc : Encoding} {reading : BracketReading} {ts : TokenizerState} {ps : ParserState}

/-- A parse that returns has tokenized its pattern and shifted the tokens. -/
theorem parseLoop_tokenizes {fuel : ℕ} {r : RegexAst × Bool}
    (h : parseLoop enc reading fuel ts ps = .ok r) :
    ∃ tokens ps', Tokenizes enc reading ts tokens r.2 ∧ ps.shiftAll tokens = .ok ps' ∧
      ps'.finish = .ok r.1 := by
  induction fuel generalizing ts ps with
  | zero => cases h
  | succ n ih =>
    rcases parseLoop_eq_ok h with ⟨heof, hfinish, hforce⟩ |
      ⟨m, t, ts', ps', hm, htoken, hshift, hloop⟩
    · exact ⟨[], ps, hforce ▸ .eof heof, rfl, hfinish⟩
    · obtain rfl : n = m := by omega
      obtain ⟨tokens, ps'', htokens, hrun, hfinish⟩ := ih hloop
      refine ⟨t :: tokens, ps'', .token htoken htokens, ?_, hfinish⟩
      rw [ParserState.shiftAll_cons hshift, hrun]

/-- A tokenized pattern is parsed by shifting its tokens. -/
theorem Tokenizes.parseLoop {tokens : List TreToken} {force : Bool} {fuel : ℕ} {ps' : ParserState}
    {root : RegexAst} (h : Tokenizes enc reading ts tokens force) (hfuel : ts.size < fuel)
    (hrun : ps.shiftAll tokens = .ok ps') (hfinish : ps'.finish = .ok root) :
    PgTre.parseLoop enc reading fuel ts ps = .ok (root, force) := by
  induction h generalizing ps fuel with
  | eof heof =>
    cases hrun
    cases fuel with
    | zero => omega
    | succ fuel => simp only [PgTre.parseLoop, heof, hfinish]
  | token htoken _ ih =>
    have hsize := tokenizeNext_size htoken
    cases fuel with
    | zero => omega
    | succ fuel =>
      rw [ParserState.shiftAll] at hrun
      simp only [PgTre.parseLoop, htoken]
      cases hshift : ps.shift _ with
      | error e => simp [hshift] at hrun
      | ok ps'' =>
        simp only [hshift] at hrun ⊢
        exact ih (by omega) hrun

end Loop

/-- A pattern has a tree exactly if the grammar derives its tokens with that tree. -/
theorem parseRegex_eq_ok_iff {enc : Encoding} {reading : BracketReading} {pattern : List UInt8}
    {root : RegexAst} {force : Bool} :
    parseRegex enc reading pattern = .ok (root, force) ↔
      ∃ tokens, Tokenizes enc reading (initTokenizer pattern) tokens force ∧
        Derives .alternation tokens root := by
  constructor
  · intro h
    obtain ⟨tokens, ps, htokens, hrun, hfinish⟩ := parseLoop_tokenizes (parseRegex_eq_ok h)
    exact ⟨tokens, htokens, shiftAll_finish_iff.mp ⟨ps, hrun, hfinish⟩⟩
  · rintro ⟨tokens, htokens, hderives⟩
    obtain ⟨ps, hrun, hfinish⟩ := shiftAll_finish_iff.mpr hderives
    have hsize : (initTokenizer pattern).size < 2 * pattern.length + 1 := by
      have hinit : (initTokenizer pattern).size = 2 * pattern.length := rfl
      omega
    rw [parseRegex, htokens.parseLoop hsize hrun hfinish]
    rfl

end PgTre
