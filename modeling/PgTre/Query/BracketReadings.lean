import PgTre.Query.Parser

/-!
# What a backslash inside brackets means

The engines that recheck rows do not agree on a backslash inside brackets, so that the index takes
such a bracket for any one character. It must still find the end of the bracket where both engines
find it. The readings are run side by side: as long as the bracket ends at the same place in both,
what the index reads covers what the engine reads.
-/

namespace PgTre

open Strings

/-! ## Trees that cover others -/

/-- The tree matches all that the other one matches. -/
def RegexAst.Covers (a b : RegexAst) : Prop :=
  ∀ pre w post, b.Matches pre w post → a.Matches pre w post

/-- A tree covers itself. -/
theorem RegexAst.Covers.refl (a : RegexAst) : a.Covers a := fun _ _ _ h => h

/-- A concatenation covers by its parts. -/
theorem RegexAst.Covers.concat {a b a' b' : RegexAst} (hl : a.Covers b) (hr : a'.Covers b') :
    (RegexAst.concat a a').Covers (.concat b b') := by
  rintro pre w post ⟨u, v, rfl, hu, hv⟩
  exact ⟨u, v, rfl, hl _ _ _ hu, hr _ _ _ hv⟩

/-- An alternation covers by its branches. -/
theorem RegexAst.Covers.alt {a b a' b' : RegexAst} (hl : a.Covers b) (hr : a'.Covers b') :
    (RegexAst.alt a a').Covers (.alt b b') := by
  rintro pre w post (h | h)
  · exact Or.inl (hl _ _ _ h)
  · exact Or.inr (hr _ _ _ h)

/-- Iteration is monotone in what is iterated. -/
theorem Iterated.mono {M N : List CodePoint → List CodePoint → List CodePoint → Prop}
    (hMN : ∀ pre w post, M pre w post → N pre w post) {n : ℕ} {pre w post : List CodePoint}
    (h : Iterated M n pre w post) : Iterated N n pre w post := by
  induction n generalizing pre w with
  | zero => exact h
  | succ n ih =>
    obtain ⟨u, v, rfl, hu, hv⟩ := h
    exact ⟨u, v, rfl, hMN _ _ _ hu, ih hv⟩

/-- A repetition covers by its body. -/
theorem RegexAst.Covers.rep {a b : RegexAst} (h : a.Covers b) (m : ℕ) (n : Option ℕ) :
    (RegexAst.rep a m n).Covers (.rep b m n) := by
  rintro pre w post ⟨count, hm, hn, hcount⟩
  exact ⟨count, hm, hn, hcount.mono h⟩

/-- An approximate group covers by its body. -/
theorem RegexAst.Covers.approx {a b : RegexAst} (h : a.Covers b) (k : ℕ) :
    (RegexAst.approx a k).Covers (.approx b k) := by
  rintro pre w post ⟨v, hv, hedits⟩
  exact ⟨v, h _ _ _ hv, hedits⟩

/-- Any one character covers a bracket. -/
theorem RegexAst.any_covers_charclass (negated : Bool) (body : RegexClass) (isOpaque : Bool) :
    RegexAst.any.Covers (PgTre.charclass negated body isOpaque) := by
  intro pre w post h
  unfold PgTre.charclass at h
  split at h
  · exact h
  · obtain ⟨c, rfl, -⟩ := h
    exact ⟨c, rfl⟩

/-- What covers an occurring tree occurs. -/
theorem RegexAst.Covers.occursIn {a b : RegexAst} (h : a.Covers b) {t : List CodePoint}
    (hb : b.OccursIn t) : a.OccursIn t := by
  obtain ⟨pre, w, post, ht, hw⟩ := hb
  exact ⟨pre, w, post, ht, h _ _ _ hw⟩

/-! ## Parsers that cover others -/

/-- Frame by frame. -/
structure Frame.Covers (f g : Frame) : Prop where
  alts : Option.Rel RegexAst.Covers f.alts g.alts
  cat : Option.Rel RegexAst.Covers f.cat g.cat
  atom : Option.Rel RegexAst.Covers f.atom g.atom

/-- The empty frame covers itself. -/
theorem Frame.Covers.empty : Frame.empty.Covers Frame.empty := ⟨.none, .none, .none⟩

/-- A quantified piece that covers may be added to both sides. -/
theorem addQuantified_covers {cat cat' : Option RegexAst} {a a' : RegexAst}
    (hcat : Option.Rel RegexAst.Covers cat cat') (h : a.Covers a') :
    (addQuantified cat a).Covers (addQuantified cat' a') := by
  cases hcat with
  | none => exact h
  | some hcat => exact hcat.concat h

/-- The concatenations of covering frames cover. -/
theorem Frame.Covers.concatenation {f g : Frame} (h : f.Covers g) :
    Option.Rel RegexAst.Covers f.concatenation g.concatenation := by
  obtain ⟨alts, cat, atom⟩ := f
  obtain ⟨alts', cat', atom'⟩ := g
  obtain ⟨-, hcat, hatom⟩ := h
  unfold Frame.concatenation
  cases hatom with
  | none => exact hcat
  | some hatom => exact .some (addQuantified_covers hcat hatom)

/-- The alternations of covering frames cover. -/
theorem Frame.Covers.alternation {f g : Frame} (h : f.Covers g) :
    Option.Rel RegexAst.Covers f.alternation g.alternation := by
  have halts := h.alts
  have hcat := h.concatenation
  unfold Frame.alternation
  generalize f.concatenation = cat, f.alts = alts, g.concatenation = cat', g.alts = alts' at *
  cases hcat with
  | none => exact .none
  | some hcat =>
    cases halts with
    | none => exact .some hcat
    | some halts => exact .some (halts.alt hcat)

/-- Closing the atom keeps the cover. -/
theorem Frame.Covers.closeAtom {f g : Frame} (h : f.Covers g) :
    f.closeAtom.Covers g.closeAtom := ⟨h.alts, h.concatenation, .none⟩

/-- Covering atoms may be added to both sides. -/
theorem Frame.Covers.addAtom {f g : Frame} (h : f.Covers g) {a b : RegexAst} (hab : a.Covers b) :
    (f.addAtom a).Covers (g.addAtom b) := ⟨h.alts, h.concatenation, .some hab⟩

/-- A quantifier that matches more of what matches more. -/
def KeepsCover (q : RegexAst → RegexAst) : Prop := ∀ a b, a.Covers b → (q a).Covers (q b)

/-- Covering frames may be quantified alike. -/
theorem Frame.Covers.quantify {f g : Frame} (h : f.Covers g) {q : RegexAst → RegexAst}
    (hq : KeepsCover q) {f' g' : Frame} (hf : f.quantify q = some f') (hg : g.quantify q = some g') :
    f'.Covers g' := by
  obtain ⟨a, ha, rfl⟩ := Option.map_eq_some_iff.mp hf
  obtain ⟨b, hb, rfl⟩ := Option.map_eq_some_iff.mp hg
  have hab := h.atom
  rw [ha, hb] at hab
  cases hab with
  | some hab => exact ⟨h.alts, .some (addQuantified_covers h.cat (hq _ _ hab)), .none⟩

/-- A quantifier token keeps the cover. -/
theorem TreToken.quantifier_keepsCover {t : TreToken} {q : RegexAst → RegexAst}
    (h : t.quantifier = some q) : KeepsCover q := by
  intro a b hab
  cases t <;> cases h <;> exact hab.rep _ _

/-- A brace that ends keeps the cover. -/
theorem BracePhase.shift_keepsCover {phase : BracePhase} {t : TreToken} {q : RegexAst → RegexAst}
    (h : phase.shift t = some (.inr q)) : KeepsCover q := by
  intro a b hab
  cases phase <;> cases t <;> cases h <;> first | exact hab.rep _ _ | exact hab.approx _

/-- No brace contains an opening bracket. -/
theorem BracePhase.shift_ne_lbracket {phase : BracePhase} {t : TreToken}
    {next : BracePhase ⊕ (RegexAst → RegexAst)} (h : phase.shift t = some next) :
    t ≠ .lbracket := by
  rintro rfl
  cases phase <;> cases h

/-- What the parsers are inside of. Of an opaque bracket nothing is left to compare. -/
def Inside.Covers (isOpaque : Bool) : Inside → Inside → Prop
  | .pattern, .pattern => True
  | .brace phase, .brace phase' => phase = phase'
  | .bracket phase, .bracket phase' => isOpaque = false → phase = phase'
  | _, _ => False

/-- The stacks agree, and so does where the parsers are. -/
structure ParserState.Covers (isOpaque : Bool) (ps qs : ParserState) : Prop where
  stack : List.Forall₂ Frame.Covers ps.stack qs.stack
  frame : ps.frame.Covers qs.frame
  inside : ps.inside.Covers isOpaque qs.inside

/-- Outside brackets it does not matter what is opaque. -/
theorem ParserState.Covers.of_outside {isOpaque : Bool} {ps qs : ParserState}
    (h : ps.Covers isOpaque qs) (isOpaque' : Bool) (hps : ∀ phase, ps.inside ≠ .bracket phase) :
    ps.Covers isOpaque' qs := by
  refine ⟨h.stack, h.frame, ?_⟩
  have hinside := h.inside
  cases hp : ps.inside with
  | bracket phase => exact absurd hp (hps phase)
  | _ =>
    rw [hp] at hinside
    cases hq : qs.inside <;> rw [hq] at hinside <;> exact hinside

/-- A token outside the brackets keeps the cover, and stays outside them alike. -/
theorem ParserState.Covers.shiftPlain {isOpaque : Bool} {ps qs ps' qs' : ParserState}
    {t : TreToken} (h : ps.Covers isOpaque qs) (hs : ps.shiftPlain t = some ps')
    (hs' : qs.shiftPlain t = some qs') :
    ps'.Covers isOpaque qs' ∧ ps'.inside = ps.inside := by
  unfold ParserState.shiftPlain at hs hs'
  cases ht : t.atom with
  | some a =>
    simp only [ht, Option.some.injEq] at hs hs'
    subst hs hs'
    exact ⟨⟨h.stack, h.frame.addAtom (.refl a), h.inside⟩, rfl⟩
  | none =>
    simp only [ht] at hs hs'
    obtain ⟨q, hq, hs⟩ := Option.bind_eq_some_iff.mp hs
    obtain ⟨q', hq', hs'⟩ := Option.bind_eq_some_iff.mp hs'
    obtain rfl : q = q' := Option.some.inj (hq.symm.trans hq')
    obtain ⟨f, hf, rfl⟩ := Option.map_eq_some_iff.mp hs
    obtain ⟨g, hg, rfl⟩ := Option.map_eq_some_iff.mp hs'
    exact ⟨⟨h.stack, h.frame.quantify (TreToken.quantifier_keepsCover hq) hf hg, h.inside⟩, rfl⟩

/-- A token between two atoms, the same for both parsers. A bracket opens with the token for it. -/
theorem ParserState.Covers.shiftPattern {isOpaque : Bool} {ps qs ps' qs' : ParserState}
    {t : TreToken} (h : ps.Covers isOpaque qs) (hps : ps.inside = .pattern)
    (hqs : qs.inside = .pattern) (hs : ps.shiftPattern t = some ps')
    (hs' : qs.shiftPattern t = some qs') :
    ps'.Covers isOpaque qs' ∧
      (t = .lbracket ∧ ps'.inside = .bracket .opened ∨
        t ≠ .lbracket ∧ ∀ phase, ps'.inside ≠ .bracket phase) := by
  obtain ⟨stack, frame, inside⟩ := ps
  obtain ⟨stack', frame', inside'⟩ := qs
  have hstack := h.stack
  have hframe := h.frame
  subst hps hqs
  have halts := hframe.alternation
  cases t with
  | pipe =>
    obtain ⟨a, ha, rfl⟩ := Option.map_eq_some_iff.mp hs
    obtain ⟨b, hb, rfl⟩ := Option.map_eq_some_iff.mp hs'
    rw [ha, hb] at halts
    cases halts with
    | some hab => exact ⟨⟨hstack, ⟨.some hab, .none, .none⟩, trivial⟩, by simp⟩
  | lparen =>
    cases hs
    cases hs'
    exact ⟨⟨.cons hframe.closeAtom hstack, .empty, trivial⟩, by simp⟩
  | rparen =>
    cases hstack with
    | nil => cases hs
    | cons hf hstack =>
      obtain ⟨a, ha, rfl⟩ := Option.map_eq_some_iff.mp hs
      obtain ⟨b, hb, rfl⟩ := Option.map_eq_some_iff.mp hs'
      rw [ha, hb] at halts
      cases halts with
      | some hab => exact ⟨⟨hstack, hf.addAtom hab, trivial⟩, by simp⟩
  | lbracket =>
    cases hs
    cases hs'
    exact ⟨⟨hstack, hframe.closeAtom, fun _ => rfl⟩, by simp⟩
  | lbrace =>
    obtain ⟨a, -, rfl⟩ := Option.map_eq_some_iff.mp hs
    obtain ⟨b, -, rfl⟩ := Option.map_eq_some_iff.mp hs'
    exact ⟨⟨hstack, hframe, rfl⟩, by simp⟩
  | _ =>
    simp only [ParserState.shiftPattern] at hs hs'
    obtain ⟨hcovers, hinside⟩ := h.shiftPlain hs hs'
    exact ⟨hcovers, by simp [hinside]⟩

/-- A token outside brackets, the same for both parsers. -/
theorem ParserState.Covers.shift {isOpaque : Bool} {ps qs ps' qs' : ParserState} {t : TreToken}
    (h : ps.Covers isOpaque qs) (hps : ∀ phase, ps.inside ≠ .bracket phase)
    (hs : ps.shift t = .ok ps') (hs' : qs.shift t = .ok qs') :
    ps'.Covers isOpaque qs' ∧
      (t = .lbracket ∧ ps'.inside = .bracket .opened ∨
        t ≠ .lbracket ∧ ∀ phase, ps'.inside ≠ .bracket phase) := by
  have hinside := h.inside
  unfold ParserState.shift at hs hs'
  cases hp : ps.inside with
  | pattern =>
    cases hq : qs.inside with
    | pattern =>
      simp only [hp, hq] at hs hs'
      exact h.shiftPattern hp hq (orUnsupported_eq_ok hs) (orUnsupported_eq_ok hs')
    | _ => simp [hp, hq, Inside.Covers] at hinside
  | bracket phase => exact absurd hp (hps phase)
  | brace phase =>
    cases hq : qs.inside with
    | brace phase' =>
      rw [hp, hq] at hinside
      obtain rfl : phase = phase' := hinside
      simp only [hp, hq] at hs hs'
      cases hshift : phase.shift t with
      | none => simp [hshift] at hs
      | some next =>
        have ht := BracePhase.shift_ne_lbracket hshift
        cases next with
        | inl phase' =>
          simp only [hshift, Except.ok.injEq] at hs hs'
          subst hs hs'
          exact ⟨⟨h.stack, h.frame, rfl⟩, Or.inr ⟨ht, by simp⟩⟩
        | inr q =>
          simp only [hshift] at hs hs'
          obtain ⟨f, hf, rfl⟩ := Option.map_eq_some_iff.mp (orUnsupported_eq_ok hs)
          obtain ⟨g, hg, rfl⟩ := Option.map_eq_some_iff.mp (orUnsupported_eq_ok hs')
          have hcovers := h.frame.quantify (BracePhase.shift_keepsCover hshift) hf hg
          exact ⟨⟨h.stack, hcovers, trivial⟩, Or.inr ⟨ht, by simp⟩⟩
    | _ => simp [hp, hq, Inside.Covers] at hinside

/-- Two parses that end cover. -/
theorem ParserState.Covers.finish {isOpaque : Bool} {ps qs : ParserState} {a b : RegexAst}
    (h : ps.Covers isOpaque qs) (ha : ps.finish = .ok a) (hb : qs.finish = .ok b) :
    a.Covers b := by
  have hcovers := h.frame.alternation
  rw [(ParserState.finish_inside ha).2.2, (ParserState.finish_inside hb).2.2] at hcovers
  cases hcovers with
  | some hab => exact hab

/-! ## Tokens inside brackets -/

/-- No bracket opens again inside a bracket. -/
theorem ClassPhase.shift_ne_opened {phase phase' : ClassPhase} {t : TreToken}
    (h : phase.shift t = .ok (.inl phase')) : phase' ≠ .opened := by
  rintro rfl
  cases phase <;> cases t <;> first | cases h | skip
  simp only [ClassPhase.shift] at h
  split at h <;> cases h

/-- A token other than the closing bracket leaves the parser inside. -/
theorem ParserState.shift_bracket {ps ps' : ParserState} {phase : ClassPhase} {t : TreToken}
    (hps : ps.inside = .bracket phase) (ht : ∀ isOpaque, t ≠ .rbracket isOpaque)
    (hs : ps.shift t = .ok ps') :
    ∃ phase', phase.shift t = .ok (.inl phase') ∧ phase' ≠ .opened ∧
      ps' = { ps with inside := .bracket phase' } := by
  unfold ParserState.shift at hs
  simp only [hps] at hs
  cases hshift : phase.shift t with
  | error e => simp [hshift] at hs
  | ok next =>
    cases next with
    | inl phase' =>
      simp only [hshift, Except.ok.injEq] at hs
      exact ⟨phase', rfl, ClassPhase.shift_ne_opened hshift, hs.symm⟩
    | inr a =>
      obtain ⟨isOpaque, rfl⟩ := ClassPhase.shift_inr hshift
      exact absurd rfl (ht isOpaque)

/-- A closing bracket ends the class. -/
theorem ClassPhase.shift_rbracket {phase : ClassPhase} {isOpaque : Bool} {a : RegexAst}
    (h : phase.shift (.rbracket isOpaque) = .ok (.inr a)) :
    ∃ negated body, a = charclass negated body isOpaque := by
  cases phase with
  | literal negated body c => exact ⟨_, _, (Sum.inr.inj (Except.ok.inj h)).symm⟩
  | items negated body => exact ⟨_, _, (Sum.inr.inj (Except.ok.inj h)).symm⟩
  | _ => cases h

/-- The closing bracket. -/
theorem ParserState.shift_rbracket {ps ps' : ParserState} {phase : ClassPhase} {isOpaque : Bool}
    (hps : ps.inside = .bracket phase) (hs : ps.shift (.rbracket isOpaque) = .ok ps') :
    ∃ a, phase.shift (.rbracket isOpaque) = .ok (.inr a) ∧
      ps' = { ps with frame := ps.frame.addAtom a, inside := .pattern } := by
  unfold ParserState.shift at hs
  simp only [hps] at hs
  cases phase with
  | literal negated body c => exact ⟨_, rfl, (Except.ok.inj hs).symm⟩
  | items negated body => exact ⟨_, rfl, (Except.ok.inj hs).symm⟩
  | _ => cases hs

/-! ## The tokenizers -/

/-- Outside brackets every reading is the same. -/
theorem tokenizeNext_of_outside {enc : Encoding} (reading : BracketReading) {ts : TokenizerState}
    (hts : ts.mode ≠ .bracket) : tokenizeNext enc reading ts = tokenizeNext enc .index ts := by
  unfold tokenizeNext
  cases hmode : ts.mode with
  | bracket => exact absurd hmode hts
  | _ => rfl

/-- A result that opens no bracket, and promises none. -/
def TokenResult.Outside (r : TokenResult) : Prop :=
  ∀ t ts, r = .token t ts → t ≠ .lbracket ∧ ts.mode ≠ .bracket ∧ ts.pending ≠ some .lbracket

/-- A token other than an opening bracket stays outside. -/
theorem TokenResult.Outside.token {t : TreToken} {ts : TokenizerState} (ht : t ≠ .lbracket)
    (hts : ts.mode ≠ .bracket) (hp : ts.pending ≠ some .lbracket) :
    (TokenResult.token t ts).Outside := by
  rintro t' ts' ⟨⟩
  exact ⟨ht, hts, hp⟩

/-- An error stays outside. -/
theorem TokenResult.Outside.error (e : ScanError) : (TokenResult.error e).Outside := by
  rintro t ts ⟨⟩

/-- A choice stays outside when both sides do. -/
theorem TokenResult.Outside.ite {p : Prop} [Decidable p] {r r' : TokenResult}
    (hr : p → r.Outside) (hr' : ¬p → r'.Outside) : (if p then r else r').Outside := by
  split
  · exact hr ‹_›
  · exact hr' ‹_›

section Outside

variable {enc : Encoding} {ts ts' : TokenizerState} {c : CodePoint} {rest : List UInt8}
  {t : TreToken}

/-- A brace token stays outside. -/
theorem braceToken_outside (hts : ts.mode ≠ .bracket) (hp : ts.pending ≠ some .lbracket) :
    (braceToken enc ts c rest).Outside := by
  unfold braceToken
  split_ifs
  · exact .token (by simp) (by simp) hp
  · exact .token (by simp) hts hp
  · split
    · exact .error _
    · split_ifs
      · exact .error _
      · exact .token (by simp) (by simp) hp
  · split
    · exact .error _
    · split_ifs
      · exact .error _
      · exact .token (by simp) hts hp
  · exact .error _

/-- A lookaround token stays outside. -/
theorem lookaroundToken_outside (hts : ts.mode ≠ .bracket) : (lookaroundToken ts rest).Outside := by
  unfold lookaroundToken
  split
  · exact .error _
  · exact .token (by simp) hts (by simp)

/-- Giving up stays outside. -/
theorem giveUpToken_outside (hts : ts.mode ≠ .bracket) (hp : ts.pending ≠ some .lbracket) :
    (giveUpToken ts).Outside := .token (by simp) hts hp

/-- A parenthesis token stays outside. -/
theorem parenToken_outside (hts : ts.mode ≠ .bracket) (hp : ts.pending ≠ some .lbracket) :
    (parenToken ts rest).Outside := by
  unfold parenToken
  split
  · split_ifs
    · split
      · exact giveUpToken_outside hts hp
      · split_ifs
        · exact .token (by simp) hts hp
        · exact lookaroundToken_outside hts
        · exact lookaroundToken_outside hts
        · exact giveUpToken_outside hts hp
    · exact .token (by simp) hts hp
  · exact .token (by simp) hts hp

/-- Outside brackets only the opening bracket leads inside. -/
theorem normalToken_cases (hts : ts.mode ≠ .bracket) (hp : ts.pending ≠ some .lbracket)
    (h : normalToken enc ts c rest = .token t ts') :
    t = .lbracket ∧ ts' = { ts with rest := rest, mode := .bracket, bracketFirst := true } ∨
      t ≠ .lbracket ∧ ts'.mode ≠ .bracket ∧ ts'.pending ≠ some .lbracket := by
  by_cases hc : c = cp '['
  · subst hc
    left
    have heq : normalToken enc ts (cp '[') rest =
        .token .lbracket { ts with rest := rest, mode := .bracket, bracketFirst := true } := by
      simp [normalToken, cp]
    cases heq.symm.trans h
    exact ⟨rfl, rfl⟩
  · right
    have hout : (normalToken enc ts c rest).Outside := by
      unfold normalToken
      repeat' refine .ite (fun _ => ?_) (fun _ => ?_)
      all_goals first | exact .token (by simp) hts hp | exact parenToken_outside hts hp | skip
      · contradiction
      · exact .token (by simp) (by simp) hp
      · split
        · exact .error _
        · exact .token (by simp) hts hp
        · exact giveUpToken_outside hts hp
        · exact .token (by simp) hts hp
    exact hout t ts' h

/-- Outside brackets a bracket opens with the token for it. -/
theorem tokenizeNext_cases (hts : ts.mode ≠ .bracket) (hpending : ts.pending ≠ some .lbracket)
    (h : tokenizeNext enc .index ts = .token t ts') :
    t = .lbracket ∧ ts'.mode = .bracket ∧ ts'.bracketFirst = true ∧ ts'.pending = none ∨
      t ≠ .lbracket ∧ ts'.mode ≠ .bracket ∧ ts'.pending ≠ some .lbracket := by
  unfold tokenizeNext at h
  cases hp : ts.pending with
  | some t' =>
    simp only [hp, TokenResult.token.injEq] at h
    obtain ⟨rfl, rfl⟩ := h
    exact Or.inr ⟨fun heq => hpending (heq ▸ hp), hts, by simp⟩
  | none =>
    simp only [hp] at h
    cases hchar : enc.nextChar ts.rest with
    | ended => simp [hchar] at h
    | invalid => simp [hchar] at h
    | char c rest =>
      simp only [hchar] at h
      cases hmode : ts.mode with
      | bracket => exact absurd hmode hts
      | normal =>
        simp only [hmode] at h
        rcases normalToken_cases hts hpending h with ⟨ht, rfl⟩ | hout
        · exact Or.inl ⟨ht, rfl, rfl, hp⟩
        · exact Or.inr hout
      | brace =>
        simp only [hmode] at h
        exact Or.inr (braceToken_outside hts hpending t ts' h)
      | braceApprox =>
        simp only [hmode] at h
        exact Or.inr (braceToken_outside hts hpending t ts' h)

end Outside

/-- Inside brackets both tokenizers read the same, unless they read a backslash, or a caret that is
not first. -/
theorem bracketToken_same {enc : Encoding} {ts ts' : TokenizerState} {c : CodePoint}
    {rest : List UInt8} {t : TreToken} (reading : BracketReading) (isOpaque : Bool)
    (hc : c ≠ cp '\\') (hcaret : c = cp '^' → ts.bracketFirst = true)
    (h : bracketToken enc .index ts c rest = .token t ts') :
    (t = .rbracket ts.bracketOpaque ∧ ts'.mode = .normal ∧ ts'.pending = ts.pending ∧
      bracketToken enc reading { ts with bracketOpaque := isOpaque } c rest =
        .token (.rbracket isOpaque) ts') ∨
    ((∀ o, t ≠ .rbracket o) ∧ ts'.mode = ts.mode ∧ ts'.pending = ts.pending ∧
      ts'.bracketOpaque = ts.bracketOpaque ∧
      bracketToken enc reading { ts with bracketOpaque := isOpaque } c rest =
        .token t { ts' with bracketOpaque := isOpaque }) ∨
    ((∀ o, t ≠ .rbracket o) ∧ ts'.mode = ts.mode ∧ ts'.pending = ts.pending ∧
      ts'.bracketOpaque = true ∧
      bracketToken enc reading { ts with bracketOpaque := isOpaque } c rest = .token t ts') := by
  unfold bracketToken at h ⊢
  dsimp only at h ⊢
  by_cases hclose : c = cp ']'
  · simp only [if_pos hclose] at h ⊢
    by_cases hfirst : ts.bracketFirst = true
    · simp only [if_pos hfirst] at h ⊢
      cases h
      exact Or.inr (Or.inl ⟨by simp, rfl, rfl, rfl, rfl⟩)
    · simp only [if_neg hfirst] at h ⊢
      cases h
      exact Or.inl ⟨rfl, rfl, rfl, rfl⟩
  simp only [if_neg hclose] at h ⊢
  right
  by_cases hdash : c = cp '-'
  · simp only [if_pos hdash] at h ⊢
    left
    by_cases hmember : ts.bracketFirst = true ∨ rest.head? = some (byte ']')
    · simp only [if_pos hmember] at h ⊢
      cases h
      exact ⟨by simp, rfl, rfl, rfl, rfl⟩
    · simp only [if_neg hmember] at h ⊢
      cases h
      exact ⟨by simp, rfl, rfl, rfl, rfl⟩
  simp only [if_neg hdash] at h ⊢
  by_cases hcaret' : c = cp '^'
  · simp only [if_pos hcaret', if_pos (hcaret hcaret')] at h ⊢
    cases h
    exact Or.inl ⟨by simp, rfl, rfl, rfl, rfl⟩
  simp only [if_neg hcaret', if_neg hc] at h ⊢
  cases rest with
  | nil =>
    cases h
    exact Or.inl ⟨by simp, rfl, rfl, rfl, rfl⟩
  | cons delim rest =>
    by_cases hnamed : c = cp '[' ∧ isNamedDelim delim = true
    · simp only [if_pos hnamed] at h ⊢
      right
      cases hend : namedEnd delim rest with
      | none =>
        simp only [hend] at h
        cases h
      | some rest' =>
        simp only [hend] at h ⊢
        cases h
        exact ⟨by simp, rfl, rfl, rfl, rfl⟩
    · simp only [if_neg hnamed] at h ⊢
      cases h
      exact Or.inl ⟨by simp, rfl, rfl, rfl, rfl⟩

/-- The character is a member: it neither closes the bracket nor begins a named class. -/
def isMember (c : CodePoint) (rest : List UInt8) : Bool :=
  decide (c ≠ cp ']') && !(decide (c = cp '[') && rest.head?.any isNamedDelim)

/-- A member is read as one, by POSIX also if it is a backslash. -/
theorem bracketToken_member (enc : Encoding) {reading : BracketReading} {ts : TokenizerState}
    {c : CodePoint} {rest : List UInt8} (hc : isMember c rest = true)
    (hslash : c = cp '\\' → reading = .posix) (hcaret : c = cp '^' → ts.bracketFirst = false) :
    ∃ t, (∀ o, t ≠ .rbracket o) ∧ bracketToken enc reading ts c rest =
      .token t { ts with rest := rest, bracketFirst := false } := by
  simp only [isMember, Bool.and_eq_true, Bool.not_eq_true', decide_eq_true_eq] at hc
  obtain ⟨hclose, hnamed⟩ := hc
  unfold bracketToken
  dsimp only
  rw [if_neg hclose]
  by_cases hdash : c = cp '-'
  · rw [if_pos hdash]
    split
    · exact ⟨_, by simp, rfl⟩
    · exact ⟨_, by simp, rfl⟩
  rw [if_neg hdash]
  by_cases hcaret' : c = cp '^'
  · rw [if_pos hcaret', if_neg (by simp [hcaret hcaret'])]
    split
    · exact ⟨_, by simp, rfl⟩
    · exact ⟨_, by simp, rfl⟩
  rw [if_neg hcaret']
  by_cases hback : c = cp '\\'
  · rw [if_pos hback, hslash hback]
    exact ⟨_, by simp, rfl⟩
  rw [if_neg hback]
  split
  · rename_i delim rest'
    rw [if_neg (by simpa using hnamed)]
    exact ⟨_, by simp, rfl⟩
  · exact ⟨_, by simp, rfl⟩

/-- The index reads an escape in a bracket as one opaque literal. -/
theorem bracketEscape_index {enc : Encoding} {ts ts' : TokenizerState} {rest : List UInt8}
    {t : TreToken} (h : bracketEscape enc .index ts rest = .token t ts') :
    ∃ e rest', parseEscape enc rest = .ok (e, rest') ∧ t = .literal 0 ∧
      ts' = { ts with rest := rest', bracketFirst := false, bracketOpaque := true } := by
  unfold bracketEscape at h
  cases hescape : parseEscape enc rest with
  | error e => simp [hescape] at h
  | ok p =>
    simp only [hescape, TokenResult.token.injEq] at h
    exact ⟨p.1, p.2, rfl, h.1.symm, h.2.symm⟩

/-- An escape is as long as the index reads it. -/
theorem areEscape_ok {enc : Encoding} {ts ts' : TokenizerState} {rest rest' : List UInt8}
    {t : TreToken} {e : Escape} (hescape : parseEscape enc rest = .ok (e, rest'))
    (h : areEscape enc ts rest = .token t ts') :
    ∃ c o, t = .literal c ∧
      ts' = { ts with rest := rest', bracketFirst := false, bracketOpaque := o } := by
  unfold areEscape at h
  cases e with
  | char c =>
    simp only [hescape, TokenResult.token.injEq] at h
    exact ⟨c, ts.bracketOpaque, h.1.symm, h.2.symm⟩
  | _ =>
    simp only [hescape, TokenResult.token.injEq] at h
    exact ⟨0, true, h.1.symm, h.2.symm⟩

/-- So does an engine that reads escapes, but for `\c` in the core engine. -/
theorem bracketEscape_are {enc : Encoding} {reading : BracketReading} {ts ts' : TokenizerState}
    {rest rest' : List UInt8} {t : TreToken} {e : Escape} (hreading : reading ≠ .posix)
    (hcontrol : reading = .core → rest.head? ≠ some (byte 'c'))
    (hescape : parseEscape enc rest = .ok (e, rest'))
    (h : bracketEscape enc reading ts rest = .token t ts') :
    ∃ c o, t = .literal c ∧
      ts' = { ts with rest := rest', bracketFirst := false, bracketOpaque := o } := by
  unfold bracketEscape at h
  cases reading with
  | posix => exact absurd rfl hreading
  | index =>
    simp only [hescape, TokenResult.token.injEq] at h
    exact ⟨0, true, h.1.symm, h.2.symm⟩
  | are => exact areEscape_ok hescape h
  | core =>
    simp only [if_neg (hcontrol rfl)] at h
    exact areEscape_ok hescape h

/-! ## The loops -/

/-- Inside a bracket the tokenizer reads members. -/
theorem tokenizeNext_bracket {enc : Encoding} (reading : BracketReading) {ts : TokenizerState}
    {c : CodePoint} {rest : List UInt8} (hmode : ts.mode = .bracket) (hpending : ts.pending = none)
    (hchar : enc.nextChar ts.rest = .char c rest) :
    tokenizeNext enc reading ts = bracketToken enc reading ts c rest := by
  simp [tokenizeNext, hmode, hpending, hchar]

/-- A backslash in a bracket is read as an escape. -/
theorem bracketToken_backslash {enc : Encoding} {reading : BracketReading} {ts : TokenizerState}
    {rest : List UInt8} :
    bracketToken enc reading ts (cp '\\') rest = bracketEscape enc reading ts rest := by
  simp [bracketToken, cp]

section Bracket

variable {enc : Encoding} {reading : BracketReading} {fuel : ℕ} (ts : TokenizerState)
  {ps : ParserState} {phase : ClassPhase} {r : RegexAst × Bool}

/-- A pattern does not end inside brackets. -/
theorem parseLoop_bracket_char (hpending : ts.pending = none)
    (hps : ps.inside = .bracket phase) (h : parseLoop enc reading fuel ts ps = .ok r) :
    ∃ c rest, enc.nextChar ts.rest = .char c rest := by
  rcases parseLoop_eq_ok h with ⟨-, hfinish, -⟩ | ⟨n, t, ts', ps', -, htoken, -, -⟩
  · cases hps.symm.trans (ParserState.finish_inside hfinish).2.1
  · unfold tokenizeNext at htoken
    simp only [hpending] at htoken
    cases hchar : enc.nextChar ts.rest with
    | char c rest => exact ⟨c, rest, rfl⟩
    | _ => simp [hchar] at htoken

/-- Inside a bracket the parse reads one more member. -/
theorem parseLoop_bracket {c : CodePoint} {rest : List UInt8} (hmode : ts.mode = .bracket)
    (hpending : ts.pending = none) (hchar : enc.nextChar ts.rest = .char c rest)
    (hps : ps.inside = .bracket phase) (h : parseLoop enc reading fuel ts ps = .ok r) :
    ∃ n t ts' ps', fuel = n + 1 ∧ tokenizeNext enc reading ts = .token t ts' ∧
      bracketToken enc reading ts c rest = .token t ts' ∧ ps.shift t = .ok ps' ∧
      parseLoop enc reading n ts' ps' = .ok r := by
  rcases parseLoop_eq_ok h with ⟨-, hfinish, -⟩ | ⟨n, t, ts', ps', hn, htoken, hshift, hloop⟩
  · cases hps.symm.trans (ParserState.finish_inside hfinish).2.1
  · refine ⟨n, t, ts', ps', hn, htoken, ?_, hshift, hloop⟩
    rw [← htoken, tokenizeNext_bracket reading hmode hpending hchar]

end Bracket

section Skip

variable {enc : Encoding} {reading : BracketReading} {fuel : ℕ} (us : TokenizerState) (qs : ParserState)
  {phase : ClassPhase} {c : CodePoint} {rest : List UInt8} {r : RegexAst × Bool}

/-- A member is read and the bracket stays open. -/
theorem parseLoop_member (hmode : us.mode = .bracket) (hpending : us.pending = none)
    (hchar : enc.nextChar us.rest = .char c rest) (hc : isMember c rest = true)
    (hslash : c = cp '\\' → reading = .posix) (hcaret : c = cp '^' → us.bracketFirst = false)
    (hqs : qs.inside = .bracket phase) (h : parseLoop enc reading fuel us qs = .ok r) :
    ∃ n t phase', fuel = n + 1 ∧
      tokenizeNext enc reading us = .token t { us with rest := rest, bracketFirst := false } ∧
      phase' ≠ .opened ∧
      parseLoop enc reading n { us with rest := rest, bracketFirst := false }
        { qs with inside := .bracket phase' } = .ok r := by
  obtain ⟨t, ht, htoken⟩ := bracketToken_member enc hc hslash hcaret
  obtain ⟨n, t', us', qs', hn, hnext, htoken', hshift, hloop⟩ :=
    parseLoop_bracket us hmode hpending hchar hqs h
  cases htoken.symm.trans htoken'
  obtain ⟨phase', -, hopened, rfl⟩ := ParserState.shift_bracket hqs ht hshift
  exact ⟨n, t, phase', hn, hnext, hopened, hloop⟩

/-- So it is by POSIX. -/
theorem parseLoop_posix_member (hmode : us.mode = .bracket) (hpending : us.pending = none)
    (hchar : enc.nextChar us.rest = .char c rest) (hc : isMember c rest = true)
    (hcaret : c = cp '^' → us.bracketFirst = false) (hqs : qs.inside = .bracket phase)
    (h : parseLoop enc .posix fuel us qs = .ok r) :
    ∃ fuel' phase', parseLoop enc .posix fuel' { us with rest := rest, bracketFirst := false }
      { qs with inside := .bracket phase' } = .ok r := by
  obtain ⟨n, t, phase', -, -, -, hloop⟩ :=
    parseLoop_member us qs hmode hpending hchar hc (fun _ => rfl) hcaret hqs h
  exact ⟨n, phase', hloop⟩

/-- The digits and braces of a character code are members. -/
theorem parseLoop_posix_code (hmode : us.mode = .bracket) (hpending : us.pending = none)
    (hfirst : us.bracketFirst = false) (hqs : qs.inside = .bracket phase)
    (h : parseLoop enc .posix fuel us qs = .ok r) :
    ∃ fuel' phase', parseLoop enc .posix fuel' { us with rest := us.rest.dropWhile isCodeByte }
      { qs with inside := .bracket phase' } = .ok r := by
  obtain ⟨bytes, mode, first, isOpaque, pending, force⟩ := us
  induction bytes generalizing fuel qs phase with
  | nil => exact ⟨fuel, phase, by rw [← hqs]; exact h⟩
  | cons b bytes ih =>
    by_cases hb : isCodeByte b = true
    · obtain ⟨hlt, hopen, hclose, hcaret⟩ := isCodeByte_bounds hb
      have hchar : enc.nextChar (b :: bytes) = .char b.toNat bytes := by
        rw [Encoding.nextChar, if_pos (UInt8.lt_iff_toNat_lt.mpr hlt)]
      have hmember : isMember b.toNat bytes = true := by
        simp [isMember, cp, hopen, hclose]
      have hnocaret : b.toNat = cp '^' → first = false := fun heq => absurd heq hcaret
      obtain ⟨fuel', phase', h⟩ :=
        parseLoop_posix_member _ qs hmode hpending hchar hmember hnocaret hqs h
      obtain rfl : first = false := hfirst
      obtain ⟨fuel'', phase'', h⟩ := ih { qs with inside := .bracket phase' } rfl hmode hpending rfl h
      exact ⟨fuel'', phase'', by simpa [List.dropWhile_cons, hb] using h⟩
    · refine ⟨fuel, phase, ?_⟩
      rw [← hqs, List.dropWhile_cons_of_neg hb]
      exact h

/-- What the index skips behind a backslash is members, if the first character is one. -/
theorem parseLoop_posix_escape {e : Escape} {rest' : List UInt8} (hmode : us.mode = .bracket)
    (hpending : us.pending = none) (hchar : enc.nextChar us.rest = .char (cp '\\') rest)
    (hescape : parseEscape enc rest = .ok (e, rest'))
    (hsafe : ∀ c rest'', enc.nextChar rest = .char c rest'' → isMember c rest'' = true)
    (hqs : qs.inside = .bracket phase) (h : parseLoop enc .posix fuel us qs = .ok r) :
    ∃ fuel' phase', parseLoop enc .posix fuel' { us with rest := rest', bracketFirst := false }
      { qs with inside := .bracket phase' } = .ok r := by
  obtain ⟨c, rest'', hchar', hrest⟩ := parseEscape_rest hescape
  obtain ⟨fuel₁, phase₁, h₁⟩ := parseLoop_posix_member us qs hmode hpending hchar
    (by simp [isMember, cp]) (by simp [cp]) hqs h
  -- the character behind the backslash is not first any more
  obtain ⟨fuel₂, phase₂, h₂⟩ := parseLoop_posix_member
    { us with rest := rest, bracketFirst := false } { qs with inside := .bracket phase₁ }
    hmode hpending hchar' (hsafe c rest'' hchar') (fun _ => rfl) rfl h₁
  rcases hrest with rfl | rfl
  · exact ⟨fuel₂, phase₂, h₂⟩
  · exact parseLoop_posix_code { us with rest := rest'', bracketFirst := false }
      { qs with inside := .bracket phase₂ } hmode hpending rfl rfl h₂

end Skip

/-! ## Side by side -/

/-- If a backslash comes next, a member comes behind it. -/
def escapeSafe (enc : Encoding) (rest : List UInt8) : Bool :=
  match enc.nextChar rest with
  | .char c rest' =>
      decide (c ≠ cp '\\') ||
        match enc.nextChar rest' with
        | .char c' rest'' => isMember c' rest''
        | _ => true
  | _ => true

/-- If `\c` comes next, a member comes behind it that is no backslash. -/
def controlSafe (enc : Encoding) (rest : List UInt8) : Bool :=
  match enc.nextChar rest with
  | .char c rest' =>
      decide (c ≠ cp '\\') || decide (rest'.head? ≠ some (byte 'c')) ||
        match enc.nextChar rest'.tail with
        | .char c' rest'' => isMember c' rest'' && decide (c' ≠ cp '\\')
        | _ => true
  | _ => true

/-- What comes next inside brackets is always as asked, from this state of the tokenizer on. -/
def insideBrackets (asked : List UInt8 → Bool) (enc : Encoding) : ℕ → TokenizerState → Bool
  | 0, _ => true
  | fuel + 1, ts =>
      (decide (ts.mode ≠ .bracket) || asked ts.rest) &&
        match treTokenizeNext enc ts with
        | .token _ ts' => insideBrackets asked enc fuel ts'
        | _ => true

/-- What an engine asks of an escape inside brackets, so that it reads as much as the index. -/
def BracketReading.asked (reading : BracketReading) (enc : Encoding) : List UInt8 → Bool :=
  match reading with
  | .posix => escapeSafe enc
  | .core => controlSafe enc
  | _ => fun _ => true

/-- What is asked of the brackets is asked of the current one and of the rest. -/
theorem insideBrackets_succ {asked : List UInt8 → Bool} {enc : Encoding} {fuel : ℕ}
    {ts ts' : TokenizerState} {t : TreToken} (h : insideBrackets asked enc (fuel + 1) ts = true)
    (htoken : tokenizeNext enc .index ts = .token t ts') :
    (ts.mode = .bracket → asked ts.rest = true) ∧ insideBrackets asked enc fuel ts' = true := by
  rw [insideBrackets, treTokenizeNext, htoken, Bool.and_eq_true] at h
  obtain ⟨hhere, hrest⟩ := h
  refine ⟨?_, hrest⟩
  intro hmode
  simpa [hmode] using hhere

/-- Nothing is asked. -/
theorem insideBrackets_true (enc : Encoding) (fuel : ℕ) (ts : TokenizerState) :
    insideBrackets (fun _ => true) enc fuel ts = true := by
  induction fuel generalizing ts with
  | zero => rfl
  | succ fuel ih =>
    rw [insideBrackets, Bool.or_true, Bool.true_and]
    split
    · exact ih _
    · rfl

/-- After a safe backslash every character is a member. -/
theorem escapeSafe_member {enc : Encoding} {bytes rest : List UInt8}
    (hchar : enc.nextChar bytes = .char (cp '\\') rest) (h : escapeSafe enc bytes = true)
    (c : CodePoint) (rest' : List UInt8) (hnext : enc.nextChar rest = .char c rest') :
    isMember c rest' = true := by
  simpa [escapeSafe, hchar, hnext] using h

/-- After a safe control escape the character is a member and no backslash. -/
theorem controlSafe_member {enc : Encoding} {bytes rest rest' : List UInt8} {c : CodePoint}
    (hchar : enc.nextChar bytes = .char (cp '\\') (byte 'c' :: rest))
    (h : controlSafe enc bytes = true) (hnext : enc.nextChar rest = .char c rest') :
    isMember c rest' = true ∧ c ≠ cp '\\' := by
  simpa [controlSafe, hchar, hnext] using h

/-- The index and an engine have read the same bytes: their tokenizers differ at most in whether the
bracket is opaque. In a bracket that is not opaque to the index the parsers are in one phase. -/
structure Synced (ts : TokenizerState) (ps : ParserState) (isOpaque : Bool) (qs : ParserState) :
    Prop where
  opaque_le : isOpaque = true → ts.bracketOpaque = true
  outside : ts.mode ≠ .bracket → isOpaque = ts.bracketOpaque
  parsers : ps.Covers ts.bracketOpaque qs
  mode : ts.mode = .bracket ↔ ∃ phase, ps.inside = .bracket phase
  first : ps.inside = .bracket .opened → ts.bracketFirst = true
  pending : ts.mode = .bracket → ts.pending = none
  noBracket : ts.pending ≠ some .lbracket

section Synced

variable {enc : Encoding} {ts ts' : TokenizerState} {ps ps' qs qs' : ParserState} {o o' : Bool}
  {t : TreToken}

/-- The parsers inside a bracket. -/
theorem Synced.inside (h : Synced ts ps o qs) (hmode : ts.mode = .bracket) :
    ∃ phase phase', ps.inside = .bracket phase ∧ qs.inside = .bracket phase' ∧
      (ts.bracketOpaque = false → phase = phase') := by
  obtain ⟨phase, hphase⟩ := h.mode.mp hmode
  have hinside := h.parsers.inside
  rw [hphase] at hinside
  cases hq : qs.inside with
  | bracket phase' =>
    rw [hq] at hinside
    exact ⟨phase, phase', hphase, rfl, hinside⟩
  | _ =>
    rw [hq] at hinside
    exact hinside.elim

/-- A token outside brackets. -/
theorem Synced.outside_step (h : Synced ts ps o qs) (hmode : ts.mode ≠ .bracket)
    (htoken : tokenizeNext enc .index ts = .token t ts') (hps : ps.shift t = .ok ps')
    (hqs : qs.shift t = .ok qs') : Synced ts' ps' ts'.bracketOpaque qs' := by
  have hinside : ∀ phase, ps.inside ≠ .bracket phase := fun phase hphase =>
    hmode (h.mode.mpr ⟨phase, hphase⟩)
  obtain ⟨hcovers, hcases⟩ :=
    (h.parsers.of_outside ts'.bracketOpaque hinside).shift hinside hps hqs
  rcases tokenizeNext_cases hmode h.noBracket htoken with
    ⟨rfl, hmode', hfirst, hpending⟩ | ⟨ht, hmode', hpending⟩
  · have hopened : ps'.inside = .bracket .opened := by simpa using hcases
    refine ⟨id, fun _ => rfl, hcovers, ?_, fun _ => hfirst, fun _ => hpending, by simp [hpending]⟩
    simp [hmode', hopened]
  · have hout : ∀ phase, ps'.inside ≠ .bracket phase := by simpa [ht] using hcases
    refine ⟨id, fun _ => rfl, hcovers, ?_, fun h => absurd h (hout _), fun h => absurd h hmode',
      hpending⟩
    simp [hmode', hout]

/-- Members of a bracket. -/
theorem Synced.members (h : Synced ts ps o qs) {phase phase' : ClassPhase}
    (hmode : ts'.mode = .bracket) (hpending : ts'.pending = none)
    (ho : o' = true → ts'.bracketOpaque = true) (hopened : phase ≠ .opened)
    (hphase : ts'.bracketOpaque = false → phase = phase') :
    Synced ts' { ps with inside := .bracket phase } o' { qs with inside := .bracket phase' } where
  opaque_le := ho
  outside := fun h => absurd hmode h
  parsers := ⟨h.parsers.stack, h.parsers.frame, hphase⟩
  mode := by simp [hmode]
  first := fun h => absurd (Inside.bracket.inj h) hopened
  pending := fun _ => hpending
  noBracket := by simp [hpending]

/-- The end of a bracket. -/
theorem Synced.close_step (h : Synced ts ps o qs) (hmode : ts.mode = .bracket)
    (hmode' : ts'.mode = .normal) (hpending : ts'.pending = ts.pending)
    (hps : ps.shift (.rbracket ts.bracketOpaque) = .ok ps')
    (hqs : qs.shift (.rbracket o) = .ok qs') : Synced ts' ps' ts'.bracketOpaque qs' := by
  obtain ⟨phase, phase', hphase, hphase', hsame⟩ := h.inside hmode
  obtain ⟨a, ha, rfl⟩ := ParserState.shift_rbracket hphase hps
  obtain ⟨b, hb, rfl⟩ := ParserState.shift_rbracket hphase' hqs
  have hcovers : a.Covers b := by
    cases hlumped : ts.bracketOpaque with
    | true =>
      obtain ⟨negated, body, rfl⟩ := ClassPhase.shift_rbracket ha
      obtain ⟨negated', body', rfl⟩ := ClassPhase.shift_rbracket hb
      rw [hlumped]
      exact RegexAst.any_covers_charclass negated' body' o
    | false =>
      obtain rfl : o = false := by
        by_contra ho
        simp [h.opaque_le (by simpa using ho)] at hlumped
      rw [hsame hlumped, hlumped] at ha
      cases ha.symm.trans hb
      exact RegexAst.Covers.refl a
  refine ⟨id, fun _ => rfl, ⟨h.parsers.stack, h.parsers.frame.addAtom hcovers, trivial⟩, ?_, ?_, ?_, ?_⟩
  · simp [hmode']
  · simp
  · simp [hmode']
  · rw [hpending, h.pending hmode]
    simp

/-- A character inside brackets that is no backslash. -/
theorem Synced.char_step {reading : BracketReading} {c : CodePoint} {rest : List UInt8}
    {us' : TokenizerState} {t' : TreToken} (h : Synced ts ps o qs) (hmode : ts.mode = .bracket)
    (hc : c ≠ cp '\\') (htoken : bracketToken enc .index ts c rest = .token t ts')
    (htoken' : bracketToken enc reading { ts with bracketOpaque := o } c rest = .token t' us')
    (hps : ps.shift t = .ok ps') (hqs : qs.shift t' = .ok qs') :
    ∃ o', us' = { ts' with bracketOpaque := o' } ∧ Synced ts' ps' o' qs' := by
  obtain ⟨phase, phase', hphase, hphase', hsame⟩ := h.inside hmode
  have hpending := h.pending hmode
  have hcaret : c = cp '^' → ts.bracketFirst = true := by
    rintro rfl
    by_contra hfirst
    -- the grammar has a caret only where the bracket opens
    have heq : t = .caret := by
      simp only [bracketToken, cp, hfirst] at htoken
      cases htoken
      rfl
    subst heq
    obtain ⟨p, hp, -, -⟩ := ParserState.shift_bracket hphase (by simp) hps
    cases phase with
    | opened => exact hfirst (h.first hphase)
    | _ => cases hp
  rcases bracketToken_same reading o hc hcaret htoken with
    ⟨rfl, hmode', hp, heq⟩ | ⟨ht, hmode', hp, hlumped, heq⟩ | ⟨ht, hmode', hp, hlumped, heq⟩
  · cases heq.symm.trans htoken'
    exact ⟨ts'.bracketOpaque, rfl, h.close_step hmode hmode' hp hps hqs⟩
  · cases heq.symm.trans htoken'
    obtain ⟨p, hp', hopened, rfl⟩ := ParserState.shift_bracket hphase ht hps
    obtain ⟨q, hq', -, rfl⟩ := ParserState.shift_bracket hphase' ht hqs
    refine ⟨o, rfl, h.members (by rw [hmode', hmode]) (by rw [hp, hpending])
      (by rw [hlumped]; exact h.opaque_le) hopened ?_⟩
    intro hclear
    rw [hsame (hlumped ▸ hclear)] at hp'
    cases hp'.symm.trans hq'
    rfl
  · cases heq.symm.trans htoken'
    obtain ⟨p, hp', hopened, rfl⟩ := ParserState.shift_bracket hphase ht hps
    obtain ⟨q, hq', -, rfl⟩ := ParserState.shift_bracket hphase' ht hqs
    refine ⟨ts'.bracketOpaque, rfl, h.members (by rw [hmode', hmode]) (by rw [hp, hpending])
      id hopened ?_⟩
    simp [hlumped]

/-- An escape inside brackets, where the engine reads one as well. -/
theorem Synced.escape_step {reading : BracketReading} {rest : List UInt8} {us' : TokenizerState}
    {t' : TreToken} (h : Synced ts ps o qs) (hmode : ts.mode = .bracket) (hreading : reading ≠ .posix)
    (hcontrol : reading = .core → rest.head? ≠ some (byte 'c'))
    (htoken : bracketEscape enc .index ts rest = .token t ts')
    (htoken' : bracketEscape enc reading { ts with bracketOpaque := o } rest = .token t' us')
    (hps : ps.shift t = .ok ps') (hqs : qs.shift t' = .ok qs') :
    ∃ o', us' = { ts' with bracketOpaque := o' } ∧ Synced ts' ps' o' qs' := by
  obtain ⟨phase, phase', hphase, hphase', -⟩ := h.inside hmode
  obtain ⟨e, rest', hescape, rfl, rfl⟩ := bracketEscape_index htoken
  obtain ⟨c, o', rfl, rfl⟩ := bracketEscape_are hreading hcontrol hescape htoken'
  obtain ⟨p, -, hopened, rfl⟩ := ParserState.shift_bracket hphase (by simp) hps
  obtain ⟨q, -, -, rfl⟩ := ParserState.shift_bracket hphase' (by simp) hqs
  exact ⟨o', rfl, h.members hmode (h.pending hmode) (fun _ => rfl) hopened (by simp)⟩

/-- To the index `\c` is an escape without the character behind it. -/
theorem parseEscape_control {enc : Encoding} {rest : List UInt8} :
    parseEscape enc (byte 'c' :: rest) = .ok (.unknown, rest) := by
  have hchar : enc.nextChar (byte 'c' :: rest) = .char 99 rest := by
    rw [Encoding.nextChar, if_pos (by decide)]
    rfl
  rw [parseEscape, hchar]
  rfl

/-- `\c` and a character in the core engine. The index reads the character as a member. -/
theorem Synced.control_step {fuel fuel' : ℕ} {rest : List UInt8} {r r' : RegexAst × Bool}
    {phase phase' : ClassPhase} (h : Synced ts ps o qs) (hmode : ts.mode = .bracket)
    (hchar : enc.nextChar ts.rest = .char (cp '\\') (byte 'c' :: rest))
    (hphase : ps.inside = .bracket phase) (hphase' : qs.inside = .bracket phase')
    (hsafe : insideBrackets (controlSafe enc) enc fuel ts = true)
    (hr : parseLoop enc .index fuel ts ps = .ok r)
    (hr' : parseLoop enc .core fuel' { ts with bracketOpaque := o } qs = .ok r') :
    ∃ m m' us ps' o' qs', m < fuel ∧ Synced us ps' o' qs' ∧
      insideBrackets (controlSafe enc) enc m us = true ∧ parseLoop enc .index m us ps' = .ok r ∧
      parseLoop enc .core m' { us with bracketOpaque := o' } qs' = .ok r' := by
  have hpending := h.pending hmode
  -- the index reads the escape
  obtain ⟨n, t, ts₁, ps₁, rfl, hnext, htoken, hshift, hloop⟩ :=
    parseLoop_bracket ts hmode hpending hchar hphase hr
  obtain ⟨hasked, hsafe₁⟩ := insideBrackets_succ hsafe hnext
  rw [bracketToken_backslash] at htoken
  obtain ⟨e, rest', hescape, rfl, rfl⟩ := bracketEscape_index htoken
  rw [parseEscape_control] at hescape
  obtain ⟨rfl, rfl⟩ := Prod.mk.inj (Except.ok.inj hescape)
  obtain ⟨p₁, -, -, rfl⟩ := ParserState.shift_bracket hphase (by simp) hshift
  -- the core engine reads the character too
  obtain ⟨m', t', us', qs', -, -, htoken', hshift', hloop'⟩ :=
    parseLoop_bracket { ts with bracketOpaque := o } hmode hpending hchar hphase' hr'
  rw [bracketToken_backslash, bracketEscape, List.head?_cons, if_pos rfl, List.tail_cons,
    controlEscape] at htoken'
  split at htoken'
  · cases htoken'
  · cases htoken'
  next c rest'' hnext' =>
    obtain ⟨rfl, rfl⟩ := TokenResult.token.inj htoken'
    obtain ⟨hmember, hslash⟩ := controlSafe_member hchar (hasked hmode) hnext'
    obtain ⟨q, -, -, rfl⟩ := ParserState.shift_bracket hphase' (by simp) hshift'
    obtain ⟨m, t₂, p₂, rfl, hnext₂, hopened, hloop₂⟩ := parseLoop_member
      { ts with rest := rest, bracketFirst := false, bracketOpaque := true }
      { ps with inside := .bracket p₁ } hmode hpending hnext' hmember (fun heq => absurd heq hslash)
      (fun _ => rfl) rfl hloop
    refine ⟨m, m', _, _, o, _, by omega, ?_, (insideBrackets_succ hsafe₁ hnext₂).2, hloop₂, hloop'⟩
    exact h.members hmode hpending (fun _ => rfl) hopened (by simp)

/-- As long as brackets end at one place, the index reads what covers the engine's reading. -/
theorem parseLoop_covers {reading : BracketReading} {fuel fuel' : ℕ} {r r' : RegexAst × Bool}
    (h : Synced ts ps o qs) (hsafe : insideBrackets (reading.asked enc) enc fuel ts = true)
    (hr : parseLoop enc .index fuel ts ps = .ok r)
    (hr' : parseLoop enc reading fuel' { ts with bracketOpaque := o } qs = .ok r') :
    r.1.Covers r'.1 := by
  -- induction on the tokens of the index; one side may need several for one of the other
  induction fuel using Nat.strong_induction_on generalizing fuel' ts ps o qs with
  | _ fuel ih =>
    by_cases hmode : ts.mode = .bracket
    · obtain ⟨phase, phase', hphase, hphase', -⟩ := h.inside hmode
      have hpending := h.pending hmode
      obtain ⟨c, rest, hchar⟩ := parseLoop_bracket_char ts hpending hphase hr
      obtain ⟨n, t, ts', ps', rfl, hnext, htoken, hshift, hloop⟩ :=
        parseLoop_bracket ts hmode hpending hchar hphase hr
      obtain ⟨hasked, hsafe'⟩ := insideBrackets_succ hsafe hnext
      by_cases hc : c = cp '\\'
      · subst hc
        rw [bracketToken_backslash] at htoken
        by_cases hposix : reading = .posix
        · subst hposix
          obtain ⟨e, rest', hescape, rfl, rfl⟩ := bracketEscape_index htoken
          obtain ⟨fuel'', q, hloop'⟩ := parseLoop_posix_escape { ts with bracketOpaque := o } qs hmode
            hpending hchar hescape (escapeSafe_member hchar (hasked hmode)) hphase' hr'
          obtain ⟨p, -, hopened, rfl⟩ := ParserState.shift_bracket hphase (by simp) hshift
          have hsync : Synced
              { ts with rest := rest', bracketFirst := false, bracketOpaque := true }
              { ps with inside := .bracket p } o { qs with inside := .bracket q } :=
            h.members hmode hpending (fun _ => rfl) hopened (by simp)
          exact ih n (Nat.lt_succ_self n) hsync hsafe' hloop hloop'
        · by_cases hcontrol : reading = .core ∧ rest.head? = some (byte 'c')
          · obtain ⟨rfl, hhead⟩ := hcontrol
            obtain ⟨rest', rfl⟩ := List.head?_eq_some_iff.mp hhead
            obtain ⟨m, m', us, ps₂, o', qs₂, hlt, hsync, hsafe₂, hloop₂, hloop₂'⟩ :=
              h.control_step hmode hchar hphase hphase' hsafe hr hr'
            exact ih m hlt hsync hsafe₂ hloop₂ hloop₂'
          · obtain ⟨m', t', us', qs', -, -, htoken', hshift', hloop'⟩ :=
              parseLoop_bracket { ts with bracketOpaque := o } hmode hpending hchar hphase' hr'
            rw [bracketToken_backslash] at htoken'
            obtain ⟨o', rfl, hsync⟩ := h.escape_step hmode hposix
              (fun hcore hhead => hcontrol ⟨hcore, hhead⟩) htoken htoken' hshift hshift'
            exact ih n (Nat.lt_succ_self n) hsync hsafe' hloop hloop'
      · obtain ⟨m', t', us', qs', -, -, htoken', hshift', hloop'⟩ :=
          parseLoop_bracket { ts with bracketOpaque := o } hmode hpending hchar hphase' hr'
        obtain ⟨o', rfl, hsync⟩ := h.char_step hmode hc htoken htoken' hshift hshift'
        exact ih n (Nat.lt_succ_self n) hsync hsafe' hloop hloop'
    · obtain rfl := h.outside hmode
      rcases parseLoop_eq_ok hr with ⟨heof, hfinish, -⟩ | ⟨n, t, ts', ps', rfl, htoken, hshift, hloop⟩
      · rcases parseLoop_eq_ok hr' with ⟨-, hfinish', -⟩ | ⟨-, t', us', -, -, htoken', -, -⟩
        · exact h.parsers.finish hfinish hfinish'
        · cases ((tokenizeNext_of_outside reading hmode).trans heof).symm.trans htoken'
      · rcases parseLoop_eq_ok hr' with ⟨heof, -⟩ | ⟨m', t', us', qs', -, htoken', hshift', hloop'⟩
        · cases ((tokenizeNext_of_outside reading hmode).trans htoken).symm.trans heof
        · cases ((tokenizeNext_of_outside reading hmode).trans htoken).symm.trans htoken'
          exact ih n (Nat.lt_succ_self n) (h.outside_step hmode htoken hshift hshift')
            (insideBrackets_succ hsafe htoken).2 hloop hloop'

end Synced

/-! ## Patterns -/

/-- No backslash inside brackets stands before a closing bracket or a named class. -/
def bracketsSafe (enc : Encoding) (pattern : List UInt8) : Bool :=
  insideBrackets (escapeSafe enc) enc (2 * pattern.length + 1) (initTokenizer pattern)

/-- No `\c` inside brackets stands before a closing bracket, a named class or a backslash. -/
def controlsSafe (enc : Encoding) (pattern : List UInt8) : Bool :=
  insideBrackets (controlSafe enc) enc (2 * pattern.length + 1) (initTokenizer pattern)

/-- The two readings start in step. -/
theorem Synced.start (pattern : List UInt8) :
    Synced (initTokenizer pattern) .start false .start where
  opaque_le := by simp
  outside := fun _ => rfl
  parsers := ⟨.nil, .empty, trivial⟩
  mode := by simp [initTokenizer, ParserState.start]
  first := by simp [ParserState.start]
  pending := by simp [initTokenizer]
  noBracket := by simp [initTokenizer]

/-- The index reads what covers the engine's reading, if the escapes inside brackets are as the engine
asks. -/
theorem parseRegex_covers {enc : Encoding} {reading : BracketReading} {pattern : List UInt8}
    {root root' : RegexAst} {force force' : Bool}
    (hsafe : reading = .posix → bracketsSafe enc pattern = true)
    (hcontrols : reading = .core → controlsSafe enc pattern = true)
    (hparse : treParseRegex enc pattern = .ok (root, force))
    (hengine : parseRegex enc reading pattern = .ok (root', force')) : root.Covers root' := by
  have hasked : insideBrackets (reading.asked enc) enc (2 * pattern.length + 1)
      (initTokenizer pattern) = true := by
    cases reading with
    | posix => exact hsafe rfl
    | core => exact hcontrols rfl
    | _ => exact insideBrackets_true enc _ _
  exact parseLoop_covers (Synced.start pattern) hasked (parseRegex_eq_ok hparse)
    (parseRegex_eq_ok hengine)

/-- A text that an engine matches contains what the index has read. By POSIX this asks that no
backslash inside brackets stands before a closing bracket or a named class. For the control escapes
of the core engine, which may take what ends the bracket, see `parseRegex_covers`. -/
theorem treParseRegex_occursIn {enc : Encoding} {pattern : List UInt8} {root engineRoot : RegexAst}
    {force : Bool} {t : List CodePoint} {reading : BracketReading} (hreading : reading ≠ .core)
    (hsafe : reading = .posix → bracketsSafe enc pattern = true)
    (hparse : treParseRegex enc pattern = .ok (root, false))
    (hengine : parseRegex enc reading pattern = .ok (engineRoot, force))
    (hmatch : engineRoot.OccursIn t) : root.OccursIn t := by
  have hcovers := parseRegex_covers hsafe (fun hcore => absurd hcore hreading) hparse hengine
  exact hcovers.occursIn hmatch

/-- A single-byte encoding. -/
def latin1 : Encoding where
  name := "LATIN1"
  decodeMb := fun b rest => some (b.toNat, rest)
  high := by
    rintro b rest c rest' h
    exact ⟨[], (Prod.mk.inj (Option.some.inj h)).2, by simp⟩
  apart := by
    rintro b tail rest c h rest'
    obtain ⟨rfl, htail⟩ := Prod.mk.inj (Option.some.inj h)
    have hnil : tail = [] := by simpa using htail
    rw [hnil, List.nil_append]

/-- `x[\n]y` matches `x\y` by POSIX. -/
theorem treParseRegex_occursIn_backslashN :
    (RegexAst.concat (.concat (.literal 120) .any) (.literal 121)).OccursIn [120, 92, 121] :=
  @treParseRegex_occursIn latin1 ("x[\\n]y".toList.map byte) _ _ _ _ .posix nofun (fun _ => rfl) rfl rfl
    ⟨[], [120, 92, 121], [], rfl, [120, 92], [121], rfl, ⟨[120], [92], rfl, rfl, 92, rfl, by decide⟩,
      rfl⟩

/-- In `[\]a|b]cde` the bracket ends behind the backslash by POSIX, so that `\a` matches. The index
asks for a character and `cde`. -/
theorem closing_bracket_escaped : ∃ root engineRoot : RegexAst,
    treParseRegex latin1 ("[\\]a|b]cde".toList.map byte) = .ok (root, false) ∧
    parseRegex latin1 .posix ("[\\]a|b]cde".toList.map byte) = .ok (engineRoot, false) ∧
    engineRoot.OccursIn [92, 97] ∧ ¬root.OccursIn [92, 97] := by
  refine ⟨_, _, rfl, rfl, ?_, ?_⟩
  · exact ⟨[], [92, 97], [], rfl, Or.inl ⟨[92], [97], rfl, ⟨92, rfl, by decide⟩, rfl⟩⟩
  · rintro ⟨pre, w, post, ht, u, v, rfl, ⟨u', v', rfl, ⟨u'', v'', rfl, ⟨c, rfl⟩, rfl⟩, rfl⟩, rfl⟩
    have hlength := congrArg List.length ht
    simp only [List.length_append, List.length_cons, List.length_nil] at hlength
    omega

end PgTre
