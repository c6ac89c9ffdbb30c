import PgTre.Query.Extract

/-!
# The anchored-prefix key

`extract_anchored_prefix_key` visits the leaves of the concatenations from left to right with
a stack of 64 pending right operands and takes the first three literals after a start anchor.
`RegexAst.prefixWalk` describes the loop by recursion over the tree, given the height of the
stack. A right operand that finds the stack full is skipped. While none is skipped between the
first and the third literal, the three literals stand side by side in every match.
-/

namespace PgTre

open Strings

/-- The walk over a tree when `sp` right operands are pending. -/
def RegexAst.prefixWalk : RegexAst → ℕ → PrefixWalk → PrefixWalk
  | .concat l r, sp, w =>
      if sp < prefixStackCap then r.prefixWalk sp (l.prefixWalk (sp + 1) w) else l.prefixWalk sp w
  | node, _, w => w.visitLeaf node

/-- The walk over the pending right operands, from the top of the stack down. -/
def prefixRest : List RegexAst → PrefixWalk → PrefixWalk
  | [], w => w
  | node :: stack, w => prefixRest stack (node.prefixWalk stack.length w)

/-- The value returned: the key the walk stopped with, or failure when it ran to the end. -/
def PrefixWalk.result : PrefixWalk → Option ℕ
  | .running _ _ => none
  | .stopped key => key

/-! ## The loop is the walk -/

/-- A walk that has stopped stays stopped. -/
theorem RegexAst.prefixWalk_stopped (ast : RegexAst) (sp : ℕ) (key : Option ℕ) :
    ast.prefixWalk sp (.stopped key) = .stopped key := by
  induction ast generalizing sp with
  | concat l r ihl ihr => simp [prefixWalk, ihl, ihr]
  | _ => rfl

/-- A rest of the walk that has stopped stays stopped. -/
theorem prefixRest_stopped (stack : List RegexAst) (key : Option ℕ) :
    prefixRest stack (.stopped key) = .stopped key := by
  induction stack with
  | nil => rfl
  | cons node stack ih => rw [prefixRest, RegexAst.prefixWalk_stopped, ih]

/-- The iterations the pending operands need: one to take each from the stack, and two for
every node. -/
def stackCost : List RegexAst → ℕ
  | [] => 1
  | node :: stack => 2 * node.size + 1 + stackCost stack

/-- Every tree has a node. -/
theorem RegexAst.size_pos (ast : RegexAst) : 0 < ast.size := by
  cases ast <;> simp [size]

/-- With enough iterations the loop returns what the walk over the node and then over the
stack returns. -/
theorem prefixLoop_eq (fuel : ℕ) :
    (∀ stack w, stackCost stack ≤ fuel →
      prefixLoop fuel none stack w = (prefixRest stack w).result) ∧
    ∀ node stack w, 2 * node.size + stackCost stack ≤ fuel →
      prefixLoop fuel (some node) stack w =
        (prefixRest stack (node.prefixWalk stack.length w)).result := by
  induction fuel with
  | zero =>
    constructor
    · intro stack w h
      cases stack <;> simp [stackCost] at h
    · intro node stack w h
      have := node.size_pos
      omega
  | succ fuel ih =>
    obtain ⟨ihstack, ihnode⟩ := ih
    constructor
    · intro stack w h
      cases w with
      | stopped key =>
        rw [prefixRest_stopped]
        rfl
      | running seen cps =>
        cases stack with
        | nil => rfl
        | cons node stack =>
          simp only [stackCost] at h
          exact ihnode node stack _ (by omega)
    · intro node stack w h
      cases w with
      | stopped key =>
        rw [RegexAst.prefixWalk_stopped, prefixRest_stopped]
        rfl
      | running seen cps =>
        cases node with
        | concat l r =>
          simp only [RegexAst.size] at h
          simp only [prefixLoop, RegexAst.prefixWalk]
          split_ifs with hroom
          · exact ihnode l (r :: stack) _ (by simp only [stackCost]; omega)
          · exact ihnode l stack _ (by omega)
        | _ => exact ihstack stack _ (by simp only [RegexAst.size] at h; omega)

/-- The key is the one the walk over the whole tree stops with. -/
theorem extractAnchoredPrefixKey_eq (root : RegexAst) :
    extractAnchoredPrefixKey root = (root.prefixWalk 0 (.running false [])).result :=
  (prefixLoop_eq _).2 root [] _ (by simp [stackCost])

/-! ## The literals of the key stand side by side -/

/-- What a walk along `u` tells about `u`: the collected literals end it, and the key it
stopped with is the key of one of its trigrams. -/
def PrefixWalk.Describes (u : List CodePoint) : PrefixWalk → Prop
  | .running _ cps => cps <:+ u
  | .stopped none => True
  | .stopped (some key) => ∃ x ∈ windows u, trigramKeyCp x = key

/-- Literals have been collected, but not yet three. -/
def PrefixWalk.midway : PrefixWalk → Bool
  | .running _ cps => !cps.isEmpty
  | .stopped _ => false

/-- No right operand is skipped between the first and the third literal: where the stack is
full, the walk over the left operand ends before the first literal or after the third. -/
def RegexAst.keepsPrefix : RegexAst → ℕ → PrefixWalk → Bool
  | .concat l r, sp, w =>
      if sp < prefixStackCap then
        l.keepsPrefix (sp + 1) w && r.keepsPrefix sp (l.prefixWalk (sp + 1) w)
      else l.keepsPrefix sp w && !(l.prefixWalk sp w).midway
  | _, _, _ => true

/-- A stopped walk, or one without literals, still describes what follows. -/
theorem PrefixWalk.Describes.extend {w : PrefixWalk} {u : List CodePoint} (h : w.Describes u)
    (hmid : w.midway = false) (v : List CodePoint) : w.Describes (u ++ v) := by
  cases w with
  | running seen cps =>
    have hnil : cps = [] := by simpa [midway] using hmid
    rw [hnil]
    exact List.nil_suffix
  | stopped key =>
    cases key with
    | none => trivial
    | some key =>
      obtain ⟨x, hx, hkey⟩ := h
      exact ⟨x, windows_subset_left u v hx, hkey⟩

/-- Visiting a literal. -/
theorem PrefixWalk.Describes.visitLiteral {w : PrefixWalk} {u : List CodePoint}
    (h : w.Describes u) (c : CodePoint) : (w.visitLeaf (.literal c)).Describes (u ++ [c]) := by
  cases w with
  | stopped key => exact h.extend rfl [c]
  | running seen cps =>
    obtain ⟨x, rfl⟩ : cps <:+ u := h
    simp only [visitLeaf]
    split_ifs
    · trivial
    · split
      next a b =>
        refine ⟨(a, b, c), ?_, rfl⟩
        rw [List.append_assoc]
        exact windows_subset_right x [a, b, c] (by simp [windows])
      next =>
        rw [List.append_assoc]
        exact List.suffix_append x _

/-- Walking a tree that keeps the prefix along a match of it. -/
theorem PrefixWalk.Describes.prefixWalk {ast : RegexAst} {sp : ℕ} {w : PrefixWalk}
    {u pre v post : List CodePoint} (h : w.Describes u) (hkeep : ast.keepsPrefix sp w = true)
    (hmatch : ast.Matches pre v post) : (ast.prefixWalk sp w).Describes (u ++ v) := by
  induction ast generalizing sp w u pre v post with
  | literal c =>
    have hv : v = [c] := hmatch
    rw [hv]
    exact h.visitLiteral c
  | anchor which =>
    have hv : v = [] := by cases which <;> exact hmatch.1
    rw [hv, List.append_nil]
    cases w with
    | stopped key => exact h
    | running seen cps =>
      simp only [RegexAst.prefixWalk, visitLeaf]
      split_ifs
      · exact h
      · trivial
      · exact h
  | concat l r ihl ihr =>
    obtain ⟨v₁, v₂, rfl, hl, hr⟩ := hmatch
    rw [RegexAst.keepsPrefix] at hkeep
    rw [RegexAst.prefixWalk, ← List.append_assoc]
    split_ifs at hkeep ⊢ with hroom
    · rw [Bool.and_eq_true] at hkeep
      exact ihr (ihl h hkeep.1 hl) hkeep.2 hr
    · rw [Bool.and_eq_true, Bool.not_eq_true'] at hkeep
      exact (ihl h hkeep.1 hl).extend hkeep.2 v₂
  | any | charclass | alt | rep | approx =>
    cases w with
    | stopped key => exact h.extend rfl v
    | running seen cps => trivial

/-- The key of a tree that keeps its prefix is the key of three consecutive characters of
every text with a match. -/
theorem extractAnchoredPrefixKey_sound (root : RegexAst) (key : ℕ) (t : List CodePoint)
    (hkeep : root.keepsPrefix 0 (.running false []) = true)
    (hkey : extractAnchoredPrefixKey root = some key) (hoccurs : root.OccursIn t) :
    ∃ x ∈ windows t, trigramKeyCp x = key := by
  obtain ⟨pre, v, post, rfl, hmatch⟩ := hoccurs
  rw [extractAnchoredPrefixKey_eq] at hkey
  have hstart : (PrefixWalk.running false []).Describes [] := List.nil_suffix
  have hend := hstart.prefixWalk hkeep hmatch
  cases hwalk : root.prefixWalk 0 (.running false []) with
  | running seen cps => simp [hwalk, PrefixWalk.result] at hkey
  | stopped key' =>
    obtain rfl : key' = some key := by simpa [hwalk, PrefixWalk.result] using hkey
    rw [hwalk] at hend
    obtain ⟨x, hx, hxkey⟩ := hend
    exact ⟨x, windows_subset_right pre _ (windows_subset_left _ post hx), hxkey⟩

/-- The pattern `^(abcd)` followed by `n` times the letter `e`. -/
def groupThenEs (n : ℕ) : RegexAst :=
  (RegexAst.concat (.anchor .start) ((RegexAst.literal 97).followedBy [98, 99, 100])).followedBy
    (List.replicate n 101)

/-- The text `abcd` followed by `n` times the letter `e` has a match of the pattern. -/
theorem groupThenEs_occursIn (n : ℕ) :
    (groupThenEs n).OccursIn ([97, 98, 99, 100] ++ List.replicate n 101) := by
  refine ⟨[], [97, 98, 99, 100] ++ List.replicate n 101, [], by simp, ?_⟩
  refine RegexAst.followedBy_matches ⟨[], [97, 98, 99, 100], rfl, ⟨rfl, rfl⟩, ?_⟩
  exact @RegexAst.followedBy_matches (.literal 97) _ [97] _ _ rfl

/-- The pattern `^(abcd)eeee` keeps its prefix: its key is that of `abc`. -/
theorem extractAnchoredPrefixKey_sound_four :
    (groupThenEs 4).keepsPrefix 0 (.running false []) = true ∧
      extractAnchoredPrefixKey (groupThenEs 4) = some (trigramKeyCp (97, 98, 99)) ∧
      ∃ x ∈ windows ([97, 98, 99, 100] ++ List.replicate 4 101),
        trigramKeyCp x = trigramKeyCp (97, 98, 99) :=
  ⟨by decide, by decide, extractAnchoredPrefixKey_sound (groupThenEs 4) _ _ (by decide) (by decide)
    (groupThenEs_occursIn 4)⟩

/-- With 63 letters after the group the stack is full when the walk enters it: `b` and `c` are
skipped, the key is that of `ade`, and the matching text has no such trigram. -/
theorem groupThenEs_key_absent :
    extractAnchoredPrefixKey (groupThenEs 63) = some (trigramKeyCp (97, 100, 101)) ∧
      (groupThenEs 63).OccursIn ([97, 98, 99, 100] ++ List.replicate 63 101) ∧
      ¬ ∃ x ∈ windows ([97, 98, 99, 100] ++ List.replicate 63 101),
        trigramKeyCp x = trigramKeyCp (97, 100, 101) :=
  ⟨by decide +kernel, groupThenEs_occursIn 63, by decide +kernel⟩

end PgTre
