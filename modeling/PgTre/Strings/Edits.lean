import PgTre.Strings.Windows
import Mathlib.Data.Finset.Card
import Mathlib.Data.Finset.Image
import Mathlib.Order.Interval.Finset.Nat

/-!
# Edit scripts and what survives them

A string is within `k` edits of another when a script of at most `k` insertions,
deletions and substitutions turns the second into the first. Two counting facts
are proved. Of `k + 1` disjoint pieces of the original at least one is untouched,
and of more than `3 k` windows of the original at least one is untouched, since an
edit reaches at most the three windows that overlap its position.
-/

namespace Strings

variable {α : Type*}

/-- `Edits k u v`: a script of at most `k` edits turns `u` into `v`, read from left
to right. -/
inductive Edits : ℕ → List α → List α → Prop
  | nil (k : ℕ) : Edits k [] []
  | keep {k : ℕ} {u v : List α} (a : α) : Edits k u v → Edits k (a :: u) (a :: v)
  | subst {k : ℕ} {u v : List α} (a b : α) : Edits k u v → Edits (k + 1) (a :: u) (b :: v)
  | delete {k : ℕ} {u v : List α} (a : α) : Edits k u v → Edits (k + 1) (a :: u) v
  | insert {k : ℕ} {u v : List α} (b : α) : Edits k u v → Edits (k + 1) u (b :: v)

/-- The empty script. -/
theorem Edits.refl (k : ℕ) (u : List α) : Edits k u u := by
  induction u with
  | nil => exact .nil k
  | cons a u ih => exact .keep a ih

/-- A script without edits changes nothing. -/
theorem Edits.eq_of_zero {u v : List α} (h : Edits 0 u v) : u = v := by
  generalize hk : 0 = k at h
  induction h with
  | nil => rfl
  | keep a _ ih => rw [ih hk]
  | subst | delete | insert => omega

/-- A script on a concatenation splits at the seam, and so does its budget. -/
theorem Edits.append_split {k : ℕ} {u₁ u₂ v : List α} (h : Edits k (u₁ ++ u₂) v) :
    ∃ v₁ v₂ k₁ k₂, v = v₁ ++ v₂ ∧ k₁ + k₂ = k ∧ Edits k₁ u₁ v₁ ∧ Edits k₂ u₂ v₂ := by
  generalize hw : u₁ ++ u₂ = w at h
  induction h generalizing u₁ with
  | nil k =>
    obtain ⟨rfl, rfl⟩ := List.append_eq_nil_iff.mp hw
    exact ⟨[], [], 0, k, rfl, by omega, .nil 0, .nil k⟩
  | @keep k u v a hrest ih =>
    cases u₁ with
    | nil =>
      rw [List.nil_append] at hw
      subst hw
      exact ⟨[], a :: v, 0, k, rfl, by omega, .nil 0, .keep a hrest⟩
    | cons b u₁ =>
      rw [List.cons_append, List.cons.injEq] at hw
      obtain ⟨rfl, hw⟩ := hw
      obtain ⟨v₁, v₂, k₁, k₂, rfl, hk, h₁, h₂⟩ := ih hw
      exact ⟨b :: v₁, v₂, k₁, k₂, rfl, hk, .keep b h₁, h₂⟩
  | @subst k u v a c hrest ih =>
    cases u₁ with
    | nil =>
      rw [List.nil_append] at hw
      subst hw
      exact ⟨[], c :: v, 0, k + 1, rfl, by omega, .nil 0, .subst a c hrest⟩
    | cons b u₁ =>
      rw [List.cons_append, List.cons.injEq] at hw
      obtain ⟨rfl, hw⟩ := hw
      obtain ⟨v₁, v₂, k₁, k₂, rfl, hk, h₁, h₂⟩ := ih hw
      exact ⟨c :: v₁, v₂, k₁ + 1, k₂, rfl, by omega, .subst b c h₁, h₂⟩
  | @delete k u v a hrest ih =>
    cases u₁ with
    | nil =>
      rw [List.nil_append] at hw
      subst hw
      exact ⟨[], v, 0, k + 1, rfl, by omega, .nil 0, .delete a hrest⟩
    | cons b u₁ =>
      rw [List.cons_append, List.cons.injEq] at hw
      obtain ⟨rfl, hw⟩ := hw
      obtain ⟨v₁, v₂, k₁, k₂, rfl, hk, h₁, h₂⟩ := ih hw
      exact ⟨v₁, v₂, k₁ + 1, k₂, rfl, by omega, .delete b h₁, h₂⟩
  | @insert k u v c _ ih =>
    obtain ⟨v₁, v₂, k₁, k₂, rfl, hk, h₁, h₂⟩ := ih hw
    exact ⟨c :: v₁, v₂, k₁ + 1, k₂, rfl, by omega, .insert c h₁, h₂⟩

/-! ## Pieces -/

/-- `Embeds ps w`: the lists `ps` occur in `w` one after the other without overlap. -/
inductive Embeds : List (List α) → List α → Prop
  | nil (w : List α) : Embeds [] w
  | cons (x p : List α) {ps : List (List α)} {w : List α} :
      Embeds ps w → Embeds (p :: ps) (x ++ (p ++ w))

/-- More text in front leaves an embedding in place. -/
theorem Embeds.prepend {ps : List (List α)} {w : List α} (h : Embeds ps w) (x : List α) :
    Embeds ps (x ++ w) := by
  cases h with
  | nil => exact .nil _
  | cons y p h =>
    rw [← List.append_assoc]
    exact .cons (x ++ y) p h

/-- Embeddings side by side. -/
theorem Embeds.append {ps qs : List (List α)} {v w : List α} (hp : Embeds ps v)
    (hq : Embeds qs w) : Embeds (ps ++ qs) (v ++ w) := by
  induction hp with
  | nil v => exact hq.prepend v
  | cons x p _ ih =>
    rw [List.append_assoc, List.append_assoc]
    exact .cons x p ih

/-- **Pigeonhole on pieces.** Each edit spoils at most one of the disjoint pieces, so
with more pieces than edits some piece is still there. -/
theorem Edits.piece_survives {ps : List (List α)} {w s : List α} (hps : Embeds ps w) {k : ℕ}
    (hk : k < ps.length) (h : Edits k w s) : ∃ p ∈ ps, p <:+: s := by
  induction hps generalizing k s with
  | nil => simp at hk
  | @cons x p ps w _ ih =>
    obtain ⟨v₁, v', k₁, k', rfl, hsum, -, h'⟩ := h.append_split
    obtain ⟨v₂, v₃, k₂, k₃, rfl, hsum', h₂, h₃⟩ := h'.append_split
    by_cases hzero : k₂ = 0
    · subst hzero
      refine ⟨p, List.mem_cons_self, ?_⟩
      rw [h₂.eq_of_zero]
      exact ⟨v₁, v₃, by simp⟩
    · have hk₃ : k₃ < ps.length := by
        rw [List.length_cons] at hk
        omega
      obtain ⟨p', hp', hinside⟩ := ih hk₃ h₃
      refine ⟨p', List.mem_cons_of_mem p hp', hinside.trans ?_⟩
      exact ⟨v₁ ++ v₂, [], by simp⟩

/-! ## Windows -/

/-- A script either changes nothing or has a first edit: both strings share the
beginning `u`, the edit replaces at most one element `a` by at most one element `b`,
and the rest is within one edit less. -/
theorem Edits.first_edit {k : ℕ} {w s : List α} (h : Edits k w s) :
    w = s ∨ ∃ u a b w' s' k', k = k' + 1 ∧ w = u ++ (a ++ w') ∧ s = u ++ (b ++ s') ∧
      a.length ≤ 1 ∧ b.length ≤ 1 ∧ 1 ≤ a.length + b.length ∧ Edits k' w' s' := by
  induction h with
  | nil => exact Or.inl rfl
  | keep c _ ih =>
    rcases ih with rfl | ⟨u, a, b, w', s', k', rfl, rfl, rfl, ha, hb, hab, hrest⟩
    · exact Or.inl rfl
    · exact Or.inr ⟨c :: u, a, b, w', s', k', rfl, rfl, rfl, ha, hb, hab, hrest⟩
  | @subst k u v a b hrest => exact Or.inr ⟨[], [a], [b], u, v, k, by simp [hrest]⟩
  | @delete k u v a hrest => exact Or.inr ⟨[], [a], [], u, v, k, by simp [hrest]⟩
  | @insert k u v b hrest => exact Or.inr ⟨[], [], [b], u, v, k, by simp [hrest]⟩

/-- The three elements from index `i` on. -/
def windowAt (w : List α) (i : ℕ) : List α := (w.drop i).take 3

/-- A window of a text occurs in it. -/
theorem windowAt_isInfix (w : List α) (i : ℕ) : windowAt w i <:+: w :=
  (List.take_prefix 3 _).isInfix.trans (List.drop_suffix i w).isInfix

/-- A window that ends inside the first part of an append is a window of that part. -/
theorem windowAt_append_left {u v : List α} {i : ℕ} (hi : i + 3 ≤ u.length) :
    windowAt (u ++ v) i = windowAt u i := by
  unfold windowAt
  rw [List.drop_append_of_le_length (by omega), List.take_append_of_le_length]
  rw [List.length_drop]
  omega

/-- A window that starts in the second part of an append is a window of that part. -/
theorem windowAt_append_right (u v : List α) (i : ℕ) :
    windowAt (u ++ v) (u.length + i) = windowAt v i := by
  unfold windowAt
  rw [List.drop_append, List.drop_eq_nil_of_le (by omega), List.nil_append, Nat.add_sub_cancel_left]

/-- An infix of three elements is a window. -/
theorem mem_windows_of_isInfix {a b c : α} {l : List α} (h : [a, b, c] <:+: l) :
    (a, b, c) ∈ windows l :=
  windows_subset_of_isInfix h (by simp [windows])

/-- Of window positions that all reach behind `n`, at most three do not start at `m` or later. -/
theorem card_le_card_shifted {P : Finset ℕ} {n m : ℕ} (hbehind : ∀ i ∈ P, n < i + 3)
    (hm : m ≤ n + 1) : P.card ≤ ((P.filter (m ≤ ·)).image (· - m)).card + 3 := by
  have hlost : (P.filter (fun i => ¬ m ≤ i)).card ≤ 3 := by
    have hsub : P.filter (fun i => ¬ m ≤ i) ⊆ Finset.Ico (n - 2) (n + 1) := by
      intro i hi
      obtain ⟨hiP, him⟩ := Finset.mem_filter.mp hi
      have hlow := hbehind i hiP
      rw [Finset.mem_Ico]
      omega
    calc _ ≤ (Finset.Ico (n - 2) (n + 1)).card := Finset.card_le_card hsub
      _ ≤ 3 := by rw [Nat.card_Ico]; omega
  have himage : ((P.filter (m ≤ ·)).image (· - m)).card = (P.filter (m ≤ ·)).card := by
    apply Finset.card_image_of_injOn
    intro i hi j hj hij
    have him := (Finset.mem_filter.mp hi).2
    have hjm := (Finset.mem_filter.mp hj).2
    dsimp only at hij
    omega
  have hsplit : (P.filter (m ≤ ·)).card + (P.filter (fun i => ¬ m ≤ i)).card = P.card :=
    Finset.card_filter_add_card_filter_not _
  omega

/-- **Counting windows.** An edit reaches at most the three windows that overlap its
position, so of more than `3 k` windows one is left as it was. -/
theorem Edits.window_survives {k : ℕ} {w s : List α} (h : Edits k w s) {P : Finset ℕ}
    (hP : ∀ i ∈ P, i + 3 ≤ w.length) (hcard : 3 * k < P.card) :
    ∃ i ∈ P, windowAt w i <:+: s := by
  induction k generalizing w s P with
  | zero =>
    obtain ⟨i, hi⟩ := Finset.card_pos.mp (by omega : 0 < P.card)
    exact ⟨i, hi, h.eq_of_zero ▸ windowAt_isInfix w i⟩
  | succ k ih =>
    rcases h.first_edit with rfl | ⟨u, a, b, w', s', k', hk, rfl, rfl, ha, -, -, hrest⟩
    · obtain ⟨i, hi⟩ := Finset.card_pos.mp (by omega : 0 < P.card)
      exact ⟨i, hi, windowAt_isInfix w i⟩
    obtain rfl : k = k' := by omega
    by_cases hbefore : ∃ i ∈ P, i + 3 ≤ u.length
    · obtain ⟨i, hi, hiu⟩ := hbefore
      refine ⟨i, hi, ?_⟩
      rw [windowAt_append_left hiu]
      exact (windowAt_isInfix u i).trans ⟨[], b ++ s', by simp⟩
    push Not at hbefore
    let offset := u.length + a.length
    let rest := (P.filter (offset ≤ ·)).image (· - offset)
    -- Only the three windows around the edit are lost.
    have hrestcard : P.card ≤ rest.card + 3 :=
      card_le_card_shifted hbefore (by dsimp only [offset]; omega)
    have hrestP : ∀ i ∈ rest, i + 3 ≤ w'.length := by
      intro i hi
      obtain ⟨j, hj, rfl⟩ := Finset.mem_image.mp hi
      obtain ⟨hjP, hjo⟩ := Finset.mem_filter.mp hj
      have hjw := hP j hjP
      simp only [List.length_append] at hjw
      dsimp only [offset] at hjo ⊢
      omega
    obtain ⟨i, hi, hinside⟩ := ih hrest hrestP (by omega)
    obtain ⟨j, hj, rfl⟩ := Finset.mem_image.mp hi
    obtain ⟨hjP, hjo⟩ := Finset.mem_filter.mp hj
    refine ⟨j, hjP, ?_⟩
    have hwindow : windowAt (u ++ (a ++ w')) j = windowAt w' (j - offset) := by
      have hshift := windowAt_append_right (u ++ a) w' (j - offset)
      rwa [List.append_assoc, List.length_append,
        show u.length + a.length + (j - offset) = j by dsimp only [offset] at hjo ⊢; omega]
        at hshift
    rw [hwindow]
    exact hinside.trans ⟨u ++ b, [], by simp⟩

/-- Three elements at consecutive indices are the window there. -/
theorem windowAt_eq {w : List α} {i : ℕ} {a b c : α} (ha : w[i]? = some a) (hb : w[i + 1]? = some b)
    (hc : w[i + 2]? = some c) : windowAt w i = [a, b, c] ∧ i + 3 ≤ w.length := by
  obtain ⟨hi, rfl⟩ := List.getElem?_eq_some_iff.mp ha
  obtain ⟨hi₁, rfl⟩ := List.getElem?_eq_some_iff.mp hb
  obtain ⟨hi₂, rfl⟩ := List.getElem?_eq_some_iff.mp hc
  refine ⟨?_, by omega⟩
  unfold windowAt
  rw [List.drop_eq_getElem_cons hi, List.drop_eq_getElem_cons hi₁, List.drop_eq_getElem_cons hi₂]
  rfl

/-- `OneOff s x y`: the window `y` differs from `x` at most in one place, which holds an
element of `s`. -/
def OneOff (s : List α) (x y : α × α × α) : Prop :=
  ∃ e ∈ s, y = (e, x.2.1, x.2.2) ∨ y = (x.1, e, x.2.2) ∨ y = (x.1, x.2.1, e)

/-- Before an edit the elements stay where they were. -/
theorem getElem?_before_edit {u a b w : List α} {n : ℕ} (hn : n < u.length) :
    (u ++ (b ++ w))[n]? = (u ++ (a ++ w))[n]? := by
  rw [List.getElem?_append_left hn, List.getElem?_append_left hn]

/-- Behind an edit they are moved by the difference of the lengths. -/
theorem getElem?_after_edit {u a b w : List α} {n : ℕ} (hn : u.length ≤ n) :
    (u ++ (b ++ w))[n + b.length]? = (u ++ (a ++ w))[n + a.length]? := by
  rw [List.getElem?_append_right (by omega), List.getElem?_append_right (by omega),
    List.getElem?_append_right (by omega), List.getElem?_append_right (by omega)]
  congr 1
  omega

/-- An edit that falls into both windows, which then overlap and do not start at it: one of them
is left with one element replaced. -/
private theorem near_window_overlap {u a b w : List α} {i j : ℕ} (hij : i < j)
    {x y : α × α × α}
    (hx : (u ++ (a ++ w))[i]? = some x.1 ∧ (u ++ (a ++ w))[i + 1]? = some x.2.1 ∧
      (u ++ (a ++ w))[i + 2]? = some x.2.2)
    (hy : (u ++ (a ++ w))[j + 1]? = some y.2.1 ∧ (u ++ (a ++ w))[j + 2]? = some y.2.2)
    (ha : a.length ≤ 1) (hb : b.length ≤ 1) (hab : 0 < a.length + b.length)
    (hleft : u.length < i + 3) (hright : j < u.length + a.length) :
    ∃ z ∈ windows (u ++ (b ++ w)), OneOff (u ++ (b ++ w)) x z ∨ OneOff (u ++ (b ++ w)) y z := by
  obtain ⟨hx₀, hx₁, hx₂⟩ := hx
  obtain ⟨hy₁, hy₂⟩ := hy
  have hfirst := (@getElem?_before_edit _ u a b w i (by omega)).trans hx₀
  have hmid (hlen : u.length = i + 2) :=
    (@getElem?_before_edit _ u a b w (i + 1) (by omega)).trans hx₁
  rcases Nat.eq_zero_or_pos b.length with hdel | hsub
  · have hkeep (n : ℕ) (hn : u.length ≤ n) := @getElem?_after_edit _ u a b w n hn
    rw [hdel, show a.length = 1 by omega] at hkeep
    by_cases hlen : u.length = i + 2
    · obtain ⟨e, he⟩ : ∃ e, (u ++ (a ++ w))[i + 3]? = some e :=
        ⟨_, List.getElem?_eq_getElem (by
          obtain ⟨hlt, -⟩ := List.getElem?_eq_some_iff.mp hy₂
          omega)⟩
      have hlast := (hkeep (i + 2) (by omega)).trans he
      exact ⟨(x.1, x.2.1, e), mem_windows_iff.mpr ⟨i, hfirst, hmid hlen, hlast⟩,
        Or.inl ⟨e, List.mem_of_getElem? hlast, Or.inr (Or.inr rfl)⟩⟩
    · obtain rfl : j = i + 1 := by omega
      have hsecond := (hkeep (i + 1) (by omega)).trans hy₁
      have hthird := (hkeep (i + 2) (by omega)).trans hy₂
      exact ⟨(x.1, y.2.1, y.2.2), mem_windows_iff.mpr ⟨i, hfirst, hsecond, hthird⟩,
        Or.inr ⟨x.1, List.mem_of_getElem? hfirst, Or.inl rfl⟩⟩
  · obtain ⟨e, rfl⟩ := List.length_eq_one_iff.mp (by omega : b.length = 1)
    have hnew : (u ++ ([e] ++ w))[u.length]? = some e := by simp
    by_cases hlen : u.length = i + 2
    · rw [hlen] at hnew
      exact ⟨(x.1, x.2.1, e), mem_windows_iff.mpr ⟨i, hfirst, hmid hlen, hnew⟩,
        Or.inl ⟨e, List.mem_of_getElem? hnew, Or.inr (Or.inr rfl)⟩⟩
    · have hone : a.length = 1 := by omega
      have hlen' : u.length = i + 1 := by omega
      rw [hlen'] at hnew
      have hlast := @getElem?_after_edit _ u a [e] w (i + 1) (by omega)
      rw [hone, List.length_singleton] at hlast
      exact ⟨(x.1, e, x.2.2), mem_windows_iff.mpr ⟨i, hfirst, hnew, hlast.trans hx₂⟩,
        Or.inl ⟨e, List.mem_of_getElem? hnew, Or.inr (Or.inl rfl)⟩⟩

/-- A single edit leaves, of any two windows at different positions, one as it was or with one
element replaced. -/
theorem Edits.near_window {w s : List α} (h : Edits 1 w s) {i j : ℕ} (hij : i < j) {x y : α × α × α}
    (hx : w[i]? = some x.1 ∧ w[i + 1]? = some x.2.1 ∧ w[i + 2]? = some x.2.2)
    (hy : w[j]? = some y.1 ∧ w[j + 1]? = some y.2.1 ∧ w[j + 2]? = some y.2.2) :
    ∃ z ∈ windows s, OneOff s x z ∨ OneOff s y z := by
  obtain ⟨hx₀, hx₁, hx₂⟩ := hx
  obtain ⟨hy₀, hy₁, hy₂⟩ := hy
  rcases h.first_edit with rfl | ⟨u, a, b, w', s', k', hk, rfl, rfl, ha, hb, hab, hrest⟩
  · exact ⟨x, mem_windows_iff.mpr ⟨i, hx₀, hx₁, hx₂⟩,
      Or.inl ⟨x.1, List.mem_of_getElem? hx₀, Or.inl rfl⟩⟩
  obtain rfl : k' = 0 := by omega
  obtain rfl := hrest.eq_of_zero
  by_cases hleft : i + 3 ≤ u.length
  · have hkeep (n : ℕ) (hn : n < u.length) := @getElem?_before_edit _ u a b w' n hn
    have hfirst := (hkeep i (by omega)).trans hx₀
    exact ⟨x, mem_windows_iff.mpr ⟨i, hfirst, (hkeep _ (by omega)).trans hx₁,
      (hkeep _ (by omega)).trans hx₂⟩, Or.inl ⟨x.1, List.mem_of_getElem? hfirst, Or.inl rfl⟩⟩
  by_cases hright : u.length + a.length ≤ j
  · obtain ⟨n, rfl⟩ := Nat.exists_eq_add_of_le' (by omega : a.length ≤ j)
    have hn : u.length ≤ n := by omega
    have hfirst := (@getElem?_after_edit _ u a b w' n hn).trans hy₀
    refine ⟨y, mem_windows_iff.mpr ⟨n + b.length, hfirst, ?_, ?_⟩,
      Or.inr ⟨y.1, List.mem_of_getElem? hfirst, Or.inl rfl⟩⟩
    · rw [Nat.add_right_comm, getElem?_after_edit (by omega), Nat.add_right_comm, hy₁]
    · rw [Nat.add_right_comm, getElem?_after_edit (by omega), Nat.add_right_comm, hy₂]
  exact near_window_overlap hij ⟨hx₀, hx₁, hx₂⟩ ⟨hy₁, hy₂⟩ ha hb hab (by omega) (by omega)

/-! ## Alignments -/

/-- `Aligned i d s u v`: some alignment turns `u` into `v` by `i` insertions, `d` deletions and `s`
substitutions. -/
inductive Aligned : ℕ → ℕ → ℕ → List α → List α → Prop
  | nil : Aligned 0 0 0 [] []
  | keep {i d s : ℕ} {u v : List α} (a : α) : Aligned i d s u v → Aligned i d s (a :: u) (a :: v)
  | insert {i d s : ℕ} {u v : List α} (b : α) : Aligned i d s u v → Aligned (i + 1) d s u (b :: v)
  | delete {i d s : ℕ} {u v : List α} (a : α) : Aligned i d s u v → Aligned i (d + 1) s (a :: u) v
  | subst {i d s : ℕ} {u v : List α} (a b : α) (hne : a ≠ b) :
      Aligned i d s u v → Aligned i d (s + 1) (a :: u) (b :: v)

/-- A run of one letter becomes a run of another by any numbers of edits that fit the lengths. -/
theorem aligned_replicate {a b : α} (hne : a ≠ b) (i d s : ℕ) :
    Aligned i d s (List.replicate (d + s) a) (List.replicate (s + i) b) := by
  induction i with
  | succ i ih => exact .insert b ih
  | zero =>
    induction d with
    | succ d ih =>
      rw [Nat.add_right_comm]
      exact .delete a ih
    | zero =>
      induction s with
      | zero => exact .nil
      | succ s ih =>
        rw [Nat.zero_add, Nat.add_zero] at ih ⊢
        exact .subst a b hne ih

/-- A constant list begins with its constant. -/
private theorem replicate_eq_cons {a c : α} {m : ℕ} {u : List α} (h : List.replicate m a = c :: u) :
    ∃ k, m = k + 1 ∧ List.replicate k a = u := by
  cases m with
  | zero => cases h
  | succ k => exact ⟨k, rfl, (List.cons.inj h).2⟩

/-- In two runs of different letters no letter is kept. -/
theorem Aligned.of_replicate {a b : α} (hne : a ≠ b) {m n i d s : ℕ}
    (h : Aligned i d s (List.replicate m a) (List.replicate n b)) : d + s = m ∧ s + i = n := by
  generalize hu : List.replicate m a = u at h
  generalize hv : List.replicate n b = v at h
  induction h generalizing m n with
  | nil =>
    rw [List.replicate_eq_nil_iff] at hu hv
    omega
  | keep c _ _ =>
    have ha : c = a := List.eq_of_mem_replicate (hu ▸ List.mem_cons_self)
    have hb : c = b := List.eq_of_mem_replicate (hv ▸ List.mem_cons_self)
    exact absurd (ha.symm.trans hb) hne
  | insert c _ ih =>
    obtain ⟨k, rfl, hrest⟩ := replicate_eq_cons hv
    have hcounts := ih hu hrest
    omega
  | delete c _ ih =>
    obtain ⟨k, rfl, hrest⟩ := replicate_eq_cons hu
    have hcounts := ih hrest hv
    omega
  | subst c c' _ _ ih =>
    obtain ⟨k, rfl, hrest⟩ := replicate_eq_cons hu
    obtain ⟨k', rfl, hrest'⟩ := replicate_eq_cons hv
    have hcounts := ih hrest hrest'
    omega

end Strings
