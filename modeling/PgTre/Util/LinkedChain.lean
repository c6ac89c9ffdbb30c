import Mathlib.Data.Finset.Card
import Mathlib.Data.List.Nodup
import Mathlib.Data.Nat.Find
import Mathlib.Logic.Relation

/-!
# Linked chains

Nodes that each link to at most one other. A node is taken out of a chain by letting its
predecessor link to its successor; the node itself keeps its link. A chain that ends is a list of
nodes, and it grows at its end by one link. A walk along the links needs no more turns than there are
nodes, whether the chain ends or not.
-/

namespace PgTre

variable {α : Type*}

/-- A node links to another. -/
def Links (next : α → Option α) (x y : α) : Prop := next x = some y

/-- The second node is reached from the first one by links. -/
def Reaches (next : α → Option α) : α → α → Prop := Relation.ReflTransGen (Links next)

/-- A node that is reached is the first one or is reached from the first one's successor. -/
theorem Reaches.eq_or_next {next : α → Option α} {x y : α} (h : Reaches next x y) :
    x = y ∨ ∃ z, next x = some z ∧ Reaches next z y :=
  Relation.ReflTransGen.cases_head h

/-- The nodes on the way from a start to the end of the links. -/
def ChainFrom (next : α → Option α) : Option α → List α → Prop
  | start, [] => start = none
  | start, x :: xs => start = some x ∧ ChainFrom next (next x) xs

section

variable {next next' : α → Option α} {start : Option α} {x : α} {xs ys : List α}

/-- The start is the first node. -/
theorem ChainFrom.head?_eq (h : ChainFrom next start xs) : start = xs.head? := by
  cases xs with
  | nil => exact h
  | cons x xs => exact h.1

/-- A chain depends on the links of its nodes alone. -/
theorem ChainFrom.congr (h : ChainFrom next start xs) (hsame : ∀ x ∈ xs, next' x = next x) :
    ChainFrom next' start xs := by
  induction xs generalizing start with
  | nil => exact h
  | cons x xs ih =>
    refine ⟨h.1, ?_⟩
    rw [hsame x List.mem_cons_self]
    exact ih h.2 fun y hy => hsame y (List.mem_cons_of_mem _ hy)

/-- From a node of a chain on, the chain is the rest of it. -/
theorem ChainFrom.drop (h : ChainFrom next start (xs ++ x :: ys)) :
    ChainFrom next (some x) (x :: ys) := by
  induction xs generalizing start with
  | nil => exact ⟨rfl, h.2⟩
  | cons y xs ih => exact ih h.2

/-- The last node links to nothing. -/
theorem ChainFrom.last_eq_none (h : ChainFrom next start (xs ++ [x])) : next x = none :=
  h.drop.2

/-- All other nodes link to something. -/
theorem ChainFrom.next_ne_none {y : α} (h : ChainFrom next start (xs ++ x :: ys)) (hy : y ∈ xs) :
    next y ≠ none := by
  induction xs generalizing start with
  | nil => cases hy
  | cons z xs ih =>
    rcases List.mem_cons.mp hy with rfl | hy
    · intro hnone
      have hrest := h.2.head?_eq
      rw [hnone] at hrest
      simp at hrest
    · exact ih h.2 hy

/-- There is only one chain from a start. -/
theorem ChainFrom.unique (h : ChainFrom next start xs) (h' : ChainFrom next start ys) :
    xs = ys := by
  induction xs generalizing start ys with
  | nil =>
    cases ys with
    | nil => rfl
    | cons y ys => exact absurd (h.symm.trans h'.1) nofun
  | cons x xs ih =>
    cases ys with
    | nil => exact absurd (h'.symm.trans h.1) nofun
    | cons y ys =>
      obtain rfl : x = y := Option.some.inj (h.1.symm.trans h'.1)
      rw [ih h.2 h'.2]

/-- A chain grows by a link from its last node to a new one. -/
theorem ChainFrom.concat {y : α} (h : ChainFrom next start (xs ++ [x]))
    (hsame : ∀ z ∈ xs, next' z = next z) (hlink : next' x = some y) (hlast : next' y = none) :
    ChainFrom next' start (xs ++ [x, y]) := by
  induction xs generalizing start with
  | nil =>
    refine ⟨h.1, ?_⟩
    rw [hlink]
    exact ⟨rfl, hlast⟩
  | cons z xs ih =>
    refine ⟨h.1, ?_⟩
    rw [hsame z List.mem_cons_self]
    exact ih h.2 fun w hw => hsame w (List.mem_cons_of_mem _ hw)

/-- The first node of a chain reaches all of it. -/
theorem ChainFrom.reaches {y : α} (h : ChainFrom next (some x) xs) (hy : y ∈ xs) :
    Reaches next x y := by
  induction xs generalizing x with
  | nil => cases hy
  | cons z xs ih =>
    obtain rfl : x = z := Option.some.inj h.1
    rcases List.mem_cons.mp hy with rfl | hy
    · exact Relation.ReflTransGen.refl
    · cases hnext : next x with
      | none =>
        have hnil := h.2.head?_eq
        rw [hnext] at hnil
        rw [List.head?_eq_none_iff.mp hnil.symm] at hy
        cases hy
      | some w =>
        have htail := h.2
        rw [hnext] at htail
        exact Relation.ReflTransGen.head hnext (ih htail hy)

end

/-! ## Walks -/

/-- The node after some links. -/
def follow (next : α → Option α) : ℕ → Option α → Option α
  | 0, start => start
  | k + 1, start => follow next k (start.bind next)

/-- The nodes of a walk with a bound on its turns. -/
def walk (next : α → Option α) : ℕ → Option α → List α
  | 0, _ => []
  | _ + 1, none => []
  | n + 1, some x => x :: walk next n (next x)

section

variable {next : α → Option α} {start : Option α} {x y : α} {k n : ℕ}

/-- Behind the end there is nothing. -/
theorem follow_none (k : ℕ) : follow next k none = none := by
  induction k with
  | zero => rfl
  | succ k ih => exact ih

/-- Steps add up. -/
theorem follow_add (i j : ℕ) (start : Option α) :
    follow next (i + j) start = follow next j (follow next i start) := by
  induction i generalizing start with
  | zero => rw [Nat.zero_add, follow]
  | succ i ih =>
    rw [Nat.add_right_comm, follow, ih]
    rfl

/-- The walk visits what its steps reach. -/
theorem mem_walk : y ∈ walk next n start ↔ ∃ k < n, follow next k start = some y := by
  induction n generalizing start with
  | zero => simp [walk]
  | succ n ih =>
    cases start with
    | none => simp [walk, follow_none]
    | some x =>
      rw [walk, List.mem_cons, ih]
      constructor
      · rintro (rfl | ⟨k, hk, hfollow⟩)
        · exact ⟨0, Nat.succ_pos n, rfl⟩
        · exact ⟨k + 1, Nat.succ_lt_succ hk, hfollow⟩
      · rintro ⟨k, hk, hfollow⟩
        cases k with
        | zero => exact Or.inl (Option.some.inj hfollow).symm
        | succ k => exact Or.inr ⟨k, Nat.lt_of_succ_lt_succ hk, hfollow⟩

/-- Following the links is reaching. -/
theorem reaches_iff_follow : Reaches next x y ↔ ∃ k, follow next k (some x) = some y := by
  constructor
  · intro h
    induction h using Relation.ReflTransGen.head_induction_on with
    | refl => exact ⟨0, rfl⟩
    | @head x z hlink _ ih =>
      obtain ⟨k, hfollow⟩ := ih
      refine ⟨k + 1, ?_⟩
      rw [follow, Option.bind_some, hlink]
      exact hfollow
  · rintro ⟨k, hfollow⟩
    induction k generalizing x with
    | zero =>
      obtain rfl := Option.some.inj hfollow
      exact Relation.ReflTransGen.refl
    | succ k ih =>
      rw [follow, Option.bind_some] at hfollow
      cases hlink : next x with
      | none =>
        rw [hlink, follow_none] at hfollow
        cases hfollow
      | some z =>
        rw [hlink] at hfollow
        exact Relation.ReflTransGen.head hlink (ih hfollow)

/-- A walk comes to every node that is reached, if it has more turns than there are nodes with a
successor. -/
theorem Reaches.mem_walk (h : Reaches next x y) (nodes : Finset α)
    (hnodes : ∀ z w, Reaches next x z → next z = some w → z ∈ nodes) (hn : nodes.card < n) :
    y ∈ walk next n (some x) := by
  classical
  -- On the shortest way no node is passed twice.
  have hexists := reaches_iff_follow.mp h
  obtain ⟨k, hk, hmin⟩ : ∃ k, follow next k (some x) = some y ∧
      ∀ j < k, follow next j (some x) ≠ some y :=
    ⟨Nat.find hexists, Nat.find_spec hexists, fun j hj => Nat.find_min hexists hj⟩
  refine PgTre.mem_walk.mpr ⟨k, lt_of_le_of_lt ?_ hn, hk⟩
  have hrest : ∀ i ≤ k, follow next (k - i) (follow next i (some x)) = some y := by
    intro i hi
    rw [← follow_add, Nat.add_sub_cancel' hi, hk]
  have hsome : ∀ i < k, ∃ z ∈ nodes, follow next i (some x) = some z := by
    intro i hi
    have hleft := hrest i hi.le
    cases hz : follow next i (some x) with
    | none =>
      rw [hz, follow_none] at hleft
      cases hleft
    | some z =>
      have hreach := reaches_iff_follow.mpr ⟨i, hz⟩
      obtain ⟨j, hj⟩ := Nat.exists_eq_succ_of_ne_zero (Nat.sub_ne_zero_of_lt hi)
      rw [hz, hj, follow, Option.bind_some] at hleft
      cases hw : next z with
      | none =>
        rw [hw, follow_none] at hleft
        cases hleft
      | some w => exact ⟨z, hnodes z w hreach hw, rfl⟩
  have hmaps : ∀ i ∈ Finset.range k, follow next i (some x) ∈ nodes.map Function.Embedding.some := by
    intro i hi
    obtain ⟨z, hz, hfollow⟩ := hsome i (Finset.mem_range.mp hi)
    rw [hfollow]
    exact Finset.mem_map_of_mem _ hz
  have hne : ∀ i j, i < j → j ≤ k → follow next i (some x) ≠ follow next j (some x) := by
    intro i j hij hj heq
    have hshort : follow next (i + (k - j)) (some x) = some y := by
      rw [follow_add, heq]
      exact hrest j hj
    exact hmin _ (by omega) hshort
  have hinj : Set.InjOn (fun i => follow next i (some x)) (Finset.range k : Finset ℕ) := by
    intro i hi j hj heq
    have hik := Finset.mem_range.mp hi
    have hjk := Finset.mem_range.mp hj
    rcases Nat.lt_trichotomy i j with hlt | heq' | hgt
    · exact absurd heq (hne i j hlt hjk.le)
    · exact heq'
    · exact absurd heq.symm (hne j i hgt hik.le)
  have hcard := Finset.card_le_card_of_injOn _ hmaps hinj
  rwa [Finset.card_range, Finset.card_map] at hcard

end

/-- The links after `p` takes over the link of its successor `b`. -/
def spliced [DecidableEq α] (next : α → Option α) (p b : α) (x : α) : Option α :=
  if x = p then next b else next x

variable [DecidableEq α]

/-- Taking a node out makes no node reachable that was not. -/
theorem Reaches.of_spliced {next : α → Option α} {p b x y : α} (hp : next p = some b)
    (h : Reaches (spliced next p b) x y) : Reaches next x y := by
  induction h using Relation.ReflTransGen.head_induction_on with
  | refl => exact Relation.ReflTransGen.refl
  | @head x z hlink htail ih =>
    by_cases hx : x = p
    · subst hx
      have hz : next b = some z := by
        rw [Links, spliced, if_pos rfl] at hlink
        exact hlink
      exact Relation.ReflTransGen.head hp (Relation.ReflTransGen.head hz ih)
    · rw [Links, spliced, if_neg hx] at hlink
      exact Relation.ReflTransGen.head hlink ih

/-- Every other node stays reachable from where it was. -/
theorem Reaches.spliced {next : α → Option α} {p b x y : α} (hp : next p = some b) (hpb : b ≠ p)
    (hy : y ≠ b) (h : Reaches next x y) : Reaches (spliced next p b) x y := by
  induction h using Relation.ReflTransGen.head_induction_on with
  | refl => exact Relation.ReflTransGen.refl
  | @head x z hlink htail ih =>
    by_cases hx : x = p
    · subst hx
      obtain rfl : b = z := Option.some.inj (hp.symm.trans hlink)
      -- The path goes on from `b`, since it does not end there.
      obtain heq | ⟨w, hw, hwy⟩ := Reaches.eq_or_next ih
      · exact absurd heq.symm hy
      · rw [PgTre.spliced, if_neg hpb] at hw
        refine Relation.ReflTransGen.head ?_ hwy
        rw [Links, PgTre.spliced, if_pos rfl]
        exact hw
    · refine Relation.ReflTransGen.head ?_ ih
      rw [Links, PgTre.spliced, if_neg hx]
      exact hlink

end PgTre
