import Mathlib.Data.Nat.Notation

/-!
# Computations that may run out of memory

A computation asks for memory again and again, and each time it is told whether it got it. Such a
computation is a tree: at each request it goes on in one of two ways. Some requests are guarded: the
computation has a way out when they fail. Which requests fail is not up to the computation.

`Ensures P` is what such a computation promises when only guarded requests fail. It has the rules of
a program logic, so that a long computation is treated part by part.
-/

/-- A computation that makes requests for memory. -/
inductive Allocating (α : Type) where
  | done (a : α)
  /-- A request, guarded or not. The argument of `next` says whether it was met. -/
  | request (guarded : Bool) (next : Bool → Allocating α)

namespace Allocating

variable {α β ε : Type}

/-- One computation after another. -/
def bind (m : Allocating α) (f : α → Allocating β) : Allocating β :=
  match m with
  | done a => f a
  | request guarded next => request guarded fun met => (next met).bind f

instance : Monad Allocating where
  pure := done
  bind := bind

/-- A request for a value: `none` when it fails. -/
def obtain? (guarded : Bool) (a : α) : Allocating (Option α) :=
  request guarded fun met => done (if met then some a else none)

/-- The result when the requests in `fails` fail. They are counted from `n` on; the second part
is the number of the next one. -/
def run (fails : ℕ → Bool) : Allocating α → ℕ → α × ℕ
  | done a, n => (a, n)
  | request _ next, n => (next (!fails n)).run fails (n + 1)

/-- All requests that fail in the run are guarded. -/
def Spared (fails : ℕ → Bool) : Allocating α → ℕ → Prop
  | done _, _ => True
  | request guarded next, n =>
      (guarded = false → fails n = false) ∧ (next (!fails n)).Spared fails (n + 1)

/-- The result has the property in every run in which no request fails, or, if `tolerant` is set,
only guarded ones do. -/
def Ensures (tolerant : Bool) (P : α → Prop) : Allocating α → Prop
  | done a => P a
  | request guarded next =>
      (next true).Ensures tolerant P ∧
        (tolerant = true → guarded = true → (next false).Ensures tolerant P)

variable {tolerant : Bool} {P Q : α → Prop} {R : β → Prop} {m : Allocating α}

/-- What is ensured holds of the result. -/
theorem Ensures.run {fails : ℕ → Bool} {n : ℕ} (h : m.Ensures true P) (hspared : m.Spared fails n) :
    P (m.run fails n).1 := by
  induction m generalizing n with
  | done a => exact h
  | request guarded next ih =>
    obtain ⟨hmet, hfailed⟩ := h
    obtain ⟨hguard, hrest⟩ := hspared
    rw [Allocating.run]
    cases hfails : fails n with
    | false =>
      rw [hfails] at hrest
      exact ih true hmet hrest
    | true =>
      rw [hfails] at hrest
      cases hguarded : guarded with
      | false =>
        rw [hguard hguarded] at hfails
        cases hfails
      | true => exact ih false (hfailed rfl hguarded) hrest

/-- What is ensured holds of the result when nothing fails. -/
theorem Ensures.run_met {fails : ℕ → Bool} (hmet : ∀ n, fails n = false) {n : ℕ}
    (h : m.Ensures tolerant P) : P (m.run fails n).1 := by
  induction m generalizing n with
  | done a => exact h
  | request guarded next ih =>
    rw [Allocating.run, hmet n]
    exact ih true h.1

/-- What follows from something ensured is ensured. -/
theorem Ensures.mono (h : m.Ensures tolerant P) (himp : ∀ a, P a → Q a) : m.Ensures tolerant Q := by
  induction m with
  | done a => exact himp a h
  | request guarded next ih =>
    exact ⟨ih true h.1, fun htolerant hguarded => ih false (h.2 htolerant hguarded)⟩

/-- What is ensured although guarded requests fail is ensured. -/
theorem Ensures.of_tolerant (h : m.Ensures true P) : m.Ensures tolerant P := by
  induction m with
  | done a => exact h
  | request guarded next ih => exact ⟨ih true h.1, fun _ hguarded => ih false (h.2 rfl hguarded)⟩

/-- One computation after another. -/
theorem Ensures.bind {f : α → Allocating β} (h : m.Ensures tolerant P)
    (hf : ∀ a, P a → (f a).Ensures tolerant R) : (m >>= f).Ensures tolerant R := by
  induction m with
  | done a => exact hf a h
  | request guarded next ih =>
    exact ⟨ih true h.1, fun htolerant hguarded => ih false (h.2 htolerant hguarded)⟩

/-- A request that is not guarded yields its value. -/
theorem ensures_obtain? {a : α} {S : Option α → Prop} (h : S (some a)) :
    (obtain? false a).Ensures tolerant S :=
  ⟨h, fun _ hguarded => by cases hguarded⟩

/-- A guarded one yields its value or nothing. -/
theorem ensures_obtain?_guarded {a : α} {S : Option α → Prop} (hsome : S (some a))
    (hnone : tolerant = true → S none) : (obtain? true a).Ensures tolerant S :=
  ⟨hsome, fun htolerant _ => hnone htolerant⟩

/-! ## Computations without a way out -/

/-- No request of the computation is guarded. -/
def Unguarded : Allocating α → Prop
  | done _ => True
  | request guarded next => guarded = false ∧ ∀ met, (next met).Unguarded

/-- The result when every request is met. -/
def met : Allocating α → α
  | done a => a
  | request _ next => (next true).met

/-- A sequence whose requests are all met is the sequence of what they give. -/
theorem met_bind (m : Allocating α) (f : α → Allocating β) : (m >>= f).met = (f m.met).met := by
  induction m with
  | done a => rfl
  | request guarded next ih => exact ih true

/-- Unguarded computations compose. -/
theorem Unguarded.bind {f : α → Allocating β} (h : m.Unguarded) (hf : ∀ a, (f a).Unguarded) :
    (m >>= f).Unguarded := by
  induction m with
  | done a => exact hf a
  | request guarded next ih =>
    obtain ⟨hguarded, hnext⟩ := h
    exact ⟨hguarded, fun answer => ih answer (hnext answer)⟩

/-- A request for a value, without a way out. -/
theorem unguarded_obtain? (a : α) : (obtain? false a).Unguarded := ⟨rfl, fun _ => trivial⟩

/-- Such a computation ends with the one result, unless a request fails that must not. -/
theorem Unguarded.ensures (h : m.Unguarded) : m.Ensures tolerant (· = m.met) := by
  induction m with
  | done a => exact rfl
  | request guarded next ih =>
    obtain ⟨hguarded, hnext⟩ := h
    constructor
    · exact ih true (hnext true)
    · intro _ hyes
      rw [hguarded] at hyes
      cases hyes

/-! ## Computations that also raise errors -/

/-- A result has the property, or it is an error that is allowed. -/
def Settles (allowed : ε → Prop) (P : α → Prop) : Except ε α → Prop
  | .error e => allowed e
  | .ok a => P a

variable {allowed : ε → Prop}

/-- The computation ends with an allowed error or a result with the property, in every run in which
only guarded requests fail. -/
def EnsuresOk (allowed : ε → Prop) (P : α → Prop) (m : ExceptT ε Allocating α) : Prop :=
  m.run.Ensures true (Settles allowed P)

/-- What follows from something ensured is ensured. -/
theorem EnsuresOk.mono {m : ExceptT ε Allocating α} (h : EnsuresOk allowed P m)
    (himp : ∀ a, P a → Q a) : EnsuresOk allowed Q m := by
  refine Ensures.mono h fun result hresult => ?_
  cases result with
  | error e => exact hresult
  | ok a => exact himp a hresult

/-- A result at once. -/
theorem ensuresOk_pure {a : α} (h : P a) :
    EnsuresOk allowed P (pure a : ExceptT ε Allocating α) := h

/-- An error at once. -/
theorem ensuresOk_throw {e : ε} (h : allowed e) :
    EnsuresOk allowed P (throw e : ExceptT ε Allocating α) := h

/-- A computation without errors. -/
theorem ensuresOk_lift {m : Allocating α} (h : m.Ensures true P) :
    EnsuresOk allowed P (liftM m : ExceptT ε Allocating α) :=
  Ensures.bind h fun _ ha => ha

/-- One computation after another. -/
theorem EnsuresOk.bind {m : ExceptT ε Allocating α} {f : α → ExceptT ε Allocating β}
    (h : EnsuresOk allowed P m) (hf : ∀ a, P a → EnsuresOk allowed R (f a)) :
    EnsuresOk allowed R (m >>= f) := by
  refine Ensures.bind h fun result hresult => ?_
  cases result with
  | error e => exact hresult
  | ok a => exact hf a hresult

end Allocating

/-! ## Procedures -/

/-- A computation that changes a state, makes requests and raises errors. What it did to the state
before an error stays. -/
abbrev Procedure (σ ε α : Type) := ExceptT ε (StateT σ Allocating) α

namespace Procedure

open Allocating

variable {σ ε α β : Type} {tolerant : Bool}

/-- The outcome of a procedure from a state on, with the state it leaves. -/
def exec (s : σ) (m : Procedure σ ε α) : Allocating (Except ε α × σ) := StateT.run (ExceptT.run m) s

/-- The procedure ends with a result and a state that have the property, or with an error and a
state that have the other one; in every run in which no request fails, or only guarded ones do. -/
def Meets (tolerant : Bool) (Q : α → σ → Prop) (E : ε → σ → Prop) (m : Procedure σ ε α)
    (s : σ) : Prop :=
  (m.exec s).Ensures tolerant fun r =>
    match r.1 with
    | .ok a => Q a r.2
    | .error e => E e r.2

variable {Q : α → σ → Prop} {R : β → σ → Prop} {E E' : ε → σ → Prop}
  {m : Procedure σ ε α} {s : σ}

/-- What follows is met. -/
theorem Meets.mono {Q' : α → σ → Prop} (h : m.Meets tolerant Q E s)
    (hQ : ∀ a t, Q a t → Q' a t) (hE : ∀ e t, E e t → E' e t) :
    m.Meets tolerant Q' E' s := by
  refine Ensures.mono h fun r hr => ?_
  obtain ⟨result, t⟩ := r
  cases result with
  | ok a => exact hQ a t hr
  | error e => exact hE e t hr

/-- A result at once. -/
theorem meets_pure {a : α} (h : Q a s) :
    (pure a : Procedure σ ε α).Meets tolerant Q E s := h

/-- An error at once. -/
theorem meets_throw {e : ε} (h : E e s) :
    (throw e : Procedure σ ε α).Meets tolerant Q E s := h

/-- A new state. -/
theorem meets_modify {Q : Unit → σ → Prop} {g : σ → σ} (h : Q () (g s)) :
    (modify g : Procedure σ ε Unit).Meets tolerant Q E s := h

/-- One procedure after another. -/
theorem Meets.bind {f : α → Procedure σ ε β} (h : m.Meets tolerant Q E s)
    (hf : ∀ a t, Q a t → (f a).Meets tolerant R E t) :
    (m >>= f).Meets tolerant R E s := by
  refine Ensures.bind h fun r hr => ?_
  obtain ⟨result, t⟩ := r
  cases result with
  | ok a => exact hf a t hr
  | error e => exact hr

/-- The procedure goes on with its state. -/
theorem meets_get_bind {f : σ → Procedure σ ε β} (h : (f s).Meets tolerant R E s) :
    (get >>= f).Meets tolerant R E s := h

/-- The procedure goes on from a new state. -/
theorem meets_modify_bind {g : σ → σ} {f : Unit → Procedure σ ε β}
    (h : (f ()).Meets tolerant R E (g s)) : (modify g >>= f).Meets tolerant R E s := h

/-- The procedure goes on with the answer to a request, which leaves the state alone. -/
theorem meets_request_bind {guarded : Bool} {answer : Bool → α} {f : α → Procedure σ ε β}
    (hmet : (f (answer true)).Meets tolerant R E s)
    (hfailed : tolerant = true → guarded = true → (f (answer false)).Meets tolerant R E s) :
    (liftM (request guarded fun met => done (answer met)) >>= f).Meets tolerant R E s :=
  ⟨hmet, hfailed⟩

/-- When nothing fails and there is no error, the procedure ends with a result. -/
theorem Meets.run_met {fails : ℕ → Bool} (h : m.Meets tolerant Q E s)
    (hmet : ∀ n, fails n = false) (hE : ∀ e t, ¬E e t) (n : ℕ) :
    ∃ a t, ((m.exec s).run fails n).1 = (.ok a, t) ∧ Q a t := by
  have hrun := Ensures.run_met hmet h (n := n)
  cases hresult : ((m.exec s).run fails n).1 with
  | mk result t =>
    rw [hresult] at hrun
    cases result with
    | error e => exact absurd hrun (hE e t)
    | ok a => exact ⟨a, t, rfl, hrun⟩

/-- When only guarded requests fail, the procedure ends with a result or an error. -/
theorem Meets.run {fails : ℕ → Bool} {n : ℕ} (h : m.Meets true Q E s)
    (hspared : (m.exec s).Spared fails n) :
    (∃ a t, ((m.exec s).run fails n).1 = (.ok a, t) ∧ Q a t) ∨
      ∃ e t, ((m.exec s).run fails n).1 = (.error e, t) ∧ E e t := by
  have hrun := Ensures.run h hspared
  cases hresult : ((m.exec s).run fails n).1 with
  | mk result t =>
    rw [hresult] at hrun
    cases result with
    | error e => exact Or.inr ⟨e, t, rfl, hrun⟩
    | ok a => exact Or.inl ⟨a, t, rfl, hrun⟩

end Procedure
