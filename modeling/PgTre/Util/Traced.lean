import Mathlib.Logic.Basic
import Mathlib.Data.List.Basic

/-!
# Computations with a trace

A computation lists what it did, its events, and ends with a value or an error. What is said of all
events and of the value is derived along the sequencing.
-/

/-- A computation with the events on the way to its end. -/
structure Traced (ε σ α : Type*) where
  events : List ε
  result : Except σ α

namespace Traced

universe u v w

variable {ε : Type u} {σ : Type v} {α β : Type w}

instance : Monad (Traced ε σ) where
  pure a := ⟨[], .ok a⟩
  bind x f :=
    match x.result with
    | .error e => ⟨x.events, .error e⟩
    | .ok a => ⟨x.events ++ (f a).events, (f a).result⟩

/-- Something is done. -/
def emit (e : ε) : Traced ε σ PUnit.{w + 1} := ⟨[e], .ok ⟨⟩⟩

/-- The computation ends with an error. -/
def fail (e : σ) : Traced ε σ α := ⟨[], .error e⟩

/-- A value alone traces nothing. -/
@[simp] theorem events_pure (a : α) : (pure a : Traced ε σ α).events = [] := rfl

/-- A value alone is its result. -/
@[simp] theorem result_pure (a : α) : (pure a : Traced ε σ α).result = .ok a := rfl

/-- An event is traced. -/
@[simp] theorem events_emit (e : ε) : (emit e : Traced ε σ PUnit.{w + 1}).events = [e] := rfl

/-- A failure traces nothing. -/
@[simp] theorem events_fail (e : σ) : (fail e : Traced ε σ α).events = [] := rfl

/-- A failure is its result. -/
@[simp] theorem result_fail (e : σ) : (fail e : Traced ε σ α).result = .error e := rfl

section Bind

variable {x : Traced ε σ α} {f : α → Traced ε σ β} {a : α} {b : β} {e : ε}

/-- Behind a value the computation goes on with it. -/
theorem result_bind (hx : x.result = .ok a) : (x >>= f).result = (f a).result := by
  change (match x.result with
    | .error e => (⟨x.events, .error e⟩ : Traced ε σ β)
    | .ok a => ⟨x.events ++ (f a).events, (f a).result⟩).result = _
  rw [hx]

/-- Nothing is done behind an error. -/
theorem result_bind_error {s : σ} (hx : x.result = .error s) : (x >>= f).result = .error s := by
  change (match x.result with
    | .error e => (⟨x.events, .error e⟩ : Traced ε σ β)
    | .ok a => ⟨x.events ++ (f a).events, (f a).result⟩).result = _
  rw [hx]

/-- A sequence returns when both parts do. -/
theorem result_bind_eq_ok :
    (x >>= f).result = .ok b ↔ ∃ a, x.result = .ok a ∧ (f a).result = .ok b := by
  cases hx : x.result with
  | error s => simp [result_bind_error hx]
  | ok a => simp [result_bind hx]

/-- A sequence traces its first part and, when that returns, its second. -/
theorem mem_events_bind :
    e ∈ (x >>= f).events ↔ e ∈ x.events ∨ ∃ a, x.result = .ok a ∧ e ∈ (f a).events := by
  change e ∈ (match x.result with
    | .error e => (⟨x.events, .error e⟩ : Traced ε σ β)
    | .ok a => ⟨x.events ++ (f a).events, (f a).result⟩).events ↔ _
  cases hx : x.result with
  | error s => simp
  | ok a => simp

end Bind

/-! ## What is ensured -/

/-- All events have the one property, and the value the other. -/
structure Ensures (P : ε → Prop) (Q : α → Prop) (x : Traced ε σ α) : Prop where
  events : ∀ e ∈ x.events, P e
  result : ∀ a, x.result = .ok a → Q a

namespace Ensures

variable {P P' : ε → Prop} {Q Q' : α → Prop} {R : β → Prop} {x : Traced ε σ α}
  {f : α → Traced ε σ β}

/-- A value with the property ensures it. -/
theorem pure {a : α} (ha : Q a) : Ensures P Q (Pure.pure a : Traced ε σ α) := by
  constructor
  case events => simp
  case result =>
    intro b hb
    cases hb
    exact ha

/-- A failure ensures anything of its value. -/
theorem fail (s : σ) : Ensures P Q (Traced.fail s : Traced ε σ α) := by
  constructor
  case events => simp
  case result =>
    intro b hb
    cases hb

/-- An event with the property ensures it. -/
theorem emit {e : ε} (he : P e) :
    Ensures P (fun _ => True) (Traced.emit e : Traced ε σ PUnit.{w + 1}) := by
  constructor
  case events => simpa using he
  case result => exact fun _ _ => trivial

/-- One computation after the other. -/
theorem bind (hx : Ensures P Q x) (hf : ∀ a, Q a → Ensures P R (f a)) : Ensures P R (x >>= f) := by
  constructor
  case events =>
    intro e he
    rcases mem_events_bind.mp he with he | ⟨a, ha, he⟩
    · exact hx.events e he
    · exact (hf a (hx.result a ha)).events e he
  case result =>
    intro b hb
    obtain ⟨a, ha, hb⟩ := result_bind_eq_ok.mp hb
    exact (hf a (hx.result a ha)).result b hb

/-- Whichever branch is taken. -/
theorem ite {p : Prop} [Decidable p] {y : Traced ε σ α} (hx : p → Ensures P Q x)
    (hy : ¬p → Ensures P Q y) : Ensures P Q (if p then x else y) := by
  split
  · rename_i hp
    exact hx hp
  · rename_i hp
    exact hy hp

/-- What is ensured may be weakened. -/
theorem mono (hx : Ensures P Q x) (hP : ∀ e, P e → P' e) (hQ : ∀ a, Q a → Q' a) :
    Ensures P' Q' x :=
  ⟨fun e he => hP e (hx.events e he), fun a ha => hQ a (hx.result a ha)⟩

/-- The property of the value may be weakened. -/
theorem imp (hx : Ensures P Q x) (hQ : ∀ a, Q a → Q' a) : Ensures P Q' x :=
  hx.mono (fun _ he => he) hQ

end Ensures

end Traced
