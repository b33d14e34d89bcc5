import Mathlib.Data.List.Basic

/-!
# Computations that can fail or panic

A result of code that answers an error by value and can also stop with a panic (an index out of
range, a conversion of a slice of the wrong length). `NoPanic` is kept by sequencing, so that a
function is shown free of panics step by step, each step with what the steps before it answered.
-/

/-- A value, an error, or a panic. -/
inductive Outcome (ε α : Type) where
  | ok (a : α)
  | err (e : ε)
  | panicked
  deriving DecidableEq, Repr

namespace Outcome

variable {ε ε' α β : Type}

/-- Go on with the value, if there is one. -/
def bind : Outcome ε α → (α → Outcome ε β) → Outcome ε β
  | ok a, f => f a
  | err e, _ => err e
  | panicked, _ => panicked

instance : Monad (Outcome ε) where
  pure := ok
  bind := bind

/-- The value, or the error `e` when there is none. -/
def ofOption (e : ε) : Option α → Outcome ε α
  | some a => ok a
  | none => err e

/-- The value, or a panic when there is none. -/
def expect : Option α → Outcome ε α
  | some a => ok a
  | none => panicked

/-- A result that names its error, with the error translated. -/
def ofExcept (f : ε' → ε) : Except ε' α → Outcome ε α
  | .ok a => ok a
  | .error e => err (f e)

/-- Translate the error. -/
def mapErr (f : ε' → ε) : Outcome ε' α → Outcome ε α
  | ok a => ok a
  | err e => err (f e)
  | panicked => panicked

/-- Whether there is a value. -/
def isOk : Outcome ε α → Bool
  | ok _ => true
  | err _ => false
  | panicked => false

variable {x : Outcome ε α}

theorem exists_of_isOk (h : x.isOk = true) : ∃ a, x = ok a := by
  cases x with
  | ok a => exact ⟨a, rfl⟩
  | err | panicked => cases h

@[simp] theorem pure_eq (a : α) : (pure a : Outcome ε α) = ok a := rfl

@[simp] theorem ok_bind (a : α) (f : α → Outcome ε β) : (ok a >>= f) = f a := rfl

@[simp] theorem err_bind (e : ε) (f : α → Outcome ε β) : (err e >>= f) = err e := rfl

variable {f : α → Outcome ε β}

/-- What a sequence that answers a value did. -/
theorem bind_eq_ok {b : β} : (x >>= f) = ok b ↔ ∃ a, x = ok a ∧ f a = ok b := by
  cases x with
  | ok | err => simp
  | panicked =>
    refine ⟨fun h => ?_, fun ⟨a, h, _⟩ => ?_⟩
    · cases h
    · cases h

theorem ofOption_eq_ok {e : ε} {x : Option α} {a : α} : ofOption e x = ok a ↔ x = some a := by
  cases x <;> simp [ofOption]

theorem ofExcept_eq_ok {f : ε' → ε} {x : Except ε' α} {a : α} : ofExcept f x = ok a ↔ x = .ok a := by
  cases x <;> simp [ofExcept]

theorem mapErr_eq_ok {f : ε' → ε} {x : Outcome ε' α} {a : α} : x.mapErr f = ok a ↔ x = ok a := by
  cases x <;> simp [mapErr]

@[simp] theorem ofOption_some (e : ε) (a : α) : ofOption e (some a) = ok a := rfl

@[simp] theorem expect_some (a : α) : (expect (some a) : Outcome ε α) = ok a := rfl

@[simp] theorem ofExcept_ok (f : ε' → ε) (a : α) : ofExcept f (.ok a) = ok a := rfl

@[simp] theorem mapErr_ok (f : ε' → ε) (a : α) : mapErr f (ok a) = ok a := rfl

/-- The computation answers by value. -/
def NoPanic (x : Outcome ε α) : Prop := x ≠ panicked

namespace NoPanic

theorem ok (a : α) : NoPanic (Outcome.ok a : Outcome ε α) := by simp [NoPanic]

theorem err (e : ε) : NoPanic (Outcome.err e : Outcome ε α) := by simp [NoPanic]

theorem ofOption (e : ε) (x : Option α) : NoPanic (Outcome.ofOption e x) := by
  cases x <;> simp [NoPanic, Outcome.ofOption]

theorem ofExcept (f : ε' → ε) (x : Except ε' α) : NoPanic (Outcome.ofExcept f x) := by
  cases x <;> simp [NoPanic, Outcome.ofExcept]

theorem mapErr {f : ε' → ε} {x : Outcome ε' α} (h : NoPanic x) : NoPanic (x.mapErr f) := by
  cases x with
  | ok a => exact ok a
  | err e => exact err (f e)
  | panicked => exact absurd rfl h

/-- A sequence does not panic when its first step does not, and what follows does not from any value
the first step can answer. -/
theorem bind (hx : NoPanic x) (hf : ∀ a, x = .ok a → NoPanic (f a)) : NoPanic (x >>= f) := by
  cases x with
  | ok a => exact hf a rfl
  | err e => exact err e
  | panicked => exact absurd rfl hx

theorem ite {c : Prop} [Decidable c] {x y : Outcome ε α} (hx : NoPanic x) (hy : NoPanic y) :
    NoPanic (if c then x else y) := by
  split
  · exact hx
  · exact hy

end NoPanic

/-- The computation answers by value, and a value that it answers meets `P`. -/
def Meets (x : Outcome ε α) (P : α → Prop) : Prop := x.NoPanic ∧ ∀ a, x = ok a → P a

namespace Meets

variable {P : α → Prop} {Q : β → Prop}

theorem ok {a : α} (h : P a) : Meets (Outcome.ok a : Outcome ε α) P :=
  ⟨.ok a, fun _ heq => Outcome.ok.inj heq ▸ h⟩

theorem err (e : ε) : Meets (Outcome.err e) P := ⟨.err e, fun _ heq => by cases heq⟩

theorem imp {Q : α → Prop} (hx : Meets x P) (h : ∀ a, P a → Q a) : Meets x Q :=
  ⟨hx.1, fun a ha => h a (hx.2 a ha)⟩

/-- What follows meets its postcondition from any value that meets the one of the first step. -/
theorem bind (hx : Meets x P) (hf : ∀ a, P a → Meets (f a) Q) : Meets (x >>= f) Q := by
  refine ⟨hx.1.bind fun a ha => (hf a (hx.2 a ha)).1, fun b hb => ?_⟩
  obtain ⟨a, ha, hb⟩ := bind_eq_ok.1 hb
  exact (hf a (hx.2 a ha)).2 b hb

end Meets

end Outcome
