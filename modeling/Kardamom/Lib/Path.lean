import Mathlib.Data.List.Basic

/-!
# Labelled paths

An abstract component is a relation `R : σ → ε → σ → Prop`: from a state, on an event, to a state it
may go to. `Path R` is its closure over lists of events. A concrete component that logs its events
*refines* the abstract one when every log is a path between the abstractions of its states; the
lemmas here put such paths together and take them apart.
-/

namespace Labelled

variable {σ σ' ε ε' : Type*}

/-- The events `es` lead from the first state to the last. -/
inductive Path (R : σ → ε → σ → Prop) : σ → List ε → σ → Prop
  | nil (s : σ) : Path R s [] s
  | cons {s s' s'' : σ} {e : ε} {es : List ε} : R s e s' → Path R s' es s'' → Path R s (e :: es) s''

namespace Path

variable {R : σ → ε → σ → Prop} {s s' s'' : σ} {e : ε} {es es' : List ε}

theorem single (h : R s e s') : Path R s [e] s' := .cons h (.nil _)

theorem append (h : Path R s es s') (h' : Path R s' es' s'') : Path R s (es ++ es') s'' := by
  induction h with
  | nil => exact h'
  | cons hst _ ih => exact .cons hst (ih h')

/-- A path over two logs passes through a state between them. -/
theorem split (h : Path R s (es ++ es') s'') : ∃ m, Path R s es m ∧ Path R m es' s'' := by
  induction es generalizing s with
  | nil => exact ⟨s, .nil s, h⟩
  | cons e es ih =>
    cases h with
    | cons hst htail =>
      obtain ⟨m, hm, hrest⟩ := ih htail
      exact ⟨m, .cons hst hm, hrest⟩

/-- A map of states and events that carries the steps carries the paths. -/
theorem map {R' : σ' → ε' → σ' → Prop} {f : σ → σ'} {g : ε → ε'}
    (hstep : ∀ s e s', R s e s' → R' (f s) (g e) (f s')) (h : Path R s es s') :
    Path R' (f s) (es.map g) (f s') := by
  induction h with
  | nil => exact .nil _
  | cons hst _ ih => exact .cons (hstep _ _ _ hst) ih

end Path

end Labelled
