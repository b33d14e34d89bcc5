import Mathlib.Data.List.Basic

/-!
# Runs of a deterministic machine

A component is a step function `σ → ι → σ × ο` from a state and an input to the next state and an
output. `run` feeds it a list of inputs and keeps the whole history, each input paired with the
output it got. Every statement about a whole run is proved through one of three rules:

* `run_induction` carries a predicate on the state *and the history so far* along every run;
* `run_induction_of_guard` does the same for the runs whose steps all meet a guard, `Guarded`;
* `run_simulation` turns a one-step simulation between two machines into equal outputs forever.
-/

namespace Machine

open List

variable {σ σ' ι ο ο' : Type*} {α : Type*} {xs : List α} {x : α}

/-- Where an element of a list that grew at its end stands: it is the new one, or it was there
before. -/
theorem snoc_eq_append_cons {pre post : List α} {y : α} (h : xs ++ [x] = pre ++ y :: post) :
    (pre = xs ∧ y = x ∧ post = []) ∨ ∃ post', post = post' ++ [x] ∧ xs = pre ++ y :: post' := by
  rcases eq_nil_or_concat post with rfl | ⟨post', z, rfl⟩
  · obtain ⟨hpre, hlast⟩ := append_inj' h rfl
    exact .inl ⟨hpre.symm, (singleton_inj.1 hlast).symm, rfl⟩
  · rw [concat_eq_append, ← cons_append, ← append_assoc] at h
    obtain ⟨hpre, hlast⟩ := append_inj' h rfl
    exact .inr ⟨post', by rw [singleton_inj.1 hlast, concat_eq_append], hpre⟩

/-- What holds of every element of a list that grew at its end. -/
theorem forall_mem_snoc {P : α → Prop} : (∀ y ∈ xs ++ [x], P y) ↔ (∀ y ∈ xs, P y) ∧ P x := by
  simp [or_imp, forall_and]

theorem pairwise_snoc {R : α → α → Prop} :
    (xs ++ [x]).Pairwise R ↔ xs.Pairwise R ∧ ∀ y ∈ xs, R y x := by
  simp [pairwise_append]

/-- What a history that grew by one step holds of a partial view of its steps. -/
theorem filterMap_snoc {β : Type*} (f : α → Option β) (τ : List α) (c : α) :
    (τ ++ [c]).filterMap f = τ.filterMap f ++ (f c).toList := by
  cases h : f c <;> simp [h]

/-- Run `step` over the inputs; the history pairs each input with its output, oldest first. -/
def run (step : σ → ι → σ × ο) : σ → List ι → σ × List (ι × ο)
  | s, [] => (s, [])
  | s, i :: is =>
    ((run step (step s i).1 is).1, (i, (step s i).2) :: (run step (step s i).1 is).2)

variable {step : σ → ι → σ × ο} {step' : σ' → ι → σ' × ο'}

@[simp] theorem run_nil (s : σ) : run step s [] = (s, []) := rfl

theorem run_cons (s : σ) (i : ι) (is : List ι) : run step s (i :: is)
      = ((run step (step s i).1 is).1, (i, (step s i).2) :: (run step (step s i).1 is).2) := rfl

/-- A run over two input lists is the first run followed by the second from where it stopped. -/
theorem run_append (s : σ) (is js : List ι) : run step s (is ++ js)
      = ((run step (run step s is).1 js).1, (run step s is).2 ++ (run step (run step s is).1 js).2) := by
  induction is generalizing s with
  | nil => simp
  | cons i is ih => simp only [cons_append, run_cons, ih]

/-- The inputs of a history are the inputs that were fed. -/
@[simp] theorem run_history_inputs (s : σ) (is : List ι) : (run step s is).2.map Prod.fst = is := by
  induction is generalizing s with
  | nil => rfl
  | cons i is ih => simp [run_cons, ih]

/-- Every step of the run from `s` starts in a state and with an input that meet `G`. -/
def Guarded (step : σ → ι → σ × ο) (G : σ → ι → Prop) : σ → List ι → Prop
  | _, [] => True
  | s, i :: is => G s i ∧ Guarded step G (step s i).1 is

variable {G : σ → ι → Prop}

/-- A guard that every state and input meets restricts nothing. -/
theorem Guarded.of_forall (h : ∀ s i, G s i) (s : σ) (is : List ι) : Guarded step G s is := by
  induction is generalizing s with
  | nil => trivial
  | cons i is ih => exact ⟨h s i, ih _⟩

variable {is : List ι} {s : σ}

theorem Guarded.mono {G G' : σ → ι → Prop} (h : ∀ s i, G s i → G' s i)
    (hg : Guarded step G s is) : Guarded step G' s is := by
  induction is generalizing s with
  | nil => trivial
  | cons i is ih => exact ⟨h s i hg.1, ih hg.2⟩

theorem Guarded.and {G G' : σ → ι → Prop} (h : Guarded step G s is)
    (h' : Guarded step G' s is) : Guarded step (fun s i => G s i ∧ G' s i) s is := by
  induction is generalizing s with
  | nil => trivial
  | cons i is ih => exact ⟨⟨h.1, h'.1⟩, ih h.2 h'.2⟩

/-- A guard on the input alone is met along a run when every input meets it. -/
theorem Guarded.of_inputs {P : ι → Prop} (s : σ) (h : ∀ i ∈ is, P i) : Guarded step (fun _ i => P i) s is := by
  induction is generalizing s with
  | nil => trivial
  | cons i is ih => exact ⟨h i (by simp), ih _ fun j hj => h j (mem_cons_of_mem _ hj)⟩

variable {s₀ : σ} {P : σ → List (ι × ο) → Prop}

/-- **The history rule, with a guard.** What holds of the initial state with the empty history, and
is carried over every guarded step by appending that step to the history, holds at the end of every
guarded run. -/
theorem run_induction_of_guard (h₀ : P s₀ [])
    (hstep : ∀ s τ i, P s τ → G s i → P (step s i).1 (τ ++ [(i, (step s i).2)]))
    (hg : Guarded step G s₀ is) : P (run step s₀ is).1 (run step s₀ is).2 := by
  -- generalise over the history that led to the current state
  suffices h : ∀ (is : List ι) (s : σ) (τ : List (ι × ο)), P s τ → Guarded step G s is →
      P (run step s is).1 (τ ++ (run step s is).2) by
    simpa using h is s₀ [] h₀ hg
  intro is
  induction is with
  | nil => intro s τ hP _; simpa using hP
  | cons i is ih =>
    intro s τ hP hg
    have hnext := ih _ _ (hstep s τ i hP hg.1) hg.2
    simpa [run_cons] using hnext

/-- **The history rule.** -/
theorem run_induction (h₀ : P s₀ [])
    (hstep : ∀ s τ i, P s τ → P (step s i).1 (τ ++ [(i, (step s i).2)])) (is : List ι) :
    P (run step s₀ is).1 (run step s₀ is).2 :=
  run_induction_of_guard (G := fun _ _ => True) h₀ (fun s τ i h _ => hstep s τ i h)
    (Guarded.of_forall (fun _ _ => trivial) s₀ is)

/-- A state invariant holds at the end of every guarded run. -/
theorem run_invariant_of_guard {P : σ → Prop} (h₀ : P s₀)
    (hstep : ∀ s i, P s → G s i → P (step s i).1) (hg : Guarded step G s₀ is) :
    P (run step s₀ is).1 :=
  run_induction_of_guard (P := fun s _ => P s) h₀ (fun s _ i h hi => hstep s i h hi) hg

/-- A state invariant holds at the end of every run. -/
theorem run_invariant {P : σ → Prop} (h₀ : P s₀)
    (hstep : ∀ s i, P s → P (step s i).1) (is : List ι) : P (run step s₀ is).1 :=
  run_induction (P := fun s _ => P s) h₀ (fun s _ i h => hstep s i h) is

variable {R : σ → σ' → Prop} {E : ο → ο' → Prop}

/-- **The simulation rule, with a guard.** If related states answer every input with related outputs
and stay related, then the two runs answer alike, step by step, and end in related states. The
guard is evaluated along the first machine's run. -/
theorem run_simulation_of_guard
    (hstep : ∀ s t i, R s t → G s i → R (step s i).1 (step' t i).1 ∧ E (step s i).2 (step' t i).2)
    {t : σ'} (h : R s t) (hg : Guarded step G s is) :
    R (run step s is).1 (run step' t is).1
      ∧ List.Forall₂ (fun a b => a.1 = b.1 ∧ E a.2 b.2) (run step s is).2 (run step' t is).2 := by
  induction is generalizing s t with
  | nil => exact ⟨h, .nil⟩
  | cons i is ih =>
    obtain ⟨hR, hE⟩ := hstep s t i h hg.1
    obtain ⟨hend, htail⟩ := ih hR hg.2
    exact ⟨hend, .cons ⟨rfl, hE⟩ htail⟩

/-- **The simulation rule.** -/
theorem run_simulation
    (hstep : ∀ s t i, R s t → R (step s i).1 (step' t i).1 ∧ E (step s i).2 (step' t i).2)
    {t : σ'} (h : R s t) (is : List ι) :
    R (run step s is).1 (run step' t is).1
      ∧ List.Forall₂ (fun a b => a.1 = b.1 ∧ E a.2 b.2) (run step s is).2 (run step' t is).2 :=
  run_simulation_of_guard (G := fun _ _ => True) (fun s t i h _ => hstep s t i h) h
    (Guarded.of_forall (fun _ _ => trivial) s is)

end Machine
