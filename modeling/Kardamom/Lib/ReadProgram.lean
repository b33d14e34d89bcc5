import Mathlib.Data.List.Basic

/-!
# Programs that read

A computation over a store that it can only read: it asks for the value of a key, goes on with the answer, and at
last returns. Its result is a function of the answers and of nothing else. A property that sequencing keeps holds of a
program when it holds of its reads (`Property`).

A store can hold every key (`run`) or refuse those that it does not hold (`tryRun`), and one store can be built over
another by answering each key with a program over that one (`interpret`).
-/

/-- A computation that reads values `ν k` at keys `k` and returns an `α`. -/
inductive ReadProgram (κ : Type) (ν : κ → Type) (α : Type) where
  | done (a : α)
  | read (k : κ) (next : ν k → ReadProgram κ ν α)

namespace ReadProgram

open Except

variable {κ κ' : Type} {ν : κ → Type} {ν' : κ' → Type} {α β ε : Type}

/-- Go on with the result. -/
def bind : ReadProgram κ ν α → (α → ReadProgram κ ν β) → ReadProgram κ ν β
  | done a, f => f a
  | read k next, f => read k fun v => (next v).bind f

instance : Monad (ReadProgram κ ν) where
  pure := done
  bind := bind

/-- The result over a store that holds every key. -/
def run (view : ∀ k, ν k) : ReadProgram κ ν α → α
  | done a => a
  | read k next => (next (view k)).run view

/-- The result over a store that holds some keys, or the first key that it does not hold. -/
def tryRun (view : ∀ k, Option (ν k)) : ReadProgram κ ν α → Except κ α
  | done a => .ok a
  | read k next =>
    match view k with
    | some v => (next v).tryRun view
    | none => .error k

/-- The program that also returns its reads with their answers, after those in `log`. -/
def logged : List (Σ k, ν k) → ReadProgram κ ν α → ReadProgram κ ν (α × List (Σ k, ν k))
  | log, done a => done (a, log)
  | log, read k next => read k fun v => (next v).logged (log ++ [⟨k, v⟩])

/-- The program over another store, which answers each key with a program of its own. -/
def interpret (answer : ∀ k, ReadProgram κ' ν' (ν k)) : ReadProgram κ ν α → ReadProgram κ' ν' α
  | done a => done a
  | read k next => (answer k).bind fun v => (next v).interpret answer

/-- A value that is at hand, or what a program finds. -/
def cached (hit : Option α) (miss : ReadProgram κ ν α) : ReadProgram κ ν α :=
  match hit with
  | some a => done a
  | none => miss

/-! ## Results -/

variable (view : ∀ k, ν k)

@[simp] theorem run_pure (a : α) : (pure a : ReadProgram κ ν α).run view = a := rfl

@[simp] theorem run_bind (p : ReadProgram κ ν α) (f : α → ReadProgram κ ν β) :
    (p >>= f).run view = (f (p.run view)).run view := by
  induction p with
  | done a => rfl
  | read k next ih => exact ih (view k)

@[simp] theorem run_cached (hit : Option α) (miss : ReadProgram κ ν α) :
    (cached hit miss).run view = hit.getD (miss.run view) := by
  cases hit with
  | none | some => rfl

variable {view}

/-! ## Properties of programs -/

/-- A property of programs that a program has when its parts have it. -/
structure Property (κ : Type) (ν : κ → Type) where
  Of : ∀ {α : Type}, ReadProgram κ ν α → Prop
  done : ∀ {α : Type} (a : α), Of (done a)
  bind : ∀ {α β : Type} {p : ReadProgram κ ν α} {f : α → ReadProgram κ ν β}, Of p → (∀ a, Of (f a)) → Of (p >>= f)

variable {p : ReadProgram κ ν α}

namespace Property

section

variable (Q : Property κ ν)

theorem cached {miss : ReadProgram κ ν α} (h : Q.Of miss) (hit : Option α) :
    Q.Of (cached hit miss) := by
  cases hit with
  | none => exact h
  | some a => exact Q.done a

theorem interpret (Q : Property κ' ν') {answer : ∀ k, ReadProgram κ' ν' (ν k)} (h : ∀ k, Q.Of (answer k))
    (p : ReadProgram κ ν α) : Q.Of (p.interpret answer) := by
  induction p with
  | done a => exact Q.done a
  | read k next ih => exact Q.bind (h k) ih

theorem bind_except {x : ExceptT ε (ReadProgram κ ν) α}
    {f : α → ExceptT ε (ReadProgram κ ν) β} (hx : Q.Of x.run) (hf : ∀ a, Q.Of (f a).run) :
    Q.Of (x >>= f : ExceptT ε (ReadProgram κ ν) β).run := by
  refine Q.bind hx fun r => ?_
  cases r with
  | error e => exact Q.done _
  | ok a => exact hf a

theorem lift (hp : Q.Of p) : Q.Of (ExceptT.lift p : ExceptT ε (ReadProgram κ ν) α).run :=
  Q.bind hp fun _ => Q.done _

end

end Property

/-- The program asks for no keys but those in `S`, whatever it is answered. -/
def Asks (S : κ → Prop) : ReadProgram κ ν α → Prop
  | done _ => True
  | read k next => S k ∧ ∀ v, (next v).Asks S

variable {f : α → ReadProgram κ ν β} {S : κ → Prop}

theorem Asks.bind (hp : p.Asks S) (hf : ∀ a, (f a).Asks S) : (p >>= f).Asks S := by
  induction p with
  | done a => exact hf a
  | read k next ih => exact ⟨hp.1, fun v => ih v (hp.2 v)⟩

/-- To ask for keys in `S` only. -/
def asking (S : κ → Prop) : Property κ ν where
  Of p := p.Asks S
  done _ := trivial
  bind := Asks.bind

/-- The program goes on in the same way from any two answers that `R` relates. -/
def Respects (R : ∀ k, ν k → ν k → Prop) : ReadProgram κ ν α → Prop
  | done _ => True
  | read k next => (∀ v w, R k v w → next v = next w) ∧ ∀ v, (next v).Respects R

variable {R : ∀ k, ν k → ν k → Prop}

theorem Respects.bind (hp : p.Respects R) (hf : ∀ a, (f a).Respects R) : (p >>= f).Respects R := by
  induction p with
  | done a => exact hf a
  | read k next ih =>
    refine ⟨fun v w hvw => ?_, fun v => ih v (hp.2 v)⟩
    exact congrArg (fun q => ReadProgram.bind q f) (hp.1 v w hvw)

/-- To tell no two answers apart that `R` relates. -/
def respecting (R : ∀ k, ν k → ν k → Prop) : Property κ ν where
  Of p := p.Respects R
  done _ := trivial
  bind := Respects.bind

/-- **Two partial stores that answer alike give one result**, if both give one. -/
theorem Respects.eq_of_tryRun {part part' : ∀ k, Option (ν k)}
    (h : ∀ k v w, part k = some v → part' k = some w → R k v w) (hp : p.Respects R) {a b : α}
    (ha : p.tryRun part = .ok a) (hb : p.tryRun part' = .ok b) : a = b := by
  induction p with
  | done c => exact (ok.inj ha).symm.trans (ok.inj hb)
  | read k next ih =>
    unfold tryRun at ha hb
    cases hv : part k with
    | none =>
      rw [hv] at ha
      cases ha
    | some v =>
      cases hw : part' k with
      | none =>
        rw [hw] at hb
        cases hb
      | some w =>
        rw [hv] at ha
        rw [hw] at hb
        dsimp only at ha hb
        rw [← hp.1 v w (h k v w hv hw)] at hb
        exact ih v (hp.2 v) ha hb

/-- **A partial store does not lie.** If it agrees with a full one wherever it holds a key that the program can ask
for, a result over it is the result over the full one. -/
theorem Asks.run_eq_of_tryRun {part : ∀ k, Option (ν k)}
    (h : ∀ k v, S k → part k = some v → view k = v) (hasks : p.Asks S) {a : α}
    (hp : p.tryRun part = .ok a) : p.run view = a := by
  induction p with
  | done b => exact ok.inj hp
  | read k next ih =>
    unfold tryRun at hp
    cases hpart : part k with
    | none =>
      rw [hpart] at hp
      cases hp
    | some v =>
      rw [hpart] at hp
      change (next (view k)).run view = a
      rw [h k v hasks.1 hpart]
      exact ih v (hasks.2 v) hp

end ReadProgram
