import Mathlib.Data.List.Basic

/-!
# Calls that may be re-entered

A contract is entered by a call: it answers an error, or it is done, or it hands control to a party
outside. What that party does is any list of further calls, each with its own inner calls, and in
the end it accepts or refuses. A call that answers an error leaves the state as it was, with
everything that happened inside of it; the caller goes on.

Every behaviour of the parties outside on a given state is one `CallTree`, so what holds for every
tree holds under every re-entrance. `CallTree.exec_invariant` and `CallTree.execAll_invariant` reduce
an invariant to the one step `enter`.
-/

open Except

namespace Except

variable {ε α β : Type} {x : Except ε α}

theorem map_eq_ok_iff {f : α → β} {b : β} : x.map f = .ok b ↔ ∃ a, x = .ok a ∧ f a = b := by
  cases x <;> simp [Except.map]

theorem bind_eq_ok_iff {f : α → Except ε β} {b : β} : (x >>= f) = .ok b ↔ ∃ a, x = .ok a ∧ f a = .ok b := by
  cases x <;> simp [bind, Except.bind]

variable {a : α}

theorem pure_eq_ok_iff {b : α} : (pure a : Except ε α) = .ok b ↔ a = b :=
  ⟨fun h => ok.inj h, fun h => congrArg _ h⟩

theorem bind_of_eq_ok (h : x = .ok a) (f : α → Except ε β) : (x >>= f) = f a := by
  rw [h]
  rfl

variable {e : ε}

theorem guard_eq_ok_iff {p : Prop} [Decidable p] :
    (if p then .error e else x) = .ok a ↔ ¬ p ∧ x = .ok a := by
  split <;> simp [*]

/-- Go on if the condition holds, stop with the error if not. -/
def require (p : Prop) [Decidable p] (e : ε) : Except ε Unit := if p then .ok () else .error e

theorem require_eq_ok_iff {p : Prop} [Decidable p] {u : Unit} : require p e = .ok u ↔ p := by
  unfold require
  split
  · simp [*]
  · simp [*]

/-- The value, or the error when there is none. -/
def ofOption (e : ε) : Option α → Except ε α
  | some a => .ok a
  | none => .error e

theorem ofOption_eq_ok_iff {x : Option α} : ofOption e x = .ok a ↔ x = some a := by
  cases x <;> simp [ofOption]

/-- The state after a computation that rolls back when it fails. -/
def settle (s : α) : Except ε α → α
  | .ok s' => s'
  | .error _ => s

@[simp] theorem settle_error (s : α) (e : ε) : (.error e : Except ε α).settle s = s := rfl

theorem settle_of {P : α → Prop} {s : α} (hs : P s) (hx : ∀ s', x = .ok s' → P s') : P (x.settle s) := by
  cases x with
  | ok s' => exact hx s' rfl
  | error e => exact hs

end Except

/-- Where a call stands when its own code has run up to the point where it hands control out. -/
inductive Entered (σ : Type) where
  | done (s : σ)
  | calling (s : σ)

namespace Entered

variable {σ : Type}

def state : Entered σ → σ
  | done s => s
  | calling s => s

end Entered

/-- A contract with storage `σ`, calls `κ` and errors `ε`. `refused` is the error of a call whose
outside party reverts. -/
structure Contract (σ κ ε : Type) where
  enter : κ → σ → Except ε (Entered σ)
  refused : ε

/-- A call with the calls made from inside of it, or the frame of an outside party that makes calls
and then returns or reverts. -/
inductive CallTree (κ : Type) where
  | call (c : κ) (inner : List (CallTree κ)) (accepts : Bool)
  | frame (inner : List (CallTree κ)) (returns : Bool)

namespace CallTree

variable {σ κ ε : Type}

mutual

/-- The state after a call, or the error it reverts with. -/
def exec (C : Contract σ κ ε) : CallTree κ → σ → Except ε σ
  | .call c inner accepts, s =>
    match C.enter c s with
    | .error e => .error e
    | .ok (.done s') => .ok s'
    | .ok (.calling s') => if accepts then .ok (execAll C inner s') else .error C.refused
  | .frame inner returns, s => if returns then .ok (execAll C inner s) else .error C.refused

/-- The state after several calls, one after the other, each rolled back if it reverts. -/
def execAll (C : Contract σ κ ε) : List (CallTree κ) → σ → σ
  | [], s => s
  | t :: ts, s => execAll C ts ((exec C t s).settle s)

end

variable {C : Contract σ κ ε}

/-- What a call that does not revert did. -/
theorem exec_call_eq_ok {c : κ} {inner : List (CallTree κ)} {accepts : Bool} {s s' : σ}
    (h : exec C (.call c inner accepts) s = .ok s') :
    C.enter c s = .ok (.done s')
      ∨ ∃ mid, C.enter c s = .ok (.calling mid) ∧ s' = execAll C inner mid := by
  unfold exec at h
  split at h
  · cases h
  · rename_i mid hmid
    exact .inl (hmid.trans (congrArg (fun x => ok (Entered.done x)) (ok.inj h)))
  · rename_i mid hmid
    split at h
    · exact .inr ⟨mid, hmid, (ok.inj h).symm⟩
    · cases h

mutual

variable {P : σ → Prop}

/-- What entering the contract keeps, every call keeps, whatever is called from inside of it. -/
theorem exec_invariant (hP : ∀ c s e, P s → C.enter c s = .ok e → P e.state) :
    ∀ (t : CallTree κ) {s s' : σ}, P s → exec C t s = .ok s' → P s'
  | .call c inner accepts, s, s', hs, h => by
    rcases exec_call_eq_ok h with hdone | ⟨mid, hmid, rfl⟩
    · exact hP c s _ hs hdone
    · exact execAll_invariant hP inner (hP c s _ hs hmid)
  | .frame inner returns, s, s', hs, h => by
    unfold exec at h
    split at h
    · obtain rfl := ok.inj h
      exact execAll_invariant hP inner hs
    · cases h

theorem execAll_invariant (hP : ∀ c s e, P s → C.enter c s = .ok e → P e.state) :
    ∀ (ts : List (CallTree κ)) {s : σ}, P s → P (execAll C ts s)
  | [], s, hs => by
    unfold execAll
    exact hs
  | t :: ts, s, hs => by
    unfold execAll
    exact execAll_invariant hP ts (settle_of hs fun s' h => exec_invariant hP t hs h)

end

end CallTree
