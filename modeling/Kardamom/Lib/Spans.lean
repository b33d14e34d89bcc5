import Mathlib.Algebra.BigOperators.Group.List.Basic
import Mathlib.Algebra.GroupWithZero.Nat

/-!
# Items laid end to end

A list whose items take some width each, as the records of an append-only file or the slots of a
log do. The position of an item is the width of the items before it. `dropTo` and `takeTo` cut the
list at a position; at the position of an item they cut exactly there (`dropTo_span_append`), so a
reader that holds a position finds the same item again after the list grew at its end.
-/

namespace Laid

variable {α : Type*}

/-- The width of a list of items. -/
def span (w : α → Nat) (xs : List α) : Nat := (xs.map w).sum

/-- The items from position `p` on; none when no item stands at `p`. -/
def dropTo (w : α → Nat) : List α → Nat → List α
  | [], _ => []
  | x :: xs, p => if p = 0 then x :: xs else if p < w x then [] else dropTo w xs (p - w x)

/-- The items before position `p`. -/
def takeTo (w : α → Nat) : List α → Nat → List α
  | [], _ => []
  | x :: xs, p => if p = 0 then [] else x :: takeTo w xs (p - w x)

variable {w : α → Nat}

@[simp] theorem span_nil : span w [] = 0 := rfl

@[simp] theorem span_cons (x : α) (xs : List α) : span w (x :: xs) = w x + span w xs := by
  simp [span]

@[simp] theorem span_append (xs ys : List α) : span w (xs ++ ys) = span w xs + span w ys := by
  simp [span]

theorem span_one (xs : List α) : span (fun _ => 1) xs = xs.length := by
  simp [span]

theorem span_pos (hw : ∀ x, 0 < w x) {xs : List α} (h : xs ≠ []) : 0 < span w xs := by
  cases xs with
  | nil => exact absurd rfl h
  | cons x xs =>
    have := hw x
    rw [span_cons]
    omega

@[simp] theorem dropTo_zero (xs : List α) : dropTo w xs 0 = xs := by
  cases xs <;> simp [dropTo]

@[simp] theorem takeTo_zero (xs : List α) : takeTo w xs 0 = [] := by
  cases xs <;> simp [takeTo]

/-- At the position of an item, the cut leaves that item and those after it. -/
theorem dropTo_span_append (hw : ∀ x, 0 < w x) (xs ys : List α) :
    dropTo w (xs ++ ys) (span w xs) = ys := by
  induction xs with
  | nil => simp
  | cons x xs ih =>
    have := hw x
    rw [List.cons_append, dropTo, span_cons, if_neg (by omega), if_neg (by omega),
      Nat.add_sub_cancel_left, ih]

/-- At the position of an item, the cut takes the items before it. -/
theorem takeTo_span_append (hw : ∀ x, 0 < w x) (xs ys : List α) :
    takeTo w (xs ++ ys) (span w xs) = xs := by
  induction xs with
  | nil => simp
  | cons x xs ih =>
    have := hw x
    rw [List.cons_append, takeTo, span_cons, if_neg (by omega), Nat.add_sub_cancel_left, ih]

end Laid
