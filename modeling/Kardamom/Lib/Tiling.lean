import Mathlib.Data.List.Chain
import Mathlib.Data.Int.Order.Basic

/-!
# Ranges that stand end to end

`Tiles a rs b` says that the ranges `[i, i + n)` of the list, none of them empty, stand end to end
from `a` to `b`. It grows at its end (`Tiles.snoc`), which is how a counter hands out ranges, and it
gives the three readings that a user of the ranges wants: each starts where the one before ends
(`consecutive`), no two overlap (`disjoint`), and together they are exactly `[a, b)` (`cover`).
-/

/-- The ranges `[i, i + n)` stand end to end and fill `[a, b)`. -/
def Tiles : Int → List (Int × Int) → Int → Prop
  | a, [], b => a = b
  | a, (i, n) :: rs, b => i = a ∧ 1 ≤ n ∧ Tiles (a + n) rs b

namespace Tiles

open List

variable {a b : Int} {rs : List (Int × Int)}

variable (h : Tiles a rs b)
include h

/-- The next range starts at the end. -/
theorem snoc {n : Int} (hn : 1 ≤ n) : Tiles a (rs ++ [(b, n)]) (b + n) := by
  induction rs generalizing a with
  | nil =>
    obtain rfl : a = b := h
    exact ⟨rfl, hn, rfl⟩
  | cons r rs ih => exact ⟨h.1, h.2.1, ih h.2.2⟩

theorem le : a ≤ b := by
  induction rs generalizing a with
  | nil => exact le_of_eq h
  | cons r rs ih =>
    have := ih h.2.2
    have := h.2.1
    omega

/-- No range starts before the first one, or ends past the last one. -/
theorem bounds : ∀ r ∈ rs, a ≤ r.1 ∧ 1 ≤ r.2 ∧ r.1 + r.2 ≤ b := by
  induction rs generalizing a with
  | nil => simp
  | cons r rs ih =>
    obtain ⟨h1, h2, h3⟩ := h
    intro x hx
    rcases mem_cons.1 hx with rfl | hx
    · exact ⟨h1.ge, h2, h1 ▸ h3.le⟩
    · have := ih h3 x hx
      omega

/-- Each range starts where the one before ends. -/
theorem consecutive : rs.IsChain fun r r' => r'.1 = r.1 + r.2 := by
  induction rs generalizing a with
  | nil => exact .nil
  | cons r rs ih =>
    obtain ⟨h1, -, h3⟩ := h
    refine isChain_cons.2 ⟨?_, ih h3⟩
    intro r' hr'
    cases rs with
    | nil => cases hr'
    | cons x xs =>
      obtain rfl := Option.some.inj hr'
      rw [h3.1, h1]

/-- No two ranges overlap, and they come in ascending order. -/
theorem disjoint : rs.Pairwise fun r r' => r.1 + r.2 ≤ r'.1 := by
  induction rs generalizing a with
  | nil => exact .nil
  | cons r rs ih =>
    obtain ⟨h1, -, h3⟩ := h
    exact .cons (fun r' hr' => h1 ▸ (h3.bounds r' hr').1) (ih h3)

/-- Together the ranges are exactly `[a, b)`. -/
theorem cover (x : Int) : (∃ r ∈ rs, r.1 ≤ x ∧ x < r.1 + r.2) ↔ a ≤ x ∧ x < b := by
  induction rs generalizing a with
  | nil =>
    obtain rfl : a = b := h
    simp only [not_mem_nil, false_and, exists_false, false_iff]
    omega
  | cons r rs ih =>
    obtain ⟨h1, h2, h3⟩ := h
    have := h3.le
    simp only [mem_cons, or_and_right, exists_or, exists_eq_left, ih h3]
    omega

end Tiles
