import Mathlib.Data.List.Basic
import Mathlib.Data.List.TakeWhile

/-!
# Partition points

The index where a list stops satisfying a predicate. On a list whose elements that satisfy it all
come first, which is what an ascending list is for a bound on its keys, this is the point that a
binary search finds; the lemmas say what stands on its two sides.
-/

namespace PartitionPoint

open List

variable {α : Type*} {p : α → Bool} {l : List α}

/-- The number of leading elements that satisfy `p`. -/
def partitionPoint (p : α → Bool) (l : List α) : Nat := (l.takeWhile p).length

section

variable (p : α → Bool) (l : List α)

theorem take_partitionPoint : l.take (partitionPoint p l) = l.takeWhile p := by
  nth_rewrite 2 [← takeWhile_append_dropWhile (l := l)]
  exact take_left

theorem drop_partitionPoint : l.drop (partitionPoint p l) = l.dropWhile p := by
  nth_rewrite 2 [← takeWhile_append_dropWhile (l := l)]
  exact drop_left

theorem partitionPoint_le : partitionPoint p l ≤ l.length := (takeWhile_sublist p).length_le

end

/-- Behind the partition point no element satisfies `p`, when the ones that do come first. -/
theorem not_of_mem_dropWhile (h : l.Pairwise fun a b => p b = true → p a = true) {x : α}
    (hx : x ∈ l.dropWhile p) : p x = false := by
  induction l with
  | nil => cases hx
  | cons a l ih =>
    obtain ⟨ha, hl⟩ := pairwise_cons.1 h
    cases hpa : p a with
    | true =>
      rw [dropWhile_cons_of_pos hpa] at hx
      exact ih hl hx
    | false =>
      rw [dropWhile_cons_of_neg (by simp [hpa])] at hx
      rcases mem_cons.1 hx with rfl | hx
      · exact hpa
      · exact Bool.eq_false_iff.2 fun hpx => by simp [ha x hx hpx] at hpa

end PartitionPoint
