import Kardamom.Lib.PartitionPoint
import Mathlib.Data.List.Lex
import Mathlib.Data.List.Infix
import Mathlib.Order.Lattice

/-!
# Keys below a path in a sorted list

In lexicographic order the keys that start with a path stand together. A cursor that seeks the first of
them and reads on while the keys still start with the path gives exactly these (`takeWhile_dropWhile`), and
the first key from the path on says whether there is one (`getElem?_partitionPoint`).
-/

namespace KeyRange

open PartitionPoint List

variable {A α : Type*} [LinearOrder A] {p b c : List A}

/-- What lies between a path and a key below it starts with the path. -/
theorem isPrefix_of_between (hp : ¬ b < p) (hb : ¬ c < b) (hc : p <+: c) : p <+: b := by
  induction p generalizing b c with
  | nil => exact nil_prefix
  | cons x p ih =>
    cases b with
    | nil => exact absurd (nil_lt_cons x p) hp
    | cons y b =>
      obtain ⟨r, rfl⟩ := hc
      rw [cons_lt_cons_iff, not_or] at hp
      rw [cons_append, cons_lt_cons_iff, not_or] at hb
      obtain rfl : y = x := le_antisymm (not_lt.1 hb.1) (not_lt.1 hp.1)
      have hrest := ih (fun h => hp.2 ⟨rfl, h⟩) (fun h => hb.2 ⟨rfl, h⟩) (prefix_append p r)
      exact cons_prefix_cons.2 ⟨rfl, hrest⟩

/-- Keys below different digits are ordered as the digits. -/
theorem lt_of_digit_lt {x y : A} (hxy : x < y) (hb : p ++ [x] <+: b) (hc : p ++ [y] <+: c) : b < c := by
  obtain ⟨r, rfl⟩ := hb
  obtain ⟨s, rfl⟩ := hc
  rw [append_assoc, append_assoc]
  exact append_left_lt (cons_lt_cons_iff.2 (.inl hxy))

variable {key : α → List A} {l : List α}

theorem takeWhile_eq_filter (hl : l.Pairwise fun x y => key x < key y) (hp : ∀ x ∈ l, ¬ key x < p) :
    l.takeWhile (fun x => p <+: key x) = l.filter fun x => p <+: key x := by
  induction l with
  | nil => rfl
  | cons x l ih =>
    obtain ⟨hx, hl'⟩ := pairwise_cons.1 hl
    by_cases hpx : p <+: key x
    · rw [takeWhile_cons_of_pos (by simpa using hpx), filter_cons_of_pos (by simpa using hpx),
        ih hl' fun y hy => hp y (mem_cons_of_mem x hy)]
    · -- nothing behind starts with the path either
      have hnone : ∀ y ∈ x :: l, ¬ p <+: key y := fun y hy hpy => by
        rcases mem_cons.1 hy with rfl | hy
        · exact hpx hpy
        · exact hpx (isPrefix_of_between (hp x mem_cons_self) (lt_asymm (hx y hy)) hpy)
      rw [takeWhile_cons_of_neg (by simpa using hpx)]
      simpa using hnone

/-- **The cursor**: from the first key that is not below the start, while the keys start with the path. -/
theorem takeWhile_dropWhile (hl : l.Pairwise fun x y => key x < key y) {start : List A} (hstart : p <+: start)
    (hfirst : ∀ x ∈ l, p <+: key x → ¬ key x < start) :
    (l.dropWhile fun x => key x < start).takeWhile (fun x => p <+: key x) = l.filter fun x => p <+: key x := by
  induction l with
  | nil => rfl
  | cons x l ih =>
    obtain ⟨hx, hl'⟩ := pairwise_cons.1 hl
    by_cases hlt : key x < start
    · rw [dropWhile_cons_of_pos (by simpa using hlt), filter_cons_of_neg,
        ih hl' fun y hy => hfirst y (mem_cons_of_mem x hy)]
      simpa using fun hpx => hfirst x mem_cons_self hpx hlt
    · rw [dropWhile_cons_of_neg (by simpa using hlt)]
      have hxp : ¬ key x < p := fun h => hlt (lt_of_lt_of_le h (not_lt.1 hstart.le))
      refine takeWhile_eq_filter hl fun y hy h => ?_
      rcases mem_cons.1 hy with rfl | hy
      · exact hxp h
      · exact hxp (lt_trans (hx y hy) h)

/-- **The search**: the first key from the path on tells whether some key starts with it. -/
theorem getElem?_partitionPoint {keys : List (List A)} (hl : keys.Pairwise (· < ·)) (p : List A) :
    (keys[partitionPoint (fun k => k < p) keys]?.any fun k => p <+: k) = true ↔ ∃ k ∈ keys, p <+: k := by
  have hrange : (keys.dropWhile fun k => k < p).takeWhile (fun k => p <+: k) = keys.filter fun k => p <+: k :=
    takeWhile_dropWhile hl (prefix_refl p) fun k _ hk => hk.le
  have hhead : keys[partitionPoint (fun k => k < p) keys]? = (keys.dropWhile fun k => k < p).head? := by
    rw [← drop_partitionPoint, List.head?_drop]
  have hsome : (∃ k ∈ keys, p <+: k) ↔ keys.filter (fun k => p <+: k) ≠ [] := by
    simp
  rw [hhead, hsome, ← hrange]
  cases hd : keys.dropWhile fun k => k < p with
  | nil => simp
  | cons k rest =>
    by_cases hk : p <+: k <;> simp [hk]

end KeyRange
