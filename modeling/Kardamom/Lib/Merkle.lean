import Mathlib.Logic.Function.Iterate
import Mathlib.Tactic.Basic
import Mathlib.Data.Nat.Bitwise

/-!
# Positional Merkle trees

A binary tree of hashes, with one hash for the leaves and one for the pairs. A position is a depth
and an index: the two nodes below the node `i` stand at `2 * i` and `2 * i + 1` one level down.

`climb` recomputes a root from a node, its index and the siblings on the way, as a verifier does with
siblings it was given. `nodeAt_of_climb` says what such a walk shows: the node stands at that index
below the root. `nodeAt_leaf_iterate_up` says what it shows about a root that was built from a list of
leaves, level by level, when the hash has no collisions: the leaf is the one at that index of the
list, and the walk had the depth of the tree. `climb_siblings` is the other direction: the siblings
that the levels hold lead to the root.
-/

/-- The hash of a leaf and the hash of a pair. -/
structure TreeHash (α H : Type) where
  leaf : α → H
  node : H → H → H

namespace TreeHash

open Option List Function Nat

variable {α H : Type}

/-- No two leaves, no two pairs, and no leaf and pair have the same hash. -/
structure CollisionFree (T : TreeHash α H) : Prop where
  leaf_inj : ∀ {a b}, T.leaf a = T.leaf b → a = b
  node_inj : ∀ {a b c d}, T.node a b = T.node c d → a = c ∧ b = d
  leaf_ne_node : ∀ {a b c}, T.leaf a ≠ T.node b c

/-- Walk up from a node with its index and the siblings on the way: the last node, and what is left
of the index. -/
def climb (T : TreeHash α H) : H → Nat → List H → H × Nat
  | n, i, [] => (n, i)
  | n, i, s :: ss => climb T (if i % 2 = 0 then T.node n s else T.node s n) (i / 2) ss

/-- The node `n` stands at the index `i` of the depth `d` below the root `r`. -/
inductive NodeAt (T : TreeHash α H) (r : H) : Nat → Nat → H → Prop
  | root : NodeAt T r 0 0 r
  | left {d i : Nat} {a b : H} : NodeAt T r d i (T.node a b) → NodeAt T r (d + 1) (2 * i) a
  | right {d i : Nat} {a b : H} : NodeAt T r d i (T.node a b) → NodeAt T r (d + 1) (2 * i + 1) b

/-- The leaf `w` stands at the index `i` of some depth below the root `r`. -/
def LeafAt (T : TreeHash α H) (r : H) (i : Nat) (w : α) : Prop := ∃ d, T.NodeAt r d i (T.leaf w)

variable {T : TreeHash α H} {i : Nat} {n : H} {r : H}

/-- A walk that uses up its index ends at a root that has the node at that index. -/
theorem nodeAt_of_climb {siblings : List H}
    (h : T.climb n i siblings = (r, 0)) : T.NodeAt r siblings.length i n := by
  induction siblings generalizing n i with
  | nil =>
    obtain ⟨rfl, rfl⟩ := Prod.mk.inj h
    exact .root
  | cons s ss ih =>
    have hparent := ih h
    by_cases hi : i % 2 = 0
    · rw [if_pos hi] at hparent
      have heven : 2 * (i / 2) = i := by omega
      exact heven ▸ hparent.left
    · rw [if_neg hi] at hparent
      have hodd : 2 * (i / 2) + 1 = i := by omega
      exact hodd ▸ hparent.right

/-- The level above: neighbours combined in pairs. -/
def up (T : TreeHash α H) : List H → List H
  | a :: b :: rest => T.node a b :: up T rest
  | _ => []

theorem up_length (T : TreeHash α H) : ∀ xs : List H, (T.up xs).length = xs.length / 2
  | [] => by simp [up]
  | [_] => by simp [up]
  | a :: b :: rest => by
    rw [up, length_cons, up_length T rest, length_cons, length_cons]
    omega

variable {xs : List H} {k : Nat}

theorem up_length_two_pow (h : xs.length = 2 ^ (k + 1)) : (T.up xs).length = 2 ^ k := by
  rw [up_length]
  omega

/-- A node of the level above is the pair of the two nodes below it. -/
theorem getElem?_up : ∀ {xs : List H} {i : Nat} {n : H}, (T.up xs)[i]? = some n →
    ∃ a b, xs[2 * i]? = some a ∧ xs[2 * i + 1]? = some b ∧ n = T.node a b
  | [], _, _, h => by cases h
  | [_], _, _, h => by cases h
  | a :: b :: rest, 0, n, h => by
    obtain rfl := some.inj h
    exact ⟨a, b, rfl, rfl, rfl⟩
  | a :: b :: rest, i + 1, n, h => by
    obtain ⟨a', b', ha, hb, hn⟩ := getElem?_up (show (T.up rest)[i]? = some n from h)
    exact ⟨a', b', ha, hb, hn⟩

variable {d : Nat}

/-- The nodes below a root that was built level by level are the nodes of the levels. -/
theorem getElem?_of_nodeAt (hT : T.CollisionFree)
    (hr : T.up^[k] xs = [r]) (h : T.NodeAt r d i n) (hd : d ≤ k) :
    (T.up^[k - d] xs)[i]? = some n := by
  -- each case needs the pair that the level above holds
  have hpair : ∀ {d i : Nat} {a b : H}, d + 1 ≤ k → (T.up^[k - d] xs)[i]? = some (T.node a b) →
      (T.up^[k - (d + 1)] xs)[2 * i]? = some a ∧ (T.up^[k - (d + 1)] xs)[2 * i + 1]? = some b := by
    intro d i a b hd hget
    have hk : k - d = k - (d + 1) + 1 := by omega
    rw [hk, iterate_succ_apply'] at hget
    obtain ⟨a', b', ha, hb, hn⟩ := getElem?_up hget
    obtain ⟨rfl, rfl⟩ := hT.node_inj hn
    exact ⟨ha, hb⟩
  induction h with
  | root =>
    rw [Nat.sub_zero, hr]
    rfl
  | left _ ih => exact (hpair hd (ih (by omega))).1
  | right _ ih => exact (hpair hd (ih (by omega))).2

section

variable {ws : List α} (hT : T.CollisionFree) (hr : T.up^[k] (ws.map T.leaf) = [r])
include hT hr

/-- No node stands below the hash of a leaf. -/
theorem depth_le_of_nodeAt (h : T.NodeAt r d i n) : d ≤ k := by
  have hlevel : ∀ {d i : Nat} {a b : H}, T.NodeAt r d i (T.node a b) → d ≤ k → d + 1 ≤ k := by
    intro d i a b hnode hd
    by_contra hlt
    obtain rfl : d = k := by omega
    have hget := getElem?_of_nodeAt hT hr hnode (Nat.le_refl d)
    rw [Nat.sub_self, iterate_zero, id, getElem?_map, map_eq_some_iff] at hget
    obtain ⟨w, -, hw⟩ := hget
    exact hT.leaf_ne_node hw
  induction h with
  | root => exact Nat.zero_le k
  | left hnode ih | right hnode ih => exact hlevel hnode ih

/-- **Only the leaves of the list are below its root**, each at its own index of the lowest level. -/
theorem nodeAt_leaf_iterate_up {w : α} (h : T.NodeAt r d i (T.leaf w)) :
    d = k ∧ ws[i]? = some w := by
  have hd : d ≤ k := depth_le_of_nodeAt hT hr h
  have hget := getElem?_of_nodeAt hT hr h hd
  cases hk : k - d with
  | zero =>
    rw [hk, iterate_zero, id, getElem?_map, map_eq_some_iff] at hget
    obtain ⟨w', hw', heq⟩ := hget
    rw [hw', hT.leaf_inj heq]
    exact ⟨by omega, rfl⟩
  | succ m =>
    -- a level above the lowest holds no leaf
    rw [hk, iterate_succ_apply'] at hget
    obtain ⟨a, b, -, -, hn⟩ := getElem?_up hget
    exact absurd hn hT.leaf_ne_node

end

/-- Combine levels until one node is left; `fuel` bounds the number of levels. -/
def reduce (T : TreeHash α H) : Nat → List H → List H
  | 0, xs => xs
  | fuel + 1, xs => if 1 < xs.length then reduce T fuel (T.up xs) else xs

theorem reduce_eq_iterate {k fuel : Nat} (h : xs.length = 2 ^ k) (hk : k ≤ fuel) :
    T.reduce fuel xs = T.up^[k] xs := by
  induction fuel generalizing k xs with
  | zero =>
    obtain rfl : k = 0 := by omega
    rfl
  | succ fuel ih =>
    cases k with
    | zero =>
      rw [reduce, if_neg (by omega)]
      rfl
    | succ k =>
      have hpos : 0 < 2 ^ k := Nat.two_pow_pos k
      rw [reduce, if_pos (by rw [h, Nat.pow_succ]; omega)]
      exact ih (up_length_two_pow h) (by omega)

theorem iterate_up_length (h : xs.length = 2 ^ k) : (T.up^[k] xs).length = 1 := by
  induction k generalizing xs with
  | zero => exact h
  | succ k ih =>
    exact ih (up_length_two_pow h)

/-- The siblings on the way up from an index, with the bound on the levels of `reduce`. `none` is a
level that has no sibling there. -/
def siblings (T : TreeHash α H) : Nat → List H → Nat → Option (List H)
  | 0, _, _ => some []
  | fuel + 1, xs, i =>
    if 1 < xs.length then do
      let s ← xs[i ^^^ 1]?
      let ss ← siblings T fuel (T.up xs) (i / 2)
      return s :: ss
    else some []

/-- **The siblings of a full tree lead to its root.** -/
theorem climb_siblings {fuel : Nat} (h : xs.length = 2 ^ k) (hk : k ≤ fuel) (hn : xs[i]? = some n) :
    ∃ ss r, T.siblings fuel xs i = some ss ∧ T.up^[k] xs = [r] ∧ T.climb n i ss = (r, 0) := by
  induction k generalizing fuel xs i n with
  | zero =>
    obtain ⟨r, rfl⟩ := length_eq_one_iff.1 h
    obtain rfl : i = 0 := by
      have := (List.getElem?_eq_some_iff.1 hn).1
      omega
    obtain rfl := some.inj hn
    refine ⟨[], r, ?_, rfl, rfl⟩
    cases fuel <;> rfl
  | succ k ih =>
    obtain ⟨fuel, rfl⟩ : ∃ m, fuel = m + 1 := ⟨fuel - 1, by omega⟩
    have hup : (T.up xs).length = 2 ^ k := up_length_two_pow h
    have hi : i < xs.length := (List.getElem?_eq_some_iff.1 hn).1
    obtain ⟨m, hm⟩ : ∃ m, (T.up xs)[i / 2]? = some m := ⟨_, getElem?_eq_getElem (by omega)⟩
    obtain ⟨a, b, ha, hb, rfl⟩ := getElem?_up hm
    obtain ⟨ss, r, hss, hr, hclimb⟩ := ih hup (le_of_succ_le_succ hk) hm
    -- of the pair above one node is where the walk stands and the other is its sibling
    obtain ⟨s, hs, hpair⟩ : ∃ s, xs[i ^^^ 1]? = some s ∧
        (if i % 2 = 0 then T.node n s else T.node s n) = T.node a b := by
      rcases mod_two_eq_zero_or_one i with hparity | hparity
      · have hleft : 2 * (i / 2) = i := by omega
        rw [hleft] at ha hb
        rw [xor_one_of_even (even_iff.2 hparity)]
        exact ⟨b, hb, by rw [if_pos hparity, some.inj (hn.symm.trans ha)]⟩
      · have hright : 2 * (i / 2) + 1 = i := by omega
        have hleft : i - 1 = 2 * (i / 2) := by omega
        rw [hright] at hb
        rw [xor_one_of_odd (odd_iff.2 hparity), hleft]
        exact ⟨a, ha, by rw [if_neg (by omega), some.inj (hn.symm.trans hb)]⟩
    refine ⟨s :: ss, r, ?_, hr, ?_⟩
    · rw [siblings, if_pos (by have := Nat.two_pow_pos k; omega), hs, hss]
      rfl
    · rw [climb, hpair, hclimb]

end TreeHash
