import Kardamom.Lib.PatriciaSub
import Kardamom.State.Mpt
import Mathlib.Data.List.Lex

/-!
# The hash builder and its stored nodes

The builder takes the items of a trie in ascending order of their paths: a leaf, or a whole subtrie by the
hash of its branch. It answers the root, and the branch nodes to store for the next time: those with a
branch somewhere below them (`HashBuilder.build`).

A trie in which some stored branches are given by their hash (`Cut`) has the same root as the trie of all
its leaves, and the same nodes where it still has them.
-/

namespace Kardamom.Mpt

open Patricia Patricia.Trie List Codec List

variable {H : Type}

/-- What is added to the builder at a path. -/
inductive Item (H : Type) where
  | leaf (value : Bytes)
  /-- A subtrie that is in the database, by the hash of its branch. -/
  | branch (hash : H)

abbrev ItemTrie (H : Type) := Trie Nibble (Item H)

/-- A branch node as the database keeps it. -/
structure BranchNodeCompact (H : Type) where
  /-- The children that there are. -/
  stateMask : TrieMask
  /-- The children with a stored node at or below them. -/
  treeMask : TrieMask
  /-- The children that are branches, whose hashes follow. -/
  hashMask : TrieMask
  hashes : List H
  rootHash : Option H

/-- The hash of a child, at the place that the mask gives it. -/
def BranchNodeCompact.hashForNibble (node : BranchNodeCompact H) (i : Nibble) : Option H :=
  node.hashes[(((finRange 16).take i.val).filter node.hashMask).length]?

/-- A table of nodes, by their paths. -/
abbrev NodeTable (H : Type) := Nibbles → Option (BranchNodeCompact H)

/-- The item trie of all leaves. -/
def full (t : MptTrie) : ItemTrie H := t.map .leaf

/-- A branch stands at the top. -/
def isBranchNode : ItemTrie H → Bool
  | .branch _ => true
  | .leaf [] (.branch _) => true
  | _ => false

/-- A node of the trie is in the database. -/
def hasStored : ItemTrie H → Bool
  | .nil => false
  | .leaf _ (.leaf _) => false
  | .leaf _ (.branch _) => true
  | .ext _ child => hasStored child
  | .branch children => (finRange 16).any fun i => isBranchNode (children i) || hasStored (children i)

namespace Codec

variable (C : Codec H)

/-- The reference to a trie of items. -/
def itemRef : ItemTrie H → RlpNode H
  | .nil => C.fromRlp (C.encode .emptyRoot)
  | .leaf key (.leaf value) => C.fromRlp (C.encode (.leaf key value))
  | .leaf key (.branch hash) =>
    if key = [] then .hash hash else C.fromRlp (C.encode (.extension key (.hash hash)))
  | .ext key child => C.fromRlp (C.encode (.extension key (itemRef child)))
  | .branch children =>
    C.fromRlp (C.encode (.branch ((finRange 16).filterMap fun i =>
        if (children i).isNil then none else some (itemRef (children i)))
      fun i => !(children i).isNil))

/-- The hash behind a reference. -/
def refHash : RlpNode H → H
  | .hash h => h
  | .inline bytes => C.keccak bytes

/-- The root of a trie of items. -/
def itemRoot (t : ItemTrie H) : H := C.refHash (C.itemRef t)

/-- The node to store for a branch at a path. -/
def compact (path : Nibbles) (children : Nibble → ItemTrie H) : BranchNodeCompact H where
  stateMask i := !(children i).isNil
  treeMask i := hasStored (children i)
  hashMask i := isBranchNode (children i)
  hashes := (finRange 16).filterMap fun i =>
    if isBranchNode (children i) then some (C.itemRoot (children i)) else none
  rootHash := if path = [] then some (C.itemRoot (.branch children)) else none

/-- The node to store for the top of a trie at a path. -/
def nodeAt (path : Nibbles) : ItemTrie H → Option (BranchNodeCompact H)
  | .branch children => if hasStored (.branch children) then some (C.compact path children) else none
  | _ => none

/-- The nodes to store for a trie. -/
def storedNodes (t : ItemTrie H) : NodeTable H := fun path => C.nodeAt path (t.sub path)

/-- **The builder**: the root of the items and the nodes to store. It asserts that the paths ascend. -/
def build (items : List (Nibbles × Item H)) : Option (H × NodeTable H) :=
  if items.Pairwise fun a b => a.1 < b.1 then
    some (C.itemRoot (.ofEntries 64 items), C.storedNodes (.ofEntries 64 items))
  else none

/-- A branch with a branch or an extension below it is not short enough to stand in its parent. -/
def LongBranches : Prop :=
  ∀ children : Nibble → MptTrie, Reduced (.branch children) → hasStored (H := H) (full (.branch children)) = true →
    32 ≤ (C.encode (C.node (.branch children))).length

end Codec

/-! ## The trie of all leaves -/

section Full

variable {C : Codec H}

theorem itemRef_full (t : MptTrie) : C.itemRef (full t) = C.ref t := by
  induction t with
  | nil | leaf => rfl
  | ext key child ih =>
    show C.fromRlp (C.encode (.extension key (C.itemRef (full child)))) = _
    rw [ih]
    rfl
  | branch children ih =>
    show C.fromRlp (C.encode (.branch ((finRange 16).filterMap fun i =>
        if (full (H := H) (children i)).isNil then none else some (C.itemRef (full (children i))))
      fun i => !(full (H := H) (children i)).isNil)) = _
    have hnil : ∀ i, (full (H := H) (children i)).isNil = (children i).isNil := fun i => isNil_map ..
    simp only [ih, hnil]
    rfl

theorem refHash_fromRlp (bytes : Bytes) : C.refHash (C.fromRlp bytes) = C.keccak bytes := by
  unfold fromRlp
  split <;> rfl

theorem refHash_ref (t : MptTrie) : C.refHash (C.ref t) = C.root t := refHash_fromRlp _

theorem itemRoot_full (t : MptTrie) : C.itemRoot (full t) = C.root t := by
  rw [itemRoot, itemRef_full, refHash_ref]

theorem exists_branch_of_isBranchNode {t : MptTrie} (h : isBranchNode (H := H) (full t) = true) :
    ∃ ts, t = .branch ts := by
  cases t with
  | nil | ext => cases h
  | leaf key value => cases key <;> cases h
  | branch ts => exact ⟨ts, rfl⟩

variable {children : Nibble → ItemTrie H}

theorem hasStored_branch_iff :
    hasStored (.branch children) = true ↔
      ∃ i, isBranchNode (children i) = true ∨ hasStored (children i) = true := by
  rw [hasStored, any_eq_true]
  simp only [mem_finRange, true_and, Bool.or_eq_true]

/-- A node to store below a path is a node to store. -/
theorem hasStored_of_nodeAt {t : ItemTrie H} {p path : Nibbles} {node : BranchNodeCompact H}
    (h : C.nodeAt path (t.sub p) = some node) : hasStored t = true := by
  have htop : ∀ {t : ItemTrie H}, C.nodeAt path t = some node → hasStored t = true := by
    intro t ht
    cases t with
    | nil | leaf | ext => cases ht
    | branch children =>
      by_contra hnot
      rw [nodeAt, if_neg hnot] at ht
      cases ht
  induction t generalizing p with
  | nil => cases h
  | leaf key value =>
    rw [sub] at h
    split at h <;> cases h
  | ext key child ih =>
    rw [sub] at h
    split at h
    case isTrue =>
      cases hrest : key.drop p.length with
      | nil =>
        rw [hrest] at h
        exact htop (t := child) h
      | cons a rest =>
        rw [hrest] at h
        cases h
    case isFalse =>
      split at h
      · exact ih h
      · cases h
  | branch children ih =>
    cases p with
    | nil => exact htop h
    | cons a p => exact hasStored_branch_iff.2 ⟨a, .inr (ih a h)⟩

end Full

/-! ## Subtries by their hash -/

/-- The second trie is the first one with some stored branches given by their hash. -/
inductive Cut (C : Codec H) : MptTrie → ItemTrie H → Prop
  | nil : Cut C .nil .nil
  | leaf (key : Nibbles) (value : Bytes) : Cut C (.leaf key value) (.leaf key (.leaf value))
  | ext {key : Nibbles} {child : MptTrie} {children : Nibble → ItemTrie H}
      (h : Cut C child (.branch children)) : Cut C (.ext key child) (.ext key (.branch children))
  | branch {ts : Nibble → MptTrie} {us : Nibble → ItemTrie H} (h : ∀ i, Cut C (ts i) (us i)) :
      Cut C (.branch ts) (.branch us)
  | hash {ts : Nibble → MptTrie} (h : hasStored (H := H) (full (.branch ts)) = true) :
      Cut C (.branch ts) (.leaf [] (.branch (C.root (.branch ts))))
  | hashExt {key : Nibbles} {ts : Nibble → MptTrie} (hkey : key ≠ [])
      (h : hasStored (H := H) (full (.branch ts)) = true) :
      Cut C (.ext key (.branch ts)) (.leaf key (.branch (C.root (.branch ts))))

namespace Cut

variable {C : Codec H} {t : MptTrie} {u : ItemTrie H}

/-- Nothing is cut. -/
theorem refl (h : Canonical t) : Cut C t (full t) := by
  induction t with
  | nil => exact .nil
  | leaf key value => exact .leaf key value
  | ext key child ih =>
    cases h.reduced (by simp) with
    | ofExt hkey hchild => exact .ext (ih (.inr hchild))
  | branch children ih =>
    have hred := h.reduced (by simp)
    exact .branch fun i => ih i (hred.children_of_branch i)

theorem isNil_eq (h : Cut C t u) : u.isNil = t.isNil := by
  cases h <;> rfl

theorem isBranchNode_eq (h : Cut C t u) : isBranchNode u = isBranchNode (H := H) (full t) := by
  cases h with
  | nil | leaf | ext | branch | hash => rfl
  | @hashExt key ts hkey _ =>
    cases key with
    | nil => exact absurd rfl hkey
    | cons a key => rfl

theorem hasStored_eq (h : Cut C t u) : hasStored u = hasStored (H := H) (full t) := by
  induction h with
  | nil | leaf => rfl
  | ext _ ih => exact ih
  | @branch ts us h ih =>
    have hparts : ∀ i, (isBranchNode (us i) || hasStored (us i)) =
        (isBranchNode (H := H) (full (ts i)) || hasStored (H := H) (full (ts i))) := fun i => by
      rw [(h i).isBranchNode_eq, ih i]
    show (finRange 16).any (fun i => isBranchNode (us i) || hasStored (us i)) = _
    simp only [hparts]
    rfl
  | hash h | hashExt _ h => exact h.symm

/-- A branch that is long enough is referred to by its hash. -/
theorem ref_of_long (hlong : C.LongBranches) {ts : Nibble → MptTrie} (hred : Reduced (.branch ts))
    (hstored : hasStored (H := H) (full (.branch ts)) = true) :
    C.ref (.branch ts) = .hash (C.root (.branch ts)) := by
  unfold ref fromRlp
  rw [if_neg (not_lt.2 (hlong ts hred hstored))]
  rfl

section

variable (hlong : C.LongBranches) (ht : Canonical t) (h : Cut C t u)
include hlong ht h

/-- **A cut trie has the same reference.** -/
theorem itemRef_eq : C.itemRef u = C.ref t := by
  induction h with
  | nil | leaf => rfl
  | @ext key child children _ ih =>
    cases ht.reduced (by simp) with
    | ofExt hkey hchild =>
      show C.fromRlp (C.encode (.extension key (C.itemRef (.branch children)))) = _
      rw [ih (.inr hchild)]
      rfl
  | @branch ts us h ih =>
    have hred := ht.reduced (by simp)
    have hchild : ∀ i, C.itemRef (us i) = C.ref (ts i) := fun i => ih i (hred.children_of_branch i)
    have hnil : ∀ i, (us i).isNil = (ts i).isNil := fun i => (h i).isNil_eq
    show C.fromRlp (C.encode (.branch ((finRange 16).filterMap fun i =>
        if (us i).isNil then none else some (C.itemRef (us i))) fun i => !(us i).isNil)) = _
    simp only [hchild, hnil]
    rfl
  | @hash ts hstored =>
    rw [ref_of_long hlong (ht.reduced (by simp)) hstored]
    exact if_pos rfl
  | @hashExt key ts hkey hstored =>
    cases ht.reduced (by simp) with
    | ofExt _ hchild =>
      show (if key = [] then _ else _) = _
      rw [if_neg hkey, ← ref_of_long hlong hchild hstored]
      rfl

/-- **A cut trie has the same root.** -/
theorem itemRoot_eq : C.itemRoot u = C.root t := by
  rw [itemRoot, h.itemRef_eq hlong ht, refHash_ref]

/-- **A cut trie has the same node at its top**, unless that is what was cut. -/
theorem nodeAt_eq (htop : u.get [] = none)
    (path : Nibbles) : C.nodeAt path u = C.nodeAt path (full t) := by
  have hstored := h.hasStored_eq
  have hroot := h.itemRoot_eq hlong ht
  cases h with
  | nil | leaf | ext | hashExt => rfl
  | hash => cases htop
  | @branch ts us h =>
    have hred := ht.reduced (by simp)
    have hcompact : C.compact path us = C.compact path fun i => full (ts i) := by
      have hnil : ∀ i, (us i).isNil = (full (H := H) (ts i)).isNil := fun i => by
        rw [(h i).isNil_eq, full, isNil_map]
      have hsub : ∀ i, hasStored (us i) = hasStored (full (ts i)) := fun i => (h i).hasStored_eq
      have hbranch : ∀ i, isBranchNode (us i) = isBranchNode (full (ts i)) := fun i => (h i).isBranchNode_eq
      have hchild : ∀ i, C.itemRoot (us i) = C.itemRoot (full (ts i)) := fun i => by
        rw [itemRoot_full, (h i).itemRoot_eq hlong (hred.children_of_branch i)]
      have hfull : C.itemRoot (.branch us) = C.itemRoot (.branch fun i => full (ts i)) := by
        rw [hroot]
        exact (itemRoot_full (.branch ts)).symm
      unfold compact
      simp only [hnil, hsub, hbranch, hchild, hfull]
    show (if hasStored (.branch us) = true then some (C.compact path us) else none) = _
    rw [hstored, hcompact]
    rfl

end

theorem join (h : Cut C t u) (a : Nibble) : Cut C (t.join [a]) (u.join [a]) := by
  cases h with
  | nil => exact .nil
  | leaf key value => exact .leaf _ value
  | ext h => exact .ext h
  | branch h => exact .ext (.branch h)
  | hash h | hashExt _ h => exact .hashExt (by simp) h

/-- **Cut tries are put together from what stands below each digit.** -/
theorem of_sub (ht : Canonical t) (hu : Canonical u) (htnil : t.get [] = none) (hunil : u.get [] = none)
    (h : ∀ i, Cut C (t.sub [i]) (u.sub [i])) : Cut C t u := by
  have hnil : ∀ i, t.sub [i] = .nil ↔ u.sub [i] = .nil := fun i => by
    rw [← isNil_iff, ← isNil_iff, (h i).isNil_eq]
  by_cases htwo : ∃ i j, i ≠ j ∧ t.sub [i] ≠ .nil ∧ t.sub [j] ≠ .nil
  · obtain ⟨i, j, hij, hi, hj⟩ := htwo
    rw [ht.eq_branch hij hi hj, hu.eq_branch hij (fun hn => hi ((hnil i).2 hn)) fun hn => hj ((hnil j).2 hn)]
    exact .branch h
  by_cases hone : ∃ i, t.sub [i] ≠ .nil
  · obtain ⟨i, hi⟩ := hone
    have hothers : ∀ j, j ≠ i → t.sub [j] = .nil := fun j hj => by
      by_contra hne
      exact htwo ⟨j, i, hj, hne, hi⟩
    rw [ht.eq_join htnil hothers, hu.eq_join hunil fun j hj => (hnil j).1 (hothers j hj)]
    exact (h i).join i
  · -- nothing below any digit
    have hall : ∀ i, t.sub [i] = .nil := fun i => by
      by_contra hne
      exact hone ⟨i, hne⟩
    have htn : t = .nil := ht.eq_nil_iff.2 fun p => by
      cases p with
      | nil => exact htnil
      | cons i p =>
        have hget := get_sub t [i] p
        rw [hall i] at hget
        exact hget.symm
    have hun : u = .nil := hu.eq_nil_iff.2 fun p => by
      cases p with
      | nil => exact hunil
      | cons i p =>
        have hget := get_sub u [i] p
        rw [(hnil i).1 (hall i)] at hget
        exact hget.symm
    rw [htn, hun]
    exact .nil

end Cut

/-! ## Hashes by their nibble -/

/-- The values of the elements that pass a test: one of them stands behind those that passed before it. -/
theorem getElem?_filterMap_ite {α β : Type} (f : α → Bool) (g : α → β) {l : List α} {n : Nat} {a : α}
    (hn : l[n]? = some a) (ha : f a = true) :
    (l.filterMap fun x => if f x then some (g x) else none)[((l.take n).filter f).length]? = some (g a) := by
  induction l generalizing n with
  | nil => cases hn
  | cons b l ih =>
    cases n with
    | zero =>
      obtain rfl : b = a := Option.some.inj hn
      rw [filterMap_cons_some (by rw [if_pos ha])]
      rfl
    | succ n =>
      have hrest := ih hn
      cases hb : f b with
      | true =>
        rw [filterMap_cons_some (by rw [if_pos hb]), take_succ_cons, filter_cons_of_pos hb,
          length_cons, getElem?_cons_succ]
        exact hrest
      | false =>
        rw [filterMap_cons_none (by rw [hb]; rfl), take_succ_cons,
          filter_cons_of_neg (by rw [hb]; decide)]
        exact hrest

/-- The hash of a child that is a branch is in the node of its parent. -/
theorem hashForNibble_compact {C : Codec H} {path : Nibbles} {i : Nibble}
    (hi : isBranchNode (children i) = true) :
    (C.compact path children).hashForNibble i = some (C.itemRoot (children i)) := by
  refine getElem?_filterMap_ite (fun i => isBranchNode (children i)) (fun i => C.itemRoot (children i)) ?_ hi
  simp

end Kardamom.Mpt
