import Kardamom.Anchor.Sparse

/-!
# The sparse trie refines the trie

A sparse node stands for a whole trie, of which it knows the part that the walks resolved (`Expands`). A
reference determines the trie that it points at, whatever the node store holds: a node that the store
gives out has the hash that was asked for, and so is the node of that trie. Each walk then does to the
whole trie what the map says, and keeps it canonical, so the root that the sparse trie computes is the root
of the updated map.
-/

namespace Kardamom.Anchor

open Mpt Patricia Patricia.Trie Node Outcome Function List Option Node Walk List

variable {H : Type} {C : Codec H}

/-! ## Nodes and tries -/

/-- A node stands for a trie. -/
inductive Expands (C : Codec H) : Node H → MptTrie → Prop
  | unresolved {t : MptTrie} (hne : t ≠ .nil) : Expands C (.unresolved (C.ref t)) t
  | leaf (key : Nibbles) (value : Bytes) : Expands C (.leaf key value) (.leaf key value)
  | extension {child : Node H} {t : MptTrie} (key : Nibbles) (hchild : Expands C child t) :
      Expands C (.extension key child) (.ext key t)
  | branch {children : Nibble → Option (Node H)} {ts : Nibble → MptTrie}
      (hnone : ∀ i, children i = none → ts i = .nil)
      (hsome : ∀ i node, children i = some node → Expands C node (ts i)) :
      Expands C (.branch children) (.branch ts)

open Expands

/-- A slot stands for a trie, or is empty. -/
def ExpandsSlot (C : Codec H) : Option (Node H) → MptTrie → Prop
  | none, t => t = .nil
  | some node, t => Expands C node t

variable {children : Nibble → Option (Node H)} {ts : Nibble → MptTrie}

namespace Expands

variable {node : Node H} {t : MptTrie}

theorem ne_nil (h : Expands C node t) : t ≠ .nil := by
  cases h with
  | unresolved hne => exact hne
  | leaf | extension | branch => simp

theorem slot
    (h : Expands C (.branch children) (.branch ts)) (i : Nibble) : ExpandsSlot C (children i) (ts i) := by
  cases h with
  | branch hnone hsome =>
    cases hi : children i with
    | none => exact hnone i hi
    | some node => exact hsome i node hi

theorem of_slots (h : ∀ i, ExpandsSlot C (children i) (ts i)) : Expands C (.branch children) (.branch ts) := by
  refine .branch (fun i hi => ?_) fun i node hi => ?_
  · have hslot := h i
    rwa [hi] at hslot
  · have hslot := h i
    rwa [hi] at hslot

end Expands

variable {t : MptTrie}

/-- One child slot replaced on either side. -/
theorem expandsSlot_update
    (h : ∀ i, ExpandsSlot C (children i) (ts i)) (nibble : Nibble) (slot : Option (Node H))
    (hslot : ExpandsSlot C slot t) (i : Nibble) :
    ExpandsSlot C (update children nibble slot i) (update ts nibble t i) := by
  by_cases hin : i = nibble
  · subst hin
    rwa [update_self, update_self]
  · rw [update_of_ne hin, update_of_ne hin]
    exact h i

variable {slot : Option (Node H)}

/-- The reference to a slot is the reference to its trie. -/
theorem ExpandsSlot.childRef_eq (h : ExpandsSlot C slot t)
    (href : ∀ node, slot = some node → node.rlpRef C = C.ref t) :
    childRef C slot = C.childRef t ∧ slot.isSome = (C.childRef t).isSome := by
  cases slot with
  | none =>
    obtain rfl : t = .nil := h
    exact ⟨rfl, rfl⟩
  | some node =>
    have hne : t ≠ .nil := ne_nil h
    have hchild : C.childRef t = some (C.ref t) := if_neg (by rwa [isNil_iff])
    rw [hchild, childRef, href node rfl]
    exact ⟨rfl, rfl⟩

/-- The references of the children of a branch, once each is the reference of its trie. -/
theorem branch_eq_node (h : ∀ i, ExpandsSlot C (children i) (ts i))
    (href : ∀ i node, children i = some node → node.rlpRef C = C.ref (ts i)) :
    TrieNode.branch ((finRange 16).filterMap fun i => childRef C (children i))
      (fun i => (children i).isSome) = C.node (.branch ts) := by
  have hrefs := fun i => ((h i).childRef_eq (href i)).1
  have hmask := fun i => ((h i).childRef_eq (href i)).2
  simp only [hrefs, hmask, Codec.node_branch]

variable {node : Node H}

/-- **The reference of a node is the reference of its trie.** -/
theorem Expands.rlpRef_eq (h : Expands C node t) : node.rlpRef C = C.ref t := by
  induction h with
  | unresolved | leaf => rfl
  | extension key _ ih => rw [rlpRef, ih]; rfl
  | branch hnone hsome ih =>
    rw [rlpRef, Codec.ref, branch_eq_node (Expands.branch hnone hsome).slot ih]

/-- The node is expanded. -/
def Node.Resolved (node : Node H) : Prop := ∀ r, node ≠ .unresolved r

theorem Expands.encodeNode_eq (h : Expands C node t)
    (hres : node.Resolved) : node.encodeNode C = C.encode (C.node t) := by
  have hslots := h
  cases h with
  | unresolved => exact absurd rfl (hres _)
  | leaf => rfl
  | extension key hchild => rw [encodeNode, hchild.rlpRef_eq]; rfl
  | branch hnone hsome =>
    rw [encodeNode, branch_eq_node hslots.slot fun i node hi => (hsome i node hi).rlpRef_eq]

/-! ## Resolution -/

/-- The children of a branch, as references. -/
theorem expandsSlot_childRef (t : MptTrie) : ExpandsSlot C ((C.childRef t).map .unresolved) t := by
  unfold Codec.childRef
  split
  case isTrue hnil => exact isNil_iff.1 hnil
  case isFalse hne => exact .unresolved fun heq => hne (isNil_iff.2 heq)

section

variable (f : Nibble → Option (RlpNode H))

/-- One slot takes the next reference, if it has a child. -/
theorem Node.resolveBranchSlot_eq (i : Nibble) (stack : List (RlpNode H)) :
    resolveBranchSlot i (fun j => (f j).isSome) ((f i).toList ++ stack)
      = .ok ((f i).map .unresolved, stack) := by
  cases hi : f i with
  | none | some => simp [resolveBranchSlot, hi]

/-- The loop over the slots takes one reference for each child. -/
theorem Node.resolveSlots_eq (is : List Nibble) (children : Nibble → Option (Node H)) :
    resolveSlots (fun i => (f i).isSome) is children (is.filterMap f)
      = .ok fun i => if i ∈ is then (f i).map .unresolved else children i := by
  induction is generalizing children with
  | nil => simp [resolveSlots]
  | cons i is ih =>
    have hstack : (i :: is).filterMap f = (f i).toList ++ is.filterMap f := by
      cases hi : f i with
      | none => rw [filterMap_cons_none hi]; rfl
      | some r => rw [filterMap_cons_some hi]; rfl
    rw [resolveSlots, hstack, resolveBranchSlot_eq, ok_bind]
    dsimp only
    rw [ih]
    refine congrArg _ (funext fun j => ?_)
    by_cases hji : j = i
    · subst hji
      simp
    · simp [hji]

theorem Node.resolveBranchChildren_eq :
    resolveBranchChildren ((finRange 16).filterMap f) (fun i => (f i).isSome)
      = .ok fun i => (f i).map .unresolved := by
  rw [resolveBranchChildren, resolveSlots_eq]
  exact congrArg _ (funext fun i => if_pos (mem_finRange i))

end

theorem Node.resolveSlots_noPanic (mask : TrieMask) (is : List Nibble)
    (children : Nibble → Option (Node H)) (stack : List (RlpNode H)) :
    (resolveSlots mask is children stack).NoPanic := by
  induction is generalizing children stack with
  | nil => exact .ok _
  | cons i is ih =>
    refine .bind ?_ fun a _ => ih _ _
    unfold resolveBranchSlot
    split
    case isTrue =>
      split
      · exact .err _
      · exact .ok _
    case isFalse => exact .ok _

section Resolve

variable [LinearOrder H] {store : NodeStore C} {position : Nibbles}

/-- A node that a reference to a trie resolves to is the node of that trie. -/
theorem NodeStore.resolve_eq (hC : C.Lawful) {r : RlpNode H}
    (hr : r = .hash (C.root t) ∨ r = C.ref t) {tn : TrieNode H}
    (h : store.resolve r position = .ok tn) : tn = C.node t := by
  have hdecode : ∀ {tn}, C.decode (C.encode (C.node t)) = some tn → tn = C.node t := by
    intro tn hd
    rw [hC.decode_node] at hd
    exact (some.inj hd).symm
  have hhash : ∀ {tn}, store.resolve (.hash (C.root t)) position = .ok tn → tn = C.node t := by
    intro tn h
    obtain ⟨bytes, hbytes, hd⟩ := bind_eq_ok.1 h
    -- what the store holds under the hash is the encoding, for want of a collision
    have hkey := store.keyed _ _ (ofOption_eq_ok.1 hbytes)
    rw [hC.keccak_injective hkey] at hd
    exact hdecode (ofOption_eq_ok.1 hd)
  rcases hr with rfl | rfl
  · exact hhash h
  · unfold Codec.ref Codec.fromRlp at h
    split at h
    case isTrue => exact hdecode (ofOption_eq_ok.1 h)
    case isFalse => exact hhash h

/-- **A reference to a trie resolves to a node of that trie.** -/
theorem Node.resolve_expands (hC : C.Lawful) {r : RlpNode H} (hred : Reduced t)
    (hr : r = .hash (C.root t) ∨ r = C.ref t)
    (h : resolve r position store = .ok node) : Expands C node t ∧ node.Resolved := by
  obtain ⟨tn, htn, h⟩ := bind_eq_ok.1 h
  obtain rfl := NodeStore.resolve_eq hC hr htn
  cases hred with
  | ofLeaf key value =>
    cases h
    exact ⟨.leaf key value, by simp [Resolved]⟩
  | ofExt _ hchild =>
    cases h
    exact ⟨.extension _ (.unresolved hchild.ne_nil), by simp [Resolved]⟩
  | @ofBranch ts =>
    rw [Codec.node_branch] at h
    obtain ⟨children, hchildren, h⟩ := bind_eq_ok.1 h
    rw [resolveBranchChildren_eq] at hchildren
    cases hchildren
    cases h
    exact ⟨.of_slots fun i => expandsSlot_childRef (ts i), by simp [Resolved]⟩

/-- The node resolves to a node of the trie. -/
def Opens (store : NodeStore C) (node : Node H) (t : MptTrie) : Prop :=
  ∀ position node', node.resolved position store = .ok node' → Expands C node' t ∧ node'.Resolved

theorem Expands.opens (hC : C.Lawful) (h : Expands C node t) (hred : Reduced t) : Opens store node t := by
  intro position node' hres
  cases h with
  | unresolved => exact resolve_expands hC hred (.inr rfl) hres
  | leaf =>
    cases hres
    exact ⟨.leaf _ _, by simp [Resolved]⟩
  | extension key hchild =>
    cases hres
    exact ⟨.extension key hchild, by simp [Resolved]⟩
  | branch hnone hsome =>
    cases hres
    exact ⟨.branch hnone hsome, by simp [Resolved]⟩

theorem Node.resolved_noPanic (node : Node H) (position : Nibbles) (store : NodeStore C) :
    (node.resolved position store).NoPanic := by
  have hstore : ∀ r, (store.resolve r position).NoPanic := by
    intro r
    cases r with
    | hash h => exact .bind (.ofOption _ _) fun _ _ => .ofOption _ _
    | inline bytes => exact .ofOption _ _
  cases node with
  | unresolved r =>
    refine .bind (hstore r) fun tn _ => ?_
    cases tn with
    | emptyRoot => exact .err _
    | leaf | extension => exact .ok _
    | branch => exact .bind (resolveSlots_noPanic _ _ _ _) fun _ _ => .ok _
  | leaf | extension | branch => exact .ok _

theorem Opens.meets (h : Opens store node t) (position : Nibbles) :
    (node.resolved position store).Meets fun node' => Expands C node' t ∧ node'.Resolved :=
  ⟨node.resolved_noPanic position store, h position⟩

theorem opens_root (hC : C.Lawful) (hred : Reduced t) : Opens store (.unresolved (.hash (C.root t))) t :=
  fun _ _ hres => resolve_expands hC hred (.inl rfl) hres

end Resolve

/-! ## Splits -/

theorem expands_wrap (h : Expands C (.branch children) (.branch ts)) (key : Nibbles) :
    Expands C ((branch children).wrapExtension key) ((branch ts).wrap key) := by
  cases key with
  | nil => exact h
  | cons a key => exact .extension (a :: key) h

theorem expands_fork {a b : Nibble} {x y : Node H} {t u : MptTrie} (hx : Expands C x t)
    (hy : Expands C y u) (key : Nibbles) :
    Expands C (splitBranch key (a, x) (b, y)) (fork key a t b u) := by
  have hnone (i : Nibble) : ExpandsSlot C none .nil := rfl
  have hone := expandsSlot_update hnone a (some x) hx
  exact expands_wrap (.of_slots (expandsSlot_update hone b (some y) hy)) key

variable {key rest : Nibbles}

/-- A split node stands for the old trie with the inserted key. -/
theorem split_spec {a b : Nibble} (hab : a ≠ b) {x : Node H} {t old : MptTrie}
    (hx : Expands C x t) (hred : Reduced t) (value : Bytes)
    (hbelow : ∀ q, old.get (key ++ a :: q) = t.get q)
    (hother : ∀ p, ¬ key ++ [a] <+: p → old.get p = none) :
    ∃ t', Expands C (splitBranch key (a, x) (b, .leaf rest value)) t' ∧ Reduced t' ∧
      ∀ p, t'.get p = if p = key ++ b :: rest then some value else old.get p :=
  ⟨_, expands_fork hx (.leaf rest value) key, reduced_fork key hab hred (.ofLeaf _ _),
    get_fork_leaf hab hbelow hother⟩

/-- Where two keys of one length part. -/
theorem exists_parting (hlen : key.length ≤ rest.length) (hnot : ¬ key <+: rest) :
    ∃ pre a b key' rest', a ≠ b ∧ lcp key rest = pre ∧ key = pre ++ a :: key' ∧
      rest = pre ++ b :: rest' := by
  have hnot' : ¬ rest <+: key := fun h => hnot (h.eq_of_length_le hlen ▸ prefix_rfl)
  obtain ⟨a, b, key', rest', hab, hkey, hrest⟩ := lcp_diverge hnot hnot'
  exact ⟨lcp key rest, a, b, key', rest', hab, rfl, hkey, hrest⟩

/-- What the split functions read where two keys part. -/
theorem parting_simps (pre : Nibbles) (c : Nibble) (q : Nibbles) :
    (pre ++ c :: q)[pre.length]? = some c ∧ (pre ++ c :: q).drop (pre.length + 1) = q := by
  refine ⟨by simp, ?_⟩
  rw [← drop_drop, drop_left]
  rfl

theorem Node.splitLeaf_spec (hlen : key.length = rest.length) (hne : key ≠ rest) (existing value : Bytes) :
    (splitLeaf key existing rest value : Outcome (AnchorError H) (Node H)).Meets fun node =>
      ∃ t, Expands C node t ∧ Reduced t ∧
        ∀ p, t.get p = if p = rest then some value else (Trie.leaf key existing).get p := by
  obtain ⟨pre, a, b, key', rest', hab, hlcp, rfl, rfl⟩ :=
    exists_parting hlen.le fun hp => hne (hp.eq_of_length_le hlen.ge)
  unfold splitLeaf
  simp only [hlcp, parting_simps, take_left]
  refine .ok (split_spec hab (.leaf key' existing) (.ofLeaf _ _) value (fun q => ?_) fun p hp => ?_)
  · simp only [get_leaf, append_cancel_left_eq, cons.injEq, true_and]
  · rw [get_leaf, if_neg]
    rintro rfl
    exact hp ⟨key', by rw [append_assoc]; rfl⟩

theorem Node.splitExtension_spec (hlen : key.length ≤ rest.length) (hnot : ¬ key <+: rest) {child : Node H}
    (hchild : Expands C child (.branch ts)) (hred : Reduced (.branch ts)) (value : Bytes) :
    (splitExtension key child rest value).Meets fun node => ∃ t, Expands C node t ∧ Reduced t ∧
      ∀ p, t.get p = if p = rest then some value else (Trie.ext key (.branch ts)).get p := by
  obtain ⟨pre, a, b, key', rest', hab, hlcp, rfl, rfl⟩ := exists_parting hlen hnot
  unfold splitExtension
  simp only [hlcp, parting_simps, take_left]
  -- the old side is the child, below what is left of the key
  have hside : Expands C (if key'.isEmpty then child else .extension key' child)
      ((Trie.branch ts).wrap key') := by
    cases key' with
    | nil => exact hchild
    | cons c key' => exact .extension _ hchild
  refine .ok (split_spec hab hside hred.wrap value (fun q => ?_) fun p hp => ?_)
  · by_cases hq : key' <+: q
    · obtain ⟨q', rfl⟩ := hq
      rw [get_wrap_append, ← cons_append, ← append_assoc, get_ext_append]
    · rw [get_wrap_of_not_isPrefix hq, get_ext_of_not_isPrefix]
      rwa [prefix_append_right_inj, cons_prefix_cons, and_iff_right rfl]
  · exact get_ext_of_not_isPrefix (fun h => hp (IsPrefix.trans ⟨key', by simp⟩ h)) _

/-! ## Merges -/

/-- A merged node stands for the joined trie. -/
theorem Expands.merge (h : Expands C node t) (hres : node.Resolved)
    (key : Nibbles) : Expands C (node.mergeExtension key) (t.join key) := by
  cases h with
  | unresolved => exact absurd rfl (hres _)
  | leaf ck value => exact .leaf (key ++ ck) value
  | extension ck hchild => exact .extension (key ++ ck) hchild
  | branch hnone hsome => exact .extension key (.branch hnone hsome)

theorem Node.resolved_merge (key : Nibbles) : (node.mergeExtension key).Resolved := by
  intro r h
  cases node <;> cases h

theorem mem_survivors {i : Nibble} : (i, node) ∈ survivors children ↔ children i = some node := by
  refine mem_filterMap.trans ⟨fun ⟨j, _, hj⟩ => ?_, fun hi => ⟨i, mem_finRange i, ?_⟩⟩
  · obtain ⟨node', hnode', heq⟩ := map_eq_some_iff.1 hj
    cases heq
    exact hnode'
  · rw [hi]
    rfl

theorem nodup_survivors (children : Nibble → Option (Node H)) : (survivors children).Nodup := by
  refine (nodup_finRange 16).filterMap fun i j x hi hj => ?_
  obtain ⟨node, -, rfl⟩ := map_eq_some_iff.1 (mem_def.1 hi)
  obtain ⟨node', -, heq⟩ := map_eq_some_iff.1 (mem_def.1 hj)
  exact (Prod.mk.inj heq).1.symm

/-- What a removal leaves in a slot. -/
structure Leaves (C : Codec H) (slot : Option (Node H)) (t : MptTrie) (f : Nibbles → Option Bytes) :
    Prop where
  expands : ExpandsSlot C slot t
  resolved : ∀ node, slot = some node → node.Resolved
  canonical : Canonical t
  get : ∀ p, t.get p = f p

/-! ## Walks -/

/-- All keys of the trie have `n` digits. -/
def KeysOf (n : Nat) (t : MptTrie) : Prop := ∀ p v, t.get p = some v → p.length = n

variable {n : Nat}

/-- The key of an extension is no longer than the keys below it. -/
theorem KeysOf.length_le {key : Nibbles} (h : KeysOf n (ext key t))
    (hred : Reduced t) : key.length ≤ n := by
  obtain ⟨p, v, hp⟩ := hred.exists_get
  have hlen := h (key ++ p) v (by rw [get_ext_append, hp])
  rw [length_append] at hlen
  omega

theorem KeysOf.ext {key : Nibbles} (h : KeysOf (key.length + n) (ext key t)) : KeysOf n t := by
  intro p v hp
  have hlen := h (key ++ p) v (by rw [get_ext_append, hp])
  rw [length_append] at hlen
  omega

theorem KeysOf.branch (h : KeysOf (n + 1) (branch ts)) (i : Nibble) : KeysOf n (ts i) := by
  intro p v hp
  have hlen := h (i :: p) v hp
  rw [length_cons] at hlen
  omega

/-- What a lookup proves of a value. -/
def Lookup.ofOption : Option Bytes → Lookup
  | some value => .found value
  | none => .absent

section Walks

variable [LinearOrder H] {w : Walk C} {path : Nibbles}

theorem drop_of_append {key rest : Nibbles} {depth : Nat} (h : path.drop depth = key ++ rest) :
    path.drop (depth + key.length) = rest := by
  rw [← drop_drop, h, drop_left]

/-- A walk that passes a part of its key has less of it left. -/
theorem length_drop_lt {key : Nibbles} {depth fuel : Nat} (hkey : key <+: path.drop depth)
    (hne : key ≠ []) (hfuel : (path.drop depth).length < fuel + 1) :
    (path.drop (depth + key.length)).length < fuel := by
  have hpos := length_pos_of_ne_nil hne
  have hle := hkey.length_le
  rw [length_drop] at hfuel hle ⊢
  omega

variable {nibble : Nibble}

theorem drop_succ_of_cons {rest : Nibbles} {depth : Nat}
    (h : path.drop depth = nibble :: rest) : path.drop (depth + 1) = rest :=
  drop_of_append (show path.drop depth = [nibble] ++ rest from h)

theorem length_drop_succ_lt {rest : Nibbles} {depth fuel : Nat}
    (h : path.drop depth = nibble :: rest) (hfuel : (path.drop depth).length < fuel + 1) :
    (path.drop (depth + 1)).length < fuel :=
  length_drop_lt (show [nibble] <+: path.drop depth from h ▸ ⟨rest, rfl⟩) (by simp) hfuel

variable {o : Option Bytes}

/-- A key below an extension, read from above it. -/
theorem get_ext_set {t t' u : MptTrie}
    (happ : ∀ q, u.get (key ++ q) = t'.get q) (hnot : ∀ p, ¬ key <+: p → u.get p = none)
    (hget : ∀ p, t'.get p = if p = rest then o else t.get p) (p : Nibbles) :
    u.get p = if p = key ++ rest then o else (Trie.ext key t).get p := by
  by_cases hp : key <+: p
  · obtain ⟨q, rfl⟩ := hp
    rw [happ, get_ext_append, hget]
    simp only [append_cancel_left_eq]
  · rw [hnot p hp, get_ext_of_not_isPrefix hp, if_neg]
    rintro rfl
    exact hp (prefix_append key rest)

/-- A key below a branch, read from above it. -/
theorem get_branch_set {rest : Nibbles} {t' : MptTrie}
    (hget : ∀ p, t'.get p = if p = rest then o else (ts nibble).get p) (p : Nibbles) :
    (branch (update ts nibble t')).get p = if p = nibble :: rest then o else (branch ts).get p := by
  cases p with
  | nil => rfl
  | cons c p =>
    rw [get_branch_update, get_branch_cons]
    by_cases hc : c = nibble
    · subst hc
      rw [if_pos rfl, hget]
      simp only [cons.injEq, true_and]
    · rw [if_neg hc, if_neg fun heq => hc (cons.inj heq).1]

variable {fuel depth : Nat}

/-- **A lookup reads the trie**, and leaves it. It goes at least a nibble deeper with every call. -/
theorem Walk.lookupIn_spec (hC : C.Lawful)
    (hopens : Opens w.store node t) (hred : Reduced t) (hfuel : (w.path.drop depth).length < fuel) :
    (w.lookupIn fuel node depth).Meets fun result =>
      result.1 = .ofOption (t.get (w.path.drop depth)) ∧ Expands C result.2 t := by
  induction fuel generalizing node t depth with
  | zero => omega
  | succ fuel ih =>
    refine (hopens.meets _).bind ?_
    rintro node' ⟨hexp, hres⟩
    have hall := hexp
    cases hexp with
    | unresolved => exact absurd rfl (hres _)
    | leaf key value =>
      refine .ok ⟨?_, hall⟩
      rw [get_leaf]
      by_cases hkey : key = w.path.drop depth
      · rw [if_pos hkey, if_pos hkey.symm]; rfl
      · rw [if_neg hkey, if_neg (Ne.symm hkey)]; rfl
    | @extension child t' key hchild =>
      cases hred with
      | ofExt hne hbranch =>
        by_cases hkey : key <+: w.path.drop depth
        · simp only [if_pos hkey]
          have hdeeper := length_drop_lt hkey hne hfuel
          obtain ⟨rest, hrest⟩ := hkey
          refine (ih (hchild.opens hC hbranch) hbranch hdeeper).bind ?_
          rintro ⟨result', child'⟩ ⟨hget, hchild'⟩
          rw [drop_of_append hrest.symm] at hget
          rw [← hrest, get_ext_append]
          exact .ok ⟨hget, .extension key hchild'⟩
        · simp only [if_neg hkey]
          rw [get_ext_of_not_isPrefix hkey]
          exact .ok ⟨rfl, hall⟩
    | @branch children ts hnone hsome =>
      cases hrest : w.path.drop depth with
      | nil => exact .err _
      | cons nibble rest =>
        dsimp only
        cases hi : children nibble with
        | none =>
          refine .ok ⟨?_, hall⟩
          rw [get_branch_cons, hnone nibble hi]
          rfl
        | some child =>
          have hchild := hsome nibble child hi
          have hred' := (hred.children_of_branch nibble).reduced hchild.ne_nil
          refine (ih (hchild.opens hC hred') hred' (length_drop_succ_lt hrest hfuel)).bind ?_
          rintro ⟨result', child'⟩ ⟨hget, hchild'⟩
          rw [drop_succ_of_cons hrest] at hget
          have hslots := expandsSlot_update hall.slot nibble (some child') hchild'
          rw [update_eq_self] at hslots
          exact .ok ⟨hget, .of_slots hslots⟩

/-- The node of a slot opens, if there is one. -/
def OpensSlot (store : NodeStore C) : Option (Node H) → MptTrie → Prop
  | none, t => t = .nil
  | some node, t => Opens store node t ∧ Reduced t

variable (hC : C.Lawful)
include hC

theorem ExpandsSlot.opens {store : NodeStore C}
    (h : ExpandsSlot C slot t) (ht : Canonical t) : OpensSlot store slot t := by
  cases slot with
  | none => exact h
  | some node =>
    have hred := ht.reduced (ne_nil h)
    exact ⟨opens hC h hred, hred⟩

/-- **An insert sets one key of the trie.** -/
theorem Walk.insertIn_spec (value : Bytes)
    (hopens : OpensSlot w.store slot t) (hkeys : KeysOf (w.path.drop depth).length t)
    (hfuel : (w.path.drop depth).length < fuel) :
    (w.insertIn value fuel slot depth).Meets fun node => ∃ t', Expands C node t' ∧ Reduced t' ∧
      (∀ p, t'.get p = if p = w.path.drop depth then some value else t.get p) ∧
      ∀ ts, t = .branch ts → ∃ ts', t' = .branch ts' := by
  induction fuel generalizing slot t depth with
  | zero => omega
  | succ fuel ih =>
    cases slot with
    | none =>
      obtain rfl : t = .nil := hopens
      exact .ok ⟨_, .leaf _ _, .ofLeaf _ _, fun p => rfl, fun ts hts => by cases hts⟩
    | some node₀ =>
      obtain ⟨hopens, hred⟩ := hopens
      refine (hopens.meets _).bind ?_
      rintro node' ⟨hexp, hres⟩
      have hall := hexp
      cases hexp with
      | unresolved => exact absurd rfl (hres _)
      | leaf key existing =>
        by_cases hkey : key = w.path.drop depth
        · simp only [if_pos hkey]
          refine .ok ⟨_, .leaf _ _, .ofLeaf _ _, fun p => ?_, fun ts hts => by cases hts⟩
          rw [get_leaf, get_leaf, hkey]
          by_cases hp : p = w.path.drop depth
          · rw [if_pos hp, if_pos hp]
          · rw [if_neg hp, if_neg hp, if_neg hp]
        · simp only [if_neg hkey]
          refine (splitLeaf_spec (C := C) (hkeys key existing (get_leaf_self ..)) hkey existing value).imp ?_
          rintro node ⟨t', ht', hred', hget⟩
          exact ⟨t', ht', hred', hget, fun ts hts => by cases hts⟩
      | @extension child t' key hchild =>
        cases hred with
        | @ofExt _ ts hne hbranch =>
          by_cases hkey : key <+: w.path.drop depth
          · simp only [if_pos hkey]
            have hdeeper := length_drop_lt hkey hne hfuel
            obtain ⟨rest, hrest⟩ := hkey
            have hdrop := drop_of_append hrest.symm
            rw [← hrest, length_append] at hkeys
            have hslot : OpensSlot w.store (some child) (.branch ts) :=
              ⟨hchild.opens hC hbranch, hbranch⟩
            refine (ih hslot (by rw [hdrop]; exact hkeys.ext) hdeeper).bind ?_
            rintro child' ⟨t', hchild', hred', hget, hstay⟩
            obtain ⟨ts', rfl⟩ := hstay ts rfl
            rw [hdrop] at hget
            refine .ok ⟨_, .extension key hchild', .ofExt hne hred', ?_, fun ts hts => by cases hts⟩
            rw [← hrest]
            exact get_ext_set (fun q => get_ext_append key q _) (fun p hp => get_ext_of_not_isPrefix hp _) hget
          · simp only [if_neg hkey]
            refine (splitExtension_spec (hkeys.length_le hbranch) hkey hchild hbranch value).imp ?_
            rintro node ⟨t', ht', hred', hget⟩
            exact ⟨t', ht', hred', hget, fun ts hts => by cases hts⟩
      | @branch children ts hnone hsome =>
        cases hrest : w.path.drop depth with
        | nil => exact .err _
        | cons nibble rest =>
          have hdrop := drop_succ_of_cons hrest
          rw [hrest] at hkeys
          refine (ih ((hall.slot nibble).opens hC (hred.children_of_branch nibble))
            (by rw [hdrop]; exact hkeys.branch nibble) (length_drop_succ_lt hrest hfuel)).bind ?_
          rintro child' ⟨t', hchild', hred', hget, -⟩
          rw [hdrop] at hget
          exact .ok ⟨_, .of_slots (expandsSlot_update hall.slot nibble (some child') hchild'),
            hred.update nibble hred', get_branch_set hget, fun _ _ => ⟨_, rfl⟩⟩

/-- **A branch that lost a child** reads as it did. -/
theorem Walk.collapseBranch_spec (hslots : ∀ i, ExpandsSlot C (children i) (ts i))
    (hts : ∀ i, Canonical (ts i)) (depth : Nat) :
    (w.collapseBranch children depth).Meets fun slot => ∃ t, Leaves C slot t (branch ts).get := by
  have hexp : ∀ {i node}, (i, node) ∈ survivors children → Expands C node (ts i) := by
    intro i node hmem
    have hslot := hslots i
    rwa [mem_survivors.1 hmem] at hslot
  have hnil : ∀ i, (∀ node, (i, node) ∉ survivors children) → ts i = .nil := by
    intro i hnot
    have hslot := hslots i
    cases hi : children i with
    | none => rwa [hi] at hslot
    | some node => exact absurd (mem_survivors.2 hi) (hnot node)
  unfold collapseBranch
  split
  case h_1 hsurvivors =>
    refine .ok ⟨.nil, rfl, by simp, .inl rfl, fun p => (get_branch_of_all_nil (fun i => ?_) p).symm⟩
    exact hnil i fun node => by simp [hsurvivors]
  case h_2 i survivor hsurvivors =>
    have hone : Expands C survivor (ts i) := hexp (by simp [hsurvivors])
    have hred := (hts i).reduced hone.ne_nil
    have hothers : ∀ j, j ≠ i → ts j = .nil := fun j hj => hnil j fun node hmem => by
      rw [hsurvivors, mem_singleton] at hmem
      exact hj (Prod.mk.inj hmem).1
    have hsplice : (w.spliceSurvivor survivor i depth).Meets fun node =>
        ∃ survivor', (Expands C survivor' (ts i) ∧ survivor'.Resolved) ∧ survivor'.mergeExtension [i] = node :=
      ((hone.opens hC hred).meets _).bind fun survivor' h => .ok ⟨survivor', h, rfl⟩
    refine hsplice.bind ?_
    rintro _ ⟨survivor', ⟨hone', hres'⟩, rfl⟩
    refine .ok ⟨_, hone'.merge hres' [i], fun node hn => ?_, .inr (hred.join (by simp)),
      get_join_of_one_child hothers⟩
    cases hn
    exact resolved_merge [i]
  case h_3 x y rest hsurvivors =>
    have hx : x ∈ survivors children := by simp [hsurvivors]
    have hy : y ∈ survivors children := by simp [hsurvivors]
    -- one nibble has one child
    have hne : x.1 ≠ y.1 := by
      intro heq
      have hnodup := nodup_survivors children
      rw [hsurvivors, nodup_cons] at hnodup
      have hsame := (mem_survivors.1 hx).symm.trans (heq ▸ mem_survivors.1 hy)
      exact hnodup.1 (mem_cons.2 (.inl (Prod.ext heq (some.inj hsame))))
    refine .ok ⟨.branch ts, .of_slots hslots, fun node hn => ?_, .inr (.ofBranch hne
      (hexp hx).ne_nil (hexp hy).ne_nil fun k hk => (hts k).reduced hk), fun _ => rfl⟩
    cases hn
    simp [Resolved]

/-- **A removal clears one key of the trie.** -/
theorem Walk.removeIn_spec
    (hopens : Opens w.store node t) (hred : Reduced t) (hfuel : (w.path.drop depth).length < fuel) :
    (w.removeIn fuel node depth).Meets fun slot =>
      ∃ t', Leaves C slot t' fun p => if p = w.path.drop depth then none else t.get p := by
  induction fuel generalizing node t depth with
  | zero => omega
  | succ fuel ih =>
    refine (hopens.meets _).bind ?_
    rintro node' ⟨hexp, hres⟩
    have hall := hexp
    have hstay : t.get (w.path.drop depth) = none →
        ∃ t', Leaves C (some node') t' fun p => if p = w.path.drop depth then none else t.get p := by
      intro habsent
      refine ⟨t, hall, fun n hn => by cases hn; exact hres, .inr hred, fun p => ?_⟩
      by_cases hp : p = w.path.drop depth
      · rw [if_pos hp, hp, habsent]
      · rw [if_neg hp]
    cases hexp with
    | unresolved => exact absurd rfl (hres _)
    | leaf key value =>
      by_cases hkey : key = w.path.drop depth
      · simp only [if_pos hkey]
        refine .ok ⟨.nil, rfl, by simp, .inl rfl, fun p => ?_⟩
        rw [get_nil, get_leaf, hkey]
        by_cases hp : p = w.path.drop depth
        · rw [if_pos hp]
        · rw [if_neg hp, if_neg hp]
      · simp only [if_neg hkey]
        exact .ok (hstay (if_neg (Ne.symm hkey)))
    | @extension child t' key hchild =>
      cases hred with
      | @ofExt _ ts hne hbranch =>
        by_cases hkey : key <+: w.path.drop depth
        · simp only [if_pos hkey]
          have hdeeper := length_drop_lt hkey hne hfuel
          obtain ⟨rest, hrest⟩ := hkey
          refine (ih (hchild.opens hC hbranch) hbranch hdeeper).bind ?_
          rintro slot' ⟨t', hleaves⟩
          rw [drop_of_append hrest.symm] at hleaves
          rw [← hrest]
          -- the trie below, read from above the key
          have hget := get_ext_set (fun q => get_join_append key q t') (fun p hp => get_join_of_not_isPrefix hp t')
            hleaves.get
          cases slot' with
          | none =>
            obtain rfl : t' = .nil := hleaves.expands
            exact .ok ⟨.nil, rfl, by simp, .inl rfl, hget⟩
          | some child' =>
            have hexp' : Expands C child' t' := hleaves.expands
            refine .ok ⟨_, hexp'.merge (hleaves.resolved _ rfl) key, fun n hn => ?_,
              .inr ((hleaves.canonical.reduced hexp'.ne_nil).join hne), hget⟩
            cases hn
            exact resolved_merge key
        · simp only [if_neg hkey]
          exact .ok (hstay (get_ext_of_not_isPrefix hkey _))
    | @branch children ts hnone hsome =>
      cases hrest : w.path.drop depth with
      | nil => exact .err _
      | cons nibble rest =>
        rw [hrest] at hstay
        dsimp only
        cases hi : children nibble with
        | none => exact .ok (hstay (by rw [get_branch_cons, hnone nibble hi, get_nil]))
        | some child =>
          have hchild := hsome nibble child hi
          have hred' := (hred.children_of_branch nibble).reduced hchild.ne_nil
          refine (ih (hchild.opens hC hred') hred' (length_drop_succ_lt hrest hfuel)).bind ?_
          rintro slot' ⟨t', hleaves⟩
          rw [drop_succ_of_cons hrest] at hleaves
          have hget := get_branch_set hleaves.get
          have hslots := expandsSlot_update hall.slot nibble slot' hleaves.expands
          cases slot' with
          | some kept =>
            have hkept : Expands C kept t' := hleaves.expands
            refine .ok ⟨_, .of_slots hslots, fun n hn => ?_,
              .inr (hred.update nibble (hleaves.canonical.reduced hkept.ne_nil)), hget⟩
            cases hn
            simp [Resolved]
          | none =>
            have hts : ∀ i, Canonical (update ts nibble t' i) := (forall_update_iff ts fun _ => Canonical).2
              ⟨hleaves.canonical, fun i _ => hred.children_of_branch i⟩
            refine (w.collapseBranch_spec hC hslots hts depth).imp ?_
            rintro slot ⟨t'', hleaves'⟩
            exact ⟨t'', { hleaves' with get := fun p => (hleaves'.get p).trans (hget p) }⟩

end Walks

end Kardamom.Anchor
