import Kardamom.Lib.KeyRange
import Kardamom.Lib.SortedMap
import Kardamom.State.HashBuilder

/-!
# The incremental trie walker

A walk rebuilds the changed regions of a trie and takes the rest by stored hashes. Where no node is stored at
a path the whole region below it is rebuilt from its leaves, and every node that may be stored below it is
cleared. The nodes that the builder gives back replace those that the walk went through.

From the stored nodes of one trie, and the leaves of the next one that differs only below the changed
keys, the walk gives the root of the next trie and leaves its stored nodes in the table (`rootWith_spec`).
-/

namespace Kardamom.Mpt

open Patricia Patricia.Trie PartitionPoint List List Codec KeyRange

/-- Hashed keys are ordered as their paths. -/
instance : LinearOrder B256 := LinearOrder.lift' unpack unpack_injective

/-! ## Changed keys -/

/-- The changed keys of a block, as full paths in ascending order, each once. -/
structure PrefixSet where
  keys : List Nibbles
  sorted : keys.Pairwise (· < ·)

variable {path : Nibbles}

namespace PrefixSet

def fromB256s (it : List B256) : PrefixSet :=
  let set := it.foldl (fun set h => set.upsert (unpack h) fun _ => ()) (.empty : SortedMap Nibbles Unit)
  ⟨set.entries.map Prod.fst, pairwise_map.2 set.sorted⟩

/-- Some changed key starts with the path. The first key that is not before the path is the one to look at. -/
def containsPrefix (s : PrefixSet) (path : Nibbles) : Bool :=
  s.keys[partitionPoint (fun k => k < path) s.keys]?.any fun k => path <+: k

theorem containsPrefix_iff {s : PrefixSet} : s.containsPrefix path = true ↔ ∃ k ∈ s.keys, path <+: k :=
  getElem?_partitionPoint s.sorted path

theorem mem_fromB256s {it : List B256} : path ∈ (fromB256s it).keys ↔ ∃ h ∈ it, unpack h = path := by
  have hfold : (fromB256s it).keys = ((it.map unpack).foldl (fun set k => set.upsert k fun _ => ())
        (.empty : SortedMap Nibbles Unit)).entries.map Prod.fst := by
    rw [foldl_map]
    rfl
  rw [hfold, SortedMap.mem_keys_foldl_upsert]
  simp

end PrefixSet

/-! ## Cursors -/

section Cursor

variable {ν : Type}

/-- The key that starts with the path and is zero behind it. -/
def paddedKey (path : Nibbles) : Nibbles := path ++ replicate (64 - path.length) 0

/-- The rows under a path, in ascending order: the cursor seeks the padded key and reads on. -/
def collectUnder (rows : SortedMap B256 ν) (path : Nibbles) : List (B256 × ν) :=
  (rows.entries.dropWhile fun e => unpack e.1 < paddedKey path).takeWhile fun e => path <+: unpack e.1

/-- No key below a path stands before the padded one. -/
theorem not_lt_paddedKey {key : B256} (h : path <+: unpack key) : ¬ unpack key < paddedKey path := by
  obtain ⟨r, hr⟩ := h
  have hlen : path.length + r.length = 64 := by rw [← length_append, hr, length_unpack]
  have hzeros : ∀ r : Nibbles, ¬ r < replicate r.length 0 := by
    intro r
    induction r with
    | nil => exact not_lt_nil _
    | cons a r ih =>
      intro hlt
      rcases cons_lt_cons_iff.1 hlt with hlt | ⟨-, hlt⟩
      · exact Fin.not_lt_zero a hlt
      · exact ih hlt
  have hn : 64 - path.length = r.length := by omega
  rw [← hr, paddedKey, hn]
  intro hlt
  rcases lt_or_ge r (replicate r.length 0) with hr | hr
  · exact hzeros r hr
  · rcases eq_or_lt_of_le hr with heq | hr
    · exact lt_irrefl _ (heq ▸ hlt)
    · exact lt_asymm hlt (append_left_lt hr)

theorem collectUnder_eq (rows : SortedMap B256 ν) (path : Nibbles) :
    collectUnder rows path = rows.entries.filter fun e => path <+: unpack e.1 :=
  takeWhile_dropWhile rows.sorted (prefix_append ..) fun _ _ h => not_lt_paddedKey h

end Cursor

/-! ## The walk -/

variable {H : Type}

/-- The nodes stored for a trie and the leaves it has now. -/
structure LeafSource (H : Type) where
  trieDb : NodeTable H
  /-- The leaves under a path. -/
  emitUnder : Nibbles → List (Nibbles × Item H)

/-- What a walk added to the builder, and its record: the stored nodes it went through, and the paths it
rebuilt from leaves. -/
structure Walked (H : Type) where
  items : List (Nibbles × Item H)
  visited : List Nibbles
  cleared : List Nibbles

open Walked

/-- One walk after the other. -/
def Walked.concat (ws : List (Walked H)) : Walked H where
  items := ws.flatMap items
  visited := ws.flatMap visited
  cleared := ws.flatMap cleared

/-- One child of a stored node. -/
def walkChild (src : LeafSource H) (changed : PrefixSet) (descend : Nibbles → Option (Walked H)) (path : Nibbles)
    (node : BranchNodeCompact H) (i : Nibble) : Option (Walked H) :=
  let child := path ++ [i]
  if node.treeMask i = false then some ⟨src.emitUnder child, [], []⟩
  else if changed.containsPrefix child = false ∧ node.hashMask i = true then
    (node.hashForNibble i).map fun hash => ⟨[(child, .branch hash)], [], []⟩
  else descend child

/-- The walk from a path down. A path has no more than 64 nibbles: the walk panics rather than to go on. -/
def walk (src : LeafSource H) (changed : PrefixSet) : Nat → Nibbles → Option (Walked H)
  | 0, _ => none
  | fuel + 1, path =>
    match src.trieDb path with
    | none => some ⟨src.emitUnder path, [], [path]⟩
    | some node => do
      let children ← (finRange 16).mapM (walkChild src changed (walk src changed fuel) path node)
      some (.concat (⟨[], [path], []⟩ :: children))

/-- The changes of a walk to the table of nodes. -/
structure TrieUpdates (H : Type) where
  upserts : NodeTable H
  removals : List Nibbles
  cleared : List Nibbles

def finalize (updated : NodeTable H) (w : Walked H) : TrieUpdates H where
  upserts := updated
  removals := w.visited.filter fun path => (updated path).isNone
  cleared := w.cleared

/-- The root from the walk, and the changes. -/
def rootWith (C : Codec H) (src : LeafSource H) (changed : PrefixSet) : Option (H × TrieUpdates H) := do
  let w ← walk src changed 65 []
  let (root, updated) ← C.build w.items
  some (root, finalize updated w)

namespace NodeTable

section

variable (table : NodeTable H) (path : Nibbles)

/-- Delete every node below a path. -/
def delPrefix : NodeTable H :=
  fun p => if path <+: p then none else table p

/-- Delete the node at a path. -/
def del : NodeTable H := fun p => if p = path then none else table p

end

/-- Put the nodes there are. -/
def upsert (table upserts : NodeTable H) : NodeTable H := fun p => (upserts p).or (table p)

end NodeTable

open NodeTable

/-- The cleared regions go first, so that new nodes in them stay. -/
def applyUpdates (table : NodeTable H) (updates : TrieUpdates H) : NodeTable H :=
  updates.removals.foldl del (upsert (updates.cleared.foldl delPrefix table) updates.upserts)

section

variable (paths : List Nibbles) (table : NodeTable H) (p : Nibbles)

theorem NodeTable.foldl_delPrefix :
    paths.foldl delPrefix table p = if ∃ path ∈ paths, path <+: p then none else table p := by
  induction paths generalizing table with
  | nil => simp
  | cons path paths ih =>
    rw [foldl_cons, ih, delPrefix]
    by_cases hpath : path <+: p
    · simp [hpath]
    · simp [hpath]

theorem NodeTable.foldl_del : paths.foldl del table p = if p ∈ paths then none else table p := by
  induction paths generalizing table with
  | nil => simp
  | cons path paths ih =>
    rw [foldl_cons, ih, del]
    by_cases hpath : p = path
    · simp [hpath]
    · simp [hpath]

end

/-- The stored node at the path is gone after the walk, unless the builder gave it again. -/
def Walked.Drops (w : Walked H) (p : Nibbles) : Prop := p ∈ w.visited ∨ ∃ path ∈ w.cleared, path <+: p

open Classical in
/-- **The table after the walk.** -/
theorem applyUpdates_finalize (table updated : NodeTable H) (w : Walked H) (p : Nibbles) :
    applyUpdates table (finalize updated w) p = (updated p).or (if w.Drops p then none else table p) := by
  rw [applyUpdates, foldl_del, upsert, foldl_delPrefix]
  have hremoved : p ∈ (finalize updated w).removals ↔ p ∈ w.visited ∧ updated p = none := by
    simp [finalize]
  show (if p ∈ (finalize updated w).removals then none
    else (updated p).or (if ∃ path ∈ w.cleared, path <+: p then none else table p)) = _
  cases hup : updated p with
  | some node => rw [if_neg fun h => by simp [hremoved.1 h] at hup, Option.some_or, Option.some_or]
  | none =>
    rw [Option.none_or, Option.none_or]
    by_cases hv : p ∈ w.visited
    · rw [if_pos (hremoved.2 ⟨hv, hup⟩), if_pos (.inl hv)]
    · rw [if_neg fun h => hv (hremoved.1 h).1]
      refine if_congr ?_ rfl rfl
      exact ⟨.inr, fun h => h.resolve_left hv⟩

/-! ## What a walk gives -/

/-- The table holds the nodes of the old trie, the leaves are those of the new one, and the two differ below
changed keys only. -/
structure Sources (C : Codec H) (src : LeafSource H) (changed : PrefixSet) (t t' : MptTrie) : Prop where
  old : Canonical t
  new : Canonical t'
  length_old : ∀ {p v}, t.get p = some v → p.length = 64
  length_new : ∀ {p v}, t'.get p = some v → p.length = 64
  trieDb : ∀ path, src.trieDb path = C.storedNodes (full t) path
  mem_emitUnder : ∀ path p item, (p, item) ∈ src.emitUnder path ↔ path <+: p ∧ (full t').get p = some item
  sorted_emitUnder : ∀ path, (src.emitUnder path).Pairwise fun a b => a.1 < b.1
  unchanged : ∀ {path}, changed.containsPrefix path = false → ∀ q, t.get (path ++ q) = t'.get (path ++ q)

open Classical in
/-- What a walk from a path gives: the items are a cut of the new trie below the path, and together with what
the walk leaves in the table they hold its nodes. -/
structure Walks (C : Codec H) (src : LeafSource H) (t' : MptTrie) (path : Nibbles) (w : Walked H)
    (u : ItemTrie H) : Prop where
  sorted : w.items.Pairwise fun a b => a.1 < b.1
  below : ∀ {e}, e ∈ w.items → path <+: e.1 ∧ e.1.length ≤ 64
  recorded : ∀ {p}, p ∈ w.visited ∨ p ∈ w.cleared → path <+: p
  canonical : Canonical u
  get_eq : ∀ q item, u.get q = some item ↔ (path ++ q, item) ∈ w.items
  cut : Cut C (t'.sub path) u
  nodes : ∀ q, C.storedNodes (full t') (path ++ q) =
    (C.nodeAt (path ++ q) (u.sub q)).or (if w.Drops (path ++ q) then none else src.trieDb (path ++ q))

namespace Sources

variable {C : Codec H} {src : LeafSource H} {changed : PrefixSet} {t t' : MptTrie} {path : Nibbles}

theorem storedNodes_append (ht : Canonical t) (path q : Nibbles) :
    C.storedNodes (full t) (path ++ q) = C.nodeAt (path ++ q) ((full (t.sub path)).sub q) := by
  rw [storedNodes, full, (ht.map _).sub_append, ht.sub_map]
  rfl

/-- A walk that rebuilds a region from its leaves. -/
theorem walks_emitUnder (h : Sources C src changed t t') (cleared : List Nibbles)
    (hcleared : ∀ p ∈ cleared, path <+: p)
    (hnodes : ∀ q, (¬ ∃ p ∈ cleared, p <+: path ++ q) →
      C.storedNodes (full t') (path ++ q) = none → src.trieDb (path ++ q) = none) :
    Walks C src t' path ⟨src.emitUnder path, [], cleared⟩ (full (t'.sub path)) where
  sorted := h.sorted_emitUnder path
  below := by
    intro e he
    obtain ⟨hp, hget⟩ := (h.mem_emitUnder path e.1 e.2).1 he
    rw [full, get_map, Option.map_eq_some_iff] at hget
    obtain ⟨v, hv, -⟩ := hget
    exact ⟨hp, (h.length_new hv).le⟩
  recorded := by
    rintro p (hp | hp)
    · cases hp
    · exact hcleared p hp
  canonical := (h.new.sub path).map _
  get_eq := fun q item => by
    rw [h.mem_emitUnder, full, get_map, get_sub, full, get_map]
    exact ⟨fun hget => ⟨prefix_append path q, hget⟩, And.right⟩
  cut := .refl (h.new.sub path)
  nodes := fun q => by
    rw [← storedNodes_append h.new]
    cases hn : C.storedNodes (full t') (path ++ q) with
    | some node => rfl
    | none =>
      split
      case isTrue => rfl
      case isFalse hkept => exact (hnodes q (fun hc => hkept (.inr hc)) hn).symm

theorem exists_branch (h : Sources C src changed t t') {node : BranchNodeCompact H}
    (hnode : src.trieDb path = some node) :
    ∃ ts : Nibble → MptTrie, t.sub path = .branch ts ∧ node = C.compact path (fun i => full (ts i)) ∧
      path.length < 64 := by
  rw [h.trieDb, storedNodes, full, h.old.sub_map] at hnode
  have hcanon := h.old.sub path
  cases hsub : t.sub path with
  | nil | leaf | ext =>
    rw [hsub] at hnode
    cases hnode
  | branch ts =>
    rw [hsub] at hnode hcanon
    refine ⟨ts, rfl, ?_, ?_⟩
    · rw [map_branch, nodeAt] at hnode
      split at hnode
      · exact (Option.some.inj hnode).symm
      · cases hnode
    · obtain ⟨p, v, hp⟩ := (hcanon.reduced (by simp)).exists_get
      have hlen : (path ++ p).length = 64 := by
        refine h.length_old (v := v) ?_
        rw [← get_sub, hsub, hp]
      cases p with
      | nil => cases hp
      | cons a p =>
        rw [length_append, length_cons] at hlen
        omega

variable {ts : Nibble → MptTrie}

theorem sub_child (ht : Canonical t) (hsub : t.sub path = .branch ts) (i : Nibble) :
    t.sub (path ++ [i]) = ts i := by
  have hcanon := ht.sub path
  rw [hsub] at hcanon
  rw [ht.sub_append, hsub, hcanon.sub_singleton_of_branch]

/-- A walk that takes a branch by its hash. -/
theorem walks_skip (h : Sources C src changed t t') (hshort : path.length ≤ 64)
    (hunchanged : changed.containsPrefix path = false) (hsub : t.sub path = .branch ts)
    (hstored : hasStored (H := H) (full (.branch ts)) = true) :
    Walks C src t' path ⟨[(path, .branch (C.root (.branch ts)))], [], []⟩
      (.leaf [] (.branch (C.root (.branch ts)))) where
  sorted := pairwise_singleton _ _
  below := by
    intro e he
    obtain rfl := mem_singleton.1 he
    exact ⟨prefix_refl path, hshort⟩
  recorded := by
    rintro p (hp | hp) <;> cases hp
  canonical := .inr (.ofLeaf _ _)
  get_eq := fun q item => by
    rw [get_leaf]
    split
    case isTrue hq => simp [hq, eq_comm]
    case isFalse hq => simp [hq]
  cut := by
    have hsame : t.sub path = t'.sub path := h.old.sub_congr h.new (h.unchanged hunchanged)
    rw [← hsame, hsub]
    exact .hash hstored
  nodes := fun q => by
    have hsame : t.sub path = t'.sub path := h.old.sub_congr h.new (h.unchanged hunchanged)
    have hnone : C.nodeAt (path ++ q) ((leaf [] (.branch (C.root (.branch ts))) : ItemTrie H).sub q) = none := by
      rw [sub]
      split <;> rfl
    have hkept : ¬ Drops (⟨[(path, .branch (C.root (.branch ts)))], [], []⟩ : Walked H) (path ++ q) := by
      simp [Drops]
    rw [hnone, if_neg hkept, Option.none_or, h.trieDb, storedNodes_append h.new, storedNodes_append h.old, hsame]

theorem digit_eq {i j : Nibble} {p : Nibbles} (hi : path ++ [i] <+: p) (hj : path ++ [j] <+: p) : i = j := by
  have heq : path ++ [i] = path ++ [j] :=
    (prefix_of_prefix_length_le hi hj (by simp)).eq_of_length (by simp)
  simpa using heq

open Classical in
section

variable (h : Sources C src changed t t')
include h

/-- **The walks of the children are a walk of their parent.** -/
theorem walks_concat (hlong : C.LongBranches) (hshort : path.length < 64)
    {ws : Nibble → Walked H} {us : Nibble → ItemTrie H} (hws : ∀ i, Walks C src t' (path ++ [i]) (ws i) (us i)) :
    ∃ u, Walks C src t' path (.concat (⟨[], [path], []⟩ :: (finRange 16).map ws)) u := by
  obtain ⟨u, hcanon, hnil, hsub⟩ := exists_gather fun i => (hws i).canonical
  generalize hw : Walked.concat (⟨[], [path], []⟩ :: (finRange 16).map ws) = w
  have hitems : w.items = (finRange 16).flatMap fun i => (ws i).items := by
    rw [← hw]
    simp [Walked.concat, flatMap_map]
  have hmem : ∀ e, e ∈ w.items ↔ ∃ i, e ∈ (ws i).items := fun e => by
    rw [hitems]
    simp
  have hvisited : ∀ p, p ∈ w.visited ↔ p = path ∨ ∃ i, p ∈ (ws i).visited := fun p => by
    rw [← hw]
    simp [Walked.concat]
  have hcleared : ∀ p, p ∈ w.cleared ↔ ∃ i, p ∈ (ws i).cleared := fun p => by
    rw [← hw]
    simp [Walked.concat]
  -- below a digit only the walk of that child counts
  have hchild : ∀ (i : Nibble) (q : Nibbles), w.Drops (path ++ [i] ++ q) ↔ (ws i).Drops (path ++ [i] ++ q) := by
    intro i q
    have hq : path ++ [i] <+: path ++ [i] ++ q := prefix_append _ q
    constructor
    · rintro (hp | ⟨p, hp, hprefix⟩)
      · rcases (hvisited _).1 hp with heq | ⟨j, hj⟩
        · simp at heq
        · obtain rfl := digit_eq hq ((hws j).recorded (.inl hj))
          exact .inl hj
      · obtain ⟨j, hj⟩ := (hcleared p).1 hp
        obtain rfl := digit_eq hq (((hws j).recorded (.inr hj)).trans hprefix)
        exact .inr ⟨p, hj, hprefix⟩
    · rintro (hp | ⟨p, hp, hprefix⟩)
      · exact .inl ((hvisited _).2 (.inr ⟨i, hp⟩))
      · exact .inr ⟨p, (hcleared p).2 ⟨i, hp⟩, hprefix⟩
  have htnil : (t'.sub path).get [] = none := by
    rw [get_sub, append_nil]
    by_contra hsome
    obtain ⟨v, hv⟩ := Option.ne_none_iff_exists'.1 hsome
    exact absurd (h.length_new hv) hshort.ne
  have hcut : Cut C (t'.sub path) u := by
    refine .of_sub (h.new.sub path) hcanon htnil hnil fun i => ?_
    rw [hsub, ← h.new.sub_append]
    exact (hws i).cut
  refine ⟨u, ?_, ?_, ?_, hcanon, ?_, hcut, ?_⟩
  · rw [hitems, pairwise_flatMap]
    refine ⟨fun i _ => (hws i).sorted, (pairwise_lt_finRange 16).imp fun {i j} hij e he e' he' => ?_⟩
    exact lt_of_digit_lt hij ((hws i).below he).1 ((hws j).below he').1
  · intro e he
    obtain ⟨i, hi⟩ := (hmem e).1 he
    exact ⟨(prefix_append path [i]).trans ((hws i).below hi).1, ((hws i).below hi).2⟩
  · rintro p (hp | hp)
    · rcases (hvisited p).1 hp with rfl | ⟨i, hi⟩
      · exact prefix_refl p
      · exact (prefix_append path [i]).trans ((hws i).recorded (.inl hi))
    · obtain ⟨i, hi⟩ := (hcleared p).1 hp
      exact (prefix_append path [i]).trans ((hws i).recorded (.inr hi))
  · intro q item
    rw [hmem]
    cases q with
    | nil =>
      rw [hnil, append_nil]
      refine ⟨fun hn => (nomatch hn), fun ⟨i, hi⟩ => ?_⟩
      have hlen : (path ++ [i]).length ≤ path.length := ((hws i).below hi).1.length_le
      rw [length_append, length_singleton] at hlen
      omega
    | cons i q =>
      have hget : u.get (i :: q) = (us i).get q := by rw [← hsub, get_sub, singleton_append]
      rw [hget, (hws i).get_eq, append_assoc]
      refine ⟨fun hi => ⟨i, hi⟩, fun ⟨j, hj⟩ => ?_⟩
      obtain rfl : i = j := digit_eq (by simp) ((hws j).below hj).1
      exact hj
  · intro q
    cases q with
    | nil =>
      -- the node of the path itself comes from the builder
      rw [hcanon.sub_nil, append_nil, if_pos (.inl ((hvisited path).2 (.inl rfl))), Option.or_none,
        hcut.nodeAt_eq hlong (h.new.sub path) hnil, storedNodes, full, h.new.sub_map]
      rfl
    | cons i q =>
      have hnodes := (hws i).nodes q
      have hu : u.sub (i :: q) = (us i).sub q := by rw [← hsub, ← hcanon.sub_append, singleton_append]
      rw [← if_congr (hchild i q) rfl rfl] at hnodes
      rw [hu]
      rwa [append_assoc] at hnodes

/-- One child of a stored node, when the walk goes on below. -/
theorem walks_child (hshort : path.length < 64)
    (hsub : t.sub path = .branch ts) (i : Nibble) {descend : Nibbles → Option (Walked H)}
    (hdescend : ∃ w u, descend (path ++ [i]) = some w ∧ Walks C src t' (path ++ [i]) w u) :
    ∃ w u, walkChild src changed descend path (C.compact path fun i => full (ts i)) i = some w ∧
      Walks C src t' (path ++ [i]) w u := by
  have hchild := sub_child h.old hsub i
  unfold walkChild
  by_cases htree : (C.compact path fun i => full (ts i)).treeMask i = false
  · -- no node is stored below the child, and so none can be left there
    rw [if_pos htree]
    refine ⟨_, _, rfl, h.walks_emitUnder [] (by simp) fun q _ _ => ?_⟩
    rw [h.trieDb, storedNodes_append h.old, hchild]
    by_contra hsome
    obtain ⟨node, hnode⟩ := Option.ne_none_iff_exists'.1 hsome
    exact absurd (hasStored_of_nodeAt hnode) (Bool.eq_false_iff.1 htree)
  rw [if_neg htree]
  by_cases hskip : changed.containsPrefix (path ++ [i]) = false ∧
      (C.compact path fun i => full (ts i)).hashMask i = true
  · have hbranch : isBranchNode (H := H) (full (ts i)) = true := hskip.2
    have hhash : (C.compact path fun i => full (ts i)).hashForNibble i = some (C.root (ts i)) := by
      rw [hashForNibble_compact hbranch, itemRoot_full]
    rw [if_pos hskip, hhash]
    have hstored : hasStored (H := H) (full (ts i)) = true := Bool.not_eq_false _ ▸ htree
    obtain ⟨us, hus⟩ := exists_branch_of_isBranchNode hbranch
    rw [hus] at hchild hstored ⊢
    refine ⟨_, _, rfl, h.walks_skip ?_ hskip.1 hchild hstored⟩
    rw [length_append, length_singleton]
    omega
  · rw [if_neg hskip]
    exact hdescend

/-- **The walk** from a path down, with fuel for the nibbles that are left. -/
theorem walks (hlong : C.LongBranches) {fuel : Nat}
    (hshort : path.length ≤ 64) (hfuel : 64 < fuel + path.length) :
    ∃ w u, walk src changed fuel path = some w ∧ Walks C src t' path w u := by
  induction fuel generalizing path with
  | zero => omega
  | succ fuel ih =>
    unfold walk
    cases hnode : src.trieDb path with
    | none =>
      refine ⟨_, _, rfl, h.walks_emitUnder [path] (by simp) fun q hkept _ => ?_⟩
      exact absurd ⟨path, mem_singleton_self path, prefix_append path q⟩ hkept
    | some node =>
      obtain ⟨ts, hsub, rfl, hlen⟩ := h.exists_branch hnode
      have hbelow : ∀ i : Nibble, ∃ w u, walk src changed fuel (path ++ [i]) = some w ∧
          Walks C src t' (path ++ [i]) w u := fun i => by
        refine ih ?_ ?_ <;> rw [length_append, length_singleton] <;> omega
      have hchildren := fun i => h.walks_child hlen hsub i (hbelow i)
      choose ws us hwalk hws using hchildren
      obtain ⟨u, hu⟩ := h.walks_concat hlong hlen hws
      refine ⟨_, u, ?_, hu⟩
      show ((finRange 16).mapM (walkChild src changed (walk src changed fuel) path _)).bind _ = _
      rw [funext hwalk]
      exact congrArg (Option.bind · _) mapM_pure

/-- **The incremental root is the root of the new trie**, and the table then holds the nodes of the new trie. -/
theorem rootWith_spec (hlong : C.LongBranches) : ∃ updates, rootWith C src changed = some (C.root t', updates) ∧
      ∀ path, applyUpdates src.trieDb updates path = C.storedNodes (full t') path := by
  obtain ⟨w, u, hwalk, hw⟩ : ∃ w u, walk src changed 65 [] = some w ∧ Walks C src t' [] w u :=
    h.walks hlong (by simp) (by simp)
  have hcut := hw.cut
  rw [h.new.sub_nil] at hcut
  have hget : ∀ q item, u.get q = some item ↔ (q, item) ∈ w.items := hw.get_eq
  have hfree : PrefixFree w.items := by
    refine hw.sorted.imp_of_mem fun {a b} ha hb hlt => ?_
    have hne : a.1 ≠ b.1 := fun heq => lt_irrefl _ (heq ▸ hlt)
    exact ⟨fun hp => hne (eq_of_get_of_isPrefix ((hget _ _).2 ha) ((hget _ _).2 hb) hp),
      fun hp => hne (eq_of_get_of_isPrefix ((hget _ _).2 hb) ((hget _ _).2 ha) hp).symm⟩
  have hspec := Trie.ofEntries_spec (n := 64) hfree fun e he => (hw.below he).2
  have hu : Trie.ofEntries 64 w.items = u :=
    hspec.1.eq_of_get_eq hw.canonical fun q => Option.ext fun item => by rw [hspec.2, hget]
  refine ⟨finalize (C.storedNodes u) w, ?_, fun path => ?_⟩
  · rw [rootWith, hwalk, Option.bind_eq_bind, Option.bind_some, build, if_pos hw.sorted, hu,
      hcut.itemRoot_eq hlong h.new]
    rfl
  · rw [applyUpdates_finalize]
    exact (hw.nodes path).symm

end

end Sources

end Kardamom.Mpt
