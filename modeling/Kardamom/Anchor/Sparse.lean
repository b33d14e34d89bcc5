import Kardamom.Lib.Outcome
import Kardamom.Lib.SortedMap
import Kardamom.State.Mpt

/-!
# The sparse trie

A trie over a set of nodes that are addressed by their hash. It starts as one unresolved root hash, and
resolves nodes from the store as keys are read, inserted or removed. A subtrie that no key touched stays
the reference that its parent carried, and goes into the new root as it is.

The source walks by recursion with a path and a depth. A walk here counts its calls: a node set with a
chain of empty extensions lets the source recurse without end, which is `panicked`, like its other panics.
-/

namespace Kardamom.Anchor

open Mpt Function List SortedMap Patricia

/-- What the trie refutes of a witness. The text of the source names the address and the slot. -/
inductive Refutation where
  /-- "account witnessed absent but included" -/
  | absentButIncluded (address : Address)
  /-- "account fields diverge from trie leaf" -/
  | fieldsDiverge (address : Address)
  /-- "account witnessed present but excluded" -/
  | presentButExcluded (address : Address)
  /-- "slot under unwitnessed account" -/
  | unwitnessedAccount (address : Address)
  /-- "slot witnessed non-zero but excluded" -/
  | slotExcluded (address : Address) (key : B256)
  /-- "slot value diverges from trie leaf" -/
  | slotDiverges (address : Address) (key : B256)
  /-- "code blob does not hash to" -/
  | codeHash
  deriving DecidableEq

inductive AnchorError (H : Type) where
  | noPreStateRoot
  | proofSetNotCanonical
  /-- The walk needed a node that the set does not carry: its hash, its position, and the account of a
  storage trie. -/
  | missingNode (hash : H) (path : Nibbles) (account : Option Address)
  | nodeDecode (hash : H)
  | refuted (what : Refutation)
  | malformed (what : String)
  | accountDeleteUnsupported (address : Address)
  | writeWithoutRead (address : Address)
  deriving DecidableEq

/-! ## The node store -/

variable {H : Type} [LinearOrder H]

/-- A set of nodes, each under its hash. -/
structure NodeStore (C : Codec H) where
  nodes : SortedMap H Bytes
  keyed : ∀ h b, nodes.get? h = some b → C.keccak b = h

namespace NodeStore

variable {C : Codec H}

/-- No node. -/
def empty : NodeStore C := ⟨.empty, fun _ b hb => nomatch (hb : none = some b)⟩

/-- A node added under its hash. -/
def insert (store : NodeStore C) (raw : Bytes) : NodeStore C where
  nodes := store.nodes.upsert (C.keccak raw) fun _ => raw
  keyed h b hb := by
    by_cases heq : h = C.keccak raw
    · subst heq
      rw [get?_upsert_self] at hb
      rw [← Option.some.inj hb]
    · rw [get?_upsert_of_ne _ heq] at hb
      exact store.keyed h b hb

/-- The loop over the nodes, with the hash of the one before. -/
def collect : Option H → NodeStore C → List Bytes → Outcome (AnchorError H) (NodeStore C)
  | _, store, [] => .ok store
  | prev, store, raw :: rest =>
    if prev.any fun prev => C.keccak raw ≤ prev then .err .proofSetNotCanonical
    else collect (some (C.keccak raw)) (store.insert raw) rest

/-- The store of a proof set, which comes sorted by hash and each node once. -/
def new (proofs : List Bytes) : Outcome (AnchorError H) (NodeStore C) := collect none empty proofs

/-- The bytes of the node under a hash. -/
def nodeBytes (store : NodeStore C) (hash : H) (position : Nibbles) : Outcome (AnchorError H) Bytes :=
  .ofOption (.missingNode hash position none) (store.nodes.get? hash)

/-- The node that a reference at a position points at. -/
def resolve (store : NodeStore C) (r : RlpNode H) (position : Nibbles) :
    Outcome (AnchorError H) (TrieNode H) :=
  match r with
  | .hash h => do
    let bytes ← store.nodeBytes h position
    .ofOption (.nodeDecode h) (C.decode bytes)
  | .inline bytes => .ofOption (.nodeDecode C.zero) (C.decode bytes)

end NodeStore

/-! ## Nodes -/

/-- One node of a sparse trie. -/
inductive Node (H : Type) where
  /-- A subtrie that no walk needed, by the reference that its parent carries. -/
  | unresolved (r : RlpNode H)
  | leaf (key : Nibbles) (value : Bytes)
  | extension (key : Nibbles) (child : Node H)
  | branch (children : Nibble → Option (Node H))

namespace Node

/-- One child slot of a branch, with the references that are left. -/
def resolveBranchSlot (i : Nibble) (stateMask : TrieMask) (stack : List (RlpNode H)) :
    Outcome (AnchorError H) (Option (Node H) × List (RlpNode H)) :=
  if stateMask i then
    match stack with
    | [] => .err (.malformed "branch mask exceeds stack")
    | r :: rest => .ok (some (.unresolved r), rest)
  else .ok (none, stack)

/-- The loop over the slots. -/
def resolveSlots (stateMask : TrieMask) :
    List Nibble → (Nibble → Option (Node H)) → List (RlpNode H) →
      Outcome (AnchorError H) (Nibble → Option (Node H))
  | [], children, _ => .ok children
  | i :: is, children, stack => do
    let (slot, rest) ← resolveBranchSlot i stateMask stack
    resolveSlots stateMask is (update children i slot) rest

/-- The sixteen child slots of a branch. -/
def resolveBranchChildren (stack : List (RlpNode H)) (stateMask : TrieMask) :
    Outcome (AnchorError H) (Nibble → Option (Node H)) :=
  resolveSlots stateMask (finRange 16) (fun _ => none) stack

variable {C : Codec H}

/-- Expand a reference. The children stay unresolved. -/
def resolve (r : RlpNode H) (position : Nibbles) (store : NodeStore C) :
    Outcome (AnchorError H) (Node H) := do
  match ← store.resolve r position with
  | .emptyRoot => .err (.malformed "empty-root node as a child")
  | .leaf key value => .ok (.leaf key value)
  | .extension key child => .ok (.extension key (.unresolved child))
  | .branch stack stateMask => do
    let children ← resolveBranchChildren stack stateMask
    .ok (.branch children)

/-- The node, expanded if it was not. -/
def resolved (node : Node H) (position : Nibbles) (store : NodeStore C) :
    Outcome (AnchorError H) (Node H) :=
  match node with
  | .unresolved r => resolve r position store
  | _ => .ok node

/-- Wrap a node in an extension, unless the key is empty. -/
def wrapExtension (node : Node H) (key : Nibbles) : Node H :=
  if key.isEmpty then node else .extension key node

/-- A branch with two children below a shared key. -/
def splitBranch (key : Nibbles) (a b : Nibble × Node H) : Node H :=
  let children := update (fun _ => none) a.1 (some a.2)
  (Node.branch (update children b.1 (some b.2))).wrapExtension key

/-- Split a leaf where its key leaves the inserted one. -/
def splitLeaf (key : Nibbles) (existing : Bytes) (rest : Nibbles) (value : Bytes) :
    Outcome (AnchorError H) (Node H) := do
  let common := (lcp key rest).length
  let oldNibble ← .expect key[common]?
  let newNibble ← .expect rest[common]?
  let oldLeaf := .leaf (key.drop (common + 1)) existing
  let newLeaf := .leaf (rest.drop (common + 1)) value
  .ok (splitBranch (rest.take common) (oldNibble, oldLeaf) (newNibble, newLeaf))

/-- Split an extension where its key leaves the inserted one. -/
def splitExtension (key : Nibbles) (child : Node H) (rest : Nibbles) (value : Bytes) :
    Outcome (AnchorError H) (Node H) := do
  let common := (lcp key rest).length
  let extNibble ← .expect key[common]?
  let newNibble ← .expect rest[common]?
  let extRest := key.drop (common + 1)
  let oldSide := if extRest.isEmpty then child else .extension extRest child
  let newLeaf := .leaf (rest.drop (common + 1)) value
  .ok (splitBranch (rest.take common) (extNibble, oldSide) (newNibble, newLeaf))

/-- After a removal below an extension: an extension points at a branch only. -/
def mergeExtension (node : Node H) (key : Nibbles) : Node H :=
  match node with
  | .leaf ck value => .leaf (key ++ ck) value
  | .extension ck child => .extension (key ++ ck) child
  | other => .extension key other

variable (C)

mutual

/-- The reference of a parent to a node. An untouched node keeps the reference that it had. -/
def rlpRef (node : Node H) : RlpNode H :=
  match node with
  | .unresolved r => r
  | .leaf key value => C.fromRlp (C.encode (.leaf key value))
  | .extension key child => C.fromRlp (C.encode (.extension key (rlpRef child)))
  | .branch children =>
    C.fromRlp (C.encode (.branch ((finRange 16).filterMap fun i => childRef (children i))
      fun i => (children i).isSome))
termination_by structural node

/-- The reference to a child, if there is one. -/
def childRef (child : Option (Node H)) : Option (RlpNode H) :=
  match child with
  | none => none
  | some node => some (rlpRef node)
termination_by structural child

end

/-- The full encoding of a node. -/
def encodeNode : Node H → Bytes
  | .unresolved (.hash h) => C.wordRlp h
  | .unresolved (.inline bytes) => bytes
  | .leaf key value => C.encode (.leaf key value)
  | .extension key child => C.encode (.extension key (child.rlpRef C))
  | .branch children =>
    C.encode (.branch ((finRange 16).filterMap fun i => childRef C (children i))
      fun i => (children i).isSome)

end Node

/-! ## Walks -/

/-- What a lookup proved. -/
inductive Lookup where
  | found (value : Bytes)
  | absent
  deriving DecidableEq

/-- One walk: the whole key, and the node store. -/
structure Walk (C : Codec H) where
  path : Nibbles
  store : NodeStore C

namespace Walk

variable {C : Codec H} (w : Walk C)

/-- Look the key up below a node at a depth. The nodes that it needed are resolved in place. -/
def lookupIn : Nat → Node H → Nat → Outcome (AnchorError H) (Lookup × Node H)
  | 0, _, _ => .panicked
  | fuel + 1, node, depth => do
    let node ← node.resolved (w.path.take depth) w.store
    let rest := w.path.drop depth
    match node with
    | .unresolved _ => .panicked
    | .leaf key value => .ok (if key = rest then .found value else .absent, node)
    | .extension key child =>
      if key <+: rest then do
        let (result, child) ← lookupIn fuel child (depth + key.length)
        .ok (result, .extension key child)
      else .ok (.absent, node)
    | .branch children =>
      match rest with
      | [] => .err (.malformed "key exhausted at a branch")
      | nibble :: _ =>
        match children nibble with
        | none => .ok (.absent, node)
        | some child => do
          let (result, child) ← lookupIn fuel child (depth + 1)
          .ok (result, .branch (update children nibble (some child)))

/-- Insert the key below a node at a depth, or where there is none. -/
def insertIn (value : Bytes) : Nat → Option (Node H) → Nat → Outcome (AnchorError H) (Node H)
  | 0, _, _ => .panicked
  | fuel + 1, node, depth =>
    let rest := w.path.drop depth
    match node with
    | none => .ok (.leaf rest value)
    | some node => do
      let node ← node.resolved (w.path.take depth) w.store
      match node with
      | .unresolved _ => .panicked
      | .leaf key existing =>
        if key = rest then .ok (.leaf key value) else Node.splitLeaf key existing rest value
      | .extension key child =>
        if key <+: rest then do
          let child ← insertIn value fuel (some child) (depth + key.length)
          .ok (.extension key child)
        else Node.splitExtension key child rest value
      | .branch children =>
        match rest with
        | [] => .err (.malformed "key exhausted at a branch")
        | nibble :: _ => do
          let child ← insertIn value fuel (children nibble) (depth + 1)
          .ok (.branch (update children nibble (some child)))

/-- Splice the one child that is left of a branch up through its nibble. -/
def spliceSurvivor (survivor : Node H) (i : Nibble) (depth : Nat) :
    Outcome (AnchorError H) (Node H) := do
  let survivor ← survivor.resolved (w.path.take depth ++ [i]) w.store
  .ok (survivor.mergeExtension [i])

section

variable (children : Nibble → Option (Node H))

/-- The children of a branch that there are, with their nibbles. -/
def survivors : List (Nibble × Node H) :=
  (finRange 16).filterMap fun i => (children i).map fun node => (i, node)

/-- A child of a branch vanished: keep the branch with two children or more. -/
def collapseBranch (depth : Nat) :
    Outcome (AnchorError H) (Option (Node H)) :=
  match survivors children with
  | [] => .ok none
  | [(i, survivor)] => do
    let node ← w.spliceSurvivor survivor i depth
    .ok (some node)
  | _ :: _ :: _ => .ok (some (.branch children))

end

/-- Remove the key below a node at a depth. `none` means that the subtrie vanished. -/
def removeIn : Nat → Node H → Nat → Outcome (AnchorError H) (Option (Node H))
  | 0, _, _ => .panicked
  | fuel + 1, node, depth => do
    let node ← node.resolved (w.path.take depth) w.store
    let rest := w.path.drop depth
    match node with
    | .unresolved _ => .panicked
    | .leaf key value => .ok (if key = rest then none else some (.leaf key value))
    | .extension key child =>
      if key <+: rest then do
        match ← removeIn fuel child (depth + key.length) with
        | none => .ok none
        | some child => .ok (some (child.mergeExtension key))
      else .ok (some (.extension key child))
    | .branch children =>
      match rest with
      | [] => .err (.malformed "key exhausted at a branch")
      | nibble :: _ =>
        match children nibble with
        | none => .ok (some (.branch children))
        | some child => do
          match ← removeIn fuel child (depth + 1) with
          | some kept => .ok (some (.branch (update children nibble (some kept))))
          | none => w.collapseBranch (update children nibble none) depth

/-- The calls of a walk: each one but the first goes at least one nibble deeper. -/
def fuel : Nat := w.path.length + 1

end Walk

/-! ## The trie -/

/-- A sparse trie over a node store. -/
structure SparseTrie (C : Codec H) where
  root : Option (Node H)
  store : NodeStore C

namespace SparseTrie

variable {C : Codec H}

def new (root : H) (store : NodeStore C) : SparseTrie C :=
  ⟨if root = C.emptyRootHash then none else some (.unresolved (.hash root)), store⟩

section

variable (t : SparseTrie C) (key : B256)

/-- The walk of a key. -/
def walk : Walk C := ⟨unpack key, t.store⟩

def lookup : Outcome (AnchorError H) (Lookup × SparseTrie C) :=
  match t.root with
  | none => .ok (.absent, t)
  | some root => do
    let (result, root) ← (t.walk key).lookupIn (t.walk key).fuel root 0
    .ok (result, { t with root := some root })

def insert (value : Bytes) :
    Outcome (AnchorError H) (SparseTrie C) := do
  let root ← (t.walk key).insertIn value (t.walk key).fuel t.root 0
  .ok { t with root := some root }

def remove : Outcome (AnchorError H) (SparseTrie C) :=
  match t.root with
  | none => .ok t
  | some root => do
    let root ← (t.walk key).removeIn (t.walk key).fuel root 0
    .ok { t with root := root }

end

/-- Hash the trie from the bottom. -/
def rootHash (t : SparseTrie C) : H :=
  match t.root with
  | none => C.emptyRootHash
  | some (.unresolved (.hash h)) => h
  | some (.unresolved (.inline bytes)) => C.keccak bytes
  | some node => C.keccak (node.encodeNode C)

end SparseTrie

end Kardamom.Anchor
