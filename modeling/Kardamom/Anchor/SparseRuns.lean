import Kardamom.Anchor.SparseRefines
import Kardamom.State.PlainCodec
import Kardamom.State.TrieMap

/-!
# Runs of the sparse trie

A sparse trie that starts at the canonical root of a map, over any set of nodes, answers every lookup as
the updated map does and ends at the canonical root of the updated map, as long as every call succeeds
(`run_refines`). No call panics (`run_holds`).
-/

namespace Kardamom.Anchor

open Mpt Patricia Patricia.Trie SparseTrie Function Walk Nat

variable {H : Type} {C : Codec H}

/-! ## The root slot -/

/-- The root of a sparse trie stands for a trie: nothing, the hash of the root, or a node. -/
inductive RootExpands (C : Codec H) : Option (Node H) → MptTrie → Prop
  | empty : RootExpands C none .nil
  | unresolved {t : MptTrie} (hred : Reduced t) :
      RootExpands C (some (.unresolved (.hash (C.root t)))) t
  | node {node : Node H} {t : MptTrie} (hexp : Expands C node t) (hred : Reduced t) :
      RootExpands C (some node) t

namespace RootExpands

variable {t : MptTrie} {root : Option (Node H)}

theorem canonical (h : RootExpands C root t) : Canonical t := by
  cases h with
  | empty => exact .inl rfl
  | unresolved hred | node _ hred => exact .inr hred

theorem of_slot {slot : Option (Node H)} (h : ExpandsSlot C slot t) (ht : Canonical t) :
    RootExpands C slot t := by
  cases slot with
  | none =>
    obtain rfl : t = .nil := h
    exact .empty
  | some node => exact .node h (ht.reduced (Expands.ne_nil h))

variable [LinearOrder H]

theorem opens (hC : C.Lawful) {store : NodeStore C}
    (h : RootExpands C root t) : OpensSlot store root t := by
  cases h with
  | empty => rfl
  | unresolved hred => exact ⟨opens_root hC hred, hred⟩
  | node hexp hred => exact ⟨hexp.opens hC hred, hred⟩

theorem new (hC : C.Lawful) (store : NodeStore C) (ht : Canonical t) :
    RootExpands C (SparseTrie.new (C.root t) store).root t := by
  unfold SparseTrie.new
  split
  case isTrue heq =>
    rw [hC.root_eq_empty_iff.1 heq]
    exact .empty
  case isFalse hne => exact .unresolved (ht.reduced fun hnil => hne (hC.root_eq_empty_iff.2 hnil))

theorem rootHash_eq {s : SparseTrie C} (h : RootExpands C s.root t) : s.rootHash = C.root t := by
  unfold rootHash
  generalize s.root = root at h
  cases h with
  | empty | unresolved => rfl
  | @node node _ hexp _ =>
    have henc : node.Resolved → C.keccak (node.encodeNode C) = C.root t := fun hres =>
      congrArg C.keccak (hexp.encodeNode_eq hres)
    cases hexp with
    | unresolved =>
      unfold Codec.ref Codec.fromRlp
      by_cases hlen : (C.encode (C.node t)).length < 32
      · rw [if_pos hlen]
        rfl
      · rw [if_neg hlen]
        rfl
    | leaf | extension | branch => exact henc (by simp [Node.Resolved])

end RootExpands

/-! ## Calls -/

section Calls

variable [LinearOrder H]

/-- The sparse trie holds a map. -/
def Holds (s : SparseTrie C) (m : B256 → Option Bytes) : Prop :=
  ∃ t, RootExpands C s.root t ∧ ReadsAs t m

namespace Holds

variable {s : SparseTrie C} {m : B256 → Option Bytes} {es : List (B256 × Bytes)}

theorem new (hC : C.Lawful) (store : NodeStore C) (h : IsMap es m) :
    Holds (SparseTrie.new (mapRoot C es) store) m :=
  ⟨_, RootExpands.new hC store h.ofEntries.1, h.ofEntries.2⟩

/-- **The root of a sparse trie is the canonical root of its map.** -/
theorem rootHash_eq (h : Holds s m) (hes : IsMap es m) : s.rootHash = mapRoot C es := by
  obtain ⟨t, hroot, hreads⟩ := h
  have heq := hroot.canonical.eq_of_get_eq hes.ofEntries.1 (hreads.get_eq hes.ofEntries.2)
  rw [hroot.rootHash_eq, heq]
  rfl

theorem of_secureRoot (hC : C.Lawful) (store : NodeStore C) {α : Type} {key : α → B256}
    {f : α → Option Bytes} {root : H} (h : SecureRoot C key f root) :
    Holds (SparseTrie.new root store) (keyed key f) := by
  obtain ⟨t, hcan, hreads, rfl⟩ := h
  exact ⟨t, RootExpands.new hC store hcan, hreads⟩

theorem secureRoot {α : Type} {key : α → B256} {f : α → Option Bytes} (h : Holds s (keyed key f)) :
    SecureRoot C key f s.rootHash := by
  obtain ⟨t, hroot, hreads⟩ := h
  exact ⟨t, hroot.canonical, hreads, hroot.rootHash_eq⟩

variable (hC : C.Lawful) (h : Holds s m) (key : B256)
include hC h

theorem lookup :
    (s.lookup key).Meets fun result => result.1 = .ofOption (m key) ∧ Holds result.2 m := by
  obtain ⟨t, hroot, hreads⟩ := h
  unfold SparseTrie.lookup
  cases hs : s.root with
  | none =>
    rw [hs] at hroot
    cases hroot
    exact .ok ⟨by rw [← hreads.get_unpack key]; rfl, .nil, by rw [hs]; exact .empty, hreads⟩
  | some root =>
    rw [hs] at hroot
    have hopens : OpensSlot (s.walk key).store (some root) t := hroot.opens hC
    refine (lookupIn_spec hC hopens.1 hopens.2 (lt_succ_self _)).bind ?_
    rintro ⟨found, root'⟩ ⟨hget, hexp⟩
    exact .ok ⟨by rw [← hreads.get_unpack key]; exact hget, t, .node hexp hopens.2, hreads⟩

theorem insert (value : Bytes) :
    (s.insert key value).Meets fun s' => Holds s' (update m key (some value)) := by
  obtain ⟨t, hroot, hreads⟩ := h
  have hopens : OpensSlot (s.walk key).store s.root t := hroot.opens hC
  have hkeys : KeysOf (((s.walk key).path).drop 0).length t := by
    show KeysOf (unpack key).length t
    rw [length_unpack]
    exact fun _ _ => hreads.length_eq
  refine (insertIn_spec hC value hopens hkeys (lt_succ_self _)).bind ?_
  rintro root' ⟨t', hexp, hred, hget, -⟩
  exact .ok ⟨t', .node hexp hred, hreads.update hget⟩

theorem remove : (s.remove key).Meets fun s' => Holds s' (update m key none) := by
  obtain ⟨t, hroot, hreads⟩ := h
  unfold SparseTrie.remove
  cases hs : s.root with
  | none =>
    rw [hs] at hroot
    cases hroot
    refine .ok ⟨.nil, by rw [hs]; exact .empty, hreads.update fun p => ?_⟩
    rw [get_nil, ite_self]
  | some root =>
    rw [hs] at hroot
    have hopens : OpensSlot (s.walk key).store (some root) t := hroot.opens hC
    refine (removeIn_spec hC hopens.1 hopens.2 (lt_succ_self _)).bind ?_
    rintro root' ⟨t', hleaves⟩
    exact .ok ⟨t', .of_slot hleaves.expands hleaves.canonical, hreads.update hleaves.get⟩

end Holds

end Calls

/-! ## Runs -/

inductive SparseOp where
  | lookup (key : B256)
  | insert (key : B256) (value : Bytes)
  | remove (key : B256)

open SparseOp

namespace SparseOp

/-- The call on the map, with what a lookup answers. -/
def onMap (m : B256 → Option Bytes) : SparseOp → (B256 → Option Bytes) × List Lookup
  | .lookup key => (m, [.ofOption (m key)])
  | .insert key value => (update m key (some value), [])
  | .remove key => (update m key none, [])

/-- The calls on the map, in order. -/
def runMap (m : B256 → Option Bytes) : List SparseOp → (B256 → Option Bytes) × List Lookup
  | [] => (m, [])
  | op :: ops => ((runMap (op.onMap m).1 ops).1, (op.onMap m).2 ++ (runMap (op.onMap m).1 ops).2)

end SparseOp

namespace SparseTrie

variable [LinearOrder H]

/-- One call, with what a lookup answers. -/
def call (s : SparseTrie C) : SparseOp → Outcome (AnchorError H) (SparseTrie C × List Lookup)
  | .lookup key => do
    let (result, s) ← s.lookup key
    .ok (s, [result])
  | .insert key value => do
    let s ← s.insert key value
    .ok (s, [])
  | .remove key => do
    let s ← s.remove key
    .ok (s, [])

/-- The calls, in order, up to the first that fails. -/
def run (s : SparseTrie C) : List SparseOp → Outcome (AnchorError H) (SparseTrie C × List Lookup)
  | [] => .ok (s, [])
  | op :: ops => do
    let (s, results) ← s.call op
    let (s, results') ← s.run ops
    .ok (s, results ++ results')

variable {s : SparseTrie C} {m : B256 → Option Bytes}

/-- **One call.** -/
theorem call_refines (hC : C.Lawful) (h : Holds s m) (op : SparseOp) :
    (s.call op).Meets fun out => out.2 = (op.onMap m).2 ∧ Holds out.1 (op.onMap m).1 := by
  cases op with
  | lookup key =>
    refine (h.lookup hC key).bind ?_
    rintro ⟨result, s'⟩ ⟨hresult, hs'⟩
    exact .ok ⟨congrArg (fun r => [r]) hresult, hs'⟩
  | insert key value => exact (h.insert hC key value).bind fun s' hs' => .ok ⟨rfl, hs'⟩
  | remove key => exact (h.remove hC key).bind fun s' hs' => .ok ⟨rfl, hs'⟩

/-- **Every run.** None panics: the nodes of a store cannot send a walk round in a circle, whatever they are. -/
theorem run_holds (hC : C.Lawful) (h : Holds s m) (ops : List SparseOp) :
    (s.run ops).Meets fun out =>
      out.2 = (runMap m ops).2 ∧ Holds out.1 (runMap m ops).1 := by
  induction ops generalizing s m with
  | nil => exact .ok ⟨rfl, h⟩
  | cons op ops ih =>
    refine (call_refines hC h op).bind ?_
    rintro ⟨s', results⟩ ⟨hresults, hs'⟩
    refine (ih hs').bind ?_
    rintro ⟨s'', results'⟩ ⟨hresults', hs''⟩
    exact .ok ⟨congrArg₂ (· ++ ·) hresults hresults', hs''⟩

/-- **The sparse trie refines the map.** From the canonical root of a map, over any set of nodes, calls
that all succeed answer as the map does and end at the canonical root of the map that they left. -/
theorem run_refines (hC : C.Lawful) (store : NodeStore C) {es : List (B256 × Bytes)}
    {m : B256 → Option Bytes} (hes : IsMap es m) {ops : List SparseOp} {out : SparseTrie C × List Lookup}
    (hrun : (new (mapRoot C es) store).run ops = .ok out) :
    out.2 = (runMap m ops).2 ∧
      ∀ es', IsMap es' (runMap m ops).1 → out.1.rootHash = mapRoot C es' := by
  obtain ⟨hresults, hholds⟩ := (run_holds hC (Holds.new hC store hes) ops).2 out hrun
  exact ⟨hresults, fun es' hes' => hholds.rootHash_eq hes'⟩

end SparseTrie

/-! ## A run over part of a trie -/

/-- The key whose first byte is given, and the others zero. -/
def keyOf (b : UInt8) : B256 := ⟨b :: List.replicate 31 0, rfl⟩

/-- Two entries that part at the first nibble. -/
def twoEntries : List (B256 × Bytes) := [(keyOf 0, [1]), (keyOf 16, [2])]

/-- The nodes that show the second entry, and one node of no trie. -/
def oneSide : NodeStore plainCodec :=
  let entries := twoEntries.map fun e => (unpack e.1, e.2)
  let t := Trie.ofEntries 64 entries
  let leaf := Trie.leaf ((unpack (keyOf 16)).drop 1) [2]
  ((NodeStore.empty.insert (plainCodec.encode (plainCodec.node t))).insert
    (plainCodec.encode (plainCodec.node leaf))).insert [9, 9]

def oneSideOps : List SparseOp :=
  [.lookup (keyOf 16), .insert (keyOf 16) [3], .lookup (keyOf 17), .insert (keyOf 17) [4], .lookup (keyOf 16),
    .remove (keyOf 16)]

theorem SparseTrie.run_refines_oneSide :
    ∃ out, (new (mapRoot plainCodec twoEntries) oneSide).run oneSideOps = .ok out ∧
      out.2 = [.found [2], .absent, .found [3]] ∧
      ∀ es', IsMap es' (runMap (fun k => twoEntries.lookup k) oneSideOps).1 →
        out.1.rootHash = mapRoot plainCodec es' := by
  obtain ⟨out, hrun⟩ := Outcome.exists_of_isOk (show
    ((new (mapRoot plainCodec twoEntries) oneSide).run oneSideOps).isOk = true by decide +kernel)
  have h := run_refines plainCodec_lawful oneSide
    (isMap_lookup (show (twoEntries.map Prod.fst).Nodup by decide)) hrun
  exact ⟨out, hrun, h.1.trans (by decide +kernel), h.2⟩

end Kardamom.Anchor
