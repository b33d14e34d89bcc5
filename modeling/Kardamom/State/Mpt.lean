import Kardamom.Lib.PatriciaEntries
import Mathlib.Data.List.FinRange

/-!
# The Merkle-Patricia trie

The nodes of the state and storage tries, as `alloy_trie` has them, and the root of a trie. A parent refers
to a child by its hash, or by its encoding when that is shorter than a hash (`RlpNode`).

Keccak and the RLP and hex-prefix encodings are a parameter (`Codec`). What is assumed of them (`Lawful`)
is that keccak has no collisions and that the node of a trie reads back from its encoding. Digests are an
arbitrary type, since no function from all byte strings to 32 bytes is without collisions. The keys of a
trie are 32-byte words, with or without a hash behind them.
-/

namespace Kardamom.Mpt

open Patricia List Option Function List Trie

abbrev Bytes := List UInt8

abbrev Nibble := Fin 16

abbrev Nibbles := List Nibble

/-- An account address, 20 bytes. -/
abbrev Address := BitVec 160

/-- A 32-byte word. -/
structure B256 where
  bytes : Bytes
  length_eq : bytes.length = 32
  deriving DecidableEq

theorem low_lt (b : UInt8) : b.toNat % 16 < 16 := Nat.mod_lt _ (by decide)

/-- The two nibbles of a byte. -/
def nibblesOf (b : UInt8) : Nibbles :=
  [⟨b.toNat / 16, by have := b.toNat_lt; omega⟩, ⟨b.toNat % 16, low_lt b⟩]

/-- `Nibbles::unpack`. -/
def unpack (key : B256) : Nibbles := key.bytes.flatMap nibblesOf

@[simp] theorem length_unpack (key : B256) : (unpack key).length = 64 := by
  rw [unpack, length_flatMap]
  show (key.bytes.map fun _ => 2).sum = 64
  rw [map_const', sum_replicate_nat, key.length_eq]

theorem nibblesOf_injective {b b' : UInt8} (h : nibblesOf b = nibblesOf b') : b = b' := by
  simp only [nibblesOf, cons.injEq, Fin.mk.injEq] at h
  exact UInt8.toNat_inj.1 (by omega)

theorem flatMap_nibblesOf_injective {bs bs' : Bytes}
    (h : bs.flatMap nibblesOf = bs'.flatMap nibblesOf) : bs = bs' := by
  induction bs generalizing bs' with
  | nil =>
    cases bs' with
    | nil => rfl
    | cons b' bs' => cases h
  | cons b bs ih =>
    cases bs' with
    | nil => cases h
    | cons b' bs' =>
      obtain ⟨hb, hbs⟩ := append_inj h rfl
      rw [nibblesOf_injective hb, ih hbs]

theorem unpack_injective : Injective unpack := by
  intro k k' h
  obtain ⟨bs, hbs⟩ := k
  obtain ⟨bs', hbs'⟩ := k'
  obtain rfl : bs = bs' := flatMap_nibblesOf_injective h
  rfl

/-! ## Nodes -/

/-- How a parent refers to a child. -/
inductive RlpNode (H : Type) where
  | hash (h : H)
  /-- The encoding of the child, shorter than 32 bytes. -/
  | inline (bytes : Bytes)
  deriving DecidableEq

/-- Which of the sixteen children there are. -/
abbrev TrieMask := Nibble → Bool

inductive TrieNode (H : Type) where
  | emptyRoot
  | leaf (key : Nibbles) (value : Bytes)
  | extension (key : Nibbles) (child : RlpNode H)
  /-- The references to the children that there are, in the order of their nibbles. -/
  | branch (stack : List (RlpNode H)) (stateMask : TrieMask)

/-- Keccak, and the encoding of nodes. -/
structure Codec (H : Type) where
  keccak : Bytes → H
  /-- `B256::ZERO`. -/
  zero : H
  /-- The bytes of a reference by hash. -/
  wordRlp : H → Bytes
  encode : TrieNode H → Bytes
  decode : Bytes → Option (TrieNode H)

/-- The trie of a map from nibble paths to values. -/
abbrev MptTrie := Trie Nibble Bytes

namespace Codec

variable {H : Type} (C : Codec H)

/-- `RlpNode::from_rlp`. -/
def fromRlp (rlp : Bytes) : RlpNode H :=
  if rlp.length < 32 then .inline rlp else .hash (C.keccak rlp)

/-- `EMPTY_ROOT_HASH`. -/
def emptyRootHash : H := C.keccak (C.encode .emptyRoot)

/-- The top node of a trie. -/
def node : MptTrie → TrieNode H
  | .nil => .emptyRoot
  | .leaf key value => .leaf key value
  | .ext key child => .extension key (C.fromRlp (C.encode (node child)))
  | .branch children =>
    .branch ((finRange 16).filterMap fun i =>
        if (children i).isNil then none else some (C.fromRlp (C.encode (node (children i)))))
      fun i => !(children i).isNil

/-- The reference of a parent to a trie. -/
def ref (t : MptTrie) : RlpNode H := C.fromRlp (C.encode (C.node t))

/-- The root hash of a trie. -/
def root (t : MptTrie) : H := C.keccak (C.encode (C.node t))

/-- The canonical root of a list of entries, from its definition. -/
def rootOf (entries : List (Nibbles × Bytes)) : H := C.root (ofEntries 64 entries)

/-- The reference to a child, if there is one. -/
def childRef (t : MptTrie) : Option (RlpNode H) := if t.isNil then none else some (C.ref t)

theorem root_nil : C.root .nil = C.emptyRootHash := rfl

theorem node_branch (children : Nibble → MptTrie) :
    C.node (.branch children) = .branch ((finRange 16).filterMap fun i => C.childRef (children i))
        fun i => (C.childRef (children i)).isSome := by
  have hmask : ∀ t : MptTrie, (C.childRef t).isSome = !t.isNil := fun t => by
    unfold childRef
    cases t.isNil <;> rfl
  simp only [hmask]
  rfl

/-- What is assumed of keccak and of the encodings. -/
structure Lawful : Prop where
  keccak_injective : Injective C.keccak
  decode_node : ∀ t : MptTrie, C.decode (C.encode (C.node t)) = some (C.node t)

end Codec

/-- Two partial views of a list that pick at the same places and pick the same values. -/
theorem eq_of_filterMap_eq {α β : Type*} {f g : α → Option β} {l : List α}
    (hsome : ∀ a ∈ l, (f a).isSome = (g a).isSome) (h : l.filterMap f = l.filterMap g) :
    ∀ a ∈ l, f a = g a := by
  induction l with
  | nil => simp
  | cons a l ih =>
    have ha := hsome a mem_cons_self
    have hl : ∀ b ∈ l, (f b).isSome = (g b).isSome := fun b hb => hsome b (mem_cons_of_mem _ hb)
    intro b hb
    cases hf : f a with
    | none =>
      rw [hf, isSome_none, eq_comm, isSome_eq_false_iff, isNone_iff_eq_none] at ha
      rw [filterMap_cons_none hf, filterMap_cons_none ha] at h
      rcases mem_cons.1 hb with rfl | hb
      · rw [hf, ha]
      · exact ih hl h b hb
    | some x =>
      rw [hf, isSome_some, eq_comm, isSome_iff_exists] at ha
      obtain ⟨y, hg⟩ := ha
      rw [filterMap_cons_some hf, filterMap_cons_some hg] at h
      obtain ⟨rfl, htail⟩ := cons.inj h
      rcases mem_cons.1 hb with rfl | hb
      · rw [hf, hg]
      · exact ih hl htail b hb

namespace Codec.Lawful

variable {H : Type} {C : Codec H} (hC : C.Lawful)

include hC

theorem fromRlp_injective : Injective C.fromRlp := by
  intro b b' h
  unfold fromRlp at h
  split at h <;> split at h
  · cases h
    rfl
  · cases h
  · cases h
  · exact hC.keccak_injective (RlpNode.hash.inj h)

theorem encode_node_injective {t t' : MptTrie} (h : C.encode (C.node t) = C.encode (C.node t')) :
    C.node t = C.node t' := by
  have hd := hC.decode_node t
  rw [h, hC.decode_node t'] at hd
  exact (some.inj hd).symm

/-- **The top node determines the trie**, through the references. -/
theorem node_injective {t t' : MptTrie} (h : C.node t = C.node t') : t = t' := by
  induction t generalizing t' with
  | nil =>
    cases t' with
    | nil => rfl
    | leaf | ext | branch => cases h
  | leaf key value =>
    cases t' with
    | leaf key' value' =>
      cases h
      rfl
    | nil | ext | branch => cases h
  | ext key child ih =>
    cases t' with
    | ext key' child' =>
      obtain ⟨rfl, href⟩ := TrieNode.extension.inj h
      rw [ih (hC.encode_node_injective (hC.fromRlp_injective href))]
    | nil | leaf | branch => cases h
  | branch children ih =>
    cases t' with
    | branch children' =>
      rw [node_branch, node_branch] at h
      obtain ⟨hstack, hmask⟩ := TrieNode.branch.inj h
      have hrefs := eq_of_filterMap_eq (fun i _ => congrFun hmask i) hstack
      have hsame : children = children' := by
        funext i
        have hi := hrefs i (mem_finRange i)
        unfold childRef at hi
        split at hi
        case isTrue hnil =>
          split at hi
          case isTrue hnil' => rw [isNil_iff.1 hnil, isNil_iff.1 hnil']
          case isFalse => cases hi
        case isFalse hne =>
          split at hi
          case isTrue => cases hi
          case isFalse =>
            exact ih i (hC.encode_node_injective (hC.fromRlp_injective (some.inj hi)))
      rw [hsame]
    | nil | leaf | ext => cases h

/-- **The root determines the trie.** -/
theorem root_injective : Injective C.root := fun _ _ h =>
  hC.node_injective (hC.encode_node_injective (hC.keccak_injective h))

theorem root_eq_empty_iff {t : MptTrie} : C.root t = C.emptyRootHash ↔ t = .nil :=
  ⟨fun h => hC.root_injective (h.trans C.root_nil.symm), fun h => h ▸ rfl⟩

end Codec.Lawful

end Kardamom.Mpt
