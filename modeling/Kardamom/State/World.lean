import Kardamom.Lib.ByteCodec
import Kardamom.Lib.SortedMap
import Kardamom.State.PlainCodec
import Kardamom.State.TrieMap

/-!
# The world state and its root

The flat tables of accounts, storage and code, and the canonical Ethereum state root over them, which is
the rebuild from scratch: an account that is empty in the sense of EIP-161 has no leaf, and neither has a
slot that is zero.

The state database spells "no code" and "no storage trie" as the zero word, the trie as the hash of no
bytes and as the root of the empty trie.
-/

namespace Kardamom.State

open Mpt LinkedMap List Function List Plain
open Option (map_some some)

abbrev U256 := BitVec 256

structure AccountFields (H : Type) where
  nonce : UInt64
  balance : U256
  codeHash : H
  deriving DecidableEq

/-- The value of a leaf of the account trie. -/
structure TrieAccount (H : Type) where
  nonce : UInt64
  balance : U256
  storageRoot : H
  codeHash : H
  deriving DecidableEq

/-- The codec of the tries, with the hashed keys and the encodings of the leaf values. -/
structure StateCodec (H : Type) extends Codec H where
  /-- `keccak256(address)`. -/
  addressKey : Address → B256
  /-- `keccak256(slot)`. -/
  slotKey : B256 → B256
  uintRlp : U256 → Bytes
  uintDecode : Bytes → Option U256
  accountRlp : TrieAccount H → Bytes
  accountDecode : Bytes → Option (TrieAccount H)

namespace StateCodec

variable {H : Type} (C : StateCodec H)

structure Lawful : Prop extends C.toCodec.Lawful where
  /-- The zero word is nobody's hash. -/
  keccak_ne_zero : ∀ bytes, C.keccak bytes ≠ C.zero
  addressKey_injective : Injective C.addressKey
  slotKey_injective : Injective C.slotKey
  uintDecode_uintRlp : ∀ v, C.uintDecode (C.uintRlp v) = some v
  accountDecode_accountRlp : ∀ a, C.accountDecode (C.accountRlp a) = some a

/-- `KECCAK_EMPTY`. -/
def keccakEmpty : H := C.keccak []

variable {C}

theorem Lawful.keccakEmpty_ne_zero (hC : C.Lawful) : C.keccakEmpty ≠ C.zero := hC.keccak_ne_zero []

theorem Lawful.root_ne_zero (hC : C.Lawful) (t : MptTrie) : C.root t ≠ C.zero := hC.keccak_ne_zero _

variable [DecidableEq H] (C)

def toRevmCodeHash (h : H) : H := if h = C.zero then C.keccakEmpty else h

/-- The emptiness of EIP-161: no nonce, no balance, no code. -/
def isEmptyAccount (nonce : UInt64) (balance : U256) (codeHash : H) : Bool :=
  nonce == 0 && balance == 0 && decide (C.toRevmCodeHash codeHash = C.keccakEmpty)

/-- What an account counts as: an empty one counts as absent, and "no code" has one spelling. -/
def normal (account : Option (AccountFields H)) : Option (AccountFields H) :=
  account.bind fun fields =>
    if C.isEmptyAccount fields.nonce fields.balance fields.codeHash then none
    else some { fields with codeHash := C.toRevmCodeHash fields.codeHash }

variable {C}

theorem Lawful.toRevmCodeHash_idem (hC : C.Lawful) (h : H) :
    C.toRevmCodeHash (C.toRevmCodeHash h) = C.toRevmCodeHash h := by
  unfold toRevmCodeHash
  by_cases hz : h = C.zero
  · rw [if_pos hz, if_neg hC.keccakEmpty_ne_zero]
  · rw [if_neg hz, if_neg hz]

theorem Lawful.isEmptyAccount_toRevm (hC : C.Lawful) (nonce : UInt64) (balance : U256) (h : H) :
    C.isEmptyAccount nonce balance (C.toRevmCodeHash h) = C.isEmptyAccount nonce balance h := by
  rw [isEmptyAccount, hC.toRevmCodeHash_idem, isEmptyAccount]

theorem normal_some (fields : AccountFields H) :
    C.normal (some fields) = if C.isEmptyAccount fields.nonce fields.balance fields.codeHash then none
      else some { fields with codeHash := C.toRevmCodeHash fields.codeHash } := rfl

theorem Lawful.normal_idem (hC : C.Lawful) (account : Option (AccountFields H)) :
    C.normal (C.normal account) = C.normal account := by
  cases account with
  | none => rfl
  | some fields =>
    rw [normal_some]
    split
    case isTrue => rfl
    case isFalse hempty =>
      rw [normal_some, hC.isEmptyAccount_toRevm, if_neg hempty, hC.toRevmCodeHash_idem]

end StateCodec

/-! ## A codec that runs -/

open ByteCodec

/-- The key of an address, which is the address itself behind twelve zeros. -/
def plainAddressKey (address : Address) : B256 where
  bytes := replicate 12 0 ++ beBytes 20 address.toNat
  length_eq := by simp

def plainAccountRlp (a : TrieAccount Digest) : Bytes :=
  beBytes 8 a.nonce.toNat ++ (beBytes 32 a.balance.toNat ++ (field a.storageRoot.bytes ++ a.codeHash.bytes))

def plainAccountDecode (bytes : Bytes) : Option (TrieAccount Digest) :=
  (readField ((bytes.drop 8).drop 32)).map fun p =>
    ⟨UInt64.ofNat (beValue (bytes.take 8)), BitVec.ofNat 256 (beValue ((bytes.drop 8).take 32)), p.1, p.2⟩

/-- The plain codec, with plain keys and leaf values. -/
def plainStateCodec : StateCodec Digest where
  toCodec := plainCodec
  addressKey := plainAddressKey
  slotKey := id
  uintRlp v := beBytes 32 v.toNat
  uintDecode bytes := some (BitVec.ofNat 256 (beValue bytes))
  accountRlp := plainAccountRlp
  accountDecode := plainAccountDecode

theorem ofNat_beValue_beBytes (v : U256) : BitVec.ofNat 256 (beValue (beBytes 32 v.toNat)) = v := by
  have hlt : v.toNat < 256 ^ 32 := v.isLt
  rw [beValue_beBytes hlt, BitVec.ofNat_toNat, BitVec.setWidth_eq]

theorem plainAccountDecode_plainAccountRlp (a : TrieAccount Digest) :
    plainAccountDecode (plainAccountRlp a) = some a := by
  have hnonce : a.nonce.toNat < 256 ^ 8 := a.nonce.toNat_lt
  unfold plainAccountDecode plainAccountRlp
  rw [drop_left' (length_beBytes ..), drop_left' (length_beBytes ..),
    take_left' (length_beBytes ..), take_left' (length_beBytes ..), readField_field,
    beValue_beBytes hnonce, ofNat_beValue_beBytes, UInt64.ofNat_toNat]
  rfl

theorem plainStateCodec_lawful : plainStateCodec.Lawful where
  toLawful := plainCodec_lawful
  keccak_ne_zero bytes h := by
    have h10 : (1 : UInt8) = 0 := (cons.inj h).1
    exact absurd h10 (by decide)
  addressKey_injective a a' h := by
    have hbytes := (append_inj (congrArg B256.bytes h) rfl).2
    have hvalue := congrArg beValue hbytes
    have hlt : ∀ x : Address, x.toNat < 256 ^ 20 := fun x => x.isLt
    rw [beValue_beBytes (hlt a), beValue_beBytes (hlt a')] at hvalue
    exact BitVec.eq_of_toNat_eq hvalue
  slotKey_injective _ _ h := h
  uintDecode_uintRlp v := congrArg some (ofNat_beValue_beBytes v)
  accountDecode_accountRlp := plainAccountDecode_plainAccountRlp

/-! ## Roots from scratch -/

/-- The basic fields of an account and the root of its storage. -/
structure AccountTrieParts (H : Type) where
  nonce : UInt64
  balance : U256
  codeHash : H
  storageRoot : H
  deriving DecidableEq

namespace AccountTrieParts

variable {H : Type} [DecidableEq H] (C : StateCodec H) (p : AccountTrieParts H)

def canonicalCodeHash : H := C.toRevmCodeHash p.codeHash

def canonicalStorageRoot : H := if p.storageRoot = C.zero then C.emptyRootHash else p.storageRoot

def isEmpty : Bool := C.isEmptyAccount p.nonce p.balance p.codeHash

def toTrieAccount : TrieAccount H where
  nonce := p.nonce
  balance := p.balance
  storageRoot := p.canonicalStorageRoot C
  codeHash := p.canonicalCodeHash C

end AccountTrieParts

section Roots

variable {H : Type} [DecidableEq H] (C : StateCodec H)

/-- The root of the storage of one account. A zero slot has no leaf. -/
def storageRoot (slots : List (B256 × U256)) : H :=
  mapRoot C.toCodec ((slots.filter fun s => s.2 ≠ 0).map fun s => (C.slotKey s.1, C.uintRlp s.2))

section

variable (accounts : List (Address × AccountTrieParts H))

/-- The root over all accounts. An empty account has no leaf. -/
def stateRoot : H := mapRoot C.toCodec ((accounts.filter fun a => !a.2.isEmpty C).map fun a =>
    (C.addressKey a.1, C.accountRlp (a.2.toTrieAccount C)))

/-- The leaves behind the storage root. -/
def storageLeaves (slots : List (B256 × U256)) : List (B256 × Bytes) :=
  (slots.filter fun s => s.2 ≠ 0).map fun s => (C.slotKey s.1, C.uintRlp s.2)

/-- The leaves behind the state root. -/
def stateLeaves : List (B256 × Bytes) :=
  (accounts.filter fun a => !a.2.isEmpty C).map fun a => (C.addressKey a.1, C.accountRlp (a.2.toTrieAccount C))

end

end Roots

/-! ## The world -/

/-- The entries of one account in a table of slots. -/
def slotsIn (entries : List ((Address × B256) × U256)) (address : Address) : List (B256 × U256) :=
  entries.filterMap fun e => if e.1.1 = address then some (e.1.2, e.2) else none

/-- The flat tables. -/
structure World (H : Type) where
  accounts : LinkedMap Address (AccountFields H)
  storage : LinkedMap (Address × B256) U256
  code : LinkedMap H Bytes

open World

namespace World

section

variable {H : Type} (w : World H)

/-- The slots of one account, as they stand in the table. -/
def slotsOf (address : Address) : List (B256 × U256) := slotsIn w.storage.entries address

/-- The value of a slot. -/
def slot (address : Address) (key : B256) : U256 := (w.storage.get? (address, key)).getD 0

end

variable {H : Type} [DecidableEq H] (C : StateCodec H) (w : World H)

section

variable (address : Address)

def parts (fields : AccountFields H) : AccountTrieParts H where
  nonce := fields.nonce
  balance := fields.balance
  codeHash := fields.codeHash
  storageRoot := storageRoot C (w.slotsOf address)

/-- The canonical root of the tables. -/
def root : H := stateRoot C (w.accounts.entries.map fun e => (e.1, w.parts C e.1 e.2))

/-- The leaves of the account trie. -/
def leaves : List (B256 × Bytes) := stateLeaves C (w.accounts.entries.map fun e => (e.1, w.parts C e.1 e.2))

/-- The leaf of an account: none for one that is absent or empty. -/
def leaf : Option (TrieAccount H) :=
  (w.accounts.get? address).bind fun fields =>
    if (w.parts C address fields).isEmpty C then none else some ((w.parts C address fields).toTrieAccount C)

/-- The value that a slot counts as: an account without a leaf has no slots. -/
def heldSlot (key : B256) : U256 :=
  if (C.normal (w.accounts.get? address)).isSome then w.slot address key else 0

end

variable {C w}

theorem heldSlot_of_empty {address : Address} (h : C.normal (w.accounts.get? address) = none) :
    w.heldSlot C address = fun _ => 0 :=
  funext fun _ => if_neg (by simp [h])

theorem heldSlot_of_normal {address : Address} {fields : AccountFields H}
    (h : C.normal (w.accounts.get? address) = some fields) : w.heldSlot C address = w.slot address :=
  funext fun _ => if_pos (by simp [h])

end World

/-! ## Deltas -/

/-- The writes of a block so far. The maps of the source are unordered: the order of the entries is any. -/
structure PendingDelta (H : Type) where
  accounts : LinkedMap Address (AccountFields H)
  storage : LinkedMap (Address × B256) U256
  code : LinkedMap H Bytes

/-- The tables with a delta written over them. -/
def World.apply {H : Type} [DecidableEq H] (w : World H) (delta : PendingDelta H) : World H where
  accounts := w.accounts.putAll delta.accounts.entries
  storage := w.storage.putAll delta.storage.entries
  code := w.code.putAll delta.code.entries

section Apply

variable {H : Type} [DecidableEq H] (w : World H) (delta : PendingDelta H)

theorem World.account_apply (address : Address) :
    (w.apply delta).accounts.get? address = (delta.accounts.get? address).or (w.accounts.get? address) :=
  get?_putAll_entries ..

theorem World.slot_apply (address : Address) (key : B256) :
    (w.apply delta).slot address key = (delta.storage.get? (address, key)).getD (w.slot address key) := by
  unfold slot
  rw [show (w.apply delta).storage.get? (address, key) = _ from get?_putAll_entries ..]
  cases delta.storage.get? (address, key) with
  | none | some => rfl

end Apply

/-! ## Writes of slots -/

section

variable (slots : B256 → U256) (writes : List (B256 × U256))

/-- Slots with writes over them, one after the other. -/
def writesOver : B256 → U256 := writes.foldl (fun slots e => update slots e.1 e.2) slots

theorem writesOver_apply (key : B256) :
    writesOver slots writes key = (lastOf writes key).getD (slots key) := by
  induction writes using reverseRecOn with
  | nil => rfl
  | append_singleton writes e ih =>
    rw [writesOver, lastOf, foldl_append, foldl_append, foldl_cons,
      foldl_cons, foldl_nil, foldl_nil]
    by_cases hk : e.1 = key
    · subst hk
      rw [if_pos rfl, update_self]
      rfl
    · rw [if_neg hk, update_of_ne (Ne.symm hk)]
      exact ih

end

/-- Writes gathered by account, each account's in their order. -/
theorem get?_foldl_group (es : List ((Address × B256) × U256)) (address : Address) :
    (es.foldl (fun (writes : SortedMap Address (List (B256 × U256))) e =>
        writes.upsert e.1.1 fun before => before.getD [] ++ [(e.1.2, e.2)]) .empty).get? address =
      if slotsIn es address = [] then none else some (slotsIn es address) := by
  induction es using reverseRecOn with
  | nil => rfl
  | append_singleton es e ih =>
    rw [foldl_append, foldl_cons, foldl_nil]
    have hsplit : slotsIn (es ++ [e]) address =
        slotsIn es address ++ if e.1.1 = address then [(e.1.2, e.2)] else [] := by
      unfold slotsIn
      rw [filterMap_append]
      refine congrArg _ ?_
      by_cases ha : e.1.1 = address <;> simp [ha]
    by_cases ha : e.1.1 = address
    · subst ha
      have hne : slotsIn es e.1.1 ++ [(e.1.2, e.2)] ≠ [] := append_ne_nil_of_right_ne_nil _ (by simp)
      rw [SortedMap.get?_upsert_self, ih, hsplit, if_pos rfl, if_neg hne]
      by_cases hnil : slotsIn es e.1.1 = []
      · rw [if_pos hnil, hnil]
        rfl
      · rw [if_neg hnil]
        rfl
    · rw [SortedMap.get?_upsert_of_ne _ (Ne.symm ha), ih, hsplit, if_neg ha, append_nil]

/-- The value of a leaf of a storage trie. -/
def slotLeaf {H : Type} (C : StateCodec H) (v : U256) : Option Bytes := if v = 0 then none else some (C.uintRlp v)

/-! ## What the roots commit to -/

section Commit

variable {H : Type} {C : StateCodec H}

theorem slotLeaf_injective (hC : C.Lawful) : Injective (slotLeaf C) := by
  intro v v' h
  unfold slotLeaf at h
  split at h <;> split at h
  · rename_i hv hv'
    rw [hv, hv']
  · cases h
  · cases h
  · have hd := hC.uintDecode_uintRlp v
    rw [some.inj h, hC.uintDecode_uintRlp v'] at hd
    exact (some.inj hd).symm

theorem accountRlp_injective (hC : C.Lawful) : Injective C.accountRlp := by
  intro a a' h
  have hd := hC.accountDecode_accountRlp a
  rw [h, hC.accountDecode_accountRlp a'] at hd
  exact (some.inj hd).symm

theorem isMap_slotsIn (storage : LinkedMap (Address × B256) U256) (address : Address) :
    IsMap (slotsIn storage.entries address) fun key => storage.get? (address, key) := by
  constructor
  · -- two entries of one account with one key are one entry of the table
    refine pairwise_map.2 (pairwise_filterMap.2 ?_)
    refine (pairwise_map.1 storage.nodup).imp fun {e e'} hne s hs s' hs' heq => ?_
    split at hs <;> split at hs' <;> cases hs <;> cases hs'
    rename_i he he'
    exact hne (Prod.ext (he.trans he'.symm) heq)
  · intro key v
    rw [slotsIn, mem_filterMap, get?_eq_some_iff]
    constructor
    · rintro ⟨e, he, heq⟩
      split at heq
      · cases heq
        rename_i ha
        rwa [← ha]
      · cases heq
    · intro he
      exact ⟨_, he, if_pos rfl⟩

theorem map_filter_eq_filterMap {α β : Type} {p : α → Bool} {g : α → β} {v : α → Option β} (l : List α)
    (h : ∀ a, v a = if p a then some (g a) else none) : (l.filter p).map g = l.filterMap v := by
  rw [← filterMap_eq_map, ← filterMap_eq_filter, filterMap_filterMap]
  refine filterMap_congr fun a _ => ?_
  rw [h]
  cases hp : p a <;> simp [hp]

theorem storageLeaves_eq (slots : List (B256 × U256)) :
    storageLeaves C slots = (slots.filterMap fun e =>
      (slotLeaf C e.2).map fun v => (e.1, v)).map fun e => (C.slotKey e.1, e.2) := by
  rw [map_filterMap]
  refine map_filter_eq_filterMap slots fun e => ?_
  unfold slotLeaf
  by_cases hz : e.2 = 0
  · rw [if_pos hz, if_neg (by simpa using hz)]
    rfl
  · rw [if_neg hz, if_pos (by simpa using hz)]
    rfl

section

variable (hC : C.Lawful) (w : World H) (address : Address)
include hC

theorem World.isMap_storageLeaves :
    IsMap (storageLeaves C (w.slotsOf address)) (keyed C.slotKey fun key => slotLeaf C (w.slot address key)) := by
  rw [storageLeaves_eq]
  refine IsMap.keyed hC.slotKey_injective ?_
  have h := (isMap_slotsIn w.storage address).filterMap fun _ v => slotLeaf C v
  have heq : (fun key => (w.storage.get? (address, key)).bind (slotLeaf C)) =
      fun key => slotLeaf C (w.slot address key) := by
    funext key
    unfold slot
    cases w.storage.get? (address, key) with
    | none => exact (if_pos rfl).symm
    | some v => rfl
  rwa [heq] at h

/-- The storage root of an account commits to its non-zero slots. -/
theorem World.secureRoot_storage :
    SecureRoot C.toCodec C.slotKey (fun key => slotLeaf C (w.slot address key))
      (storageRoot C (w.slotsOf address)) :=
  ⟨_, (w.isMap_storageLeaves hC address).ofEntries.1, (w.isMap_storageLeaves hC address).ofEntries.2, rfl⟩

end

variable [DecidableEq H]

section

variable (hC : C.Lawful) (w : World H)
include hC

/-- The leaf of an account, by what the account counts as. -/
theorem World.leaf_eq (address : Address) :
    w.leaf C address = (C.normal (w.accounts.get? address)).map fun fields =>
      ⟨fields.nonce, fields.balance, storageRoot C (w.slotsOf address), fields.codeHash⟩ := by
  unfold leaf
  cases w.accounts.get? address with
  | none => rfl
  | some fields =>
    have hroot : (w.parts C address fields).canonicalStorageRoot C = storageRoot C (w.slotsOf address) :=
      if_neg (hC.root_ne_zero _)
    rw [StateCodec.normal_some]
    show (if C.isEmptyAccount fields.nonce fields.balance fields.codeHash = true then none else _) = _
    split
    · rfl
    · rw [map_some, AccountTrieParts.toTrieAccount, hroot]
      rfl

theorem World.leaf_eq_none_iff (address : Address) :
    w.leaf C address = none ↔ C.normal (w.accounts.get? address) = none := by
  rw [w.leaf_eq hC, Option.map_eq_none_iff]

theorem World.isMap_leaves :
    IsMap (w.leaves C) (keyed C.addressKey fun address => (w.leaf C address).map C.accountRlp) := by
  have hmap : IsMap w.accounts.entries w.accounts.get? :=
    ⟨w.accounts.nodup, fun k v => get?_eq_some_iff.symm⟩
  let view : Address → AccountFields H → Option Bytes := fun address fields =>
    if (w.parts C address fields).isEmpty C then none
    else some (C.accountRlp ((w.parts C address fields).toTrieAccount C))
  have hleaf : (fun address => (w.leaf C address).map C.accountRlp) =
      fun address => (w.accounts.get? address).bind (view address) := by
    funext address
    unfold leaf
    cases w.accounts.get? address with
    | none => rfl
    | some fields =>
      show Option.map C.accountRlp (if _ then none else some _) = if _ then none else some _
      split <;> rfl
  have hleaves : w.leaves C = (w.accounts.entries.filterMap fun e =>
      (view e.1 e.2).map fun v => (e.1, v)).map fun e => (C.addressKey e.1, e.2) := by
    unfold leaves stateLeaves
    rw [map_filterMap, filter_map, map_map]
    refine map_filter_eq_filterMap w.accounts.entries fun e => ?_
    by_cases hempty : (w.parts C e.1 e.2).isEmpty C = true
    · rw [if_neg (by simpa using hempty)]
      simp only [view, if_pos hempty, Option.map_none]
    · rw [if_pos (by simpa using hempty)]
      simp only [view, if_neg hempty, map_some, comp_apply]
  rw [hleaf, hleaves]
  exact (hmap.filterMap view).keyed hC.addressKey_injective

/-- **The root of the tables commits to the leaves of the accounts.** -/
theorem World.secureRoot_root :
    SecureRoot C.toCodec C.addressKey (fun address => (w.leaf C address).map C.accountRlp) (w.root C) :=
  ⟨_, (w.isMap_leaves hC).ofEntries.1, (w.isMap_leaves hC).ofEntries.2, rfl⟩

end

/-- The root depends on what the accounts count as, and on the slots of those that are not empty. -/
theorem World.root_congr (hC : C.Lawful) {w w' : World H}
    (haccounts : ∀ a, C.normal (w.accounts.get? a) = C.normal (w'.accounts.get? a))
    (hslots : ∀ a, C.normal (w.accounts.get? a) ≠ none → ∀ key, w.slot a key = w'.slot a key) :
    w.root C = w'.root C := by
  refine ((w.secureRoot_root hC).eq_iff hC.toLawful hC.addressKey_injective (w'.secureRoot_root hC)).2
    (funext fun a => congrArg (Option.map C.accountRlp) ?_)
  rw [w.leaf_eq hC, w'.leaf_eq hC, ← haccounts]
  cases hnormal : C.normal (w.accounts.get? a) with
  | none => rfl
  | some fields =>
    have hroot : storageRoot C (w.slotsOf a) = storageRoot C (w'.slotsOf a) :=
      ((w.secureRoot_storage hC a).eq_iff hC.toLawful hC.slotKey_injective (w'.secureRoot_storage hC a)).2
        (funext fun key => congrArg (slotLeaf C) (hslots a (by rw [hnormal]; exact Option.some_ne_none _) key))
    rw [map_some, map_some, hroot]

/-- **The state root binds the state.** Two tables have one root exactly when their accounts count as the same, and
hold the same slots. -/
theorem World.root_eq_iff (hC : C.Lawful) (w w' : World H) :
    w.root C = w'.root C ↔ ∀ a, C.normal (w.accounts.get? a) = C.normal (w'.accounts.get? a) ∧
      w.heldSlot C a = w'.heldSlot C a := by
  constructor
  · intro hroot a
    have hleaves := ((w.secureRoot_root hC).eq_iff hC.toLawful hC.addressKey_injective (w'.secureRoot_root hC)).1 hroot
    have hleaf : w.leaf C a = w'.leaf C a :=
      Option.map_injective (accountRlp_injective hC) (congrFun hleaves a)
    rw [w.leaf_eq hC, w'.leaf_eq hC] at hleaf
    cases hnormal : C.normal (w.accounts.get? a) with
    | none =>
      rw [hnormal, Option.map_none, eq_comm, Option.map_eq_none_iff] at hleaf
      rw [hleaf, heldSlot_of_empty hnormal, heldSlot_of_empty hleaf]
      exact ⟨rfl, rfl⟩
    | some fields =>
      rw [hnormal, map_some, eq_comm, Option.map_eq_some_iff] at hleaf
      obtain ⟨⟨nonce, balance, codeHash⟩, hnormal', heq⟩ := hleaf
      obtain ⟨rfl, rfl, hstorage, rfl⟩ := TrieAccount.mk.inj heq
      have hslots := ((w.secureRoot_storage hC a).eq_iff hC.toLawful hC.slotKey_injective
        (w'.secureRoot_storage hC a)).1 hstorage.symm
      rw [hnormal', heldSlot_of_normal hnormal, heldSlot_of_normal hnormal']
      exact ⟨rfl, funext fun key => slotLeaf_injective hC (congrFun hslots key)⟩
  · intro h
    refine root_congr hC (fun a => (h a).1) fun a ha key => ?_
    obtain ⟨fields, hfields⟩ := Option.ne_none_iff_exists'.1 ha
    rw [← heldSlot_of_normal hfields, ← heldSlot_of_normal ((h a).1 ▸ hfields), (h a).2]

/-- A balance changes the root. -/
theorem World.root_ne_of_balance : (⟨.empty, .empty, .empty⟩ : World Digest).root plainStateCodec ≠
    World.root plainStateCodec ⟨LinkedMap.empty.put 1 ⟨0, 1, plainStateCodec.zero⟩, .empty, .empty⟩ :=
  fun hroot => absurd ((root_eq_iff plainStateCodec_lawful _ _).1 hroot 1).1 (by decide +kernel)

end Commit

end Kardamom.State
