import Kardamom.Anchor.SparseRuns
import Kardamom.Anchor.Witness

/-!
# The check of a witness is sound

A witness that passes the check under the root of a world says of each account and of each slot what the
world holds. The witness and the nodes may be anything: a walk that succeeds in the sparse trie answers as
the map behind the root, and the root has one map behind it.
-/

namespace Kardamom.Anchor

open Mpt State Outcome WitnessAnchor Function SortedMap StateCodec SparseTrie List Option

variable {H : Type} [LinearOrder H] {C : StateCodec H}

/-! ## The maps behind the tries -/

/-- The account trie of a world. -/
def accountMap (C : StateCodec H) (w : World H) (address : Address) : Option Bytes :=
  (w.leaf C address).map C.accountRlp

/-- The storage trie of an account. -/
def slotMap (C : StateCodec H) (slots : B256 → U256) (key : B256) : Option Bytes := slotLeaf C (slots key)

omit [LinearOrder H] in
theorem slotMap_injective (hC : C.Lawful) : Injective (slotMap C) := by
  intro f g h
  funext key
  exact slotLeaf_injective hC (congrFun h key)

omit [LinearOrder H] in
theorem slotMap_update (slots : B256 → U256) (key : B256) (value : U256) :
    slotMap C (update slots key value) = update (slotMap C slots) key (slotLeaf C value) := by
  funext k
  unfold slotMap
  by_cases hk : k = key
  · subst hk
    rw [update_self, update_self]
  · rw [update_of_ne hk, update_of_ne hk]

/-- The storage root that a leaf carries commits to the slots that the account holds. -/
theorem secureRoot_storageRootOf (hC : C.Lawful) (w : World H) (address : Address) :
    SecureRoot C.toCodec C.slotKey (slotMap C (w.heldSlot C address))
      (storageRootOf C (w.leaf C address)) := by
  rw [w.leaf_eq hC]
  unfold World.heldSlot
  cases C.normal (w.accounts.get? address) with
  | none => exact SecureRoot.empty hC.slotKey_injective
  | some fields => exact w.secureRoot_storage hC address

/-! ## Accounts -/

/-- An account of the witness, as a row of the account table. -/
def WitnessAccount.row (acct : WitnessAccount H) : Option (AccountFields H) :=
  if acct.present then some ⟨acct.nonce, acct.balance, acct.codeHash⟩ else none

section

variable (C : StateCodec H) (w : World H)

/-- The witness says of the account what the world holds. -/
def WitnessAccount.Holds (acct : WitnessAccount H) : Prop :=
  C.normal acct.row = C.normal (w.accounts.get? acct.address)

/-- The proven accounts have the leaves of the world. -/
def Proven (proven : SortedMap Address (Option (TrieAccount H))) : Prop :=
  ∀ address pre, proven.get? address = some pre → pre = w.leaf C address

end

variable {proven : SortedMap Address (Option (TrieAccount H))}

theorem Proven.upsert {w : World H} (h : Proven C w proven) (address : Address) :
    Proven C w (proven.upsert address fun _ => w.leaf C address) := by
  intro a pre ha
  by_cases heq : a = address
  · subst heq
    rw [get?_upsert_self] at ha
    exact (some.inj ha).symm
  · rw [get?_upsert_of_ne _ heq] at ha
    exact h a pre ha

namespace WitnessAnchor

variable {w : World H} {acct : WitnessAccount H}

section

variable (hC : C.Lawful)
include hC

theorem proveIncludedAccount_spec {leaf ta : TrieAccount H} (hleaf : w.leaf C acct.address = some leaf)
    (h : proveIncludedAccount C acct (C.accountRlp leaf) = .ok ta) : ta = leaf ∧ acct.Holds C w := by
  obtain ⟨ta', hdecode, h⟩ := bind_eq_ok.1 h
  rw [hC.accountDecode_accountRlp] at hdecode
  obtain rfl : leaf = ta' := by
    cases hdecode
    rfl
  split at h
  · cases h
  rename_i hpresent
  split at h
  · cases h
  rename_i hfields
  cases h
  refine ⟨rfl, ?_⟩
  -- the leaf is the account of the world in its normal form
  rw [w.leaf_eq hC] at hleaf
  obtain ⟨fields, hnormal, rfl⟩ := map_eq_some_iff.1 hleaf
  simp only [not_or, not_not] at hfields
  obtain ⟨hnonce, hbalance, hcode⟩ := hfields
  have hrow : acct.row = some ⟨acct.nonce, acct.balance, acct.codeHash⟩ :=
    if_pos (by simpa using hpresent)
  have hidem := hC.normal_idem (w.accounts.get? acct.address)
  rw [hnormal, normal_some] at hidem
  unfold WitnessAccount.Holds
  rw [hnormal, hrow, normal_some]
  rw [← hC.isEmptyAccount_toRevm, ← hnonce, ← hbalance, ← hcode]
  split at hidem
  · cases hidem
  · rename_i hempty
    rw [if_neg hempty]

theorem proveExcludedAccount_spec
    (hleaf : w.leaf C acct.address = none) (h : proveExcludedAccount C acct = .ok ()) : acct.Holds C w := by
  unfold proveExcludedAccount at h
  split at h
  · cases h
  rename_i hnot
  have hnormal := (w.leaf_eq_none_iff hC acct.address).1 hleaf
  unfold WitnessAccount.Holds WitnessAccount.row
  rw [hnormal]
  by_cases hpresent : acct.present = true
  · have hempty : C.isEmptyAccount acct.nonce acct.balance acct.codeHash = true := by
      simpa [hpresent] using hnot
    rw [if_pos hpresent, normal_some, if_pos hempty]
  · rw [if_neg hpresent]
    rfl

theorem proveOneAccount_spec {pre : Option (TrieAccount H)}
    (h : proveOneAccount C acct (.ofOption (accountMap C w acct.address)) = .ok pre) :
    pre = w.leaf C acct.address ∧ acct.Holds C w := by
  unfold accountMap at h
  cases hleaf : w.leaf C acct.address with
  | none =>
    rw [hleaf] at h
    obtain ⟨⟨⟩, hproved, h⟩ := bind_eq_ok.1 h
    cases h
    exact ⟨rfl, proveExcludedAccount_spec hC hleaf hproved⟩
  | some leaf =>
    rw [hleaf] at h
    obtain ⟨ta, hproved, h⟩ := bind_eq_ok.1 h
    cases h
    obtain ⟨rfl, hholds⟩ := proveIncludedAccount_spec hC hleaf hproved
    exact ⟨rfl, hholds⟩

/-- **Every account of the witness is as the world has it.** -/
theorem proveAccounts_spec {accts : List (WitnessAccount H)} {trie : SparseTrie C.toCodec}
    (htrie : Holds trie (keyed C.addressKey (accountMap C w)))
    {proven out : SortedMap Address (Option (TrieAccount H))} (hproven : Proven C w proven)
    (h : proveAccounts C accts trie proven = .ok out) :
    Proven C w out ∧ ∀ acct ∈ accts, acct.Holds C w := by
  induction accts generalizing trie proven with
  | nil =>
    cases h
    exact ⟨hproven, by simp⟩
  | cons acct accts ih =>
    obtain ⟨⟨leaf, trie'⟩, hlookup, h⟩ := bind_eq_ok.1 h
    obtain ⟨pre, hone, h⟩ := bind_eq_ok.1 h
    obtain ⟨hleaf, htrie'⟩ := (htrie.lookup hC.toLawful _).2 _ hlookup
    rw [keyed_apply hC.addressKey_injective] at hleaf
    dsimp only at hleaf hone
    rw [hleaf] at hone
    obtain ⟨rfl, hholds⟩ := proveOneAccount_spec hC hone
    obtain ⟨hout, hrest⟩ := ih htrie' (hproven.upsert acct.address) h
    exact ⟨hout, forall_mem_cons.2 ⟨hholds, hrest⟩⟩

/-! ## Slots -/

variable {slot : WitnessSlot}

omit [LinearOrder H] in
theorem checkOneSlot_spec {value : U256}
    (h : checkOneSlot C slot (.ofOption (slotLeaf C value)) = .ok ()) : slot.value = value := by
  unfold slotLeaf at h
  split at h
  case isTrue hzero =>
    change (if slot.value = 0 then _ else _) = _ at h
    split at h
    · rename_i hslot
      rw [hslot, hzero]
    · cases h
  case isFalse =>
    obtain ⟨got, hdecode, h⟩ := bind_eq_ok.1 h
    rw [hC.uintDecode_uintRlp] at hdecode
    cases hdecode
    split at h
    · cases h
    · rename_i hnot
      simp only [not_or, not_not] at hnot
      exact hnot.1.symm

omit hC in
/-- The storage tries that were opened hold the slots of their accounts. -/
def TriesHold (C : StateCodec H) (w : World H) (tries : SortedMap Address (SparseTrie C.toCodec)) : Prop :=
  ∀ address trie, tries.get? address = some trie →
    Holds trie (keyed C.slotKey (slotMap C (w.heldSlot C address)))

variable {store : NodeStore C.toCodec}

theorem checkOneWitnessSlot_spec (hproven : Proven C w proven)
    {tries out : SortedMap Address (SparseTrie C.toCodec)} (htries : TriesHold C w tries)
    (h : checkOneWitnessSlot C store slot proven tries = .ok out) :
    slot.value = w.heldSlot C slot.address slot.key ∧ TriesHold C w out := by
  obtain ⟨pre, hpre, hrest⟩ := bind_eq_ok.1 h
  obtain ⟨⟨lookup, trie'⟩, hlookup, hrest⟩ := bind_eq_ok.1 hrest
  obtain ⟨⟨⟩, hcheck, hdone⟩ := bind_eq_ok.1 hrest
  obtain rfl : pre = w.leaf C slot.address := hproven _ _ (ofOption_eq_ok.1 hpre)
  have htrie : Holds ((tries.get? slot.address).getD
      (new (storageRootOf C (w.leaf C slot.address)) store))
      (keyed C.slotKey (slotMap C (w.heldSlot C slot.address))) := by
    cases hget : tries.get? slot.address with
    | some trie => exact htries _ _ hget
    | none => exact .of_secureRoot hC.toLawful store (secureRoot_storageRootOf hC w slot.address)
  obtain ⟨hfound, htrie'⟩ := (htrie.lookup hC.toLawful _).2 _ (mapErr_eq_ok.1 hlookup)
  rw [keyed_apply hC.slotKey_injective] at hfound
  dsimp only at hfound htrie' hcheck
  rw [hfound] at hcheck
  refine ⟨checkOneSlot_spec hC hcheck, ?_⟩
  cases hdone
  intro address trie hget
  by_cases heq : address = slot.address
  · subst heq
    rw [get?_upsert_self] at hget
    cases hget
    exact htrie'
  · rw [get?_upsert_of_ne _ heq] at hget
    exact htries address trie hget

/-- **Every slot of the witness is as the world has it.** -/
theorem proveStorage_spec (hproven : Proven C w proven)
    {slots : List WitnessSlot} {tries : SortedMap Address (SparseTrie C.toCodec)}
    (htries : TriesHold C w tries) (h : proveStorage C store proven slots tries = .ok ()) :
    ∀ slot ∈ slots, slot.value = w.heldSlot C slot.address slot.key := by
  induction slots generalizing tries with
  | nil => simp
  | cons slot slots ih =>
    obtain ⟨tries', hone, h⟩ := bind_eq_ok.1 h
    obtain ⟨hslot, htries'⟩ := checkOneWitnessSlot_spec hC hproven htries hone
    exact forall_mem_cons.2 ⟨hslot, ih htries' h⟩

end

theorem verifyCodeBlobs_spec {entries : List (CodeEntry H)} (h : verifyCodeBlobs C entries = .ok ()) :
    ∀ entry ∈ entries, C.keccak entry.code = entry.codeHash := by
  induction entries with
  | nil => simp
  | cons entry entries ih =>
    obtain ⟨⟨⟩, hone, h⟩ := bind_eq_ok.1 h
    unfold checkOneCodeBlob at hone
    split at hone
    · cases hone
    · rename_i hhash
      exact forall_mem_cons.2 ⟨not_not.1 hhash, ih h⟩

end WitnessAnchor

/-! ## The whole check -/

/-- What a world says of a witness. -/
structure ExecutionWitness.Holds (C : StateCodec H) (w : World H) (witness : ExecutionWitness H) : Prop where
  accounts : ∀ acct ∈ witness.accounts, acct.Holds C w
  storage : ∀ slot ∈ witness.storage, slot.value = w.heldSlot C slot.address slot.key
  code : ∀ entry ∈ witness.code, C.keccak entry.code = entry.codeHash

variable {witness : ExecutionWitness H} {proofs : WitnessProofs} {pre : ProvenPre H}

theorem root_of_verifyWitnessAnchored
    (h : verifyWitnessAnchored C witness proofs = .ok pre) : witness.preStateRoot = some pre.root := by
  obtain ⟨root, hroot, h⟩ := bind_eq_ok.1 h
  obtain ⟨store, -, h⟩ := bind_eq_ok.1 h
  obtain ⟨accounts, -, h⟩ := bind_eq_ok.1 h
  obtain ⟨⟨⟩, -, h⟩ := bind_eq_ok.1 h
  obtain ⟨⟨⟩, -, h⟩ := bind_eq_ok.1 h
  cases h
  exact ofOption_eq_ok.1 hroot

/-- **The check is sound.** -/
theorem verifyWitnessAnchored_spec (hC : C.Lawful) {w : World H}
    (hroot : witness.preStateRoot = some (w.root C))
    (h : verifyWitnessAnchored C witness proofs = .ok pre) :
    pre.root = w.root C ∧ Proven C w pre.accounts ∧ witness.Holds C w := by
  obtain ⟨root, hr, h⟩ := bind_eq_ok.1 h
  obtain ⟨store, -, h⟩ := bind_eq_ok.1 h
  obtain rfl : w.root C = root := by
    rw [hroot] at hr
    cases hr
    rfl
  obtain ⟨accounts, haccounts, h⟩ := bind_eq_ok.1 h
  obtain ⟨⟨⟩, hstorage, h⟩ := bind_eq_ok.1 h
  obtain ⟨⟨⟩, hcode, h⟩ := bind_eq_ok.1 h
  cases h
  have htrie : Holds (new (w.root C) store) (keyed C.addressKey (accountMap C w)) :=
    .of_secureRoot hC.toLawful store (w.secureRoot_root hC)
  have hnone : Proven C w .empty := fun _ pre hget => nomatch (hget : none = some pre)
  have hnoTries : TriesHold C w .empty := fun _ trie hget => nomatch (hget : none = some trie)
  obtain ⟨hproven, haccts⟩ := proveAccounts_spec hC htrie hnone haccounts
  have hslots := proveStorage_spec hC hproven hnoTries hstorage
  exact ⟨rfl, hproven, haccts, hslots, verifyCodeBlobs_spec hcode⟩

end Kardamom.Anchor
