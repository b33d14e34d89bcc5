import Kardamom.Anchor.Sparse
import Kardamom.State.World

/-!
# The anchored witness

`verifyWitnessAnchored` checks every entry of a witness against the state root that the witness names, over
a set of trie nodes that came with it. `recomputePostRoot` then applies the writes of the block to the same
partial tries and answers the root after the block.

Nothing of the witness or of the node set is trusted: a node counts only under its own hash.
-/

namespace Kardamom.Anchor

open Mpt State SparseTrie

/-! ## The witness -/

/-- One account as the execution read it. -/
structure WitnessAccount (H : Type) where
  address : Address
  /-- `exists`: false for a read that found nothing. -/
  present : Bool
  nonce : UInt64
  balance : U256
  codeHash : H

structure WitnessSlot where
  address : Address
  key : B256
  value : U256

structure CodeEntry (H : Type) where
  codeHash : H
  code : Bytes

structure ExecutionWitness (H : Type) where
  accounts : List (WitnessAccount H)
  storage : List WitnessSlot
  code : List (CodeEntry H)
  preStateRoot : Option H

structure WitnessProofs where
  nodes : List Bytes

variable {H : Type} [LinearOrder H]

/-- Name the account of a storage trie in the error of a walk. -/
def inStorageTrie (account : Address) : AnchorError H → AnchorError H
  | .missingNode hash path none => .missingNode hash path (some account)
  | other => other

/-- What the check proved of the state before the block: the leaf of each account of the witness, and
`none` for one that the trie does not have. -/
structure ProvenPre (H : Type) where
  root : H
  accounts : SortedMap Address (Option (TrieAccount H))

/-! ## The check -/

namespace WitnessAnchor

variable (C : StateCodec H)

section

variable (acct : WitnessAccount H)

/-- An account of the witness against the leaf that the trie has. -/
def proveIncludedAccount (value : Bytes) :
    Outcome (AnchorError H) (TrieAccount H) := do
  let ta ← .ofOption (.malformed "account leaf not a TrieAccount") (C.accountDecode value)
  if acct.present = false then .err (.refuted (.absentButIncluded acct.address))
  else if ta.nonce ≠ acct.nonce ∨ ta.balance ≠ acct.balance ∨
      ta.codeHash ≠ C.toRevmCodeHash acct.codeHash then
    .err (.refuted (.fieldsDiverge acct.address))
  else .ok ta

/-- An account of the witness that the trie does not have. An empty account has no leaf either. -/
def proveExcludedAccount : Outcome (AnchorError H) Unit :=
  if acct.present ∧ C.isEmptyAccount acct.nonce acct.balance acct.codeHash = false then
    .err (.refuted (.presentButExcluded acct.address))
  else .ok ()

def proveOneAccount (leaf : Lookup) : Outcome (AnchorError H) (Option (TrieAccount H)) :=
  match leaf with
  | .found value => do
    let ta ← proveIncludedAccount C acct value
    .ok (some ta)
  | .absent => do
    proveExcludedAccount C acct
    .ok none

end

/-- The loop over the accounts. -/
def proveAccounts : List (WitnessAccount H) → SparseTrie C.toCodec →
    SortedMap Address (Option (TrieAccount H)) →
      Outcome (AnchorError H) (SortedMap Address (Option (TrieAccount H)))
  | [], _, proven => .ok proven
  | acct :: rest, trie, proven => do
    let (leaf, trie) ← trie.lookup (C.addressKey acct.address)
    let pre ← proveOneAccount C acct leaf
    proveAccounts rest trie (proven.upsert acct.address fun _ => pre)

/-- A slot of the witness against the leaf that the trie has. -/
def checkIncludedSlot (slot : WitnessSlot) (value : Bytes) : Outcome (AnchorError H) Unit := do
  let got ← .ofOption (.malformed "storage leaf not an RLP word") (C.uintDecode value)
  if got ≠ slot.value ∨ slot.value = 0 then .err (.refuted (.slotDiverges slot.address slot.key)) else .ok ()

def checkOneSlot (slot : WitnessSlot) (lookup : Lookup) : Outcome (AnchorError H) Unit :=
  match lookup with
  | .found value => checkIncludedSlot C slot value
  | .absent => if slot.value = 0 then .ok () else .err (.refuted (.slotExcluded slot.address slot.key))

/-- The storage root of a proven account. -/
def storageRootOf (pre : Option (TrieAccount H)) : H :=
  match pre with
  | some ta => ta.storageRoot
  | none => C.emptyRootHash

/-- One slot, in the trie of its account, which is built on first use. -/
def checkOneWitnessSlot (store : NodeStore C.toCodec) (slot : WitnessSlot)
    (proven : SortedMap Address (Option (TrieAccount H)))
    (storageTries : SortedMap Address (SparseTrie C.toCodec)) :
    Outcome (AnchorError H) (SortedMap Address (SparseTrie C.toCodec)) := do
  let pre ← .ofOption (.refuted (.unwitnessedAccount slot.address)) (proven.get? slot.address)
  let trie := (storageTries.get? slot.address).getD (new (storageRootOf C pre) store)
  let (lookup, trie) ← (trie.lookup (C.slotKey slot.key)).mapErr (inStorageTrie slot.address)
  checkOneSlot C slot lookup
  .ok (storageTries.upsert slot.address fun _ => trie)

/-- The loop over the slots. -/
def proveStorage (store : NodeStore C.toCodec) (proven : SortedMap Address (Option (TrieAccount H))) :
    List WitnessSlot → SortedMap Address (SparseTrie C.toCodec) → Outcome (AnchorError H) Unit
  | [], _ => .ok ()
  | slot :: rest, storageTries => do
    let storageTries ← checkOneWitnessSlot C store slot proven storageTries
    proveStorage store proven rest storageTries

def checkOneCodeBlob (entry : CodeEntry H) : Outcome (AnchorError H) Unit :=
  if C.keccak entry.code ≠ entry.codeHash then .err (.refuted .codeHash) else .ok ()

/-- The loop over the code blobs. -/
def verifyCodeBlobs : List (CodeEntry H) → Outcome (AnchorError H) Unit
  | [] => .ok ()
  | entry :: rest => do
    checkOneCodeBlob C entry
    verifyCodeBlobs rest

def verify (witness : ExecutionWitness H) (store : NodeStore C.toCodec) (root : H) :
    Outcome (AnchorError H) (ProvenPre H) := do
  let accounts ← proveAccounts C witness.accounts (new root store) .empty
  proveStorage C store accounts witness.storage .empty
  verifyCodeBlobs C witness.code
  .ok ⟨root, accounts⟩

end WitnessAnchor

open WitnessAnchor

variable (C : StateCodec H)

def verifyWitnessAnchored (witness : ExecutionWitness H) (proofs : WitnessProofs) :
    Outcome (AnchorError H) (ProvenPre H) := do
  let root ← .ofOption .noPreStateRoot witness.preStateRoot
  let store ← NodeStore.new proofs.nodes
  verify C witness store root

/-! ## The root after the block -/

namespace ProvenPre

/-- The storage writes of a delta, by account. -/
def groupStorageWrites (delta : PendingDelta H) : SortedMap Address (List (B256 × U256)) :=
  delta.storage.entries.foldl
    (fun writes e => writes.upsert e.1.1 fun before => before.getD [] ++ [(e.1.2, e.2)]) .empty

/-- Clear or write one slot. -/
def applyOneStorageWrite (trie : SparseTrie C.toCodec) (addr : Address) (key : B256) (value : U256) :
    Outcome (AnchorError H) (SparseTrie C.toCodec) :=
  if value = 0 then (trie.remove (C.slotKey key)).mapErr (inStorageTrie addr)
  else (trie.insert (C.slotKey key) (C.uintRlp value)).mapErr (inStorageTrie addr)

/-- The loop over the writes of one account. -/
def applyStorageWrites (addr : Address) :
    List (B256 × U256) → SparseTrie C.toCodec → Outcome (AnchorError H) (SparseTrie C.toCodec)
  | [], trie => .ok trie
  | (key, value) :: rest, trie => do
    let trie ← applyOneStorageWrite C trie addr key value
    applyStorageWrites addr rest trie

variable (pre : ProvenPre H)

/-- The loop over the accounts with storage writes. -/
def recomputeStorageRoots (store : NodeStore C.toCodec) :
    List (Address × List (B256 × U256)) → SortedMap Address H →
      Outcome (AnchorError H) (SortedMap Address H)
  | [], newStorageRoot => .ok newStorageRoot
  | (addr, writes) :: rest, newStorageRoot => do
    let preAcct ← .ofOption (.writeWithoutRead addr) (pre.accounts.get? addr)
    let trie := new (storageRootOf C preAcct) store
    let trie ← applyStorageWrites C addr writes trie
    recomputeStorageRoots store rest (newStorageRoot.upsert addr fun _ => trie.rootHash)

section

variable (addr : Address) (delta : PendingDelta H)

/-- The fields of an account after the block: from the delta, or as they were. -/
def postFields (preAcct : Option (TrieAccount H)) :
    AccountFields H :=
  match delta.accounts.get? addr with
  | some fields => fields
  | none =>
    match preAcct with
    | some ta => ⟨ta.nonce, ta.balance, ta.codeHash⟩
    | none => ⟨0, 0, C.keccakEmpty⟩

/-- The leaf of an account after the block. An account that is empty and has no storage has none; one that
the trie had before is not deleted. -/
def postAccountLeaf (newStorageRoot : SortedMap Address H) :
    Outcome (AnchorError H) (Option (TrieAccount H)) := do
  let preAcct ← .ofOption (.writeWithoutRead addr) (pre.accounts.get? addr)
  let storageRoot := (newStorageRoot.get? addr).getD (storageRootOf C preAcct)
  let fields := postFields C addr delta preAcct
  let post : TrieAccount H :=
    ⟨fields.nonce, fields.balance, storageRoot, C.toRevmCodeHash fields.codeHash⟩
  let empty := C.isEmptyAccount post.nonce post.balance post.codeHash
  if empty ∧ post.storageRoot = C.emptyRootHash then
    match preAcct with
    | none => .ok none
    | some _ => .err (.accountDeleteUnsupported addr)
  else .ok (some post)

end

end ProvenPre

/-- Put the leaf of an account after the block into the account trie. -/
def insertTouchedLeaf (accountsTrie : SparseTrie C.toCodec) (pre : ProvenPre H) (addr : Address)
    (delta : PendingDelta H) (newStorageRoot : SortedMap Address H) :
    Outcome (AnchorError H) (SparseTrie C.toCodec) := do
  match ← pre.postAccountLeaf C addr delta newStorageRoot with
  | none => .ok accountsTrie
  | some post => accountsTrie.insert (C.addressKey addr) (C.accountRlp post)

/-- The loop over the touched accounts. -/
def insertTouchedLeaves (pre : ProvenPre H) (delta : PendingDelta H) (newStorageRoot : SortedMap Address H) :
    List Address → SparseTrie C.toCodec → Outcome (AnchorError H) (SparseTrie C.toCodec)
  | [], trie => .ok trie
  | addr :: rest, trie => do
    let trie ← insertTouchedLeaf C trie pre addr delta newStorageRoot
    insertTouchedLeaves pre delta newStorageRoot rest trie

/-- The accounts that a delta writes, ascending and each once. -/
def touchedAccounts (delta : PendingDelta H) : SortedMap Address Unit :=
  (delta.accounts.keys ++ (ProvenPre.groupStorageWrites delta).entries.map Prod.fst).foldl
    (fun touched addr => touched.upsert addr fun _ => ()) .empty

def recomputePostRoot (proofs : WitnessProofs) (pre : ProvenPre H) (delta : PendingDelta H) :
    Outcome (AnchorError H) H := do
  let store ← NodeStore.new proofs.nodes
  let storageWrites := ProvenPre.groupStorageWrites delta
  let newStorageRoot ← pre.recomputeStorageRoots C store storageWrites.entries .empty
  let accountsTrie := new pre.root store
  let touched := (touchedAccounts delta).entries.map Prod.fst
  let accountsTrie ← insertTouchedLeaves C pre delta newStorageRoot touched accountsTrie
  .ok accountsTrie.rootHash

end Kardamom.Anchor
