import Kardamom.State.Walker
import Kardamom.State.World

/-!
# The block access list

What the records of a block wrote, field by field and with the index of the record that wrote it: 0 stands for
before the block, and the records are 1, 2 and so on. A capture notes a write of a field when it differs from the last
write noted, or, with none, from the value that the record found (`BalWrites.update`). The published form is
quantized: the indices become numbers of chunks of `k` records, and of the writes of one chunk the last one stays.
-/

namespace Kardamom.Exec

open Mpt State

/-! ## What a record leaves of the accounts it loaded -/

/-- A slot that the execution loaded: its value before the record, and after it. -/
structure EvmStorageSlot where
  originalValue : U256
  presentValue : U256

/-- An account that the execution loaded. -/
structure EvmAccount (H : Type) where
  info : AccountFields H
  /-- The bytecode, when the execution loaded or made it. -/
  code : Option Bytes
  originalInfo : AccountFields H
  storage : List (B256 × EvmStorageSlot)
  touched : Bool
  created : Bool

/-- All accounts that the execution of one record loaded, each address once. -/
abbrev EvmState (H : Type) := List (Address × EvmAccount H)

/-! ## The capture -/

/-- The writes of one field, with the index of each, in the order of the capture. -/
abbrev BalWrites (T : Type) := List (Nat × T)

/-- Note the value of a field after the record `index`, which found `original`. Values count as equal when their keys
are. -/
def BalWrites.update {T K : Type} [DecidableEq K] (key : T → K) (writes : BalWrites T) (index : Nat) (original : K)
    (value : T) : BalWrites T :=
  if (writes.getLast?.map fun w => key w.2).getD original = key value then writes else writes ++ [(index, value)]

/-- The writes of one account. A slot that was only read is in `storage` with no write. -/
structure AccountBal (H : Type) where
  nonce : BalWrites UInt64
  balance : BalWrites U256
  code : BalWrites (H × Bytes)
  storage : SortedMap B256 (BalWrites U256)

def AccountBal.empty {H : Type} : AccountBal H := ⟨[], [], [], .empty⟩

def AccountBal.updateStorage (index : Nat) (storage : SortedMap B256 (BalWrites U256))
    (slots : List (B256 × EvmStorageSlot)) : SortedMap B256 (BalWrites U256) :=
  slots.foldl (fun storage e => storage.upsert e.1 fun writes =>
    BalWrites.update id (writes.getD []) index e.2.originalValue e.2.presentValue) storage

variable {H : Type} [LinearOrder H]

def AccountBal.update (b : AccountBal H) (index : Nat) (account : EvmAccount H) : AccountBal H where
  nonce := BalWrites.update id b.nonce index account.originalInfo.nonce account.info.nonce
  balance := BalWrites.update id b.balance index account.originalInfo.balance account.info.balance
  code := BalWrites.update Prod.fst b.code index account.originalInfo.codeHash
    (account.info.codeHash, account.code.getD [])
  storage := updateStorage index b.storage account.storage

/-- The capture of a block. The source keeps the accounts in the order in which they came and sorts them when it
publishes; here they are sorted from the start. -/
abbrev Bal (H : Type) := SortedMap Address (AccountBal H)

namespace Bal

def updateAccount (bal : Bal H) (index : Nat) (address : Address) (account : EvmAccount H) : Bal H :=
  bal.upsert address fun b => (b.getD .empty).update index account

/-- Note every account that the execution loaded. -/
def recordBalWrites (state : EvmState H) (bal : Bal H) (index : Nat) : Bal H :=
  state.foldl (fun bal e => bal.updateAccount index e.1 e.2) bal

end Bal

/-! ## The published form -/

/-- `alloy_eip7928::AccountChanges`. -/
structure AccountChanges where
  address : Address
  storageChanges : List (B256 × List (Nat × U256))
  storageReads : List B256
  balanceChanges : List (Nat × U256)
  nonceChanges : List (Nat × UInt64)
  codeChanges : List (Nat × Bytes)
  deriving DecidableEq

abbrev BlockAccessList := List AccountChanges

def AccountBal.intoAlloy (address : Address) (b : AccountBal H) : AccountChanges where
  address := address
  storageChanges := b.storage.entries.filter fun e => e.2 ≠ []
  storageReads := (b.storage.entries.filter fun e => e.2 = []).map Prod.fst
  balanceChanges := b.balance
  nonceChanges := b.nonce
  codeChanges := b.code.map fun w => (w.1, w.2.2)

def Bal.intoAlloyBal (bal : Bal H) : BlockAccessList := bal.entries.map fun e => e.2.intoAlloy e.1

/-- The number of the chunk of an index. -/
def chunkOf (index k : Nat) : Nat := if index = 0 then 0 else (index + k - 1) / k

/-- What is left of `writes` behind a write with index `i` that stays: of neighbours with one index, the first. -/
def dedupBehind {T : Type} (i : Nat) : List (Nat × T) → List (Nat × T)
  | [] => []
  | w :: rest => if w.1 = i then dedupBehind i rest else w :: dedupBehind w.1 rest

def dedupByIndex {T : Type} : List (Nat × T) → List (Nat × T)
  | [] => []
  | w :: rest => w :: dedupBehind w.1 rest

/-- The changes of one field with the indices of their chunks, the last of each chunk. -/
def dedupChanges {T : Type} (k : Nat) (changes : List (Nat × T)) : List (Nat × T) :=
  (dedupByIndex (changes.map fun w => (chunkOf w.1 k, w.2)).reverse).reverse

def quantizeAccount (k : Nat) (acct : AccountChanges) : AccountChanges where
  address := acct.address
  storageChanges := acct.storageChanges.map fun slot => (slot.1, dedupChanges k slot.2)
  storageReads := acct.storageReads
  balanceChanges := dedupChanges k acct.balanceChanges
  nonceChanges := dedupChanges k acct.nonceChanges
  codeChanges := dedupChanges k acct.codeChanges

/-- The list in chunks of `k` records. -/
def quantize (bal : BlockAccessList) (k : Nat) : BlockAccessList :=
  if k ≤ 1 then bal else bal.map (quantizeAccount k)

/-! ## What the chunks keep -/

/-- The value of a field after the records up to `index`, if one of them wrote it. -/
def lastAt {T : Type} (index : Nat) (changes : List (Nat × T)) : Option T :=
  (changes.reverse.find? (·.1 ≤ index)).map Prod.snd

/-- What an account shows after the records up to `index`. -/
def AccountChanges.after (index : Nat) (acct : AccountChanges) :=
  (acct.address, acct.storageChanges.map fun slot => (slot.1, lastAt index slot.2), acct.storageReads,
    lastAt index acct.balanceChanges, lastAt index acct.nonceChanges, lastAt index acct.codeChanges)

section

open List

variable {T : Type} {p : Nat → Bool}

/-- A dropped neighbour fails a test of the index as the one before it does. -/
theorem find?_dedupBehind {i : Nat} (hi : p i = false) (changes : List (Nat × T)) :
    (dedupBehind i changes).find? (p ·.1) = changes.find? (p ·.1) := by
  induction changes generalizing i with
  | nil => rfl
  | cons w rest ih =>
    unfold dedupBehind
    split
    case isTrue hw => simpa [hw, hi] using ih hi
    case isFalse =>
      cases hw : p w.1 with
      | true => simp [hw]
      | false => simpa [hw] using ih hw

theorem find?_dedupByIndex (changes : List (Nat × T)) :
    (dedupByIndex changes).find? (p ·.1) = changes.find? (p ·.1) := by
  cases changes with
  | nil => rfl
  | cons w rest =>
    cases hw : p w.1 with
    | true => simp [dedupByIndex, hw]
    | false => simpa [dedupByIndex, hw] using find?_dedupBehind hw rest

theorem chunkOf_le_iff {k : Nat} (hk : 0 < k) (index chunk : Nat) :
    chunkOf index k ≤ chunk ↔ index ≤ chunk * k := by
  unfold chunkOf
  split
  case isTrue h => simp [h]
  case isFalse h =>
    rw [← Nat.lt_succ_iff, Nat.div_lt_iff_lt_mul hk, Nat.succ_mul]
    omega

/-- The last change of a chunk shows at the end of the chunk. -/
theorem lastAt_dedupChanges {k : Nat} (hk : 0 < k) (chunk : Nat) (changes : List (Nat × T)) :
    lastAt chunk (dedupChanges k changes) = lastAt (chunk * k) changes := by
  unfold lastAt dedupChanges
  rw [reverse_reverse, find?_dedupByIndex (p := (· ≤ chunk)), ← map_reverse, find?_map,
    Option.map_map]
  simp only [Function.comp_def, chunkOf_le_iff hk]

end

/-- **Quantizing keeps the values at the chunk borders.** After every chunk the list in chunks shows, for every
account, slot and field, what the full list shows after the last record of that chunk. -/
theorem quantize_after (bal : BlockAccessList) (k chunk : Nat) :
    (quantize bal k).map (AccountChanges.after chunk) = bal.map (AccountChanges.after (chunk * max k 1)) := by
  unfold quantize
  split
  case isTrue hk => rw [Nat.max_eq_right hk, Nat.mul_one]
  case isFalse hk =>
    rw [Nat.max_eq_left (by omega), List.map_map]
    refine List.map_congr_left fun acct _ => ?_
    simp only [AccountChanges.after, quantizeAccount, Function.comp_def, List.map_map,
      lastAt_dedupChanges (show 0 < k by omega)]

end Kardamom.Exec
