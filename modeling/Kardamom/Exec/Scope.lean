import Kardamom.Exec.Bal
import Kardamom.Lib.ReadProgram

/-!
# Execution of a block

Records run one after the other in one scope: a cache of the writes of the block so far, over the writes of the parent
blocks that are not in the database yet, over the database. The execution of one call is not modelled. It is a program
of reads over the scope (`Evm`), so it is a function of the state that it reads, and it answers what it leaves of the
accounts and slots that it loaded.

Three kinds of records share the scope. A transaction is captured with the values it found. A deposit and a message of
another chain have a write set of real changes only, and their capture invents the values that they found so that each
entry of the write set counts as a write (`recordIntoBal`).
-/

/-! ## Write sets and deltas -/

open ReadProgram

namespace Kardamom.State

open Mpt

/-- The writes of one record. -/
structure WriteSet (H : Type) where
  accounts : List (Address × AccountFields H)
  storage : List ((Address × B256) × U256)
  code : List (H × Bytes)
  deriving DecidableEq

variable {H : Type}

def WriteSet.empty : WriteSet H := ⟨[], [], []⟩

section Order

variable [LinearOrder H]

section

variable (ws : WriteSet H)

/-- Sort into the canonical order. -/
def WriteSet.finish : WriteSet H where
  accounts := ws.accounts.insertionSort fun a b => a.1 ≤ b.1
  storage := ws.storage.insertionSort fun a b => a.1.1 < b.1.1 ∨ a.1.1 = b.1.1 ∧ a.1.2 ≤ b.1.2
  code := ws.code.insertionSort fun a b => a.1 ≤ b.1

/-- Name an account that the set does not hold. -/
def WriteSet.ensureAccount (address : Address) (info : AccountFields H) : WriteSet H :=
  if ws.accounts.any fun e => e.1 = address then ws
  else { ws with accounts := ws.accounts ++ [(address, info)] }.finish

/-- Name a bytecode that the set does not hold. -/
def WriteSet.ensureCode (codeHash : H) (code : Bytes) : WriteSet H :=
  if ws.code.any fun e => e.1 = codeHash then ws else { ws with code := ws.code ++ [(codeHash, code)] }.finish

end

end Order

variable [DecidableEq H]

def PendingDelta.new : PendingDelta H := ⟨.empty, .empty, .empty⟩

/-- Merge the writes of a record: later writes win. -/
def PendingDelta.apply (delta : PendingDelta H) (ws : WriteSet H) : PendingDelta H where
  accounts := delta.accounts.putAll ws.accounts
  storage := delta.storage.putAll ws.storage
  code := delta.code.putAll ws.code

/-- Merge the delta of a later block. -/
def PendingDelta.mergeFrom (delta other : PendingDelta H) : PendingDelta H where
  accounts := delta.accounts.putAll other.accounts.entries
  storage := delta.storage.putAll other.storage.entries
  code := delta.code.putAll other.code.entries

end Kardamom.State

namespace Kardamom.Exec

open Mpt State

/-! ## The state that is read -/

/-- What a database is asked for. -/
inductive StateKey (H : Type) where
  | basic (address : Address)
  | storage (address : Address) (key : B256)
  | codeByHash (hash : H)
  deriving DecidableEq

/-- What a database answers. -/
def StateValue (H : Type) : StateKey H → Type
  | .basic _ => Option (AccountFields H)
  | .storage _ _ => U256
  | .codeByHash _ => Bytes

/-- A database that answers. -/
abbrev StateView (H : Type) := ∀ k, StateValue H k

/-- A program over a database. -/
abbrev StateProgram (H : Type) := ReadProgram (StateKey H) (StateValue H)

/-- A program over a scope. It is answered as over a database, and can tell an absent account from an empty one. -/
abbrev EvmProgram (H : Type) := StateProgram H

variable {H : Type} [LinearOrder H]

/-- The tables as a database. -/
def viewOf (w : World H) : StateView H
  | .basic address => w.accounts.get? address
  | .storage address key => w.slot address key
  | .codeByHash hash => (w.code.get? hash).getD []

/-! ## The cache of a scope -/

section Cache

variable (C : StateCodec H)

/-- An account as a call sees it, with one spelling of "no code". -/
def accountInfo (fields : AccountFields H) : AccountFields H :=
  { fields with codeHash := C.toRevmCodeHash fields.codeHash }

/-- `AccountInfo::default`, which stands for an account that is absent. -/
def infoOrDefault (info : Option (AccountFields H)) : AccountFields H := info.getD ⟨0, 0, C.keccakEmpty⟩

def toWireCodeHash (h : H) : H := if h = C.keccakEmpty then C.zero else h

/-- The cache of a scope: what it holds over the database. -/
abbrev Cache (H : Type) := PendingDelta H

/-- The bytecode of each account of a layer that carries it. -/
def seededCode (layer : PendingDelta H) : List (H × Bytes) :=
  layer.accounts.entries.filterMap fun e =>
    ((layer.code.get? e.2.codeHash).filter fun code => code ≠ []).map fun code => (e.2.codeHash, code)

section

variable (cache : Cache H)

/-- `seed_cache_layer`: the accounts of the layer with their code, and its slots. -/
def Cache.seedLayer (layer : PendingDelta H) : Cache H :=
  { accounts := cache.accounts.putAll layer.accounts.entries
    storage := cache.storage.putAll layer.storage.entries
    code := cache.code.putAll (seededCode layer) }

/-- A read through the cache. -/
def lookup : ∀ k, StateProgram H (StateValue H k)
  | .basic address =>
    .cached ((cache.accounts.get? address).map fun fields => some (accountInfo C fields))
      (.read (.basic address) fun fields => .done (Option.map (accountInfo C) fields))
  | .storage address key => .cached (cache.storage.get? (address, key)) (.read (.storage address key) .done)
  | .codeByHash hash =>
    .cached (cache.code.get? hash)
      (if hash = C.keccakEmpty ∨ hash = C.zero then .done [] else .read (.codeByHash hash) .done)

/-- Run a program over the scope. -/
def inScope {α : Type} (p : EvmProgram H α) : StateProgram H α := p.interpret (lookup C cache)

/-- A key that a scope can ask a database for: not the code of no code. -/
def Asked : StateKey H → Prop
  | .codeByHash hash => hash ≠ C.keccakEmpty ∧ hash ≠ C.zero
  | _ => True

theorem asks_lookup (k : StateKey H) : (lookup C cache k).Asks (Asked C) := by
  cases k with
  | basic | storage =>
    refine (asking (Asked C)).cached ?_ _
    exact ⟨trivial, fun _ => trivial⟩
  | codeByHash hash =>
    refine (asking (Asked C)).cached ?_ _
    split
    case isTrue => trivial
    case isFalse h => exact ⟨not_or.1 h, fun _ => trivial⟩

/-- Two answers that a scope does not tell apart: accounts with two spellings of "no code". -/
def Alike : ∀ k : StateKey H, StateValue H k → StateValue H k → Prop
  | .basic _, v, w => Option.map (accountInfo C) v = Option.map (accountInfo C) w
  | .storage _ _, v, w => v = w
  | .codeByHash _, v, w => v = w

theorem respects_lookup (k : StateKey H) : (lookup C cache k).Respects (Alike C) := by
  cases k with
  | basic | storage =>
    refine (respecting (Alike C)).cached ?_ _
    refine ⟨fun v w hvw => ?_, fun _ => trivial⟩
    exact congrArg done hvw
  | codeByHash hash =>
    refine (respecting (Alike C)).cached ?_ _
    split
    case isTrue => trivial
    case isFalse =>
      refine ⟨fun v w hvw => ?_, fun _ => trivial⟩
      exact congrArg done hvw

end

end Cache

/-- Put one account without touching its slots. -/
def commitAccount (cache : Cache H) (address : Address) (info : AccountFields H) (code : Option Bytes) : Cache H :=
  { cache with
    accounts := cache.accounts.put address info
    code := match code with
      | some bytes => if bytes = [] then cache.code else cache.code.put info.codeHash bytes
      | none => cache.code }

/-- `DatabaseCommit::commit`: every account that was touched, with all slots that were loaded. -/
def commit (cache : Cache H) (state : EvmState H) : Cache H :=
  (state.filter fun e => e.2.touched).foldl (fun cache e =>
    let cache := commitAccount cache e.1 e.2.info e.2.code
    { cache with storage := cache.storage.putAll (e.2.storage.map fun s => ((e.1, s.1), s.2.presentValue)) }) cache

/-! ## The writes of a record -/

section Writes

variable (C : StateCodec H)

def changedSlots (address : Address) (storage : List (B256 × EvmStorageSlot)) : List ((Address × B256) × U256) :=
  (storage.filter fun s => s.2.originalValue ≠ s.2.presentValue).map fun s => ((address, s.1), s.2.presentValue)

/-- The bytecode of an account, if it is worth a place in the delta. -/
def codeOf (account : EvmAccount H) : Option (H × Bytes) :=
  (account.code.filter fun code => code ≠ [] ∧ account.info.codeHash ≠ C.keccakEmpty).map fun code =>
    (account.info.codeHash, code)

/-- The write set of a transaction: touched accounts, changed slots and created code. -/
def writeSetFromEvmState (state : EvmState H) : WriteSet H :=
  let touched := state.filter fun e => e.2.touched
  WriteSet.finish
    { accounts := touched.map fun e => (e.1, e.2.info)
      storage := touched.flatMap fun e => changedSlots e.1 e.2.storage
      code := (touched.filter fun e => e.2.created).filterMap fun e => codeOf C e.2 }

/-- Whether the fields of an account changed. -/
def accountChanged (fields original : AccountFields H) : Bool :=
  fields.nonce ≠ original.nonce ∨ fields.balance ≠ original.balance ∨
    toWireCodeHash C fields.codeHash ≠ toWireCodeHash C original.codeHash

/-- Name the code of a contract that was called, once. -/
def readdCalledContractCode (ws : WriteSet H) (account : EvmAccount H) : WriteSet H :=
  match codeOf C account with
  | none => ws
  | some (hash, code) =>
    if account.touched = false ∨ account.created ∨ (ws.code.any fun e => e.1 = hash) then ws
    else { ws with code := ws.code ++ [(hash, code)] }

/-- The write set of a deposit or of a message: of the touched accounts those that changed, and the code of the
contracts that were called. -/
def writeSetFromEvmStateDeposit (state : EvmState H) : WriteSet H :=
  let ws := writeSetFromEvmState C state
  let ws := { ws with accounts := ws.accounts.filter fun e =>
    match state.lookup e.1 with
    | none => true
    | some account => accountChanged C e.2 account.originalInfo }
  (state.foldl (fun ws e => readdCalledContractCode C ws e.2) ws).finish

section

variable (ws : WriteSet H)

/-- An account of a write set for the capture. The fields that it found are invented so that they differ: the nonce
and the balance always, the code when the record carries it. -/
def fabricatedAccount (fields : AccountFields H) : EvmAccount H :=
  let code := (ws.code.find? fun e => e.1 = fields.codeHash).map Prod.snd
  { info := fields
    code := code
    originalInfo :=
      { nonce := fields.nonce + 1
        balance := fields.balance + 1
        codeHash := if code.isSome then C.keccakEmpty else fields.codeHash }
    storage := []
    touched := true
    created := false }

/-- An account that the write set names through a slot only: one with nothing in it, that had a nonce. -/
def fabricatedHolder : EvmAccount H where
  info := ⟨0, 0, C.keccakEmpty⟩
  code := some []
  originalInfo := ⟨1, 0, C.keccakEmpty⟩
  storage := []
  touched := true
  created := false

/-- A slot of a write set for the capture. -/
def fabricatedSlot (value : U256) : EvmStorageSlot := ⟨~~~value, value⟩

/-- The accounts and slots of a write set for the capture. -/
def balEntries : SortedMap Address (EvmAccount H) :=
  let entries := ws.accounts.foldl (fun entries e => entries.upsert e.1 fun _ => fabricatedAccount C ws e.2) .empty
  ws.storage.foldl (fun entries e => entries.upsert e.1.1 fun account =>
    let account := account.getD (fabricatedHolder C)
    { account with storage := account.storage ++ [(e.1.2, fabricatedSlot e.2)] }) entries

/-- `record_into_bal`. -/
def recordIntoBal (bal : Bal H) (index : Nat) : Bal H :=
  Bal.recordBalWrites (balEntries C ws).entries bal index

end

end Writes

end Kardamom.Exec
