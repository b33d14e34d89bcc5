import Kardamom.Exec.Features

/-!
# The block driver

`executeBlockInner` runs the records of a block in one scope, with the capture of the access list on the side. It is
the one driver of the live roles, of the capture of a witness and of the run over a witness, and it is a program over
the database: what it does to the database is what it reads from it.
-/

namespace Kardamom.Exec

open Mpt State ReadProgram ExceptT

/-! ## Records and calls -/

structure BlockFees where
  baseFee : Nat
  beneficiary : Address

/-- The context of the records of one block. -/
structure ExecEnv where
  chainId : UInt64
  blockNumber : UInt64
  l2Timestamp : UInt64
  fees : BlockFees
  features : BlockFeatures

/-- What the records carry, and what their receipts say beyond gas and writes. -/
structure Payloads where
  Tx : Type
  Deposit : Type
  Message : Type
  /-- The fields of a receipt that the record, the block and the call decide: identity, status, logs, prices. -/
  Facts : Type
  /-- A failure of the engine, which is nothing that the record decides. -/
  Fault : Type

/-- One record of a block. -/
inductive BufferedRecord (P : Payloads) where
  | tx (envelope : P.Tx)
  | deposit (deposit : P.Deposit)
  | xchain (originChainId : UInt64) (message : P.Message)

/-- What a call leaves of an account that it loaded. -/
structure LoadedAccount (H : Type) where
  address : Address
  info : AccountFields H
  code : Option Bytes
  storage : List (B256 × U256)
  touched : Bool
  created : Bool

/-- A call that ran. -/
structure Ran (H Facts : Type) where
  facts : Facts
  gasUsed : Nat
  state : List (LoadedAccount H)

/-- A call of a deposit or a message: it ran, or it was refused before it ran. -/
inductive Called (H Facts : Type) where
  | ran (r : Ran H Facts)
  | rejected (facts : Facts)

/-- What the executor takes from the virtual machine and from the encodings of the records. -/
structure Evm (H : Type) (P : Payloads) where
  /-- `activation_slot`. -/
  activationSlot : UInt64 → B256
  writeSetHash : WriteSet H → H
  chainStateCode : Bytes
  /-- The bytes of a published access list. -/
  balRlp : BlockAccessList → Bytes
  /-- Whether the hash and the sender of an envelope are those of its bytes. -/
  verifyRecordIdentity : P.Tx → Except P.Fault Unit
  /-- A transaction with its fees settled. One that is skipped used no gas and leaves nothing, or its sender with the
  next nonce. -/
  transact : ExecEnv → P.Tx → EvmProgram H (Except P.Fault (Ran H P.Facts))
  depositFrom : P.Deposit → Address
  depositMint : P.Deposit → Nat
  /-- Whether the deposit is a `setFeature` of the upgrader. -/
  isUpgrade : P.Deposit → Bool
  transactDeposit : ExecEnv → P.Deposit → EvmProgram H (Except P.Fault (Called H P.Facts))
  transactXchain : ExecEnv → UInt64 → P.Message → EvmProgram H (Except P.Fault (Called H P.Facts))

/-- A receipt. -/
structure Receipt (H Facts : Type) where
  facts : Facts
  gasUsed : Nat
  writeSetHash : H
  transactionIndex : Nat
  cumulativeGasUsed : Nat
  deriving DecidableEq

inductive ExecError (Fault : Type) where
  | fault (e : Fault)
  | mintOverflow (address : Address) (mint : Nat)
  | cumulativeGasOverflow (before gasUsed : Nat)
  deriving DecidableEq

variable {H : Type} [LinearOrder H] {P : Payloads}

/-! ## The values that a call found -/

/-- The slots of an account with the values that the call found. -/
def originalSlots (address : Address) : List (B256 × U256) → EvmProgram H (List (B256 × EvmStorageSlot))
  | [] => .done []
  | (key, present) :: rest => .read (.storage address key) fun original => do
    let slots ← originalSlots address rest
    return (key, ⟨original, present⟩) :: slots

/-- The accounts of a call with the fields and values that it found. -/
def withOriginals (C : StateCodec H) : List (LoadedAccount H) → EvmProgram H (EvmState H)
  | [] => .done []
  | a :: rest => .read (.basic a.address) fun original => do
    let slots ← originalSlots a.address a.storage
    let state ← withOriginals C rest
    return (a.address, ⟨a.info, a.code, infoOrDefault C original, slots, a.touched, a.created⟩) :: state

/-! ## One record -/

/-- The place of a record in its block. -/
structure TxSlot where
  txIndexInBlock : Nat
  cumulativeGasUsedBefore : Nat

/-- A record that was executed: the cache after it, its receipt, its writes and its part of the capture. -/
structure Executed (H Facts : Type) where
  cache : Cache H
  receipt : Receipt H Facts
  writes : WriteSet H
  capture : Bal H → Nat → Bal H

/-- A program of the executor. -/
abbrev ExecProgram (H : Type) (P : Payloads) := ExceptT (ExecError P.Fault) (StateProgram H)

/-- The receipt of a record. The sum of gas is a `u64`. -/
def buildReceipt (slot : TxSlot) (facts : P.Facts) (gasUsed : Nat) (writeSetHash : H) :
    Except (ExecError P.Fault) (Receipt H P.Facts) :=
  if slot.cumulativeGasUsedBefore + gasUsed < 2 ^ 64 then
    .ok ⟨facts, gasUsed, writeSetHash, slot.txIndexInBlock, slot.cumulativeGasUsedBefore + gasUsed⟩
  else .error (.cumulativeGasOverflow slot.cumulativeGasUsedBefore gasUsed)

section Record

variable (C : StateCodec H) (evm : Evm H P) (env : ExecEnv)

section

variable (cache : Cache H)

/-- Run a call in the scope. -/
def runCall {α : Type} (p : EvmProgram H (Except P.Fault α)) : ExecProgram H P α :=
  mk (Except.mapError ExecError.fault <$> inScope C cache p)

/-- Read an account in the scope. -/
def readAccount (address : Address) : ExecProgram H P (AccountFields H) :=
  ExceptT.lift (inScope C cache (.read (.basic address) fun info => .done (infoOrDefault C info)))

/-- Pair what a call left with what it found. -/
def evmState (state : List (LoadedAccount H)) : ExecProgram H P (EvmState H) :=
  ExceptT.lift (inScope C cache (withOriginals C state))

end

section

variable (slot : TxSlot)

def executeTx (envelope : P.Tx) (cache : Cache H) : ExecProgram H P (Executed H P.Facts) := do
  let r ← runCall C cache (evm.transact env envelope)
  let state ← evmState C cache r.state
  let ws := writeSetFromEvmState C state
  let receipt ← mk (.done (buildReceipt slot r.facts r.gasUsed (evm.writeSetHash ws)))
  return ⟨commit cache state, receipt, ws, Bal.recordBalWrites state⟩

section

variable (deposit : P.Deposit) (cache : Cache H)

/-- The mint of a deposit goes into the cache before its call, whatever the call does. -/
def creditMint : ExecProgram H P (Cache H) := do
  let info ← readAccount C cache (evm.depositFrom deposit)
  if info.balance.toNat + evm.depositMint deposit < 2 ^ 256 then
    return commitAccount cache (evm.depositFrom deposit)
      { info with balance := info.balance + BitVec.ofNat 256 (evm.depositMint deposit) } none
  else throw (.mintOverflow (evm.depositFrom deposit) (evm.depositMint deposit))

/-- The first `setFeature` on a chain without the contract puts its code there. -/
def installChainState : ExecProgram H P (Cache H × Bool) := do
  if evm.isUpgrade deposit = false then return (cache, false)
  else
    let info ← readAccount C cache chainState
    if C.toRevmCodeHash info.codeHash ≠ C.keccakEmpty then return (cache, false)
    else
      return (commitAccount cache chainState { info with codeHash := C.keccak evm.chainStateCode }
        (some evm.chainStateCode), true)

/-- Name the installed account and its code in the write set. -/
def addInstall (installed : Bool) (cache : Cache H) (ws : WriteSet H) : ExecProgram H P (WriteSet H) := do
  if installed = false then return ws
  else
    let info ← readAccount C cache chainState
    return (ws.ensureAccount chainState info).ensureCode (C.keccak evm.chainStateCode) evm.chainStateCode

/-- The write set of a deposit whose call never ran. -/
def mintOnlyWriteSet (deposit : P.Deposit) (info : AccountFields H) : WriteSet H :=
  if evm.depositMint deposit ≠ 0 then ⟨[(evm.depositFrom deposit, info)], [], []⟩ else .empty

/-- A deposit or a message with its write set, its receipt and its capture. -/
def finishDerived (cache : Cache H) (facts : P.Facts) (gasUsed : Nat) (ws : WriteSet H) :
    ExecProgram H P (Executed H P.Facts) := do
  let receipt ← mk (.done (buildReceipt slot facts gasUsed (evm.writeSetHash ws)))
  return ⟨cache, receipt, ws, recordIntoBal C ws⟩

def executeDeposit :
    ExecProgram H P (Executed H P.Facts) := do
  let cache ← creditMint C evm deposit cache
  let (cache, installed) ← installChainState C evm deposit cache
  match ← runCall C cache (evm.transactDeposit env deposit) with
  | .rejected facts =>
    let info ← readAccount C cache (evm.depositFrom deposit)
    let ws ← addInstall C evm installed cache (mintOnlyWriteSet evm deposit info)
    finishDerived C evm slot cache facts 0 ws
  | .ran r =>
    let state ← evmState C cache r.state
    let cache := commit cache state
    let sender ← readAccount C cache (evm.depositFrom deposit)
    let ws := (writeSetFromEvmStateDeposit C state).ensureAccount (evm.depositFrom deposit) sender
    let ws ← addInstall C evm installed cache ws
    finishDerived C evm slot cache r.facts r.gasUsed ws

end

def executeXchain (originChainId : UInt64) (message : P.Message) (cache : Cache H) :
    ExecProgram H P (Executed H P.Facts) := do
  match ← runCall C cache (evm.transactXchain env originChainId message) with
  | .rejected facts => finishDerived C evm slot cache facts 0 .empty
  | .ran r =>
    let state ← evmState C cache r.state
    finishDerived C evm slot (commit cache state) r.facts r.gasUsed (writeSetFromEvmStateDeposit C state)

/-- `execute_record_in_scope`. -/
def executeRecordInScope (cache : Cache H) : BufferedRecord P → ExecProgram H P (Executed H P.Facts)
  | .tx envelope => executeTx C evm env slot envelope cache
  | .deposit deposit => executeDeposit C evm env slot deposit cache
  | .xchain originChainId message => executeXchain C evm env slot originChainId message cache

end

/-! ## A block -/

/-- What the driver carries from record to record. -/
structure BlockProgress (H Facts : Type) where
  cache : Cache H
  receipts : List (Receipt H Facts)
  delta : PendingDelta H
  cumulative : Nat
  bal : Bal H

/-- The records of a block from the record `idx` on. A record is captured under its place, counted from 1. -/
def executeRecords : List (BufferedRecord P) → Nat → BlockProgress H P.Facts →
    ExecProgram H P (BlockProgress H P.Facts)
  | [], _, progress => return progress
  | rec :: rest, idx, progress => do
    let done ← executeRecordInScope C evm env ⟨idx, progress.cumulative⟩ progress.cache rec
    executeRecords rest (idx + 1)
      { cache := done.cache
        receipts := progress.receipts ++ [done.receipt]
        delta := progress.delta.apply done.writes
        cumulative := done.receipt.cumulativeGasUsed
        bal := done.capture progress.bal (idx + 1) }

section

variable (parent : Option (PendingDelta H))

/-- A scope over the parent layer. -/
def newScope : Cache H :=
  match parent with
  | some layer => Cache.seedLayer .new layer
  | none => .new

structure BlockExecOutput (H Facts : Type) where
  receipts : List (Receipt H Facts)
  delta : PendingDelta H

/-- `execute_block_inner`, with the capture. -/
def executeBlockWithBal (records : List (BufferedRecord P)) :
    ExecProgram H P (BlockExecOutput H P.Facts × BlockAccessList) := do
  let done ← executeRecords C evm env records 0 ⟨newScope parent, [], .new, 0, .empty⟩
  return (⟨done.receipts, done.delta⟩, done.bal.intoAlloyBal)

end

/-! ## What a block has from the reads of its scope -/

section Property

variable {C evm env} {Q : Property (StateKey H) (StateValue H)}
  (hlookup : ∀ cache k, Q.Of (lookup C cache k))

include hlookup

section

variable (cache : Cache H)

theorem property_runCall {α : Type} (p : EvmProgram H (Except P.Fault α)) :
    Q.Of (runCall C cache p).run :=
  Q.bind (Q.interpret (hlookup cache) p) fun _ => Q.done _

theorem property_readAccount (address : Address) :
    Q.Of (readAccount (P := P) C cache address).run :=
  Q.lift (Q.interpret (hlookup cache) _)

theorem property_evmState (state : List (LoadedAccount H)) :
    Q.Of (evmState (P := P) C cache state).run :=
  Q.lift (Q.interpret (hlookup cache) _)

end

section

variable (deposit : P.Deposit) (cache : Cache H)

theorem property_creditMint : Q.Of (creditMint C evm deposit cache).run := by
  refine Q.bind_except (property_readAccount hlookup ..) fun info => ?_
  split <;> exact Q.done _

theorem property_installChainState : Q.Of (installChainState C evm deposit cache).run := by
  unfold installChainState
  split
  case isTrue => exact Q.done _
  case isFalse =>
    refine Q.bind_except (property_readAccount hlookup ..) fun info => ?_
    split <;> exact Q.done _

end

theorem property_addInstall (installed : Bool) (cache : Cache H) (ws : WriteSet H) :
    Q.Of (addInstall C evm installed cache ws).run := by
  unfold addInstall
  split
  case isTrue => exact Q.done _
  case isFalse => exact Q.bind_except (property_readAccount hlookup ..) fun _ => Q.done _

omit hlookup in
theorem property_finishDerived (slot : TxSlot) (cache : Cache H) (facts : P.Facts) (gasUsed : Nat)
    (ws : WriteSet H) : Q.Of (finishDerived C evm slot cache facts gasUsed ws).run :=
  Q.bind_except (Q.done _) fun _ => Q.done _

theorem property_executeRecordInScope (slot : TxSlot) (cache : Cache H) (rec : BufferedRecord P) :
    Q.Of (executeRecordInScope C evm env slot cache rec).run := by
  cases rec with
  | tx envelope =>
    refine Q.bind_except (property_runCall hlookup ..) fun r => ?_
    refine Q.bind_except (property_evmState hlookup ..) fun state => ?_
    exact Q.bind_except (Q.done _) fun _ => Q.done _
  | deposit deposit =>
    refine Q.bind_except (property_creditMint hlookup ..) fun cache => ?_
    refine Q.bind_except (property_installChainState hlookup ..) fun installed => ?_
    refine Q.bind_except (property_runCall hlookup ..) fun called => ?_
    cases called with
    | rejected facts =>
      refine Q.bind_except (property_readAccount hlookup ..) fun info => ?_
      exact Q.bind_except (property_addInstall hlookup ..) fun ws => property_finishDerived ..
    | ran r =>
      refine Q.bind_except (property_evmState hlookup ..) fun state => ?_
      refine Q.bind_except (property_readAccount hlookup ..) fun sender => ?_
      exact Q.bind_except (property_addInstall hlookup ..) fun ws => property_finishDerived ..
  | xchain originChainId message =>
    refine Q.bind_except (property_runCall hlookup ..) fun called => ?_
    cases called with
    | rejected facts => exact property_finishDerived ..
    | ran r => exact Q.bind_except (property_evmState hlookup ..) fun state => property_finishDerived ..

theorem property_executeRecords (records : List (BufferedRecord P)) (idx : Nat)
    (progress : BlockProgress H P.Facts) : Q.Of (executeRecords C evm env records idx progress).run := by
  induction records generalizing idx progress with
  | nil => exact Q.done _
  | cons rec rest ih => exact Q.bind_except (property_executeRecordInScope hlookup ..) fun done => ih ..

theorem property_executeBlockWithBal (parent : Option (PendingDelta H)) (records : List (BufferedRecord P)) :
    Q.Of (executeBlockWithBal C evm env parent records).run :=
  Q.bind_except (property_executeRecords hlookup ..) fun _ => Q.done _

end Property

variable {C evm env}

variable (parent : Option (PendingDelta H)) (records : List (BufferedRecord P))

/-- A block asks its database for everything but the code of no code. -/
theorem asks_executeBlockWithBal :
    Asks (Asked C) (executeBlockWithBal C evm env parent records).run :=
  property_executeBlockWithBal (Q := asking (Asked C)) (asks_lookup C) parent records

/-- A block has one spelling of "no code". -/
theorem respects_executeBlockWithBal :
    Respects (Alike C) (executeBlockWithBal C evm env parent records).run :=
  property_executeBlockWithBal (Q := respecting (Alike C)) (respects_lookup C) parent records

end Record

end Kardamom.Exec
