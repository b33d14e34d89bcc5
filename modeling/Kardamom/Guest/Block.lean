import Kardamom.Exec.Stateless
import Kardamom.L1.ProofOracle
import Kardamom.Wire.Basic

/-!
# The block guest

`GuestBlock.run` is what a block proof attests: the records of one block, executed over an anchored witness, with a
digest of the transactions on the side. A guest that panics proves nothing, so `none` stands for every panic.

Everything in a `ProverInput` is the choice of the prover. The public values of a proof are the two roots, the number
of the block, the digest and the commitment to the access list.
-/

namespace Kardamom.Guest

open ByteCodec Mpt State Anchor Exec Option

/-! ## The input -/

/-- A transaction with what the proxy recovered from it. -/
structure TxEnvelope (H : Type) where
  correlationId : UInt64
  rawTx : Bytes
  sender : Address
  txHash : H
  maxInclusionBlock : UInt64

/-- A record with its place in the canonical order. -/
structure Placed (α : Type) where
  txIdx : UInt64
  record : α
  position : Wire.BPosition

open Placed

inductive ProverRecord (H D : Type) where
  | tx (t : Placed (TxEnvelope H))
  | deposit (d : Placed D)

open ProverRecord

namespace ProverRecord

variable {H D : Type}

/-- The bytes of a transaction. -/
def rawTx : ProverRecord H D → Option Bytes
  | tx t => some t.record.rawTx
  | deposit _ => none

/-- The deposit of a record, and `none` in the place of a transaction. -/
def depositAt : ProverRecord H D → Option D
  | tx _ => none
  | deposit d => some d.record

end ProverRecord

structure ProverInput (H D : Type) where
  chainId : UInt64
  /-- The boundary that opened the block. -/
  boundary : Wire.BlockBoundaryStart
  fees : BlockFees
  witness : ExecutionWitness H
  proofs : WitnessProofs
  records : List (ProverRecord H D)
  balRlp : Bytes
  granularity : Nat
  granularity_ne_zero : granularity ≠ 0

/-! ## The digest of the records -/

/-- The bytes that went into the hash so far. -/
structure BlockRecordsDigest where
  hashed : Bytes
  deriving DecidableEq

open BlockRecordsDigest

namespace BlockRecordsDigest

def tagTx : UInt8 := 0x01

/-- `KREC` and the number of the block. -/
def new (blockNumber : UInt64) : BlockRecordsDigest :=
  ⟨[0x4b, 0x52, 0x45, 0x43] ++ leBytes 8 blockNumber.toNat⟩

/-- The part of one transaction. -/
def arm (rawTx : Bytes) : Bytes := tagTx :: (leBytes 4 rawTx.length ++ rawTx)

/-- A length of 4 GiB or more panics. -/
def addTx (digest : BlockRecordsDigest) (rawTx : Bytes) : Option BlockRecordsDigest :=
  if rawTx.length < 2 ^ 32 then some ⟨digest.hashed ++ arm rawTx⟩ else none

/-- The transactions of a block, in order. Deposits are not in the digest. -/
def addRecords {H D : Type} : BlockRecordsDigest → List (ProverRecord H D) → Option BlockRecordsDigest
  | digest, [] => some digest
  | digest, .tx t :: rest => do
    let digest ← digest.addTx t.record.rawTx
    addRecords digest rest
  | digest, .deposit _ :: rest => addRecords digest rest

def finish {H : Type} (C : StateCodec H) (digest : BlockRecordsDigest) : H := C.keccak digest.hashed

end BlockRecordsDigest

/-! ## The run -/

/-- What the guest takes from the virtual machine and from the encodings. Of a transaction the machine reads the bytes
and the sender; the fields of a receipt that only repeat the record are not repeated. -/
structure Machine (H D M Facts Fault : Type) where
  activationSlot : UInt64 → B256
  writeSetHash : WriteSet H → H
  chainStateCode : Bytes
  balRlp : BlockAccessList → Bytes
  /-- The first value of the bytes; what follows it is not looked at. -/
  balDecode : Bytes → Option BlockAccessList
  /-- Decode a transaction and recover its signer. -/
  recoverSigner : Bytes → Except Fault Address
  txHashMismatch : Bytes → Fault
  senderMismatch : Bytes → Fault
  transact : ExecEnv → Bytes → Address → EvmProgram H (Except Fault (Ran H Facts))
  depositFrom : D → Address
  depositMint : D → Nat
  isUpgrade : D → Bool
  transactDeposit : ExecEnv → D → EvmProgram H (Except Fault (Called H Facts))
  transactXchain : ExecEnv → UInt64 → M → EvmProgram H (Except Fault (Called H Facts))

/-- The records of the guest. -/
def payloads (H D M Facts Fault : Type) : Payloads := ⟨Placed (TxEnvelope H), Placed D, Placed M, Facts, Fault⟩

variable {H D M Facts Fault : Type} [LinearOrder H]

namespace Machine

section

variable (C : StateCodec H) (m : Machine H D M Facts Fault)

/-- `verify_record_identity`. -/
def verifyRecordIdentity (envelope : TxEnvelope H) : Except Fault Unit :=
  if C.keccak envelope.rawTx ≠ envelope.txHash then .error (m.txHashMismatch envelope.rawTx)
  else do
    let recovered ← m.recoverSigner envelope.rawTx
    if recovered ≠ envelope.sender then .error (m.senderMismatch envelope.rawTx) else .ok ()

def evm : Evm H (payloads H D M Facts Fault) where
  activationSlot := m.activationSlot
  writeSetHash := m.writeSetHash
  chainStateCode := m.chainStateCode
  balRlp := m.balRlp
  verifyRecordIdentity t := m.verifyRecordIdentity C (record t)
  transact env t := m.transact env (record t).rawTx (record t).sender
  depositFrom d := m.depositFrom (record d)
  depositMint d := m.depositMint (record d)
  isUpgrade d := m.isUpgrade (record d)
  transactDeposit env d := m.transactDeposit env (record d)
  transactXchain env origin message := m.transactXchain env origin (record message)

end

end Machine

/-- A record as the executor takes it. -/
def ProverRecord.buffered : ProverRecord H D → BufferedRecord (payloads H D M Facts Fault)
  | .tx t => .tx t
  | .deposit d => .deposit d

/-- The env of the block. It starts without flags: the execution reads them from the witness. -/
def ProverInput.env (input : ProverInput H D) : ExecEnv :=
  ⟨input.chainId, input.boundary.blockNumber, input.boundary.l2Timestamp, input.fees, ⟨false, false⟩⟩

structure GuestRun (H Facts : Type) where
  anchored : AnchoredBlockOutput H Facts
  recordsDigest : H

variable (C : StateCodec H) (m : Machine H D M Facts Fault)

def GuestBlock.run (input : ProverInput H D) : Option (GuestRun H Facts) := do
  let digest ← (new input.boundary.blockNumber).addRecords input.records
  let expectedBal ← m.balDecode input.balRlp
  match executeBlockAnchored C (m.evm C) input.witness input.proofs none (input.records.map buffered)
    input.env expectedBal input.granularity with
  | .ok anchored => some ⟨anchored, digest.finish C⟩
  | _ => none

/-- `PublicOutputs`, as the oracle on L1 reads them. -/
def GuestRun.publicOutputs (run : GuestRun H Facts) : L1.BlockValues H :=
  ⟨run.anchored.preStateRoot, run.anchored.postStateRoot, run.anchored.blockNumber.toNat, run.recordsDigest,
    run.anchored.balCommitment⟩

/-- What a run that returns did. -/
theorem GuestBlock.run_eq_some {C : StateCodec H} {m : Machine H D M Facts Fault} {input : ProverInput H D}
    {run : GuestRun H Facts} (h : GuestBlock.run C m input = some run) :
    ∃ digest expectedBal, (new input.boundary.blockNumber).addRecords input.records = some digest ∧
      run.recordsDigest = digest.finish C ∧
      executeBlockAnchored C (m.evm C) input.witness input.proofs none (input.records.map buffered)
        input.env expectedBal input.granularity = .ok run.anchored := by
  obtain ⟨digest, hdigest, h⟩ := bind_eq_some_iff.1 h
  obtain ⟨expectedBal, -, h⟩ := bind_eq_some_iff.1 h
  split at h
  case h_1 anchored hanchored =>
    cases h
    exact ⟨digest, expectedBal, hdigest, rfl, hanchored⟩
  case h_2 => cases h

end Kardamom.Guest
