import Kardamom.L1.OutputOracle

/-!
# The proof oracle

`KardamomProofOracle` advances one root chain over the batches of the settlement contract, by batch
proofs or by bonded claims that finalize after a window. A challenge deletes a claim and every claim
built on it. `withdraw` hands control to the caller, so the calls are those of a `Contract` that can
be re-entered.

`KardamomL2Settlement` is modelled with it: a batch never changes once it is posted. The hashes and
the verifier of the proofs are parameters. `forced` counts the ether that reaches the contract without
a call, and `history` records why each root followed the one before it.
-/

namespace Kardamom.L1

open Mpt (Address)
open Except Function

/-- One posted batch. -/
structure BatchEntry (H : Type) where
  l2BlockStart : UInt64
  l2BlockEnd : UInt64
  recordsCommitment : H
  deriving DecidableEq, Repr

/-- The storage of the settlement contract; the batch with index `i` stands at `i - 1`. -/
structure KardamomL2Settlement (H : Type) where
  l1Batcher : Address
  batches : List (BatchEntry H)
  deriving DecidableEq, Repr

/-- `keccak256("KBAT" || ..)` of the block digests, `keccak256(abi.encode(..))` of the two arrays of
a claim, and the zero word. -/
structure OracleHash (H : Type) where
  zero : H
  foldDigests : List H → H
  sequence : List H → List H → H

structure OracleHash.CollisionFree {H : Type} (K : OracleHash H) : Prop where
  foldDigests_inj : ∀ {a b}, K.foldDigests a = K.foldDigests b → a = b
  sequence_inj : ∀ {a b c d}, K.sequence a b = K.sequence c d → a = c ∧ b = d

/-- The public values of a single-block proof. -/
structure BlockValues (H : Type) where
  preRoot : H
  postRoot : H
  blockNumber : Nat
  recordsDigest : H
  balCommitment : H
  deriving DecidableEq, Repr

/-- The public values of a batch proof. -/
structure BatchValues (H : Type) where
  preRoot : H
  postRoot : H
  firstBlock : Nat
  lastBlock : Nat
  recordsCommitment : H
  deriving DecidableEq, Repr

/-- `verifyProof` under the two verifying keys. -/
structure ProofVerifier (H P : Type) where
  block : BlockValues H → P → Bool
  batch : BatchValues H → P → Bool

structure Claim (H : Type) where
  claimer : Address
  bond : Nat
  claimedAt : UInt64
  preRoot : H
  finalRoot : H
  seqHash : H
  deriving DecidableEq, Repr

/-- Why the root changed: a claim finalized at a time, or a batch proof. -/
inductive RootChange (H P : Type) where
  | finalized (c : Claim H) (now : Nat)
  | proven (values : BatchValues H) (proof : P)

inductive ProofOracleError where
  | badPublicValuesLength
  | nonSequentialBatch
  | unknownBatch
  | rangeMismatch
  | recordsCommitmentMismatch
  | preRootMismatch
  | pendingClaimsExist
  | bondTooSmall
  | lengthMismatch
  | digestFoldMismatch
  | noSuchClaim
  | sequenceMismatch
  | windowNotElapsed
  | badOffset
  | blockNumberMismatch
  | blockDigestMismatch
  | proofAgreesWithClaim
  | nothingToWithdraw
  | withdrawTransferFailed
  | invalidProof
  | notBatcher
  | staleBatchIndex
  | emptyCert
  | badBlockRange
  /-- Checked arithmetic or an index out of range. -/
  | panicked
  /-- A call that no transaction can make: from the zero address, or with ether that is not there. -/
  | impossible
  deriving DecidableEq, Repr

/-- The storage and the ether of the oracle, the settlement contract it reads, and the time. -/
structure ProofOracle (H P : Type) where
  now : Nat
  settlement : KardamomL2Settlement H
  stateRoot : H
  lastFinalizedBatch : Nat
  highestClaimedBatch : Nat
  challengeWindow : UInt64
  minBond : Nat
  claims : Nat → Option (Claim H)
  withdrawable : Address → Nat
  balance : Nat
  forced : Nat
  history : List (RootChange H P)

inductive ProofOracleCall (H P : Type) where
  | claimBatch (value batchIndex : Nat) (blockRoots blockDigests : List H)
  | finalizeBatch (batchIndex : Nat)
  | challengeBlock (batchIndex blockOffset : Nat) (blockRoots blockDigests : List H)
      (publicValues : Option (BlockValues H)) (proof : P)
  | withdraw
  | submitBatchProof (batchIndex : Nat) (publicValues : Option (BatchValues H)) (proof : P)
  | postBatch (prevBatchIndex : Nat) (daCert : Mpt.Bytes) (l2BlockStart l2BlockEnd : UInt64)
      (recordsCommitment : H)
  | forceEther (value : Nat)

namespace ProofOracle

variable {H P : Type} [DecidableEq H] (K : OracleHash H) (V : ProofVerifier H P)

/-- `initialize`, on fresh storage, over a settlement contract without batches. -/
def initial (l1Batcher : Address) (genesisRoot : H) (challengeWindow : UInt64) (minBond : Nat) :
    ProofOracle H P :=
  ⟨0, ⟨l1Batcher, []⟩, genesisRoot, 0, 0, challengeWindow, minBond, fun _ => none, fun _ => 0, 0, 0, []⟩

section

variable (s : ProofOracle H P)

/-- `settlement.batches(index)`; an index without a batch reads as zeros. -/
def entry (index : Nat) : BatchEntry H :=
  if index = 0 then ⟨0, 0, K.zero⟩ else (s.settlement.batches[index - 1]?).getD ⟨0, 0, K.zero⟩

/-- The successor of a `uint64`, checked. -/
def checkedSucc (n : Nat) : Except ProofOracleError Nat :=
  if n + 1 < 2 ^ 64 then .ok (n + 1) else .error .panicked

/-- `withdrawable[account] += amount`, checked. -/
def credit (account : Address) (amount : Nat) :
    Except ProofOracleError (ProofOracle H P) :=
  if s.withdrawable account + amount < 2 ^ 256 then
    .ok { s with
      withdrawable := update s.withdrawable account (s.withdrawable account + amount) }
  else .error .panicked

/-- `delete claims[index]`. -/
def deleteClaim (index : Nat) : ProofOracle H P :=
  { s with claims := update s.claims index none }

end

/-- The number of blocks of a batch. -/
def blocksInBatch (e : BatchEntry H) : Except ProofOracleError Nat :=
  if e.l2BlockStart ≤ e.l2BlockEnd then .ok (e.l2BlockEnd.toNat - e.l2BlockStart.toNat + 1)
  else .error .panicked

section

variable (sender : Address)

def claimBatch (value batchIndex : Nat) (blockRoots blockDigests : List H)
    (s : ProofOracle H P) : Except ProofOracleError (ProofOracle H P) := do
  let next ← checkedSucc s.highestClaimedBatch
  require (batchIndex = next) .nonSequentialBatch
  require (s.minBond ≤ value ∧ value < 2 ^ 96) .bondTooSmall
  let e := s.entry K batchIndex
  require (e.recordsCommitment ≠ K.zero) .unknownBatch
  let blocks ← blocksInBatch e
  require (blockRoots.length = blocks ∧ blockDigests.length = blocks) .lengthMismatch
  require (K.foldDigests blockDigests = e.recordsCommitment) .digestFoldMismatch
  let first ← checkedSucc s.lastFinalizedBatch
  let preRoot := if batchIndex = first then s.stateRoot
    else ((s.claims (batchIndex - 1)).map (·.finalRoot)).getD K.zero
  let finalRoot ← ofOption .panicked blockRoots.getLast?
  require (s.balance + value < 2 ^ 256) .impossible
  return { s with
    claims := update s.claims batchIndex (some
      ⟨sender, value, uint64 s.now, preRoot, finalRoot, K.sequence blockRoots blockDigests⟩)
    highestClaimedBatch := batchIndex
    balance := s.balance + value }

section

variable (batchIndex : Nat)

def finalizeBatch (s : ProofOracle H P) :
    Except ProofOracleError (ProofOracle H P) := do
  let first ← checkedSucc s.lastFinalizedBatch
  require (batchIndex = first) .nonSequentialBatch
  let c ← ofOption .noSuchClaim (s.claims batchIndex)
  require (c.claimedAt.toNat + s.challengeWindow.toNat ≤ s.now) .windowNotElapsed
  let credited ← s.credit c.claimer c.bond
  return { credited.deleteClaim batchIndex with
    stateRoot := c.finalRoot
    lastFinalizedBatch := batchIndex
    history := s.history ++ [.finalized c s.now] }

/-- The root that block `blockOffset` of a claim starts from. -/
def expectedPre (claimPreRoot : H) (blockRoots : List H) (blockOffset : Nat) :
    Except ProofOracleError H :=
  if blockOffset = 0 then .ok claimPreRoot
  else ofOption .panicked blockRoots[blockOffset - 1]?

/-- `_checkRefutation`. -/
def checkRefutation (claimPreRoot : H) (batchIndex blockOffset : Nat)
    (blockRoots blockDigests : List H) (v : BlockValues H) (s : ProofOracle H P) :
    Except ProofOracleError Unit := do
  let claimed ← ofOption .panicked blockRoots[blockOffset]?
  let pre ← expectedPre claimPreRoot blockRoots blockOffset
  require (v.preRoot = pre) .preRootMismatch
  require (v.blockNumber = (s.entry K batchIndex).l2BlockStart.toNat + blockOffset)
    .blockNumberMismatch
  let digest ← ofOption .panicked blockDigests[blockOffset]?
  require (v.recordsDigest = digest) .blockDigestMismatch
  require (v.postRoot ≠ claimed) .proofAgreesWithClaim

/-- The loop of `_resolveChallenge`, over `count` claims from `i` on. -/
def cancelFrom : Nat → Nat → ProofOracle H P → Except ProofOracleError (ProofOracle H P)
  | 0, _, s => .ok s
  | count + 1, i, s =>
    match s.claims i with
    | none => cancelFrom count (i + 1) s
    | some dep => do
      let s' ← s.credit dep.claimer dep.bond
      cancelFrom count (i + 1) (s'.deleteClaim i)

/-- `_resolveChallenge`. The loop counts up to `highestClaimedBatch` with a checked counter. -/
def resolveChallenge (c : Claim H) (s : ProofOracle H P) :
    Except ProofOracleError (ProofOracle H P) := do
  let credited ← s.credit sender c.bond
  let first ← checkedSucc batchIndex
  require (first ≤ s.highestClaimedBatch → s.highestClaimedBatch + 1 < 2 ^ 64) .panicked
  let cancelled ← cancelFrom (s.highestClaimedBatch - batchIndex) first
    (credited.deleteClaim batchIndex)
  require (batchIndex ≠ 0) .panicked
  return { cancelled with highestClaimedBatch := batchIndex - 1 }

def challengeBlock (batchIndex blockOffset : Nat)
    (blockRoots blockDigests : List H) (publicValues : Option (BlockValues H)) (proof : P)
    (s : ProofOracle H P) : Except ProofOracleError (ProofOracle H P) := do
  let v ← ofOption .badPublicValuesLength publicValues
  let c ← ofOption .noSuchClaim (s.claims batchIndex)
  require (K.sequence blockRoots blockDigests = c.seqHash) .sequenceMismatch
  require (blockOffset < blockRoots.length) .badOffset
  s.checkRefutation K c.preRoot batchIndex blockOffset blockRoots blockDigests v
  require (V.block v proof = true) .invalidProof
  s.resolveChallenge sender batchIndex c

/-- `withdraw` up to the point where it hands control to the caller, with the ether sent. -/
def withdraw (s : ProofOracle H P) :
    Except ProofOracleError (ProofOracle H P) := do
  let amount := s.withdrawable sender
  require (amount ≠ 0) .nothingToWithdraw
  require (amount ≤ s.balance) .withdrawTransferFailed
  return { s with
    withdrawable := update s.withdrawable sender 0
    balance := s.balance - amount }

def submitBatchProof (publicValues : Option (BatchValues H)) (proof : P)
    (s : ProofOracle H P) : Except ProofOracleError (ProofOracle H P) := do
  let v ← ofOption .badPublicValuesLength publicValues
  let first ← checkedSucc s.lastFinalizedBatch
  require (batchIndex = first) .nonSequentialBatch
  require (s.highestClaimedBatch = s.lastFinalizedBatch) .pendingClaimsExist
  let e := s.entry K batchIndex
  require (e.recordsCommitment ≠ K.zero) .unknownBatch
  require (v.firstBlock = e.l2BlockStart.toNat ∧ v.lastBlock = e.l2BlockEnd.toNat) .rangeMismatch
  require (v.recordsCommitment = e.recordsCommitment) .recordsCommitmentMismatch
  require (v.preRoot = s.stateRoot) .preRootMismatch
  require (V.batch v proof = true) .invalidProof
  return { s with
    stateRoot := v.postRoot
    lastFinalizedBatch := batchIndex
    highestClaimedBatch := batchIndex
    history := s.history ++ [.proven v proof] }

end

/-- `KardamomL2Settlement.postBatch`. -/
def postBatch (prevBatchIndex : Nat) (daCert : Mpt.Bytes)
    (l2BlockStart l2BlockEnd : UInt64) (recordsCommitment : H) (s : ProofOracle H P) :
    Except ProofOracleError (ProofOracle H P) := do
  require (sender = s.settlement.l1Batcher) .notBatcher
  require (prevBatchIndex = s.settlement.batches.length) .staleBatchIndex
  require (daCert ≠ []) .emptyCert
  require (l2BlockStart ≤ l2BlockEnd) .badBlockRange
  let _ ← checkedSucc prevBatchIndex
  return { s with settlement := { s.settlement with
    batches := s.settlement.batches ++ [⟨l2BlockStart, l2BlockEnd, recordsCommitment⟩] } }

def forceEther (value : Nat) (s : ProofOracle H P) : Except ProofOracleError (ProofOracle H P) := do
  require (s.balance + value < 2 ^ 256) .impossible
  return { s with balance := s.balance + value, forced := s.forced + value }

/-- A call that hands no control out. `withdraw` is not one of them. -/
def plainCall : ProofOracleCall H P → ProofOracle H P →
    Except ProofOracleError (ProofOracle H P)
  | .claimBatch value index roots digests => claimBatch K sender value index roots digests
  | .finalizeBatch index => finalizeBatch index
  | .challengeBlock index offset roots digests values proof =>
    challengeBlock K V sender index offset roots digests values proof
  | .withdraw => fun _ => .error .impossible
  | .submitBatchProof index values proof => submitBatchProof K V index values proof
  | .postBatch prev cert first last commitment => postBatch sender prev cert first last commitment
  | .forceEther value => forceEther value

end

/-- What a call does up to the point where it hands control out, if it does. No call comes from the
zero address. -/
def enter (c : Address × ProofOracleCall H P) (s : ProofOracle H P) :
    Except ProofOracleError (Entered (ProofOracle H P)) :=
  if c.1 = 0 then .error .impossible
  else
    match c.2 with
    | .withdraw => (withdraw c.1 s).map .calling
    | call => (plainCall K V c.1 call s).map .done

def contract : Contract (ProofOracle H P) (Address × ProofOracleCall H P) ProofOracleError :=
  ⟨enter K V, .withdrawTransferFailed⟩

end ProofOracle

/-- What happens to the oracle: a transaction with everything it calls, or time. -/
inductive ProofOracleEvent (H P : Type) where
  | transaction (t : CallTree (Address × ProofOracleCall H P))
  | time (now : Nat)

/-- A transaction that reverts changes nothing; time does not go back. -/
def ProofOracle.step {H P : Type} [DecidableEq H] (K : OracleHash H) (V : ProofVerifier H P)
    (s : ProofOracle H P) : ProofOracleEvent H P → ProofOracle H P × Option ProofOracleError
  | .transaction t =>
    match t.exec (ProofOracle.contract K V) s with
    | .ok s' => (s', none)
    | .error e => (s, some e)
  | .time now => ({ s with now := max s.now now }, none)

end Kardamom.L1
