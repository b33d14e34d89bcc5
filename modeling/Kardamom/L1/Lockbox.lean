import Kardamom.L1.OutputOracle
import Kardamom.Lib.Merkle
import Kardamom.Lib.Metered
import Mathlib.Data.Nat.Log

/-!
# The lockbox

`ETHLockbox` pays a withdrawal out once, against an inclusion proof under an output of the output
oracle, and meters what leaves per window. The payment hands control to the target of the
withdrawal in the middle of the call, so the state is that of the lockbox and of every oracle
together (`Bridge`), and the calls of both contracts can be made from inside a payment.

The keccak hashes are parameters (`BridgeHash`); `withdrawalsRoot` is the tree builder of the
validator, whose roots the outputs commit to. The log `paid` records each payment with what it was
made under; a call that reverts takes its payments back with the rest.
-/

namespace Kardamom.L1

open Mpt (Address Bytes)
open Except Function

/-- An L2-to-L1 withdrawal. -/
structure WithdrawalTransaction where
  nonce : Nat
  sender : Address
  target : Address
  value : Nat
  deriving DecidableEq, Repr

/-- The keccak hashes of the bridge: `hashWithdrawal`, the leaf and the pair of the withdrawals tree,
and the output root of a state root and a withdrawals root; and the zero word. -/
structure BridgeHash (H : Type) where
  zero : H
  withdrawal : WithdrawalTransaction → H
  leaf : H → H
  node : H → H → H
  output : H → H → H

namespace BridgeHash

variable {H : Type} (K : BridgeHash H)

def tree : TreeHash H H := ⟨K.leaf, K.node⟩

/-- No collisions, and the zero word is the hash of nothing. -/
structure CollisionFree : Prop where
  tree : K.tree.CollisionFree
  output_inj : ∀ {a b c d}, K.output a b = K.output c d → a = c ∧ b = d
  leaf_ne_zero : ∀ {a}, K.leaf a ≠ K.zero
  node_ne_zero : ∀ {a b}, K.node a b ≠ K.zero

section

variable (leaves : List H)

/-- `Level::leaves`, before the hashing: padded with the zero leaf up to `next_power_of_two`. -/
def padLeaves : List H :=
  leaves ++ List.replicate (2 ^ Nat.clog 2 leaves.length - leaves.length) K.zero

/-- `withdrawals_root`. -/
def withdrawalsRoot : H :=
  if leaves = [] then K.zero
  else
    let level := (K.padLeaves leaves).map K.leaf
    ((K.tree.reduce level.length level)[0]?).getD K.zero

/-- `withdrawal_proof`. `none` is a panic: of the index check, or of a sibling out of range. -/
def withdrawalProof (index : Nat) : Option (List H) :=
  if index < leaves.length then
    let level := (K.padLeaves leaves).map K.leaf
    K.tree.siblings level.length level index
  else none

end

end BridgeHash

inductive LockboxError where
  | zeroDeposit
  | gasLimitBelowIntrinsic
  | alreadyFinalized
  | badInclusionProof
  | outputRootMismatch
  | notFinalizable
  | transferFailed
  | notUpgradeAuthority
  | egressCapExceeded
  | notFactory
  | invalidInitialization
  /-- A revert without a reason: ether sent to the lockbox, or a call to an address without code. -/
  | plain
  /-- Checked arithmetic that overflows, or a division by zero. -/
  | panicked
  | oracle (e : OracleError)
  deriving DecidableEq, Repr

/-- The storage of the lockbox. `initialized` is the version that `Initializable` keeps. -/
structure ETHLockbox (H : Type) where
  initialized : Nat
  depositNonce : UInt64
  l2Minter : Address
  outputOracle : Address
  finalizedWithdrawals : H → Bool
  upgradeNonce : UInt64
  egressCapPerWindow : Nat
  egressAccountCapPerWindow : Nat
  egressUsed : Nat → Nat
  egressUsedBy : Nat × Address → Nat

/-- A payment of the lockbox, with what it was made under: the call's arguments, the time, the caps,
and the oracle as it stood. -/
structure Payment (H : Type) where
  wtx : WithdrawalTransaction
  hash : H
  outputIndex : Nat
  stateRoot : H
  withdrawalsRoot : H
  leafIndex : Nat
  time : Nat
  cap : Nat
  accountCap : Nat
  oracle : WithdrawalOutputOracle H

/-- The egress window of a payment. -/
def Payment.windowId {H : Type} (p : Payment H) : Nat := p.time / p.oracle.finalizationWindow.toNat

/-- The lockbox with its ether, the oracles by address, the block time and the payments so far. -/
structure Bridge (H : Type) where
  now : Nat
  lockbox : ETHLockbox H
  balance : Nat
  oracles : Address → Option (WithdrawalOutputOracle H)
  paid : List (Payment H)

/-- `CalldataGas.intrinsicGas` without extra bytes. -/
def intrinsicGas (data : Bytes) : Nat :=
  let nonZero := data.countP (· ≠ 0)
  let zeros := data.length - nonZero
  max (21000 + 16 * nonZero + 4 * zeros) (21000 + 10 * (zeros + 4 * nonZero))

/-- Checked addition of 256-bit words. -/
def checkedAdd (a b : Nat) : Except LockboxError Nat :=
  if a + b < 2 ^ 256 then .ok (a + b) else .error .panicked

inductive LockboxCall (H : Type) where
  | initializeLockbox (l2Minter outputOracle : Address)
  | initializeV2 (outputOracle : Address)
  | receiveEther (value : Nat)
  | setEgressLimits (capPerWindow accountCapPerWindow : Nat)
  | depositETH (value : Nat) (recipient : Address) (gasLimit : UInt64) (data : Bytes)
  | initiateUpgrade (featureId : Nat) (activationTimestamp : UInt64)
  | finalizeWithdrawal (wtx : WithdrawalTransaction) (outputIndex : Nat)
      (stateRoot withdrawalsRoot : H) (leafIndex : Nat) (proof : List H)

/-- A call of one of the two contracts; an oracle is named by its address. `forceEther` is ether that
reaches the lockbox without a call. -/
inductive BridgeCall (H : Type) where
  | oracle (address : Address) (call : OracleCall H)
  | lockbox (call : LockboxCall H)
  | forceEther (value : Nat)

namespace Bridge

variable {H : Type} [DecidableEq H] (K : BridgeHash H) (factory owner : Address)

section

variable (s : Bridge H)

/-- The oracle that the lockbox reads, if there is a contract at that address. -/
def outputOracle : Except LockboxError (WithdrawalOutputOracle H) :=
  ofOption .plain (s.oracles s.lockbox.outputOracle)

/-- `egressWindowId`. -/
def egressWindowId : Except LockboxError Nat := do
  let oracle ← s.outputOracle
  require (oracle.finalizationWindow ≠ 0) .panicked
  return s.now / oracle.finalizationWindow.toNat

/-- A cap of `_recordEgress`: charge the value to its counter, unless the cap is disabled. -/
def charge {κ : Type} [DecidableEq κ] (cap : Nat) (used : κ → Nat) (k : κ) (value : Nat) :
    Except LockboxError (κ → Nat) :=
  if cap = 0 then .ok used
  else do
    let total ← checkedAdd (used k) value
    require (total ≤ cap) .egressCapExceeded
    return update used k total

/-- `_recordEgress`. -/
def recordEgress (l2Sender : Address) (value : Nat) : Except LockboxError (ETHLockbox H) :=
  let cap := s.lockbox.egressCapPerWindow
  let accountCap := s.lockbox.egressAccountCapPerWindow
  if cap = 0 ∧ accountCap = 0 then .ok s.lockbox
  else do
    let windowId ← s.egressWindowId
    let used ← charge cap s.lockbox.egressUsed windowId value
    let usedBy ← charge accountCap s.lockbox.egressUsedBy (windowId, l2Sender) value
    return { s.lockbox with egressUsed := used, egressUsedBy := usedBy }

/-- `_merkleRoot`. -/
def merkleRoot (leaf : H) (index : Nat) (proof : List H) : Except LockboxError H :=
  let walked := K.tree.climb (K.leaf leaf) index proof
  if walked.2 ≠ 0 then .error .badInclusionProof else .ok walked.1

/-- `finalizeWithdrawal` up to the point where it hands control to the target, with the ether sent. -/
def finalizeWithdrawal (wtx : WithdrawalTransaction) (outputIndex : Nat)
    (stateRoot withdrawalsRoot : H) (leafIndex : Nat) (proof : List H) :
    Except LockboxError (Bridge H) := do
  let wh := K.withdrawal wtx
  require (s.lockbox.finalizedWithdrawals wh = false) .alreadyFinalized
  let root ← merkleRoot K wh leafIndex proof
  require (root = withdrawalsRoot) .badInclusionProof
  let oracle ← s.outputOracle
  let output ← ofOption (.oracle .unknownOutput) oracle.outputs[outputIndex]?
  require (output.outputRoot = K.output stateRoot withdrawalsRoot) .outputRootMismatch
  require (oracle.isFinalizable s.now outputIndex = true) .notFinalizable
  let lockbox ← s.recordEgress wtx.sender wtx.value
  require (wtx.value ≤ s.balance) .transferFailed
  return { s with
    lockbox := { lockbox with
      finalizedWithdrawals := update lockbox.finalizedWithdrawals wh true }
    balance := s.balance - wtx.value
    paid := s.paid ++ [⟨wtx, wh, outputIndex, stateRoot, withdrawalsRoot, leafIndex, s.now,
      s.lockbox.egressCapPerWindow, s.lockbox.egressAccountCapPerWindow, oracle⟩] }

end

section

variable (sender : Address) (s : Bridge H)

/-- A call of the lockbox that hands no control out. `finalizeWithdrawal` is not one of them. -/
def lockboxCall : LockboxCall H → Except LockboxError (Bridge H)
  | .initializeLockbox l2Minter outputOracle => do
    require (s.lockbox.initialized = 0) .invalidInitialization
    return { s with lockbox := { s.lockbox with
      initialized := 1, l2Minter := l2Minter, outputOracle := outputOracle } }
  | .initializeV2 outputOracle => do
    require (s.lockbox.initialized < 2) .invalidInitialization
    require (sender = factory) .notFactory
    return { s with lockbox := { s.lockbox with initialized := 2, outputOracle := outputOracle } }
  | .receiveEther _ => .error .plain
  | .setEgressLimits capPerWindow accountCapPerWindow => do
    require (sender = factory) .notFactory
    return { s with lockbox := { s.lockbox with
      egressCapPerWindow := capPerWindow, egressAccountCapPerWindow := accountCapPerWindow } }
  | .depositETH value _ gasLimit data => do
    require (value ≠ 0) .zeroDeposit
    require (intrinsicGas data ≤ gasLimit.toNat) .gasLimitBelowIntrinsic
    return { s with
      balance := s.balance + value
      lockbox := { s.lockbox with depositNonce := s.lockbox.depositNonce + 1 } }
  | .initiateUpgrade _ _ => do
    require (sender = owner) .notUpgradeAuthority
    return { s with lockbox := { s.lockbox with upgradeNonce := s.lockbox.upgradeNonce + 1 } }
  | .finalizeWithdrawal .. => .error .plain

/-- A call of an oracle. -/
def oracleCall (address : Address) (call : OracleCall H) :
    Except LockboxError (Bridge H) :=
  match s.oracles address with
  | none => .error .plain
  | some oracle =>
    match oracle.exec factory ⟨sender, s.now⟩ call with
    | .error e => .error (.oracle e)
    | .ok oracle' => .ok { s with oracles := update s.oracles address (some oracle') }

end

/-- What a call does up to the point where it hands control out, if it does. -/
def enter (c : Address × BridgeCall H) (s : Bridge H) : Except LockboxError (Entered (Bridge H)) :=
  match c.2 with
  | .oracle address call => (oracleCall factory c.1 s address call).map .done
  | .lockbox (.finalizeWithdrawal wtx outputIndex stateRoot withdrawalsRoot leafIndex proof) =>
    (finalizeWithdrawal K s wtx outputIndex stateRoot withdrawalsRoot leafIndex proof).map .calling
  | .lockbox call => (lockboxCall factory owner c.1 s call).map .done
  | .forceEther value => .ok (.done { s with balance := s.balance + value })

/-- The two contracts, with every call of each. A target that reverts makes the payment revert. -/
def contract : Contract (Bridge H) (Address × BridgeCall H) LockboxError :=
  ⟨enter K factory owner, .transferFailed⟩

end Bridge

/-- What happens to the bridge: a transaction with everything it calls, or time. -/
inductive BridgeEvent (H : Type) where
  | transaction (t : CallTree (Address × BridgeCall H))
  | time (now : Nat)

/-- A transaction that reverts changes nothing; time does not go back. -/
def Bridge.step {H : Type} [DecidableEq H] (K : BridgeHash H) (factory owner : Address)
    (s : Bridge H) : BridgeEvent H → Bridge H × Option LockboxError
  | .transaction t =>
    match t.exec (Bridge.contract K factory owner) s with
    | .ok s' => (s', none)
    | .error e => (s, some e)
  | .time now => ({ s with now := max s.now now }, none)

end Kardamom.L1
