import Kardamom.Lib.LinkedMap
import Kardamom.Wire.Basic

/-!
# What the receipts and the sealer tell the sequencer

The receipts of the senders of a shard prove floors, a rollback voids the floors above its block, and a
lookup answer counts only while no rollback came after its request. One drain turns what arrived into
lists for the publish loop, and ends at a rollback. The sealer's answers to the offers are sorted into
past nonces, gaps and window-full answers, with the expected nonce of a reject raised to the receipt
floor.

The triggers of the resync mode are not here: they decide a metric and no ref.
-/

namespace Kardamom.Sequencer

open Wire (Address B256)
open Words

/-- Why an executor skipped a transaction. -/
inductive SkipReason where
  | undecodable
  | nonceTooLow
  | nonceTooHigh
  | insufficientFunds
  | gasLimit
  | fee
  | initCodeSize
  | senderHasCode
  | otherTransaction
  | header
  deriving DecidableEq, Repr

/-- Where the evidence of an update comes from. -/
inductive Evidence where
  | receipt (block : UInt64)
  /-- A lookup answer, asked when the controller had seen `generation` rollbacks. -/
  | lookup (generation : UInt64)
  deriving DecidableEq, Repr

/-- Whether a rollback voids a lookup answer of an older generation. -/
def Evidence.staleAt (generation : UInt64) : Evidence → Bool
  | .lookup asked => decide (asked < generation)
  | .receipt _ => false

/-- What one update proves about its sender. -/
inductive FloorOutcome where
  | executed (nonce : UInt64)
  /-- Ordered, and no nonce used. -/
  | skipped (nonce : UInt64) (reason : SkipReason)
  | deposit
  deriving DecidableEq, Repr

namespace FloorOutcome

/-- The nonce whose publish this confirms. -/
def confirmed : FloorOutcome → Option UInt64
  | .executed nonce => some nonce
  | .skipped nonce _ => some nonce
  | .deposit => none

/-- The floor this proves. -/
def floor : FloorOutcome → Option UInt64
  | .executed nonce => some (satAdd64 nonce 1)
  | .skipped .. => none
  | .deposit => none

/-- The nonce the chain expects next after a skip that used none. -/
def released (floor : UInt64) : FloorOutcome → Option UInt64
  | .skipped nonce reason =>
    -- a late skip and a nonce that is too low prove nothing new
    if nonce < floor then none
    else
      match reason with
      | .nonceTooLow => none
      | .nonceTooHigh => some floor
      | _ => some nonce
  | .executed _ => none
  | .deposit => none

end FloorOutcome

/-- One executed-truth observation. -/
structure FloorUpdate where
  sender : Address
  outcome : FloorOutcome
  evidence : Evidence
  deriving DecidableEq, Repr

structure ReceiptRollback where
  /-- The last block whose receipts stay valid. -/
  toBlock : UInt64
  id : B256
  deriving DecidableEq, Repr

inductive FloorEvent where
  | update (u : FloorUpdate)
  | rollback (r : ReceiptRollback)
  deriving DecidableEq, Repr

/-- The floor of one sender and the evidence that set it. -/
structure Floor where
  nonce : UInt64
  evidence : Evidence
  deriving DecidableEq, Repr

/-- What one rollback event voids: the receipts above a block if it is new, and the older lookups. -/
structure Cut where
  toBlock : Option UInt64
  generation : UInt64

def Floor.voidedBy (f : Floor) (cut : Cut) : Bool :=
  match f.evidence with
  | .receipt block => cut.toBlock.any fun toBlock => decide (toBlock < block)
  | .lookup _ => f.evidence.staleAt cut.generation

/-- One drain of the receipts channel. -/
structure ReceiptDrain where
  raised : List (Address × UInt64)
  confirmations : List (Address × UInt64)
  released : List (Address × UInt64)
  forgotten : List Address
  staleLookups : List Address

def ReceiptDrain.empty : ReceiptDrain := ⟨[], [], [], [], []⟩

/-- Bound on the events of one drain. -/
def floorDrainPerIter : Nat := 1024

/-- The rollback events a consumer remembers. -/
def appliedRollbacksCap : Nat := 64

structure ResyncController where
  floors : LinkedMap Address Floor
  /-- The rollback events seen, copies included. -/
  generation : UInt64
  /-- The rollbacks applied, oldest first. -/
  rollbacks : List ReceiptRollback

namespace ResyncController

def new : ResyncController := ⟨.empty, 0, []⟩

variable (r : ResyncController)

def floor (sender : Address) : Option UInt64 := (r.floors.get? sender).map Floor.nonce

/-- Record a rollback; whether its id is new. -/
def firstTime (rollback : ReceiptRollback) : ResyncController × Bool :=
  if r.rollbacks.any fun x => x.id == rollback.id then (r, false)
  else
    let kept := if r.rollbacks.length = appliedRollbacksCap then r.rollbacks.tail else r.rollbacks
    ({ r with rollbacks := kept ++ [rollback] }, true)

/-- The events of one drain: a bounded number, and none after a rollback. -/
def takeFloorEvents : Nat → List FloorEvent → List FloorEvent
  | 0, _ => []
  | _, [] => []
  | _ + 1, .rollback x :: _ => [.rollback x]
  | max + 1, .update u :: rx => .update u :: takeFloorEvents max rx

section

variable (drain : ReceiptDrain)

/-- Forget the floors that a rollback voids. -/
def rollBack (rollback : ReceiptRollback) : ResyncController × ReceiptDrain :=
  let generation := satAdd64 r.generation 1
  let f := { r with generation := generation }.firstTime rollback
  let cut : Cut := ⟨if f.2 then some rollback.toBlock else none, generation⟩
  ({ f.1 with floors := f.1.floors.filter fun e => !e.2.voidedBy cut }, { drain with
      forgotten := drain.forgotten
        ++ (f.1.floors.entries.filter fun e => e.2.voidedBy cut).map Prod.fst })

/-- Raise the floor of a sender. -/
def raise (u : FloorUpdate) (floor : UInt64) : ResyncController × ReceiptDrain :=
  let e := (r.floors.get? u.sender).getD ⟨0, u.evidence⟩
  if e.nonce < floor then
    ({ r with floors := r.floors.put u.sender ⟨floor, u.evidence⟩ },
      { drain with raised := drain.raised ++ [(u.sender, floor)] })
  else ({ r with floors := r.floors.put u.sender e }, drain)

def foldFloorUpdate (u : FloorUpdate) : ResyncController × ReceiptDrain :=
  if u.evidence.staleAt r.generation then
    (r, { drain with staleLookups := drain.staleLookups ++ [u.sender] })
  else
    match u.outcome.confirmed with
    | none => (r, drain)
    | some nonce =>
      let released := (u.outcome.released ((r.floor u.sender).getD 0)).toList.map (u.sender, ·)
      let drain' : ReceiptDrain :=
        { drain with
          confirmations := drain.confirmations ++ [(u.sender, nonce)]
          released := drain.released ++ released }
      match u.outcome.floor with
      | none => (r, drain')
      | some floor => r.raise drain' u floor

end

def foldFloorEvent (acc : ResyncController × ReceiptDrain) : FloorEvent →
    ResyncController × ReceiptDrain
  | .update u => acc.1.foldFloorUpdate acc.2 u
  | .rollback x => acc.1.rollBack acc.2 x

/-- Drain the receipts channel. -/
def drainFloorUpdates (floorRx : List FloorEvent) : ResyncController × ReceiptDrain :=
  (takeFloorEvents floorDrainPerIter floorRx).foldl foldFloorEvent (r, .empty)

end ResyncController

/-! ## The sealer's answers -/

/-- What a client is told. -/
inductive TxErrorReason where
  | duplicatedTx (expectedNonce : UInt64)
  | evicted (expectedNonce : UInt64)
  | expired (expectedNonce : UInt64)
  | pastDeadline (maxInclusionBlock atBlock : UInt64)
  | daLag (sealedHead postedHead budgetBlocks : UInt64)
  | recordLag (sealedIndex recordedIndex budget : UInt64)
  | nonceInFlight (chainNonce : UInt64)
  | sealerNonceAhead (expectedNonce chainNonce : UInt64)
  deriving DecidableEq, Repr

/-- The sealer does not order the ref, for good. -/
structure SealerRefusal where
  sender : Address
  nonce : UInt64
  reason : TxErrorReason
  deriving DecidableEq, Repr

inductive SealerAnswer where
  | contiguityReject (sender : Address) (nonce expected : UInt64)
  | windowFull (sender : Address) (nonce : UInt64)
  deriving DecidableEq, Repr

/-- One drain of the rewind channel. -/
structure AnswerDrain where
  drops : List (Address × UInt64 × UInt64)
  /-- The lowest expected nonce of each sender with a gap. -/
  gaps : LinkedMap Address UInt64
  windowFull : List (Address × UInt64)

def AnswerDrain.empty : AnswerDrain := ⟨[], .empty, []⟩

def AnswerDrain.addReject (drain : AnswerDrain) (sender : Address) (nonce expected : UInt64) :
    AnswerDrain :=
  if nonce < expected then { drain with drops := drain.drops ++ [(sender, nonce, expected)] }
  else
    { drain with
      gaps := drain.gaps.put sender ((drain.gaps.get? sender).elim expected fun e => min e expected) }

namespace ResyncController

variable (r : ResyncController)

def foldAnswer (drain : AnswerDrain) : SealerAnswer → AnswerDrain
  | .contiguityReject sender nonce expected =>
    drain.addReject sender nonce (max ((r.floor sender).getD 0) expected)
  | .windowFull sender nonce => { drain with windowFull := drain.windowFull ++ [(sender, nonce)] }

def drainAnswers (answerRx : List SealerAnswer) : AnswerDrain :=
  (answerRx.take floorDrainPerIter).foldl r.foldAnswer .empty

def drainDeadlineRejects (deadlineRx : List SealerRefusal) : List SealerRefusal :=
  deadlineRx.take floorDrainPerIter

end ResyncController

/-! ## Senders behind the sealer's guard -/

/-- What a reject above the chain means. -/
inductive AheadVerdict where
  | stuck
  | inFlight
  deriving DecidableEq, Repr

/-- The first reject above the chain of each watched sender, and the chain nonce at it. -/
structure NonceAheadWatch where
  settle : Nat
  since : LinkedMap Address (UInt64 × Nat)

namespace NonceAheadWatch

/-- The most senders that are watched. -/
def capacity : Nat := 4096

variable (w : NonceAheadWatch)

section

variable (sender : Address) (chain : UInt64) (now : Nat)

/-- Start the settle time of a sender. A full map first drops the entries of ten settle times ago. -/
def start : NonceAheadWatch :=
  let since :=
    if capacity ≤ w.since.size then w.since.filter fun e => decide (now - e.2.2 < w.settle * 10)
    else w.since
  { w with
    since :=
      if since.size < capacity || since.contains sender then since.put sender (chain, now) else since }

/-- A reject of a sender above its chain nonce. -/
def observe : NonceAheadWatch × AheadVerdict :=
  let verdict (first : Nat) : AheadVerdict := if w.settle ≤ now - first then .stuck else .inFlight
  match w.since.get? sender with
  | some (atChain, first) =>
    if atChain = chain then (w, verdict first) else (w.start sender chain now, verdict now)
  | none => (w.start sender chain now, verdict now)

end

/-- The receipt floor rose: the old rejects say nothing. -/
def forget (sender : Address) : NonceAheadWatch := { w with since := w.since.remove sender }

end NonceAheadWatch

end Kardamom.Sequencer
