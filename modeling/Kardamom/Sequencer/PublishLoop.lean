import Kardamom.Sequencer.EpochPump
import Kardamom.Sequencer.PartitionState
import Kardamom.Sequencer.Resync
import Kardamom.Sequencer.UnconfirmedLedger

/-!
# The publish loop

One pass of the loop of a sequencer. It first applies what the receipts and the sealer say, then it
expires parked refs, then it publishes what drains from the buffers, and only when nothing drains does
it take an envelope off its lane. The publisher takes a prefix of each chunk; on back-pressure the
rest of the flush goes back into the buffers.

Every function returns a log beside the new state: what the loop took, offered and gave up, with the
reason, and what it told its clients. The log is not in the source; a ref that the source overwrites
in place (`replaced`) leaves a trace only here. The clock is read once per pass.
-/

namespace Kardamom.Sequencer

open Wire (Address B256)
open Words UnconfirmedLedger

/-- What a ref needs to be published, and published again. -/
structure RefMetadata where
  correlationId : UInt64
  txHash : B256
  lane : UInt8
  /-- The place of the envelope in its data lane. -/
  txDataPosition : Int64
  txDataSessionId : Int32
  maxInclusionBlock : UInt64
  tip : BitVec 128
  deriving DecidableEq, Repr

/-- Whether a refusal names this copy of the ref: a passed deadline names the copy with that deadline,
any other reason names every copy. -/
def RefMetadata.namedBy (reason : TxErrorReason) (m : RefMetadata) : Bool :=
  match reason with
  | .pastDeadline maxInclusionBlock _ => m.maxInclusionBlock == maxInclusionBlock
  | _ => true

structure TxError where
  sender : Address
  nonce : UInt64
  reason : TxErrorReason
  deriving DecidableEq, Repr

/-- What goes out on the side channels. -/
inductive Notice where
  | error (err : TxError)
  /-- The error, the rejected status and the drop of a transaction. -/
  | rejection (txHash : B256) (err : TxError)
  /-- The drop of a transaction whose nonce a receipt proves executed. -/
  | provenDrop (sender : Address) (nonce : UInt64) (txHash : B256)
  | offered (txHash : B256) (sender : Address) (nonce : UInt64)
  deriving DecidableEq, Repr

/-- How a ref ends. -/
inductive Ending where
  | confirmed
  | refused (reason : TxErrorReason)
  | belowFloor
  | expired
  | evicted
  /-- Another ref of the sender and nonce took its place. -/
  | replaced
  /-- The old shard publishes it. -/
  | suppressed
  /-- The publisher failed, and the loop with it. -/
  | abandoned
  deriving DecidableEq, Repr

/-- One entry of the log. -/
inductive LoopEvent where
  | took (r : Ref RefMetadata)
  | ended (r : Ref RefMetadata) (how : Ending)
  | told (notice : Notice)
  | lookup (sender : Address) (generation : UInt64)
  deriving DecidableEq, Repr

/-- A resize warm-up: the senders whose refs the old shard still publishes, and when it ends. -/
structure ShadowWindow where
  covers : Address → Bool
  untilTime : Nat

/-- The `Sequencer` of the source. -/
structure PublishLoop where
  confirmTimeout : Nat
  state : PartitionState RefMetadata
  resync : ResyncController
  unconfirmed : UnconfirmedLedger RefMetadata
  nonceAhead : NonceAheadWatch
  /-- A lookup of committed nonces is wired. -/
  lookup : Bool
  shadow : Option ShadowWindow

/-- What the publisher says about one chunk. -/
structure PublishAnswer where
  published : Nat
  err : Option SequencerError

/-- The envelope that a pass takes off its lane, after the decode and the fee gate. -/
structure Ingress where
  sender : Address
  nonce : UInt64
  payload : RefMetadata

/-- What one pass meets. -/
structure Pass where
  now : Nat
  floorRx : List FloorEvent
  deadlineRx : List SealerRefusal
  answerRx : List SealerAnswer
  paused : Bool
  /-- The order in which the drain visits the senders. -/
  order : List Address
  polled : Except SequencerError (Option Ingress)
  answers : List PublishAnswer

namespace PublishLoop

variable (σ : PublishLoop)

/-- A loop body over a list, with the logs one after the other. -/
def each {α : Type} (f : PublishLoop → α → PublishLoop × List LoopEvent) :
    List α → PublishLoop → PublishLoop × List LoopEvent
  | [], σ => (σ, [])
  | a :: as, σ =>
    let r := f σ a
    let r' := each f as r.1
    (r'.1, r.2 ++ r'.2)

/-! ## Side channels -/

def inShadow (sender : Address) : Bool := σ.shadow.any fun w => w.covers sender

/-- A notice about a sender; nothing goes out in shadow mode. -/
def tell (sender : Address) (notice : Notice) : List LoopEvent :=
  if σ.inShadow sender then [] else [.told notice]

def publishError (err : TxError) : List LoopEvent := σ.tell err.sender (.error err)

def publishRejection (txHash : B256) (err : TxError) : List LoopEvent :=
  σ.tell err.sender (.rejection txHash err)

section

variable (sender : Address) (nonce : UInt64)

def publishProvenDrop (txHash : B256) : List LoopEvent :=
  σ.tell sender (.provenDrop sender nonce txHash)

def reportExpired (txHash : B256) : List LoopEvent :=
  σ.publishRejection txHash ⟨sender, nonce, .expired (σ.state.nextNonce sender)⟩

def reportEvicted (txHash : B256) : List LoopEvent :=
  σ.publishRejection txHash ⟨sender, nonce, .evicted (σ.state.nextNonce sender)⟩

/-- A receipt floor above the nonce proves that it executed. -/
def provenExecuted : Bool := (σ.resync.floor sender).any fun f => decide (nonce < f)

end

def reportDuplicate (sender : Address) (nonce expectedNonce : UInt64) (txHash : B256) :
    List LoopEvent :=
  if σ.provenExecuted sender nonce then σ.publishProvenDrop sender nonce txHash
  else σ.publishRejection txHash ⟨sender, nonce, .duplicatedTx expectedNonce⟩

/-- Ask for the committed nonce of a sender with no receipt floor. -/
def requestLookup (sender : Address) : List LoopEvent :=
  if σ.lookup && (σ.resync.floor sender).isNone then [.lookup sender σ.resync.generation] else []

/-! ## Rewinds -/

/-- The end of the ref that a buffer holds at a nonce, as it is overwritten. -/
def displaced (s : PartitionState RefMetadata) (sender : Address) (nonce : UInt64) : List LoopEvent :=
  (s.slotAt sender nonce).toList.map fun slot => .ended (sender, nonce, slot.value) .replaced

/-- Put one ref back for a retry. -/
def reinsert (r : Ref RefMetadata) : PublishLoop × List LoopEvent :=
  ({ σ with state := σ.state.reinsertForRetry r.1 r.2.1 r.2.2 }, displaced σ.state r.1 r.2.1)

/-- Put refs that leave the ledger back for a retry. -/
def rewindForRepublish (entries : List (UnconfirmedKey × RefMetadata)) :
    PublishLoop × List LoopEvent :=
  each reinsert (entries.map refOf) σ

/-- Rewind what was taken out of the ledger. -/
def rewindTaken (t : UnconfirmedLedger RefMetadata × List (UnconfirmedKey × RefMetadata)) :
    PublishLoop × List LoopEvent :=
  { σ with unconfirmed := t.1 }.rewindForRepublish t.2

/-! ## The flush -/

/-- One ref that published. -/
def recordOnePublished (now : Nat) (r : Ref RefMetadata) : PublishLoop × List LoopEvent :=
  let old := (σ.unconfirmed.take (key r.1 r.2.1)).2.toList.map fun e =>
    LoopEvent.ended (refOf e) .replaced
  ({ σ with
      state := σ.state.clearRefused r.1 r.2.1
      unconfirmed := σ.unconfirmed.recordPublished now r.1 r.2.1 r.2.2 },
    .told (.offered r.2.2.txHash r.1 r.2.1) :: old)

/-- One ref that did not publish. A ref at a refused nonce does not go back: its client resubmits. -/
def rebufferOne (r : Ref RefMetadata) : PublishLoop × List LoopEvent :=
  if σ.state.isRefused r.1 r.2.1 then
    (σ, σ.reportEvicted r.1 r.2.1 r.2.2.txHash ++ [.ended r .evicted])
  else σ.reinsert r

/-- The most refs in one chunk. -/
def batchMax : Nat := 13

/-- What a flush did: the state, the log, the result, and the refs that did not publish. -/
structure Flushed where
  seq : PublishLoop
  log : List LoopEvent
  result : Except SequencerError Unit
  unpublished : List (Ref RefMetadata)

/-- Publish chunk by chunk. The publisher answers about the refs of the chunk, so it takes at most
those; after its last answer it takes no more. -/
def flushLoop (now : Nat) : List PublishAnswer → PublishLoop → List (Ref RefMetadata) → Flushed
  | _, σ, [] => ⟨σ, [], .ok (), []⟩
  | [], σ, r :: rest =>
    let b := each rebufferOne (r :: rest).reverse σ
    ⟨b.1, b.2, .error .backpressure, r :: rest⟩
  | a :: answers, σ, r :: rest =>
    let published := min a.published (min batchMax (r :: rest).length)
    let p := each (fun σ r => σ.recordOnePublished now r) ((r :: rest).take published) σ
    let left := (r :: rest).drop published
    match a.err with
    | none =>
      let f := flushLoop now answers p.1 left
      ⟨f.seq, p.2 ++ f.log, f.result, f.unpublished⟩
    | some .backpressure =>
      -- in reverse, so that the floor of each sender ends at its lowest unpublished nonce
      let b := each rebufferOne left.reverse p.1
      ⟨b.1, p.2 ++ b.2, .error .backpressure, left⟩
    | some e => ⟨p.1, p.2 ++ left.map fun r => .ended r .abandoned, .error e, left⟩

/-- Publish refs in order. The refs of a sender in shadow mode only moved the state. -/
def flushDrained (now : Nat) (answers : List PublishAnswer) (drained : List (Ref RefMetadata)) :
    Flushed :=
  let f := flushLoop now answers σ (drained.filter fun r => !σ.inShadow r.1)
  ⟨f.seq, ((drained.filter fun r => σ.inShadow r.1).map fun r => .ended r .suppressed) ++ f.log,
    f.result, f.unpublished⟩

/-! ## Receipts -/

section

variable (c : Address × UInt64)

/-- A receipt confirms refs. -/
def confirmOne : PublishLoop × List LoopEvent :=
  let r := σ.unconfirmed.confirmThrough c.1 c.2
  ({ σ with unconfirmed := r.1 }, r.2.map fun e => .ended (refOf e) .confirmed)

/-- A skip releases a floor. -/
def applyOneRelease : PublishLoop × List LoopEvent :=
  ({ σ with state := (σ.state.releaseFloor c.1 c.2).1 }, [])

/-- A receipt raises a floor. The refs below it drop. -/
def applyOneFloorUpdate : PublishLoop × List LoopEvent :=
  let r := σ.state.advanceFloor c.1 c.2
  let σ' := { σ with nonceAhead := σ.nonceAhead.forget c.1, state := r.1 }
  (σ', (r.2.elim [] Prod.snd).flatMap fun e =>
    .ended (c.1, e) .belowFloor :: σ'.publishProvenDrop c.1 e.1 e.2.txHash)

end

/-- A rollback voids a floor. -/
def forgetOneFloor (sender : Address) : PublishLoop × List LoopEvent :=
  ({ σ with
      nonceAhead := σ.nonceAhead.forget sender
      state := (σ.state.forgetFloor sender).1 }, [])

/-- The receipts of one drain, without the floors that a rollback voids. -/
def applyReceipts (drain : ReceiptDrain) : PublishLoop × List LoopEvent :=
  let c := each confirmOne drain.confirmations σ
  let l := each applyOneRelease drain.released c.1
  let u := each applyOneFloorUpdate drain.raised l.1
  (u.1, c.2 ++ l.2 ++ u.2)

/-- Apply one drain of the receipts. The floors that a rollback voids go last. -/
def applyReceiptDrain (drain : ReceiptDrain) : PublishLoop × List LoopEvent :=
  let a := σ.applyReceipts drain
  let f := each forgetOneFloor drain.forgotten a.1
  (f.1, a.2 ++ f.2)

/-! ## The sealer's answers -/

/-- Take a refused ref out of the ledger, or out of the buffer, and mark its nonce. -/
def takeRefused (refusal : SealerRefusal) : PublishLoop × Option RefMetadata :=
  let named := RefMetadata.namedBy refusal.reason
  let t := σ.unconfirmed.takeNamed refusal.sender refusal.nonce named
  match t.2 with
  | some m =>
    ({ σ with
        unconfirmed := t.1
        state := σ.state.markRefused refusal.sender refusal.nonce }, some m)
  | none =>
    let p := σ.state.takeParked refusal.sender refusal.nonce named
    match p.2 with
    | some m =>
      ({ σ with
          unconfirmed := t.1
          state := p.1.markRefused refusal.sender refusal.nonce }, some m)
    | none => ({ σ with unconfirmed := t.1, state := p.1 }, none)

/-- One refusal of the sealer. -/
def reportRefusal (refusal : SealerRefusal) : PublishLoop × List LoopEvent :=
  let t := σ.takeRefused refusal
  let err : TxError := ⟨refusal.sender, refusal.nonce, refusal.reason⟩
  match t.2 with
  | some m =>
    (t.1, .ended (refusal.sender, refusal.nonce, m) (.refused refusal.reason)
      :: t.1.publishRejection m.txHash err)
  | none => (t.1, t.1.publishError err)

section

variable (now : Nat)

section

variable (sender : Address)

/-- The verdict on a reject below the expected nonce. -/
def pastVerdict (expected chain : UInt64) : PublishLoop × AheadVerdict :=
  let inFlight := UInt64.ofNat (σ.unconfirmed.countFrom sender chain)
  if expected ≤ satAdd64 chain inFlight then (σ, .inFlight)
  else
    let o := σ.nonceAhead.observe sender chain now
    ({ σ with nonceAhead := o.1 }, o.2)

/-- One reject below the expected nonce. -/
def applyPastReject (past : Address × UInt64 × UInt64) : PublishLoop × List LoopEvent :=
  let chain := (σ.resync.floor past.1).getD 0
  if σ.unconfirmed.contains past.1 past.2.1 then
    let v := σ.pastVerdict now past.1 past.2.2 chain
    let reason : TxErrorReason :=
      match v.2 with
      | .stuck => .sealerNonceAhead past.2.2 chain
      | .inFlight => .nonceInFlight chain
    v.1.reportRefusal ⟨past.1, past.2.1, reason⟩
  else (σ, [])

/-- Rewind the refs of a sender from a nonce on. -/
def rewindOneGap (expected : UInt64) : PublishLoop × List LoopEvent :=
  σ.rewindTaken (σ.unconfirmed.takeGapRewinds sender expected)

/-- The ends of the buffered refs that the later refs of a freed nonce overwrite. -/
def displacedBy (dueAt : Nat) (sender : Address) : List (UInt64 × RefMetadata) →
    PartitionState RefMetadata → List LoopEvent
  | [], _ => []
  | e :: later, s =>
    displaced s sender e.1 ++ displacedBy dueAt sender later (s.parkFreed dueAt sender e)

/-- Free a nonce that nobody here holds: the later refs leave the ledger and park. -/
def freeNonce (nonce : UInt64) : PublishLoop × List LoopEvent :=
  let t := σ.unconfirmed.takeGapRewinds sender nonce
  let later := t.2.map fun e => ((ofLex e.1).2, e.2)
  let s := σ.state.freeFloor sender nonce
  ({ σ with unconfirmed := t.1, state := σ.state.freeNonce now ⟨sender, nonce, later⟩ },
    displacedBy (now + s.txTtl) sender later s)

end

/-- One gap: the sealer expects a nonce. -/
def applyGap (gap : Address × UInt64) : PublishLoop × List LoopEvent :=
  if σ.unconfirmed.contains gap.1 gap.2 || σ.state.holds gap.1 gap.2 then
    σ.rewindOneGap gap.1 gap.2
  else σ.freeNonce now gap.1 gap.2

/-- One window-full answer. -/
def republishHeld (full : Address × UInt64) : PublishLoop × List LoopEvent :=
  if σ.unconfirmed.contains full.1 full.2 then σ.rewindOneGap full.1 full.2 else (σ, [])

def applySealerAnswers (drain : AnswerDrain) : PublishLoop × List LoopEvent :=
  let d := each (fun σ x => σ.applyPastReject now x) drain.drops σ
  let g := each (fun σ x => σ.applyGap now x) drain.gaps.entries d.1
  let w := each republishHeld drain.windowFull g.1
  (w.1, d.2 ++ g.2 ++ w.2)

end

/-! ## The pass -/

/-- Rewind the refs past the confirm timeout. -/
def sweepConfirmTimeouts (now : Nat) : PublishLoop × List LoopEvent :=
  σ.rewindTaken (σ.unconfirmed.sweepExpired σ.confirmTimeout now 256)

section

variable (p : Pass)

/-- The state and the receipts drain at the start of a pass. -/
def startPass : PublishLoop × ReceiptDrain :=
  let r := σ.resync.drainFloorUpdates p.floorRx
  ({ σ with resync := r.1 }, r.2)

/-- Receipts, refusals, answers, lookups and timeouts. -/
def resyncTick : PublishLoop × List LoopEvent :=
  let s := σ.startPass p
  let a := s.1.applyReceiptDrain s.2
  let d := each reportRefusal (ResyncController.drainDeadlineRejects p.deadlineRx) a.1
  let w := d.1.applySealerAnswers p.now (d.1.resync.drainAnswers p.answerRx)
  let l := each (fun σ x => (σ, σ.requestLookup x)) (s.2.forgotten ++ s.2.staleLookups) w.1
  let c := l.1.sweepConfirmTimeouts p.now
  (c.1, a.2 ++ d.2 ++ w.2 ++ l.2 ++ c.2)

/-- One expired ref. -/
def expireOne (r : Ref RefMetadata) : PublishLoop × List LoopEvent :=
  (σ, .ended r .expired :: σ.reportExpired r.1 r.2.1 r.2.2.txHash)

/-- Expire parked refs, and end a warm-up that has passed. -/
def expiryTick (now : Nat) : PublishLoop × List LoopEvent :=
  let e := σ.state.sweepExpired now 256
  let r := each expireOne e.2 { σ with state := e.1 }
  ({ r.1 with shadow := r.1.shadow.filter fun w => decide (now < w.untilTime) }, r.2)

/-- What the outcome of the nonce check says about the refs, and to the clients. `σ` is the state
before the check and `σ'` the one after it. -/
def handleOutcome (σ σ' : PublishLoop) (i : Ingress) : NonceOutcome RefMetadata → List LoopEvent
  | .matched =>
    -- a ref that was buffered at the nonce goes out in place of this one
    let lost := (σ.state.slotAt i.sender i.nonce).toList.map fun _ =>
      LoopEvent.ended (i.sender, i.nonce, i.payload) .replaced
    .took (i.sender, i.nonce, i.payload) :: lost
  | .reoffered => [.took (i.sender, i.nonce, i.payload)]
  | .buffered => .took (i.sender, i.nonce, i.payload) :: σ'.requestLookup i.sender
  | .bufferedReplaced =>
    .took (i.sender, i.nonce, i.payload) :: displaced σ.state i.sender i.nonce ++ σ'.requestLookup i.sender
  | .bufferedEvicting evictedNonce evicted =>
    .took (i.sender, i.nonce, i.payload) :: .ended (i.sender, evictedNonce, evicted) .evicted
      :: σ'.requestLookup i.sender ++ σ'.reportEvicted i.sender evictedNonce evicted.txHash
  | .rejectedTooFar nonce => σ'.reportEvicted i.sender nonce i.payload.txHash
  | .bufferedDisabled => []
  | .past => []

/-- The refs of the publish actions, and the reports of the others. -/
def collectPublishes (i : Ingress) (actions : List (ProcessAction RefMetadata)) :
    List (Ref RefMetadata) × List LoopEvent :=
  (actions.filterMap fun
    | .publish n payload => some (i.sender, n, payload)
    | .reportDuplicate .. => none,
  actions.flatMap fun
    | .publish .. => []
    | .reportDuplicate n expected => σ.reportDuplicate i.sender n expected i.payload.txHash)

/-- Seed a sender that has no floor. -/
def seedCold (sender : Address) : PublishLoop :=
  if (σ.state.nextNonceKnown sender).isNone then
    { σ with state := σ.state.seedNextNonce sender 0 }
  else σ

/-- One envelope. -/
def ingest (i : Ingress) : Flushed :=
  let σ₀ := σ.seedCold i.sender
  let r := σ₀.state.processAt p.now i.sender i.nonce i.payload
  let σ₁ := { σ₀ with state := r.1 }
  let c := σ₁.collectPublishes i r.2.actions
  let f := σ₁.flushDrained p.now p.answers c.1
  ⟨f.seq, handleOutcome σ₀ σ₁ i r.2.outcome ++ c.2 ++ f.log, f.result, f.unpublished⟩

/-- What a pass did. -/
structure Passed where
  log : List LoopEvent
  result : Except SequencerError Bool
  /-- The refs that a flush gave back. -/
  unpublished : List (Ref RefMetadata)

/-- What a pass does before it publishes. -/
def tick : PublishLoop × List LoopEvent :=
  let t := σ.resyncTick p
  let e := t.1.expiryTick p.now
  (e.1, t.2 ++ e.2)

/-- The refs that drain from the buffers. -/
def drain (order : List Address) : PublishLoop × List (Ref RefMetadata) :=
  let d := σ.state.drainPending order
  ({ σ with state := d.1 }, d.2)

/-- Publish what drains, or else take an envelope. -/
def work : PublishLoop × Passed :=
  let d := σ.drain p.order
  if d.2.isEmpty then
    match p.polled with
    | .error err => (d.1, ⟨[], .error err, []⟩)
    | .ok none => (d.1, ⟨[], .ok false, []⟩)
    | .ok (some i) =>
      let f := d.1.ingest p i
      (f.seq, ⟨f.log, f.result.map fun _ => true, f.unpublished⟩)
  else
    let f := d.1.flushDrained p.now p.answers d.2
    (f.seq, ⟨f.log, f.result.map fun _ => true, f.unpublished⟩)

/-- One pass of the loop. -/
def runOnce : PublishLoop × Passed :=
  let t := σ.tick p
  if p.paused then (t.1, ⟨t.2, .ok false, []⟩)
  else
    let w := t.1.work p
    (w.1, ⟨t.2 ++ w.2.log, w.2.result, w.2.unpublished⟩)

end

/-- A sequencer that starts. -/
def start (confirmTimeout maxPendingPerSender txTtl settle : Nat) (lookup : Bool)
    (shadow : Option ShadowWindow) : PublishLoop where
  confirmTimeout := confirmTimeout
  state := .new maxPendingPerSender txTtl
  resync := .new
  unconfirmed := .new
  nonceAhead := ⟨settle, .empty⟩
  lookup := lookup
  shadow := shadow

/-- A pass in which nothing arrives. -/
def quietPass (now : Nat) : Pass := ⟨now, [], [], [], false, [], .ok none, []⟩

/-- The metadata of a ref, told apart by its hash. -/
def sampleMeta (txHash : B256) : RefMetadata := ⟨0, txHash, 0, 0, 0, 100, 0⟩

end PublishLoop

end Kardamom.Sequencer
