import Kardamom.Reader.Ordered

/-!
# The ordering reader

The reader takes the items of the canonical order, joins each reference with its envelope and hands the
slots to the exec thread. An entry whose envelope every archive refuses is voted void; the reader reads
ahead until the order carries the void record, and dispatches what it read in order afterwards. The exec
thread counts the slots it receives and compares its count with each boundary.
-/

namespace Kardamom.Reader

open Wire

/-- The reference that a receipt of a canonical entry keeps: no archive holds the entry. -/
def canonicalTxRef (tx : CanonicalTx) : TxRef := ⟨tx.canonicalId, tx.lane, .fromIndex 0, 0⟩

/-- A message of the reader to the exec thread. -/
inductive ReaderToExec where
  | tx (envelope : TxEnvelope) (position : BPosition) (txRef : TxRef)
  | deposit (d : Deposit)
  | epoch (e : EpochRecord)
  | remoteEpoch (r : RemoteEpochRecord)
  | xchain (originChainId : UInt64) (message : XChainMessage)
  | vacant (position : BPosition)
  | boundary (b : BlockBoundaryStart)
  deriving DecidableEq, Repr

/-- An item of the executor stream. -/
inductive ExecStreamItem where
  | record (index : UInt64) (txRef : TxRef) (envelope : TxEnvelope)
  | passed (through : UInt64)
  deriving DecidableEq, Repr

/-- How a join ended. -/
inductive JoinOutcome where
  | joined (envelope : TxEnvelope)
  | unjoinable
  | timedOut
  deriving DecidableEq, Repr

/-- Continue the loop, stop cleanly, or stop with an error. -/
inductive Flow where
  | proceed
  | stop
  | fail (e : ExecutorError)
  deriving DecidableEq, Repr

/-- Items with their positions, as a subscription yields them. -/
abbrev ReadAhead := List (BPosition × Ordered)

/-- What the world answers to the reader. -/
structure ReaderWorld where
  /-- How the join of the entry at a position ends. -/
  join : BPosition → Except ExecutorError JoinOutcome
  /-- The clock of the wait for the void record of an entry: its readings before the deadline, each with
  whether the vote is due again. -/
  clock : BPosition → List Bool
  /-- What the subscription answers behind its last item: a clean close or an error. -/
  ending : ExecutorError

/-- The read-ahead bound, in messages. -/
def maxReadAhead : Nat := 65536

/-- How a wait for a void record ended. -/
inductive ParkOutcome where
  | voided
  | gaveUp
  deriving DecidableEq, Repr

/-- One wait for the void record of one entry. -/
structure VoidPark where
  sub : ReadAhead
  backlog : ReadAhead
  voterId : UInt8
  void : VoidRecord
  ahead : ReadAhead
  votes : List (UInt8 × VoidRecord)

namespace VoidPark

/-- Send the vote. -/
def vote (p : VoidPark) : VoidPark := { p with votes := p.votes ++ [(p.voterId, p.void)] }

/-- Read one message ahead: from the backlog first, then from the subscription. -/
def next (p : VoidPark) : Option ((BPosition × Ordered) × VoidPark) :=
  match p.backlog, p.sub with
  | read :: rest, _ => some (read, { p with backlog := rest })
  | [], read :: rest => some (read, { p with sub := rest })
  | [], [] => none

/-- Keep a message that was read ahead. -/
def keep (p : VoidPark) (read : BPosition × Ordered) : VoidPark := { p with ahead := p.ahead ++ [read] }

/-- Read ahead until the void record comes or the wait ends. -/
def wait (ending : ExecutorError) : List Bool → VoidPark → VoidPark × Except ExecutorError ParkOutcome
  | [], p => (p, .ok .gaveUp)
  | revote :: clock, p =>
    if maxReadAhead ≤ p.ahead.length then (p, .ok .gaveUp)
    else
      let p := if revote then p.vote else p
      match p.next with
      | none => (p, .error ending)
      | some (read, p') =>
        if read.2.asVoid = some p.void then (p'.keep read, .ok .voided)
        else wait ending clock (p'.keep read)

/-- Vote, then wait. The backlog ends with every message read, in canonical order. -/
def run (p : VoidPark) (ending : ExecutorError) (clock : List Bool) :
    VoidPark × Except ExecutorError ParkOutcome :=
  match wait ending clock p.vote with
  | (p', .ok outcome) => ({ p' with backlog := p'.ahead ++ p'.backlog, ahead := [] }, .ok outcome)
  | (p', .error e) => (p', .error e)

end VoidPark

/-- The state of the ordering reader, with what it sent. -/
structure TxOrderingReader where
  sub : ReadAhead
  voterId : Option UInt8
  joinTimeoutMs : Nat
  firstIndex : Option UInt64
  backlog : ReadAhead
  dropped : Finset UInt64
  votes : List (UInt8 × VoidRecord)
  /-- How many messages the exec thread still takes; `none` when it stays. -/
  execRoom : Option Nat
  /-- How many items the executor stream still takes; `none` when it stays. -/
  streamRoom : Option Nat
  sent : List ReaderToExec
  streamed : List ExecStreamItem

namespace TxOrderingReader

/-- Take one place of a sink. -/
def takeRoom : Option Nat → Option (Option Nat)
  | none => some none
  | some 0 => none
  | some (n + 1) => some (some n)

/-- Send one message to the exec thread. -/
def send (r : TxOrderingReader) (msg : ReaderToExec) : TxOrderingReader × Flow :=
  match takeRoom r.execRoom with
  | none => (r, .stop)
  | some room => ({ r with execRoom := room, sent := r.sent ++ [msg] }, .proceed)

def streamClosed : ExecutorError := .state "the executor stream publisher stopped"

/-- Send one item to the executor stream. -/
def stream (r : TxOrderingReader) (item : ExecStreamItem) : TxOrderingReader × Flow :=
  match takeRoom r.streamRoom with
  | none => (r, .fail streamClosed)
  | some room => ({ r with streamRoom := room, streamed := r.streamed ++ [item] }, .proceed)

/-- Go on with `f` if the reader goes on. -/
def andThen (out : TxOrderingReader × Flow) (f : TxOrderingReader → TxOrderingReader × Flow) :
    TxOrderingReader × Flow :=
  match out.2 with
  | .proceed => f out.1
  | _ => out

/-- Send the record of one joined entry to the executor stream, then the entry to the exec thread. -/
def sendJoined (r : TxOrderingReader) (position : BPosition) (txRef : TxRef) (env : TxEnvelope) :
    TxOrderingReader × Flow :=
  andThen (r.stream (.record position.asIndex txRef env)) fun r => r.send (.tx env position txRef)

/-- Dispatch the items of a marker. -/
def sendExpanded (r : TxOrderingReader) : List ReaderToExec → TxOrderingReader × Flow
  | [] => (r, .proceed)
  | msg :: msgs => andThen (r.send msg) fun r => r.sendExpanded msgs

def joinTimeout (r : TxOrderingReader) (txRef : TxRef) : ExecutorError :=
  .joinTimeout txRef.shardId txRef.txDataPosition r.joinTimeoutMs

/-- The reader after a wait. -/
def parked (r : TxOrderingReader) (p : VoidPark) : TxOrderingReader :=
  { r with sub := p.sub, backlog := p.backlog, votes := p.votes }

section

variable (W : ReaderWorld) (r : TxOrderingReader) (txRef : TxRef) (position : BPosition)

/-- An entry that every archive refused: vote, wait for the void record, and send a vacant slot. -/
def onUnjoinable : TxOrderingReader × Flow :=
  match r.voterId with
  | none => (r, .fail (r.joinTimeout txRef))
  | some voterId =>
    let void : VoidRecord := ⟨position.asIndex, txRef.txHash⟩
    let park : VoidPark := ⟨r.sub, r.backlog, voterId, void, [], r.votes⟩
    match park.run W.ending (W.clock position) with
    | (p, .ok .voided) =>
      send { r.parked p with dropped := insert void.index r.dropped } (.vacant position)
    | (p, .ok .gaveUp) => (r.parked p, .fail (r.joinTimeout txRef))
    | (p, .error .txOrderingClosed) => (r.parked p, .stop)
    | (p, .error e) => (r.parked p, .fail e)

/-- A reference: join it, and dispatch the envelope. -/
def onTxRef : TxOrderingReader × Flow :=
  match W.join position with
  | .error e => (r, .fail e)
  | .ok (.joined env) => r.sendJoined position txRef env
  | .ok .unjoinable => r.onUnjoinable W txRef position
  | .ok .timedOut => (r, .fail (r.joinTimeout txRef))

end

/-- A void record: of an entry that this reader dropped, or of one that an earlier run passed. -/
def onVoid (r : TxOrderingReader) (void : VoidRecord) (position : BPosition) : TxOrderingReader × Flow :=
  if void.index ∉ r.dropped ∧ ¬ r.firstIndex.any (void.index < ·) then
    (r, .fail (.voidOfExecutedEntry void.index void.txHash))
  else send { r with dropped := r.dropped.erase void.index } (.vacant position)

section

variable (W : ReaderWorld) (r : TxOrderingReader)

/-- Dispatch one item to its handler. -/
def dispatch (position : BPosition) :
    Ordered → TxOrderingReader × Flow
  | .message (.txRef txRef) => r.onTxRef W txRef position
  | .message (.epoch e) => r.sendExpanded (.epoch e :: e.deposits.map .deposit)
  | .message (.remoteEpoch rec) =>
    r.sendExpanded (.remoteEpoch rec :: rec.messages.toList.map (.xchain rec.originChainId))
  | .message (.void v) => r.onVoid v position
  | .message (.depositRef d) =>
    (r, .fail (.state ("legacy DepositRef " ++ d.sourceHash.display
      ++ ": deposits are carried by epochs on this chain")))
  | .message (.boundaryStart b) => r.send (.boundary b)
  | .tx tx => r.sendJoined position (canonicalTxRef tx) tx.envelope

/-- The last canonical slot that an item takes. -/
def lastSlot (position : BPosition) (item : Ordered) : Option UInt64 :=
  if item.isBoundary then none
  else if position.asIndex.toNat + (item.slots - 1) < 2 ^ 64 then
    some (.ofNat (position.asIndex.toNat + (item.slots - 1)))
  else none

/-- Send the progress mark of a dispatched item, when it takes a slot. -/
def mark (r : TxOrderingReader) : Option UInt64 → TxOrderingReader × Flow
  | none => (r, .proceed)
  | some through => r.stream (.passed through)

/-- Dispatch an item that was read. -/
def handle (read : BPosition × Ordered) : TxOrderingReader × Flow :=
  let r := { r with firstIndex := some (r.firstIndex.getD read.1.asIndex) }
  andThen (r.dispatch W read.1 read.2) fun r => r.mark (lastSlot read.1 read.2)

/-- One receive-then-dispatch step: the backlog first, then the subscription. -/
def step : TxOrderingReader × Flow :=
  match r.backlog, r.sub with
  | read :: rest, _ => handle W { r with backlog := rest } read
  | [], read :: rest => handle W { r with sub := rest } read
  | [], [] => (r, if W.ending = .txOrderingClosed then .stop else .fail W.ending)

end

/-- At most `n` steps of the loop. -/
def runSteps (W : ReaderWorld) : Nat → TxOrderingReader → TxOrderingReader × Flow
  | 0, r => (r, .proceed)
  | n + 1, r => andThen (r.step W) (runSteps W n)

/-- A new reader of a subscription. -/
def new (sub : ReadAhead) (voterId : Option UInt8) (joinTimeoutMs : Nat)
    (execRoom streamRoom : Option Nat) : TxOrderingReader where
  sub := sub
  voterId := voterId
  joinTimeoutMs := joinTimeoutMs
  firstIndex := none
  backlog := []
  dropped := ∅
  votes := []
  execRoom := execRoom
  streamRoom := streamRoom
  sent := []
  streamed := []

end TxOrderingReader

/-! ## The count of the exec thread -/

namespace ExecCount

section

variable (next : Nat)

/-- Allot the next record index. -/
def nextIdx : Except ExecutorError Nat :=
  if next + 1 < 2 ^ 64 then .ok (next + 1) else .error .txIndexOverflow

/-- Compare the count that the boundary declares with the own one. -/
def checkAlignment («end» : BPosition) : Except ExecutorError Nat :=
  if «end».asIndex.toNat = next then .ok next
  else .error (.boundaryMisaligned «end» (.fromIndex (.ofNat next)))

/-- The count after one message: every message but a boundary takes one slot. -/
def receive : ReaderToExec → Except ExecutorError Nat
  | .boundary b => checkAlignment next b.endTxIdx
  | .tx .. | .deposit _ | .epoch _ | .remoteEpoch _ | .xchain .. | .vacant _ => nextIdx next

def receiveAll (msgs : List ReaderToExec) : Except ExecutorError Nat :=
  msgs.foldlM receive next

end

end ExecCount

end Kardamom.Reader
