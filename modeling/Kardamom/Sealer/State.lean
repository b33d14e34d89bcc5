import Kardamom.Sealer.DedupWindow
import Kardamom.Sealer.Versions
import Kardamom.Sealer.SessionWindows
import Kardamom.Sealer.VoidLedger

/-!
# The canonical sealer state

The replicated state machine that gives every record its canonical index and every block its
boundary. Each entry point is a function from the state and the call to the next state and its
outcome; a Java exception is an outcome too, and leaves the state as it was.

The configuration that every member must share is a `SealerConfig`, passed beside the state. The
Java state holds it in final fields; whether the member keeps its retained frames in a file is set
once before the first entry, so it stands there as well.
-/

namespace Kardamom.Sealer

open UInt64

/-- The replicated configuration of a member. -/
structure SealerConfig where
  /-- Hard cap on the dedup window and on the tracked senders; a Java `int`. -/
  dedupCapacity : Nat
  inclusionHorizonBlocks : Int
  orderingWindow : Nat
  remoteOriginAllowlist : List UInt64
  voids : VoidConfig
  daLagBudgetBlocks : Int
  recordLagBudget : Int
  fileStore : Bool
  dedupCapacity_pos : 0 < dedupCapacity
  dedupCapacity_int : dedupCapacity < 2 ^ 31
  horizon_pos : 0 < inclusionHorizonBlocks
  horizon_long : inclusionHorizonBlocks ≤ longMax
  orderingWindow_int : orderingWindow < 2 ^ 31
  daLag_nonneg : 0 ≤ daLagBudgetBlocks
  recordLag_nonneg : 0 ≤ recordLagBudget

/-- The code defaults: no ordering window, no peer and no voter, the DA-lag guard on and the
record-lag guard off. -/
def SealerConfig.default : SealerConfig where
  dedupCapacity := 2 ^ 17
  inclusionHorizonBlocks := 64
  orderingWindow := 0
  remoteOriginAllowlist := []
  voids := .disabled
  daLagBudgetBlocks := 10000
  recordLagBudget := 0
  fileStore := false
  dedupCapacity_pos := by decide
  dedupCapacity_int := by decide
  horizon_pos := by decide
  horizon_long := by decide
  orderingWindow_int := zero_int
  daLag_nonneg := by decide
  recordLag_nonneg := by decide

/-! ## Recorded cursors -/

/-- The recorded cursor of each executor, and the best of them; -1 before the first. -/
structure RecordedCursors where
  recorded : SortedMap Int Int
  best : Int

namespace RecordedCursors

/-- No cursor yet. -/
def start : RecordedCursors := ⟨.empty, -1⟩

/-- Adopt one cursor; whether the best cursor moved up. -/
def onCursor (r : RecordedCursors) (executorId recordedThrough : Int) : RecordedCursors × Bool :=
  let recorded := r.recorded.upsert executorId fun old =>
    old.elim recordedThrough (max · recordedThrough)
  if recordedThrough ≤ r.best then ({ r with recorded := recorded }, false)
  else (⟨recorded, recordedThrough⟩, true)

/-- Whether the guard refuses user records while `lastIndex` is the last ordered index. -/
def halted (r : RecordedCursors) (budget lastIndex : Int) : Bool :=
  decide (0 < budget ∧ r.best ≠ -1 ∧ budget < lastIndex - r.best)

end RecordedCursors

/-! ## The state -/

/-- Per-peer remote-origin state: the anchor last adopted, and the lane cursor when it is known. -/
structure RemotePeer where
  anchorNumber : UInt64
  nextSeqKnown : Bool
  nextSeq : UInt64
  deriving DecidableEq, Repr

/-- Where a state started, and whether the log confirmed its seed. -/
inductive SeedStatus where
  | genesis
  | pending
  | confirmed
  deriving DecidableEq, Repr

/-- The replicated state. -/
structure CanonicalSealerState where
  dedup : DedupWindow
  /-- Per-sender expected next nonce, access ordered and bounded by the dedup capacity. -/
  expectedNonce : LinkedMap Sender UInt64
  remoteOrigins : LinkedMap UInt64 RemotePeer
  voids : VoidLedger
  recorded : RecordedCursors
  /-- The last L2 block the batcher confirmed on L1. -/
  postedHead : Int
  seedStatus : SeedStatus
  seedDigest : CanonicalId
  rules : DecisionRules
  versions : VersionSwitch
  windows : SessionWindows
  /-- How many canonical indices are taken. -/
  canonicalCount : Int
  /-- The block number that the next tick stamps. -/
  blockNumber : Int
  l1Origin : Int64
  lastL2Timestamp : Int
  /-- The canonical count at the last boundary. -/
  lastBoundaryCount : Int

/-- The rebuilt head a seeded state starts after, and the senders its nonce guard starts with. The
bounds are those that `SealerSeed.parse` checks. -/
structure SealerSeed where
  block : Int
  endTxIdx : Int
  l2Timestamp : Int
  l1Origin : Int64
  senders : List (Sender × UInt64)
  digest : CanonicalId
  block_pos : 0 < block
  block_lt : block < longMax
  endTxIdx_range : 0 ≤ endTxIdx ∧ endTxIdx ≤ longMax
  l2Timestamp_range : 0 ≤ l2Timestamp ∧ l2Timestamp ≤ longMax
  l1Origin_nonneg : 0 ≤ l1Origin
  nextNonce_lt : ∀ s ∈ senders, s.2.toNat < 2 ^ 63

/-- `put` into the access-ordered, bounded sender map. -/
def putNonce (cap : Nat) (m : LinkedMap Sender UInt64) (sender : Sender) (nonce : UInt64) :
    LinkedMap Sender UInt64 :=
  (m.putLast sender nonce).dropEldestOver cap

namespace CanonicalSealerState

/-- A state at genesis: block 1 is open and empty. -/
def genesis : CanonicalSealerState where
  dedup := .empty
  expectedNonce := .empty
  remoteOrigins := .empty
  voids := .empty
  recorded := .start
  postedHead := 0
  seedStatus := .genesis
  seedDigest := 0
  rules := .start
  versions := .start
  windows := .empty
  canonicalCount := 0
  blockNumber := 1
  l1Origin := 0
  lastL2Timestamp := 0
  lastBoundaryCount := 0

/-- A state that starts after the seed's head, with its open block empty. -/
def seeded (cfg : SealerConfig) (seed : SealerSeed) : CanonicalSealerState :=
  { genesis with
    blockNumber := seed.block + 1
    canonicalCount := seed.endTxIdx
    lastBoundaryCount := seed.endTxIdx
    lastL2Timestamp := seed.l2Timestamp
    l1Origin := seed.l1Origin
    postedHead := seed.block
    expectedNonce := seed.senders.foldl (fun m s => putNonce cfg.dedupCapacity m s.1 s.2) .empty
    seedStatus := .pending
    seedDigest := seed.digest }

section Operations

variable (cfg : SealerConfig) (s : CanonicalSealerState)

/-- The last sealed block. -/
def sealedHead : Int := s.blockNumber - 1

/-- Whether the DA-lag guard refuses user records. -/
def daLagHalted : Bool :=
  decide (0 < cfg.daLagBudgetBlocks ∧ cfg.daLagBudgetBlocks < s.sealedHead - s.postedHead)

/-- Whether the record-lag guard refuses user records; it is off under version 5. -/
def recordLagHalted : Bool := decide (s.versions.version < carryVersion)
    && s.recorded.halted cfg.recordLagBudget (s.canonicalCount - 1)

/-- The deadline this sealer assigns a record that carries none. -/
def assignedDeadline : Int := saturatingAdd s.blockNumber cfg.inclusionHorizonBlocks

/-- Insert a new key, held until `deadline` passes, but never past the inclusion horizon. -/
def insertFresh (key : CanonicalId) (deadline : Int) : CanonicalSealerState :=
  { s with dedup := s.dedup.insertFresh key (min deadline (s.assignedDeadline cfg)) }

/-- What the window did with an offered id. -/
inductive Admission where
  | fresh
  | duplicate
  | pastDeadline
  | windowFull
  deriving DecidableEq, Repr

section

variable (id : CanonicalId)

/-- Record an id in the dedup window under `deadline`. -/
def firstSeen (deadline : Int) : CanonicalSealerState × Admission :=
  if s.dedup.containsKey id then (s, .duplicate)
  else if deadline < s.blockNumber then (s, .pastDeadline)
  else if cfg.dedupCapacity ≤ s.dedup.size then (s, .windowFull)
  else (s.insertFresh cfg id deadline, .fresh)

/-- The outcome of one application record. -/
inductive RecordOutcome where
  | duplicate
  | relayed (r : Relayed)
  | contiguityReject (expectedNonce : UInt64)
  | pastDeadline (maxInclusionBlock : Int)
  | windowFull
  | daLagReject
  | recordLagReject
  deriving DecidableEq, Repr

/-- The last lines of `onRecord`: the id enters the window and the record takes the next index. -/
def relayFresh (key : CanonicalId) (deadline : Int) (payload : Bytes) :
    CanonicalSealerState × RecordOutcome :=
  let s' := s.insertFresh cfg key deadline
  ({ s' with canonicalCount := s.canonicalCount + 1 }, .relayed ⟨s.canonicalCount, payload⟩)

/-- Process one application record. -/
def onRecord (sender : Sender) (nonce : UInt64) (deadline : Int)
    (payload : Bytes) : CanonicalSealerState × RecordOutcome :=
  if s.dedup.containsKey id then (s, .duplicate)
  else if deadline < s.blockNumber then (s, .pastDeadline deadline)
  else if !isZeroSender sender && s.recordLagHalted cfg then (s, .recordLagReject)
  else if !isZeroSender sender && s.daLagHalted cfg then (s, .daLagReject)
  else if cfg.dedupCapacity ≤ s.dedup.size then (s, .windowFull)
  else if isZeroSender sender then s.relayFresh cfg id deadline payload
  else
    -- the lookup alone already makes the sender the most recent one
    let touched := { s with expectedNonce := s.expectedNonce.touch sender }
    match s.expectedNonce.get? sender with
    | some expected =>
      if expected ≠ nonce then (touched, .contiguityReject expected)
      else
        { touched with
          expectedNonce := putNonce cfg.dedupCapacity touched.expectedNonce sender (nonce + 1)
          voids := s.voids.onReference cfg.voids s.canonicalCount id sender nonce
        }.relayFresh cfg id deadline payload
    | none =>
      { s with
        expectedNonce := putNonce cfg.dedupCapacity s.expectedNonce sender (nonce + 1)
        voids := s.voids.onReference cfg.voids s.canonicalCount id sender nonce
      }.relayFresh cfg id deadline payload

/-- `Math.min` of two nonces, which Java holds as signed longs. -/
def signedMin (a b : UInt64) : UInt64 := if a.toInt64 ≤ b.toInt64 then a else b

/-- The result of one void request. -/
structure VoidOutcome where
  vote : Vote
  relayed : Option Relayed
  deriving DecidableEq, Repr

/-- Append the void record of a decided entry: its hash leaves the dedup window, and the sender's
expected nonce goes back to the lower of the two. -/
def appendVoid (entry : VoidEntry) : CanonicalSealerState × Relayed :=
  ({ s with
      dedup := s.dedup.forget entry.id
      expectedNonce := match s.expectedNonce.get? entry.sender with
        | some expected => s.expectedNonce.putLast entry.sender (signedMin expected entry.nonce)
        | none => s.expectedNonce
      canonicalCount := s.canonicalCount + 1 },
    ⟨s.canonicalCount, VoidLedger.payload entry⟩)

/-- Count the vote of one consumer for the removal of the reference at `index`. -/
def onVoidRequest (voterId index : Int) (txHash : CanonicalId) :
    CanonicalSealerState × VoidOutcome :=
  let r := s.voids.onVote cfg.voids voterId index txHash s.canonicalCount
  let s := { s with voids := r.1 }
  match r.2.entry with
  | none => (s, ⟨r.2.vote, none⟩)
  | some entry => ((s.appendVoid entry).1, ⟨r.2.vote, some (s.appendVoid entry).2⟩)

/-- Take a feature activation record: it only stores the schedule. -/
def onFeatureActivation (activation : FeatureActivation) :
    CanonicalSealerState × ActivationOutcome :=
  let r := s.versions.onActivation cfg.fileStore activation s.l1Origin.toUInt64
    (ofInt s.lastL2Timestamp)
  ({ s with versions := r.1 }, r.2)

/-- The answer to a transaction reference: its index, or the reason why it got none. -/
inductive RefOutcome where
  | index (i : Int)
  | duplicate
  | expired
  | daLag
  | recordLag
  deriving DecidableEq, Repr

section

variable (lane session : UInt32) (position : UInt64)

/-- Order one reference by the replay window of its ingress image. A refused reference does not
enter the window. -/
def onCarriedRef : CanonicalSealerState × RefOutcome :=
  let r := s.windows.check .default lane session position s.canonicalCount
  let s := { s with windows := r.1 }
  match r.2 with
  | .duplicate => (s, .duplicate)
  | .expired => (s, .expired)
  | .fresh =>
    if s.recordLagHalted cfg then (s, .recordLag)
    else if s.daLagHalted cfg then (s, .daLag)
    else
      ({ s with windows := s.windows.mark .default, canonicalCount := s.canonicalCount + 1 },
        .index s.canonicalCount)

/-- `onCarriedRef`, and the void ledger keeps the reference, with no sender. -/
def onRef (id : CanonicalId) :
    CanonicalSealerState × RefOutcome :=
  let r := s.onCarriedRef cfg lane session position
  match r.2 with
  | .index i => ({ r.1 with voids := r.1.voids.onReference cfg.voids i id zeroSender 0 }, .index i)
  | refused => (r.1, refused)

end

section

variable (leaderClockMillis : Int)

/-- The time of a boundary stamped at `leaderClockMillis`. -/
def nextL2Timestamp : Int := max (leaderClockMillis.tdiv 250 * 250) (s.lastL2Timestamp + 1)

/-- Stamp a block boundary at this tick. -/
def onTick : CanonicalSealerState × Boundary :=
  let l2Timestamp := s.nextL2Timestamp leaderClockMillis
  let origin := s.l1Origin.toUInt64
  ({ s with
      blockNumber := s.blockNumber + 1
      dedup := s.dedup.pruneExpired (s.blockNumber + 1)
      rules := s.rules.atBoundary origin
      versions := s.versions.atBoundary origin (ofInt s.lastL2Timestamp) (ofInt l2Timestamp)
      lastL2Timestamp := l2Timestamp
      lastBoundaryCount := s.canonicalCount },
    ⟨s.blockNumber, s.canonicalCount, l2Timestamp, s.l1Origin⟩)

/-- The decision version of an origin-advancing record offered at `leaderClockMillis`. -/
def decisionVersionOfOriginRecord : Nat :=
  if s.lastBoundaryCount < s.canonicalCount then
    s.versions.versionAtBoundary s.l1Origin.toUInt64 (ofInt s.lastL2Timestamp)
      (ofInt (s.nextL2Timestamp leaderClockMillis))
  else s.versions.version

end

/-- What both origin-advancing records do once every check passed: the id enters the window, and the
open block closes if it holds any record, so that the record leads a block. -/
def leadBlock (key : CanonicalId) (leaderClockMillis : Int) :
    CanonicalSealerState × Option Boundary :=
  let s' := s.insertFresh cfg key (s.assignedDeadline cfg)
  if s.lastBoundaryCount < s.canonicalCount then
    ((s'.onTick leaderClockMillis).1, some (s'.onTick leaderClockMillis).2)
  else (s', none)

/-- The outcome of an origin-advancing record. -/
inductive OriginOutcome where
  | duplicate
  | relayed (advance : OriginAdvance)
  | gap (expectedOrigin : Int64)
  deriving DecidableEq, Repr

/-- Process one origin-advancing record. -/
def onOriginRecord (newL1Origin : Int64) (slotCount : Int) (payload : Bytes)
    (leaderClockMillis : Int) :
    CanonicalSealerState × Except SealerException OriginOutcome :=
  if slotCount < 1 then
    (s, .error (.illegalArgument s!"slotCount must be >= 1, got {slotCount}"))
  else if s.dedup.containsKey id then (s, .ok .duplicate)
  else if newL1Origin ≤ s.l1Origin then
    let have_ := s.l1Origin
    (s, .error (.illegalArgument s!"l1Origin must advance: have {have_}, got {newL1Origin}"))
  else if 0 < s.l1Origin ∧ newL1Origin ≠ s.l1Origin + 1 then (s, .ok (.gap (s.l1Origin + 1)))
  else
    let r := s.leadBlock cfg id leaderClockMillis
    ({ r.1 with l1Origin := newL1Origin, canonicalCount := r.1.canonicalCount + slotCount },
      .ok (.relayed ⟨r.2, ⟨r.1.canonicalCount, payload⟩⟩))

/-- The reasons to reject a remote-origin record (`REMOTE_REJECT_*`, 1 to 5). -/
inductive RemoteReject where
  | seqMismatch
  | anchorRegressed
  | slotCountMismatch
  | unknownOrigin
  | badRange
  deriving DecidableEq, Repr

/-- The outcome of a remote-origin record; a reject carries the lane cursor on a seq mismatch. -/
inductive RemoteOriginOutcome where
  | duplicate
  | relayed (advance : OriginAdvance)
  | rejected (reason : RemoteReject) (expectedNextSeq : UInt64)
  deriving DecidableEq, Repr

/-- Process one remote-origin record: a batch of messages `firstSeq .. lastSeq` of one peer. -/
def onRemoteOriginRecord (originChainId anchorNumber : UInt64) (slotCount : Int)
    (firstSeq lastSeq : UInt64) (payload : Bytes) (leaderClockMillis : Int) :
    CanonicalSealerState × RemoteOriginOutcome :=
  if s.dedup.containsKey id then (s, .duplicate)
  else if !cfg.remoteOriginAllowlist.contains originChainId then (s, .rejected .unknownOrigin 0)
  else if lastSeq < firstSeq then (s, .rejected .badRange 0)
  else if 2 ^ 63 - 3 < lastSeq - firstSeq then (s, .rejected .badRange 0)
  else if slotCount ≠ (lastSeq - firstSeq).toNat + 2 then (s, .rejected .slotCountMismatch 0)
  else
    match s.remoteOrigins.get? originChainId with
    | some peer =>
      if peer.nextSeqKnown ∧ peer.nextSeq ≠ firstSeq then
        (s, .rejected .seqMismatch peer.nextSeq)
      else if anchorNumber ≤ peer.anchorNumber then (s, .rejected .anchorRegressed 0)
      else adopt
    | none => adopt
where
  /-- Every check passed: adopt the anchor and move the lane cursor past the batch. -/
  adopt : CanonicalSealerState × RemoteOriginOutcome :=
    let r := s.leadBlock cfg id leaderClockMillis
    ({ r.1 with
        remoteOrigins := r.1.remoteOrigins.put originChainId ⟨anchorNumber, true, lastSeq + 1⟩
        canonicalCount := r.1.canonicalCount + slotCount },
      .relayed ⟨r.2, ⟨r.1.canonicalCount, payload⟩⟩)

end

/-- Adopt the batcher's confirmed cursor; it only moves up. -/
def onPostedCursor (postedHead : Int) : CanonicalSealerState × Except SealerException Bool :=
  if s.sealedHead < postedHead then
    let head := s.sealedHead
    (s, .error (.illegalArgument s!"posted head {postedHead} is past the sealed head {head}"))
  else if postedHead ≤ s.postedHead then (s, .ok false)
  else ({ s with postedHead := postedHead }, .ok true)

/-- Adopt the recorded cursor of one executor. -/
def onRecordedCursor (executorId : Int) (recordedThrough : UInt64) :
    CanonicalSealerState × Except SealerException Bool :=
  if !cfg.voids.isVoter executorId then
    (s, .error (.illegalArgument s!"executor {executorId} is not a configured voter"))
  else if s.canonicalCount ≤ recordedThrough.toNat then
    let count := s.canonicalCount
    (s, .error (.illegalArgument
      s!"recorded cursor {recordedThrough} is not below the canonical count {count}"))
  else
    let r := s.recorded.onCursor executorId recordedThrough.toNat
    ({ s with recorded := r.1 }, .ok r.2)

/-- Apply a seed record: the log names the digest of the seed the cluster started from. -/
def onSeedEpoch (digest : CanonicalId) : CanonicalSealerState × Except SealerException Bool :=
  if s.seedStatus = .genesis then
    (s, .error (.illegalState ("the log holds a seed record, but this member started at genesis: "
      ++ "start it with the seed file, or seed it from a peer's snapshot")))
  else if digest ≠ s.seedDigest then
    (s, .error (.illegalState ("the log names seed digest " ++ digest.toHex
      ++ ", but this member started from seed digest " ++ s.seedDigest.toHex)))
  else ({ s with seedStatus := .confirmed }, .ok (s.seedStatus = .pending))

end Operations

/-! ## The sealer as a machine -/

/-- One call of the sealer. -/
inductive Op where
  | firstSeen (id : CanonicalId) (deadline : Int)
  | record (id : CanonicalId) (sender : Sender) (nonce : UInt64) (deadline : Int) (payload : Bytes)
  | voidRequest (voterId index : Int) (txHash : CanonicalId)
  | featureActivation (activation : FeatureActivation)
  | carriedRef (lane session : UInt32) (position : UInt64)
  | ref (lane session : UInt32) (position : UInt64) (id : CanonicalId)
  | tick (leaderClockMillis : Int)
  | originRecord (id : CanonicalId) (newL1Origin : Int64) (slotCount : Int) (payload : Bytes)
      (leaderClockMillis : Int)
  | remoteOriginRecord (id : CanonicalId) (originChainId anchorNumber : UInt64) (slotCount : Int)
      (firstSeq lastSeq : UInt64) (payload : Bytes) (leaderClockMillis : Int)
  | postedCursor (postedHead : Int)
  | recordedCursor (executorId : Int) (recordedThrough : UInt64)
  | seedEpoch (digest : CanonicalId)
  deriving DecidableEq, Repr

/-- What a call answers. -/
inductive Answer where
  | firstSeen (a : Admission)
  | record (o : RecordOutcome)
  | voidRequest (o : VoidOutcome)
  | featureActivation (o : ActivationOutcome)
  | ref (o : RefOutcome)
  | tick (b : Boundary)
  | originRecord (o : Except SealerException OriginOutcome)
  | remoteOriginRecord (o : RemoteOriginOutcome)
  | cursor (o : Except SealerException Bool)

/-- A call's next state, with its result as an answer. -/
def answering {α : Type} (f : α → Answer) (r : CanonicalSealerState × α) :
    CanonicalSealerState × Answer :=
  (r.1, f r.2)

/-- One step of the sealer. -/
def step (cfg : SealerConfig) (s : CanonicalSealerState) : Op → CanonicalSealerState × Answer
  | .firstSeen id deadline => answering .firstSeen (s.firstSeen cfg id deadline)
  | .record id sender nonce deadline payload =>
    answering .record (s.onRecord cfg id sender nonce deadline payload)
  | .voidRequest voterId index txHash =>
    answering .voidRequest (s.onVoidRequest cfg voterId index txHash)
  | .featureActivation activation =>
    answering .featureActivation (s.onFeatureActivation cfg activation)
  | .carriedRef lane session position => answering .ref (s.onCarriedRef cfg lane session position)
  | .ref lane session position id => answering .ref (s.onRef cfg lane session position id)
  | .tick clock => answering .tick (s.onTick clock)
  | .originRecord id newL1Origin slotCount payload clock =>
    answering .originRecord (s.onOriginRecord cfg id newL1Origin slotCount payload clock)
  | .remoteOriginRecord id chain anchor slotCount firstSeq lastSeq payload clock =>
    answering .remoteOriginRecord
      (s.onRemoteOriginRecord cfg id chain anchor slotCount firstSeq lastSeq payload clock)
  | .postedCursor postedHead => answering .cursor (s.onPostedCursor postedHead)
  | .recordedCursor executorId recordedThrough =>
    answering .cursor (s.onRecordedCursor cfg executorId recordedThrough)
  | .seedEpoch digest => answering .cursor (s.onSeedEpoch digest)

/-- Where a run starts: genesis, or a seed on a member without remote origins. -/
inductive Started (cfg : SealerConfig) : CanonicalSealerState → Prop where
  | genesis : Started cfg genesis
  | seeded (seed : SealerSeed) (h : cfg.remoteOriginAllowlist = []) : Started cfg (seeded cfg seed)

end CanonicalSealerState

end Kardamom.Sealer
