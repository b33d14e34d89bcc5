import Kardamom.Cluster.Stores

/-!
# The egress of the sealer

`SealerEgress` keeps the emitted frames for replay, evicts from the front when the window is over its
cap, and answers replay requests. Its eviction rule looks only at two counters, the floors, and never
at the log.

`EgressLog` is the egress with the head of the state machine that feeds it, and its steps are the
calls that a log can lead to: a record or a boundary is emitted at the head, the posted head or the
rules change, or the member restarts from a snapshot. A step reports the frames that it emitted and
the frames that it evicted.
-/

namespace Kardamom.Cluster

open Sealer (Bytes Boundary)
open Laid

/-! ## Replay verdicts -/

/-- The three answers to a replay request. -/
inductive ReplayVerdict.Kind where
  /-- The cursor is past the head. -/
  | ahead
  /-- The cursor names no point of the stream, or is below the floor. -/
  | refused
  | serve
  deriving DecidableEq, Repr

structure ReplayVerdict where
  kind : ReplayVerdict.Kind
  /-- The text of the log line. -/
  reason : String
  deriving DecidableEq, Repr

def ReplayVerdict.SERVE : ReplayVerdict := ⟨.serve, ""⟩

/-- The log text of a point. -/
def Point.text (p : Point) : String := "(" ++ toString p.index ++ "," ++ toString p.block ++ ")"

/-- Whether a resume at `fromIndex` lies inside the block it names. An end of -1 is not known to this
member, and that side is not checked. -/
def cursorInsideBlock (fromIndex lowerEnd upperEnd : Int) : Bool :=
  (lowerEnd < 0 || lowerEnd ≤ fromIndex) && (upperEnd < 0 || fromIndex ≤ upperEnd)

/-! ## What a session gets -/

/-- `RT_TX`: the record type of a canonical entry. -/
def rtTx : UInt8 := 6

/-- The frames that an answer to a replay request offers to its session. -/
inductive SessionFrame where
  | frame (f : Frame)
  /-- `kind(1) | index(8) | canonical_id(32) | record_type(1)`. -/
  | relayedRef (index : Int) (canonicalId : Bytes) (recordType : UInt8)
  | replayUnavailable (floors : Floors)
  | replayDone (upTo : Point)
  | replayAhead (upTo : Point)
  deriving DecidableEq, Repr

/-- A retained frame as an egress session gets it: with the file, a canonical entry becomes its
relayed reference, because no egress session gets the envelope. The record type follows the
canonical id of 32 bytes. -/
def RetainedFrames.forSession (s : RetainedFrames) (f : Frame) : SessionFrame :=
  match s, f with
  | .file _, .relayed index payload =>
    if payload[32]? = some rtTx then .relayedRef index (payload.take 32) rtTx
    else .frame (.relayed index payload)
  | _, f => .frame f

/-! ## The egress -/

structure SealerEgress where
  retained : RetainedFrames
  /-- The first record index still guaranteed retained. -/
  firstRetainedIndex : Int
  /-- The first boundary block still guaranteed retained. -/
  firstRetainedBlock : Int
  /-- The last L2 block the batcher confirmed on L1. -/
  postedHead : Int
  /-- Whether a frame past the window leaves at once, at any posted head. -/
  windowOnly : Bool

namespace SealerEgress

section

variable (e : SealerEgress)

def floors : Floors := ⟨e.firstRetainedIndex, e.firstRetainedBlock⟩

/-- The constructor: the floors start at the head. -/
def new (retained : RetainedFrames) (head : Point) : SealerEgress where
  retained := retained
  firstRetainedIndex := head.index
  firstRetainedBlock := head.block
  postedHead := 0
  windowOnly := false

/-- Evict the oldest frame, and move the floor of its axis past it. -/
def evictFront : SealerEgress :=
  match e.retained.front with
  | none => e
  | some k =>
    let e' := { e with retained := e.retained.evictFront }
    if k.boundary then { e' with firstRetainedBlock := k.key + 1 }
    else { e' with firstRetainedIndex := k.key + 1 }

/-- Whether the oldest retained frame belongs to a posted block. The block of a record at the front
is taken to be the first retained one. -/
def oldestIsPosted : Bool :=
  match e.retained.front with
  | none => false
  | some k => (if k.boundary then k.key else e.firstRetainedBlock) ≤ e.postedHead

end

/-- Whether the window is over its cap and the oldest frame may leave. -/
def mayEvict (cap : Nat) (e : SealerEgress) : Bool :=
  cap < e.retained.count && (e.windowOnly || e.oldestIsPosted)

/-- The loop of `prune`, which returns the evicted frames too: each round evicts one frame, so the
frame count bounds the rounds. -/
def pruneLoop (cap : Nat) : Nat → SealerEgress → SealerEgress × List Frame
  | 0, e => (e, [])
  | fuel + 1, e =>
    if e.mayEvict cap then
      let (e', evicted) := pruneLoop cap fuel e.evictFront
      (e', e.retained.frames.head?.toList ++ evicted)
    else (e, [])

section

variable (cap : Nat) (e : SealerEgress)

/-- Evict from the front while the window is over its cap and the oldest frame may leave. -/
def prune : SealerEgress × List Frame := pruneLoop cap e.retained.count e

/-- Retain a frame for future replays. -/
def retain (frame : Frame) : SealerEgress × List Frame :=
  prune cap { e with retained := e.retained.append frame }

def setPostedHead (postedHead : Int) : SealerEgress × List Frame :=
  prune cap { e with postedHead := postedHead }

def setRules (version : Nat) (carryWindow : Bool) : SealerEgress × List Frame :=
  prune cap { e with
    windowOnly := version == Sealer.carryVersion && (carryWindow || e.retained.carriesBytes) }

end

section

variable (e : SealerEgress) (cursor upTo : Point)

/-- The answer to a replay request from a cursor, with `upTo` the canonical count and the open block. -/
def replayVerdict : ReplayVerdict :=
  if upTo.index < cursor.index ∨ upTo.block < cursor.block then
    ⟨.ahead, "AHEAD head=" ++ upTo.text⟩
  else
    let lowerEnd := e.retained.boundaryEnd (cursor.block - 1)
    let upperEnd := e.retained.boundaryEnd cursor.block
    if !cursorInsideBlock cursor.index lowerEnd upperEnd then
      ⟨.refused, "SKEWED block " ++ toString cursor.block ++ " spans ("
        ++ toString lowerEnd ++ "," ++ toString upperEnd ++ ")"⟩
    else if cursor.index < e.firstRetainedIndex ∨ cursor.block < e.firstRetainedBlock then
      ⟨.refused, "UNAVAILABLE floor=" ++ e.floors.text⟩
    else .SERVE

/-- The frames that a replay request offers to its session, in order. -/
def handleReplayRequest : List SessionFrame :=
  match (e.replayVerdict cursor upTo).kind with
  | .ahead => [.replayAhead upTo]
  | .refused => [.replayUnavailable e.floors]
  | .serve => (e.retained.wanted cursor).map e.retained.forSession ++ [.replayDone upTo]

end

/-- Open an empty retention at the head: a start at genesis or from a seed. -/
def openEmpty (retained : RetainedFrames) (head : Point) : SealerEgress := new retained.clear head

/-- The egress of a member that restarts from a snapshot of this one: the floors start at the head,
and the restored retention moves them. -/
def restart (e : SealerEgress) (sectioned : Bool) (lost : List Frame) (head : Point) :
    Except String SealerEgress := do
  let (retained, floors) ← e.retained.restart e.floors sectioned lost head
  return { new retained head with
    firstRetainedIndex := floors.index
    firstRetainedBlock := floors.block }

end SealerEgress

/-! ## The log -/

/-- The egress and the head of the state machine that feeds it. -/
structure EgressLog where
  /-- The canonical count and the open block. -/
  head : Point
  egress : SealerEgress

/-- The calls of a member that runs. -/
inductive EgressCall where
  /-- Relay a record at the head. It takes `more` indices after its first. -/
  | relayed (payload : Bytes) (more : Nat)
  /-- Close the open block. -/
  | boundary (l2Timestamp : Int) (l1Origin : Int64)
  | setPostedHead (postedHead : Int)
  | setRules (version : Nat) (carryWindow : Bool)
  deriving DecidableEq

/-- What a log leads to: a call, or a restart from a snapshot of this point of the log. -/
inductive EgressOp where
  | call (c : EgressCall)
  | restart (sectioned : Bool) (lost : List Frame)
  deriving DecidableEq

/-- What a step did: the frames that it emitted, and those that it evicted. -/
structure EgressOut where
  emitted : List Frame
  evicted : List Frame
  deriving DecidableEq, Repr

namespace EgressLog

section

variable (cap : Nat) (s : EgressLog)

/-- Retain the frame that moved the head. -/
def emit (frame : Frame) (head : Point) : EgressLog × EgressOut :=
  let (e, evicted) := s.egress.retain cap frame
  (⟨head, e⟩, ⟨[frame], evicted⟩)

/-- One call, with a window of `cap` frames. -/
def call : EgressCall → EgressLog × EgressOut
  | .relayed payload more =>
    s.emit cap (.relayed s.head.index payload) ⟨s.head.index + 1 + more, s.head.block⟩
  | .boundary l2Timestamp l1Origin =>
    s.emit cap (.boundary ⟨s.head.block, s.head.index, l2Timestamp, l1Origin⟩)
      ⟨s.head.index, s.head.block + 1⟩
  | .setPostedHead postedHead =>
    let (e, evicted) := s.egress.setPostedHead cap postedHead
    ({ s with egress := e }, ⟨[], evicted⟩)
  | .setRules version carryWindow =>
    let (e, evicted) := s.egress.setRules cap version carryWindow
    ({ s with egress := e }, ⟨[], evicted⟩)

/-- One step. A member whose restore fails stops. -/
def step : EgressOp → EgressLog × EgressOut
  | .call c => s.call cap c
  | .restart sectioned lost =>
    match s.egress.restart sectioned lost s.head with
    | .ok e => ({ s with egress := e }, ⟨[], []⟩)
    | .error _ => (s, ⟨[], []⟩)

end

/-- A member that starts at the head of a log, with an empty retention. -/
def openEmpty (retained : RetainedFrames) (head : Point) : EgressLog :=
  ⟨head, .openEmpty retained head⟩

/-- Every frame that a history emitted, oldest first. -/
def emitted (τ : List (EgressOp × EgressOut)) : List Frame := τ.flatMap fun x => x.2.emitted

@[simp] theorem emitted_append (τ τ' : List (EgressOp × EgressOut)) :
    emitted (τ ++ τ') = emitted τ ++ emitted τ' := List.flatMap_append

@[simp] theorem emitted_singleton (op : EgressOp) (out : EgressOut) :
    emitted [(op, out)] = out.emitted := by
  simp [emitted]

end EgressLog

end Kardamom.Cluster
