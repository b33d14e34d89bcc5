import Kardamom.Cluster.SealerEgress

/-!
# The member feed

The stream of retained frames that a member sends to its paired executor. The service thread writes
frames into a ring (`MemberFeed`), and the feeder thread offers them to the publication (`Feeder`). The
feeder passes the replay requests of the executor back through a control ring. No write waits: a full
ring ends a live feed with a gap, and pauses a replay to the next duty cycle.

The answer to a request walks the retained frames from its cursor to the head, sends `REPLAY_DONE` and
turns live. The walk reads the frames that the service appends during the walk too.

Both rings have one writer and one reader, so each is a queue. Whether a write fits depends on how far
the other thread read, so what the ring answers to a write is an argument (`RingAnswer`). Every message
in a ring carries the generation of its answer as its type.
-/

namespace Kardamom.Cluster

/-- A replay request on the feed control stream. -/
structure FeedRequest where
  fromIndex : Int
  fromBlock : Int
  /-- The id that each answer to the request carries. -/
  requestId : Int
  deriving DecidableEq, Repr

/-- The cursor of a request. -/
def FeedRequest.cursor (r : FeedRequest) : Point := ⟨r.fromIndex, r.fromBlock⟩

/-- What the feed sends. Every message but a frame is `kind(1) | index(8) | block(8) | request_id(8)`. -/
inductive FeedMessage where
  | frame (f : Frame)
  | replayUnavailable (oldest : Point) (requestId : Int)
  | replayDone (upTo : Point) (requestId : Int)
  | replayAhead (upTo : Point) (requestId : Int)
  /-- The answer ended; the cursor is the point after the frames that it carried. -/
  | feedGap (next : Point) (requestId : Int)
  deriving DecidableEq, Repr

/-- `FEED_ANSWER_LEN`. -/
def feedAnswerLen : Nat := 1 + 3 * 8

/-- The bytes of a message. -/
def FeedMessage.length : FeedMessage → Nat
  | .frame f => f.length
  | _ => feedAnswerLen

/-- Move a cursor past a retained frame. -/
def Point.pass (cursor : Point) : Frame → Point
  | .boundary b => ⟨b.endTxIdx, b.blockNumber + 1⟩
  | .relayed index _ => ⟨index + 1, cursor.block⟩

/-! ## The frame ring -/

/-- What the ring says to one write: the free bytes, and whether the write went through. -/
structure RingAnswer where
  free : Int
  writes : Bool
  deriving DecidableEq, Repr

/-- The write side of the frame ring: what the ring answers to the next writes, and what was written,
with its type. -/
structure FrameRing where
  answers : List RingAnswer
  wrote : List (Nat × FeedMessage)

namespace FrameRing

/-- `RESERVE`: the free bytes that each frame leaves for the gap marker and its padding. -/
def reserve : Nat := 128

/-- The bytes of a record: a header of 8 bytes, aligned to 8. -/
def recordLength (length : Nat) : Nat := (length + 8 + 7) / 8 * 8

/-- Write when the ring takes it. A ring that gives no answer has no room. -/
def writeIf (ring : FrameRing) (fits : RingAnswer → Bool) (type : Nat) (m : FeedMessage) :
    FrameRing × Bool :=
  match ring.answers with
  | [] => (ring, false)
  | a :: rest =>
    if fits a && a.writes then (⟨rest, ring.wrote ++ [(type, m)]⟩, true)
    else ({ ring with answers := rest }, false)

section

variable (ring : FrameRing) (type : Nat) (m : FeedMessage)

/-- Write a message when the ring keeps the reserve free after it. The check counts the record twice. -/
def put : FrameRing × Bool :=
  ring.writeIf (fun a => decide ((2 * recordLength m.length + reserve : Nat) ≤ a.free)) type m

/-- Write the gap marker into the reserve. -/
def putMarker : FrameRing × Bool := ring.writeIf (fun _ => true) type m

end

end FrameRing

/-! ## The service side -/

inductive FeedState where
  /-- No request, or the subscriber left. -/
  | idle
  /-- Send the refusal, then turn idle. -/
  | refusing
  /-- Walk the retained frames from the cursor of the request. -/
  | walking
  /-- Carry each new retained frame. -/
  | live
  /-- The answer ended with a gap. -/
  | gapped
  deriving DecidableEq, Repr

structure MemberFeed where
  state : FeedState
  /-- The generation of the newest control message. -/
  generation : Nat
  request : FeedRequest
  /-- The point after the frames that the answer carried. -/
  cursor : Point
  /-- The walk key of the next frame of the walk. -/
  walkKey : Int
  /-- The refusal in the staging buffer. -/
  refusal : FeedMessage

namespace MemberFeed

/-- A feed that starts. -/
def start : MemberFeed := ⟨.idle, 0, ⟨0, 0, 0⟩, ⟨0, 0⟩, 0, .replayAhead ⟨0, 0⟩ 0⟩

/-- `WALK_BYTES`: the most frame bytes that the walk moves in one duty cycle. -/
def walkBytes : Nat := 256 * 1024

/-- `CONTROL_BATCH`: the most control messages that one duty cycle reads. -/
def controlBatch : Nat := 16

variable (feed : MemberFeed)

section

variable (ring : FrameRing)

/-- Write one retained frame, and move the cursor past it. -/
def carry (frame : Frame) : MemberFeed × FrameRing × Bool :=
  let r := ring.put feed.generation (.frame frame)
  if r.2 then ({ feed with cursor := feed.cursor.pass frame }, r.1, true) else (feed, r.1, false)

/-- Write the gap marker into the reserve, and stop the answer. -/
def gap : MemberFeed × FrameRing := ({ feed with state := .gapped },
    (ring.putMarker feed.generation (.feedGap feed.cursor feed.request.requestId)).1)

/-- A frame was retained: carry it when the feed is live. -/
def onFrame (staged : Frame) : MemberFeed × FrameRing :=
  if feed.state = .live then
    match feed.carry ring staged with
    | (feed', ring', true) => (feed', ring')
    | (feed', ring', false) => feed'.gap ring'
  else (feed, ring)

/-- Take one control message; no request means that the subscriber left. The request that this duty
cycle answers comes with it. -/
def onControl (message : Nat × Option FeedRequest) : MemberFeed × Option FeedRequest :=
  ({ feed with
      generation := message.1
      state := if message.2.isNone then .idle else feed.state }, message.2)

/-- Take control messages. A later one wins over an earlier one. -/
def readControl : MemberFeed → Option FeedRequest → List (Nat × Option FeedRequest) →
    MemberFeed × Option FeedRequest
  | feed, asked, [] => (feed, asked)
  | feed, _, m :: ms => readControl (feed.onControl m).1 (feed.onControl m).2 ms

/-- Prepare a refusal. -/
def refuse (message : FeedMessage) : MemberFeed := { feed with refusal := message, state := .refusing }

/-- Start the answer to a request: a refusal, or the walk from its cursor. -/
def answer (next : FeedRequest) (egress : SealerEgress) (upTo : Point) : MemberFeed :=
  let feed' := { feed with request := next, cursor := next.cursor }
  match (egress.replayVerdict next.cursor upTo).kind with
  | .ahead => feed'.refuse (.replayAhead upTo next.requestId)
  | .refused => feed'.refuse (.replayUnavailable egress.floors next.requestId)
  | .serve =>
    { feed' with walkKey := egress.retained.walkStart next.fromBlock, state := .walking }

def sendRefusal : MemberFeed × FrameRing :=
  let r := ring.put feed.generation feed.refusal
  (if r.2 then { feed with state := .idle } else feed, r.1)

def finishWalk (upTo : Point) : MemberFeed × FrameRing :=
  let r := ring.put feed.generation (.replayDone upTo feed.request.requestId)
  (if r.2 then { feed with state := .live } else feed, r.1)

end

/-- The walk within a duty cycle, with the bytes that it can still move. -/
structure Walk where
  feed : MemberFeed
  ring : FrameRing
  left : Int

/-- Move past the frame at the walk key. -/
def Walk.move (w : Walk) (retained : RetainedFrames) (frame : Frame) : Walk × Bool :=
  let left := w.left - frame.length
  ({ w with feed := { w.feed with walkKey := retained.walkNext w.feed.walkKey }, left := left },
    decide (0 < left))

/-- Carry the frame at the walk key when the request wants it, and move past it. False when the walk
stops in this duty cycle. -/
def Walk.step (retained : RetainedFrames) (upTo : Point) (w : Walk) : Walk × Bool :=
  if retained.walkHead ≤ w.feed.walkKey then
    let r := w.feed.finishWalk w.ring upTo
    ({ w with feed := r.1, ring := r.2 }, false)
  else if w.feed.walkKey < retained.walkFront then
    -- the floor passed the walk: the frames from here are gone
    let r := w.feed.gap w.ring
    ({ w with feed := r.1, ring := r.2 }, false)
  else
    match retained.view w.feed.walkKey with
    -- between the front and the head there is a frame at every key of the walk
    | none => (w, false)
    | some frame =>
      if FrameKey.wanted w.feed.request.cursor frame then
        match w.feed.carry w.ring frame with
        | (feed, ring, true) => { w with feed := feed, ring := ring }.move retained frame
        | (feed, ring, false) => ({ w with feed := feed, ring := ring }, false)
      else w.move retained frame

/-- The loop of `walk`: every round moves at least one byte, so the budget bounds the rounds. -/
def Walk.loop (retained : RetainedFrames) (upTo : Point) : Nat → Walk → Walk
  | 0, w => w
  | fuel + 1, w =>
    let r := Walk.step retained upTo w
    if r.2 then Walk.loop retained upTo fuel r.1 else r.1

section

variable (ring : FrameRing) (retained : RetainedFrames) (upTo : Point)

/-- Move the walk by at most `walkBytes`. -/
def walk : MemberFeed × FrameRing :=
  let w := Walk.loop retained upTo walkBytes ⟨feed, ring, walkBytes⟩
  (w.feed, w.ring)

/-- Move the answer on. -/
def step : MemberFeed × FrameRing :=
  match feed.state with
  | .refusing => feed.sendRefusal ring
  | .walking => feed.walk ring retained upTo
  | .idle | .live | .gapped => (feed, ring)

end

/-- One duty cycle: read the control messages, and move the answer to the newest request on. -/
def doWork (ring : FrameRing) (egress : SealerEgress) (upTo : Point)
    (control : List (Nat × Option FeedRequest)) : MemberFeed × FrameRing :=
  let r := readControl feed none control
  let feed' := match r.2 with
    | some next => r.1.answer next egress upTo
    | none => r.1
  feed'.step ring egress.retained upTo

end MemberFeed

/-! ## The feeder -/

/-- The feeder thread, with the two rings. -/
structure Feeder where
  /-- The generation of the current answer. -/
  generation : Nat
  /-- Control messages that the service did not read; no request means that the subscriber left. -/
  control : List (Nat × Option FeedRequest)
  /-- Messages that the service wrote and the feeder did not read. -/
  frames : List (Nat × FeedMessage)

namespace Feeder

/-- A feeder that starts. -/
def start : Feeder := ⟨1, [], []⟩

/-- Write a control message in the next generation, if the control ring takes it. -/
def commit (feeder : Feeder) (fits : Bool) (message : Option FeedRequest) : Feeder × Bool :=
  if fits then
    ({ feeder with
        generation := feeder.generation + 1
        control := feeder.control ++ [(feeder.generation + 1, message)] }, true)
  else (feeder, false)

/-- Offer the oldest message; drop one of an older generation. A back-pressured offer leaves it. -/
def offer (feeder : Feeder) (accepted : Bool) : Feeder × Option (Nat × FeedMessage) :=
  match feeder.frames with
  | [] => (feeder, none)
  | m :: rest =>
    if m.1 ≠ feeder.generation then ({ feeder with frames := rest }, none)
    else if accepted then ({ feeder with frames := rest }, some m)
    else (feeder, none)

end Feeder

/-! ## The system -/

/-- The member with its feed, and the feeder. -/
structure FeedSystem where
  log : EgressLog
  feed : MemberFeed
  feeder : Feeder

/-- One turn of one of the two threads. -/
inductive FeedOp where
  /-- The service makes a call; what it emits goes to the feed. -/
  | call (c : EgressCall) (ring : List RingAnswer)
  /-- A duty cycle of the service; it sees the first `visible` control messages. -/
  | doWork (visible : Nat) (ring : List RingAnswer)
  /-- The feeder takes a request of the executor. -/
  | request (r : FeedRequest) (fits : Bool)
  /-- The feeder loses its subscriber. -/
  | lost (fits : Bool)
  /-- The feeder offers the oldest message of the ring. -/
  | offer (accepted : Bool)

/-- What happened, in order. -/
inductive FeedEvent where
  /-- A frame was emitted and moved the head. -/
  | emitted (f : Frame) (head : Point)
  /-- A control message started a generation. -/
  | asked (generation : Nat) (request : Option FeedRequest)
  | wrote (generation : Nat) (m : FeedMessage)
  /-- The subscriber got a message. -/
  | delivered (generation : Nat) (m : FeedMessage)
  deriving DecidableEq, Repr

namespace FeedSystem

variable (s : FeedSystem)

/-- Messages that were written go to the back of the ring. -/
def push (feed : MemberFeed) (ring : FrameRing) : FeedSystem × List FeedEvent :=
  ({ s with feed := feed, feeder := { s.feeder with frames := s.feeder.frames ++ ring.wrote } },
    ring.wrote.map fun m => .wrote m.1 m.2)

/-- The service hands what it emitted to the feed. -/
def onFrames (ring : FrameRing) : List Frame → MemberFeed → MemberFeed × FrameRing
  | [], feed => (feed, ring)
  | f :: fs, feed =>
    let r := feed.onFrame ring f
    onFrames r.2 fs r.1

def commit (fits : Bool) (message : Option FeedRequest) : FeedSystem × List FeedEvent :=
  let r := s.feeder.commit fits message
  ({ s with feeder := r.1 }, if r.2 then [.asked r.1.generation message] else [])

/-- One step, with a retention window of `cap` frames. The source prunes the store after the feed has the
frame; the feed does not read the store there, so the order does not show. -/
def step (cap : Nat) : FeedOp → FeedSystem × List FeedEvent
  | .call c ring =>
    let l := s.log.call cap c
    let f := onFrames ⟨ring, []⟩ l.2.emitted s.feed
    let p := { s with log := l.1 }.push f.1 f.2
    (p.1, l.2.emitted.map (fun frame => .emitted frame l.1.head) ++ p.2)
  | .doWork visible ring =>
    let n := min visible MemberFeed.controlBatch
    let f := s.feed.doWork ⟨ring, []⟩ s.log.egress s.log.head (s.feeder.control.take n)
    { s with feeder := { s.feeder with control := s.feeder.control.drop n } }.push f.1 f.2
  | .request r fits => s.commit fits (some r)
  | .lost fits => s.commit fits none
  | .offer accepted =>
    let r := s.feeder.offer accepted
    ({ s with feeder := r.1 }, r.2.toList.map fun m => .delivered m.1 m.2)

/-- The feed of a member whose log is at some state. -/
def start (log : EgressLog) : FeedSystem := ⟨log, .start, .start⟩

end FeedSystem

end Kardamom.Cluster
