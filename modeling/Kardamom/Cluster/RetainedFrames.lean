import Kardamom.Lib.Spans
import Kardamom.Cluster.Frames

/-!
# The retained frames

The two stores that a member keeps its retained frames in: the heap (`HeapFrames`), or an
append-only file with an index of its boundaries on the heap (`RetainedFile`). The egress and the
member feed see either of them through one interface (`RetainedFrames`): they append at the head,
evict at the front, look a boundary up, and walk the frames by a key that stays valid while the
store grows and evicts.

The byte ring and the index ring of the heap store are a list of frames here, oldest first, and the
segments of the file are the list of its records: a position counts the bytes of the records before
it, so it does not depend on the segments.
-/

namespace Kardamom.Cluster

open Sealer (Boundary)
open Laid FrameKey

/-- The oldest record index and boundary block of a retention. -/
abbrev Floors := Point

/-! ## The heap store -/

structure HeapFrames where
  /-- The retained frames, oldest first. -/
  frames : List Frame
  /-- The frames that this store appended since its start: the walk key after the newest frame. -/
  appended : Int
  deriving DecidableEq, Repr

namespace HeapFrames

/-- A new store. -/
def fresh : HeapFrames := ⟨[], 0⟩

def append (h : HeapFrames) (frame : Frame) : HeapFrames := ⟨h.frames ++ [frame], h.appended + 1⟩

def count (h : HeapFrames) : Nat := h.frames.length

def evictFront (h : HeapFrames) : HeapFrames := { h with frames := h.frames.tail }

/-- Whether the frame is the boundary of `block`. -/
def isBoundaryOf (block : Int) (frame : Frame) : Bool := of frame == ⟨true, block⟩

/-- The place of the retained boundary of `block` among the frames, oldest first. -/
def boundaryPlace (h : HeapFrames) (block : Int) : Option Nat :=
  h.frames.findIdx? (isBoundaryOf block)

/-- The end index in a boundary frame. -/
def endTxIdx : Frame → Option Int
  | .boundary b => some b.endTxIdx
  | .relayed _ _ => none

section

variable (h : HeapFrames)
include h

def boundaryEnd (block : Int) : Int :=
  (((h.boundaryPlace block).bind fun place => h.frames[place]?).bind endTxIdx).getD (-1)

def walkFront : Int := h.appended - h.count

def walkHead : Int := h.appended

def walkStart (fromBlock : Int) : Int :=
  match h.boundaryPlace (fromBlock - 1) with
  | some place => h.walkFront + place + 1
  | none => h.walkFront

/-- The frame at `key`. -/
def view (key : Int) : Option Frame := h.frames[(key - h.walkFront).toNat]?

end

def walkNext (_ : HeapFrames) (key : Int) : Int := key + 1

def wanted (h : HeapFrames) (p : Point) : List Frame := h.frames.filter (FrameKey.wanted p)

/-- The retention section of a snapshot: every frame. -/
def writeSnapshot (h : HeapFrames) : List Frame := h.frames

/-- The floors moved down to a key, on its axis. -/
def lower (floors : Floors) (k : FrameKey) : Floors :=
  if k.boundary then { floors with block := min floors.block k.key }
  else { floors with index := min floors.index k.key }

/-- Retain the frames of a section, and move the floors down to the oldest of them. A snapshot of a
version before 8 has no section, and keeps the floors at the restore point. -/
def restore (h : HeapFrames) (section? : Option (List Frame)) (restorePoint : Floors) :
    HeapFrames × Floors :=
  let frames := section?.getD []
  (frames.foldl append h, frames.foldl (fun floors f => lower floors (of f)) restorePoint)

/-- Drop every frame. A key from before is below the front. -/
def clear (h : HeapFrames) : HeapFrames := { h with frames := [] }

end HeapFrames

/-! ## The file store -/

/-- One retained boundary of the file: its end index, and the position after its record. -/
structure Mark where
  endTxIdx : Int
  endPos : Nat
  deriving DecidableEq, Repr

instance : ToString Mark :=
  ⟨fun m => "Mark[endTxIdx=" ++ toString m.endTxIdx ++ ", endPos=" ++ toString m.endPos ++ "]"⟩

/-- The retention section of a snapshot with a retained file. -/
structure RetainedSection where
  floors : Floors
  count : Nat
  front : Nat
  head : Nat
  marks : SortedMap Int Mark

/-- `LENGTH_PREFIX`. -/
def lengthPrefix : Nat := 4

/-- The bytes of the record of a frame. -/
def recordBytes (frame : Frame) : Nat := lengthPrefix + frame.length

structure RetainedFile where
  /-- The records of the file, from position 0 on. -/
  records : List Frame
  /-- The retained boundaries by block number. -/
  boundaries : SortedMap Int Mark
  /-- The position of the oldest retained frame. -/
  frontPos : Nat
  /-- The position after the newest frame. -/
  headPos : Nat
  count : Nat

/-- The check of a retained file against the section of a snapshot, one record after the other. -/
structure RetainedWalk where
  frames : Nat
  marks : Nat
  /-- The lowest index that the next record can have. -/
  nextIndex : Int
  /-- Whether the next record must have exactly that index: it is the first after a boundary. -/
  afterBoundary : Bool

namespace RetainedWalk

def fail {α : Type} (pos : Nat) (why : String) : Except String α :=
  .error ("position " ++ toString pos ++ ": " ++ why)

/-- Check the index of one relayed record against the records and the boundary before it. -/
def record (walk : RetainedWalk) (pos : Nat) (index : Int) (after : Nat) :
    Except String (RetainedWalk × Nat) :=
  let fits := if walk.afterBoundary then index = walk.nextIndex else walk.nextIndex ≤ index
  if fits then .ok ({ walk with nextIndex := index + 1, afterBoundary := false }, after)
  else fail pos ("the record index " ++ toString index ++ " does not follow: the next index is "
    ++ (if walk.afterBoundary then "" else "at least ") ++ toString walk.nextIndex)

section

variable (sect : RetainedSection) (walk : RetainedWalk) (pos : Nat)

/-- Check one frame: a relayed frame, or a boundary that matches the index. -/
def frame (f : Frame) : Except String (RetainedWalk × Nat) :=
  let walk := { walk with frames := walk.frames + 1 }
  let after := pos + recordBytes f
  match f with
  | .relayed index _ => walk.record pos index after
  | .boundary b =>
    let expected : Mark := ⟨b.endTxIdx, after⟩
    if sect.marks.get? b.blockNumber ≠ some expected then
      fail pos ("the boundary of block " ++ toString b.blockNumber ++ " " ++ toString expected
        ++ " is not in the index")
    else if b.endTxIdx < walk.nextIndex then
      fail pos ("the boundary of block " ++ toString b.blockNumber ++ " ends at index "
        ++ toString b.endTxIdx ++ ", below the records before it")
    else
      .ok ({ walk with marks := walk.marks + 1, nextIndex := b.endTxIdx, afterBoundary := true },
        after)

/-- Read the record at `pos`. -/
def next (disk : List Frame) (sect : RetainedSection) (walk : RetainedWalk) (pos : Nat) :
    Except String (RetainedWalk × Nat) :=
  match (dropTo recordBytes disk pos).head? with
  | none => fail pos "no segment holds the position"
  | some f => walk.frame sect pos f

def totals : Except String Unit :=
  if pos ≠ sect.head ∨ walk.frames ≠ sect.count ∨ walk.marks ≠ sect.marks.entries.length then
    .error ("the walk ends at " ++ toString pos ++ " with " ++ toString walk.frames
      ++ " frames and " ++ toString walk.marks ++ " boundaries; the snapshot has head "
      ++ toString sect.head ++ ", " ++ toString sect.count ++ " frames and "
      ++ toString sect.marks.entries.length ++ " boundaries")
  else .ok ()

end

/-- The loop of `problem`: a record is longer than its prefix, so the disk bounds its rounds. -/
def loop (disk : List Frame) (sect : RetainedSection) :
    Nat → RetainedWalk → Nat → Except String (RetainedWalk × Nat)
  | 0, walk, pos => .ok (walk, pos)
  | fuel + 1, walk, pos =>
    if pos < sect.head then do
      let (walk, pos) ← walk.next disk sect pos
      loop disk sect fuel walk pos
    else .ok (walk, pos)

/-- Pass when the file holds exactly the frames of the section; else the first mismatch. -/
def problem (disk : List Frame) (sect : RetainedSection) : Except String Unit := do
  let (walk, pos) ← loop disk sect (disk.length + 1) ⟨0, 0, sect.floors.index, false⟩ sect.front
  totals sect walk pos

end RetainedWalk

namespace RetainedFile

/-- A new store over an empty directory. -/
def fresh : RetainedFile := ⟨[], .empty, 0, 0, 0⟩

/-- Index the frame when it is a boundary; `headPos` is the position after its record. -/
def markBoundary (boundaries : SortedMap Int Mark) (headPos : Nat) : Frame → SortedMap Int Mark
  | .boundary b => boundaries.upsert b.blockNumber fun _ => ⟨b.endTxIdx, headPos⟩
  | .relayed _ _ => boundaries

section

variable (r : RetainedFile)

def append (frame : Frame) : RetainedFile :=
  let headPos := r.headPos + recordBytes frame
  { r with
    records := r.records ++ [frame]
    boundaries := markBoundary r.boundaries headPos frame
    headPos := headPos
    count := r.count + 1 }

/-- The frame of the record at `pos`. -/
def frameAt (pos : Nat) : Option Frame := (dropTo recordBytes r.records pos).head?

/-- The position of the record after the record at `pos`. -/
def walkNext (pos : Nat) : Nat := pos + ((r.frameAt pos).map recordBytes).getD 0

def evictFront : RetainedFile :=
  { r with
    boundaries := match r.frameAt r.frontPos with
      | some (.boundary b) => r.boundaries.remove b.blockNumber
      | _ => r.boundaries
    frontPos := r.walkNext r.frontPos
    count := r.count - 1 }

def boundaryEnd (block : Int) : Int := ((r.boundaries.get? block).map Mark.endTxIdx).getD (-1)

def walkStart (fromBlock : Int) : Nat :=
  ((r.boundaries.get? (fromBlock - 1)).map Mark.endPos).getD r.frontPos

/-- The scan starts after the boundary of the block before the cursor's, when it is retained. -/
def wanted (p : Point) : List Frame :=
  (dropTo recordBytes r.records (r.walkStart p.block)).filter (FrameKey.wanted p)

def writeSnapshot (floors : Floors) : RetainedSection :=
  ⟨floors, r.count, r.frontPos, r.headPos, r.boundaries⟩

end

/-- Restore a section over the records that the disk holds: they are checked from the front to the
head, and the file ends at the head. A file that fails the walk stops the member. -/
def restore (disk : List Frame) (sect : RetainedSection) : Except String (RetainedFile × Floors) := do
  RetainedWalk.problem disk sect
  return (⟨takeTo recordBytes disk sect.head, sect.marks, sect.front, sect.head, sect.count⟩,
    sect.floors)

end RetainedFile

/-! ## The interface -/

/-- The store of a member, for its whole life: `kardamom.cluster.carryBytes` selects one. -/
inductive RetainedFrames where
  | heap (h : HeapFrames)
  | file (r : RetainedFile)

namespace RetainedFrames

/-- The width of a frame in walk keys: a frame number on the heap, a file position in the file. -/
def width : RetainedFrames → Frame → Nat
  | .heap _ => fun _ => 1
  | .file _ => recordBytes

/-- The retained frames, oldest first. -/
def frames : RetainedFrames → List Frame
  | .heap h => h.frames
  | .file r => dropTo recordBytes r.records r.frontPos

section

variable (s : RetainedFrames)

def append (frame : Frame) : RetainedFrames :=
  match s with
  | .heap h => .heap (h.append frame)
  | .file r => .file (r.append frame)

def count : RetainedFrames → Nat
  | .heap h => h.count
  | .file r => r.count

/-- Whether this store keeps the retained file. -/
def carriesBytes : RetainedFrames → Bool
  | .heap _ => false
  | .file _ => true

/-- The key of the oldest retained frame: `frontIsBoundary` and `frontKey`. -/
def front : Option FrameKey := s.frames.head?.map of

def evictFront : RetainedFrames → RetainedFrames
  | .heap h => .heap h.evictFront
  | .file r => .file r.evictFront

def boundaryEnd (block : Int) : Int :=
  match s with
  | .heap h => h.boundaryEnd block
  | .file r => r.boundaryEnd block

def wanted (p : Point) : List Frame :=
  match s with
  | .heap h => h.wanted p
  | .file r => r.wanted p

def walkStart (fromBlock : Int) : Int :=
  match s with
  | .heap h => h.walkStart fromBlock
  | .file r => r.walkStart fromBlock

def walkFront : RetainedFrames → Int
  | .heap h => h.walkFront
  | .file r => r.frontPos

def walkHead : RetainedFrames → Int
  | .heap h => h.walkHead
  | .file r => r.headPos

/-- The frame at a walk key. -/
def view (key : Int) : Option Frame :=
  match s with
  | .heap h => h.view key
  | .file r => r.frameAt key.toNat

def walkNext (key : Int) : Int :=
  match s with
  | .heap h => h.walkNext key
  | .file r => r.walkNext key.toNat

/-- Drop every frame. -/
def clear : RetainedFrames → RetainedFrames
  | .heap h => .heap h.clear
  | .file _ => .file .fresh

/-- The store of the member that restarts from a snapshot of this one, with `floors` the floors of
the snapshot. A snapshot of a version before 8 has no section (`sectioned`), which a member with the
file cannot read. The disk of the file may hold records past the head of the snapshot, `lost`. -/
def restart (floors : Floors) (sectioned : Bool) (lost : List Frame)
    (restorePoint : Floors) : Except String (RetainedFrames × Floors) :=
  match s with
  | .heap h =>
    let (h', floors') := HeapFrames.fresh.restore (if sectioned then some h.writeSnapshot else none)
      restorePoint
    .ok (.heap h', floors')
  | .file r =>
    if sectioned then do
      let (r', floors') ← RetainedFile.restore (r.records ++ lost) (r.writeSnapshot floors)
      return (.file r', floors')
    else .error "read the snapshot section"

end

end RetainedFrames

end Kardamom.Cluster
