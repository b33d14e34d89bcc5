import Kardamom.Sealer.State
import Kardamom.Sealer.VoidSnapshot

/-!
# The snapshot of the sealer

The bytes that `takeSnapshot` writes and `load` reads. The layout depends on the state: a section
that an older release does not know is written only when the state holds something to put there, and
the version in the header says which sections follow. `load` reads every version from 1 on.

Each section is written by one function and read by one function that threads the state it restores.
-/

namespace Kardamom.Sealer

open ByteCodec Get SealerException Function

/-- A refused snapshot (`IllegalArgumentException`). -/
def refuse {α : Type} (message : String) : SnapshotGet α := fail (.illegalArgument message)

/-! ## Recorded cursors -/

namespace RecordedCursors

def putCursor (c : Int × Int) : Bytes := putByte c.1 ++ putLong c.2

/-- Write the cursors in executor-id order. -/
def writeTo (r : RecordedCursors) : Bytes :=
  putByte r.recorded.entries.length ++ r.recorded.entries.flatMap putCursor

/-- Read one cursor; that of an executor which is not a voter drops. -/
def getCursor (cfg : VoidConfig) (r : RecordedCursors) : SnapshotGet RecordedCursors :=
  getByte.bind fun executorId => getLong.bind fun recordedThrough =>
    Get.pure (if cfg.isVoter (executorId % 256) then
      (r.onCursor (executorId % 256) recordedThrough).1 else r)

/-- Read what `writeTo` wrote; ids and the count are unsigned bytes. -/
def readFrom (cfg : VoidConfig) : SnapshotGet RecordedCursors := getByte.bind fun byte =>
    let count := byte % 256
    (ensure (fun remaining => count * (1 + 8) ≤ remaining) fun remaining =>
      illegalArgument
        s!"truncated snapshot: recorded cursor count {count}, {remaining} bytes remaining").bind
      fun _ => times (getCursor cfg) count.toNat start

end RecordedCursors

/-! ## Decision rules and the version switch -/

def putActivation (a : Activation) : Bytes := putWord a.origin ++ putWord a.time

namespace Schedule

/-- Write the held activations, oldest first. -/
def writeTo (s : Schedule) : Bytes := putByte s.held.length ++ s.held.flatMap putActivation

def getActivation (s : Schedule) : SnapshotGet Schedule :=
  getWord.bind fun origin => getWord.bind fun time => Get.pure (s.hold ⟨origin, time⟩)

/-- Hold what `writeTo` wrote after the activations held. -/
def readFrom (s : Schedule) : SnapshotGet Schedule := getByte.bind fun count =>
    (check (0 ≤ count ∧ count ≤ maxHeld)
      (illegalArgument s!"bad snapshot activation count: {count}")).bind fun _ =>
    times getActivation count.toNat s

end Schedule

namespace DecisionRules

/-- Write the tail of version 14: always decision version 3. -/
def writeTo (r : DecisionRules) : Bytes :=
  putByte 3 ++ (putWord r.sealedOrigin ++ r.activations.writeTo)

/-- A tail of decision version 2 loads like one of version 3. -/
def checkVersion (version : Int) : SnapshotGet Unit := check (version = 2 ∨ version = 3)
    (.illegalArgument s!"bad snapshot decision version: {version}")

/-- Read what `writeTo` wrote. -/
def readFrom : SnapshotGet DecisionRules :=
  getByte.bind fun version => (checkVersion version).bind fun _ =>
    getWord.bind fun sealedOrigin => (Schedule.readFrom .empty).bind fun activations =>
      Get.pure ⟨activations, sealedOrigin⟩

/-- Read the tail of version 13: at most one activation, the visible one. -/
def readVersionThirteen : SnapshotGet DecisionRules :=
  getByte.bind fun version => (checkVersion version).bind fun _ =>
    getWord.bind fun origin => getWord.bind fun time =>
      Get.pure (if origin = 0 then start
        else ⟨Schedule.empty.hold ⟨origin, if time = 0 then 1 else time⟩, origin⟩)

end DecisionRules

namespace VersionSwitch

section

variable (vs : VersionSwitch)

/-- Write the version, the sealed origin and the schedule of `sealerV4`. -/
def writeTo : Bytes :=
  putByte vs.version ++ (putWord vs.sealedOrigin ++ vs.v4.writeTo)

/-- Write the schedule of the carry flag. -/
def writeCarryTo : Bytes := vs.carry.writeTo

/-- Write the flag and the schedule of the carry window. -/
def writeWindowTo : Bytes :=
  putByte (if vs.carryWindow then 1 else 0) ++ vs.window.writeTo

end

/-- Read what `writeTo` wrote. -/
def readFrom : SnapshotGet VersionSwitch := getByte.bind fun version =>
    if h : offVersion ≤ version.toNat ∧ version.toNat ≤ carryVersion then
      getWord.bind fun sealedOrigin => (Schedule.readFrom .empty).bind fun v4 =>
        Get.pure ⟨v4, .empty, .empty, false, sealedOrigin, version.toNat, h⟩
    else refuse s!"bad snapshot decision version: {version}"

variable (vs : VersionSwitch)

/-- Read what `writeCarryTo` wrote. -/
def readCarryFrom : SnapshotGet VersionSwitch :=
  (Schedule.readFrom vs.carry).bind fun carry => Get.pure { vs with carry := carry }

/-- Read what `writeWindowTo` wrote. -/
def readWindowFrom : SnapshotGet VersionSwitch := getByte.bind fun flag =>
    (check (flag = 0 ∨ flag = 1)
      (illegalArgument s!"bad snapshot carry window flag: {flag}")).bind fun _ =>
    (Schedule.readFrom vs.window).bind fun window =>
      Get.pure { vs with carryWindow := decide (flag = 1), window := window }

/-- Whether the switch holds an activation of `sealerV4` or of the carry flag. -/
def holdsActivation : Bool := !vs.v4.held.isEmpty || !vs.carry.held.isEmpty

/-- Whether the switch holds an activation of the carry flag. -/
def holdsCarryActivation : Bool := !vs.carry.held.isEmpty

/-- Whether the switch holds an activation of the carry window. -/
def holdsWindowActivation : Bool := !vs.window.held.isEmpty

end VersionSwitch

/-! ## The replay windows -/

namespace SessionWindows

/-- Write one used slot. -/
def writeSlot (w : SessionWindows) (s : Nat) : Bytes :=
  putWord (w.keys s) ++ (putLong (w.highest s) ++ (putLong (w.lastSeen s)
    ++ (w.bits s).flatMap putWord))

variable (lay : WindowLayout)

section

variable (w : SessionWindows)

/-- Write the settings, then each used slot in slot order. -/
def writeTo : Bytes := putInt lay.slots ++ (putInt lay.width ++ (putInt w.used
    ++ (List.range w.used).flatMap w.writeSlot))

/-- The next slot, with the image read for it. -/
def addSlot (key : UInt64) (highest lastSeen : Int)
    (bits : List UInt64) : SessionWindows :=
  { w with
    keys := update w.keys w.used key
    highest := update w.highest w.used highest
    lastSeen := update w.lastSeen w.used lastSeen
    bits := update w.bits w.used bits
    table := ProbeTable.insert (tableSize lay) w.table (hash lay key) w.used
    used := w.used + 1 }

/-- The words of one bitmap. -/
def getBits : SnapshotGet (List UInt64) :=
  Get.times (fun bits => getWord.bind fun word => Get.pure (bits ++ [word])) lay.wordsPerSlot []

def readSlot : SnapshotGet SessionWindows :=
  getWord.bind fun key => getLong.bind fun highest => getLong.bind fun lastSeen =>
    (getBits lay).bind fun bits => Get.pure (w.addSlot lay key highest lastSeen bits)

end

/-- Read what `writeTo` wrote. The settings must match this member's. -/
def readFrom : SnapshotGet SessionWindows :=
  getInt.bind fun snapSlots => getInt.bind fun snapWidth =>
    let slots := lay.slots
    let width := lay.width
    (Get.check (snapSlots = slots ∧ snapWidth = width)
      (illegalState ("session window settings differ from the snapshot: "
        ++ s!"{slots}/{width} here, {snapSlots}/{snapWidth} in the snapshot"))).bind fun _ =>
    getInt.bind fun count =>
    (Get.check (0 ≤ count ∧ count ≤ slots)
      (illegalArgument s!"bad snapshot session window count: {count}")).bind
      fun _ => times (readSlot lay) count.toNat empty

end SessionWindows

/-! ## The state -/

/-- `SNAPSHOT_MAGIC`, "KSEA". -/
def snapshotMagic : Int := 0x4B534541

/-- How many epoch ids a window may hold above its cap (`MARKER_SLACK`). -/
def markerSlack : Nat := 4096

/-- The version with the recorded cursors (`CURSORS_SNAPSHOT_VERSION`). -/
def cursorsSnapshotVersion : Int := 11

/-- The version without the void ledger (`RETAINED_FILE_SNAPSHOT_VERSION`). -/
def retainedFileSnapshotVersion : Int := 12

/-- The version with the rules of one activation (`ONE_ACTIVATION_SNAPSHOT_VERSION`). -/
def oneActivationSnapshotVersion : Int := 13

/-- The version of a state that holds no activation (`SNAPSHOT_WRITE_VERSION`). -/
def snapshotWriteVersion : Int := 14

/-- The version with the switch and the replay windows (`SWITCH_SNAPSHOT_VERSION`). -/
def switchSnapshotVersion : Int := 15

/-- The version with the schedule of the carry flag (`CARRY_SNAPSHOT_VERSION`). -/
def carrySnapshotVersion : Int := 16

/-- The version whose retention section is a retained file (`FILE_SNAPSHOT_VERSION`). -/
def fileSnapshotVersion : Int := 17

/-- The version with the carry window section (`WINDOW_SNAPSHOT_VERSION`). -/
def windowSnapshotVersion : Int := 18

/-- `Integer.toHexString`. -/
def toHexString (x : Int) : String := String.ofList (Nat.toDigits 16 (x % 2 ^ 32).toNat)

namespace SeedStatus

def ordinal : SeedStatus → Int
  | .genesis => 0
  | .pending => 1
  | .confirmed => 2

/-- `seedStatusOf`. -/
def ofCode (code : Int) : SnapshotGet SeedStatus :=
  if code = 0 then Get.pure .genesis
  else if code = 1 then Get.pure .pending
  else if code = 2 then Get.pure .confirmed
  else refuse s!"bad snapshot seed status: {code}"

end SeedStatus

namespace CanonicalSealerState

/-! ### Writing -/

section Write

variable (cfg : SealerConfig) (s : CanonicalSealerState)

/-- The version that `takeSnapshot` writes: the lowest whose sections hold the state's schedules. -/
def snapshotVersion : Int :=
  if s.versions.holdsWindowActivation then windowSnapshotVersion
  else if s.versions.holdsCarryActivation then carrySnapshotVersion
  else if s.versions.holdsActivation then switchSnapshotVersion
  else snapshotWriteVersion

def putHeld (e : CanonicalId × Int) : Bytes := putId e.1 ++ putLong e.2

def putExpected (e : Sender × UInt64) : Bytes := putSender e.1 ++ putWord e.2

def putPeer (e : UInt64 × RemotePeer) : Bytes :=
  putWord e.1 ++ (putWord e.2.anchorNumber ++ (putByte (if e.2.nextSeqKnown then 1 else 0)
    ++ putWord e.2.nextSeq))

/-- The dedup window in insertion order, each id with the deadline that frees it. -/
def putIds : Bytes := putInt s.dedup.size ++ s.dedup.dedup.entries.flatMap putHeld

/-- The nonce guard, eldest sender first. -/
def putSenders : Bytes := putInt s.expectedNonce.size ++ s.expectedNonce.entries.flatMap putExpected

def putOrigin : Bytes :=
  putWord s.l1Origin.toUInt64 ++ (putLong s.lastL2Timestamp ++ putLong s.lastBoundaryCount)

/-- The remote peers in insertion order. -/
def putPeers : Bytes := putInt s.remoteOrigins.size ++ s.remoteOrigins.entries.flatMap putPeer

def putSeed : Bytes := putByte s.seedStatus.ordinal ++ putId s.seedDigest

/-- The sections of version 11 and later, after the seed digest. -/
def snapshotTail (version : Int) : Bytes :=
  let withCursors := version = cursorsSnapshotVersion
  let withWindow := version = windowSnapshotVersion
  let withCarry := version = carrySnapshotVersion ∨ version = fileSnapshotVersion ∨ withWindow
  let withSwitch := version = switchSnapshotVersion ∨ withCarry
  let withRules := version = snapshotWriteVersion ∨ withSwitch
  (if withCursors then s.recorded.writeTo else []) ++ ((if withRules then s.rules.writeTo else [])
    ++ ((if withSwitch then s.versions.writeTo ++ s.windows.writeTo .default else [])
    ++ ((if withCarry then s.versions.writeCarryTo else [])
    ++ (if withWindow then s.versions.writeWindowTo else []))))

/-- The bytes of the snapshot in the layout of `version`. -/
def snapshotBytes (version : Int) : Bytes :=
  let withVoids := version ≠ retainedFileSnapshotVersion
  putInt snapshotMagic ++ (putInt version ++ (putLong s.canonicalCount ++ (putLong s.blockNumber
    ++ (s.putIds ++ (s.putSenders ++ (s.putOrigin ++ (s.putPeers
    ++ ((if withVoids then s.voids.writeTo cfg.voids s.canonicalCount else [])
    ++ (putInt cfg.orderingWindow ++ (putLong s.postedHead ++ (s.putSeed
    ++ s.snapshotTail version)))))))))))

/-- The snapshot in the layout of `version`. The buffer's size is a Java `int`: a snapshot that is
too long for one throws, either because the size is negative or because the buffer overflows. -/
def takeSnapshotAt (version : Int) : Option Bytes :=
  if (s.snapshotBytes cfg version).length < 2 ^ 31 then some (s.snapshotBytes cfg version) else none

/-- `takeSnapshot`. -/
def takeSnapshot : Option Bytes := s.takeSnapshotAt cfg s.snapshotVersion

/-- The state section of a snapshot whose retention section is a retained file. -/
def takeSnapshotWithRetainedFile : Option Bytes := s.takeSnapshotAt cfg fileSnapshotVersion

end Write

/-! ### Reading -/

section Read

variable (cfg : SealerConfig) (version : Int) (s : CanonicalSealerState)

/-- One id; before version 7 it has no deadline and is held for a full horizon. -/
def loadId : SnapshotGet CanonicalSealerState := getId.bind fun id =>
    if 7 ≤ version then getLong.bind fun held => Get.pure (s.insertFresh cfg id held)
    else Get.pure (s.insertFresh cfg id (s.assignedDeadline cfg))

/-- The dedup window, in its insertion order. -/
def loadIds : SnapshotGet CanonicalSealerState := getInt.bind fun idCount =>
    let capacity := cfg.dedupCapacity
    let slack := markerSlack
    let needed := idCount * (if 7 ≤ version then 32 + 8 else 32)
    (check (0 ≤ idCount ∧ idCount ≤ capacity + slack) (illegalArgument
        (s!"snapshot idCount {idCount} outside [0, dedupCapacity={capacity} + {slack}]"
          ++ " — members must agree on the configured window"))).bind fun _ =>
    (ensure (fun remaining => needed ≤ remaining) fun remaining =>
      illegalArgument
        s!"truncated snapshot: idCount {idCount} needs {needed} bytes, only {remaining} remaining"
      ).bind fun _ => Get.times (loadId cfg version) idCount.toNat s

def loadSender : SnapshotGet CanonicalSealerState :=
  getSender.bind fun sender => getWord.bind fun expected =>
    Get.pure { s with
      expectedNonce := putNonce cfg.dedupCapacity s.expectedNonce sender expected }

/-- The nonce guard: putting the senders eldest first rebuilds the access order. -/
def loadSenders : SnapshotGet CanonicalSealerState :=
  if version < 2 then Get.pure s
  else getInt.bind fun senderCount =>
    let capacity := cfg.dedupCapacity
    let needed := senderCount * (20 + 8)
    (check (0 ≤ senderCount ∧ senderCount ≤ capacity) (illegalArgument
        (s!"snapshot senderCount {senderCount} outside [0, capacity={capacity}]"
          ++ " — members must agree on the configured window"))).bind fun _ =>
    (ensure (fun remaining => needed ≤ remaining) fun remaining =>
      illegalArgument (s!"truncated snapshot: senderCount {senderCount} needs {needed} bytes, "
          ++ s!"only {remaining} remaining")).bind fun _ =>
    Get.times (loadSender cfg) senderCount.toNat s

def loadOrigin : SnapshotGet CanonicalSealerState :=
  if version < 3 then Get.pure s
  else getWord.bind fun l1Origin => getLong.bind fun lastL2Timestamp =>
    getLong.bind fun lastBoundaryCount =>
      Get.pure { s with
        l1Origin := l1Origin.toInt64
        lastL2Timestamp := lastL2Timestamp
        lastBoundaryCount := lastBoundaryCount }

/-- One peer; an entry of version 4 has no lane cursor. -/
def loadPeer : SnapshotGet CanonicalSealerState :=
  getWord.bind fun originChainId => getWord.bind fun anchorNumber =>
    if 5 ≤ version then getByte.bind fun known => getWord.bind fun nextSeq =>
      Get.pure { s with remoteOrigins :=
        s.remoteOrigins.put originChainId ⟨anchorNumber, decide (known ≠ 0), nextSeq⟩ }
    else Get.pure { s with
      remoteOrigins := s.remoteOrigins.put originChainId ⟨anchorNumber, false, 0⟩ }

def loadPeers : SnapshotGet CanonicalSealerState :=
  if version < 4 then Get.pure s
  else getInt.bind fun remoteCount =>
    let needed := remoteCount * (if 5 ≤ version then 8 + 8 + 1 + 8 else 8 + 8)
    (ensure (fun remaining => 0 ≤ remoteCount ∧ needed ≤ remaining) fun remaining =>
      illegalArgument (s!"truncated snapshot: remoteCount {remoteCount} needs {needed} bytes, "
          ++ s!"only {remaining} remaining")).bind fun _ =>
    Get.times (loadPeer version) remoteCount.toNat s

def loadVoids : SnapshotGet CanonicalSealerState :=
  if 6 ≤ version ∧ version ≠ retainedFileSnapshotVersion then
    (VoidLedger.readFrom cfg.voids).bind fun voids => Get.pure { s with voids := voids }
  else Get.pure s

/-- The ordering window that the cluster runs: a member with another one halts here. -/
def loadOrderingWindow : SnapshotGet CanonicalSealerState :=
  if version < 8 then Get.pure s
  else getInt.bind fun snapshotWindow =>
    let window := cfg.orderingWindow
    (check (snapshotWindow = window) (illegalArgument
        (s!"snapshot orderingWindow {snapshotWindow} differs from this member's {window}"
          ++ " — members must agree on the ordering window"))).bind fun _ => Get.pure s

def loadPostedHead : SnapshotGet CanonicalSealerState :=
  if version < 9 then Get.pure s
  else getLong.bind fun postedHead => Get.pure { s with postedHead := postedHead }

def loadSeed : SnapshotGet CanonicalSealerState :=
  if version < 10 then Get.pure s
  else getByte.bind fun code => (SeedStatus.ofCode code).bind fun status =>
    getId.bind fun digest => Get.pure { s with seedStatus := status, seedDigest := digest }

def loadCursors : SnapshotGet CanonicalSealerState :=
  if version = cursorsSnapshotVersion then
    (RecordedCursors.readFrom cfg.voids).bind fun recorded =>
      Get.pure { s with recorded := recorded }
  else Get.pure s

def loadRules : SnapshotGet CanonicalSealerState :=
  if version = oneActivationSnapshotVersion then
    DecisionRules.readVersionThirteen.bind fun rules => Get.pure { s with rules := rules }
  else if snapshotWriteVersion ≤ version then
    DecisionRules.readFrom.bind fun rules => Get.pure { s with rules := rules }
  else Get.pure s

def loadSwitch : SnapshotGet CanonicalSealerState :=
  if switchSnapshotVersion ≤ version then
    VersionSwitch.readFrom.bind fun versions =>
      (SessionWindows.readFrom .default).bind fun windows =>
        Get.pure { s with versions := versions, windows := windows }
  else Get.pure s

def loadCarry : SnapshotGet CanonicalSealerState :=
  if carrySnapshotVersion ≤ version then
    s.versions.readCarryFrom.bind fun versions => Get.pure { s with versions := versions }
  else Get.pure s

def loadWindow : SnapshotGet CanonicalSealerState :=
  if version = windowSnapshotVersion then
    s.versions.readWindowFrom.bind fun versions => Get.pure { s with versions := versions }
  else Get.pure s

/-- The sections after the seed digest. -/
def loadTail : SnapshotGet CanonicalSealerState :=
  (loadCursors cfg version s).bind fun s => (loadRules version s).bind fun s =>
  (loadSwitch version s).bind fun s => (loadCarry version s).bind fun s => loadWindow version s

/-- The sections after the header, in their order. -/
def loadSections : SnapshotGet CanonicalSealerState :=
  (loadIds cfg version s).bind fun s => (loadSenders cfg version s).bind fun s =>
  (loadOrigin version s).bind fun s => (loadPeers version s).bind fun s =>
  (loadVoids cfg version s).bind fun s => (loadOrderingWindow cfg version s).bind fun s =>
  (loadPostedHead version s).bind fun s => (loadSeed version s).bind fun s =>
  loadTail cfg version s

/-- Restore a state from a snapshot of any version. -/
def load : SnapshotGet CanonicalSealerState := getInt.bind fun magic =>
  (Get.check (magic = snapshotMagic)
    (illegalArgument ("bad snapshot magic: 0x" ++ toHexString magic))).bind fun _ =>
  getInt.bind fun version =>
  (Get.check (1 ≤ version ∧ version ≤ 18)
    (illegalArgument s!"unsupported snapshot version: {version}")).bind fun _ =>
  getLong.bind fun canonicalCount => getLong.bind fun blockNumber =>
  (loadSections cfg version { genesis with blockNumber := blockNumber }).bind fun s =>
  Get.pure { s with canonicalCount := canonicalCount }

end Read

end CanonicalSealerState

end Kardamom.Sealer
