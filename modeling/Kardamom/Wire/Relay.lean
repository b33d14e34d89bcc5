import Kardamom.Wire.Entry

/-!
# The relay of the Java sealer

How the sealer turns one ingress frame into one egress frame: it keeps the canonical id and
everything from the record type on, drops the bytes in front of the id and the service-only header
behind it, and puts `[kind][index][payload_len]` in front. A full reference under decision version 5
goes out as its canonical entry instead. An Agrona buffer read out of range throws: it is `none`.
-/

namespace Kardamom.Wire

open ByteCodec List Option
open Sealer (Bytes)

/-- The relay of one ingress kind. -/
structure RelayShape where
  kind : UInt8
  /-- The bytes in front of the canonical id. -/
  idOffset : Nat
  /-- The service-only header between the canonical id and the record type. -/
  afterId : Nat
  deriving DecidableEq, Repr

open RelayShape

open RelayShape

namespace RelayShape

def ingressRecord : RelayShape := ⟨kindIngressRecord, ingressCanonicalIdOffset, 0⟩

def originRecord : RelayShape := ⟨kindOriginRecord, 1, 12⟩

def remoteOriginRecord : RelayShape := ⟨kindRemoteOriginRecord, 1, 36⟩

variable (shape : RelayShape)

/-- The offset of the record type. -/
def tailOffset : Nat := shape.idOffset + canonicalIdLen + shape.afterId

/-- The shortest frame of this kind that the service takes. -/
def minLength : Nat := shape.tailOffset + 1

/-- The relayed payload of the frame of `length` bytes at `offset`. -/
def payload (buffer : Bytes) (offset length : Nat) : Option Bytes :=
  if length < shape.tailOffset then none else do
    let id ← slice buffer (offset + shape.idOffset) canonicalIdLen
    let tail ← slice buffer (offset + shape.tailOffset) (length - shape.tailOffset)
    return id ++ tail

/-- A frame by its parts relays as its id and its tail. -/
theorem payload_eq (front id header tail : Bytes) (hfront : front.length = shape.idOffset)
    (hid : id.length = canonicalIdLen) (hheader : header.length = shape.afterId) :
    shape.payload (front ++ (id ++ (header ++ tail))) 0
      (front ++ (id ++ (header ++ tail))).length = some (id ++ tail) := by
  have hlen : (front ++ (id ++ (header ++ tail))).length = shape.tailOffset + tail.length := by
    simp only [length_append, tailOffset]
    omega
  have hidAt : slice (front ++ (id ++ (header ++ tail))) (0 + shape.idOffset) canonicalIdLen
      = some id := by
    rw [Nat.zero_add, slice_append_right hfront.le, hfront, Nat.sub_self, slice_append_left hid]
  have htailAt : slice (front ++ (id ++ (header ++ tail))) (0 + shape.tailOffset) tail.length
      = some tail := by
    have hskip : shape.tailOffset - front.length - id.length - header.length = 0 := by
      simp only [tailOffset]
      omega
    rw [Nat.zero_add, slice_append_right (by simp only [tailOffset]; omega),
      slice_append_right (by simp only [tailOffset]; omega),
      slice_append_right (by simp only [tailOffset]; omega), hskip, slice_self rfl]
  rw [payload, if_neg (by omega), hidAt, hlen, Nat.add_sub_cancel_left, htailAt]
  rfl

end RelayShape

/-! ## Egress frames of the sealer -/

namespace EgressFrames

/-- `[kind:1][index:u64][payload_len:u32]`; the length is a Java `int`, written as its 32 bits. -/
def relayedHeader (index : UInt64) (payloadLength : Nat) : Bytes :=
  [egressKindRelayed] ++ u64Le index ++ u32Le (UInt32.ofNat payloadLength)

/-- A relayed record: the payload is copied through as it is. -/
def relayed (index : UInt64) (payload : Bytes) : Bytes :=
  relayedHeader index payload.length ++ payload

/-- A block boundary. -/
def boundary (blockNumber endTxIdx l2Timestamp l1Origin : UInt64) : Bytes :=
  [egressKindBoundary] ++ u64Le blockNumber ++ u64Le endTxIdx ++ u64Le l2Timestamp ++ u64Le l1Origin

end EgressFrames

open EgressFrames

/-! ## The view of a full reference -/

namespace TxRefOfferView

def laneOffset : Nat := canonicalIdLen + 1
def envelopeOffset : Nat := laneOffset + 1 + 4 + 4 + 4
def minPayloadLen : Nat := envelopeOffset + envelopeRootLen

/-- Whether the payload holds the reference and an envelope of at least its root. -/
def isWhole (payload : Bytes) : Bool := decide (minPayloadLen ≤ payload.length)

/-- The canonical entry of a payload: the id, record type 6, the lane and the envelope. -/
def writeCanonical (payload : Bytes) : Option Bytes := do
  let id ← slice payload 0 canonicalIdLen
  let lane ← slice payload laneOffset 1
  let envelope ← sliceFrom payload envelopeOffset
  return id ++ ([rtTx] ++ (lane ++ envelope))

end TxRefOfferView

open TxRefOfferView

/-! ## The service -/

namespace TxOffer

/-- Whether a payload names the canonical entry type. -/
def isCanonical (payload : Bytes) : Bool := payload[canonicalIdLen]? == some rtTx

/-- The canonical payload of a full entry; nothing when the payload is none. -/
def canonicalOf (payload : Bytes) : Option Bytes :=
  if canonicalIdLen + 2 ≤ payload.length ∧ payload[canonicalIdLen]? = some rtTxOffer then
    some (payload.set canonicalIdLen rtTx)
  else none

end TxOffer

open TxOffer

section

variable (fileStore : Bool)

/-- The relayed payload of a kind-0 record. A member with the retained file takes no canonical entry
from a session, and relays a full entry as one. -/
def relayOf (payload : Bytes) : Option Bytes :=
  if !fileStore then some payload
  else if isCanonical payload then none
  else some ((canonicalOf payload).getD payload)

/-- Every record but a full entry and a canonical entry is relayed as it came. -/
theorem relayOf_eq {id : Bytes} (hid : id.length = canonicalIdLen)
    {recordType : UInt8} (hoffer : recordType ≠ rtTxOffer) (htx : recordType ≠ rtTx)
    (fields : Bytes) :
    relayOf fileStore (id ++ ([recordType] ++ fields)) = some (id ++ ([recordType] ++ fields)) := by
  have htype : (id ++ ([recordType] ++ fields))[canonicalIdLen]? = some recordType := by
    rw [getElem?_append_right hid.le, hid]
    rfl
  have hnot : isCanonical (id ++ ([recordType] ++ fields)) = false := by
    rw [isCanonical, htype]
    simpa using htx
  have hnone : canonicalOf (id ++ ([recordType] ++ fields)) = none := by
    rw [canonicalOf, htype, if_neg]
    rintro ⟨-, h⟩
    exact hoffer (some.inj h)
  cases fileStore with
  | false => rfl
  | true =>
    rw [relayOf, hnot, hnone]
    rfl

/-- The egress frame of a kind-0 record that the sealer ordered at `index` and relays as it is. -/
def relayRecord (index : UInt64) (frame : Bytes) : Option Bytes := do
  let payload ← ingressRecord.payload frame 0 frame.length
  let relay ← relayOf fileStore payload
  return relayed index relay

end

/-- The egress frame of a full reference that decision version 5 ordered at `index`. -/
def relayCarried (index : UInt64) (frame : Bytes) : Option Bytes := do
  let payload ← ingressRecord.payload frame 0 frame.length
  if isWhole payload then
    let entry ← writeCanonical payload
    return relayed index entry
  else none

/-- The egress frame of an origin-advancing record of `shape` that the sealer ordered at `index`; a
frame without its record type is dropped. -/
def relayAdvance (shape : RelayShape) (index : UInt64) (frame : Bytes) : Option Bytes :=
  if frame.length < shape.minLength then none
  else (shape.payload frame 0 frame.length).map (relayed index)

/-- The egress frame of an epoch. -/
def relayOrigin : UInt64 → Bytes → Option Bytes := relayAdvance .originRecord

/-- The egress frame of a remote batch. -/
def relayRemoteOrigin : UInt64 → Bytes → Option Bytes := relayAdvance .remoteOriginRecord

/-- An origin-advancing frame by its parts relays as its id and its tail. -/
theorem relayAdvance_eq {shape : RelayShape} (hoffset : shape.idOffset = 1) (index : UInt64)
    (id : B256) {header : Bytes} (hheader : header.length = shape.afterId) (recordType : UInt8)
    (body : Bytes) :
    relayAdvance shape index ([shape.kind] ++ (idBytes id ++ (header ++ ([recordType] ++ body))))
      = some (relayed index (idBytes id ++ ([recordType] ++ body))) := by
  rw [relayAdvance, if_neg, payload_eq shape [shape.kind] _ _ _ hoffset.symm
    (length_idBytes id) hheader, map_some]
  simp only [length_append, length_singleton, length_idBytes, hheader,
    minLength, tailOffset, canonicalIdLen, hoffset]
  omega

end Kardamom.Wire
