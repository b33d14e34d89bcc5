import Kardamom.Wire.Entry

/-!
# Egress frames

The Rust reader of everything the sealer sends. `EgressItem.decode` answers an item or an error for
every byte string: each index behind a checked read is in range (`EgressItem.noPanic_decode`).
-/

namespace Kardamom.Wire

open ByteCodec Outcome CanonicalTx WireError
open Sealer (Bytes)

/-- Why the sealer refused a remote-origin record. -/
inductive RemoteOriginRejectReason where
  | seqMismatch
  | anchorRegressed
  | slotCountMismatch
  | unknownOrigin
  | badRange
  | unknown (code : UInt8)
  deriving DecidableEq, Repr

/-- Every code reads as a reason. -/
def RemoteOriginRejectReason.ofCode (code : UInt8) : RemoteOriginRejectReason :=
  if code = 1 then seqMismatch
  else if code = 2 then anchorRegressed
  else if code = 3 then slotCountMismatch
  else if code = 4 then unknownOrigin
  else if code = 5 then badRange
  else unknown code

/-- The record-lag part of a status. -/
structure RecordLagStatus where
  bestRecorded : Option UInt64
  budget : UInt64
  halted : Bool
  deriving DecidableEq, Repr

/-- The chain's data-availability status. -/
structure ClusterStatus where
  postedHead : UInt64
  sealedHead : UInt64
  budgetBlocks : UInt64
  halted : Bool
  retainedFrames : UInt64
  floorIndex : UInt64
  floorBlock : UInt64
  recordLag : RecordLagStatus
  snapshotFollows : Bool
  retainedBytes : Option UInt64
  deriving DecidableEq, Repr

/-- A decoded egress item. -/
inductive EgressItem where
  | record (index : UInt64) (msg : TxOrderingMessage)
  | tx (index : UInt64) (tx : CanonicalTx)
  | relayedRef (r : RelayedRef)
  | feedGap (nextIndex nextBlock requestId : UInt64)
  | boundary (b : BlockBoundaryStart)
  | replayUnavailable (oldestIndex oldestBlock : UInt64) (requestId : Option UInt64)
  | replayDone (upToIndex upToBlock : UInt64) (requestId : Option UInt64)
  | replayAhead (headIndex headBlock : UInt64) (requestId : Option UInt64)
  | sealerInfo (decisionVersion : UInt8) (sessionId : Int64)
  | sessionStart (sessionId : Int64)
  | contiguityReject (sender : Address) (nonce expected : UInt64)
  | pastDeadline (sender : Address) (nonce maxInclusionBlock atBlock : UInt64)
  | windowFull (sender : Address) (nonce : UInt64)
  | remoteOriginReject (originChainId firstSeq expectedNextSeq : UInt64)
      (reason : RemoteOriginRejectReason)
  | status (s : ClusterStatus)
  | originGap (offeredOrigin expectedOrigin : UInt64)
  | daLagReject (sender : Address) (nonce sealedHead postedHead budgetBlocks : UInt64)
  | recordLagReject (sender : Address) (nonce sealedIndex recordedIndex budget : UInt64)
  | refRefused (r : RefRefused)
  deriving DecidableEq, Repr

/-! ## Relayed payloads -/

/-- A relayed payload: the canonical id, the record type, the fields. -/
structure RelayedPayload where
  id : B256
  recordType : UInt8
  fields : Bytes
  deriving DecidableEq, Repr

open RelayedPayload

namespace RelayedPayload

def parse (p : Bytes) : Decoded RelayedPayload := do
  let id ← rdB256 p 0
  let recordType ← rdU8 p canonicalIdLen
  let fields ← indexFrom p (canonicalIdLen + 1)
  return ⟨id, recordType, fields⟩

section

variable (p : RelayedPayload)

def decodeTxref : Decoded TxOrderingMessage := do
  let shardId ← rdU8 p.fields 0
  let termId ← rdI32 p.fields 1
  let termOffset ← rdI32 p.fields 5
  let sessionId ← rdI32 p.fields 9
  return .txRef ⟨p.id, shardId, ⟨termId, termOffset⟩, sessionId⟩

def decodeDepositref : Decoded TxOrderingMessage := do
  let termId ← rdI32 p.fields 0
  let termOffset ← rdI32 p.fields 4
  return .depositRef ⟨p.id, ⟨termId, termOffset⟩⟩

/-- The canonical-id field of a void record holds the hash of the removed transaction. -/
def decodeVoid : Decoded TxOrderingMessage := do
  let index ← rdU64 p.fields 0
  return .void ⟨index, p.id⟩

end

variable (C : Codecs)

variable (p : RelayedPayload)

/-- An id that is not the epoch's own is refused. -/
def decodeEpoch : Decoded TxOrderingMessage := do
  let epoch ← ofExcept badEpoch (C.epoch.fromBytes p.fields)
  if epoch.canonicalId C ≠ p.id then
    .err (.badEpoch ("canonical id " ++ p.id.display ++ " does not match epoch for L1 block "
      ++ toString epoch.l1Number))
  else return .epoch epoch

/-- An id that is not the batch's own is refused: it is what binds the header to the body. -/
def decodeRemoteEpoch : Decoded TxOrderingMessage := do
  let rec ← ofExcept badRemoteEpoch (RemoteEpochRecord.fromArchive C p.fields)
  if rec.canonicalId C ≠ p.id then
    .err (.badRemoteEpoch ("canonical id " ++ p.id.display
      ++ " does not match remote epoch from chain " ++ toString rec.originChainId ++ " seqs "
      ++ toString rec.firstSeq ++ "..=" ++ toString rec.lastSeq))
  else return .remoteEpoch rec

def decode : Decoded TxOrderingMessage :=
  if p.recordType = rtTxref then p.decodeTxref
  else if p.recordType = rtDepositref then p.decodeDepositref
  else if p.recordType = rtEpoch then p.decodeEpoch C
  else if p.recordType = rtRemoteEpoch then p.decodeRemoteEpoch C
  else if p.recordType = rtVoid then p.decodeVoid
  else .err (.badRecordType p.recordType)

/-- The egress item of this payload at `index`. A full reference and its canonical entry make the same
item; a full entry is never relayed, so it is refused. -/
def intoItem (index : UInt64) : Decoded EgressItem :=
  if p.recordType = rtTx then do
    let tx ← CanonicalTx.parse C p.id p.fields
    return .tx index tx
  else if p.recordType = rtTxrefOffer then do
    let tx ← parseFullRef C p.id p.fields
    return .tx index tx
  else if p.recordType = rtTxOffer then .err (.unrelayedRecordType p.recordType)
  else do
    let msg ← p.decode C
    return .record index msg

end RelayedPayload

/-! ## Frames -/

namespace EgressItem

section

variable (buf : Bytes)

/-- The request id of a feed answer; a frame of the cluster egress has none. -/
def decodeRequestId : Decoded (Option UInt64) :=
  if buf.length < feedAnswerLen then return none
  else do
    let id ← rdU64 buf feedRequestIdOffset
    return some id

/-- An answer of the shape `[kind][a][b]`, with the request id as an optional tail. -/
def decodeAnswer (make : UInt64 → UInt64 → Option UInt64 → EgressItem) (buf : Bytes) :
    Decoded EgressItem := do
  let a ← rdU64 buf 1
  let b ← rdU64 buf 9
  let requestId ← decodeRequestId buf
  return make a b requestId

def decodeBoundary : Decoded EgressItem := do
  let blockNumber ← rdU64 buf 1
  let endTxIdx ← rdU64 buf 9
  let l2Timestamp ← rdU64 buf 17
  let l1Origin ← rdU64 buf 25
  return .boundary ⟨blockNumber, .fromIndex endTxIdx, l2Timestamp, l1Origin⟩

def decodeContiguityReject : Decoded EgressItem := do
  let sender ← rdAddress buf 1
  let nonce ← rdU64 buf 21
  let expected ← rdU64 buf 29
  return .contiguityReject sender nonce expected

def decodePastDeadline : Decoded EgressItem := do
  let sender ← rdAddress buf 1
  let nonce ← rdU64 buf 21
  let maxInclusionBlock ← rdU64 buf 29
  let atBlock ← rdU64 buf 37
  return .pastDeadline sender nonce maxInclusionBlock atBlock

def decodeWindowFull : Decoded EgressItem := do
  let sender ← rdAddress buf 1
  let nonce ← rdU64 buf 21
  return .windowFull sender nonce

end

/-- The two lag rejects have one layout. -/
def decodeLagReject (make : Address → UInt64 → UInt64 → UInt64 → UInt64 → EgressItem)
    (buf : Bytes) : Decoded EgressItem := do
  let sender ← rdAddress buf 1
  let nonce ← rdU64 buf 21
  let head ← rdU64 buf 29
  let floor ← rdU64 buf 37
  let budget ← rdU64 buf 45
  return make sender nonce head floor budget

def decodeDaLagReject : Bytes → Decoded EgressItem := decodeLagReject .daLagReject

def decodeRecordLagReject : Bytes → Decoded EgressItem := decodeLagReject .recordLagReject

section

variable (buf : Bytes)

def decodeRemoteOriginReject : Decoded EgressItem := do
  let originChainId ← rdU64 buf 1
  let firstSeq ← rdU64 buf 9
  let expectedNextSeq ← rdU64 buf 17
  let reason ← rdU8 buf 25
  return .remoteOriginReject originChainId firstSeq expectedNextSeq (.ofCode reason)

/-- The tail of a status behind its first `statusLen` bytes. -/
def decodeRecordLagTail : Decoded RecordLagStatus :=
  if buf.length ≤ statusLen then return ⟨none, 0, false⟩
  else do
    let best ← rdU64 buf statusLen
    let budget ← rdU64 buf (statusLen + 8)
    let halted ← rdU8 buf (statusLen + 16)
    return ⟨if best ≠ 0xFFFFFFFFFFFFFFFF then some best else none, budget, halted ≠ 0⟩

def decodeRetainedBytesTail : Decoded (Option UInt64) :=
  if buf.length < statusWithRetainedBytesLen then return none
  else do
    let n ← rdU64 buf statusRetainedBytesOffset
    return some n

def decodeStatus : Decoded EgressItem := do
  let postedHead ← rdU64 buf 1
  let sealedHead ← rdU64 buf 9
  let budgetBlocks ← rdU64 buf 17
  let halted ← rdU8 buf 25
  let retainedFrames ← rdU64 buf 26
  let floorIndex ← rdU64 buf 34
  let floorBlock ← rdU64 buf 42
  let recordLag ← decodeRecordLagTail buf
  let retainedBytes ← decodeRetainedBytesTail buf
  return .status {
    postedHead, sealedHead, budgetBlocks, halted := halted ≠ 0, retainedFrames, floorIndex,
    floorBlock, recordLag,
    snapshotFollows := match buf[statusSnapshotFlagOffset]? with
      | some flag => flag ≠ 0
      | none => false
    retainedBytes }

def decodeSealerInfo : Decoded EgressItem := do
  let decisionVersion ← rdU8 buf 1
  let sessionId ← rdI64 buf 2
  return .sealerInfo decisionVersion sessionId

def decodeFeedGap : Decoded EgressItem := do
  let nextIndex ← rdU64 buf 1
  let nextBlock ← rdU64 buf 9
  let requestId ← rdU64 buf feedRequestIdOffset
  return .feedGap nextIndex nextBlock requestId

def decodeOriginGap : Decoded EgressItem := do
  let offeredOrigin ← rdU64 buf 1
  let expectedOrigin ← rdU64 buf 9
  return .originGap offeredOrigin expectedOrigin

end

variable (C : Codecs)

def decodeRelayed (buf : Bytes) : Decoded EgressItem := do
  let index ← rdU64 buf 1
  let payloadLen ← rdLen buf 9
  let payload ← (rdSlice buf 13 payloadLen).mapErr fun _ =>
    .badPayloadLen payloadLen (buf.length - 13)
  let p ← parse payload
  p.intoItem C index

def decode (buf : Bytes) : Decoded EgressItem := do
  let kind ← ofOption (tooShort buf 0 1) buf.head?
  if kind = egressKindRelayed then decodeRelayed C buf
  else if kind = egressKindBoundary then decodeBoundary buf
  else if kind = egressKindReplayUnavailable then decodeAnswer .replayUnavailable buf
  else if kind = egressKindReplayDone then decodeAnswer .replayDone buf
  else if kind = egressKindReplayAhead then decodeAnswer .replayAhead buf
  else if kind = egressKindContiguityReject then decodeContiguityReject buf
  else if kind = egressKindPastDeadline then decodePastDeadline buf
  else if kind = egressKindWindowFull then decodeWindowFull buf
  else if kind = egressKindRemoteOriginReject then decodeRemoteOriginReject buf
  else if kind = egressKindStatus then decodeStatus buf
  else if kind = egressKindDaLagReject then decodeDaLagReject buf
  else if kind = egressKindOriginGap then decodeOriginGap buf
  else if kind = egressKindRecordLagReject then decodeRecordLagReject buf
  else if kind = egressKindRelayedRef then do
    let r ← RelayedRef.parse buf
    return .relayedRef r
  else if kind = egressKindRefRefused then do
    let r ← RefRefused.parse buf
    return .refRefused r
  else if kind = egressKindSessionStart then do
    let sessionId ← rdI64 buf 1
    return .sessionStart sessionId
  else if kind = egressKindSealerInfo then decodeSealerInfo buf
  else if kind = egressKindFeedGap then decodeFeedGap buf
  else .err (.badEgressKind kind)

end EgressItem

/-! ## No byte string makes the reader panic -/

namespace RelayedPayload

theorem noPanic_parse {p : Bytes} : NoPanic (parse p) := by
  refine noPanic_rdB256.bind fun _ _ => noPanic_rdU8.bind fun recordType hrecord => ?_
  -- the record type was read, so the fields behind it start inside the payload
  have hle : canonicalIdLen + 1 ≤ p.length := by
    by_contra hlt
    have hnone : p[canonicalIdLen]? = none := List.getElem?_eq_none (by omega)
    rw [rdU8, hnone] at hrecord
    cases hrecord
  exact (noPanic_indexFrom hle).bind fun _ _ => .ok _

variable {C : Codecs} {p : RelayedPayload}

theorem noPanic_decodeEpoch : NoPanic (p.decodeEpoch C) :=
  (NoPanic.ofExcept _ _).bind fun _ _ => .ite (.err _) (.ok _)

theorem noPanic_decodeRemoteEpoch : NoPanic (p.decodeRemoteEpoch C) :=
  (NoPanic.ofExcept _ _).bind fun _ _ => .ite (.err _) (.ok _)

theorem noPanic_decode : NoPanic (p.decode C) := by
  rw [decode]
  split_ifs
  · exact noPanic_rdU8.bind fun _ _ => noPanic_rdI32.bind fun _ _ => noPanic_rdI32.bind fun _ _ =>
      noPanic_rdI32.bind fun _ _ => .ok _
  · exact noPanic_rdI32.bind fun _ _ => noPanic_rdI32.bind fun _ _ => .ok _
  · exact noPanic_decodeEpoch
  · exact noPanic_decodeRemoteEpoch
  · exact noPanic_rdU64.bind fun _ _ => .ok _
  · exact .err _

theorem noPanic_intoItem {index : UInt64} : NoPanic (p.intoItem C index) := by
  rw [intoItem]
  split_ifs
  · exact CanonicalTx.noPanic_parse.bind fun _ _ => .ok _
  · exact noPanic_parseFullRef.bind fun _ _ => .ok _
  · exact .err _
  · exact noPanic_decode.bind fun _ _ => .ok _

end RelayedPayload

namespace EgressItem

variable {buf : Bytes}

theorem noPanic_decodeAnswer {make : UInt64 → UInt64 → Option UInt64 → EgressItem} :
    NoPanic (decodeAnswer make buf) := by
  have hid : NoPanic (decodeRequestId buf) := .ite (.ok _) (noPanic_rdU64.bind fun _ _ => .ok _)
  exact noPanic_rdU64.bind fun _ _ => noPanic_rdU64.bind fun _ _ => hid.bind fun _ _ => .ok _

theorem noPanic_decodeBoundary : NoPanic (decodeBoundary buf) :=
  noPanic_rdU64.bind fun _ _ => noPanic_rdU64.bind fun _ _ => noPanic_rdU64.bind fun _ _ =>
    noPanic_rdU64.bind fun _ _ => .ok _

theorem noPanic_decodePastDeadline : NoPanic (decodePastDeadline buf) :=
  noPanic_rdAddress.bind fun _ _ => noPanic_rdU64.bind fun _ _ => noPanic_rdU64.bind fun _ _ =>
    noPanic_rdU64.bind fun _ _ => .ok _

theorem noPanic_decodeLagReject {make : Address → UInt64 → UInt64 → UInt64 → UInt64 → EgressItem} :
    NoPanic (decodeLagReject make buf) :=
  noPanic_rdAddress.bind fun _ _ => noPanic_rdU64.bind fun _ _ => noPanic_rdU64.bind fun _ _ =>
    noPanic_rdU64.bind fun _ _ => noPanic_rdU64.bind fun _ _ => .ok _

theorem noPanic_decodeRemoteOriginReject : NoPanic (decodeRemoteOriginReject buf) :=
  noPanic_rdU64.bind fun _ _ => noPanic_rdU64.bind fun _ _ => noPanic_rdU64.bind fun _ _ =>
    noPanic_rdU8.bind fun _ _ => .ok _

theorem noPanic_decodeRecordLagTail : NoPanic (decodeRecordLagTail buf) :=
  .ite (.ok _) (noPanic_rdU64.bind fun _ _ => noPanic_rdU64.bind fun _ _ =>
    noPanic_rdU8.bind fun _ _ => .ok _)

theorem noPanic_decodeRetainedBytesTail : NoPanic (decodeRetainedBytesTail buf) :=
  .ite (.ok _) (noPanic_rdU64.bind fun _ _ => .ok _)

theorem noPanic_decodeStatus : NoPanic (decodeStatus buf) :=
  noPanic_rdU64.bind fun _ _ => noPanic_rdU64.bind fun _ _ => noPanic_rdU64.bind fun _ _ =>
    noPanic_rdU8.bind fun _ _ => noPanic_rdU64.bind fun _ _ => noPanic_rdU64.bind fun _ _ =>
      noPanic_rdU64.bind fun _ _ => noPanic_decodeRecordLagTail.bind fun _ _ =>
        noPanic_decodeRetainedBytesTail.bind fun _ _ => .ok _

theorem noPanic_decodeRelayed {C : Codecs} : NoPanic (decodeRelayed C buf) :=
  noPanic_rdU64.bind fun _ _ => noPanic_rdLen.bind fun _ _ => noPanic_rdSlice.mapErr.bind fun _ _ =>
    noPanic_parse.bind fun _ _ => noPanic_intoItem

/-- The reader answers an item or an error for every byte string. -/
theorem noPanic_decode (C : Codecs) (buf : Bytes) : NoPanic (decode C buf) := by
  refine (NoPanic.ofOption _ _).bind fun kind _ => ?_
  refine .ite noPanic_decodeRelayed ?_
  refine .ite noPanic_decodeBoundary ?_
  refine .ite noPanic_decodeAnswer ?_
  refine .ite noPanic_decodeAnswer ?_
  refine .ite noPanic_decodeAnswer ?_
  refine .ite (noPanic_rdAddress.bind fun _ _ => noPanic_rdU64.bind fun _ _ =>
      noPanic_rdU64.bind fun _ _ => .ok _) ?_
  refine .ite noPanic_decodePastDeadline ?_
  refine .ite (noPanic_rdAddress.bind fun _ _ => noPanic_rdU64.bind fun _ _ => .ok _) ?_
  refine .ite noPanic_decodeRemoteOriginReject ?_
  refine .ite noPanic_decodeStatus ?_
  refine .ite noPanic_decodeLagReject ?_
  refine .ite (noPanic_rdU64.bind fun _ _ => noPanic_rdU64.bind fun _ _ => .ok _) ?_
  refine .ite noPanic_decodeLagReject ?_
  refine .ite (RelayedRef.noPanic_parse.bind fun _ _ => .ok _) ?_
  refine .ite (RefRefused.noPanic_parse.bind fun _ _ => .ok _) ?_
  refine .ite (noPanic_rdI64.bind fun _ _ => .ok _) ?_
  refine .ite (noPanic_rdU8.bind fun _ _ => noPanic_rdI64.bind fun _ _ => .ok _) ?_
  refine .ite (noPanic_rdU64.bind fun _ _ => noPanic_rdU64.bind fun _ _ =>
      noPanic_rdU64.bind fun _ _ => .ok _) ?_
  exact .err _

end EgressItem

end Kardamom.Wire
