import Kardamom.Wire.Basic

/-!
# Ingress frames

What a Rust client sends to the sealer. A record frame starts with the guard header, the fields that
the sealer checks and orders by and never relays; an epoch and a remote batch carry the header of
their own kind behind the canonical id.
-/

namespace Kardamom.Wire

open ByteCodec UInt32 Except
open Sealer (Bytes)
open List

/-- The guard header of a kind-0 frame. -/
structure GuardHeader where
  sender : Address
  nonce : UInt64
  /-- The last block the sealer may order the record into. -/
  maxInclusionBlock : UInt64
  tip : BitVec 128
  deriving DecidableEq, Repr

namespace GuardHeader

/-- The guard-exempt header: an all-zero sender, no deadline, no bid. -/
def exempt : GuardHeader := ⟨0, 0, 0xFFFFFFFFFFFFFFFF, 0⟩

section

variable (g : GuardHeader)

def write : Bytes :=
  addressBytes g.sender ++ u64Le g.nonce ++ u64Le g.maxInclusionBlock ++ u128Le g.tip

/-- The `TXREF_RECORD_LEN` bytes of a kind-0 frame of `r`. -/
def writeReference (r : TxRef) (recordType : UInt8) : Bytes :=
  [kindIngressRecord] ++ g.write ++ idBytes r.txHash ++ [recordType, r.shardId]
    ++ i32Le r.txDataPosition.termId ++ i32Le r.txDataPosition.termOffset
    ++ i32Le r.txDataSessionId

/-- Read the header of a kind-0 frame. -/
def read (buf : Bytes) : Decoded GuardHeader := do
  let sender ← rdAddress buf ingressSenderOffset
  let nonce ← rdU64 buf ingressNonceOffset
  let deadline ← rdU64 buf ingressDeadlineOffset
  let tip ← rdSlice buf ingressTipOffset 16
  return ⟨sender, nonce, deadline, BitVec.ofNat 128 (leValue tip)⟩

@[simp] theorem length_write : g.write.length = 52 := by simp [write]

end

end GuardHeader

/-- The fields of a reference behind its record type, without the envelope. -/
def refFields (r : TxRef) : Bytes :=
  [r.shardId] ++ i32Le r.txDataPosition.termId ++ i32Le r.txDataPosition.termOffset
    ++ i32Le r.txDataSessionId

@[simp] theorem length_refFields (r : TxRef) : (refFields r).length = 13 := by simp [refFields]

section RefFields

variable (r : TxRef) (rest : Bytes)

theorem slice_refFields_shardId : slice (refFields r ++ rest) 0 1 = some [r.shardId] := by
  simp only [refFields, append_assoc]
  exact slice_append_left rfl

theorem slice_refFields_termId :
    slice (refFields r ++ rest) 1 4 = some (i32Le r.txDataPosition.termId) := by
  simp only [refFields, append_assoc]
  rw [slice_append_right (by simp)]
  exact slice_append_left (length_i32Le _)

theorem slice_refFields_termOffset :
    slice (refFields r ++ rest) 5 4 = some (i32Le r.txDataPosition.termOffset) := by
  simp only [refFields, append_assoc]
  rw [slice_append_right (by simp), slice_append_right (by simp)]
  simpa using slice_append_left (length_i32Le _)

theorem slice_refFields_sessionId :
    slice (refFields r ++ rest) 9 4 = some (i32Le r.txDataSessionId) := by
  simp only [refFields, append_assoc]
  rw [slice_append_right (by simp), slice_append_right (by simp), slice_append_right (by simp)]
  simpa using slice_append_left (length_i32Le _)

end RefFields

/-- A reference frame by its parts: what the sealer drops, the id, the record type, the fields. -/
theorem GuardHeader.writeReference_eq (g : GuardHeader) (r : TxRef) (recordType : UInt8) :
    g.writeReference r recordType
      = ([kindIngressRecord] ++ g.write) ++ (idBytes r.txHash ++ ([recordType] ++ refFields r)) := by
  simp [writeReference, refFields]

/-! ### The header of a frame, read at its offsets -/

namespace GuardHeader

variable (g : GuardHeader) (kind : UInt8) (rest : Bytes)

theorem slice_sender : slice ([kind] ++ (g.write ++ rest)) ingressSenderOffset 20
    = some (addressBytes g.sender) := by
  simp only [write, append_assoc]
  rw [slice_append_right (show [kind].length ≤ ingressSenderOffset from Nat.le_refl 1)]
  exact slice_append_left (length_addressBytes _)

theorem slice_nonce : slice ([kind] ++ (g.write ++ rest)) ingressNonceOffset 8
    = some (u64Le g.nonce) := by
  simp only [write, append_assoc, ingressNonceOffset, ingressSenderOffset, senderLen]
  rw [slice_append_right (by simp), slice_append_right (by simp)]
  simpa using slice_append_left (length_u64Le _)

theorem slice_deadline : slice ([kind] ++ (g.write ++ rest)) ingressDeadlineOffset 8
    = some (u64Le g.maxInclusionBlock) := by
  simp only [write, append_assoc, ingressDeadlineOffset, ingressNonceOffset,
    ingressSenderOffset, senderLen]
  rw [slice_append_right (by simp), slice_append_right (by simp), slice_append_right (by simp)]
  simpa using slice_append_left (length_u64Le _)

end GuardHeader

/-- Encode a `TxRef` as an ingress message. -/
def encodeIngressTxref (r : TxRef) (guard : GuardHeader) : Bytes := guard.writeReference r rtTxref

/-- How many canonical indices an epoch takes. -/
def epochSlots (epoch : EpochRecord) : Nat := 1 + epoch.deposits.length

/-- How many canonical indices a batch takes; the addition saturates. -/
def remoteEpochSlots (rec : RemoteEpochRecord) : Nat :=
  min (1 + rec.messages.toList.length) (2 ^ 64 - 1)

section Epochs

variable (C : Codecs)

/-- The header that the sealer reads behind the id of an epoch and drops. -/
def originHeader (epoch : EpochRecord) (slots : UInt32) : Bytes :=
  u64Le epoch.l1Number ++ u32Le slots

/-- Encode an epoch as an origin-advancing message. -/
def encodeIngressEpoch (epoch : EpochRecord) : Except WireError Bytes :=
  match C.epoch.toBytes epoch with
  | .error e => .error (.badEpoch e)
  | .ok body =>
    if epochSlots epoch < 2 ^ 32 then
      .ok ([kindOriginRecord] ++ (idBytes (epoch.canonicalId C)
        ++ (originHeader epoch (ofNat (epochSlots epoch)) ++ ([rtEpoch] ++ body))))
    else .error (.badEpoch (toString epoch.deposits.length ++ " deposits overflows u32"))

section

variable (rec : RemoteEpochRecord)

/-- The header that the sealer reads behind the id of a batch and drops. -/
def remoteOriginHeader (slots : UInt32) : Bytes :=
  u64Le rec.originChainId ++ u64Le rec.anchorNumber ++ u32Le slots ++ u64Le rec.firstSeq
    ++ u64Le rec.lastSeq

/-- Encode a batch of another chain's messages as a remote-origin-advancing message. -/
def encodeIngressRemoteEpoch : Except WireError Bytes :=
  match C.remoteEpoch.toBytes rec with
  | .error e => .error (.badRemoteEpoch e)
  | .ok body =>
    if remoteEpochSlots rec < 2 ^ 32 then
      .ok ([kindRemoteOriginRecord] ++ (idBytes (rec.canonicalId C)
        ++ (remoteOriginHeader rec (ofNat (remoteEpochSlots rec)) ++ ([rtRemoteEpoch] ++ body))))
    else
      .error (.badRemoteEpoch (toString rec.messages.toList.length ++ " messages overflows u32"))

@[simp] theorem length_originHeader (epoch : EpochRecord) (slots : UInt32) :
    (originHeader epoch slots).length = 12 := by simp [originHeader]

@[simp] theorem length_remoteOriginHeader (slots : UInt32) :
    (remoteOriginHeader rec slots).length = 36 := by simp [remoteOriginHeader]

end

/-- An epoch that was encoded: its archive and its slot count fit. -/
theorem encodeIngressEpoch_inv {C : Codecs} {epoch : EpochRecord} {frame : Bytes}
    (h : encodeIngressEpoch C epoch = .ok frame) :
    ∃ body, C.epoch.toBytes epoch = .ok body ∧ epochSlots epoch < 2 ^ 32 ∧
      frame = [kindOriginRecord] ++ (idBytes (epoch.canonicalId C)
        ++ (originHeader epoch (ofNat (epochSlots epoch)) ++ ([rtEpoch] ++ body))) := by
  unfold encodeIngressEpoch at h
  cases hbody : C.epoch.toBytes epoch with
  | error e => rw [hbody] at h; cases h
  | ok body =>
    rw [hbody] at h
    dsimp only at h
    split at h
    next hslots => exact ⟨body, rfl, hslots, (ok.inj h).symm⟩
    next => cases h

/-- A batch that was encoded: its archive and its slot count fit. -/
theorem encodeIngressRemoteEpoch_inv {C : Codecs} {rec : RemoteEpochRecord} {frame : Bytes}
    (h : encodeIngressRemoteEpoch C rec = .ok frame) :
    ∃ body, C.remoteEpoch.toBytes rec = .ok body ∧ remoteEpochSlots rec < 2 ^ 32 ∧
      frame = [kindRemoteOriginRecord] ++ (idBytes (rec.canonicalId C)
        ++ (remoteOriginHeader rec (ofNat (remoteEpochSlots rec))
          ++ ([rtRemoteEpoch] ++ body))) := by
  unfold encodeIngressRemoteEpoch at h
  cases hbody : C.remoteEpoch.toBytes rec with
  | error e => rw [hbody] at h; cases h
  | ok body =>
    rw [hbody] at h
    dsimp only at h
    split at h
    next hslots => exact ⟨body, rfl, hslots, (ok.inj h).symm⟩
    next => cases h

end Epochs

end Kardamom.Wire
