import Kardamom.Wire.Ingress

/-!
# Entries that carry their bytes

The full reference, which a client offers with the archived envelope of its transaction, and the
canonical entry it becomes. A sealer on decision version 5 drops the place in the image; below it the
fields are relayed as they stand, and the reader makes the same entry of both.
-/

namespace Kardamom.Wire

open ByteCodec Outcome
open Sealer (Bytes)
open List (append_assoc)

/-- A canonical entry: an ordered transaction with its envelope. -/
structure CanonicalTx where
  canonicalId : B256
  lane : UInt8
  envelope : TxEnvelope
  deriving DecidableEq, Repr

open CanonicalTx

/-- The fields of a full reference behind its record type. -/
structure TxRefFields where
  reference : TxRef
  envelope : Bytes
  deriving DecidableEq, Repr

/-- Read the fields of the reference of `canonicalId`; the envelope is not decoded. -/
def TxRefFields.parse (canonicalId : B256) (fields : Bytes) : Decoded TxRefFields := do
  let _ ← rdSlice fields 13 envelopeRootLen
  let termId ← rdI32 fields 1
  let termOffset ← rdI32 fields 5
  let shardId ← rdU8 fields 0
  let sessionId ← rdI32 fields 9
  let envelope ← indexFrom fields 13
  return ⟨⟨canonicalId, shardId, ⟨termId, termOffset⟩, sessionId⟩, envelope⟩

section Codecs

variable (C : Codecs)

section

variable (canonicalId : B256)

/-- The entry of `lane` with the archived `envelope`; an id that is not the hash in the envelope is
refused. -/
def CanonicalTx.fromParts (lane : UInt8) (envelope : Bytes) :
    Decoded CanonicalTx := do
  let envelope ← ofExcept WireError.badTx (C.envelope.fromBytes envelope)
  if envelope.txHash ≠ canonicalId then
    .err (.badTx ("canonical id " ++ canonicalId.display ++ " is not the envelope hash "
      ++ envelope.txHash.display))
  else return ⟨canonicalId, lane, envelope⟩

/-- The canonical entry of a full reference. -/
def TxRefFields.canonical (f : TxRefFields) : Decoded CanonicalTx :=
  fromParts C f.reference.txHash f.reference.shardId f.envelope

/-- Parse the fields behind the record type: the lane, then the envelope. -/
def CanonicalTx.parse (fields : Bytes) : Decoded CanonicalTx := do
  let lane ← rdU8 fields 0
  let envelope ← indexFrom fields 1
  fromParts C canonicalId lane envelope

/-- Parse the fields of a relayed full reference. -/
def CanonicalTx.parseFullRef (fields : Bytes) : Decoded CanonicalTx := do
  let f ← TxRefFields.parse canonicalId fields
  f.canonical C

end

end Codecs

/-- A full reference: a transaction reference and the archived envelope of its transaction. -/
structure TxRefOffer where
  guard : GuardHeader
  reference : TxRef
  /-- The archived `TxEnvelope`. -/
  envelope : Bytes
  deriving DecidableEq, Repr

namespace TxRefOffer

/-- Encode this reference as a kind-0 frame. -/
def encode (o : TxRefOffer) : Bytes := o.guard.writeReference o.reference rtTxrefOffer ++ o.envelope

/-- The offset of the record type in a kind-0 frame. -/
def recordTypeOffset : Nat := ingressCanonicalIdOffset + canonicalIdLen

/-- Read a kind-0 frame of a full reference; the envelope is not decoded. -/
def parse (buf : Bytes) : Decoded TxRefOffer := do
  let kind ← rdU8 buf 0
  if kind ≠ kindIngressRecord then .err (.badIngressKind kind) else
  let recordType ← rdU8 buf recordTypeOffset
  if recordType ≠ rtTxrefOffer then .err (.badRecordType recordType) else
  let canonicalId ← rdB256 buf ingressCanonicalIdOffset
  let tail ← indexFrom buf (recordTypeOffset + 1)
  let fields ← TxRefFields.parse canonicalId tail
  let guard ← GuardHeader.read buf
  return ⟨guard, fields.reference, fields.envelope⟩

end TxRefOffer

/-- The index, the id and the record type of a canonical entry, without its bytes. -/
structure RelayedRef where
  index : UInt64
  canonicalId : B256
  recordType : UInt8
  deriving DecidableEq, Repr

def RelayedRef.parse (buf : Bytes) : Decoded RelayedRef := do
  let index ← rdU64 buf 1
  let canonicalId ← rdB256 buf 9
  let recordType ← rdU8 buf 41
  return ⟨index, canonicalId, recordType⟩

/-- The refusal of a transaction reference of record type 0. -/
structure RefRefused where
  canonicalId : B256
  sender : Address
  nonce : UInt64
  decisionVersion : UInt8
  deriving DecidableEq, Repr

def RefRefused.parse (buf : Bytes) : Decoded RefRefused := do
  let canonicalId ← rdB256 buf 1
  let sender ← rdAddress buf 33
  let nonce ← rdU64 buf 53
  let decisionVersion ← rdU8 buf 61
  return ⟨canonicalId, sender, nonce, decisionVersion⟩

/-! ## What was written reads back -/

/-- The fields of a full reference, with an envelope that holds its root. -/
theorem TxRefFields.parse_refFields (r : TxRef) {envelope : Bytes}
    (h : envelopeRootLen ≤ envelope.length) :
    TxRefFields.parse r.txHash (refFields r ++ envelope) = .ok ⟨r, envelope⟩ := by
  have hroot : slice (refFields r ++ envelope) 13 envelopeRootLen
      = some (envelope.take envelopeRootLen) := by
    rw [slice_append_right (by simp), length_refFields, slice, if_pos (by omega), List.drop_zero]
  have htail : indexFrom (refFields r ++ envelope) 13 = .ok envelope := by
    rw [indexFrom, sliceFrom_append (length_refFields r), expect_some]
  rw [parse, rdSlice_eq hroot, ok_bind, rdI32_eq (slice_refFields_termId r envelope), ok_bind,
    rdI32_eq (slice_refFields_termOffset r envelope), ok_bind,
    rdU8_eq (slice_refFields_shardId r envelope), ok_bind,
    rdI32_eq (slice_refFields_sessionId r envelope), ok_bind, htail, ok_bind, pure_eq]

/-- The header of a frame reads back. -/
theorem GuardHeader.read_write (g : GuardHeader) (kind : UInt8) (rest : Bytes) :
    GuardHeader.read ([kind] ++ (g.write ++ rest)) = .ok g := by
  have hsender : rdAddress ([kind] ++ (g.write ++ rest)) ingressSenderOffset = .ok g.sender := by
    rw [rdAddress, senderLen, rdSlice_eq (g.slice_sender kind rest), ok_bind, addressFromSlice,
      if_pos (by exact length_addressBytes _), addressBytes, beValue_beBytes g.sender.isLt, BitVec.ofNat_toNat,
      BitVec.setWidth_eq]
  have htip : slice ([kind] ++ (g.write ++ rest)) ingressTipOffset 16 = some (u128Le g.tip) := by
    simp only [write, append_assoc, show ingressTipOffset = 37 from rfl]
    iterate 4 rw [slice_append_right (by simp)]
    simpa using slice_append_left (length_u128Le _)
  rw [read, hsender, ok_bind, rdU64_eq (g.slice_nonce kind rest), ok_bind, rdU64_eq (g.slice_deadline kind rest),
    ok_bind, rdSlice_eq htip, ok_bind, pure_eq, u128Le, leValue_leBytes g.tip.isLt, BitVec.ofNat_toNat,
    BitVec.setWidth_eq]

/-- **A full reference reads back exactly when its envelope holds its root.** -/
theorem TxRefOffer.parse_encode_iff (o : TxRefOffer) :
    parse o.encode = .ok o ↔ envelopeRootLen ≤ o.envelope.length := by
  have hframe : o.encode = ([kindIngressRecord] ++ o.guard.write) ++ (idBytes o.reference.txHash ++
      ([rtTxrefOffer] ++ (refFields o.reference ++ o.envelope))) := by
    simp [encode, GuardHeader.writeReference_eq]
  have hkind : slice o.encode 0 1 = some [kindIngressRecord] := by
    rw [hframe, append_assoc]
    exact slice_append_left rfl
  have hid : slice o.encode ingressCanonicalIdOffset 32 = some (idBytes o.reference.txHash) := by
    rw [hframe, show ingressCanonicalIdOffset = 53 from rfl, slice_append_right (by simp)]
    simpa using slice_append_left (length_idBytes _)
  have htype : slice o.encode recordTypeOffset 1 = some [rtTxrefOffer] := by
    rw [hframe, show recordTypeOffset = 85 from rfl, slice_append_right (by simp), slice_append_right (by simp)]
    simpa using slice_append_left (a := [rtTxrefOffer]) rfl
  have htail : indexFrom o.encode (recordTypeOffset + 1) = .ok (refFields o.reference ++ o.envelope) := by
    rw [hframe, ← append_assoc _ (idBytes _), ← append_assoc _ [rtTxrefOffer], indexFrom,
      sliceFrom_append (by simp; decide), expect_some]
  have hguard : GuardHeader.read o.encode = .ok o.guard := by
    rw [hframe, append_assoc]
    exact o.guard.read_write ..
  rw [parse, rdU8_eq hkind, ok_bind, if_neg (by simp), rdU8_eq htype, ok_bind, if_neg (by simp), rdB256_eq hid,
    ok_bind, htail, ok_bind]
  by_cases h : envelopeRootLen ≤ o.envelope.length
  · rw [TxRefFields.parse_refFields _ h, ok_bind, hguard, ok_bind, pure_eq]
    exact iff_of_true rfl h
  · have hshort : slice (refFields o.reference ++ o.envelope) 13 envelopeRootLen = none :=
      slice_eq_none.2 (by simp; omega)
    rw [TxRefFields.parse, rdSlice, hshort]
    exact iff_of_false (by rintro ⟨⟩) h

/-! ## No entry reader panics -/

variable {fields : Bytes} {id : B256}

theorem TxRefFields.noPanic_parse : NoPanic (TxRefFields.parse id fields) := by
  refine noPanic_rdSlice.bind fun root hroot => ?_
  refine noPanic_rdI32.bind fun _ _ => noPanic_rdI32.bind fun _ _ => ?_
  refine noPanic_rdU8.bind fun _ _ => noPanic_rdI32.bind fun _ _ => ?_
  -- the index behind the fields is in range, because the root behind it was read
  have hle : 13 ≤ fields.length := by
    by_contra hlt
    have hnone : slice fields 13 envelopeRootLen = none := slice_eq_none.2 (by omega)
    rw [rdSlice, hnone] at hroot
    cases hroot
  exact (noPanic_indexFrom hle).bind fun _ _ => .ok _

theorem CanonicalTx.noPanic_fromParts {C : Codecs} {lane : UInt8} {bs : Bytes} :
    NoPanic (fromParts C id lane bs) := by
  refine (NoPanic.ofExcept _ _).bind fun e _ => ?_
  split
  · exact .err _
  · exact .ok _

theorem CanonicalTx.noPanic_parse {C : Codecs} : NoPanic (CanonicalTx.parse C id fields) := by
  refine noPanic_rdU8.bind fun lane hlane => ?_
  have hle : 1 ≤ fields.length := by
    by_contra hlt
    have hnone : fields[0]? = none := List.getElem?_eq_none (by omega)
    rw [rdU8, hnone] at hlane
    cases hlane
  exact (noPanic_indexFrom hle).bind fun _ _ => noPanic_fromParts

theorem CanonicalTx.noPanic_parseFullRef {C : Codecs} : NoPanic (parseFullRef C id fields) :=
  TxRefFields.noPanic_parse.bind fun _ _ => noPanic_fromParts

theorem RelayedRef.noPanic_parse {buf : Bytes} : NoPanic (RelayedRef.parse buf) :=
  noPanic_rdU64.bind fun _ _ => noPanic_rdB256.bind fun _ _ =>
    noPanic_rdU8.bind fun _ _ => .ok _

theorem RefRefused.noPanic_parse {buf : Bytes} : NoPanic (RefRefused.parse buf) :=
  noPanic_rdB256.bind fun _ _ => noPanic_rdAddress.bind fun _ _ =>
    noPanic_rdU64.bind fun _ _ => noPanic_rdU8.bind fun _ _ => .ok _

end Kardamom.Wire
