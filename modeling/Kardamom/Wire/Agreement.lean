import Kardamom.Wire.Relay
import Kardamom.Wire.Egress

/-!
# The two codecs agree

A message that a Rust encoder wrote, relayed by the Java sealer at any index, is what the Rust reader
decodes (`relay_delivers`). Two messages that the encoders take are not delivered: a remote batch
whose sequence range leaves no room for the lane cursor, and a full reference whose envelope is of
another transaction. The reader refuses both by design, and answers for every byte string.
-/

namespace Kardamom.Wire

open ByteCodec Outcome UInt32 RelayShape Archive Option List GuardHeader
open Sealer (Bytes)
open RelayedPayload EgressFrames CanonicalTx TxRefOfferView List

/-! ## Frames of the sealer, as the reader takes them -/

section Frames

variable (C : Codecs)

theorem RelayedPayload.parse_eq (id : B256) (recordType : UInt8) (fields : Bytes) :
    parse (idBytes id ++ ([recordType] ++ fields)) = .ok ⟨id, recordType, fields⟩ := by
  have hid : slice (idBytes id ++ ([recordType] ++ fields)) 0 32 = some (idBytes id) :=
    slice_append_left (length_idBytes id)
  have htype : slice (idBytes id ++ ([recordType] ++ fields)) canonicalIdLen 1
      = some [recordType] := by
    rw [canonicalIdLen, slice_append_right (length_idBytes id).le]
    exact slice_append_left rfl
  have hfields : sliceFrom (idBytes id ++ ([recordType] ++ fields)) (canonicalIdLen + 1)
      = some fields := by
    rw [← append_assoc]
    exact sliceFrom_append (by simp [canonicalIdLen])
  rw [parse, rdB256_eq hid, ok_bind, rdU8_eq htype, ok_bind, indexFrom, hfields, expect_some,
    ok_bind, pure_eq]

/-- A relayed frame reads as its index and its payload. -/
theorem EgressItem.decode_relayed (index : UInt64) {payload : Bytes} (h : payload.length < 2 ^ 31) :
    EgressItem.decode C (relayed index payload)
      = parse payload >>= fun p => p.intoItem C index := by
  have hindex : slice (relayed index payload) 1 8 = some (u64Le index) := by
    exact slice_append_left (length_u64Le index)
  have hlen : slice (relayed index payload) 9 4 = some (u32Le (ofNat payload.length)) := by
    simp only [relayed, relayedHeader, append_assoc]
    rw [slice_append_right (by simp), slice_append_right (by simp)]
    simpa using slice_append_left (length_u32Le _)
  have hpayload : slice (relayed index payload) 13 payload.length = some payload := by
    rw [relayed, slice_append_right (by simp [relayedHeader])]
    simpa [relayedHeader] using slice_self (a := payload) rfl
  have hread : (ofNat payload.length).toNat = payload.length :=
    toNat_ofNat_of_lt' (show payload.length < 2 ^ 32 by omega)
  have hdecode : EgressItem.decodeRelayed C (relayed index payload)
      = parse payload >>= fun p => p.intoItem C index := by
    rw [EgressItem.decodeRelayed, rdU64_eq hindex, ok_bind, rdLen, rdU32_eq hlen, ok_bind, pure_eq,
      ok_bind, hread, rdSlice_eq hpayload, mapErr_ok, ok_bind]
  have hkind : (relayed index payload).head? = some egressKindRelayed := rfl
  rw [EgressItem.decode, hkind, ofOption_some, ok_bind, if_pos rfl, hdecode]

/-- A relayed record of one type reads as the item of its fields. -/
theorem EgressItem.decode_relayed_record (index : UInt64) (id : B256) (recordType : UInt8)
    {fields : Bytes} (h : fields.length + 33 < 2 ^ 31) :
    EgressItem.decode C (relayed index (idBytes id ++ ([recordType] ++ fields)))
      = intoItem C ⟨id, recordType, fields⟩ index := by
  have hlen : (idBytes id ++ ([recordType] ++ fields)).length < 2 ^ 31 := by
    simp only [length_append, length_idBytes, length_singleton]
    omega
  rw [EgressItem.decode_relayed C index hlen, parse_eq, ok_bind]

/-- A record type that is no entry reads as a record of the order. -/
theorem RelayedPayload.intoItem_record (id : B256) (fields : Bytes) (index : UInt64)
    {recordType : UInt8}
    (h : recordType ≠ rtTx ∧ recordType ≠ rtTxrefOffer ∧ recordType ≠ rtTxOffer) :
    intoItem C ⟨id, recordType, fields⟩ index
      = decode C ⟨id, recordType, fields⟩ >>= fun msg => .ok (.record index msg) := by
  rw [intoItem, if_neg h.1, if_neg h.2.1, if_neg h.2.2]
  rfl

/-- A boundary frame reads as the boundary, with its block number. -/
theorem EgressItem.decode_boundary (blockNumber endTxIdx l2Timestamp l1Origin : UInt64) :
    EgressItem.decode C (EgressFrames.boundary blockNumber endTxIdx l2Timestamp l1Origin)
      = .ok (.boundary ⟨blockNumber, .fromIndex endTxIdx, l2Timestamp, l1Origin⟩) := by
  let frame := EgressFrames.boundary blockNumber endTxIdx l2Timestamp l1Origin
  have hblock : slice frame 1 8 = some (u64Le blockNumber) := by
    exact slice_append_left (length_u64Le _)
  have hend : slice frame 9 8 = some (u64Le endTxIdx) := by
    simp only [frame, EgressFrames.boundary, append_assoc]
    rw [slice_append_right (by simp), slice_append_right (by simp)]
    simpa using slice_append_left (length_u64Le _)
  have htime : slice frame 17 8 = some (u64Le l2Timestamp) := by
    simp only [frame, EgressFrames.boundary, append_assoc]
    rw [slice_append_right (by simp), slice_append_right (by simp), slice_append_right (by simp)]
    simpa using slice_append_left (length_u64Le _)
  have horigin : slice frame 25 8 = some (u64Le l1Origin) := by
    simp only [frame, EgressFrames.boundary, append_assoc]
    rw [slice_append_right (by simp), slice_append_right (by simp), slice_append_right (by simp),
      slice_append_right (by simp)]
    simpa using slice_self (length_u64Le l1Origin)
  have hdecode : EgressItem.decodeBoundary frame
      = .ok (.boundary ⟨blockNumber, .fromIndex endTxIdx, l2Timestamp, l1Origin⟩) := by
    rw [EgressItem.decodeBoundary, rdU64_eq hblock, ok_bind, rdU64_eq hend, ok_bind,
      rdU64_eq htime, ok_bind, rdU64_eq horigin, ok_bind, pure_eq]
  have hkind : frame.head? = some egressKindBoundary := rfl
  rw [EgressItem.decode, hkind, ofOption_some, ok_bind, if_neg (by decide), if_pos rfl, hdecode]

end Frames

/-! ## What is delivered -/

/-- The relayed frame decodes to `item`. -/
def Delivers (C : Codecs) (relay : Option Bytes) (item : EgressItem) : Prop :=
  ∃ out, relay = some out ∧ EgressItem.decode C out = .ok item

variable {relay : Option Bytes}

/-- What a relay delivers is what its frame decodes to. -/
theorem delivers_iff {C : Codecs} {out : Bytes} (h : relay = some out)
    {item : EgressItem} : Delivers C relay item ↔ EgressItem.decode C out = .ok item := by
  constructor
  · rintro ⟨out', hrelay, hdecode⟩
    rw [h] at hrelay
    cases hrelay
    exact hdecode
  · exact fun hdecode => ⟨out, h, hdecode⟩

section Relays

variable (C : Codecs) (index : UInt64)

/-- The payload that the sealer takes from a reference frame with `envelope` behind it. -/
theorem payload_writeReference (g : GuardHeader) (r : TxRef) (recordType : UInt8)
    (envelope : Bytes) :
    ingressRecord.payload (g.writeReference r recordType ++ envelope) 0
        (g.writeReference r recordType ++ envelope).length
      = some (idBytes r.txHash ++ ([recordType] ++ (refFields r ++ envelope))) := by
  have hframe : g.writeReference r recordType ++ envelope = ([kindIngressRecord] ++ g.write)
        ++ (idBytes r.txHash ++ ([] ++ ([recordType] ++ (refFields r ++ envelope)))) := by
    rw [g.writeReference_eq]
    simp only [append_assoc, nil_append]
  rw [hframe]
  refine payload_eq _ _ _ _ _ ?_ (length_idBytes _) rfl
  rfl

theorem relayRecord_writeReference (fileStore : Bool) (g : GuardHeader) (r : TxRef)
    {recordType : UInt8} (hoffer : recordType ≠ rtTxOffer) (htx : recordType ≠ rtTx)
    (envelope : Bytes) :
    relayRecord fileStore index (g.writeReference r recordType ++ envelope) = some (relayed index
          (idBytes r.txHash ++ ([recordType] ++ (refFields r ++ envelope)))) := by
  rw [relayRecord, payload_writeReference]
  simp only [bind_eq_bind, bind_some]
  rw [relayOf_eq fileStore (length_idBytes _) hoffer htx]
  rfl

/-- A reference arrives as it was offered. -/
theorem delivers_txref (fileStore : Bool) (r : TxRef) (g : GuardHeader) :
    Delivers C (relayRecord fileStore index (encodeIngressTxref r g)) (.record index (.txRef r)) := by
  have hrelay : relayRecord fileStore index (encodeIngressTxref r g) = some (relayed index
          (idBytes r.txHash ++ ([rtTxref] ++ (refFields r ++ [])))) := by
    rw [encodeIngressTxref, ← append_nil (g.writeReference r rtTxref)]
    exact relayRecord_writeReference index fileStore g r (by decide) (by decide) []
  have hmsg : decode C ⟨r.txHash, rtTxref, refFields r ++ []⟩ = .ok (.txRef r) := by
    rw [decode, if_pos rfl, decodeTxref,
      rdU8_eq (slice_refFields_shardId r []), ok_bind, rdI32_eq (slice_refFields_termId r []),
      ok_bind, rdI32_eq (slice_refFields_termOffset r []), ok_bind,
      rdI32_eq (slice_refFields_sessionId r []), ok_bind, pure_eq]
  rw [delivers_iff hrelay, EgressItem.decode_relayed_record C index _ _ (by simp),
    intoItem_record C _ _ _ (by decide), hmsg, ok_bind]

/-- An epoch arrives as it was offered. -/
theorem delivers_epoch {epoch : EpochRecord} {frame : Bytes}
    (hencode : encodeIngressEpoch C epoch = .ok frame) (hfit : frame.length < 2 ^ 31) :
    Delivers C (relayOrigin index frame) (.record index (.epoch epoch)) := by
  obtain ⟨body, hbody, -, rfl⟩ := encodeIngressEpoch_inv hencode
  have hlen : body.length + 33 < 2 ^ 31 := by
    simp only [length_append, length_singleton, length_idBytes] at hfit
    omega
  have hrelay := relayAdvance_eq (show originRecord.idOffset = 1 from rfl) index (epoch.canonicalId C)
    (length_originHeader epoch (ofNat (epochSlots epoch))) rtEpoch body
  have hmsg : decode C ⟨epoch.canonicalId C, rtEpoch, body⟩ = .ok (.epoch epoch) := by
    rw [decode, if_neg (show ¬ rtEpoch = rtTxref by decide),
      if_neg (show ¬ rtEpoch = rtDepositref by decide), if_pos rfl, decodeEpoch,
      C.epoch.fromBytes_toBytes hbody, ofExcept_ok, ok_bind, if_neg (not_not_intro rfl), pure_eq]
  refine (delivers_iff hrelay).2 ?_
  rw [EgressItem.decode_relayed_record C index _ _ hlen,
    intoItem_record C _ _ _ (by decide), hmsg, ok_bind]

/-- What the reader makes of a relayed batch: the batch, unless its range leaves no room for the lane
cursor behind it. -/
theorem decode_remoteEpoch {rec : RemoteEpochRecord} {body : Bytes}
    (hbody : C.remoteEpoch.toBytes rec = .ok body) (hlen : body.length + 33 < 2 ^ 31) :
    EgressItem.decode C (relayed index (idBytes (rec.canonicalId C) ++ ([rtRemoteEpoch] ++ body)))
      = if rec.firstSeq.toNat + rec.messages.toList.length < 2 ^ 64 then
          .ok (.record index (.remoteEpoch rec))
        else .err (.badRemoteEpoch "RemoteEpochRecord archive's seq range overflows u64") := by
  rw [EgressItem.decode_relayed_record C index _ _ hlen,
    intoItem_record C _ _ _ (by decide), decode,
    if_neg (show ¬ rtRemoteEpoch = rtTxref by decide),
    if_neg (show ¬ rtRemoteEpoch = rtDepositref by decide),
    if_neg (show ¬ rtRemoteEpoch = rtEpoch by decide), if_pos rfl,
    decodeRemoteEpoch, RemoteEpochRecord.fromArchive,
    C.remoteEpoch.fromBytes_toBytes hbody]
  dsimp only
  split
  · rw [ofExcept_ok, ok_bind, if_neg (not_not_intro rfl), pure_eq, ok_bind]
  · rfl

/-- A batch arrives as it was offered exactly when its range leaves room for the lane cursor. -/
theorem delivers_remoteEpoch_iff {rec : RemoteEpochRecord} {frame : Bytes}
    (hencode : encodeIngressRemoteEpoch C rec = .ok frame) (hfit : frame.length < 2 ^ 31) :
    Delivers C (relayRemoteOrigin index frame) (.record index (.remoteEpoch rec)) ↔
      rec.firstSeq.toNat + rec.messages.toList.length < 2 ^ 64 := by
  obtain ⟨body, hbody, -, rfl⟩ := encodeIngressRemoteEpoch_inv hencode
  have hlen : body.length + 33 < 2 ^ 31 := by
    simp only [length_append, length_singleton, length_idBytes] at hfit
    omega
  have hrelay := relayAdvance_eq (show remoteOriginRecord.idOffset = 1 from rfl) index (rec.canonicalId C)
    (length_remoteOriginHeader rec (ofNat (remoteEpochSlots rec))) rtRemoteEpoch body
  refine (delivers_iff hrelay).trans ?_
  rw [decode_remoteEpoch C index hbody hlen]
  split
  next h => exact iff_of_true rfl h
  next h => exact iff_of_false nofun h

variable {e : TxEnvelope}

/-- What the reader makes of the parts of a full reference, whichever way they were relayed. -/
theorem CanonicalTx.fromParts_eq {bs : Bytes} (h : C.envelope.toBytes e = .ok bs) (id : B256) (lane : UInt8) :
    fromParts C id lane bs = if e.txHash = id then .ok ⟨id, lane, e⟩
        else .err (.badTx ("canonical id " ++ id.display ++ " is not the envelope hash "
          ++ e.txHash.display)) := by
  rw [fromParts, C.envelope.fromBytes_toBytes h, ofExcept_ok, ok_bind, ite_not]
  rfl

variable (fileStore : Bool) {o : TxRefOffer} (henvelope : C.envelope.toBytes e = .ok o.envelope)
  (hfit : o.encode.length < 2 ^ 31)
  (hpath : relay = relayRecord fileStore index o.encode ∨ relay = relayCarried index o.encode)
include henvelope hfit hpath

/-- Both relays of a full reference put the same id, lane and envelope before the reader. -/
theorem decode_fullRef :
    ∃ out, relay = some out ∧ EgressItem.decode C out
      = fromParts C o.reference.txHash o.reference.shardId o.envelope
          >>= fun tx => .ok (.tx index tx) := by
  have hroot := C.root_le henvelope
  have hlen : o.envelope.length + 46 < 2 ^ 31 := by
    simp only [TxRefOffer.encode, writeReference_eq, length_append,
      length_singleton, length_idBytes, length_refFields, length_write] at hfit
    omega
  rcases hpath with hpath | hpath
  · have hrelay := relayRecord_writeReference index fileStore o.guard o.reference
      (show rtTxrefOffer ≠ rtTxOffer by decide) (show rtTxrefOffer ≠ rtTx by decide) o.envelope
    refine ⟨_, hpath.trans hrelay, ?_⟩
    rw [EgressItem.decode_relayed_record C index _ _ (by simp; omega), intoItem,
      if_neg (show ¬ rtTxrefOffer = rtTx by decide), if_pos rfl, parseFullRef,
      TxRefFields.parse_refFields o.reference hroot, ok_bind]
    rfl
  · have hpayload := payload_writeReference o.guard o.reference rtTxrefOffer o.envelope
    have hwhole : isWhole (idBytes o.reference.txHash
        ++ ([rtTxrefOffer] ++ (refFields o.reference ++ o.envelope))) = true := by
      simp only [isWhole, minPayloadLen, envelopeOffset, laneOffset, canonicalIdLen,
        length_append, length_singleton, length_idBytes, length_refFields,
        decide_eq_true_eq]
      omega
    refine ⟨relayed index (idBytes o.reference.txHash
      ++ ([rtTx] ++ ([o.reference.shardId] ++ o.envelope))), ?_, ?_⟩
    · rw [hpath, relayCarried, TxRefOffer.encode, hpayload]
      simp only [bind_eq_bind, bind_some, hwhole]
      rfl
    · rw [EgressItem.decode_relayed_record C index _ _ (by simp; omega), intoItem,
        if_pos rfl, CanonicalTx.parse]
      rfl

/-- A full reference arrives exactly when its envelope is of its own transaction, both from a sealer
that relays it as it came and from one that makes its canonical entry. -/
theorem delivers_fullRef_iff :
    Delivers C relay (.tx index ⟨o.reference.txHash, o.reference.shardId, e⟩) ↔
      e.txHash = o.reference.txHash := by
  obtain ⟨out, hrelay, hout⟩ := decode_fullRef C index fileStore henvelope hfit hpath
  rw [delivers_iff hrelay, hout, fromParts_eq C henvelope]
  split
  next h => exact iff_of_true rfl h
  next h => exact iff_of_false nofun h

end Relays

/-- **The two codecs agree.** Relayed at any index, a reference and an epoch arrive as they were
offered, a remote batch does exactly when its sequence range leaves room for the lane cursor, and a
full reference exactly when its envelope is of its own transaction; a boundary arrives with its block
number; and the reader answers by value for every byte string. A frame that a Java buffer holds is
shorter than `2 ^ 31` bytes. -/
theorem relay_delivers (C : Codecs) (index : UInt64) :
    (∀ (fileStore : Bool) (r : TxRef) (g : GuardHeader),
      Delivers C (relayRecord fileStore index (encodeIngressTxref r g))
        (.record index (.txRef r))) ∧
    (∀ (epoch : EpochRecord) (frame : Bytes), encodeIngressEpoch C epoch = .ok frame →
      frame.length < 2 ^ 31 →
      Delivers C (relayOrigin index frame) (.record index (.epoch epoch))) ∧
    (∀ (rec : RemoteEpochRecord) (frame : Bytes), encodeIngressRemoteEpoch C rec = .ok frame →
      frame.length < 2 ^ 31 →
      (Delivers C (relayRemoteOrigin index frame) (.record index (.remoteEpoch rec)) ↔
        rec.firstSeq.toNat + rec.messages.toList.length < 2 ^ 64)) ∧
    (∀ (fileStore : Bool) (o : TxRefOffer) (e : TxEnvelope),
      C.envelope.toBytes e = .ok o.envelope → o.encode.length < 2 ^ 31 →
      ∀ relay ∈ [relayRecord fileStore index o.encode, relayCarried index o.encode],
        (Delivers C relay (.tx index ⟨o.reference.txHash, o.reference.shardId, e⟩) ↔
          e.txHash = o.reference.txHash)) ∧
    (∀ blockNumber endTxIdx l2Timestamp l1Origin : UInt64,
      EgressItem.decode C (EgressFrames.boundary blockNumber endTxIdx l2Timestamp l1Origin)
        = .ok (.boundary ⟨blockNumber, .fromIndex endTxIdx, l2Timestamp, l1Origin⟩)) ∧
    ∀ buf : Bytes, NoPanic (EgressItem.decode C buf) := by
  refine ⟨fun fileStore r g => delivers_txref C index fileStore r g,
    fun epoch frame hencode hfit => delivers_epoch C index hencode hfit,
    fun rec frame hencode hfit => delivers_remoteEpoch_iff C index hencode hfit, ?_,
    EgressItem.decode_boundary C, EgressItem.noPanic_decode C⟩
  intro fileStore o e henvelope hfit relay hrelay
  refine delivers_fullRef_iff C index fileStore henvelope hfit ?_
  simpa using hrelay

/-! ## On one sample -/

/-- An archive that knows one value. -/
def Archive.only {α : Type} [DecidableEq α] (a : α) (bs : Bytes) : Archive α where
  toBytes x := if x = a then .ok bs else .error "another value"
  fromBytes b := if b = bs then .ok a else .error "another archive"
  fromBytes_toBytes := by
    intro x b h
    split at h
    next hx => cases h; rw [if_pos rfl, hx]
    next => cases h

theorem Archive.toBytes_only {α : Type} [DecidableEq α] (a : α) (bs : Bytes) :
    (only a bs).toBytes a = .ok bs := if_pos rfl

def sampleEpoch : EpochRecord := ⟨7, 1, []⟩

/-- A batch of one message at the last sequence number. -/
def lastBatch : RemoteEpochRecord where
  originChainId := 9
  anchorNumber := 3
  anchorHash := 5
  firstSeq := 0xFFFFFFFFFFFFFFFF
  messages := ⟨[⟨1, 0xFFFFFFFFFFFFFFFF, 2, 3, 0, 21000, 1, [], none⟩], by decide⟩

def sampleEnvelope : TxEnvelope := ⟨1, [], 2, 0xAB, 64⟩

/-- Codecs that know one epoch, one batch and one envelope. -/
def sampleCodecs : Codecs where
  keccak256 bs := BitVec.ofNat 256 (beValue bs)
  epoch := .only sampleEpoch [1, 2, 3]
  remoteEpoch := .only lastBatch [4, 5]
  envelope := .only sampleEnvelope (replicate 80 6)
  root_le := by
    intro e bs h
    rw [only] at h
    dsimp only at h
    split at h
    · cases h
      decide
    · cases h

/-- A full reference that names another transaction than its envelope. -/
def strayOffer : TxRefOffer := ⟨.exempt, ⟨0xCD, 4, ⟨5, 6⟩, 7⟩, replicate 80 6⟩

/-- Both conditions bite: the encoders take the last batch and the stray reference, the sealer relays
them, and the reader refuses them. -/
theorem refused_batch_and_reference :
    (∃ frame out, encodeIngressRemoteEpoch sampleCodecs lastBatch = .ok frame ∧
      relayRemoteOrigin 0 frame = some out ∧
      EgressItem.decode sampleCodecs out
        = .err (.badRemoteEpoch "RemoteEpochRecord archive's seq range overflows u64")) ∧
    sampleCodecs.envelope.toBytes sampleEnvelope = .ok strayOffer.envelope ∧
    ∃ out, relayCarried 0 strayOffer.encode = some out ∧ EgressItem.decode sampleCodecs out
        = .err (.badTx ("canonical id " ++ B256.display 0xCD ++ " is not the envelope hash "
          ++ B256.display 0xAB)) := by
  have hbody : sampleCodecs.remoteEpoch.toBytes lastBatch = .ok [4, 5] := toBytes_only ..
  have henvelope : sampleCodecs.envelope.toBytes sampleEnvelope = .ok strayOffer.envelope :=
    toBytes_only ..
  have hencode : encodeIngressRemoteEpoch sampleCodecs lastBatch
      = .ok ([kindRemoteOriginRecord] ++ (idBytes (lastBatch.canonicalId sampleCodecs)
        ++ (remoteOriginHeader lastBatch (ofNat (remoteEpochSlots lastBatch))
          ++ ([rtRemoteEpoch] ++ [4, 5])))) := by
    rw [encodeIngressRemoteEpoch, hbody]
    exact if_pos (by decide)
  have hrelay := relayAdvance_eq (show remoteOriginRecord.idOffset = 1 from rfl) 0
    (lastBatch.canonicalId sampleCodecs)
    (length_remoteOriginHeader lastBatch (ofNat (remoteEpochSlots lastBatch)))
    rtRemoteEpoch [4, 5]
  refine ⟨⟨_, _, hencode, hrelay, ?_⟩, henvelope, ?_⟩
  · rw [decode_remoteEpoch sampleCodecs 0 hbody (by decide), if_neg (by decide)]
  · obtain ⟨out, hout, hdecode⟩ :=
      decode_fullRef sampleCodecs 0 false henvelope (by decide +kernel) (Or.inr rfl)
    refine ⟨out, hout, ?_⟩
    rw [hdecode, fromParts_eq sampleCodecs henvelope, if_neg (by decide)]
    rfl

/-- The theorem at the sample epoch, at a full reference of the sample envelope, and at a stray
one. -/
theorem relay_delivers_sample : (∃ frame, encodeIngressEpoch sampleCodecs sampleEpoch = .ok frame ∧
      Delivers sampleCodecs (relayOrigin 5 frame) (.record 5 (.epoch sampleEpoch))) ∧
    Delivers sampleCodecs
      (relayCarried 5 (TxRefOffer.mk .exempt ⟨0xAB, 4, ⟨5, 6⟩, 7⟩ (replicate 80 6)).encode)
      (.tx 5 ⟨0xAB, 4, sampleEnvelope⟩) ∧
    ¬ Delivers sampleCodecs (relayCarried 5 strayOffer.encode) (.tx 5 ⟨0xCD, 4, sampleEnvelope⟩) := by
  obtain ⟨-, hepoch, -, hfull, -⟩ := relay_delivers sampleCodecs 5
  have hencode : encodeIngressEpoch sampleCodecs sampleEpoch
      = .ok ([kindOriginRecord] ++ (idBytes (sampleEpoch.canonicalId sampleCodecs)
        ++ (originHeader sampleEpoch (ofNat (epochSlots sampleEpoch))
          ++ ([rtEpoch] ++ [1, 2, 3])))) := by decide +kernel
  have henvelope : sampleCodecs.envelope.toBytes sampleEnvelope = .ok (replicate 80 6) :=
    toBytes_only ..
  refine ⟨⟨_, hencode, hepoch _ _ hencode (by decide +kernel)⟩, ?_, ?_⟩
  · exact (hfull false (TxRefOffer.mk .exempt ⟨0xAB, 4, ⟨5, 6⟩, 7⟩ (replicate 80 6))
      sampleEnvelope henvelope (by decide +kernel) _ (by simp)).2 rfl
  · intro h
    exact absurd ((hfull false strayOffer sampleEnvelope henvelope (by decide +kernel) _ (by simp)).1 h)
      (by decide)

end Kardamom.Wire
