import Kardamom.Lib.ByteFields
import Kardamom.Lib.Outcome
import Kardamom.Sealer.Basic

/-!
# The application wire: values, errors and field readers

What the Rust clients and the Java sealer exchange inside an Aeron session message. All integers
are little-endian; hashes and addresses are their bytes in order. The inner types that travel as
rkyv archives (`EpochRecord`, `RemoteEpochRecord`, `TxEnvelope`) are read and written through a
`Codecs`, whose fields are the facts about rkyv and keccak that this development takes as given.
-/

namespace Kardamom.Wire

open ByteCodec UInt64 Sealer BitVec
open Sealer (Bytes)
open Outcome

/-- A 32-byte hash. -/
abbrev B256 := CanonicalId

/-- A 20-byte address. -/
abbrev Address := Sender

/-! ## Tags and offsets -/

def kindIngressRecord : UInt8 := 0
def kindOriginRecord : UInt8 := 4
def kindRemoteOriginRecord : UInt8 := 5

def egressKindRelayed : UInt8 := 1
def egressKindBoundary : UInt8 := 2
def egressKindReplayUnavailable : UInt8 := 3
def egressKindReplayDone : UInt8 := 4
def egressKindContiguityReject : UInt8 := 5
def egressKindRemoteOriginReject : UInt8 := 6
def egressKindPastDeadline : UInt8 := 7
def egressKindWindowFull : UInt8 := 8
def egressKindStatus : UInt8 := 9
def egressKindDaLagReject : UInt8 := 10
def egressKindReplayAhead : UInt8 := 11
def egressKindOriginGap : UInt8 := 12
def egressKindRecordLagReject : UInt8 := 13
def egressKindRelayedRef : UInt8 := 15
def egressKindFeedGap : UInt8 := 16
def egressKindSealerInfo : UInt8 := 17
def egressKindRefRefused : UInt8 := 18
def egressKindSessionStart : UInt8 := 255

def rtTxref : UInt8 := 0
def rtDepositref : UInt8 := 1
def rtEpoch : UInt8 := 2
def rtRemoteEpoch : UInt8 := 3
def rtVoid : UInt8 := 4
def rtTxOffer : UInt8 := 5
def rtTx : UInt8 := 6
def rtTxrefOffer : UInt8 := 7

def canonicalIdLen : Nat := 32
def senderLen : Nat := 20

def ingressSenderOffset : Nat := 1
def ingressNonceOffset : Nat := ingressSenderOffset + senderLen
def ingressDeadlineOffset : Nat := ingressNonceOffset + 8
def ingressTipOffset : Nat := ingressDeadlineOffset + 8
def ingressCanonicalIdOffset : Nat := ingressTipOffset + 16

/-- The length of the root of an archived `TxEnvelope`. -/
def envelopeRootLen : Nat := 80

def statusLen : Nat := 50
def statusSnapshotFlagOffset : Nat := statusLen + 17
def statusRetainedBytesOffset : Nat := statusSnapshotFlagOffset + 1
def statusWithRetainedBytesLen : Nat := statusRetainedBytesOffset + 8

def feedRequestIdOffset : Nat := 17
def feedAnswerLen : Nat := feedRequestIdOffset + 8

/-! ## Values -/

/-- A position of two 32-bit words. -/
structure BPosition where
  termId : Int32
  termOffset : Int32
  deriving DecidableEq, Repr

namespace BPosition

/-- Encode a logical index into the two words. -/
def fromIndex (idx : UInt64) : BPosition :=
  ⟨(idx >>> 32).toUInt32.toInt32, (idx &&& 0xFFFFFFFF).toUInt32.toInt32⟩

/-- Decode the logical index. -/
def asIndex (p : BPosition) : UInt64 :=
  p.termId.toUInt32.toUInt64 <<< 32 ||| p.termOffset.toUInt32.toUInt64

end BPosition

/-- A reference to a transaction in a `tx_data` archive. -/
structure TxRef where
  txHash : B256
  shardId : UInt8
  txDataPosition : BPosition
  txDataSessionId : Int32
  deriving DecidableEq, Repr

/-- A reference to a deposit. -/
structure DepositRef where
  sourceHash : B256
  depositPosition : BPosition
  deriving DecidableEq, Repr

/-- An L1 deposit, by value. -/
structure Deposit where
  sourceHash : B256
  «from» : Address
  «to» : Option Address
  mint : BitVec 128
  value : BitVec 256
  gasLimit : UInt64
  isSystemTransaction : Bool
  input : Bytes
  deriving DecidableEq, Repr

/-- One L1 epoch: its origin and its deposits, in log-index order. -/
structure EpochRecord where
  l1Number : UInt64
  l1Hash : B256
  deposits : List Deposit
  deriving DecidableEq, Repr

/-- The response an origin asks for. -/
structure Callback where
  target : Address
  gasLimit : UInt64
  context : B256
  deriving DecidableEq, Repr

/-- A message from another chain. -/
structure XChainMessage where
  sourceHash : B256
  seq : UInt64
  originSender : Address
  target : Address
  value : BitVec 128
  gasLimit : UInt64
  hops : UInt8
  input : Bytes
  callback : Option Callback
  deriving DecidableEq, Repr

/-- A vector with at least one element. -/
structure NonEmptyVec (α : Type) where
  toList : List α
  ne_nil : toList ≠ []
  deriving DecidableEq, Repr

/-- A batch of messages of one origin, dense from `firstSeq`. -/
structure RemoteEpochRecord where
  originChainId : UInt64
  anchorNumber : UInt64
  anchorHash : B256
  firstSeq : UInt64
  messages : NonEmptyVec XChainMessage
  deriving DecidableEq, Repr

/-- Sequence number of the last message. Both steps saturate. -/
def RemoteEpochRecord.lastSeq (rec : RemoteEpochRecord) : UInt64 :=
  ofNat (min (rec.firstSeq.toNat + rec.messages.toList.length) (2 ^ 64 - 1) - 1)

/-- A transaction with what the proxy recovered from it. -/
structure TxEnvelope where
  correlationId : UInt64
  rawTx : Bytes
  sender : Address
  txHash : B256
  maxInclusionBlock : UInt64
  deriving DecidableEq, Repr

/-- The sealer's decision to remove one entry. -/
structure VoidRecord where
  index : UInt64
  txHash : B256
  deriving DecidableEq, Repr

/-- A generated block boundary. -/
structure BlockBoundaryStart where
  blockNumber : UInt64
  endTxIdx : BPosition
  l2Timestamp : UInt64
  l1Origin : UInt64
  deriving DecidableEq, Repr

/-- A record of the canonical order. -/
inductive TxOrderingMessage where
  | txRef (r : TxRef)
  | depositRef (r : DepositRef)
  | boundaryStart (b : BlockBoundaryStart)
  | epoch (e : EpochRecord)
  | remoteEpoch (r : RemoteEpochRecord)
  | void (v : VoidRecord)
  deriving DecidableEq, Repr

/-! ## Errors -/

/-- What the decoders and encoders refuse. -/
inductive WireError where
  | tooShort (offset need available : Nat)
  | badEgressKind (kind : UInt8)
  | badRecordType (recordType : UInt8)
  | badPayloadLen (declared remaining : Nat)
  | badEpoch (reason : String)
  | badRemoteEpoch (reason : String)
  | badTx (reason : String)
  | unrelayedRecordType (recordType : UInt8)
  | badIngressKind (kind : UInt8)
  deriving DecidableEq, Repr

/-- A hash as the errors print it. -/
def B256.display (h : B256) : String := "0x" ++ h.toHex

/-! ## Field writers and readers -/

/-- `to_le_bytes` of a `u64`. -/
def u64Le (x : UInt64) : Bytes := leBytes 8 x.toNat

/-- `to_le_bytes` of a `u32`. -/
def u32Le (x : UInt32) : Bytes := leBytes 4 x.toNat

/-- `to_le_bytes` of an `i32`. -/
def i32Le (x : Int32) : Bytes := u32Le x.toUInt32

/-- `to_le_bytes` of a `u128`. -/
def u128Le (x : BitVec 128) : Bytes := leBytes 16 x.toNat

/-- `as_slice` of a hash. -/
def idBytes (x : B256) : Bytes := beBytes 32 x.toNat

/-- `as_slice` of an address. -/
def addressBytes (x : Address) : Bytes := beBytes 20 x.toNat

@[simp] theorem length_u64Le (x : UInt64) : (u64Le x).length = 8 := length_leBytes ..
@[simp] theorem length_u32Le (x : UInt32) : (u32Le x).length = 4 := length_leBytes ..
@[simp] theorem length_i32Le (x : Int32) : (i32Le x).length = 4 := length_leBytes ..
@[simp] theorem length_u128Le (x : BitVec 128) : (u128Le x).length = 16 := length_leBytes ..
@[simp] theorem length_idBytes (x : B256) : (idBytes x).length = 32 := length_beBytes ..
@[simp] theorem length_addressBytes (x : Address) : (addressBytes x).length = 20 :=
  length_beBytes ..

/-- A computation of the Rust codec. -/
abbrev Decoded (α : Type) := Outcome WireError α

/-- The error of a read of `need` bytes at `i`. -/
def tooShort (b : Bytes) (i need : Nat) : WireError := .tooShort i need (b.length - i)

def rdSlice (b : Bytes) (i len : Nat) : Decoded Bytes := .ofOption (tooShort b i len) (slice b i len)

section

variable (b : Bytes) (i : Nat)

def rdU8 : Decoded UInt8 := .ofOption (tooShort b i 1) b[i]?

def rdU32 : Decoded UInt32 := do
  let s ← rdSlice b i 4
  return UInt32.ofNat (leValue s)

def rdI32 : Decoded Int32 := do
  let s ← rdSlice b i 4
  return (UInt32.ofNat (leValue s)).toInt32

def rdU64 : Decoded UInt64 := do
  let s ← rdSlice b i 8
  return ofNat (leValue s)

def rdI64 : Decoded Int64 := do
  let s ← rdSlice b i 8
  return (ofNat (leValue s)).toInt64

/-- A `usize` from a `u32` length prefix; every `u32` fits. -/
def rdLen : Decoded Nat := do
  let declared ← rdU32 b i
  return declared.toNat

/-- `&b[i..]`: a panic when the buffer ends before `i`. -/
def indexFrom : Decoded Bytes := .expect (sliceFrom b i)

end

/-- `B256::from_slice`: a panic on any other length. -/
def b256FromSlice (s : Bytes) : Decoded B256 :=
  if s.length = canonicalIdLen then .ok (BitVec.ofNat 256 (beValue s)) else .panicked

/-- `Address::from_slice`: a panic on any other length. -/
def addressFromSlice (s : Bytes) : Decoded Address :=
  if s.length = senderLen then .ok (BitVec.ofNat 160 (beValue s)) else .panicked

/-- A hash field. -/
def rdB256 (b : Bytes) (i : Nat) : Decoded B256 := do
  let s ← rdSlice b i canonicalIdLen
  b256FromSlice s

/-- An address field. -/
def rdAddress (b : Bytes) (i : Nat) : Decoded Address := do
  let s ← rdSlice b i senderLen
  addressFromSlice s

/-! ### What a reader answers where its field was written -/

section Written

variable {b : Bytes} {i : Nat}

theorem rdSlice_eq {bs : Bytes} {len : Nat} (h : slice b i len = some bs) :
    rdSlice b i len = .ok bs := by
  rw [rdSlice, h, ofOption_some]

theorem rdU8_eq {x : UInt8} (h : slice b i 1 = some [x]) : rdU8 b i = .ok x := by
  have hle := le_of_slice h
  rw [slice, if_pos hle, Option.some.injEq] at h
  have hget : b[i]? = some x := by
    have := congrArg (fun l => l[0]?) h
    simpa using this
  rw [rdU8, hget, ofOption_some]

theorem rdU32_eq {x : UInt32} (h : slice b i 4 = some (u32Le x)) : rdU32 b i = .ok x := by
  rw [rdU32, rdSlice_eq h, ok_bind, pure_eq, u32Le, leValue_leBytes x.toNat_lt, UInt32.ofNat_toNat]

theorem rdI32_eq {x : Int32} (h : slice b i 4 = some (i32Le x)) : rdI32 b i = .ok x := by
  rw [rdI32, rdSlice_eq h, ok_bind, pure_eq, i32Le, u32Le,
    leValue_leBytes x.toUInt32.toNat_lt, UInt32.ofNat_toNat, Int32.toInt32_toUInt32]

theorem rdU64_eq {x : UInt64} (h : slice b i 8 = some (u64Le x)) : rdU64 b i = .ok x := by
  rw [rdU64, rdSlice_eq h, ok_bind, pure_eq, u64Le, leValue_leBytes x.toNat_lt, UInt64.ofNat_toNat]

theorem b256FromSlice_idBytes (x : B256) : b256FromSlice (idBytes x) = .ok x := by
  rw [b256FromSlice, canonicalIdLen, if_pos (length_idBytes x), idBytes, beValue_beBytes x.isLt,
    ofNat_toNat, setWidth_eq]

theorem rdB256_eq {x : B256} (h : slice b i 32 = some (idBytes x)) : rdB256 b i = .ok x := by
  rw [rdB256, canonicalIdLen, rdSlice_eq h, ok_bind, b256FromSlice_idBytes]

end Written

/-! ### No reader panics -/

section NoPanic

open Outcome (NoPanic)

variable {b : Bytes} {i : Nat}

theorem noPanic_rdSlice {len : Nat} : NoPanic (rdSlice b i len) := .ofOption _ _

theorem noPanic_rdU8 : NoPanic (rdU8 b i) := .ofOption _ _

theorem noPanic_rdU32 : NoPanic (rdU32 b i) := noPanic_rdSlice.bind fun _ _ => .ok _

theorem noPanic_rdI32 : NoPanic (rdI32 b i) := noPanic_rdSlice.bind fun _ _ => .ok _

theorem noPanic_rdU64 : NoPanic (rdU64 b i) := noPanic_rdSlice.bind fun _ _ => .ok _

theorem noPanic_rdI64 : NoPanic (rdI64 b i) := noPanic_rdSlice.bind fun _ _ => .ok _

theorem noPanic_rdLen : NoPanic (rdLen b i) := noPanic_rdU32.bind fun _ _ => .ok _

/-- What `rd_slice` answered has the length that was asked for. -/
theorem length_of_rdSlice {b : Bytes} {i len : Nat} {s : Bytes} (h : rdSlice b i len = .ok s) :
    s.length = len := by
  rw [rdSlice] at h
  cases hs : slice b i len with
  | none => rw [hs] at h; cases h
  | some bs =>
    rw [hs] at h
    cases h
    exact length_of_slice hs

theorem noPanic_rdB256 : NoPanic (rdB256 b i) := by
  refine noPanic_rdSlice.bind fun s hs => ?_
  rw [b256FromSlice, if_pos (length_of_rdSlice hs)]
  exact .ok _

theorem noPanic_rdAddress : NoPanic (rdAddress b i) := by
  refine noPanic_rdSlice.bind fun s hs => ?_
  rw [addressFromSlice, if_pos (length_of_rdSlice hs)]
  exact .ok _

/-- An index in range. -/
theorem noPanic_indexFrom {b : Bytes} {i : Nat} (h : i ≤ b.length) : NoPanic (indexFrom b i) := by
  rw [indexFrom, sliceFrom, if_pos h]
  exact .ok _

end NoPanic

/-! ## Archives -/

/-- The rkyv archive of a type: what was written reads back. -/
structure Archive (α : Type) where
  toBytes : α → Except String Bytes
  fromBytes : Bytes → Except String α
  fromBytes_toBytes : ∀ {a : α} {bs : Bytes}, toBytes a = .ok bs → fromBytes bs = .ok a

/-- The archives of the inner types, and the hash. Reading any bytes answers by value: rkyv validates
an archive before it is used. -/
structure Codecs where
  keccak256 : Bytes → B256
  epoch : Archive EpochRecord
  remoteEpoch : Archive RemoteEpochRecord
  envelope : Archive TxEnvelope
  /-- An archived envelope is the padded raw transaction, then its root. -/
  root_le : ∀ {e : TxEnvelope} {bs : Bytes}, envelope.toBytes e = .ok bs → envelopeRootLen ≤ bs.length

variable (C : Codecs)

/-- Canonical id of an epoch. -/
def EpochRecord.canonicalId (epoch : EpochRecord) : B256 := C.keccak256 (idBytes epoch.l1Hash)

/-- Canonical id of a batch: it commits to the pair, the anchor and the sequence range. -/
def RemoteEpochRecord.canonicalId (rec : RemoteEpochRecord) : B256 :=
  C.keccak256 (beBytes 8 rec.originChainId.toNat ++ beBytes 8 rec.anchorNumber.toNat
    ++ idBytes rec.anchorHash ++ beBytes 8 rec.firstSeq.toNat ++ beBytes 8 rec.lastSeq.toNat)

/-- Read a batch. The archive's own `Verify` refuses a batch that leaves no room for the lane cursor
after it. -/
def RemoteEpochRecord.fromArchive (bs : Bytes) : Except String RemoteEpochRecord :=
  match C.remoteEpoch.fromBytes bs with
  | .error e => .error e
  | .ok rec =>
    if rec.firstSeq.toNat + rec.messages.toList.length < 2 ^ 64 then .ok rec
    else .error "RemoteEpochRecord archive's seq range overflows u64"

end Kardamom.Wire
