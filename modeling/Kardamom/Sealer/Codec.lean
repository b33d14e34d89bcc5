import Mathlib.Tactic.NormNum
import Mathlib.Tactic.Positivity
import Mathlib.Tactic.Ring
import Kardamom.Lib.ByteCodec
import Kardamom.Sealer.Basic

/-!
# Fields of the snapshot

The Java types of a snapshot field, as `ByteBuffer` writes and reads them: big-endian, integers in
two's complement, ids and addresses as they stand. Each field comes with its width and its round
trip.
-/

namespace Kardamom.Sealer

open ByteCodec UInt64 BitVec

/-- A reader of a snapshot section. -/
abbrev SnapshotGet (α : Type) := Get SealerException α

/-- The signed value of `bits` bits. -/
def toSigned (bits : Nat) (x : Nat) : Int := if x < 2 ^ (bits - 1) then x else x - 2 ^ bits

/-- `putLong`. -/
def putLong (x : Int) : Bytes := beBytes 8 (x % 2 ^ 64).toNat

/-- `getLong`. -/
def getLong : SnapshotGet Int := (Get.be .bufferUnderflow 8).bind fun x => Get.pure (toSigned 64 x)

/-- `putInt`. -/
def putInt (x : Int) : Bytes := beBytes 4 (x % 2 ^ 32).toNat

/-- `getInt`. -/
def getInt : SnapshotGet Int := (Get.be .bufferUnderflow 4).bind fun x => Get.pure (toSigned 32 x)

/-- `put` of one byte. -/
def putByte (x : Int) : Bytes := beBytes 1 (x % 2 ^ 8).toNat

/-- `get` of one byte, which is signed. -/
def getByte : SnapshotGet Int := (Get.be .bufferUnderflow 1).bind fun x => Get.pure (toSigned 8 x)

/-- `putLong` of a value that keeps its 64 bits. -/
def putWord (x : UInt64) : Bytes := beBytes 8 x.toNat

/-- `getLong` of a value that keeps its 64 bits. -/
def getWord : SnapshotGet UInt64 := (Get.be .bufferUnderflow 8).bind fun x => Get.pure (ofNat x)

/-- `put` of a canonical id or a digest. -/
def putId (x : CanonicalId) : Bytes := beBytes 32 x.toNat

/-- `get` of a canonical id or a digest. -/
def getId : SnapshotGet CanonicalId :=
  (Get.be .bufferUnderflow 32).bind fun x => Get.pure (BitVec.ofNat 256 x)

/-- `put` of a sender address. -/
def putSender (x : Sender) : Bytes := beBytes 20 x.toNat

/-- `get` of a sender address. -/
def getSender : SnapshotGet Sender :=
  (Get.be .bufferUnderflow 20).bind fun x => Get.pure (BitVec.ofNat 160 x)

@[simp] theorem length_putLong (x : Int) : (putLong x).length = 8 := length_beBytes ..
@[simp] theorem length_putInt (x : Int) : (putInt x).length = 4 := length_beBytes ..
@[simp] theorem length_putByte (x : Int) : (putByte x).length = 1 := length_beBytes ..
@[simp] theorem length_putWord (x : UInt64) : (putWord x).length = 8 := length_beBytes ..
@[simp] theorem length_putId (x : CanonicalId) : (putId x).length = 32 := length_beBytes ..
@[simp] theorem length_putSender (x : Sender) : (putSender x).length = 20 := length_beBytes ..

variable {x : Int}

/-- Two's complement of a value in range reads back. -/
theorem toSigned_emod {bits : Nat} (hbits : 0 < bits) (hlo : -2 ^ (bits - 1) ≤ x)
    (hhi : x < 2 ^ (bits - 1)) : toSigned bits (x % 2 ^ bits).toNat = x := by
  obtain ⟨k, rfl⟩ : ∃ k, bits = k + 1 := ⟨bits - 1, by omega⟩
  rw [Nat.add_sub_cancel] at hlo hhi
  have hnat : ((2 ^ k : Nat) : Int) = 2 ^ k := by push_cast; rfl
  unfold toSigned
  rw [Nat.add_sub_cancel]
  -- a negative value wraps to the upper half
  rcases Int.lt_or_le x 0 with hneg | hpos
  · have hmod : x % 2 ^ (k + 1) = x + 2 ^ (k + 1) := by
      rw [← Int.add_emod_right, Int.emod_eq_of_lt (by omega) (by omega)]
    omega
  · have hmod : x % 2 ^ (k + 1) = x := Int.emod_eq_of_lt hpos (by omega)
    omega

private theorem emod_toNat_lt {n : Nat} (x : Int) : (x % 2 ^ (8 * n)).toNat < 256 ^ n := by
  have hpow : (256 : Nat) ^ n = 2 ^ (8 * n) := by rw [pow_mul]; norm_num
  have hcast : ((2 ^ (8 * n) : Nat) : Int) = 2 ^ (8 * n) := by push_cast; rfl
  omega

/-- An unsigned field that `f` converts. -/
private theorem reads_field {α : Type} {n x : Nat} (h : x < 256 ^ n) (f : Nat → α) :
    Reads ((Get.be SealerException.bufferUnderflow n).bind fun x => Get.pure (f x)) (beBytes n x)
      (f x) :=
  (Reads.be h).map f

theorem reads_long (hlo : longMin ≤ x) (hhi : x ≤ longMax) : Reads getLong (putLong x) x := by
  have h := reads_field (emod_toNat_lt (n := 8) x) (toSigned 64)
  unfold longMax at hhi
  rwa [toSigned_emod (by decide) hlo (by omega)] at h

theorem reads_int (hlo : -2 ^ 31 ≤ x) (hhi : x < 2 ^ 31) : Reads getInt (putInt x) x := by
  have h := reads_field (emod_toNat_lt (n := 4) x) (toSigned 32)
  rwa [toSigned_emod (by decide) hlo hhi] at h

theorem reads_byte (hlo : -2 ^ 7 ≤ x) (hhi : x < 2 ^ 7) : Reads getByte (putByte x) x := by
  have h := reads_field (emod_toNat_lt (n := 1) x) (toSigned 8)
  rwa [toSigned_emod (by decide) hlo hhi] at h

theorem reads_word (x : UInt64) : Reads getWord (putWord x) x := by
  have h := reads_field (n := 8) x.toNat_lt ofNat
  rwa [UInt64.ofNat_toNat] at h

theorem reads_id (x : CanonicalId) : Reads getId (putId x) x := by
  have h := reads_field (n := 32) x.isLt (BitVec.ofNat 256)
  rwa [ofNat_toNat] at h

theorem reads_sender (x : Sender) : Reads getSender (putSender x) x := by
  have h := reads_field (n := 20) x.isLt (BitVec.ofNat 160)
  rwa [ofNat_toNat] at h

end Kardamom.Sealer
