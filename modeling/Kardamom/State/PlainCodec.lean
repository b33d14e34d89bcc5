import Kardamom.Lib.Words
import Kardamom.State.Mpt
import Mathlib.Data.List.Lex

/-!
# A codec that runs

Keccak and the node encoding are a parameter of the tries. This instance hashes nothing: the digest of
a byte string is the string itself behind a tag, and a node is written field by field. It shows that what
is assumed of a codec can be met, and runs the concrete tries of the development.
-/

namespace Kardamom.Mpt

open List UInt8
open Option (bind_eq_bind bind_some)

/-- A digest of the plain codec. -/
def Digest : Type := Bytes

def Digest.bytes (h : Digest) : Bytes := h

instance : LinearOrder Digest := inferInstanceAs (LinearOrder (List UInt8))

namespace Plain

/-! ## Fields -/

/-- A field: each byte behind a `1`, and a `0` at the end. -/
def field : Bytes → Bytes
  | [] => [0]
  | b :: bs => 1 :: b :: field bs

/-- Read a field, with what follows it. -/
def readField : Bytes → Option (Bytes × Bytes)
  | [] => none
  | 0 :: rest => some ([], rest)
  | [_] => none
  | _ :: b :: rest => (readField rest).map fun p => (b :: p.1, p.2)

theorem readField_field (bs rest : Bytes) : readField (field bs ++ rest) = some (bs, rest) := by
  induction bs with
  | nil => rfl
  | cons b bs ih =>
    show (readField (field bs ++ rest)).map _ = _
    rw [ih]
    rfl

/-- Read that many fields at most, up to the end. -/
def readFields : Nat → Bytes → Option (List Bytes)
  | _, [] => some []
  | 0, _ :: _ => none
  | n + 1, b :: bs => do
    let (x, rest) ← readField (b :: bs)
    let xs ← readFields n rest
    return x :: xs

theorem exists_field_cons (bs : Bytes) : ∃ b rest, field bs = b :: rest := by
  cases bs with
  | nil | cons => exact ⟨_, _, rfl⟩

theorem readFields_flatMap {n : Nat} {xs : List Bytes} (hn : xs.length ≤ n) :
    readFields n (xs.flatMap field) = some xs := by
  induction xs generalizing n with
  | nil => cases n <;> rfl
  | cons x xs ih =>
    cases n with
    | zero => simp at hn
    | succ n =>
      obtain ⟨b, rest, hx⟩ := exists_field_cons x
      have hread : readField (b :: (rest ++ xs.flatMap field)) = some (x, xs.flatMap field) := by
        rw [← cons_append, ← hx, readField_field]
      have hxs : readFields n (xs.flatMap field) = some xs := ih (by simpa using hn)
      rw [flatMap_cons, hx, cons_append]
      simp only [readFields, hread, hxs, bind_eq_bind, bind_some, Option.pure_def]

theorem length_le_flatMap (xs : List Bytes) : xs.length ≤ (xs.flatMap field).length := by
  induction xs with
  | nil => simp
  | cons x xs ih =>
    obtain ⟨b, rest, hx⟩ := exists_field_cons x
    rw [flatMap_cons, hx, length_append]
    simp only [length_cons]
    omega

/-! ## Nodes -/

def keyBytes (key : Nibbles) : Bytes := key.map fun i => ofNat i.val

def readKey (bs : Bytes) : Nibbles := bs.map fun b => ⟨b.toNat % 16, low_lt b⟩

theorem readKey_keyBytes (key : Nibbles) : readKey (keyBytes key) = key := by
  unfold readKey keyBytes
  rw [map_map, map_congr_left (g := id), map_id]
  intro i _
  apply Fin.ext
  show (ofNat i.val).toNat % 16 = i.val
  rw [toNat_ofNat']
  omega

def refBytes : RlpNode Digest → Bytes
  | .inline bytes => 0 :: bytes
  | .hash h => 1 :: h.bytes

def readRef : Bytes → Option (RlpNode Digest)
  | 0 :: bytes => some (.inline bytes)
  | 1 :: h => some (.hash h)
  | _ => none

theorem readRef_refBytes (r : RlpNode Digest) : readRef (refBytes r) = some r := by
  cases r <;> rfl

def maskBytes (mask : TrieMask) : Bytes := (List.finRange 16).map fun i => if mask i then 1 else 0

def readMask (bs : Bytes) : TrieMask := fun i => bs[i.val]? == some 1

theorem readMask_maskBytes (mask : TrieMask) : readMask (maskBytes mask) = mask := by
  funext i
  have hi : (maskBytes mask)[i.val]? = some (if mask i then 1 else 0) := by
    rw [maskBytes]
    simp
  rw [readMask, hi]
  cases mask i <;> rfl

def encode : TrieNode Digest → Bytes
  | .emptyRoot => [0]
  | .leaf key value => 1 :: (field (keyBytes key) ++ value)
  | .extension key child => 2 :: (field (keyBytes key) ++ refBytes child)
  | .branch stack mask => 3 :: (field (maskBytes mask) ++ stack.flatMap fun r => field (refBytes r))

def decode : Bytes → Option (TrieNode Digest)
  | 0 :: _ => some .emptyRoot
  | 1 :: rest => do
    let (key, value) ← readField rest
    return .leaf (readKey key) value
  | 2 :: rest => do
    let (key, child) ← readField rest
    let child ← readRef child
    return .extension (readKey key) child
  | 3 :: rest => do
    let (mask, stack) ← readField rest
    let stack ← readFields stack.length stack
    let stack ← stack.mapM readRef
    return .branch stack (readMask mask)
  | _ => none

theorem mapM_readRef (stack : List (RlpNode Digest)) : (stack.map refBytes).mapM readRef = some stack := by
  induction stack with
  | nil => rfl
  | cons r stack ih =>
    rw [map_cons, mapM_cons, readRef_refBytes, ih]
    rfl

/-- **Every node reads back.** -/
theorem decode_encode (node : TrieNode Digest) : decode (encode node) = some node := by
  cases node with
  | emptyRoot => rfl
  | leaf key value =>
    simp only [encode, decode, readField_field, readKey_keyBytes, bind_eq_bind, bind_some,
      Option.pure_def]
  | extension key child =>
    simp only [encode, decode, readField_field, readRef_refBytes, readKey_keyBytes, bind_eq_bind,
      bind_some, Option.pure_def]
  | branch stack mask =>
    have hstack : (stack.flatMap fun r => field (refBytes r)) = (stack.map refBytes).flatMap field := by
      rw [flatMap_map]
    simp only [encode, decode, hstack, readField_field, readFields_flatMap (length_le_flatMap _),
      mapM_readRef, readMask_maskBytes, bind_eq_bind, bind_some, Option.pure_def]

end Plain

/-- The codec without a hash function. -/
def plainCodec : Codec Digest where
  keccak bytes := (1 :: bytes : Bytes)
  zero := ([0] : Bytes)
  wordRlp := Digest.bytes
  encode := Plain.encode
  decode := Plain.decode

theorem plainCodec_lawful : plainCodec.Lawful where
  keccak_injective _ _ h := (List.cons.inj h).2
  decode_node t := Plain.decode_encode (plainCodec.node t)

end Kardamom.Mpt
