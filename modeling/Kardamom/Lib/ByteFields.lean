import Kardamom.Lib.ByteCodec

/-!
# Fields at fixed offsets

A frame whose fields are read at absolute offsets. `slice` is the checked read of a range; on a
frame that is written as one field after the other, `slice_append_right` walks past the fields in
front of the offset and `slice_append_left` takes the field that starts there.
-/

namespace ByteCodec

open List

/-- The `len` bytes at offset `i`, or nothing when the buffer ends before them. -/
def slice (buf : List UInt8) (i len : Nat) : Option (List UInt8) :=
  if i + len ≤ buf.length then some ((buf.drop i).take len) else none

/-- The bytes from offset `i` on, or nothing when the buffer ends before it. -/
def sliceFrom (buf : List UInt8) (i : Nat) : Option (List UInt8) :=
  if i ≤ buf.length then some (buf.drop i) else none

/-- The value of bytes, least significant first. -/
def leValue (bs : List UInt8) : Nat := beValue bs.reverse

theorem leValue_leBytes {n x : Nat} (h : x < 256 ^ n) : leValue (leBytes n x) = x := by
  rw [leValue, leBytes, reverse_reverse, beValue_beBytes h]

variable {i len : Nat} {buf : List UInt8} {bs : List UInt8}

theorem length_of_slice (h : slice buf i len = some bs) : bs.length = len := by
  unfold slice at h
  split at h
  · cases h
    simp
    omega
  · cases h

theorem slice_eq_none : slice buf i len = none ↔ buf.length < i + len := by
  unfold slice
  split <;> simp <;> omega

theorem le_of_slice (h : slice buf i len = some bs) : i + len ≤ buf.length := by
  by_contra hlt
  rw [slice_eq_none.2 (by omega)] at h
  cases h

variable {a b : List UInt8}

/-- A field that starts the buffer. -/
theorem slice_append_left {len : Nat} (h : a.length = len) : slice (a ++ b) 0 len = some a := by
  subst h
  simp [slice]

/-- The whole of what is left. -/
theorem slice_self {a : List UInt8} {len : Nat} (h : a.length = len) : slice a 0 len = some a := by
  subst h
  simp [slice]

/-- A read behind the first field does not look at it. -/
theorem slice_append_right (h : a.length ≤ i) : slice (a ++ b) i len = slice b (i - a.length) len := by
  unfold slice
  rw [drop_append, drop_of_length_le h, nil_append, length_append]
  have hiff : i + len ≤ a.length + b.length ↔ i - a.length + len ≤ b.length := by omega
  simp only [hiff]

theorem sliceFrom_append {i : Nat} (h : a.length = i) : sliceFrom (a ++ b) i = some b := by
  subst h
  simp [sliceFrom]

end ByteCodec
