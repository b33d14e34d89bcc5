import Mathlib.Data.UInt

/-!
# Machine words

The linear order of the bytes, of the 64-bit words and of the bit vectors, so that they can be the keys of a sorted
map, and the saturating operations on words, each with its value in the naturals.
-/

/-- The linear order of a type with a lawful `≤` and `<`. -/
abbrev LinearOrder.ofLawful (α : Type) [LE α] [LT α] [Std.IsLinearOrder α] [Std.LawfulOrderLT α]
    [DecidableEq α] [DecidableLE α] [DecidableLT α] : LinearOrder α where
  le_refl _ := Std.le_refl _
  le_trans _ _ _ := Std.le_trans
  le_antisymm _ _ := Std.le_antisymm
  le_total _ _ := Std.le_total
  lt_iff_le_not_ge _ _ := Std.lt_iff_le_and_not_ge
  toDecidableLE := inferInstance
  toDecidableLT := inferInstance
  toDecidableEq := inferInstance

instance UInt8.linearOrder : LinearOrder UInt8 := .ofLawful _

instance UInt64.linearOrder : LinearOrder UInt64 := .ofLawful _

instance BitVec.linearOrder {n : Nat} : LinearOrder (BitVec n) := .ofLawful _

namespace Words

open BitVec UInt64

/-- A 64-bit word that is not negative as a signed one has the same value. -/
theorem toInt_toInt64 {x : UInt64} (h : 0 ≤ x.toInt64) : x.toInt64.toInt = x.toNat := by
  rw [Int64.le_iff_toInt_le] at h
  have hx : x.toInt64.toInt = x.toBitVec.toInt := rfl
  have hn : x.toBitVec.toNat = x.toNat := rfl
  have h0 : (0 : Int64).toInt = 0 := rfl
  rw [hx, toInt_eq_toNat_cond] at h ⊢
  split at h
  · rw [if_pos (by assumption), hn]
  · omega

/-- A signed 64-bit word that is not negative has the same value as an unsigned one. -/
theorem toNat_toUInt64 {x : Int64} (h : 0 ≤ x) : (x.toUInt64.toNat : Int) = x.toInt := by
  have hx := toInt_toInt64 (x := x.toUInt64) (by simpa using h)
  simpa using hx.symm

/-- `saturating_add` of 64-bit words. -/
def satAdd64 (a b : UInt64) : UInt64 := ofNat (min (a.toNat + b.toNat) (2 ^ 64 - 1))

theorem toNat_satAdd64 (a b : UInt64) :
    (satAdd64 a b).toNat = min (a.toNat + b.toNat) (2 ^ 64 - 1) := by
  rw [satAdd64, toNat_ofNat_of_lt']
  show _ < 2 ^ 64
  omega

variable {w : Nat}

section

variable (a b : BitVec w)

/-- `saturating_add` of words. -/
def satAdd : BitVec w :=
  if a.toNat + b.toNat < 2 ^ w then a + b else allOnes w

/-- `saturating_sub` of words. -/
def satSub : BitVec w := if b ≤ a then a - b else 0

theorem toNat_satAdd_of_lt {a b : BitVec w} (h : a.toNat + b.toNat < 2 ^ w) :
    (satAdd a b).toNat = a.toNat + b.toNat := by
  rw [satAdd, if_pos h, toNat_add, Nat.mod_eq_of_lt h]

theorem toNat_satSub : (satSub a b).toNat = a.toNat - b.toNat := by
  unfold satSub
  split
  case isTrue h => exact toNat_sub_of_le h
  case isFalse h =>
    have hlt : a.toNat < b.toNat := Nat.lt_of_not_le fun hle => h (le_def.2 hle)
    rw [Nat.sub_eq_zero_of_le hlt.le]
    exact toNat_zero

end

end Words
