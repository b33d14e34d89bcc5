import Kardamom.Lib.SortedMap

/-!
# A buffer of keyed frames

Frames of one sequence arrive in any order, with losses and repeats, and wait in a map under the key of
their place: `frame k` is the key and the value of place `k`, if the place is one of this buffer. `Holds`
says that the map holds what arrived at or behind the place of delivery. No two places share a key, so an
arrival and a delivery each change one entry.
-/

namespace KeyedBuffer

open SortedMap List

variable {ν : Type*} {frame : Nat → Option (Nat × ν)} {arrived : List Nat} {place k i : Nat} {v : ν}
  {m : SortedMap Nat ν}

section

variable (frame : Nat → Option (Nat × ν))

/-- No two places have the same key. -/
def KeysApart : Prop := ∀ j k i v w, frame j = some (i, v) → frame k = some (i, w) → j = k

/-- The map holds the arrived frames at or behind `place`, and nothing else. -/
def Holds (arrived : List Nat) (place : Nat) (m : SortedMap Nat ν) :
    Prop :=
  ∀ i v, m.get? i = some v ↔ ∃ k ∈ arrived, place ≤ k ∧ frame k = some (i, v)

theorem holds_empty (place : Nat) : Holds frame [] place .empty := by
  intro i v
  simp [get?]

end

variable (h : Holds frame arrived place m)
include h

/-- A frame that arrives at or behind the place of delivery enters the map. -/
theorem Holds.arrive (hkeys : KeysApart frame) (hk : place ≤ k)
    (hf : frame k = some (i, v)) : Holds frame (k :: arrived) place (m.upsert i fun _ => v) := by
  intro i' v'
  by_cases hi : i' = i
  · subst hi
    rw [get?_upsert_self]
    constructor
    · rintro ⟨⟩
      exact ⟨k, mem_cons_self, hk, hf⟩
    · rintro ⟨j, _, _, hj⟩
      obtain rfl := hkeys _ _ _ _ _ hj hf
      rw [hf] at hj
      simpa using hj
  · rw [get?_upsert_of_ne _ hi, h i' v', exists_mem_cons_iff]
    refine (or_iff_right ?_).symm
    rintro ⟨-, hfk⟩
    simp_all

/-- A frame that is delivered already, or is none of this buffer, changes nothing. -/
theorem Holds.ignore (hk : place ≤ k → frame k = none) : Holds frame (k :: arrived) place m := by
  intro i v
  rw [h i v, exists_mem_cons_iff]
  refine (or_iff_right ?_).symm
  rintro ⟨hle, hfk⟩
  exact nomatch (hk hle).symm.trans hfk

/-- The delivery of the frame at the place takes its entry out. -/
theorem Holds.deliver (hkeys : KeysApart frame)
    (hf : frame place = some (i, v)) : Holds frame arrived (place + 1) (m.remove i) := by
  intro i' v'
  by_cases hi : i' = i
  · subst hi
    rw [get?_remove_self]
    constructor
    · exact nofun
    · rintro ⟨j, _, hle, hj⟩
      have := hkeys _ _ _ _ _ hj hf
      omega
  · rw [get?_remove_of_ne _ hi, h i' v']
    constructor
    · rintro ⟨j, hj, hle, hfj⟩
      refine ⟨j, hj, Nat.lt_of_le_of_ne hle ?_, hfj⟩
      rintro rfl
      simp_all
    · rintro ⟨j, hj, hle, hfj⟩
      exact ⟨j, hj, Nat.le_of_succ_le hle, hfj⟩

/-- The delivery of a frame of another buffer leaves this one. -/
theorem Holds.pass (hf : frame place = none) : Holds frame arrived (place + 1) m := by
  intro i v
  rw [h i v]
  constructor
  · rintro ⟨j, hj, hle, hfj⟩
    refine ⟨j, hj, Nat.lt_of_le_of_ne hle ?_, hfj⟩
    rintro rfl
    rw [hf] at hfj
    exact nomatch hfj
  · rintro ⟨j, hj, hle, hfj⟩
    exact ⟨j, hj, Nat.le_of_succ_le hle, hfj⟩

end KeyedBuffer
