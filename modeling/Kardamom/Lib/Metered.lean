import Kardamom.Lib.Run
import Mathlib.Data.List.Induction
import Mathlib.Algebra.GroupWithZero.Nat

/-!
# Caps that counters meter

A log of items with amounts. `meter` says which counter an item is charged to and the cap that was in
force then; an item without a meter is free. Each item is charged before it enters the log, and only
while its counter stays within the cap. `Metered` is what that keeps: a counter holds at least what
the log charged to it, and the charges up to each item are within the cap of that item. So a stretch
of the log under one cap stays within it (`Metered.charged_le`, `Metered.sum_le`), from whatever value
the counters started.
-/

open Function Option Prod Machine List

section

variable {π K : Type} [DecidableEq K] (value : π → Nat) (meter : π → Option (K × Nat))

/-- What the items charged to the counter `k`. -/
def charged (k : K) (ps : List π) : Nat :=
  ((ps.filter fun p => (meter p).map fst = some k).map value).sum

structure Metered (used : K → Nat) (ps : List π) : Prop where
  used_ge : ∀ k, charged value meter k ps ≤ used k
  capped : ∀ {pre p post k cap}, ps = pre ++ p :: post → meter p = some (k, cap) →
    charged value meter k (pre ++ [p]) ≤ cap

end

variable {π K : Type} [DecidableEq K] {value : π → Nat} {meter : π → Option (K × Nat)}

theorem charged_append (k : K) (ps qs : List π) :
    charged value meter k (ps ++ qs) = charged value meter k ps + charged value meter k qs := by
  simp [charged]

theorem charged_singleton_self {p : π} {k : K} {cap : Nat} (hp : meter p = some (k, cap)) :
    charged value meter k [p] = value p := by
  simp [charged, hp]

theorem charged_singleton_ne {p : π} {k : K} (hp : (meter p).map fst ≠ some k) :
    charged value meter k [p] = 0 := by
  simp [charged, hp]

namespace Metered

variable {used : K → Nat} {ps : List π} {p : π} {k : K} {cap : Nat}

theorem nil (used : K → Nat) : Metered value meter used [] :=
  ⟨fun _ => Nat.zero_le _, fun h => absurd h (by simp)⟩

variable (h : Metered value meter used ps)
include h

theorem charge (hp : meter p = some (k, cap)) (hle : used k + value p ≤ cap) :
    Metered value meter (update used k (used k + value p)) (ps ++ [p]) := by
  refine ⟨fun j => ?_, fun {pre q post j c} hsplit hq => ?_⟩
  · have hj := h.used_ge j
    rw [charged_append]
    by_cases hjk : j = k
    · subst hjk
      rw [charged_singleton_self hp, update_self]
      exact Nat.add_le_add_right hj _
    · rw [charged_singleton_ne (by rw [hp]; simpa using fun he => hjk he.symm), update_of_ne hjk]
      exact hj
  · rcases snoc_eq_append_cons hsplit with ⟨rfl, rfl, -⟩ | ⟨post', -, rfl⟩
    · obtain ⟨rfl, rfl⟩ := Prod.mk.inj (some.inj (hp.symm.trans hq))
      have hk := h.used_ge k
      rw [charged_append, charged_singleton_self hp]
      omega
    · exact h.capped rfl hq

theorem free (hp : meter p = none) : Metered value meter used (ps ++ [p]) := by
  refine ⟨fun j => ?_, fun {pre q post j c} hsplit hq => ?_⟩
  · have hj := h.used_ge j
    rw [charged_append, charged_singleton_ne (by simp [hp])]
    exact hj
  · rcases snoc_eq_append_cons hsplit with ⟨rfl, rfl, -⟩ | ⟨post', -, rfl⟩
    · rw [hp] at hq
      cases hq
    · exact h.capped rfl hq

variable {pre seg post : List π} (hps : ps = pre ++ seg ++ post)
include hps

/-- **A stretch of the log under one cap stays within it.** -/
theorem charged_le (hcap : ∀ q ∈ seg, ∀ j c, meter q = some (j, c) → c = cap)
    (k : K) : charged value meter k seg ≤ cap := by
  induction seg using reverseRecOn generalizing post with
  | nil => exact Nat.zero_le _
  | append_singleton seg q ih =>
    have hps' : ps = pre ++ seg ++ q :: post := by simpa using hps
    by_cases hq : (meter q).map fst = some k
    · -- the last item of the counter bounds everything charged before it
      obtain ⟨⟨k', c⟩, hmeter, rfl⟩ := map_eq_some_iff.1 hq
      obtain rfl := hcap q (by simp) _ _ hmeter
      have hbound := h.capped hps' hmeter
      rw [append_assoc, charged_append] at hbound
      exact Nat.le_trans (Nat.le_add_left _ _) hbound
    · rw [charged_append, charged_singleton_ne hq]
      exact ih hps' fun r hr => hcap r (by simp [hr])

/-- The same for a stretch whose items are all metered: the amounts of each key stay within the
cap. -/
theorem sum_le {key : π → K} (hmeter : ∀ q ∈ seg, meter q = some (key q, cap))
    (k : K) : ((seg.filter (key · = k)).map value).sum ≤ cap := by
  have hle : charged value meter k seg ≤ cap := by
    refine h.charged_le hps (fun q hq j c hj => ?_) k
    rw [hmeter q hq] at hj
    exact (Prod.mk.inj (some.inj hj)).2.symm
  have hsame : (seg.filter fun q => (meter q).map fst = some k) = seg.filter (key · = k) :=
    filter_congr fun q hq => by simp [hmeter q hq]
  rwa [charged, hsame] at hle

end Metered
