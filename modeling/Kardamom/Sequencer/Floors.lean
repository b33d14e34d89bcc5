import Mathlib.Algebra.Order.BigOperators.Group.List
import Kardamom.Lib.Run
import Kardamom.Sequencer.PartitionState

/-!
# No buffered ref below the floor

A buffered ref below the floor of its sender is out of reach: the drain starts at the floor, and the
expiry passes over it. `Clear` says that there is none. Every operation keeps it, as the sequencer
issues them, but for one case (`Strands`): a rewind of a sender whose floor is not known sets the floor
to its own nonce, also above refs that wait below it. A floor is not known any more after a rollback,
while the buffer of the sender stays.
-/

namespace Kardamom.Sequencer

open Wire (Address)
open PendingBuffer Words LinkedMap List Machine UInt64 PendingBuffer

variable {T : Type} {floor : UInt64}

namespace PendingBuffer

variable {b : PendingBuffer T} {n nonce : UInt64}

theorem contains_put (b : PendingBuffer T) (nonce : UInt64) (slot : Slot T) (n : UInt64) :
    (b.put nonce slot).contains n = (decide (n = nonce) || b.contains n) := by
  unfold contains
  by_cases hn : n = nonce
  · subst hn
    simp
  · rw [inner_put, SortedMap.get?_upsert_of_ne _ hn]
    simp [hn]

theorem contains_remove (h : (b.remove nonce).1.contains n = true) :
    n ≠ nonce ∧ b.contains n = true := by
  unfold contains at h ⊢
  have hn : n ≠ nonce := by
    rintro rfl
    simp at h
  rw [inner_remove, SortedMap.get?_remove_of_ne _ hn] at h
  exact ⟨hn, h⟩

theorem contains_takeIf {live : Slot T → Bool} (h : (b.takeIf nonce live).1.contains n = true) :
    b.contains n = true := by
  rcases b.takeIf_cases nonce live with heq | ⟨slot, -, heq⟩
  · rwa [heq] at h
  · rw [heq] at h
    exact (contains_remove h).2

theorem contains_dropBelow (h : (b.dropBelow floor).1.contains n = true) : floor ≤ n ∧ b.contains n = true := by
  unfold contains at h ⊢
  rw [get?_dropBelow] at h
  split at h
  case isTrue hle => exact ⟨hle, h⟩
  case isFalse => cases h

theorem contains_drain {start : UInt64} (h : (b.drainConsecutiveFrom start).1.contains n = true) :
    b.contains n = true ∧ (start ≤ n → advanceOver start (b.drainConsecutiveFrom start).2 ≤ n) :=
  mem_drainLoop h

theorem contains_countBelow : b.countBelow floor = 0 ↔ ∀ n, b.contains n = true → floor ≤ n := by
  unfold countBelow contains
  rw [length_eq_zero_iff, SortedMap.headMap, SortedMap.entries_filter, filter_eq_nil_iff]
  constructor
  · intro h n hn
    obtain ⟨slot, hslot⟩ := Option.isSome_iff_exists.1 hn
    exact not_lt.1 fun hlt => h _ (SortedMap.get?_eq_some_iff.1 hslot) (by simpa using hlt)
  · intro h e he hlt
    have hget : b.inner.get? e.1 = some e.2 := SortedMap.get?_eq_some_iff.2 he
    exact absurd (h e.1 (by simp [hget])) (not_le.2 (by simpa using hlt))

end PendingBuffer

namespace PartitionState

variable {s : PartitionState T} {x : Address}

/-! ## One sender at a time -/

@[simp] theorem holds_setBuffer_self (s : PartitionState T) (x : Address) (b : PendingBuffer T)
    (n : UInt64) : (s.setBuffer x b).holds x n = b.contains n := by
  unfold holds setBuffer
  rw [get?_put_self]
  rfl

theorem holds_setBuffer_of_ne {y : Address} (h : y ≠ x) (b : PendingBuffer T) (n : UInt64) :
    (s.setBuffer x b).holds y n = s.holds y n := by
  unfold holds setBuffer
  rw [get?_put_of_ne _ h]

variable {b : PendingBuffer T}

theorem holds_of_get? (h : s.pending.get? x = some b) (n : UInt64) : s.holds x n = b.contains n := by
  unfold holds
  rw [h]
  rfl

section

variable (s : PartitionState T) (x : Address) (n : UInt64)

theorem contains_bufferOf : (s.bufferOf x).contains n = s.holds x n := by
  unfold bufferOf holds
  cases s.pending.get? x with
  | none | some => rfl

theorem nextNonce_seed_self : (s.seedNextNonce x n).nextNonce x = n := by
  unfold nextNonce seedNextNonce
  rw [get?_put_self]
  rfl

end

theorem nextNonce_seed_of_ne {y : Address} (h : y ≠ x) (n : UInt64) :
    (s.seedNextNonce x n).nextNonce y = s.nextNonce y := by
  unfold nextNonce seedNextNonce
  rw [get?_put_of_ne _ h]

variable {R : Type}

section

variable (s : PartitionState T) (x : Address)

/-- A change of a buffer touches one sender and no floor. -/
theorem withBuffer_cases (none : R) (f : PendingBuffer T → PendingBuffer T × R) :
    (s.pending.get? x = .none ∧ s.withBuffer x none f = (s, none)) ∨
      ∃ b, s.pending.get? x = some b ∧ s.withBuffer x none f = (s.setBuffer x (f b).1, (f b).2) := by
  unfold withBuffer
  cases h : s.pending.get? x with
  | none => exact .inl ⟨rfl, rfl⟩
  | some b => exact .inr ⟨b, rfl, rfl⟩

theorem drainConsecutiveInto_cases (start : UInt64) :
    (s.pending.get? x = .none ∧ s.drainConsecutiveInto x start = (s, [], start)) ∨
      ∃ b, s.pending.get? x = some b ∧ s.drainConsecutiveInto x start
        = (s.setBuffer x (b.drainConsecutiveFrom start).1,
          (b.drainConsecutiveFrom start).2.map (fun e => .publish e.1 e.2),
          advanceOver start (b.drainConsecutiveFrom start).2) :=
  s.withBuffer_cases ..

end

theorem nextNonce_of_known {next : UInt64} (h : s.nextNonceKnown x = some next) :
    s.nextNonce x = next := by
  unfold nextNonce
  rw [show s.next.get? x = some next from h]
  rfl

theorem holds_withBuffer {none : R} {f : PendingBuffer T → PendingBuffer T × R}
    {n : UInt64} (h : (s.withBuffer x none f).1.holds x n = true) :
    ∃ b, s.pending.get? x = some b ∧ (f b).1.contains n = true := by
  rcases s.withBuffer_cases x none f with ⟨hnone, heq⟩ | ⟨b, hb, heq⟩
  · rw [heq, holds, hnone] at h
    cases h
  · rw [heq, holds_setBuffer_self] at h
    exact ⟨b, hb, h⟩

/-! ## The floor bounds the buffer -/

/-- No buffered ref is below the floor of its sender. -/
def Clear (s : PartitionState T) : Prop := ∀ x n, s.holds x n = true → s.nextNonce x ≤ n

theorem refsBelowFloor_eq_zero_iff : s.refsBelowFloor = 0 ↔ s.Clear := by
  unfold refsBelowFloor
  rw [sum_eq_zero_iff]
  simp only [mem_map, forall_exists_index, and_imp, forall_apply_eq_imp_iff₂]
  constructor
  · intro h x n hn
    obtain ⟨b, hb, hcontains⟩ := (Option.any_eq_true _ _).1 hn
    exact contains_countBelow.1 (h (x, b) (get?_eq_some_iff.1 hb)) n hcontains
  · rintro h ⟨x, b⟩ he
    refine contains_countBelow.2 fun n hn => h x n ?_
    rwa [holds_of_get? (get?_eq_some_iff.2 he)]

theorem clear_new (maxPending txTtl : Nat) : (new maxPending txTtl : PartitionState T).Clear :=
  fun _ _ h => by cases h

variable {nonce : UInt64}

namespace Clear

variable (h : s.Clear)
include h

/-- A new buffer for one sender, above its floor. -/
theorem setBuffer (hb : ∀ n, b.contains n = true → s.nextNonce x ≤ n) : (s.setBuffer x b).Clear := by
  intro y n hn
  by_cases hy : y = x
  · subst hy
    rw [holds_setBuffer_self] at hn
    exact hb n hn
  · rw [holds_setBuffer_of_ne hy] at hn
    exact h y n hn

/-- A new floor for one sender, below its buffer. -/
theorem seed (hx : ∀ n, s.holds x n = true → floor ≤ n) : (s.seedNextNonce x floor).Clear := by
  intro y n hn
  by_cases hy : y = x
  · subst hy
    rw [nextNonce_seed_self]
    exact hx n hn
  · rw [nextNonce_seed_of_ne hy]
    exact h y n hn

theorem park (now : Nat) (hlt : s.nextNonce x < nonce) (payload : T) :
    (s.park now x nonce payload).1.Clear := by
  have hset : (s.setBuffer x ((s.bufferOf x).insert nonce payload (now + s.txTtl)).1).Clear := by
    refine h.setBuffer fun n hn => ?_
    rcases mem_insert _ hn with rfl | hold
    · exact hlt.le
    · exact h x n (by rwa [← contains_bufferOf])
  unfold PartitionState.park
  dsimp only
  split <;> exact hset

theorem forgetFloor (x : Address) : (s.forgetFloor x).1.Clear := by
  intro y n hn
  unfold nextNonce PartitionState.forgetFloor
  by_cases hy : y = x
  · subst hy
    rw [get?_remove_self]
    exact UInt64.zero_le
  · rw [get?_remove_of_ne _ hy]
    exact h y n hn

end Clear

section

variable (s : PartitionState T) (x : Address) (n : UInt64)

theorem known_seed_self : ((s.seedNextNonce x n).nextNonceKnown x).isSome := by
  unfold nextNonceKnown seedNextNonce
  rw [get?_put_self]
  rfl

theorem known_seed (y : Address)
    (hy : (s.nextNonceKnown y).isSome) : ((s.seedNextNonce x n).nextNonceKnown y).isSome := by
  by_cases hyx : y = x
  · subst hyx
    exact known_seed_self ..
  · unfold nextNonceKnown seedNextNonce at *
    rwa [get?_put_of_ne _ hyx]

end

/-- A step that adds no ref and forgets no floor. -/
structure Within (s s' : PartitionState T) : Prop where
  holds : ∀ y n, s'.holds y n = true → s.holds y n = true
  known : ∀ y, (s.nextNonceKnown y).isSome → (s'.nextNonceKnown y).isSome

/-- The step strands no ref either. -/
structure Eases (s s' : PartitionState T) : Prop extends Within s s' where
  clear : s.Clear → s'.Clear

namespace Eases

variable {s' s'' : PartitionState T}

theorem refl (s : PartitionState T) : Eases s s := ⟨⟨fun _ _ => id, fun _ => id⟩, id⟩

theorem trans (h : Eases s s') (h' : Eases s' s'') : Eases s s'' where
  holds y n hn := h.holds y n (h'.holds y n hn)
  known y hy := h'.known y (h.known y hy)
  clear hs := h'.clear (h.clear hs)

/-- A new floor for one sender, below its buffer. -/
theorem seed (hx : ∀ n, s.holds x n = true → floor ≤ n) :
    Eases s (s.seedNextNonce x floor) where
  holds _ _ := id
  known := known_seed s x floor
  clear h := h.seed hx

/-- A buffer that only loses refs. -/
theorem setBuffer {b' : PendingBuffer T} (hb : s.pending.get? x = some b)
    (hsub : ∀ n, b'.contains n = true → b.contains n = true) : Eases s (s.setBuffer x b') where
  holds y n hn := by
    by_cases hy : y = x
    · subst hy
      rw [holds_setBuffer_self] at hn
      rw [holds_of_get? hb]
      exact hsub n hn
    · rwa [holds_setBuffer_of_ne hy] at hn
  known _ := id
  clear h := h.setBuffer fun n hn => h x n (by rw [holds_of_get? hb]; exact hsub n hn)

section

variable (s : PartitionState T)

section

variable (x : Address)

theorem withBuffer (none : R) {f : PendingBuffer T → PendingBuffer T × R}
    (hf : ∀ b n, (f b).1.contains n = true → b.contains n = true) :
    Eases s (s.withBuffer x none f).1 := by
  rcases s.withBuffer_cases x none f with ⟨-, heq⟩ | ⟨b, hb, heq⟩
  · rw [heq]
    exact refl s
  · rw [heq]
    exact setBuffer hb (hf b)

theorem markRefused (nonce : UInt64) : Eases s (s.markRefused x nonce) := by
  unfold PartitionState.markRefused
  split <;> exact ⟨⟨fun _ _ => id, fun _ => id⟩, id⟩

theorem trimRefused (keep : UInt64 → Bool) : Eases s (s.trimRefused x keep) := by
  unfold PartitionState.trimRefused
  split <;> exact ⟨⟨fun _ _ => id, fun _ => id⟩, id⟩

theorem takeParked (nonce : UInt64) (named : T → Bool) : Eases s (s.takeParked x nonce named).1 :=
  withBuffer s x none fun _ _ hn => contains_takeIf hn

end

theorem expireParked (d : ParkedDeadline) : Eases s (s.expireParked d).1 := by
  unfold PartitionState.expireParked
  split
  case isTrue => exact refl s
  case isFalse => exact withBuffer s d.sender none fun _ _ hn => contains_takeIf hn

theorem sweepLoop (now : Nat) (ds : List ParkedDeadline) (max : Nat) : Eases s (sweepLoop now ds max s).1 := by
  induction ds generalizing s max with
  | nil => exact ⟨⟨fun _ _ => id, fun _ => id⟩, id⟩
  | cons d ds ih =>
    cases max with
    | zero => exact ⟨⟨fun _ _ => id, fun _ => id⟩, id⟩
    | succ max =>
      unfold PartitionState.sweepLoop
      have hd := expireParked s d
      split
      case isFalse => exact ⟨⟨fun _ _ => id, fun _ => id⟩, id⟩
      case isTrue =>
        split
        case h_1 s' heq =>
          rw [heq] at hd
          exact hd.trans (ih s' _)
        case h_2 s' e heq =>
          rw [heq] at hd
          exact hd.trans (ih s' _)

theorem advanceFloor (x : Address) (floor : UInt64) : Eases s (s.advanceFloor x floor).1 := by
  unfold PartitionState.advanceFloor
  dsimp only
  split
  case isTrue => exact refl s
  case isFalse =>
    have hdrop := withBuffer s x [] (f := fun b => b.dropBelow floor)
      fun _ _ hn => (contains_dropBelow hn).2
    refine (hdrop.trans (seed fun n hn => ?_)).trans (trimRefused ..)
    obtain ⟨b, -, hb⟩ := holds_withBuffer hn
    exact (contains_dropBelow hb).1

end

/-- The drain of a run and the new floor behind it. -/
theorem drainRun (hb : s.pending.get? x = some b) {start : UInt64}
    (hstart : ∀ n, b.contains n = true → start ≤ n) :
    Eases s ((s.setBuffer x (b.drainConsecutiveFrom start).1).seedNextNonce x
      (advanceOver start (b.drainConsecutiveFrom start).2)) := by
  refine (setBuffer hb fun n hn => (contains_drain hn).1).trans (seed fun n hn => ?_)
  rw [holds_setBuffer_self] at hn
  exact (contains_drain hn).2 (hstart n (contains_drain hn).1)

variable (h : s.Clear)
include h

theorem processMatched (payload : T) : Eases s (s.processMatched x (s.nextNonce x) payload).1 := by
  -- the ref at the floor leaves the buffer
  have htake := withBuffer s x none (f := fun b => b.remove (s.nextNonce x))
    fun b n hn => (contains_remove hn).2
  have hpast : ∀ n, (s.withBuffer x none fun b => b.remove (s.nextNonce x)).1.holds x n = true →
      satAdd64 (s.nextNonce x) 1 ≤ n := by
    intro n hn
    obtain ⟨b, hb, hn⟩ := holds_withBuffer hn
    obtain ⟨hne, hin⟩ := contains_remove hn
    have hlt := lt_iff_toNat_lt.1 (lt_of_le_of_ne (h x n (by rwa [holds_of_get? hb])) hne.symm)
    rw [le_iff_toNat_le, toNat_satAdd64, toNat_one]
    omega
  unfold PartitionState.processMatched
  dsimp only
  generalize (s.withBuffer x none fun b => b.remove (s.nextNonce x)).1 = t at htake hpast ⊢
  refine htake.trans ?_
  rcases t.drainConsecutiveInto_cases x (satAdd64 (s.nextNonce x) 1) with ⟨-, heq⟩ | ⟨b, hb, heq⟩
  · rw [heq]
    exact seed hpast
  · rw [heq]
    exact drainRun hb fun n hn => hpast n (by rwa [holds_of_get? hb])

theorem drainOneSender (x : Address) : Eases s (s.drainOneSender x).1 := by
  unfold PartitionState.drainOneSender
  split
  case h_1 => exact refl s
  case h_2 b hb =>
    dsimp only
    split
    case isTrue => exact setBuffer hb fun n hn => (contains_drain hn).1
    case isFalse => exact drainRun hb fun n hn => h x n (by rwa [holds_of_get? hb])

theorem drainLoop (xs : List Address) : Eases s (drainLoop xs s).1 := by
  induction xs generalizing s with
  | nil => exact refl s
  | cons x xs ih =>
    have hx := drainOneSender h x
    exact hx.trans (ih (hx.clear h))

theorem releaseFloor (x : Address) (chain : UInt64) : Eases s (s.releaseFloor x chain).1 := by
  unfold PartitionState.releaseFloor
  split
  case h_1 => exact refl s
  case h_2 cur hcur =>
    refine (seed fun n hn => ?_).trans (trimRefused _ x _)
    obtain ⟨hknown, hlt⟩ := Option.filter_eq_some_iff.1 hcur
    exact (lt_of_lt_of_le (by simpa using hlt) (nextNonce_of_known hknown ▸ h x n hn)).le

end Eases

theorem Clear.processAt (h : s.Clear) (now : Nat) (x : Address) (nonce : UInt64) (payload : T) :
    (s.processAt now x nonce payload).1.Clear := by
  unfold PartitionState.processAt
  dsimp only
  split
  case isTrue => exact h
  case isFalse =>
    split
    case isTrue => exact h
    case isFalse hge =>
      split
      case isTrue hlt => exact h.park now hlt payload
      case isFalse hle =>
        obtain rfl : nonce = s.nextNonce x := le_antisymm (not_lt.1 hle) (not_lt.1 hge)
        exact (Eases.processMatched h payload).clear h

/-! ## Rewinds -/

section

variable (s : PartitionState T) (x : Address) (nonce : UInt64)

theorem holds_rewindFloor (y : Address)
    (n : UInt64) : (s.rewindFloor x nonce).holds y n = s.holds y n := by
  show (s.setBuffer x (s.bufferOf x)).holds y n = _
  by_cases hy : y = x
  · subst hy
    rw [holds_setBuffer_self, contains_bufferOf]
  · exact holds_setBuffer_of_ne hy _ n

theorem nextNonce_rewindFloor :
    (s.rewindFloor x nonce).nextNonce x
      = (s.nextNonceKnown x).elim nonce fun next => min next nonce :=
  nextNonce_seed_self s x _

theorem nextNonce_rewindFloor_le : (s.rewindFloor x nonce).nextNonce x ≤ nonce := by
  rw [nextNonce_rewindFloor]
  cases s.nextNonceKnown x with
  | none => exact le_rfl
  | some next => exact min_le_right _ _

end

/-- A rewind to `nonce` sets the unknown floor of `x` above a ref that it holds. -/
def StrandsAt (s : PartitionState T) (x : Address) (nonce : UInt64) : Prop :=
  s.nextNonceKnown x = none ∧ ∃ n, n < nonce ∧ s.holds x n = true

theorem Clear.rewindFloor (h : s.Clear) (hx : ¬ s.StrandsAt x nonce) : (s.rewindFloor x nonce).Clear := by
  have hseed : (s.seedNextNonce x ((s.nextNonceKnown x).elim nonce fun next => min next nonce)).Clear :=
    h.seed fun n hn => ?_
  · intro y n hn
    rw [holds_rewindFloor] at hn
    exact hseed y n hn
  · cases hknown : s.nextNonceKnown x with
    | none => exact not_lt.1 fun hlt => hx ⟨hknown, n, hlt, hn⟩
    | some next => exact (min_le_left _ _).trans (nextNonce_of_known hknown ▸ h x n hn)

/-- A floor that was set above a ref strands it. -/
theorem not_clear_of_strandsAt (hx : s.StrandsAt x nonce) :
    ∃ n, s.holds x n = true ∧ n < (s.rewindFloor x nonce).nextNonce x := by
  obtain ⟨hknown, n, hlt, hn⟩ := hx
  refine ⟨n, hn, ?_⟩
  rw [nextNonce_rewindFloor, hknown]
  exact hlt

section

variable (s : PartitionState T) (x : Address) (nonce : UInt64)

theorem holds_put (slot : Slot T) (y : Address) (n : UInt64) :
    (s.setBuffer x ((s.bufferOf x).put nonce slot)).holds y n
      = (decide (y = x ∧ n = nonce) || s.holds y n) := by
  by_cases hy : y = x
  · subst hy
    rw [holds_setBuffer_self, contains_put, contains_bufferOf]
    simp
  · rw [holds_setBuffer_of_ne hy]
    simp [hy]

theorem holds_reinsertForRetry (payload : T) (y : Address) (n : UInt64) :
    (s.reinsertForRetry x nonce payload).holds y n
      = (decide (y = x ∧ n = nonce) || s.holds y n) := by
  rw [reinsertForRetry]
  dsimp only [reinsert]
  rw [holds_put, holds_rewindFloor]

end

theorem Clear.reinsertForRetry (h : s.Clear) (hx : ¬ s.StrandsAt x nonce)
    (payload : T) : (s.reinsertForRetry x nonce payload).Clear := by
  refine (h.rewindFloor hx).setBuffer fun n hn => ?_
  rw [reinsert, contains_put, contains_bufferOf, Bool.or_eq_true, decide_eq_true_eq] at hn
  rcases hn with rfl | hn
  · exact nextNonce_rewindFloor_le s x n
  · exact h.rewindFloor hx x n hn

section ParkFreed

variable (later : List (UInt64 × T)) (dueAt : Nat)

variable (s : PartitionState T) (x y : Address)

theorem nextNonce_parkFreed :
    (later.foldl (fun s e => s.parkFreed dueAt x e) s).nextNonce y = s.nextNonce y := by
  induction later generalizing s with
  | nil => rfl
  | cons e later ih => exact ih _

theorem holds_parkFreed (n : UInt64) :
    (later.foldl (fun s e => s.parkFreed dueAt x e) s).holds y n = true ↔
      (y = x ∧ ∃ e ∈ later, e.1 = n) ∨ s.holds y n = true := by
  induction later generalizing s with
  | nil => simp
  | cons e later ih =>
    have hone : (s.parkFreed dueAt x e).holds y n = (decide (y = x ∧ n = e.1) || s.holds y n) :=
      holds_put s x e.1 _ y n
    rw [foldl_cons, ih, hone, Bool.or_eq_true, decide_eq_true_eq]
    constructor
    · rintro (⟨hy, e', he', hn⟩ | ⟨hy, hn⟩ | hold)
      · exact .inl ⟨hy, e', mem_cons_of_mem _ he', hn⟩
      · exact .inl ⟨hy, e, mem_cons_self, hn.symm⟩
      · exact .inr hold
    · rintro (⟨hy, e', he', hn⟩ | hold)
      · rcases mem_cons.1 he' with rfl | he'
        · exact .inr (.inl ⟨hy, hn.symm⟩)
        · exact .inl ⟨hy, e', he', hn⟩
      · exact .inr (.inr hold)

end ParkFreed

section

variable (s : PartitionState T) (x : Address) (keep : UInt64 → Bool) (y : Address)

theorem holds_trimRefused (n : UInt64) : (s.trimRefused x keep).holds y n = s.holds y n := by
  unfold trimRefused
  split <;> rfl

theorem nextNonceKnown_trimRefused
    : (s.trimRefused x keep).nextNonceKnown y = s.nextNonceKnown y := by
  unfold trimRefused
  split <;> rfl

end

theorem strandsAt_trimRefused (y : Address) (keep : UInt64 → Bool) (x : Address) (nonce : UInt64) :
    (s.trimRefused y keep).StrandsAt x nonce ↔ s.StrandsAt x nonce := by
  unfold StrandsAt
  simp only [holds_trimRefused, nextNonceKnown_trimRefused]

section

variable (s : PartitionState T) (now : Nat) (freed : FreedNonce T) (y : Address)

theorem holds_freeNonce (n : UInt64) :
    (s.freeNonce now freed).holds y n = true ↔
      (y = freed.sender ∧ ∃ e ∈ freed.later, e.1 = n) ∨ s.holds y n = true := by
  unfold freeNonce freeFloor
  rw [holds_parkFreed, holds_rewindFloor, holds_trimRefused]

theorem nextNonce_freeNonce :
    (s.freeNonce now freed).nextNonce y = (s.freeFloor freed.sender freed.nonce).nextNonce y :=
  nextNonce_parkFreed ..

end

theorem Clear.freeNonce (h : s.Clear) (now : Nat) {freed : FreedNonce T}
    (hlater : ∀ e ∈ freed.later, freed.nonce ≤ e.1) (hx : ¬ s.StrandsAt freed.sender freed.nonce) :
    (s.freeNonce now freed).Clear := by
  have hrewind := ((Eases.trimRefused s freed.sender fun n => decide (n < freed.nonce)).clear h).rewindFloor
    (mt (strandsAt_trimRefused ..).1 hx)
  intro y n hn
  rw [nextNonce_freeNonce]
  rcases (holds_freeNonce s now freed y n).1 hn with ⟨rfl, e, he, rfl⟩ | hn
  · exact (nextNonce_rewindFloor_le ..).trans (hlater e he)
  · exact hrewind y n (by rwa [holds_rewindFloor, holds_trimRefused])

/-! ## Operations -/

/-- One operation of the sequencer on the state. -/
inductive Op (T : Type) where
  | processAt (now : Nat) (sender : Address) (nonce : UInt64) (payload : T)
  | drainPending (order : List Address)
  | reinsertForRetry (sender : Address) (nonce : UInt64) (payload : T)
  | freeNonce (now : Nat) (freed : FreedNonce T)
  | markRefused (sender : Address) (nonce : UInt64)
  | clearRefused (sender : Address) (nonce : UInt64)
  | takeParked (sender : Address) (nonce : UInt64) (named : T → Bool)
  | advanceFloor (sender : Address) (floor : UInt64)
  | releaseFloor (sender : Address) (chain : UInt64)
  | forgetFloor (sender : Address)
  | seedNextNonce (sender : Address) (n : UInt64)
  | sweepExpired (now max : Nat)

section

variable (s : PartitionState T)

/-- The state after an operation. -/
def apply : Op T → PartitionState T
  | .processAt now sender nonce payload => (s.processAt now sender nonce payload).1
  | .drainPending order => (s.drainPending order).1
  | .reinsertForRetry sender nonce payload => s.reinsertForRetry sender nonce payload
  | .freeNonce now freed => s.freeNonce now freed
  | .markRefused sender nonce => s.markRefused sender nonce
  | .clearRefused sender nonce => s.clearRefused sender nonce
  | .takeParked sender nonce named => (s.takeParked sender nonce named).1
  | .advanceFloor sender floor => (s.advanceFloor sender floor).1
  | .releaseFloor sender chain => (s.releaseFloor sender chain).1
  | .forgetFloor sender => (s.forgetFloor sender).1
  | .seedNextNonce sender n => s.seedNextNonce sender n
  | .sweepExpired now max => (s.sweepExpired now max).1

/-- How the sequencer issues the operations: the later refs of a freed nonce are later, and only a
sender without a floor is seeded, at 0. -/
def Issued : Op T → Prop
  | .freeNonce _ freed => ∀ e ∈ freed.later, freed.nonce ≤ e.1
  | .seedNextNonce sender n => s.nextNonceKnown sender = none ∧ n = 0
  | _ => True

/-- The operation rewinds a floor that is not known to a nonce above a buffered ref. -/
def Strands : Op T → Prop
  | .reinsertForRetry sender nonce _ => s.StrandsAt sender nonce
  | .freeNonce _ freed => s.StrandsAt freed.sender freed.nonce
  | _ => False

end

/-- **One operation** keeps every buffered ref at or above its floor, unless it strands one. -/
theorem clear_apply_iff (h : s.Clear) {op : Op T} (hop : s.Issued op) :
    (s.apply op).Clear ↔ ¬ s.Strands op := by
  have hkeep (hc : (s.apply op).Clear) (hno : ¬ s.Strands op) :
      (s.apply op).Clear ↔ ¬ s.Strands op := ⟨fun _ => hno, fun _ => hc⟩
  cases op with
  | processAt now x nonce payload => exact hkeep (h.processAt now x nonce payload) id
  | drainPending order => exact hkeep ((Eases.drainLoop h _).clear h) id
  | markRefused x nonce => exact hkeep ((Eases.markRefused s x nonce).clear h) id
  | clearRefused x nonce => exact hkeep ((Eases.trimRefused s x _).clear h) id
  | takeParked x nonce named => exact hkeep ((Eases.takeParked s x nonce named).clear h) id
  | advanceFloor x floor => exact hkeep ((Eases.advanceFloor s x floor).clear h) id
  | releaseFloor x chain => exact hkeep ((Eases.releaseFloor h x chain).clear h) id
  | forgetFloor x => exact hkeep (h.forgetFloor x) id
  | sweepExpired now max => exact hkeep ((Eases.sweepLoop s now _ max).clear h) id
  | seedNextNonce x n =>
    obtain ⟨-, rfl⟩ := hop
    exact hkeep (h.seed fun _ _ => UInt64.zero_le) id
  | reinsertForRetry x nonce payload =>
    refine ⟨fun hc hs => ?_, fun hno => h.reinsertForRetry hno payload⟩
    obtain ⟨n, hn, hlt⟩ := not_clear_of_strandsAt hs
    refine absurd (hc x n ?_) (not_le.2 hlt)
    show (s.reinsertForRetry x nonce payload).holds x n = true
    rw [holds_reinsertForRetry, hn, Bool.or_true]
  | freeNonce now freed =>
    refine ⟨fun hc hs => ?_, fun hno => h.freeNonce now hop hno⟩
    obtain ⟨n, hn, hlt⟩ := not_clear_of_strandsAt
      ((strandsAt_trimRefused freed.sender (fun n => decide (n < freed.nonce)) ..).2 hs)
    rw [holds_trimRefused] at hn
    refine absurd (hc freed.sender n ((holds_freeNonce ..).2 (.inr hn))) (not_le.2 ?_)
    show n < (s.freeNonce now freed).nextNonce freed.sender
    rwa [nextNonce_freeNonce]

/-- **Every run** of operations that strands no ref. -/
theorem clear_run {ops : List (Op T)}
    (hg : Guarded (fun s op => (s.apply op, ())) (fun s op => s.Issued op ∧ ¬ s.Strands op) s ops)
    (h : s.Clear) : (run (fun s op => (s.apply op, ())) s ops).1.Clear :=
  run_invariant_of_guard h (fun _ _ hs hop => (clear_apply_iff hs hop.1).2 hop.2) hg

end PartitionState

end Kardamom.Sequencer
