import Kardamom.Sequencer.Floors
import Kardamom.Sequencer.UnconfirmedLedger

/-!
# The buffered refs of a partition

The refs in the buffers of all senders, as a multiset (`held`). Each operation of the nonce check takes
refs out of it or puts refs into it, and the lemmas here say which. A drain loses nothing as long as no
buffer holds the last 64-bit nonce.
-/

namespace Kardamom.Sequencer

open Wire (Address)
open PendingBuffer Words LinkedMap Multiset PendingBuffer

variable {T : Type}

namespace PartitionState

variable (s : PartitionState T)

/-- The refs of one sender. -/
def refsOf (x : Address) (M : Multiset (UInt64 × T)) : Multiset (Ref T) := M.map (Prod.mk x)

/-- The buffered refs. -/
def held : Multiset (Ref T) := s.pending.pool fun x b => refsOf x b.held

/-- The buffered refs of the other senders. -/
def heldByOthers (x : Address) : Multiset (Ref T) :=
  (s.pending.remove x).pool fun x b => refsOf x b.held

/-- The buffered ref of a sender at a nonce. -/
def refsAt (x : Address) (n : UInt64) : List (Ref T) :=
  (s.slotAt x n).toList.map fun slot => (x, n, slot.value)

/-- The buffered refs but the one of a sender at a nonce. -/
def heldBut (x : Address) (n : UInt64) : Multiset (Ref T) :=
  refsOf x ((s.bufferOf x).remove n).1.held + s.heldByOthers x

section

variable (x : Address)

theorem held_eq_add : s.held = refsOf x (s.bufferOf x).held + s.heldByOthers x := by
  rw [held, pool_eq_add _ s.pending x, bufferOf]
  cases s.pending.get? x with
  | none | some => rfl

theorem held_setBuffer (b : PendingBuffer T) : (s.setBuffer x b).held = refsOf x b.held + s.heldByOthers x :=
  pool_put ..

/-- A buffer that is put back as it was. -/
theorem held_setBuffer_self : (s.setBuffer x (s.bufferOf x)).held = s.held := by
  rw [held_setBuffer, ← held_eq_add]

section

variable (n : UInt64)

theorem inner_bufferOf : (s.bufferOf x).inner.get? n = s.slotAt x n := by
  unfold bufferOf slotAt
  cases s.pending.get? x with
  | none | some => rfl

theorem refsOf_heldAt : refsOf x ((s.bufferOf x).heldAt n) = ↑(s.refsAt x n) := by
  unfold heldAt refsAt
  rw [inner_bufferOf]
  cases s.slotAt x n with
  | none | some => rfl

theorem held_eq_refsAt_add : s.held = ↑(s.refsAt x n) + s.heldBut x n := by
  rw [held_eq_add s x, held_remove _ n, refsOf, map_add, add_assoc]
  exact congrArg (· + s.heldBut x n) (s.refsOf_heldAt x n)

/-- A ref that is put takes the place of the one under its nonce. -/
theorem held_setBuffer_put (slot : Slot T) :
    (s.setBuffer x ((s.bufferOf x).put n slot)).held = (x, n, slot.value) ::ₘ s.heldBut x n := by
  have hput : ((s.bufferOf x).put n slot).held
      = (n, slot.value) ::ₘ ((s.bufferOf x).remove n).1.held :=
    (SortedMap.pool_upsert _ (s.bufferOf x).inner n slot).trans (singleton_add ..)
  rw [held_setBuffer, hput, refsOf, map_cons, cons_add]
  rfl

/-- A buffer with one nonce taken out. -/
theorem held_setBuffer_remove : (s.setBuffer x ((s.bufferOf x).remove n).1).held = s.heldBut x n := by
  rw [held_setBuffer]
  rfl

theorem bufferOf_of_get? {x : Address} {b : PendingBuffer T} (h : s.pending.get? x = some b) :
    s.bufferOf x = b := by
  rw [bufferOf, h]
  rfl

/-- A buffer that refs left. -/
theorem held_setBuffer_of_add {b b' : PendingBuffer T} {out : List (UInt64 × T)}
    (hb : s.pending.get? x = some b) (h : b.held = ↑out + b'.held) :
    s.held = ↑(out.map (Prod.mk x)) + (s.setBuffer x b').held := by
  rw [held_setBuffer, held_eq_add s x, s.bufferOf_of_get? hb, h, refsOf, map_add, add_assoc]
  rfl

/-- What a change of one buffer takes out. -/
theorem held_withBuffer {R : Type} (none : R)
    (f : PendingBuffer T → PendingBuffer T × R) (out : R → List (UInt64 × T)) (hnone : out none = [])
    (hf : (s.bufferOf x).held = ↑(out (f (s.bufferOf x)).2) + (f (s.bufferOf x)).1.held) :
    s.held = ↑((out (s.withBuffer x none f).2).map (Prod.mk x)) + (s.withBuffer x none f).1.held := by
  rcases s.withBuffer_cases x none f with ⟨-, heq⟩ | ⟨b, hb, heq⟩
  · rw [heq, hnone]
    exact (zero_add _).symm
  · rw [s.bufferOf_of_get? hb] at hf
    rw [heq]
    exact s.held_setBuffer_of_add x hb hf

/-! ## The operations that move no ref -/

@[simp] theorem held_trimRefused (keep : UInt64 → Bool) : (s.trimRefused x keep).held = s.held := by
  unfold trimRefused
  split <;> rfl

@[simp] theorem held_clearRefused : (s.clearRefused x n).held = s.held := held_trimRefused ..

@[simp] theorem held_markRefused : (s.markRefused x n).held = s.held := by
  unfold markRefused
  split <;> rfl

@[simp] theorem held_releaseFloor (chain : UInt64) : (s.releaseFloor x chain).1.held = s.held := by
  unfold releaseFloor
  split
  case h_1 => rfl
  case h_2 => exact held_trimRefused ..

@[simp] theorem held_rewindFloor : (s.rewindFloor x n).held = s.held := s.held_setBuffer_self x

@[simp] theorem held_freeFloor : (s.freeFloor x n).held = s.held :=
  (held_rewindFloor ..).trans (held_trimRefused ..)

/-! ## The operations that move refs -/

@[simp] theorem heldBut_rewindFloor (n m : UInt64) : (s.rewindFloor x n).heldBut x m = s.heldBut x m := by
  have hbuffer : (s.rewindFloor x n).bufferOf x = s.bufferOf x := by
    unfold bufferOf rewindFloor
    rw [get?_put_self]
    rfl
  have hothers : (s.rewindFloor x n).heldByOthers x = s.heldByOthers x := by
    have hput := pool_eq_add (fun x (b : PendingBuffer T) => refsOf x b.held)
      (s.pending.put x (s.bufferOf x)) x
    rw [pool_put, get?_put_self] at hput
    exact (add_left_cancel hput).symm
  rw [heldBut, heldBut, hbuffer, hothers]

theorem held_reinsertForRetry (payload : T) :
    (s.reinsertForRetry x n payload).held = (x, n, payload) ::ₘ s.heldBut x n := by
  exact (held_setBuffer_put _ x n ⟨none, payload⟩).trans (by rw [heldBut_rewindFloor])

theorem held_parkFreed (dueAt : Nat) (x : Address) (e : UInt64 × T) :
    (s.parkFreed dueAt x e).held = (x, e) ::ₘ s.heldBut x e.1 :=
  s.held_setBuffer_put x e.1 ⟨some dueAt, e.2⟩

/-- A conditional removal. -/
theorem held_takeIf (live : Slot T → Bool) :
    s.held = ↑((s.withBuffer x none fun b => b.takeIf n live).2.toList.map fun v => (x, n, v))
      + (s.withBuffer x none fun b => b.takeIf n live).1.held := by
  have h := s.held_withBuffer x none (fun b => b.takeIf n live)
    (fun v => v.toList.map fun v => (n, v)) rfl ?_
  · rwa [List.map_map] at h
  · rcases (s.bufferOf x).takeIf_cases n live with heq | ⟨slot, hslot, heq⟩
    · rw [heq]
      exact (zero_add _).symm
    · rw [heq, held_remove _ n, heldAt_of_get? hslot]
      rfl

theorem held_takeParked (named : T → Bool) :
    s.held = ↑((s.takeParked x n named).2.toList.map fun v => (x, n, v))
      + (s.takeParked x n named).1.held :=
  s.held_takeIf x n _

end

theorem held_expireParked (d : ParkedDeadline) :
    s.held = ↑(s.expireParked d).2.toList + (s.expireParked d).1.held := by
  unfold expireParked
  split
  case isTrue => exact (zero_add _).symm
  case isFalse =>
    have h := s.held_takeIf d.sender d.nonce fun slot => slot.deadline == some d.dueAt
    rwa [← Option.toList_map] at h

theorem held_sweepLoop (now : Nat) (ds : List ParkedDeadline) (max : Nat) :
    s.held = ↑(sweepLoop now ds max s).2 + (sweepLoop now ds max s).1.held := by
  induction ds generalizing s max with
  | nil => exact (zero_add _).symm
  | cons d ds ih =>
    cases max with
    | zero => exact (zero_add _).symm
    | succ max =>
      have hone := s.held_expireParked d
      unfold sweepLoop
      split
      case isFalse => exact (zero_add _).symm
      case isTrue =>
        split
        case h_1 s' heq =>
          rw [heq] at hone
          rw [hone]
          exact (zero_add _).trans (ih s' _)
        case h_2 s' e heq =>
          rw [heq] at hone
          rw [hone, ih s' max]
          exact (add_assoc ..).symm

theorem held_advanceFloor (floor : UInt64) :
    s.held = ↑(((s.advanceFloor x floor).2.elim [] Prod.snd).map (Prod.mk x))
      + (s.advanceFloor x floor).1.held := by
  unfold advanceFloor
  dsimp only
  split
  case isTrue => exact (zero_add _).symm
  case isFalse =>
    have h := s.held_withBuffer x [] (fun b => b.dropBelow floor) id rfl (held_dropBelow _ floor)
    rw [held_trimRefused]
    exact h

end

/-! ## Drains -/

/-- No buffer holds the last nonce. -/
def Drainable : Prop := ∀ r ∈ s.held, r.2.1 ≠ nonceMax

variable {s}

section

variable (h : s.Drainable)
include h

theorem Drainable.get? (x : Address) : (s.bufferOf x).inner.get? nonceMax = none := by
  rw [inner_bufferOf]
  cases hslot : s.slotAt x nonceMax with
  | none => rfl
  | some slot =>
    have hmem : (x, nonceMax, slot.value) ∈ s.held := by
      rw [s.held_eq_refsAt_add x nonceMax, refsAt, hslot]
      exact mem_add.2 (.inl (mem_coe.2 List.mem_cons_self))
    exact absurd rfl (h _ hmem)

theorem Drainable.of_add {s' : PartitionState T} {M : Multiset (Ref T)}
    (heq : s.held = M + s'.held) : s'.Drainable := by
  intro r hr
  refine h r ?_
  rw [heq]
  exact mem_add.2 (.inr hr)

theorem Drainable.held_drain (x : Address) (start : UInt64) :
    (s.bufferOf x).held = ↑((s.bufferOf x).drainConsecutiveFrom start).2
      + ((s.bufferOf x).drainConsecutiveFrom start).1.held :=
  pool_drainLoop (h.get? x)

theorem held_drainOneSender (x : Address) : s.held = ↑(s.drainOneSender x).2 + (s.drainOneSender x).1.held := by
  unfold drainOneSender
  split
  case h_1 => exact (zero_add _).symm
  case h_2 b hb =>
    have hdrain := h.held_drain x (s.nextNonce x)
    rw [s.bufferOf_of_get? hb] at hdrain
    dsimp only
    split <;> exact s.held_setBuffer_of_add x hb hdrain

theorem held_drainLoop (xs : List Address) : s.held = ↑(drainLoop xs s).2 + (drainLoop xs s).1.held := by
  induction xs generalizing s with
  | nil => exact (zero_add _).symm
  | cons x xs ih =>
    have hone := held_drainOneSender h x
    rw [drainLoop, ← coe_add, add_assoc, ← ih (h.of_add hone)]
    exact hone

theorem held_drainPending (order : List Address) :
    s.held = ↑(s.drainPending order).2 + (s.drainPending order).1.held :=
  held_drainLoop h _

theorem held_drainConsecutiveInto (x : Address) (start : UInt64) : ∃ run : List (UInt64 × T),
      (s.drainConsecutiveInto x start).2.1 = run.map (fun e => .publish e.1 e.2) ∧
      s.held = ↑(run.map (Prod.mk x)) + (s.drainConsecutiveInto x start).1.held := by
  rcases s.drainConsecutiveInto_cases x start with ⟨-, heq⟩ | ⟨b, hb, heq⟩
  · exact ⟨[], by rw [heq]; rfl, by rw [heq]; exact (zero_add _).symm⟩
  · have hdrain := h.held_drain x start
    rw [s.bufferOf_of_get? hb] at hdrain
    rw [heq]
    exact ⟨_, rfl, s.held_setBuffer_of_add x hb hdrain⟩

/-! ## The nonce check -/

omit h in
/-- The ref at the floor leaves its buffer. -/
theorem withBuffer_remove (x : Address) (n : UInt64) :
    (s.withBuffer x none fun b => b.remove n).2 = (s.slotAt x n).map Slot.value ∧
      (s.withBuffer x none fun b => b.remove n).1.held = s.heldBut x n := by
  rcases s.withBuffer_cases x none fun b => b.remove n with ⟨hb, heq⟩ | ⟨b, hb, heq⟩
  · have hslot : s.slotAt x n = none := by rw [slotAt, hb]; rfl
    refine ⟨by rw [heq, hslot]; rfl, ?_⟩
    rw [heq, s.held_eq_refsAt_add x n, refsAt, hslot]
    exact zero_add _
  · refine ⟨by rw [heq, slotAt, hb]; rfl, ?_⟩
    rw [heq, ← s.held_setBuffer_remove x n, s.bufferOf_of_get? hb]

/-- A ref at the floor publishes with the run behind it; a ref that was buffered there publishes in its
place. -/
theorem held_processMatched (x : Address) (n : UInt64) (payload : T) : ∃ run : List (UInt64 × T),
      (s.processMatched x n payload).2.actions
        = .publish n (((s.slotAt x n).map Slot.value).getD payload)
          :: run.map (fun e => .publish e.1 e.2) ∧
      s.heldBut x n = ↑(run.map (Prod.mk x)) + (s.processMatched x n payload).1.held := by
  obtain ⟨hold, hrest⟩ := s.withBuffer_remove x n
  have hdrainable : (s.withBuffer x none fun b => b.remove n).1.Drainable :=
    h.of_add ((s.held_eq_refsAt_add x n).trans (by rw [hrest]))
  obtain ⟨run, hactions, hrun⟩ := held_drainConsecutiveInto hdrainable x (satAdd64 n 1)
  refine ⟨run, ?_, ?_⟩
  · unfold processMatched
    dsimp only
    rw [hactions, hold]
  · rw [← hrest]
    exact hrun

end

/-- What parking a ref does. -/
inductive Parks (s : PartitionState T) (x : Address) (n : UInt64) (payload : T) :
    PartitionState T × NonceOutcome T → Prop
  | refused {s' : PartitionState T} {o : NonceOutcome T}
      (ho : o = .rejectedTooFar n ∨ o = .bufferedDisabled) (h : s'.held = s.held) :
      Parks s x n payload (s', o)
  | buffered {s' : PartitionState T} (hnew : s.refsAt x n = [])
      (h : s'.held = (x, n, payload) ::ₘ s.heldBut x n) : Parks s x n payload (s', .buffered)
  | replaced {s' : PartitionState T} (h : s'.held = (x, n, payload) ::ₘ s.heldBut x n) :
      Parks s x n payload (s', .bufferedReplaced)
  | evicted {s' : PartitionState T} {max : UInt64} {last : T}
      (h : (x, n, payload) ::ₘ s.held = (x, max, last) ::ₘ s'.held) :
      Parks s x n payload (s', .bufferedEvicting max last)

/-- The highest nonce leaves for a new one. -/
theorem held_evict {b : PendingBuffer T} {n max : UInt64} {last : Slot T}
    (hmax : b.inner.get? max = some last) (hnew : b.inner.get? n = none) (slot : Slot T) :
    (n, slot.value) ::ₘ b.held = (max, last.value) ::ₘ ((b.remove max).1.put n slot).held := by
  have hne : n ≠ max := by
    rintro rfl
    rw [hnew] at hmax
    cases hmax
  have hput := (b.remove max).1.held_put n slot
  rw [heldAt_of_none (by rwa [inner_remove, SortedMap.get?_remove_of_ne _ hne]), add_zero] at hput
  rw [hput, b.held_remove max, heldAt_of_get? hmax, singleton_add, cons_swap]

theorem parks (now : Nat) (x : Address) (n : UInt64) (payload : T) :
    s.Parks x n payload (s.park now x n payload) := by
  have hins := (s.bufferOf x).inserts n payload (now + s.txTtl)
  unfold park
  dsimp only
  generalize (s.bufferOf x).insert n payload (now + s.txTtl) = r at hins ⊢
  cases hins with
  | disabled => exact .refused (.inr rfl) (s.held_setBuffer_self x)
  | tooFar => exact .refused (.inl rfl) (s.held_setBuffer_self x)
  | @evicted max last hmax hnew =>
    refine .evicted ?_
    have hswap := congrArg (refsOf x) (held_evict hmax hnew ⟨some (now + s.txTtl), payload⟩)
    rw [refsOf, refsOf, map_cons, map_cons] at hswap
    show (x, n, payload) ::ₘ s.held = (x, max, last.value) ::ₘ (s.setBuffer x _).held
    rw [held_setBuffer, s.held_eq_add x, ← cons_add, ← cons_add]
    exact congrArg (· + s.heldByOthers x) hswap
  | replaced => exact .replaced (s.held_setBuffer_put x n _)
  | inserted hnew =>
    refine .buffered ?_ (s.held_setBuffer_put x n _)
    rw [refsAt, ← inner_bufferOf, hnew]
    rfl

end PartitionState

end Kardamom.Sequencer
