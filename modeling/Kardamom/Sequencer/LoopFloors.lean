import Kardamom.Sequencer.Floors
import Kardamom.Sequencer.PublishLoop

/-!
# The floors over passes of the publish loop

The loop keeps every buffered ref at or above its floor, as long as no rollback forgets the floor of a
sender that still has buffered refs. Then a sender with a buffered ref always has a floor (`Sound`), and
no rewind can set a floor above a ref.
-/

namespace Kardamom.Sequencer

open Wire (Address)
open PendingBuffer Words PartitionState Machine PartitionState

variable {T : Type}

namespace PartitionState

variable {s s' s'' : PartitionState T} {x : Address}

/-- No buffered ref is below its floor, and a sender with a buffered ref has a floor. -/
structure Sound (s : PartitionState T) : Prop where
  clear : s.Clear
  known : ∀ x n, s.holds x n = true → (s.nextNonceKnown x).isSome

theorem sound_new (maxPending txTtl : Nat) : (new maxPending txTtl : PartitionState T).Sound :=
  ⟨clear_new maxPending txTtl, fun _ _ h => by cases h⟩

theorem Sound.not_strandsAt (h : s.Sound) (nonce : UInt64) : ¬ s.StrandsAt x nonce := by
  rintro ⟨hnone, n, -, hn⟩
  have := h.known x n hn
  rw [hnone] at this
  cases this

theorem Eases.sound (h : Eases s s') (hs : s.Sound) : s'.Sound :=
  ⟨h.clear hs.clear, fun y n hn => h.known y (hs.known y n (h.holds y n hn))⟩

namespace Sound

variable (h : s.Sound)
include h

/-- Refs that come in at a sender whose floor is set. -/
theorem of_added (hc : s'.Clear) (hx : (s'.nextNonceKnown x).isSome)
    (hholds : ∀ y n, s'.holds y n = true → y = x ∨ s.holds y n = true)
    (hknown : ∀ y, (s.nextNonceKnown y).isSome → (s'.nextNonceKnown y).isSome) : s'.Sound := by
  refine ⟨hc, fun y n hn => ?_⟩
  rcases hholds y n hn with rfl | hn
  · exact hx
  · exact hknown y (h.known y n hn)

theorem park (now : Nat) {nonce : UInt64} (hlt : s.nextNonce x < nonce)
    (hknown : (s.nextNonceKnown x).isSome) (payload : T) : (s.park now x nonce payload).1.Sound := by
  have hset : ∀ y n, (s.setBuffer x ((s.bufferOf x).insert nonce payload (now + s.txTtl)).1).holds y n
      = true → y = x ∨ s.holds y n = true := by
    intro y n hn
    refine or_iff_not_imp_left.2 fun hy => ?_
    rwa [holds_setBuffer_of_ne hy] at hn
  have hframe : (∀ y n, (s.park now x nonce payload).1.holds y n = true →
        y = x ∨ s.holds y n = true) ∧
      ∀ y, (s.park now x nonce payload).1.nextNonceKnown y = s.nextNonceKnown y := by
    unfold PartitionState.park
    dsimp only
    split <;> exact ⟨hset, fun _ => rfl⟩
  exact h.of_added (h.clear.park now hlt payload) (by rwa [hframe.2]) hframe.1
    fun y hy => by rwa [hframe.2]

theorem processAt (now : Nat) (hknown : (s.nextNonceKnown x).isSome) (nonce : UInt64)
    (payload : T) : (s.processAt now x nonce payload).1.Sound := by
  unfold PartitionState.processAt
  dsimp only
  split
  case isTrue => exact h
  case isFalse =>
    split
    case isTrue => exact h
    case isFalse hge =>
      split
      case isTrue hlt => exact h.park now hlt hknown payload
      case isFalse hle =>
        obtain rfl : nonce = s.nextNonce x := le_antisymm (not_lt.1 hle) (not_lt.1 hge)
        exact (Eases.processMatched h.clear payload).sound h

theorem reinsertForRetry (x : Address) (nonce : UInt64) (payload : T) :
    (s.reinsertForRetry x nonce payload).Sound := by
  refine h.of_added (h.clear.reinsertForRetry (h.not_strandsAt nonce) payload)
    (known_seed_self s x _) (fun y n hn => ?_) (known_seed s x _)
  rw [holds_reinsertForRetry, Bool.or_eq_true, decide_eq_true_eq] at hn
  exact hn.imp_left And.left

theorem freeNonce (now : Nat) {freed : FreedNonce T}
    (hlater : ∀ e ∈ freed.later, freed.nonce ≤ e.1) : (s.freeNonce now freed).Sound := by
  have hnext : ∀ y, (s.freeNonce now freed).nextNonceKnown y
      = (s.freeFloor freed.sender freed.nonce).nextNonceKnown y := by
    intro y
    unfold PartitionState.freeNonce
    dsimp only
    generalize now + (s.freeFloor freed.sender freed.nonce).txTtl = dueAt
    generalize s.freeFloor freed.sender freed.nonce = t
    induction freed.later generalizing t with
    | nil => rfl
    | cons e later ih => exact ih (t.parkFreed dueAt freed.sender e)
  refine h.of_added (h.clear.freeNonce now hlater (h.not_strandsAt _))
    (x := freed.sender) ?_ (fun y n hn => ?_) fun y hy => ?_
  · rw [hnext]
    exact known_seed_self (s.trimRefused ..) freed.sender _
  · exact ((holds_freeNonce s now freed y n).1 hn).imp_left And.left
  · rw [hnext]
    exact known_seed _ freed.sender _ y ((Eases.trimRefused s ..).known y hy)

theorem forgetFloor (hx : ∀ n, s.holds x n = false) : (s.forgetFloor x).1.Sound := by
  refine ⟨h.clear.forgetFloor x, fun y n hn => ?_⟩
  have hn' : s.holds y n = true := hn
  have hy : y ≠ x := by
    rintro rfl
    rw [hx n] at hn'
    cases hn'
  unfold nextNonceKnown PartitionState.forgetFloor
  rw [LinkedMap.get?_remove_of_ne _ hy]
  exact h.known y n hn'

end Sound

end PartitionState

namespace PublishLoop

variable {σ : PublishLoop}

/-! ## Passes -/

variable {P : PublishLoop → Prop}

/-- What a loop body keeps, the loop keeps. -/
theorem each_invariant {α : Type}
    {f : PublishLoop → α → PublishLoop × List LoopEvent} (hf : ∀ σ a, P σ → P (f σ a).1)
    (as : List α) (h : P σ) : P (each f as σ).1 := by
  induction as generalizing σ with
  | nil => exact h
  | cons a as ih => exact ih (hf σ a h)

/-- What the records and the rebuffers keep, the flush keeps. -/
theorem flush_invariant {now : Nat} (hrecord : ∀ σ r, P σ → P (σ.recordOnePublished now r).1)
    (hrebuffer : ∀ σ r, P σ → P (σ.rebufferOne r).1) (answers : List PublishAnswer)
    (rest : List (Ref RefMetadata)) (h : P σ) : P (flushLoop now answers σ rest).seq := by
  induction answers generalizing σ rest with
  | nil =>
    cases rest with
    | nil => exact h
    | cons r rest => exact each_invariant hrebuffer _ h
  | cons a answers ih =>
    cases rest with
    | nil => exact h
    | cons r rest =>
      have hp := each_invariant (fun σ r => hrecord σ r)
        ((r :: rest).take (min a.published (min batchMax (r :: rest).length))) h
      unfold flushLoop
      split
      case h_1 => exact ih _ hp
      case h_2 => exact each_invariant hrebuffer _ hp
      case h_3 => exact hp

open PartitionState (Sound)

section

variable (h : σ.state.Sound)
include h

/-- What a loop body keeps sound, the loop keeps sound. -/
theorem sound_each {α : Type} {f : PublishLoop → α → PublishLoop × List LoopEvent}
    (hf : ∀ σ a, σ.state.Sound → (f σ a).1.state.Sound) (as : List α) : (each f as σ).1.state.Sound :=
  each_invariant (P := fun σ => σ.state.Sound) hf as h

theorem sound_reinsert (r : Ref RefMetadata) : (σ.reinsert r).1.state.Sound :=
  h.reinsertForRetry r.1 r.2.1 r.2.2

theorem sound_rewindTaken (t : UnconfirmedLedger RefMetadata × List (UnconfirmedKey × RefMetadata)) :
    (σ.rewindTaken t).1.state.Sound :=
  sound_each (σ := { σ with unconfirmed := t.1 }) h (fun _ r h => sound_reinsert h r) _

theorem sound_rebufferOne (r : Ref RefMetadata) : (σ.rebufferOne r).1.state.Sound := by
  unfold rebufferOne
  split
  case isTrue => exact h
  case isFalse => exact sound_reinsert h r

section

variable (now : Nat)

theorem sound_flushDrained (answers : List PublishAnswer)
    (drained : List (Ref RefMetadata)) : (σ.flushDrained now answers drained).seq.state.Sound :=
  flush_invariant (P := fun σ => σ.state.Sound) (fun _ r h => (Eases.trimRefused _ r.1 _).sound h)
    (fun _ r h => sound_rebufferOne h r) answers _ h

theorem sound_reportRefusal (refusal : SealerRefusal) : (σ.reportRefusal refusal).1.state.Sound := by
  have htake : (σ.takeRefused refusal).1.state.Sound := by
    have hpark := (Eases.takeParked _ refusal.sender refusal.nonce
      (RefMetadata.namedBy refusal.reason)).sound h
    unfold takeRefused
    dsimp only
    split
    case h_1 => exact (Eases.markRefused ..).sound h
    case h_2 =>
      split
      case h_1 => exact (Eases.markRefused ..).sound hpark
      case h_2 => exact hpark
  unfold reportRefusal
  dsimp only
  split <;> exact htake

theorem sound_applyPastReject (past : Address × UInt64 × UInt64) :
    (σ.applyPastReject now past).1.state.Sound := by
  unfold applyPastReject
  split
  case isTrue =>
    refine sound_reportRefusal ?_ _
    unfold pastVerdict
    dsimp only
    split <;> exact h
  case isFalse => exact h

theorem sound_applyGap (gap : Address × UInt64) : (σ.applyGap now gap).1.state.Sound := by
  unfold applyGap
  split
  case isTrue => exact sound_rewindTaken h _
  case isFalse =>
    refine h.freeNonce now fun e he => ?_
    obtain ⟨e', he', rfl⟩ := List.mem_map.1 he
    exact (σ.unconfirmed.mem_takeGapRewinds he').2

theorem sound_republishHeld (full : Address × UInt64) : (σ.republishHeld full).1.state.Sound := by
  unfold republishHeld
  split
  case isTrue => exact sound_rewindTaken h _
  case isFalse => exact h

theorem sound_applySealerAnswers (drain : AnswerDrain) :
    (σ.applySealerAnswers now drain).1.state.Sound :=
  sound_each (sound_each (sound_each h (fun _ x h => sound_applyPastReject h now x) _)
    (fun _ x h => sound_applyGap h now x) _) (fun _ x h => sound_republishHeld h x) _

theorem sound_applyReceipts (drain : ReceiptDrain) : (σ.applyReceipts drain).1.state.Sound :=
  sound_each (sound_each (sound_each h (fun _ _ h => h) _)
    (fun _ c h => (Eases.releaseFloor h.clear c.1 c.2).sound h) _)
    (fun _ c h => (Eases.advanceFloor _ c.1 c.2).sound h) _

theorem sound_forgetFloors {xs : List Address} (hx : ∀ x ∈ xs, ∀ n, σ.state.holds x n = false) :
    (each forgetOneFloor xs σ).1.state.Sound := by
  induction xs generalizing σ with
  | nil => exact h
  | cons x xs ih =>
    refine ih (h.forgetFloor (hx x List.mem_cons_self)) fun y hy n => ?_
    exact hx y (List.mem_cons_of_mem _ hy) n

omit h in
/-- Every sender whose floor the rollback of a pass voids has an empty buffer. -/
def ForgetsClean (σ : PublishLoop) (p : Pass) : Prop := ∀ x ∈ (σ.startPass p).2.forgotten,
    (((σ.startPass p).1.applyReceipts (σ.startPass p).2).1.state.bufferOf x).len = 0

omit h in
theorem holds_of_len_zero {s : PartitionState RefMetadata} {x : Address}
    (h : (s.bufferOf x).len = 0) (n : UInt64) : s.holds x n = false := by
  rw [← contains_bufferOf]
  unfold contains
  rw [SortedMap.get?_eq_none_iff.2]
  · rfl
  · rw [List.eq_nil_of_length_eq_zero h]
    nofun

theorem sound_resyncTick {p : Pass} (hp : σ.ForgetsClean p) : (σ.resyncTick p).1.state.Sound := by
  have hreceipts : ((σ.startPass p).1.applyReceiptDrain (σ.startPass p).2).1.state.Sound :=
    sound_forgetFloors (sound_applyReceipts (σ := (σ.startPass p).1) h _)
      fun x hx => holds_of_len_zero (hp x hx)
  have hrefusals := sound_each hreceipts (fun _ x h => sound_reportRefusal h x)
    (ResyncController.drainDeadlineRejects p.deadlineRx)
  exact sound_rewindTaken (sound_each (sound_applySealerAnswers hrefusals ..) (fun _ _ h => h) _) _

theorem sound_expiryTick : (σ.expiryTick now).1.state.Sound := by
  have hsweep : ({ σ with state := (σ.state.sweepExpired now 256).1 } : PublishLoop).state.Sound :=
    (Eases.sweepLoop σ.state now _ 256).sound h
  exact sound_each hsweep (fun _ _ h => h) _

end

theorem sound_ingest (p : Pass) (i : Ingress) : (σ.ingest p i).seq.state.Sound := by
  have hseed : (σ.seedCold i.sender).state.Sound ∧
      ((σ.seedCold i.sender).state.nextNonceKnown i.sender).isSome := by
    unfold seedCold
    split
    case isTrue =>
      exact ⟨(Eases.seed fun _ _ => UInt64.zero_le).sound h, known_seed_self ..⟩
    case isFalse hknown =>
      exact ⟨h, by simpa [Option.isSome_iff_ne_none] using hknown⟩
  exact sound_flushDrained (hseed.1.processAt p.now hseed.2 i.nonce i.payload) ..

theorem sound_work (p : Pass) : (σ.work p).1.state.Sound := by
  have hdrain : (σ.drain p.order).1.state.Sound := (Eases.drainLoop h.clear _).sound h
  unfold work
  dsimp only
  split
  case isTrue =>
    split
    case h_1 => exact hdrain
    case h_2 => exact hdrain
    case h_3 i _ => exact sound_ingest hdrain p i
  case isFalse => exact sound_flushDrained hdrain ..

/-- **One pass** keeps the floors sound. -/
theorem sound_runOnce {p : Pass} (hp : σ.ForgetsClean p) : (σ.runOnce p).1.state.Sound := by
  have htick : (σ.tick p).1.state.Sound := sound_expiryTick (sound_resyncTick h hp) p.now
  unfold runOnce
  split
  case isTrue => exact htick
  case isFalse => exact sound_work htick p

end

/-- **No ref is stranded below a floor**, as long as rollbacks forget only the floors of senders with
an empty buffer: the loop then keeps every buffered ref at or above its floor over every run. Operation
by operation, what the sequencer issues keeps the count at 0 exactly if it does not rewind an unknown
floor to a nonce above a buffered ref. -/
theorem no_ref_below_floor (confirmTimeout maxPending txTtl settle : Nat) (lookup : Bool)
    (shadow : Option ShadowWindow) :
    (∀ passes, Guarded runOnce ForgetsClean
        (start confirmTimeout maxPending txTtl settle lookup shadow) passes →
      (run runOnce (start confirmTimeout maxPending txTtl settle lookup shadow)
        passes).1.state.refsBelowFloor = 0) ∧
    (∀ ops : List (Op RefMetadata),
      Guarded (fun (s : PartitionState RefMetadata) op => (s.apply op, ()))
        (fun s op => s.Issued op ∧ ¬ s.Strands op) (.new maxPending txTtl) ops →
      (run (fun (s : PartitionState RefMetadata) op => (s.apply op, ()))
        (.new maxPending txTtl) ops).1.refsBelowFloor = 0) ∧
    ∀ (s : PartitionState RefMetadata) (op : Op RefMetadata),
      s.refsBelowFloor = 0 → s.Issued op → ((s.apply op).refsBelowFloor = 0 ↔ ¬ s.Strands op) := by
  refine ⟨fun passes hg => ?_, fun ops hg => ?_, fun s op hs hop => ?_⟩
  · have hsound := run_invariant_of_guard (P := fun σ : PublishLoop => σ.state.Sound)
      (sound_new maxPending txTtl) (fun σ p h hp => sound_runOnce h hp) hg
    exact refsBelowFloor_eq_zero_iff.2 hsound.clear
  · exact refsBelowFloor_eq_zero_iff.2 (clear_run hg (clear_new maxPending txTtl))
  · rw [refsBelowFloor_eq_zero_iff]
    exact clear_apply_iff (refsBelowFloor_eq_zero_iff.1 hs) hop

/-! ## A rollback that strands a ref -/

/-- A receipt proves nonce 0 of the sender 7 executed in block 10. Nonces 1 and 2 publish, the second
one later. Nonce 1 times out and meets back-pressure. Then a rollback to block 9 forgets the floor, and
nonce 2 times out in the same pass. -/
def strandingPasses : List Pass :=
  [{ quietPass 0 with
      floorRx := [.update ⟨7, .executed 0, .receipt 10⟩]
      polled := .ok (some ⟨7, 1, sampleMeta 0xA⟩)
      answers := [⟨1, none⟩] },
    { quietPass 5 with
      polled := .ok (some ⟨7, 2, sampleMeta 0xB⟩)
      answers := [⟨1, none⟩] },
    { quietPass 15000 with answers := [⟨0, some .backpressure⟩] },
    { quietPass 15005 with
      floorRx := [.rollback ⟨9, 1⟩]
      answers := [⟨1, none⟩] }]

/-- Nonce 1 waits below the floor, which the rewind of nonce 2 set. It stays there: the sealer's gap
reject that names nonce 1 rewinds nonce 2 again, and a resubmit of nonce 1 is a past nonce. -/
theorem rollback_strands_ref :
    let σ := (run runOnce (start 15000 8 1000 15000 false none) strandingPasses).1
    let p : Pass := { quietPass 15006 with
      answerRx := [.contiguityReject 7 2 1]
      answers := [⟨1, none⟩] }
    σ.state.refsBelowFloor = 1 ∧ σ.state.nextNonce 7 = 3 ∧ σ.state.holds 7 1 = true ∧
      (σ.runOnce p).1.state.refsBelowFloor = 1 ∧
      ((σ.runOnce p).1.state.processAt 15007 7 1 (sampleMeta 0xA)).2.outcome = .past := by
  decide +kernel

/-- The theorem on the first two passes, which forget no floor. -/
theorem no_ref_below_floor_sample :
    Guarded runOnce ForgetsClean (start 15000 8 1000 15000 false none) (strandingPasses.take 2) ∧
    (run runOnce (start 15000 8 1000 15000 false none)
      (strandingPasses.take 2)).1.state.refsBelowFloor = 0 := by
  have hg : Guarded runOnce ForgetsClean (start 15000 8 1000 15000 false none)
      (strandingPasses.take 2) := by
    refine ⟨?_, ?_, trivial⟩ <;>
    · intro x hx
      cases hx
  exact ⟨hg, (no_ref_below_floor 15000 8 1000 15000 false none).1 _ hg⟩

end PublishLoop

end Kardamom.Sequencer
