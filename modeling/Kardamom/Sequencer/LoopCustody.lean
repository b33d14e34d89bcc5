import Mathlib.Algebra.BigOperators.Group.Multiset.Basic
import Kardamom.Sequencer.BufferedRefs
import Kardamom.Sequencer.PublishLoop

/-!
# Custody of the refs

Every ref that the loop took is buffered, or in the ledger of published refs, or its end is in the log,
and it is in one of these places only. A ref that is overwritten leaves for another ref of its sender and
nonce, so no nonce that the loop took goes away by replacements.

A function of the loop gives refs up (`Gives`); the only one that takes a ref is the nonce check.
-/

namespace Kardamom.Sequencer

open Wire (Address B256)
open Custody UnconfirmedLedger PartitionState Releases Multiset List LoopEvent RefMetadata

namespace LoopEvent

/-- The ref that an event takes. -/
def taken : LoopEvent → Multiset (Ref RefMetadata)
  | .took r => {r}
  | _ => 0

/-- The ref that an event ends for good. -/
def settled : LoopEvent → Multiset (Ref RefMetadata)
  | .ended _ .replaced => 0
  | .ended r _ => {r}
  | _ => 0

/-- The ref that an event ends for another one of its sender and nonce. -/
def replaced : LoopEvent → Multiset (Ref RefMetadata)
  | .ended r .replaced => {r}
  | _ => 0

/-- Only a resize or a failed publisher ends a ref by `suppressed` or `abandoned`. -/
def Allowed (disturbed : Prop) : LoopEvent → Prop
  | .ended _ .suppressed => disturbed
  | .ended _ .abandoned => disturbed
  | _ => True

/-- An event that moves no ref. -/
def Quiet : LoopEvent → Prop
  | .told _ => True
  | .lookup _ _ => True
  | _ => False

end LoopEvent

/-- The events of the log as a flow of refs. -/
def refFlow : Flow LoopEvent (Ref RefMetadata) (Address × UInt64) where
  took := taken
  settled := settled
  replaced := replaced
  key r := (r.1, r.2.1)

namespace PublishLoop

variable {σ : PublishLoop} {disturbed : Prop} {N N' M M' : Multiset (Ref RefMetadata)}
  {log : List LoopEvent}

/-- The refs in the loop. -/
def custody (σ : PublishLoop) : Multiset (Ref RefMetadata) := σ.state.held + σ.unconfirmed.held

/-- The balance of one piece of the loop. -/
abbrev Settles (disturbed : Prop) := Releases refFlow (Allowed disturbed)

/-- A function that is handed `N` keeps it or ends it. It starts no resize. -/
structure Gives (disturbed : Prop) (N : Multiset (Ref RefMetadata)) (σ : PublishLoop)
    (r : PublishLoop × List LoopEvent) : Prop where
  settles : Settles disturbed (N + σ.custody) r.2 r.1.custody
  shadow : σ.shadow = none → r.1.shadow = none

/-! ## Rules -/

theorem settles_quiet (h : ∀ e ∈ log, e.Quiet) (M : Multiset (Ref RefMetadata)) :
    Settles disturbed M log M := by
  refine of_quiet (fun e he => ?_) (fun e he => ?_) M
  all_goals
    have hq := h e he
    cases e with
    | told | lookup => first | exact ⟨rfl, rfl, rfl⟩ | exact trivial
    | took | ended => exact hq.elim

/-- An end that is neither a replacement nor one of a disturbance. -/
theorem settles_ended (r : Ref RefMetadata) {how : Ending} (hrep : how ≠ .replaced)
    (hhow : how = .suppressed ∨ how = .abandoned → disturbed) (M : Multiset (Ref RefMetadata)) :
    Settles disturbed (r ::ₘ M) [.ended r how] M := by
  refine settle rfl ?_ ?_ ?_ M
  all_goals
    cases how with
    | replaced => exact absurd rfl hrep
    | suppressed => first | rfl | exact hhow (.inl rfl)
    | abandoned => first | rfl | exact hhow (.inr rfl)
    | confirmed | refused | belowFloor | expired | evicted => first | rfl | exact trivial

variable {α : Type}

/-- Refs of one sender and nonce leave for another one. -/
theorem settles_replaced (item : α → Ref RefMetadata) {b : Ref RefMetadata} (old : List α)
    (hkey : ∀ a ∈ old, refFlow.key (item a) = refFlow.key b) (M : Multiset (Ref RefMetadata)) :
    Settles disturbed (b ::ₘ (↑(old.map item) + M)) (old.map fun a => .ended (item a) .replaced)
      (b ::ₘ M) :=
  displace _ item old hkey (fun _ _ => rfl) (fun _ _ => rfl) (fun _ _ => rfl) (fun _ _ => trivial) M

/-- A ref takes the place of the one that is buffered at its nonce. -/
theorem settles_put (s : PartitionState RefMetadata) (r : Ref RefMetadata)
    (F : Multiset (Ref RefMetadata)) :
    Settles disturbed (r ::ₘ (s.held + F)) (displaced s r.1 r.2.1)
      (r ::ₘ (s.heldBut r.1 r.2.1 + F)) := by
  rw [s.held_eq_refsAt_add r.1 r.2.1, add_assoc]
  exact settles_replaced (fun slot : Slot RefMetadata => (r.1, r.2.1, slot.value)) _ (fun _ _ => rfl) _

section

variable (σ : PublishLoop) (x : Address)

theorem quiet_tell (n : Notice) : ∀ e ∈ σ.tell x n, e.Quiet := by
  unfold tell
  split
  case isTrue => simp
  case isFalse => simp [Quiet]

theorem quiet_requestLookup : ∀ e ∈ σ.requestLookup x, e.Quiet := by
  unfold requestLookup
  split
  case isTrue => simp [Quiet]
  case isFalse => simp

theorem quiet_reportDuplicate (n expected : UInt64) (txHash : B256) :
    ∀ e ∈ σ.reportDuplicate x n expected txHash, e.Quiet := by
  unfold reportDuplicate
  split <;> exact quiet_tell _ _ _

end

namespace Gives

variable {r r' : PublishLoop × List LoopEvent}

/-- One function after the other. -/
theorem trans (h : Gives disturbed N σ r) (h' : Gives disturbed N' r.1 r') :
    Gives disturbed (N + N') σ (r'.1, r.2 ++ r'.2) where
  settles := by
    have hframe := h.settles.frame N'
    rw [← add_assoc, add_comm N' N] at hframe
    exact hframe.append h'.settles
  shadow hs := h'.shadow (h.shadow hs)

/-- One function after the other, when nothing is handed to the second one. -/
theorem andThen (h : Gives disturbed N σ r) (h' : Gives disturbed 0 r.1 r') :
    Gives disturbed N σ (r'.1, r.2 ++ r'.2) := by
  simpa only [add_zero] using h.trans h'

/-- A function that starts from another state, with the same refs at hand. -/
theorem startFrom {σ₀ : PublishLoop} (h : Gives disturbed N' σ₀ r)
    (hc : N' + σ₀.custody = N + σ.custody) (hs : σ₀.shadow = σ.shadow) : Gives disturbed N σ r :=
  ⟨hc ▸ h.settles, fun hnone => h.shadow (hs.trans hnone)⟩

/-- A function that is handed nothing and changes no custody. -/
theorem of_quiet {σ' : PublishLoop} (hc : σ'.custody = σ.custody) (hs : σ'.shadow = σ.shadow)
    (h : ∀ e ∈ log, e.Quiet) : Gives disturbed 0 σ (σ', log) where
  settles := by
    rw [zero_add, hc]
    exact settles_quiet h _
  shadow hnone := hs.trans hnone

end Gives

/-- Refs that end. -/
theorem gives_ended (rs : List (Ref RefMetadata)) {how : Ending} (hrep : how ≠ .replaced)
    (hhow : ∀ r ∈ rs, how = .suppressed ∨ how = .abandoned → disturbed) :
    Gives disturbed ↑rs σ (σ, rs.map fun r => .ended r how) where
  settles := by
    have hset : Settles disturbed _ _ _ := map_settle (fun r => .ended r how) id rs
      (fun r hr M => settles_ended r hrep (hhow r hr) M) σ.custody
    rwa [List.map_id] at hset
  shadow := id

/-- A loop gives what its body gives, item by item. -/
theorem gives_each {f : PublishLoop → α → PublishLoop × List LoopEvent}
    (item : α → Multiset (Ref RefMetadata)) (hf : ∀ σ a, Gives disturbed (item a) σ (f σ a))
    (as : List α) (σ : PublishLoop) : Gives disturbed (as.map item).sum σ (each f as σ) := by
  induction as generalizing σ with
  | nil => exact .of_quiet rfl rfl (by simp)
  | cons a as ih =>
    exact (hf σ a).trans (ih _)

/-- A loop whose body is handed nothing. -/
theorem gives_each_zero {f : PublishLoop → α → PublishLoop × List LoopEvent}
    (hf : ∀ σ a, Gives disturbed 0 σ (f σ a)) (as : List α) (σ : PublishLoop) :
    Gives disturbed 0 σ (each f as σ) := by
  have h := gives_each (fun _ => 0) hf as σ
  rwa [List.map_const', List.sum_replicate, nsmul_zero] at h

/-- A loop whose body is handed the refs of its list. -/
theorem gives_each_refs {f : PublishLoop → Ref RefMetadata → PublishLoop × List LoopEvent}
    (hf : ∀ σ r, Gives disturbed {r} σ (f σ r)) (rs : List (Ref RefMetadata)) (σ : PublishLoop) :
    Gives disturbed ↑rs σ (each f rs σ) := by
  have h := gives_each (fun r => {r}) hf rs σ
  rwa [← sum_coe, ← map_coe, sum_map_singleton] at h

/-! ## Rewinds -/

/-- A ref goes back into its buffer, in the place of the one there. -/
theorem gives_reinsert (σ : PublishLoop) (r : Ref RefMetadata) : Gives disturbed {r} σ (σ.reinsert r) where
  settles := by
    change Settles _ _ _ ((σ.state.reinsertForRetry r.1 r.2.1 r.2.2).held + σ.unconfirmed.held)
    rw [held_reinsertForRetry, cons_add]
    exact settles_put ..
  shadow := id

theorem gives_rewindForRepublish (σ : PublishLoop) (entries : List (UnconfirmedKey × RefMetadata)) :
    Gives disturbed ↑(entries.map refOf) σ (σ.rewindForRepublish entries) :=
  gives_each_refs gives_reinsert _ σ

/-- What leaves the ledger goes back into the buffers. -/
theorem gives_rewindTaken {t : UnconfirmedLedger RefMetadata × List (UnconfirmedKey × RefMetadata)}
    (ht : σ.unconfirmed.held = ↑(t.2.map refOf) + t.1.held) :
    Gives disturbed 0 σ (σ.rewindTaken t) := by
  refine (gives_rewindForRepublish { σ with unconfirmed := t.1 } t.2).startFrom ?_ rfl
  rw [zero_add, custody, custody, ht]
  exact add_left_comm ..

section

variable (σ : PublishLoop)

theorem gives_rewindOneGap (x : Address) (expected : UInt64) :
    Gives disturbed 0 σ (σ.rewindOneGap x expected) :=
  gives_rewindTaken (held_takeAll ..)

theorem gives_sweepConfirmTimeouts (now : Nat) : Gives disturbed 0 σ (σ.sweepConfirmTimeouts now) :=
  gives_rewindTaken (held_sweepExpired ..)

/-! ## Receipts -/

section

variable (c : Address × UInt64)

theorem gives_confirmOne : Gives disturbed 0 σ (σ.confirmOne c) where
  settles := by
    have hset : Settles disturbed _ _ _ := map_settle (fun e => .ended (refOf e) .confirmed) refOf
      (σ.unconfirmed.confirmThrough c.1 c.2).2
      (fun e _ M => settles_ended (refOf e) (by simp) (by simp) M) (σ.state.held + (σ.unconfirmed.confirmThrough c.1 c.2).1.held)
    rw [add_left_comm] at hset
    rw [zero_add, custody]
    nth_rewrite 1 [σ.unconfirmed.held_takeAll (σ.unconfirmed.keysIn c.1 0 c.2)]
    exact hset
  shadow := id

theorem gives_applyOneRelease : Gives disturbed 0 σ (σ.applyOneRelease c) :=
  .of_quiet (congrArg (· + σ.unconfirmed.held) (held_releaseFloor ..)) rfl (by simp)

theorem gives_applyOneFloorUpdate : Gives disturbed 0 σ (σ.applyOneFloorUpdate c) where
  settles := by
    have hset : Settles disturbed _ _ _ := flatMap_settle
      (fun e => .ended (c.1, e) .belowFloor :: ({ σ with
            nonceAhead := σ.nonceAhead.forget c.1
            state := (σ.state.advanceFloor c.1 c.2).1 } : PublishLoop).publishProvenDrop c.1 e.1
          e.2.txHash)
      (Prod.mk c.1) ((σ.state.advanceFloor c.1 c.2).2.elim [] Prod.snd)
      (fun e _ M => (settles_ended (c.1, e) (by simp) (by simp) M).append
        (settles_quiet (quiet_tell _ _ _) M))
      ((σ.state.advanceFloor c.1 c.2).1.held + σ.unconfirmed.held)
    rw [← add_assoc, ← held_advanceFloor] at hset
    rw [zero_add]
    exact hset
  shadow := id

end

theorem gives_forgetOneFloor (x : Address) : Gives disturbed 0 σ (σ.forgetOneFloor x) :=
  .of_quiet rfl rfl (by simp)

theorem gives_applyReceiptDrain (drain : ReceiptDrain) : Gives disturbed 0 σ (σ.applyReceiptDrain drain) :=
  ((gives_each_zero gives_confirmOne drain.confirmations σ).andThen
      (gives_each_zero gives_applyOneRelease drain.released _)).andThen
    (gives_each_zero gives_applyOneFloorUpdate drain.raised _) |>.andThen
    (gives_each_zero gives_forgetOneFloor drain.forgotten _)

/-! ## The sealer's answers -/

section

variable (refusal : SealerRefusal)

/-- A refused ref leaves the ledger or its buffer. -/
theorem custody_takeRefused :
    σ.custody = ↑((σ.takeRefused refusal).2.toList.map fun m => (refusal.sender, refusal.nonce, m))
      + (σ.takeRefused refusal).1.custody := by
  have hledger := σ.unconfirmed.held_takeNamed refusal.sender refusal.nonce (namedBy refusal.reason)
  have hparked := σ.state.held_takeParked refusal.sender refusal.nonce (namedBy refusal.reason)
  unfold takeRefused custody
  dsimp only
  split
  case h_1 m hm =>
    rw [hm] at hledger
    rw [held_markRefused, hledger]
    exact add_left_comm ..
  case h_2 hm =>
    rw [hm] at hledger
    have hsame : σ.unconfirmed.held = (σ.unconfirmed.takeNamed refusal.sender refusal.nonce
        (namedBy refusal.reason)).1.held := hledger.trans (zero_add _)
    rw [hsame]
    split
    case h_1 m hp =>
      rw [hp] at hparked
      rw [held_markRefused, hparked]
      exact add_assoc ..
    case h_2 hp =>
      rw [hp] at hparked
      rw [hparked]
      exact add_assoc ..

theorem shadow_takeRefused : (σ.takeRefused refusal).1.shadow = σ.shadow := by
  unfold takeRefused
  dsimp only
  split
  case h_1 => rfl
  case h_2 =>
    split <;> rfl

theorem gives_reportRefusal : Gives disturbed 0 σ (σ.reportRefusal refusal) := by
  have hcustody := σ.custody_takeRefused refusal
  have hshadow := σ.shadow_takeRefused refusal
  unfold reportRefusal
  dsimp only
  split
  case h_1 m hm =>
    rw [hm] at hcustody
    refine ⟨?_, fun hs => hshadow.trans hs⟩
    rw [zero_add, hcustody]
    exact (settles_ended _ (by simp) (by simp) _).append (settles_quiet (quiet_tell _ _ _) _)
  case h_2 hm =>
    rw [hm] at hcustody
    exact .of_quiet (hcustody.trans (zero_add _)).symm hshadow (quiet_tell _ _ _)

end

section

variable (now : Nat)

theorem gives_applyPastReject (σ : PublishLoop) (past : Address × UInt64 × UInt64) :
    Gives disturbed 0 σ (σ.applyPastReject now past) := by
  unfold applyPastReject
  split
  case isFalse => exact .of_quiet rfl rfl (by simp)
  case isTrue =>
    -- the verdict touches only the watch
    unfold pastVerdict
    dsimp only
    split
    case isTrue => exact gives_reportRefusal σ _
    case isFalse => exact (gives_reportRefusal _ _).startFrom rfl rfl

/-- The later refs of a freed nonce park. -/
theorem settles_parkFreed (dueAt : Nat) (x : Address) (later : List (UInt64 × RefMetadata))
    (s : PartitionState RefMetadata) :
    Settles disturbed (↑(later.map (Prod.mk x)) + s.held) (displacedBy dueAt x later s)
      (later.foldl (fun s e => s.parkFreed dueAt x e) s).held := by
  induction later generalizing s with
  | nil =>
    show Settles disturbed (0 + s.held) [] s.held
    rw [zero_add]
    exact refl _
  | cons e later ih =>
    have hone : Settles disturbed _ _ _ := settles_put s (x, e) 0
    rw [add_zero, add_zero, ← s.held_parkFreed dueAt x e] at hone
    rw [List.map_cons, ← cons_coe, cons_add, ← add_cons]
    exact (hone.frame _).append (ih _)

theorem gives_freeNonce (x : Address) (n : UInt64) : Gives disturbed 0 σ (σ.freeNonce now x n) where
  settles := by
    unfold freeNonce
    set t := σ.unconfirmed.takeGapRewinds x n with ht
    have hledger : σ.unconfirmed.held = ↑(t.2.map refOf) + t.1.held := held_takeAll ..
    have hrefs : t.2.map refOf = (t.2.map fun e => ((ofLex e.1).2, e.2)).map (Prod.mk x) := by
      rw [List.map_map]
      refine map_congr_left fun e he => ?_
      show ((ofLex e.1).1, _) = _
      rw [(σ.unconfirmed.mem_takeGapRewinds he).1]
      rfl
    have hpark : Settles disturbed _ _ _ := (settles_parkFreed (now + (σ.state.freeFloor x n).txTtl) x
      (t.2.map fun e => ((ofLex e.1).2, e.2)) (σ.state.freeFloor x n)).frame t.1.held
    rw [held_freeFloor, ← hrefs] at hpark
    rw [custody, hledger]
    convert hpark using 1
    · ac_rfl
    · exact add_comm ..
  shadow := id

theorem gives_applyGap (σ : PublishLoop) (gap : Address × UInt64) :
    Gives disturbed 0 σ (σ.applyGap now gap) := by
  unfold applyGap
  split
  case isTrue => exact gives_rewindOneGap ..
  case isFalse => exact gives_freeNonce ..

theorem gives_republishHeld (full : Address × UInt64) : Gives disturbed 0 σ (σ.republishHeld full) := by
  unfold republishHeld
  split
  case isTrue => exact gives_rewindOneGap ..
  case isFalse => exact .of_quiet rfl rfl (by simp)

theorem gives_applySealerAnswers (drain : AnswerDrain) :
    Gives disturbed 0 σ (σ.applySealerAnswers now drain) :=
  ((gives_each_zero (gives_applyPastReject now) drain.drops σ).andThen
      (gives_each_zero (gives_applyGap now) drain.gaps.entries _)).andThen
    (gives_each_zero gives_republishHeld drain.windowFull _)

end

/-! ## The pass before it publishes -/

theorem gives_resyncTick (p : Pass) : Gives disturbed 0 σ (σ.resyncTick p) := by
  have hstart : Gives disturbed 0 σ ((σ.startPass p).1, []) := .of_quiet rfl rfl (by simp)
  exact ((((hstart.andThen (gives_applyReceiptDrain _ (σ.startPass p).2)).andThen
    (gives_each_zero gives_reportRefusal (ResyncController.drainDeadlineRejects p.deadlineRx) _)).andThen
    (gives_applySealerAnswers _ p.now _)).andThen
    (gives_each_zero (fun σ x => .of_quiet rfl rfl (quiet_requestLookup σ x)) _ _)).andThen
    (gives_sweepConfirmTimeouts _ p.now)

theorem gives_expireOne (r : Ref RefMetadata) : Gives disturbed {r} σ (σ.expireOne r) where
  settles := (settles_ended r (by simp) (by simp) _).append (settles_quiet (quiet_tell _ _ _) _)
  shadow := id

theorem gives_expiryTick (now : Nat) : Gives disturbed 0 σ (σ.expiryTick now) := by
  have h : Gives disturbed 0 σ (each expireOne (σ.state.sweepExpired now 256).2
      { σ with state := (σ.state.sweepExpired now 256).1 }) := by
    refine (gives_each_refs gives_expireOne _ _).startFrom ?_ rfl
    rw [zero_add, custody, ← add_assoc]
    exact congrArg (· + σ.unconfirmed.held) (σ.state.held_sweepLoop now σ.state.deadlines 256).symm
  refine ⟨h.settles, fun hs => ?_⟩
  show (each expireOne _ _).1.shadow.filter _ = none
  rw [h.shadow hs]
  rfl

theorem gives_tick (p : Pass) : Gives disturbed 0 σ (σ.tick p) :=
  (gives_resyncTick σ p).andThen (gives_expiryTick _ p.now)

/-! ## The flush -/

/-- A published ref goes into the ledger, in the place of the one under its key. -/
theorem gives_recordOnePublished (now : Nat) (σ : PublishLoop) (r : Ref RefMetadata) :
    Gives disturbed {r} σ (σ.recordOnePublished now r) where
  settles := by
    set k := key r.1 r.2.1
    have hkey : ∀ e ∈ (σ.unconfirmed.take k).2.toList, refFlow.key (refOf e) = refFlow.key r := by
      intro e he
      obtain ⟨v, -, rfl⟩ := Option.map_eq_some_iff.1 (Option.mem_toList.1 he)
      rfl
    have hrep : Settles disturbed _ _ _ := settles_replaced (b := r) refOf
      (σ.unconfirmed.take k).2.toList hkey (σ.state.held + (σ.unconfirmed.take k).1.held)
    have htold : Settles disturbed (r ::ₘ σ.custody) [.told (.offered r.2.2.txHash r.1 r.2.1)]
        (r ::ₘ σ.custody) := settles_quiet (by simp [Quiet]) _
    have hbefore : r ::ₘ σ.custody = r ::ₘ (↑((σ.unconfirmed.take k).2.toList.map
        refOf) + (σ.state.held + (σ.unconfirmed.take k).1.held)) := by
      rw [custody, σ.unconfirmed.held_take k, add_left_comm]
    have hafter : (σ.recordOnePublished now r).1.custody
        = r ::ₘ (σ.state.held + (σ.unconfirmed.take k).1.held) := by
      unfold recordOnePublished
      rw [custody, held_clearRefused, held_recordPublished, add_cons]
    rw [hafter]
    exact htold.append (hbefore ▸ hrep)
  shadow := id

theorem gives_rebufferOne (r : Ref RefMetadata) : Gives disturbed {r} σ (σ.rebufferOne r) := by
  unfold rebufferOne
  split
  case isTrue =>
    exact ⟨(settles_quiet (quiet_tell _ _ _) _).append (settles_ended r (by simp) (by simp) _), id⟩
  case isFalse => exact gives_reinsert σ r

/-- The flush goes back into the buffers, in reverse. -/
theorem gives_rebuffer (rs : List (Ref RefMetadata)) :
    Gives disturbed ↑rs σ (each rebufferOne rs.reverse σ) := by
  have h : Gives disturbed _ _ _ := gives_each_refs gives_rebufferOne rs.reverse σ
  rwa [coe_reverse] at h

/-- The errors of the publisher that are not back-pressure. -/
def Fails (answers : List PublishAnswer) : Prop :=
  ∃ a ∈ answers, ∃ e, a.err = some e ∧ e ≠ .backpressure

section

variable (now : Nat) (answers : List PublishAnswer)

theorem gives_flushLoop (σ : PublishLoop)
    (rs : List (Ref RefMetadata)) (hfail : Fails answers → disturbed) :
    Gives disturbed ↑rs σ ((flushLoop now answers σ rs).seq, (flushLoop now answers σ rs).log) := by
  induction answers generalizing σ rs with
  | nil =>
    cases rs with
    | nil => exact .of_quiet rfl rfl (by simp [flushLoop])
    | cons r rest => exact gives_rebuffer σ (r :: rest)
  | cons a answers ih =>
    cases rs with
    | nil => exact .of_quiet rfl rfl (by simp [flushLoop])
    | cons r rest =>
      unfold flushLoop
      set k := min a.published (min batchMax (r :: rest).length)
      have hp : Gives disturbed _ _ _ :=
        gives_each_refs (gives_recordOnePublished now) ((r :: rest).take k) σ
      have hsplit : (↑(r :: rest) : Multiset (Ref RefMetadata))
          = ↑((r :: rest).take k) + ↑((r :: rest).drop k) := by
        rw [coe_add, take_append_drop]
      rw [hsplit]
      cases herr : a.err with
      | none =>
        exact hp.trans (ih _ _ fun ⟨a', ha', hf⟩ => hfail ⟨a', mem_cons_of_mem _ ha', hf⟩)
      | some e =>
        by_cases he : e = .backpressure
        · subst he
          exact hp.trans (gives_rebuffer _ _)
        · -- the publisher failed: what is left is given up
          have hd : disturbed := hfail ⟨a, mem_cons_self, e, herr, he⟩
          cases e with
          | backpressure => exact absurd rfl he
          | _ => exact hp.trans (gives_ended _ (by simp) fun _ _ _ => hd)

theorem gives_flushDrained (drained : List (Ref RefMetadata)) (hfail : Fails answers → disturbed)
    (hshadow : σ.shadow ≠ none → disturbed) :
    Gives disturbed ↑drained σ
      ((σ.flushDrained now answers drained).seq, (σ.flushDrained now answers drained).log) := by
  have hsuppress : Gives disturbed ↑(drained.filter fun r => σ.inShadow r.1) σ
      (σ, (drained.filter fun r => σ.inShadow r.1).map fun r => .ended r .suppressed) := by
    refine gives_ended _ (by simp) fun r hr _ => hshadow fun hnone => ?_
    have hin := (mem_filter.1 hr).2
    rw [inShadow, hnone] at hin
    cases hin
  have hsplit : (↑drained : Multiset (Ref RefMetadata))
      = ↑(drained.filter fun r => σ.inShadow r.1) + ↑(drained.filter fun r => !σ.inShadow r.1) :=
    (coe_eq_coe.2 (filter_append_perm (fun (r : Ref RefMetadata) => σ.inShadow r.1) drained)).symm
  rw [hsplit]
  exact hsuppress.trans (gives_flushLoop now answers σ _ hfail)

end

/-! ## The nonce check -/

theorem collectPublishes_run (i : Ingress) (run : List (UInt64 × RefMetadata)) :
    (σ.collectPublishes i (run.map fun e => .publish e.1 e.2)).1 = run.map (Prod.mk i.sender) := by
  unfold collectPublishes
  rw [List.filterMap_map]
  exact List.filterMap_eq_map (f := Prod.mk i.sender) ▸ rfl

theorem quiet_collectPublishes (i : Ingress)
    (actions : List (ProcessAction RefMetadata)) : ∀ e ∈ (σ.collectPublishes i actions).2, e.Quiet := by
  intro e he
  obtain ⟨a, -, hea⟩ := mem_flatMap.1 he
  cases a with
  | publish => cases hea
  | reportDuplicate n expected => exact quiet_reportDuplicate _ _ _ _ _ e hea

end

/-- What the nonce check does with an envelope: it takes the ref, or it moves nothing. -/
def Processes (disturbed : Prop) (σ σ' : PublishLoop) (i : Ingress)
    (publishes : List (Ref RefMetadata)) (log : List LoopEvent) : Prop :=
  (∃ log', log = .took (i.sender, i.nonce, i.payload) :: log' ∧
    Settles disturbed ((i.sender, i.nonce, i.payload) ::ₘ σ.custody) log' (↑publishes + σ'.custody)) ∨
  Settles disturbed σ.custody log (↑publishes + σ'.custody)

/-- A ref at the floor publishes with the run behind it. A ref that was buffered there goes in its
place. -/
theorem processes_matched (hd : σ.state.Drainable) (i : Ingress) : Processes disturbed σ
      { σ with state := (σ.state.processMatched i.sender i.nonce i.payload).1 } i
      (σ.collectPublishes i (σ.state.processMatched i.sender i.nonce i.payload).2.actions).1
      (handleOutcome σ { σ with state := (σ.state.processMatched i.sender i.nonce i.payload).1 } i
        .matched) := by
  obtain ⟨run, hactions, hrun⟩ := held_processMatched hd i.sender i.nonce i.payload
  have hpublishes : (σ.collectPublishes i
      (σ.state.processMatched i.sender i.nonce i.payload).2.actions).1
      = (i.sender, i.nonce, ((σ.state.slotAt i.sender i.nonce).map Slot.value).getD i.payload)
        :: run.map (Prod.mk i.sender) := by
    rw [hactions]
    exact congrArg _ (σ.collectPublishes_run i run)
  have hafter : (↑(run.map (Prod.mk i.sender)) : Multiset (Ref RefMetadata))
      + ((σ.state.processMatched i.sender i.nonce i.payload).1.held + σ.unconfirmed.held)
      = σ.state.heldBut i.sender i.nonce + σ.unconfirmed.held := by
    rw [← add_assoc, ← hrun]
  refine .inl ⟨_, rfl, ?_⟩
  rw [hpublishes, ← cons_coe, cons_add, custody, custody, hafter,
    σ.state.held_eq_refsAt_add i.sender i.nonce, refsAt]
  cases σ.state.slotAt i.sender i.nonce with
  | none =>
    rw [Option.toList_none, map_nil, coe_nil, zero_add]
    exact refl _
  | some slot =>
    have hrep : Settles disturbed _ _ _ := settles_replaced (b := (i.sender, i.nonce, slot.value))
      (fun _ : Slot RefMetadata => (i.sender, i.nonce, i.payload)) [slot] (fun _ _ => rfl)
      (σ.state.heldBut i.sender i.nonce + σ.unconfirmed.held)
    rw [List.map_singleton, coe_singleton, singleton_add, cons_swap] at hrep
    rw [add_assoc]
    exact hrep

/-- A ref above the floor parks. -/
theorem processes_park (now : Nat) (i : Ingress) :
    Processes disturbed σ { σ with state := (σ.state.park now i.sender i.nonce i.payload).1 } i []
      (handleOutcome σ { σ with state := (σ.state.park now i.sender i.nonce i.payload).1 } i
        (σ.state.park now i.sender i.nonce i.payload).2) := by
  have hpark := σ.state.parks now i.sender i.nonce i.payload
  generalize σ.state.park now i.sender i.nonce i.payload = r at hpark ⊢
  cases hpark with
  | @refused s' o ho h =>
    refine .inr ?_
    rw [coe_nil, zero_add,
      show ({ σ with state := s' } : PublishLoop).custody = σ.custody from
        congrArg (· + σ.unconfirmed.held) h]
    refine settles_quiet ?_ _
    rcases ho with rfl | rfl
    · exact quiet_tell _ _ _
    · simp [handleOutcome]
  | @buffered s' hnew h =>
    refine .inl ⟨_, rfl, ?_⟩
    have hafter : ({ σ with state := s' } : PublishLoop).custody
        = (i.sender, i.nonce, i.payload) ::ₘ σ.custody := by
      rw [custody, h, custody, σ.state.held_eq_refsAt_add i.sender i.nonce, hnew, ← cons_add]
      exact congrArg (fun M => (_ ::ₘ M) + _) (zero_add _).symm
    rw [hafter, coe_nil, zero_add]
    exact settles_quiet (quiet_requestLookup _ _) _
  | @replaced s' h =>
    refine .inl ⟨_, rfl, ?_⟩
    rw [coe_nil, zero_add, custody, custody, h, cons_add]
    exact (settles_put σ.state (i.sender, i.nonce, i.payload) _).append
      (settles_quiet (quiet_requestLookup _ _) _)
  | @evicted s' max last h =>
    refine .inl ⟨_, rfl, ?_⟩
    rw [coe_nil, zero_add, custody, custody, ← cons_add, h, cons_add]
    exact (settles_ended _ (by simp) (by simp) _).append
      ((settles_quiet (quiet_requestLookup _ _) _).append (settles_quiet (quiet_tell _ _ _) _))

theorem processes_processAt (hd : σ.state.Drainable) (now : Nat) (i : Ingress) :
    Processes disturbed σ { σ with state := (σ.state.processAt now i.sender i.nonce i.payload).1 } i
      (σ.collectPublishes i (σ.state.processAt now i.sender i.nonce i.payload).2.actions).1
      (handleOutcome σ { σ with state := (σ.state.processAt now i.sender i.nonce i.payload).1 } i
        (σ.state.processAt now i.sender i.nonce i.payload).2.outcome) := by
  unfold processAt
  dsimp only
  split
  case isTrue =>
    -- a refused nonce is offered again
    exact .inl ⟨[], rfl, refl _⟩
  case isFalse =>
    split
    case isTrue =>
      refine .inr ?_
      exact (zero_add σ.custody).symm ▸ refl _
    case isFalse =>
      split
      case isTrue => exact processes_park now i
      case isFalse => exact processes_matched hd i

/-! ## Passes -/

/-- What a pass does with the refs. -/
structure Conducts (disturbed : Prop) (σ : PublishLoop) (r : PublishLoop × List LoopEvent) : Prop where
  conserves : Conserves refFlow σ.custody r.2 r.1.custody
  taken : ∀ ref, .took ref ∈ r.2 → ref.2.1 ≠ nonceMax
  allowed : ∀ e ∈ r.2, e.Allowed disturbed
  shadow : σ.shadow = none → r.1.shadow = none

theorem not_took_mem (h : Settles disturbed M log M') (r : Ref RefMetadata) : .took r ∉ log := by
  intro hr
  have h0 : ({r} : Multiset (Ref RefMetadata)) = 0 := h.nothing_taken _ hr
  exact singleton_ne_zero r h0

theorem Gives.conducts {r : PublishLoop × List LoopEvent} (h : Gives disturbed 0 σ r) :
    Conducts disturbed σ r where
  conserves := zero_add σ.custody ▸ h.settles.toConserves
  taken ref href := absurd href (not_took_mem h.settles ref)
  allowed := h.settles.only
  shadow := h.shadow

namespace Conducts

variable {r r' : PublishLoop × List LoopEvent}

theorem trans (h : Conducts disturbed σ r) (h' : Conducts disturbed r.1 r') :
    Conducts disturbed σ (r'.1, r.2 ++ r'.2) where
  conserves := h.conserves.append h'.conserves
  taken ref href := (mem_append.1 href).elim (h.taken ref) (h'.taken ref)
  allowed e he := (mem_append.1 he).elim (h.allowed e) (h'.allowed e)
  shadow hs := h'.shadow (h.shadow hs)

end Conducts

theorem custody_seedCold (σ : PublishLoop) (x : Address) :
    (σ.seedCold x).custody = σ.custody ∧ (σ.seedCold x).state.held = σ.state.held ∧
      (σ.seedCold x).shadow = σ.shadow := by
  unfold seedCold
  split <;> exact ⟨rfl, rfl, rfl⟩

/-- One envelope: the nonce check may take it, and what it publishes flushes. -/
theorem conducts_ingest (hd : σ.state.Drainable) (p : Pass) (i : Ingress) (hn : i.nonce ≠ nonceMax)
    (hfail : Fails p.answers → disturbed) (hshadow : σ.shadow ≠ none → disturbed) :
    Conducts disturbed σ ((σ.ingest p i).seq, (σ.ingest p i).log) := by
  obtain ⟨hcustody, hheld, hsame⟩ := σ.custody_seedCold i.sender
  have hd' : (σ.seedCold i.sender).state.Drainable := fun r hr => hd r (hheld ▸ hr)
  have hproc : Processes disturbed _ _ _ _ _ := processes_processAt hd' p.now i
  unfold ingest
  dsimp only
  rw [← hsame] at hshadow
  generalize σ.seedCold i.sender = σ₀ at hcustody hsame hproc hshadow ⊢
  set r := σ₀.state.processAt p.now i.sender i.nonce i.payload
  set σ₁ : PublishLoop := { σ₀ with state := r.1 }
  set c := σ₁.collectPublishes i r.2.actions
  -- the reports say nothing about refs, and the flush gives what the check published
  have hrest : Settles disturbed (↑c.1 + σ₁.custody) (c.2 ++ (σ₁.flushDrained p.now p.answers c.1).log)
      (σ₁.flushDrained p.now p.answers c.1).seq.custody :=
    (settles_quiet (quiet_collectPublishes _ _ _) _).append
      (gives_flushDrained σ₁ p.now p.answers c.1 hfail hshadow).settles
  have hlast : σ.shadow = none → (σ₁.flushDrained p.now p.answers c.1).seq.shadow = none := fun hs =>
    (gives_flushDrained σ₁ p.now p.answers c.1 hfail hshadow).shadow (hsame.trans hs)
  rw [append_assoc]
  rcases hproc with ⟨log', hlog, hset⟩ | hset
  · have hall := hset.append hrest
    rw [hlog]
    refine ⟨?_, ?_, ?_, hlast⟩
    · rw [← hcustody]
      exact (Conserves.of_took (e := .took (i.sender, i.nonce, i.payload)) rfl rfl rfl _).append
        hall.toConserves
    · intro ref href
      rcases mem_cons.1 href with heq | href
      · cases heq
        exact hn
      · exact absurd href (not_took_mem hall ref)
    · intro e he
      rcases mem_cons.1 he with rfl | he
      · exact trivial
      · exact hall.only e he
  · have hall := hset.append hrest
    rw [hcustody] at hall
    exact ⟨hall.toConserves, fun ref href => absurd href (not_took_mem hall ref), hall.only, hlast⟩

theorem custody_drain (hd : σ.state.Drainable) (order : List Address) :
    σ.custody = ↑(σ.drain order).2 + (σ.drain order).1.custody := by
  show σ.state.held + σ.unconfirmed.held = _ + (_ + σ.unconfirmed.held)
  rw [held_drainPending hd order]
  exact add_assoc ..

/-- A function that gives refs up leaves the buffers drainable. -/
theorem Gives.drainable {r : PublishLoop × List LoopEvent} (h : Gives disturbed 0 σ r)
    (hd : ∀ ref ∈ σ.custody, ref.2.1 ≠ nonceMax) : r.1.state.Drainable := by
  intro ref href
  have hmem : ref ∈ 0 + σ.custody := h.settles.mem (mem_add.2 (.inl href))
  exact hd ref (zero_add σ.custody ▸ hmem)

/-- The nonces of the envelopes are below the last one. -/
def Pass.Bounded (p : Pass) : Prop := ∀ i, p.polled = .ok (some i) → i.nonce ≠ nonceMax

theorem conducts_work (hd : σ.state.Drainable) (p : Pass) (hp : Pass.Bounded p)
    (hfail : Fails p.answers → disturbed) (hshadow : σ.shadow ≠ none → disturbed) :
    Conducts disturbed σ ((σ.work p).1, (σ.work p).2.log) := by
  have hdrain := custody_drain hd p.order
  unfold work
  dsimp only
  split
  case isTrue hempty =>
    have hnil : (σ.drain p.order).2 = [] := isEmpty_iff.1 hempty
    have hsame : (σ.drain p.order).1.custody = σ.custody := by
      rw [hdrain, hnil, coe_nil, zero_add]
    have hquiet : Conducts disturbed σ ((σ.drain p.order).1, []) :=
      (Gives.of_quiet hsame rfl (by simp)).conducts
    split
    case h_1 => exact hquiet
    case h_2 => exact hquiet
    case h_3 i hi =>
      have hd' : (σ.drain p.order).1.state.Drainable := hd.of_add (held_drainPending hd p.order)
      exact hquiet.trans (conducts_ingest hd' p i (hp i hi) hfail hshadow)
  case isFalse =>
    have hflush := gives_flushDrained (σ.drain p.order).1 p.now p.answers (σ.drain p.order).2 hfail
      hshadow
    exact (hflush.startFrom (hdrain.symm.trans (zero_add _).symm) rfl).conducts

theorem conducts_runOnce (hd : ∀ r ∈ σ.custody, r.2.1 ≠ nonceMax) (p : Pass) (hp : Pass.Bounded p)
    (hfail : Fails p.answers → disturbed) (hshadow : σ.shadow ≠ none → disturbed) :
    Conducts disturbed σ ((σ.runOnce p).1, (σ.runOnce p).2.log) := by
  have htick : Gives disturbed 0 σ (σ.tick p) := gives_tick σ p
  have hd' : (σ.tick p).1.state.Drainable := htick.drainable hd
  unfold runOnce
  split
  case isTrue => exact htick.conducts
  case isFalse =>
    exact htick.conducts.trans (conducts_work hd' p hp hfail fun hs =>
      hshadow fun hnone => hs (htick.shadow hnone))

end PublishLoop

end Kardamom.Sequencer
