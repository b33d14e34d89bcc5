import Kardamom.Sequencer.LoopCustody

/-!
# The floors after back-pressure

A drain moves the floor of a sender past what it takes out. When the publisher then stops, the refs that
it did not take go back and the floor goes down with each of them, so it ends at the lowest nonce that
went back (`returned`). A ref at a nonce that the sealer refused does not go back, and its floor stays.
-/

namespace Kardamom.Sequencer

open Wire (Address)
open PendingBuffer Words PartitionState Custody LoopEvent Machine Multiset LinkedMap Bool Machine

variable {floor : UInt64} {n : UInt64}

namespace PartitionState

variable {T : Type} {s : PartitionState T} {x y : Address}

theorem nextNonceKnown_put_self (s : PartitionState T) (x : Address) (n : UInt64) :
    ({ s with next := s.next.put x n } : PartitionState T).nextNonceKnown x = some n :=
  get?_put_self ..

theorem nextNonceKnown_put_of_ne (s : PartitionState T) (h : y ≠ x) (n : UInt64) :
    ({ s with next := s.next.put x n } : PartitionState T).nextNonceKnown y = s.nextNonceKnown y :=
  get?_put_of_ne _ h _

theorem nextNonceKnown_reinsertForRetry_self (h : s.nextNonceKnown x = some floor) (n : UInt64) (payload : T) :
    (s.reinsertForRetry x n payload).nextNonceKnown x = some (min floor n) := by
  have hput : (s.reinsertForRetry x n payload).nextNonceKnown x
      = some ((s.nextNonceKnown x).elim n fun next => min next n) := s.nextNonceKnown_put_self x _
  rw [hput, h]
  rfl

theorem nextNonceKnown_reinsertForRetry_of_ne (h : y ≠ x) (n : UInt64) (payload : T) :
    (s.reinsertForRetry x n payload).nextNonceKnown y = s.nextNonceKnown y :=
  s.nextNonceKnown_put_of_ne h _

/-! ## Drains -/

/-- The refs are below the known floors of their senders. -/
def AheadOf (s : PartitionState T) (rs : List (Ref T)) : Prop :=
  ∀ r ∈ rs, ∃ floor, s.nextNonceKnown r.1 = some floor ∧ r.2.1 < floor

theorem aheadOf_drainOneSender (s : PartitionState T) (x : Address) :
    (s.drainOneSender x).1.AheadOf (s.drainOneSender x).2 := by
  unfold drainOneSender
  split
  case h_1 => exact fun _ h => by cases h
  case h_2 b hb =>
    dsimp only
    intro r hr
    obtain ⟨e, he, rfl⟩ := List.mem_map.1 hr
    have hne : ¬ (b.drainConsecutiveFrom (s.nextNonce x)).2.isEmpty = true := by
      rw [List.isEmpty_iff]
      exact List.ne_nil_of_mem he
    rw [if_neg hne]
    exact ⟨_, nextNonceKnown_put_self .., lt_advanceOver he⟩

/-- A drain lowers no floor. -/
theorem known_drainOneSender (h : s.nextNonceKnown y = some floor) (x : Address) :
    ∃ floor', (s.drainOneSender x).1.nextNonceKnown y = some floor' ∧ floor ≤ floor' := by
  unfold drainOneSender
  split
  case h_1 => exact ⟨floor, h, le_rfl⟩
  case h_2 b hb =>
    dsimp only
    split
    case isTrue => exact ⟨floor, h, le_rfl⟩
    case isFalse =>
      by_cases hy : y = x
      · subst hy
        refine ⟨_, nextNonceKnown_put_self .., ?_⟩
        rw [nextNonce_of_known h]
        exact le_advanceOver
      · exact ⟨floor, (nextNonceKnown_put_of_ne _ hy _).trans h, le_rfl⟩

theorem AheadOf.drainOneSender {rs : List (Ref T)} (h : s.AheadOf rs) (x : Address) :
    (s.drainOneSender x).1.AheadOf rs := by
  intro r hr
  obtain ⟨floor, hfloor, hlt⟩ := h r hr
  obtain ⟨floor', hfloor', hle⟩ := known_drainOneSender hfloor x
  exact ⟨floor', hfloor', lt_of_lt_of_le hlt hle⟩

theorem AheadOf.drainLoop {rs : List (Ref T)} (h : s.AheadOf rs) (xs : List Address) :
    (drainLoop xs s).1.AheadOf rs := by
  induction xs generalizing s with
  | nil => exact h
  | cons x xs ih => exact ih (h.drainOneSender x)

variable (s : PartitionState T)

theorem aheadOf_drainLoop (xs : List Address) : (drainLoop xs s).1.AheadOf (drainLoop xs s).2 := by
  induction xs generalizing s with
  | nil => exact fun _ h => by cases h
  | cons x xs ih =>
    intro r hr
    rcases List.mem_append.1 hr with hr | hr
    · exact (s.aheadOf_drainOneSender x).drainLoop xs r hr
    · exact ih _ r hr

theorem aheadOf_drainPending (order : List Address) :
    (s.drainPending order).1.AheadOf (s.drainPending order).2 :=
  aheadOf_drainLoop s _

/-- A ref at the floor and the run behind it are below the new floor. -/
theorem aheadOf_processMatched (x : Address) (hn : n ≠ nonceMax) (payload : T) {m : UInt64} {v : T}
    (h : .publish m v ∈ (s.processMatched x n payload).2.actions) :
    ∃ floor, (s.processMatched x n payload).1.nextNonceKnown x = some floor ∧ m < floor := by
  unfold processMatched at h ⊢
  dsimp only at h ⊢
  refine ⟨_, nextNonceKnown_put_self .., ?_⟩
  have hnext : n < satAdd64 n 1 := by
    rw [satAdd64_one hn, UInt64.lt_iff_toNat_lt, toNat_add_one hn]
    exact Nat.lt_succ_self _
  generalize (s.withBuffer x none fun b => b.remove n).1 = s' at h ⊢
  rcases s'.drainConsecutiveInto_cases x (satAdd64 n 1) with ⟨-, heq⟩ | ⟨b, -, heq⟩
  · rw [heq] at h ⊢
    cases List.mem_singleton.1 h
    exact hnext
  · rw [heq] at h ⊢
    rcases List.mem_cons.1 h with h | h
    · cases h
      exact lt_of_lt_of_le hnext le_advanceOver
    · obtain ⟨e, he, heq⟩ := List.mem_map.1 h
      cases heq
      exact lt_advanceOver he

/-- What the nonce check publishes is below the new floor, or it is a refused nonce offered again. -/
theorem aheadOf_processAt (now : Nat) (x : Address) (hn : n ≠ nonceMax) (payload : T) :
    ((s.processAt now x n payload).1 = s ∧
      (s.processAt now x n payload).2.actions = [.publish n payload] ∧ s.isRefused x n = true) ∨
    ∀ m v, .publish m v ∈ (s.processAt now x n payload).2.actions →
      ∃ floor, (s.processAt now x n payload).1.nextNonceKnown x = some floor ∧ m < floor := by
  unfold processAt
  dsimp only
  split
  case isTrue h =>
    rw [and_eq_true] at h
    exact .inl ⟨rfl, rfl, h.2⟩
  case isFalse =>
    refine .inr fun m v hmem => ?_
    split at hmem
    case isTrue => simp at hmem
    case isFalse hlow =>
      rw [if_neg hlow]
      split at hmem
      case isTrue => cases hmem
      case isFalse heq =>
        rw [if_neg heq]
        exact s.aheadOf_processMatched x hn payload hmem

end PartitionState

namespace PublishLoop

variable {σ : PublishLoop} {x : Address} {rs : List (Ref RefMetadata)}

section

variable (σ : PublishLoop) (unpublished : List (Ref RefMetadata))

/-- The nonces of a sender that went back: those that did not publish and that no refusal marks. -/
def returned (x : Address) : List UInt64 :=
  (unpublished.filter fun r => decide (r.1 = x) && !σ.state.isRefused x r.2.1).map fun r => r.2.1

/-- The floor of every sender is the lowest nonce that went back. -/
def FloorsAtReturned : Prop :=
  ∀ x n, (σ.returned unpublished x).min? = some n → σ.state.nextNonceKnown x = some n

end

/-! ## The rewind of a flush -/

theorem mem_returned : n ∈ σ.returned rs x ↔ ∃ r ∈ rs, r.1 = x ∧ σ.state.isRefused x n = false ∧ r.2.1 = n := by
  constructor
  · intro h
    obtain ⟨r, hr, rfl⟩ := List.mem_map.1 h
    obtain ⟨hmem, hcond⟩ := List.mem_filter.1 hr
    simp only [and_eq_true, decide_eq_true_eq, not_eq_true'] at hcond
    exact ⟨r, hmem, hcond.1, hcond.2, rfl⟩
  · rintro ⟨r, hmem, rfl, hmark, rfl⟩
    exact List.mem_map_of_mem (List.mem_filter.2 ⟨hmem, by simp [hmark]⟩)

theorem returned_congr {σ' : PublishLoop} (h : σ'.state.refused = σ.state.refused)
    (rs : List (Ref RefMetadata)) (x : Address) : σ'.returned rs x = σ.returned rs x := by
  unfold returned isRefused
  rw [h]

theorem refused_rebufferOne (σ : PublishLoop) (r : Ref RefMetadata) :
    (σ.rebufferOne r).1.state.refused = σ.state.refused := by
  unfold rebufferOne
  split <;> rfl

theorem refused_rebuffer (σ : PublishLoop) (rs : List (Ref RefMetadata)) :
    (each rebufferOne rs σ).1.state.refused = σ.state.refused := by
  induction rs generalizing σ with
  | nil => rfl
  | cons r rs ih => exact (ih _).trans (refused_rebufferOne σ r)

section

variable (h : σ.state.nextNonceKnown x = some floor)
include h

/-- One ref goes back: the floor of its sender goes down to it. -/
theorem known_rebufferOne (r : Ref RefMetadata) :
    (σ.rebufferOne r).1.state.nextNonceKnown x = some ((σ.returned [r] x).foldl min floor) := by
  unfold rebufferOne
  split
  case isTrue hmark =>
    have hnone : σ.returned [r] x = [] := by
      refine List.eq_nil_iff_forall_not_mem.2 fun n hn => ?_
      obtain ⟨r', hr', rfl, hfree, rfl⟩ := mem_returned.1 hn
      cases List.mem_singleton.1 hr'
      rw [hmark] at hfree
      cases hfree
    rw [hnone]
    exact h
  case isFalse hmark =>
    by_cases hx : r.1 = x
    · subst hx
      have hone : σ.returned [r] r.1 = [r.2.1] := by simp [returned, hmark]
      rw [hone]
      exact nextNonceKnown_reinsertForRetry_self h r.2.1 r.2.2
    · have hnone : σ.returned [r] x = [] := by simp [returned, hx]
      rw [hnone]
      exact (nextNonceKnown_reinsertForRetry_of_ne (Ne.symm hx) r.2.1 r.2.2).trans h

theorem known_rebuffer (rs : List (Ref RefMetadata)) :
    (each rebufferOne rs σ).1.state.nextNonceKnown x = some ((σ.returned rs x).foldl min floor) := by
  induction rs generalizing σ floor with
  | nil => exact h
  | cons r rs ih =>
    have hsplit : σ.returned (r :: rs) x = σ.returned [r] x ++ σ.returned rs x := by
      unfold returned
      rw [← List.map_append, ← List.filter_append, List.singleton_append]
    rw [hsplit, List.foldl_append, ← returned_congr (refused_rebufferOne σ r) rs x]
    exact ih (known_rebufferOne h r)

end

/-- A ref that is offered again at a refused nonce does not go back. -/
theorem floorsAtReturned_rebuffer
    (h : σ.state.AheadOf rs ∨ ∃ r, rs = [r] ∧ σ.state.isRefused r.1 r.2.1 = true) :
    FloorsAtReturned (each rebufferOne rs.reverse σ).1 rs := by
  intro x n hmin
  rw [returned_congr (refused_rebuffer σ rs.reverse)] at hmin
  obtain ⟨hmem, hle⟩ := List.min?_eq_some_iff.1 hmin
  obtain ⟨r, hr, rfl, hmark, rfl⟩ := mem_returned.1 hmem
  obtain h | ⟨r', rfl, hrefused⟩ := h
  rotate_left
  · cases List.mem_singleton.1 hr
    rw [hrefused] at hmark
    cases hmark
  obtain ⟨floor, hfloor, hlt⟩ := h r hr
  have hsame : ∀ m, m ∈ σ.returned rs.reverse r.1 ↔ m ∈ σ.returned rs r.1 := fun m => by
    rw [mem_returned, mem_returned]
    simp only [List.mem_reverse]
  -- the floor was above every nonce that went back, so the lowest of those is the lowest of all
  have hall : (floor :: σ.returned rs.reverse r.1).min? = some r.2.1 := by
    refine List.min?_eq_some_iff.2 ⟨List.mem_cons_of_mem _ ((hsame _).2 hmem), fun m hm => ?_⟩
    rcases List.mem_cons.1 hm with rfl | hm
    · exact hlt.le
    · exact hle m ((hsame m).1 hm)
  rw [List.min?_cons'] at hall
  rw [known_rebuffer hfloor, hall]

/-! ## The flush -/

theorem known_recordPublished (now : Nat) (σ : PublishLoop) (rs : List (Ref RefMetadata)) (x : Address) :
    (each (fun σ r => σ.recordOnePublished now r) rs σ).1.state.nextNonceKnown x
      = σ.state.nextNonceKnown x := by
  induction rs generalizing σ with
  | nil => rfl
  | cons r rs ih => exact (ih _).trans (nextNonceKnown_trimRefused ..)

theorem floorsAtReturned_nil (σ : PublishLoop) : FloorsAtReturned σ [] := fun _ _ h => by cases h

section

variable (now : Nat) (answers : List PublishAnswer)
  (h : σ.state.AheadOf rs ∨ ∃ r, rs = [r] ∧ σ.state.isRefused r.1 r.2.1 = true)
include h

theorem floorsAtReturned_flushLoop
    (hres : (flushLoop now answers σ rs).result = .error .backpressure) :
    FloorsAtReturned (flushLoop now answers σ rs).seq (flushLoop now answers σ rs).unpublished := by
  induction answers generalizing σ rs with
  | nil =>
    cases rs with
    | nil => exact floorsAtReturned_nil σ
    | cons r rest => exact floorsAtReturned_rebuffer h
  | cons a answers ih =>
    cases rs with
    | nil => exact floorsAtReturned_nil σ
    | cons r rest =>
      unfold flushLoop at hres ⊢
      set k := min a.published (min batchMax (r :: rest).length)
      set σ' := (each (fun σ r => σ.recordOnePublished now r) ((r :: rest).take k) σ).1 with hσ'
      have hleft : σ'.state.AheadOf ((r :: rest).drop k)
          ∨ ∃ r', (r :: rest).drop k = [r'] ∧ σ'.state.isRefused r'.1 r'.2.1 = true := by
        rcases h with h | ⟨r', heq, hrefused⟩
        · refine .inl fun r' hr' => ?_
          rw [known_recordPublished]
          exact h r' (List.mem_of_mem_drop hr')
        · -- the one ref published, or nothing did
          rw [hσ', heq]
          rcases Nat.eq_zero_or_pos k with hk | hk
          · rw [hk]
            exact .inr ⟨r', rfl, hrefused⟩
          · rw [List.drop_of_length_le hk]
            exact .inl (List.forall_mem_nil _)
      cases herr : a.err with
      | none =>
        rw [herr] at hres
        exact ih hleft hres
      | some e =>
        rw [herr] at hres
        cases e with
        | backpressure => exact floorsAtReturned_rebuffer hleft
        | _ => cases hres

theorem floorsAtReturned_flushDrained
    (hres : (σ.flushDrained now answers rs).result = .error .backpressure) :
    FloorsAtReturned (σ.flushDrained now answers rs).seq (σ.flushDrained now answers rs).unpublished := by
  refine floorsAtReturned_flushLoop now answers ?_ hres
  rcases h with h | ⟨r, rfl, h⟩
  · exact .inl fun r hr => h r (List.mem_of_mem_filter hr)
  · cases hs : σ.inShadow r.1 with
    | true => exact .inl (by simp [AheadOf, hs])
    | false => exact .inr ⟨r, by simp [hs], h⟩

end

theorem mem_collectPublishes {i : Ingress} {actions : List (ProcessAction RefMetadata)}
    {r : Ref RefMetadata} (h : r ∈ (σ.collectPublishes i actions).1) :
    .publish r.2.1 r.2.2 ∈ actions ∧ r.1 = i.sender := by
  obtain ⟨a, ha, hr⟩ := List.mem_filterMap.1 h
  cases a with
  | publish n v =>
    cases hr
    exact ⟨ha, rfl⟩
  | reportDuplicate => cases hr

theorem floorsAtReturned_ingest (p : Pass) (i : Ingress) (hn : i.nonce ≠ nonceMax)
    (hres : (σ.ingest p i).result = .error .backpressure) :
    FloorsAtReturned (σ.ingest p i).seq (σ.ingest p i).unpublished := by
  refine floorsAtReturned_flushDrained p.now p.answers ?_ hres
  rcases (σ.seedCold i.sender).state.aheadOf_processAt p.now i.sender hn i.payload
    with ⟨hsame, hactions, hmark⟩ | hahead
  · refine .inr ⟨(i.sender, i.nonce, i.payload), by rw [hactions]; rfl, ?_⟩
    rw [hsame]
    exact hmark
  · refine .inl fun r hr => ?_
    obtain ⟨hmem, hsender⟩ := mem_collectPublishes hr
    rw [hsender]
    exact hahead _ _ hmem

theorem floorsAtReturned_work (p : Pass) (hp : Pass.Bounded p)
    (hres : (σ.work p).2.result = .error .backpressure) :
    FloorsAtReturned (σ.work p).1 (σ.work p).2.unpublished := by
  have hmap : ∀ {res : Except SequencerError Unit},
      res.map (fun _ => true) = .error .backpressure → res = .error .backpressure := by
    intro res h
    cases res with
    | ok => cases h
    | error e => exact congrArg Except.error (Except.error.inj h)
  unfold work at hres ⊢
  dsimp only at hres ⊢
  split at hres
  case isTrue hempty =>
    rw [if_pos hempty]
    cases hpoll : p.polled with
    | error => exact floorsAtReturned_nil _
    | ok polled =>
      cases polled with
      | none => exact floorsAtReturned_nil _
      | some i =>
        rw [hpoll] at hres
        dsimp only at hres ⊢
        exact floorsAtReturned_ingest p i (hp i hpoll) (hmap hres)
  case isFalse hempty =>
    rw [if_neg hempty]
    exact floorsAtReturned_flushDrained p.now p.answers
      (.inl (σ.state.aheadOf_drainPending p.order)) (hmap hres)

theorem floorsAtReturned_runOnce (p : Pass) (hp : Pass.Bounded p)
    (hres : (σ.runOnce p).2.result = .error .backpressure) :
    FloorsAtReturned (σ.runOnce p).1 (σ.runOnce p).2.unpublished := by
  unfold runOnce at hres ⊢
  split at hres
  case isTrue => cases hres
  case isFalse hpaused =>
    rw [if_neg hpaused]
    exact floorsAtReturned_work p hp hres

/-! ## Runs -/

/-- The log of a run. -/
def logOf (τ : List (Pass × Passed)) : List LoopEvent := τ.flatMap fun o => o.2.log

/-- Every ref that a run took is in the loop, or its end is in the log. -/
theorem conducts_run (disturbed : Prop) {σ₀ : PublishLoop} (h₀ : σ₀.custody = 0) {passes : List Pass}
    (hp : ∀ p ∈ passes, Pass.Bounded p) (hfail : ∀ p ∈ passes, Fails p.answers → disturbed)
    (hshadow : σ₀.shadow ≠ none → disturbed) :
    Conducts disturbed σ₀ ((run runOnce σ₀ passes).1, logOf (run runOnce σ₀ passes).2) := by
  have hguard : Guarded runOnce
      (fun _ p => Pass.Bounded p ∧ (Fails p.answers → disturbed)) σ₀ passes :=
    Guarded.of_inputs σ₀ fun p hmem => ⟨hp p hmem, hfail p hmem⟩
  refine run_induction_of_guard (P := fun σ τ => Conducts disturbed σ₀ (σ, logOf τ)) ?_ ?_ hguard
  · exact (Gives.of_quiet rfl rfl (by simp [logOf])).conducts
  · intro σ τ p h hg
    have hbound : ∀ r ∈ σ.custody, r.2.1 ≠ nonceMax := by
      intro r hr
      have hbal := h.conserves.balance
      rw [h₀, zero_add] at hbal
      have htook : r ∈ Custody.total refFlow.took (logOf τ) := by
        rw [hbal]
        exact mem_add.2 (.inl hr)
      obtain ⟨e, he, hre⟩ := mem_total.1 htook
      cases e with
      | took r' =>
        cases mem_singleton.1 hre
        exact h.taken r he
      | ended | told | lookup => cases hre
    have hone := conducts_runOnce hbound p hg.1 hg.2 fun hs => hshadow fun hnone => hs (h.shadow hnone)
    have hlog : logOf (τ ++ [(p, (σ.runOnce p).2)]) = logOf τ ++ (σ.runOnce p).2.log := by
      simp [logOf]
    rw [hlog]
    exact h.trans hone

/-- **No ref is lost or duplicated.** Over every run whose envelopes have nonces below the last one:
* the refs taken are the buffered ones, those in the ledger, those that ended for good and those that
  another ref replaced, each as often as it was taken;
* for every ref taken, it or another one of its sender and nonce is buffered, in the ledger, or ended
  otherwise than by a replacement;
* without a resize and with no publisher error but back-pressure, no ref ends suppressed or abandoned;
* after a flush that back-pressure stopped, the floor of each sender is its lowest nonce that went
  back, which is every unpublished nonce that no refusal marks. -/
theorem refs_in_one_place (confirmTimeout maxPending txTtl settle : Nat) (lookup : Bool)
    (shadow : Option ShadowWindow) (passes : List Pass) (hp : ∀ p ∈ passes, Pass.Bounded p) :
    let r := run runOnce (start confirmTimeout maxPending txTtl settle lookup shadow) passes
    Custody.total taken (logOf r.2) = r.1.state.held + r.1.unconfirmed.held
        + (Custody.total settled (logOf r.2) + Custody.total replaced (logOf r.2)) ∧
    (∀ ref, .took ref ∈ logOf r.2 → ∃ ref', (ref'.1, ref'.2.1) = (ref.1, ref.2.1) ∧
      (ref' ∈ r.1.state.held ∨ ref' ∈ r.1.unconfirmed.held ∨
        ∃ how, how ≠ .replaced ∧ .ended ref' how ∈ logOf r.2)) ∧
    ((shadow = none ∧ ∀ p ∈ passes, ¬ Fails p.answers) →
      ∀ ref how, .ended ref how ∈ logOf r.2 → how ≠ .suppressed ∧ how ≠ .abandoned) ∧
    ∀ p, Pass.Bounded p → (r.1.runOnce p).2.result = .error .backpressure →
      FloorsAtReturned (r.1.runOnce p).1 (r.1.runOnce p).2.unpublished := by
  set σ₀ := start confirmTimeout maxPending txTtl settle lookup shadow
  have h₀ : σ₀.custody = 0 := rfl
  have hrun := conducts_run True h₀ hp (fun _ _ _ => trivial) fun _ => trivial
  refine ⟨?_, ?_, ?_, fun p hb hres => floorsAtReturned_runOnce p hb hres⟩
  · have hbal := hrun.conserves.balance
    rwa [h₀, zero_add] at hbal
  · intro ref href
    have hmem : ref ∈ σ₀.custody + Custody.total refFlow.took (logOf (run runOnce σ₀ passes).2) :=
      mem_add.2 (.inr (mem_total.2 ⟨_, href, mem_singleton_self ref⟩))
    obtain ⟨ref', hin, hkey⟩ := hrun.conserves.succeeded ref hmem
    refine ⟨ref', hkey, ?_⟩
    rcases mem_add.1 hin with hheld | hended
    · rcases mem_add.1 hheld with hheld | hheld
      · exact .inl hheld
      · exact .inr (.inl hheld)
    · obtain ⟨e, he, hre⟩ := mem_total.1 hended
      cases e with
      | ended r' how =>
        cases how with
        | replaced => cases hre
        | _ =>
          cases mem_singleton.1 hre
          exact .inr (.inr ⟨_, by simp, he⟩)
      | took | told | lookup => cases hre
  · rintro ⟨hnone, hanswers⟩ ref how hended
    have hcalm := conducts_run False h₀ hp (fun p hmem hf => hanswers p hmem hf) fun hs => hs hnone
    have hallowed := hcalm.allowed _ hended
    refine ⟨?_, ?_⟩
    · rintro rfl
      exact hallowed
    · rintro rfl
      exact hallowed

/-! ## A later ref loses its place, and a floor stays -/

/-- One ref that arrives and publishes. -/
def publishPass (now : Nat) (nonce : UInt64) (m : RefMetadata) : Pass :=
  { quietPass now with polled := .ok (some ⟨7, nonce, m⟩), answers := [⟨1, none⟩] }

/-- Nonces 0, 1 and 2 publish. Nonce 0 times out alone and publishes again, so the floor is 1 and a
resubmit of nonce 2 parks. Then nonces 1 and 2 time out and go back. -/
def resubmitPasses : List Pass :=
  [publishPass 0 0 (sampleMeta 0xA0), publishPass 1 1 (sampleMeta 0xA1),
    publishPass 1 2 (sampleMeta 0xA2), { quietPass 15000 with answers := [⟨1, none⟩] },
    publishPass 15000 2 (sampleMeta 0xB2), { quietPass 15001 with answers := [⟨2, none⟩] }]

/-- Nonces 0 and 1 publish and the sealer refuses nonce 1. Nonce 0 times out and publishes again, which
leaves the floor at 1. A resubmit of nonce 1 meets back-pressure. -/
def refusedPasses : List Pass :=
  [publishPass 0 0 (sampleMeta 0xA0), publishPass 1 1 (sampleMeta 0xA1),
    { quietPass 2 with deadlineRx := [⟨7, 1, .pastDeadline 100 101⟩] },
    { quietPass 15000 with answers := [⟨1, none⟩] },
    { publishPass 15001 1 (sampleMeta 0xB1) with answers := [⟨0, some .backpressure⟩] }]

/-- In the first run the resubmit of nonce 2 is replaced by the ref that was taken before it, which is
what the ledger then holds. In the second run the flush leaves nonce 1 unpublished and the floor at 2,
because a nonce that the sealer refused does not go back. -/
theorem earlier_ref_replaces_later :
    let r := run runOnce (start 15000 8 100000 15000 false none) resubmitPasses
    let r' := run runOnce (start 15000 8 100000 15000 false none) refusedPasses
    ((logOf r.2).filter fun e => match e with
      | .took _ => true
      | .ended _ _ => true
      | _ => false) =
      [.took (7, 0, sampleMeta 0xA0), .took (7, 1, sampleMeta 0xA1), .took (7, 2, sampleMeta 0xA2),
        .took (7, 2, sampleMeta 0xB2), .ended (7, 2, sampleMeta 0xB2) .replaced] ∧
    (r.1.unconfirmed.entries.get? (UnconfirmedLedger.key 7 2)).map Prod.fst = some (sampleMeta 0xA2) ∧
    r.1.state.holds 7 2 = false ∧
    (r'.2.getLast?.map fun o => o.2.unpublished) = some [(7, 1, sampleMeta 0xB1)] ∧
    r'.1.state.nextNonceKnown 7 = some 2 := by
  decide +kernel

/-- The theorem on the first run. -/
theorem refs_in_one_place_resubmit : (∀ p ∈ resubmitPasses, Pass.Bounded p) ∧
    (let r := run runOnce (start 15000 8 100000 15000 false none) resubmitPasses
    Custody.total taken (logOf r.2) = r.1.state.held + r.1.unconfirmed.held + (Custody.total settled (logOf r.2)
          + Custody.total replaced (logOf r.2))) := by
  have hb : ∀ p ∈ resubmitPasses, Pass.Bounded p := by
    simp [resubmitPasses, publishPass, quietPass, Pass.Bounded, nonceMax]
  exact ⟨hb, (refs_in_one_place 15000 8 100000 15000 false none resubmitPasses hb).1⟩

end PublishLoop

end Kardamom.Sequencer
