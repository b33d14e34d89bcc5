import Kardamom.Archive.Refetch
import Kardamom.Reader.Ordering

/-!
# The wait of a join

A reference is joined with its envelope: from the buffer, or after a refetch that fills the buffer. The join
uses its whole budget, and keeps the archives that refused the range meanwhile. It ends unjoinable when every
archive that discovery shows at the end is one of them.
-/

namespace Kardamom.Archive

open Wire (BPosition TxEnvelope TxRef)
open Reader (JoinOutcome)
open List ArchiveRefetcher Except

/-- A recovery attempt that failed. -/
inductive JoinRecoveryError where
  | streamIdOverflow (base : Int) (shard : UInt8)
  | archive (e : LogError)
  deriving DecidableEq, Repr

/-- The tunables of a join, in moments. -/
structure JoinConfig where
  joinTimeout : Nat
  joinRefetchAfter : Nat
  joinPollInterval : Nat
  txDataStreamBase : Int

/-- One refetch of a join, with the moments it began and ended. -/
structure Ask where
  since : Nat
  «until» : Nat
  answer : Except JoinRecoveryError Nat

/-- One join of a reference. -/
structure JoinWait where
  txRef : TxRef
  deadline : Nat
  now : Nat
  recovery : Option ArchiveRefetcher
  /-- The archives that answered "not here" during this join. -/
  refused : List String
  asks : List Ask

inductive JoinStep where
  | giveUp
  | take (env : TxEnvelope)
  | retry

namespace JoinWait

/-- The limits that the refetches of this join read. -/
def limits (s : JoinWait) : List RecordedLimit := s.recovery.elim [] ArchiveRefetcher.limits

def new (cfg : JoinConfig) (recovery : Option ArchiveRefetcher) (txRef : TxRef) (started : Nat) : JoinWait where
  txRef := txRef
  deadline := started + cfg.joinTimeout
  now := started
  recovery := recovery.map fun r => { r with limits := [] }
  refused := []
  asks := []

section Calls

variable (W : World) (cfg : JoinConfig)

/-- Poll the buffer until the moment `limit`. A poll takes at least one moment, so `fuel` is not less than the
moments that are left. -/
def waitLoop (limit : Nat) : (fuel : Nat) → JoinWait → JoinWait × Option TxEnvelope
  | 0, s => (s, none)
  | fuel + 1, s =>
    let s := { s with now := s.now + cfg.joinPollInterval + 1 }
    match W.buffered s.now with
    | some env => (s, some env)
    | none => if limit ≤ s.now then (s, none) else waitLoop limit fuel s

section

variable (s : JoinWait)

/-- Spin until the envelope lands in the buffer, or the timeout ends. -/
def waitFor (timeout : Nat) : JoinWait × Option TxEnvelope :=
  match W.buffered s.now with
  | some env => (s, some env)
  | none =>
    let limit := min (s.now + timeout) s.deadline
    s.waitLoop W cfg limit (limit - s.now + 1)

/-- Note the archive that an error names, when the error is a refusal. -/
def note (refused : List String) : Except JoinRecoveryError Nat → List String
  | .error (.archive (.rangeAbsent archive _)) => archive :: refused
  | _ => refused

/-- The range of the reference on its stream. -/
def wanted (txRef : TxRef) : Wanted :=
  ⟨cfg.txDataStreamBase + txRef.shardId.toNat, txRef.txDataSessionId, txRef.txDataPosition⟩

/-- One archive refetch; a stream id that overflows asks no archive. -/
def recoverTxData (r : ArchiveRefetcher) (txRef : TxRef) :
    ArchiveRefetcher × Except JoinRecoveryError Nat :=
  if cfg.txDataStreamBase + txRef.shardId.toNat < 2 ^ 31 then
    match r.fetchTxData W (wanted cfg txRef) with
    | (r, .ok n) => (r, .ok n)
    | (r, .error e) => (r, .error (.archive e))
  else (r, .error (.streamIdOverflow cfg.txDataStreamBase txRef.shardId))

/-- One refetch attempt for a join miss. -/
def refetchOnce : JoinWait :=
  match s.recovery with
  | none => s
  | some r =>
    let out := recoverTxData W cfg { r with now := s.now } s.txRef
    { s with
      now := out.1.now
      recovery := some out.1
      refused := note s.refused out.2
      asks := ⟨s.now, out.1.now, out.2⟩ :: s.asks }

/-- One refetch-then-wait attempt. -/
def pollOnce : JoinWait × JoinStep :=
  if s.recovery.isNone then (s, .giveUp)
  else if s.deadline ≤ s.now then (s, .giveUp)
  else
    let s := s.refetchOnce W cfg
    let slice := min cfg.joinRefetchAfter (s.deadline - s.now)
    if slice = 0 then
      match W.buffered s.now with
      | some env => (s, .take env)
      | none => (s, .giveUp)
    else
      match s.waitFor W cfg slice with
      | (s, some env) => (s, .take env)
      | (s, none) => (s, .retry)

/-- Whether each archive of a list refused; an empty list is no answer at all. -/
def covers (refused archives : List String) : Bool :=
  !archives.isEmpty && archives.all fun a => a ∈ refused

/-- The budget ended. -/
def giveUp : JoinOutcome :=
  if covers s.refused (s.recovery.elim [] fun _ => W.archives s.now) then .unjoinable else .timedOut

end

/-- Refetch and wait until the budget ends. An attempt takes at least one moment, so with no fuel left the
deadline has passed. -/
def pollLoop : (fuel : Nat) → JoinWait → JoinWait × JoinOutcome
  | 0, s => (s, s.giveUp W)
  | fuel + 1, s =>
    match s.pollOnce W cfg with
    | (s, .giveUp) => (s, s.giveUp W)
    | (s, .take env) => (s, .joined env)
    | (s, .retry) => pollLoop fuel s

/-- Join the envelope. -/
def run (s : JoinWait) : JoinWait × JoinOutcome :=
  match W.buffered s.now with
  | some env => (s, .joined env)
  | none =>
    let slice := if s.recovery.isSome then min cfg.joinRefetchAfter cfg.joinTimeout else cfg.joinTimeout
    match s.waitFor W cfg slice with
    | (s, some env) => (s, .joined env)
    | (s, none) => s.pollLoop W cfg (s.deadline - s.now + 1)

end Calls

/-! ## What is refused is lost -/

variable {W : World} {txRef : TxRef} {s : JoinWait}

/-- The archive refused the range in one of these refetches, and held no byte of it at a moment of that call. -/
def Lost (W : World) (txRef : TxRef) (asks : List Ask) (a : String) : Prop :=
  ∃ ask ∈ asks, (∃ detail, ask.answer = .error (.archive (.rangeAbsent a detail)))
    ∧ ∃ t, ask.since ≤ t ∧ t ≤ ask.until
      ∧ ∀ rec ∈ W.catalog t a, rec.sessionId = txRef.txDataSessionId → ¬ rec.Holds txRef.txDataPosition

/-- Every archive that is noted as refusing lost the range, when no limit that was read is null. -/
structure Noted (W : World) (txRef : TxRef) (s : JoinWait) : Prop where
  same : s.txRef = txRef
  refused : (∀ l ∈ s.limits, 0 ≤ l.position) → ∀ a ∈ s.refused, Lost W txRef s.asks a

section

variable (cfg : JoinConfig)

theorem waitLoop_eq (limit fuel : Nat) (s : JoinWait) :
    ∃ t, (s.waitLoop W cfg limit fuel).1 = { s with now := t } := by
  induction fuel generalizing s with
  | zero => exact ⟨s.now, rfl⟩
  | succ fuel ih =>
    unfold waitLoop
    dsimp only
    split
    · exact ⟨_, rfl⟩
    · split
      · exact ⟨_, rfl⟩
      · obtain ⟨t, ht⟩ := ih { s with now := s.now + cfg.joinPollInterval + 1 }
        exact ⟨t, ht⟩

theorem waitFor_eq (s : JoinWait) (timeout : Nat) : ∃ t, (s.waitFor W cfg timeout).1 = { s with now := t } := by
  unfold waitFor
  split
  · exact ⟨s.now, rfl⟩
  · exact waitLoop_eq ..

theorem recoverTxData_spec (r : ArchiveRefetcher) (txRef : TxRef) :
    r.limits ⊆ (recoverTxData W cfg r txRef).1.limits
      ∧ ∀ a detail, (recoverTxData W cfg r txRef).2 = .error (.archive (.rangeAbsent a detail)) →
        (∀ l ∈ (recoverTxData W cfg r txRef).1.limits, 0 ≤ l.position) →
        ∃ t, r.now ≤ t ∧ t ≤ (recoverTxData W cfg r txRef).1.now
          ∧ ∀ rec ∈ W.catalog t a, rec.sessionId = txRef.txDataSessionId →
            ¬ rec.Holds txRef.txDataPosition := by
  obtain ⟨hpass, hrefused⟩ := fetchTxData_asks r (wanted cfg txRef)
  unfold recoverTxData
  split
  · split
    next hfetch =>
      rw [hfetch] at hpass
      exact ⟨hpass.limits, nofun⟩
    next hfetch =>
      rw [hfetch] at hpass hrefused
      refine ⟨hpass.limits, fun a d h hlimits => ?_⟩
      exact hrefused a d (congrArg error (JoinRecoveryError.archive.inj (error.inj h))) hlimits
  · exact ⟨List.Subset.refl _, nofun⟩

section

variable (h : Noted W txRef s) (cfg : JoinConfig)
include h

theorem Noted.refetchOnce : Noted W txRef (s.refetchOnce W cfg) := by
  unfold JoinWait.refetchOnce
  split
  · exact h
  next r hr =>
    obtain ⟨hsub, hrefused⟩ := recoverTxData_spec cfg { r with now := s.now } s.txRef
    refine ⟨h.same, fun hlimits a ha => ?_⟩
    have hold : ∀ a ∈ s.refused, Lost W txRef s.asks a :=
      h.refused fun l hl => hlimits l (hsub (by simpa [limits, hr] using hl))
    -- what was lost before this refetch is still in the log
    have hkeep : ∀ ask a, Lost W txRef s.asks a → Lost W txRef (ask :: s.asks) a :=
      fun _ _ ⟨ask, hask, hlost⟩ => ⟨ask, mem_cons_of_mem _ hask, hlost⟩
    dsimp only at ha ⊢
    unfold note at ha
    split at ha
    next archive detail hanswer =>
      rcases mem_cons.1 ha with rfl | ha
      · obtain ⟨t, ht, ht', hnone⟩ := hrefused _ detail hanswer hlimits
        rw [h.same] at hnone
        exact ⟨_, mem_cons_self, ⟨detail, hanswer⟩, t, ht, ht', hnone⟩
      · exact hkeep _ a (hold a ha)
    · exact hkeep _ a (hold a ha)

theorem Noted.waitFor (timeout : Nat) : Noted W txRef (s.waitFor W cfg timeout).1 := by
  obtain ⟨t, ht⟩ := waitFor_eq cfg s timeout
  rw [ht]
  exact ⟨h.same, h.refused⟩

theorem Noted.pollOnce : Noted W txRef (s.pollOnce W cfg).1 := by
  unfold JoinWait.pollOnce
  split
  · exact h
  · split
    · exact h
    · dsimp only
      split
      · split <;> exact h.refetchOnce cfg
      · have hwait := (h.refetchOnce cfg).waitFor cfg
          (min cfg.joinRefetchAfter ((s.refetchOnce W cfg).deadline - (s.refetchOnce W cfg).now))
        split <;> rename_i hout <;> rw [hout] at hwait <;> exact hwait

theorem Noted.pollLoop (fuel : Nat) : Noted W txRef (s.pollLoop W cfg fuel).1 := by
  induction fuel generalizing s with
  | zero => exact h
  | succ fuel ih =>
    have hpoll := h.pollOnce cfg
    unfold JoinWait.pollLoop
    split <;> rename_i hout <;> rw [hout] at hpoll
    · exact hpoll
    · exact hpoll
    · exact ih hpoll

end

theorem pollLoop_unjoinable (fuel : Nat)
    (h : (s.pollLoop W cfg fuel).2 = .unjoinable) : (s.pollLoop W cfg fuel).1.giveUp W = .unjoinable := by
  induction fuel generalizing s with
  | zero => exact h
  | succ fuel ih =>
    unfold JoinWait.pollLoop at h ⊢
    split at h
    · exact h
    · exact nomatch h
    · exact ih h

/-- A join that ends unjoinable was refused by every archive that discovery shows at its end. -/
theorem mem_refused_of_giveUp (h : s.giveUp W = .unjoinable) : ∀ a ∈ W.archives s.now, a ∈ s.refused := by
  unfold giveUp at h
  split at h
  next hcovers =>
    cases hr : s.recovery with
    | none => simp [covers, hr] at hcovers
    | some r =>
      intro a ha
      have hall : ∀ a ∈ W.archives s.now, a ∈ s.refused := by
        simpa [hr] using (Bool.and_eq_true_iff.1 hcovers).2
      exact hall a ha
  · exact nomatch h

theorem run_unjoinable (hnew : Noted W txRef s) (h : (s.run W cfg).2 = .unjoinable) :
    Noted W txRef (s.run W cfg).1 ∧ (s.run W cfg).1.giveUp W = .unjoinable := by
  unfold run at h ⊢
  split at h
  · exact nomatch h
  · dsimp only at h ⊢
    have hwait := hnew.waitFor cfg
      (if s.recovery.isSome then min cfg.joinRefetchAfter cfg.joinTimeout else cfg.joinTimeout)
    split at h
    · exact nomatch h
    next hout =>
      rw [hout] at hwait
      exact ⟨hwait.pollLoop cfg _, pollLoop_unjoinable cfg _ h⟩

end

/-- **Only lost data is declared unjoinable.** In every world and for every join whose refetches read no null
limit, a join ends unjoinable only if each archive that discovery shows at the end refused the range during the
join, at a moment at which none of its recordings of the session held the wanted byte. And where a recording of
the asked archive holds that byte and no call fails, the refetch plans a replay of a recording that holds it,
from exactly that position. -/
theorem unjoinable_only_if_lost (W : World) (cfg : JoinConfig) (txRef : TxRef) :
    (∀ (recovery : Option ArchiveRefetcher) (started : Nat),
      let out := (new cfg recovery txRef started).run W cfg
      (∀ l ∈ out.1.limits, 0 ≤ l.position) → out.2 = .unjoinable →
        ∀ a ∈ W.archives out.1.now, Lost W txRef out.1.asks a)
    ∧ (∀ (r r₁ : ArchiveRefetcher) (a : String) (rec : Recording), (∀ t, W.fails t = none) →
      r.ensureSession W (W.archives r.now) = (r₁, .ok a) → rec ∈ W.catalog r₁.now a →
      rec.sessionId = txRef.txDataSessionId → rec.Holds txRef.txDataPosition →
        ∃ found plan, (r.planTxData W (wanted cfg txRef)).2 = .ok (some (found, plan))
          ∧ found.found = .ofCatalog rec
          ∧ rawPosition rec.recordingId rec.layout txRef.txDataPosition = .ok plan.fromRaw ∧ 0 < plan.len) := by
  refine ⟨fun recovery started hlimits h a ha => ?_, fun r r₁ a rec hfails hasked hrec hsession hholds => ?_⟩
  · have hnew : Noted W txRef (new cfg recovery txRef started) :=
      ⟨rfl, fun _ a ha => absurd ha not_mem_nil⟩
    obtain ⟨hnoted, hgave⟩ := run_unjoinable cfg hnew h
    exact hnoted.refused hlimits a (mem_refused_of_giveUp hgave a ha)
  · exact planTxData_of_holds hfails hasked hrec hsession hholds

/-! ## One archive with one recording -/

/-- One archive that discovery always shows, with one recording, and calls that fail at the moments `fails`. -/
def oneRecording (rec : Recording) (fails : Nat → Option String) (hrec : 0 ≤ rec.position) : World where
  archives _ := ["a"]
  catalog _ _ := [rec]
  fails := fails
  delay _ := 0
  delivered _ := 0
  buffered _ := none
  wellFormed _ _ := by
    refine ⟨by simp, by simpa using hrec, by simp, fun r hr r' hr' _ hlt => ?_⟩
    rw [mem_singleton.1 hr, mem_singleton.1 hr'] at hlt
    exact absurd hlt (lt_irrefl _)
  grows _ _ _ _ r hr := ⟨r, hr, rfl, rfl, rfl, rfl, le_rfl, fun _ => rfl⟩

/-- A recording of the first thousand bytes of session 0. -/
def firstBytes (live : Bool) : Recording := ⟨0, 0, 65536, 0, 0, 1000, live⟩

/-- A budget of five moments: one wait and one refetch. -/
def shortBudget : JoinConfig := ⟨5, 1, 0, 0⟩

/-- A client with no session yet. -/
def freshClient : ArchiveRefetcher := ⟨none, 0, 0, []⟩

/-- A reference to the byte at an offset of the first term of session 0. -/
def refAt (offset : Int32) : TxRef := ⟨0, 0, ⟨0, offset⟩, 0⟩

/-- A recording that ended before the reference, and one that holds it. -/
theorem unjoinable_only_if_lost_of_ended :
    Lost (oneRecording (firstBytes false) (fun _ => none) (by decide)) (refAt 2000)
        ((new shortBudget (some freshClient) (refAt 2000) 0).run
          (oneRecording (firstBytes false) (fun _ => none) (by decide)) shortBudget).1.asks "a"
      ∧ ∃ found plan,
        (freshClient.planTxData (oneRecording (firstBytes true) (fun _ => none) (by decide))
          (wanted shortBudget (refAt 500))).2 = .ok (some (found, plan)) ∧ 0 < plan.len := by
  constructor
  · exact (unjoinable_only_if_lost (oneRecording (firstBytes false) (fun _ => none) (by decide)) shortBudget
      (refAt 2000)).1 (some freshClient) 0 (by decide +kernel) (by decide +kernel) "a" (by decide +kernel)
  · obtain ⟨found, plan, hplan, -, -, hlen⟩ := (unjoinable_only_if_lost
      (oneRecording (firstBytes true) (fun _ => none) (by decide)) shortBudget (refAt 500)).2 freshClient
      ⟨some "a", 0, 1, []⟩ "a" (firstBytes true) (fun _ => rfl) rfl mem_cons_self rfl
      ⟨500, by decide +kernel, by decide, by decide⟩
    exact ⟨found, plan, hplan, hlen⟩

/-- The call for the position of a live recording fails once; the null stop position then reads as an end
before every position, and the join is unjoinable although the archive holds the byte all the time. -/
theorem live_recording_declared_lost :
    ∃ (W : World) (cfg : JoinConfig) (txRef : TxRef) (recovery : Option ArchiveRefetcher),
      ((new cfg recovery txRef 0).run W cfg).2 = .unjoinable
        ∧ ∃ a ∈ W.archives ((new cfg recovery txRef 0).run W cfg).1.now, ∀ t, ∃ rec ∈ W.catalog t a,
          rec.sessionId = txRef.txDataSessionId ∧ rec.Holds txRef.txDataPosition := by
  refine ⟨oneRecording (firstBytes true) (fun t => if t = 3 then some "timed out" else none) (by decide),
    shortBudget, refAt 500, some freshClient, by decide +kernel, "a", mem_cons_self, fun t => ?_⟩
  exact ⟨firstBytes true, mem_cons_self, rfl, 500, by decide +kernel, by decide, by decide⟩

end JoinWait

end Kardamom.Archive
