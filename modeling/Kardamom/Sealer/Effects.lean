import Kardamom.Sealer.State

/-!
# What a call of the sealer can do

`Effect` lists everything one step can do to the state, each case with the checks that led to it and
with the answer given. `step_effect` is the one place that splits the branches of the entry points:
every invariant of the sealer is proved by cases on `Effect`.

`emitted` reads off an answer what the service then sends out: the forced boundary, if any, before
the entry that forced it.
-/

namespace Kardamom.Sealer.CanonicalSealerState

open DedupWindow VoidLedger Option

/-! ## What a step emits -/

/-- The kinds of canonical entries. -/
inductive EntryKind where
  | record
  | ref
  | void
  | origin (l1Origin : Int64)
  | remoteOrigin
  deriving DecidableEq, Repr

/-- Whether the entry must lead its block. -/
def EntryKind.leads : EntryKind → Bool
  | .origin _ => true
  | .remoteOrigin => true
  | _ => false

/-- A canonical entry: its first index and how many indices it takes. -/
structure Entry where
  kind : EntryKind
  index : Int
  slots : Int
  deriving DecidableEq, Repr

/-- One thing that a step sends out. -/
inductive Emission where
  | entry (e : Entry)
  | boundary (b : Boundary)
  deriving DecidableEq, Repr

/-- The emissions of an origin-advancing record. -/
def emittedAdvance (kind : EntryKind) (slots : Int) (a : OriginAdvance) : List Emission :=
  (a.forced.map Emission.boundary).toList ++ [.entry ⟨kind, a.relayed.index, slots⟩]

/-- Whether the call is a vote, which always has an effect of its own: it drops the votes below the
window. -/
def Op.isVoidRequest : Op → Bool
  | .voidRequest .. => true
  | _ => false

/-- What the service sends out for an answered call, in this order. -/
def emitted : Op → Answer → List Emission
  | .record .., .record (.relayed r) => [.entry ⟨.record, r.index, 1⟩]
  | .voidRequest .., .voidRequest ⟨_, some r⟩ => [.entry ⟨.void, r.index, 1⟩]
  | .carriedRef .., .ref (.index i) => [.entry ⟨.ref, i, 1⟩]
  | .ref .., .ref (.index i) => [.entry ⟨.ref, i, 1⟩]
  | .tick _, .tick b => [.boundary b]
  | .originRecord _ newL1Origin slotCount _ _, .originRecord (.ok (.relayed a)) =>
    emittedAdvance (.origin newL1Origin) slotCount a
  | .remoteOriginRecord _ _ _ slotCount _ _ _ _, .remoteOriginRecord (.relayed a) =>
    emittedAdvance .remoteOrigin slotCount a
  | _, _ => []

/-! ## The effects -/

variable (cfg : SealerConfig) (s : CanonicalSealerState)

/-- The checks of `onRecord` that every relayed record passed. -/
structure Admissible (id : CanonicalId) (deadline : Int) : Prop where
  fresh : id ∉ s.dedup.dedup.keys
  inTime : s.blockNumber ≤ deadline
  room : s.dedup.size < cfg.dedupCapacity

/-- The state after a reference got its index: the replay window holds it. -/
def refOrdered (lane session : UInt32) (position : UInt64) : CanonicalSealerState :=
  { s with
    windows := (s.windows.check .default lane session position s.canonicalCount).1.mark .default
    canonicalCount := s.canonicalCount + 1 }

/-- Everything one step can do: the call, the next state and the answer. -/
inductive Effect : Op → CanonicalSealerState → Answer → Prop where
  /-- A refusal, a duplicate or an exception: the state stays. -/
  | unchanged {op : Op} {ans : Answer} (h : emitted op ans = []) (hop : op.isVoidRequest = false) :
      Effect op s ans
  | inserted {id : CanonicalId} {deadline : Int} (h : Admissible cfg s id deadline) :
      Effect (.firstSeen id deadline) (s.insertFresh cfg id deadline) (.firstSeen .fresh)
  /-- The contiguity guard refuses; the lookup made the sender the most recent one. -/
  | nonceRejected {id : CanonicalId} {sender : Sender} {nonce expected : UInt64} {deadline : Int}
      {payload : Bytes} (hs : sender ≠ zeroSender)
      (he : s.expectedNonce.get? sender = some expected) (hne : expected ≠ nonce) :
      Effect (.record id sender nonce deadline payload)
        { s with expectedNonce := s.expectedNonce.touch sender }
        (.record (.contiguityReject expected))
  | recordZero {id : CanonicalId} {nonce : UInt64} {deadline : Int} {payload : Bytes}
      (h : Admissible cfg s id deadline) :
      Effect (.record id zeroSender nonce deadline payload)
        { s.insertFresh cfg id deadline with canonicalCount := s.canonicalCount + 1 }
        (.record (.relayed ⟨s.canonicalCount, payload⟩))
  | recordFrom {id : CanonicalId} {sender : Sender} {nonce : UInt64} {deadline : Int}
      {payload : Bytes} (h : Admissible cfg s id deadline) (hs : sender ≠ zeroSender)
      (hlag : s.recordLagHalted cfg = false) (hda : s.daLagHalted cfg = false)
      (hn : ∀ expected, s.expectedNonce.get? sender = some expected → expected = nonce) :
      Effect (.record id sender nonce deadline payload) { s.insertFresh cfg id deadline with
          expectedNonce := putNonce cfg.dedupCapacity s.expectedNonce sender (nonce + 1)
          voids := s.voids.onReference cfg.voids s.canonicalCount id sender nonce
          canonicalCount := s.canonicalCount + 1 }
        (.record (.relayed ⟨s.canonicalCount, payload⟩))
  | voted {voterId index : Int} {txHash : CanonicalId} {l : VoidLedger} {vote : Vote}
      (h : s.voids.onVote cfg.voids voterId index txHash s.canonicalCount = (l, ⟨vote, none⟩))
      (hv : vote ≠ .decided) :
      Effect (.voidRequest voterId index txHash) { s with voids := l } (.voidRequest ⟨vote, none⟩)
  | voided {voterId index : Int} {txHash : CanonicalId} {l : VoidLedger} {entry : VoidEntry}
      (h : s.voids.onVote cfg.voids voterId index txHash s.canonicalCount
        = (l, ⟨.decided, some entry⟩)) :
      Effect (.voidRequest voterId index txHash) ({ s with voids := l }.appendVoid entry).1
        (.voidRequest ⟨.decided, some ⟨s.canonicalCount, payload entry⟩⟩)
  | activated {activation : FeatureActivation} :
      Effect (.featureActivation activation) (s.onFeatureActivation cfg activation).1
        (.featureActivation (s.onFeatureActivation cfg activation).2)
  /-- The window or a guard refuses a reference; the window remembers that it was offered. -/
  | refRefused {op : Op} {lane session : UInt32} {position : UInt64} {o : RefOutcome}
      (hop : op = .carriedRef lane session position ∨ ∃ id, op = .ref lane session position id)
      (ho : ∀ i, o ≠ .index i) :
      Effect op { s with
          windows := (s.windows.check .default lane session position s.canonicalCount).1 }
        (.ref o)
  | carriedRefOrdered {lane session : UInt32} {position : UInt64} :
      Effect (.carriedRef lane session position) (s.refOrdered lane session position)
        (.ref (.index s.canonicalCount))
  | refOrdered {lane session : UInt32} {position : UInt64} {id : CanonicalId} :
      Effect (.ref lane session position id) { s.refOrdered lane session position with
          voids := s.voids.onReference cfg.voids s.canonicalCount id zeroSender 0 }
        (.ref (.index s.canonicalCount))
  | ticked {clock : Int} : Effect (.tick clock) (s.onTick clock).1 (.tick (s.onTick clock).2)
  | originAdopted {id : CanonicalId} {newL1Origin : Int64} {slotCount : Int} {payload : Bytes}
      {clock : Int} (hslots : 1 ≤ slotCount) (hfresh : id ∉ s.dedup.dedup.keys)
      (hadv : s.l1Origin < newL1Origin)
      (hgap : 0 < s.l1Origin → newL1Origin = s.l1Origin + 1) :
      Effect (.originRecord id newL1Origin slotCount payload clock)
        { (s.leadBlock cfg id clock).1 with
          l1Origin := newL1Origin
          canonicalCount := s.canonicalCount + slotCount }
        (.originRecord (.ok (.relayed ⟨(s.leadBlock cfg id clock).2, ⟨s.canonicalCount, payload⟩⟩)))
  | remoteAdopted {id : CanonicalId} {chain anchor : UInt64} {slotCount : Int}
      {firstSeq lastSeq : UInt64} {payload : Bytes} {clock : Int}
      (hfresh : id ∉ s.dedup.dedup.keys) (hallow : chain ∈ cfg.remoteOriginAllowlist)
      (hrange : firstSeq ≤ lastSeq) (hslots : slotCount = (lastSeq - firstSeq).toNat + 2)
      (hpeer : ∀ peer, s.remoteOrigins.get? chain = some peer →
        (peer.nextSeqKnown = true → peer.nextSeq = firstSeq) ∧ peer.anchorNumber < anchor) :
      Effect (.remoteOriginRecord id chain anchor slotCount firstSeq lastSeq payload clock)
        { (s.leadBlock cfg id clock).1 with
          remoteOrigins := s.remoteOrigins.put chain ⟨anchor, true, lastSeq + 1⟩
          canonicalCount := s.canonicalCount + slotCount }
        (.remoteOriginRecord (.relayed ⟨(s.leadBlock cfg id clock).2, ⟨s.canonicalCount, payload⟩⟩))
  | posted {postedHead : Int} (h : s.postedHead < postedHead) (hle : postedHead ≤ s.sealedHead) :
      Effect (.postedCursor postedHead) { s with postedHead := postedHead } (.cursor (.ok true))
  | recorded {executorId : Int} {recordedThrough : UInt64} {r : RecordedCursors} {moved : Bool}
      (hv : cfg.voids.isVoter executorId = true) :
      Effect (.recordedCursor executorId recordedThrough) { s with recorded := r }
        (.cursor (.ok moved))
  | seedConfirmed {digest : CanonicalId} {moved : Bool} (h : s.seedStatus ≠ .genesis) :
      Effect (.seedEpoch digest) { s with seedStatus := .confirmed } (.cursor (.ok moved))

variable {cfg s}

/-! ## Every step is one of them -/

theorem admissible_of_checks {id : CanonicalId} {deadline : Int}
    (h1 : ¬ s.dedup.containsKey id = true) (h2 : ¬ deadline < s.blockNumber)
    (h3 : ¬ cfg.dedupCapacity ≤ s.dedup.size) : Admissible cfg s id deadline :=
  ⟨fun h => h1 (containsKey_iff.2 h), by omega, by omega⟩

theorem isZeroSender_iff {sender : Sender} : isZeroSender sender = true ↔ sender = zeroSender := by
  simp [isZeroSender]

theorem onRecord_effect (id : CanonicalId) (sender : Sender) (nonce : UInt64) (deadline : Int)
    (payload : Bytes) :
    Effect cfg s (.record id sender nonce deadline payload)
      (s.onRecord cfg id sender nonce deadline payload).1
      (.record (s.onRecord cfg id sender nonce deadline payload).2) := by
  unfold onRecord
  split
  · exact .unchanged rfl rfl
  next hdup =>
  split
  · exact .unchanged rfl rfl
  next hdl =>
  split
  · exact .unchanged rfl rfl
  next hlag =>
  split
  · exact .unchanged rfl rfl
  next hda =>
  split
  · exact .unchanged rfl rfl
  next hroom =>
  have hadm := admissible_of_checks hdup hdl hroom
  split
  next hz =>
    rw [isZeroSender_iff] at hz
    subst hz
    exact .recordZero hadm
  next hz =>
    have hs : sender ≠ zeroSender := fun h => hz (isZeroSender_iff.2 h)
    have hzf : isZeroSender sender = false := by simpa using hz
    simp only [hzf, Bool.not_eq_true] at hlag hda
    split
    next expected he =>
      split
      next hne => exact .nonceRejected hs he hne
      next heq =>
        have heq : expected = nonce := by simpa using heq
        have hput : putNonce cfg.dedupCapacity (s.expectedNonce.touch sender) sender (nonce + 1)
            = putNonce cfg.dedupCapacity s.expectedNonce sender (nonce + 1) := by
          simp [putNonce]
        simp only [hput]
        refine .recordFrom hadm hs hlag hda fun e h => ?_
        rw [he] at h
        exact (some.inj h).symm.trans heq
    next he =>
      refine .recordFrom hadm hs hlag hda fun e h => ?_
      rw [he] at h
      cases h

theorem onVoidRequest_effect (voterId index : Int) (txHash : CanonicalId) :
    Effect cfg s (.voidRequest voterId index txHash) (s.onVoidRequest cfg voterId index txHash).1
      (.voidRequest (s.onVoidRequest cfg voterId index txHash).2) := by
  unfold onVoidRequest
  rcases onVote_cases cfg.voids s.voids voterId index txHash s.canonicalCount with
    ⟨-, h⟩ | ⟨-, -, h⟩ | ⟨-, -, -, h⟩ | ⟨-, -, -, h⟩
  · rw [h]
    exact .voted h Vote.noConfusion
  · rw [h]
    exact .voided h
  · rw [h]
    exact .voted h Vote.noConfusion
  · rw [h]
    exact .voted h Vote.noConfusion

/-- What `onCarriedRef` does: refused after the window was asked, or ordered. -/
theorem onCarriedRef_cases (cfg : SealerConfig) (s : CanonicalSealerState)
    (lane session : UInt32) (position : UInt64) :
    (∃ o : RefOutcome, (∀ i, o ≠ .index i) ∧ s.onCarriedRef cfg lane session position = ({ s with
            windows := (s.windows.check .default lane session position s.canonicalCount).1 }, o)) ∨
      s.onCarriedRef cfg lane session position
        = (s.refOrdered lane session position, .index s.canonicalCount) := by
  unfold onCarriedRef
  dsimp only
  split
  · exact .inl ⟨.duplicate, by simp, rfl⟩
  · exact .inl ⟨.expired, by simp, rfl⟩
  · split
    · exact .inl ⟨.recordLag, by simp, rfl⟩
    · split
      · exact .inl ⟨.daLag, by simp, rfl⟩
      · exact .inr rfl

section

variable (lane session : UInt32) (position : UInt64)

theorem onCarriedRef_effect :
    Effect cfg s (.carriedRef lane session position) (s.onCarriedRef cfg lane session position).1
      (.ref (s.onCarriedRef cfg lane session position).2) := by
  rcases onCarriedRef_cases cfg s lane session position with ⟨o, ho, h⟩ | h
  · rw [h]
    exact .refRefused (.inl rfl) ho
  · rw [h]
    exact .carriedRefOrdered

theorem onRef_effect (id : CanonicalId) :
    Effect cfg s (.ref lane session position id) (s.onRef cfg lane session position id).1
      (.ref (s.onRef cfg lane session position id).2) := by
  unfold onRef
  rcases onCarriedRef_cases cfg s lane session position with ⟨o, ho, h⟩ | h
  · rw [h]
    cases o with
    | index i => exact absurd rfl (ho i)
    | _ => exact .refRefused (.inr ⟨id, rfl⟩) ho
  · rw [h]
    exact .refOrdered

end

section

variable (cfg s) (key : CanonicalId) (clock : Int)

/-- Leading a block stamps a boundary exactly when the open block holds a record. -/
theorem leadBlock_cases :
    (s.lastBoundaryCount < s.canonicalCount ∧ (s.leadBlock cfg key clock).1
        = ((s.insertFresh cfg key (s.assignedDeadline cfg)).onTick clock).1) ∨
      (¬ s.lastBoundaryCount < s.canonicalCount ∧
        (s.leadBlock cfg key clock).1 = s.insertFresh cfg key (s.assignedDeadline cfg)) := by
  unfold leadBlock
  by_cases h : s.lastBoundaryCount < s.canonicalCount
  · exact .inl ⟨h, by rw [if_pos h]⟩
  · exact .inr ⟨h, by rw [if_neg h]⟩

/-- Leading a block takes no index. -/
theorem leadBlock_canonicalCount :
    (s.leadBlock cfg key clock).1.canonicalCount = s.canonicalCount := by
  unfold leadBlock
  split <;> rfl

theorem leadBlock_remoteOrigins :
    (s.leadBlock cfg key clock).1.remoteOrigins = s.remoteOrigins := by
  unfold leadBlock
  split <;> rfl

end

theorem onOriginRecord_effect (id : CanonicalId) (newL1Origin : Int64) (slotCount : Int)
    (payload : Bytes) (clock : Int) :
    Effect cfg s (.originRecord id newL1Origin slotCount payload clock)
      (s.onOriginRecord cfg id newL1Origin slotCount payload clock).1
      (.originRecord (s.onOriginRecord cfg id newL1Origin slotCount payload clock).2) := by
  unfold onOriginRecord
  split
  · exact .unchanged rfl rfl
  next hslots =>
  split
  · exact .unchanged rfl rfl
  next hdup =>
  split
  · exact .unchanged rfl rfl
  next hadv =>
  split
  · exact .unchanged rfl rfl
  next hgap =>
  have hfresh : id ∉ s.dedup.dedup.keys := fun h => hdup (containsKey_iff.2 h)
  have hnext : 0 < s.l1Origin → newL1Origin = s.l1Origin + 1 := fun h =>
    by_contra fun hne => hgap ⟨h, hne⟩
  dsimp only
  rw [leadBlock_canonicalCount]
  exact .originAdopted (by omega) hfresh (Int64.not_le.1 hadv) hnext

theorem onRemoteOriginRecord_effect (id : CanonicalId) (chain anchor : UInt64) (slotCount : Int)
    (firstSeq lastSeq : UInt64) (payload : Bytes) (clock : Int) :
    Effect cfg s (.remoteOriginRecord id chain anchor slotCount firstSeq lastSeq payload clock)
      (s.onRemoteOriginRecord cfg id chain anchor slotCount firstSeq lastSeq payload clock).1
      (.remoteOriginRecord
        (s.onRemoteOriginRecord cfg id chain anchor slotCount firstSeq lastSeq payload clock).2) := by
  unfold onRemoteOriginRecord
  split
  · exact .unchanged rfl rfl
  next hdup =>
  split
  · exact .unchanged rfl rfl
  next hallow =>
  split
  · exact .unchanged rfl rfl
  next hrange =>
  split
  · exact .unchanged rfl rfl
  next hspan =>
  split
  · exact .unchanged rfl rfl
  next hslots =>
  have hfresh : id ∉ s.dedup.dedup.keys := fun h => hdup (containsKey_iff.2 h)
  have hallow : chain ∈ cfg.remoteOriginAllowlist := by simpa using hallow
  -- what is left of the checks is about the peer's entry
  have hadopt : ∀ hpeer : ∀ peer, s.remoteOrigins.get? chain = some peer →
      (peer.nextSeqKnown = true → peer.nextSeq = firstSeq) ∧ peer.anchorNumber < anchor,
      Effect cfg s (.remoteOriginRecord id chain anchor slotCount firstSeq lastSeq payload clock)
        (onRemoteOriginRecord.adopt cfg s id chain anchor slotCount lastSeq payload clock).1
        (.remoteOriginRecord
          (onRemoteOriginRecord.adopt cfg s id chain anchor slotCount lastSeq payload clock).2) := by
    intro hpeer
    unfold onRemoteOriginRecord.adopt
    dsimp only
    rw [leadBlock_canonicalCount, leadBlock_remoteOrigins]
    exact .remoteAdopted hfresh hallow (UInt64.not_lt.1 hrange) (by simpa using hslots) hpeer
  split
  next peer hget =>
    split
    · exact .unchanged rfl rfl
    next hseq =>
    split
    · exact .unchanged rfl rfl
    next hanchor =>
    refine hadopt fun peer' h => ?_
    rw [hget] at h
    obtain rfl := some.inj h
    exact ⟨fun hk => by_contra fun hne => hseq ⟨hk, hne⟩, UInt64.not_le.1 hanchor⟩
  next hget =>
    refine hadopt fun peer' h => ?_
    rw [hget] at h
    cases h

/-- **Every step is one of the effects.** -/
theorem step_effect (cfg : SealerConfig) (s : CanonicalSealerState) (op : Op) :
    Effect cfg s op (step cfg s op).1 (step cfg s op).2 := by
  cases op with
  | firstSeen id deadline =>
    show Effect cfg s _ (s.firstSeen cfg id deadline).1 (.firstSeen (s.firstSeen cfg id deadline).2)
    unfold firstSeen
    split
    · exact .unchanged rfl rfl
    next hdup =>
    split
    · exact .unchanged rfl rfl
    next hdl =>
    split
    · exact .unchanged rfl rfl
    next hroom => exact .inserted (admissible_of_checks hdup hdl hroom)
  | record id sender nonce deadline payload => exact onRecord_effect id sender nonce deadline payload
  | voidRequest voterId index txHash => exact onVoidRequest_effect voterId index txHash
  | featureActivation activation => exact .activated
  | carriedRef lane session position => exact onCarriedRef_effect lane session position
  | ref lane session position id => exact onRef_effect lane session position id
  | tick clock => exact .ticked
  | originRecord id newL1Origin slotCount payload clock =>
    exact onOriginRecord_effect id newL1Origin slotCount payload clock
  | remoteOriginRecord id chain anchor slotCount firstSeq lastSeq payload clock =>
    exact onRemoteOriginRecord_effect id chain anchor slotCount firstSeq lastSeq payload clock
  | postedCursor postedHead =>
    show Effect cfg s _ (s.onPostedCursor postedHead).1 (.cursor (s.onPostedCursor postedHead).2)
    unfold onPostedCursor
    split
    · exact .unchanged rfl rfl
    next hpast =>
    split
    · exact .unchanged rfl rfl
    next hmove => exact .posted (by omega) (by omega)
  | recordedCursor executorId recordedThrough =>
    show Effect cfg s _ (s.onRecordedCursor cfg executorId recordedThrough).1
      (.cursor (s.onRecordedCursor cfg executorId recordedThrough).2)
    unfold onRecordedCursor
    split
    · exact .unchanged rfl rfl
    next hv =>
    split
    · exact .unchanged rfl rfl
    · exact .recorded (by simpa using hv)
  | seedEpoch digest =>
    show Effect cfg s _ (s.onSeedEpoch digest).1 (.cursor (s.onSeedEpoch digest).2)
    unfold onSeedEpoch
    split
    · exact .unchanged rfl rfl
    next hg =>
    split
    · exact .unchanged rfl rfl
    · exact .seedConfirmed hg

/-- No step gives an index back. -/
theorem Effect.canonicalCount_le {s' : CanonicalSealerState} {op : Op} {ans : Answer}
    (he : Effect cfg s op s' ans) :
    s.canonicalCount ≤ s'.canonicalCount := by
  cases he with
  | recordZero | recordFrom | voided | carriedRefOrdered | refOrdered =>
    exact Int.le_of_lt (Int.lt_succ _)
  | originAdopted | remoteAdopted => exact Int.le_add_of_nonneg_right (by omega)
  | _ => exact le_rfl

end Kardamom.Sealer.CanonicalSealerState
