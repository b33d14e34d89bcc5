import Kardamom.Sealer.Restorable
import Kardamom.Sealer.SwitchRestart

/-!
# A restored state behaves like the one it was taken from

`Alike` relates a running state to the one restored from its snapshot. The fields that the snapshot
holds are equal; the deadline index and the probe table are built anew but hold the same; the switch
may have started over; the cursors and the rules, which decide nothing here, are free. Each call
answers alike and keeps the relation (`Alike.step`), so it holds forever, and
`restored_bisimilar` starts it: every reachable state whose snapshot can be written is alike to
the state that `load` makes of it.
-/

namespace Kardamom.Sealer

open VersionSwitch Machine List Guarded Option BitVec
open SessionWindows (Same same_reloaded)

open ByteCodec CanonicalSealerState DedupWindow Machine List CanonicalSealerState DedupWindow

namespace VersionSwitch

variable {vs vs' : VersionSwitch} {stateOrigin sealedBlockMs : UInt64}

/-- Equal, or one of them started over. -/
def Alike (stateOrigin sealedBlockMs : UInt64) (vs vs' : VersionSwitch) : Prop :=
  vs = vs' ∨ Restarted stateOrigin sealedBlockMs vs vs'

variable (h : Alike stateOrigin sealedBlockMs vs vs')
include h

theorem Alike.advance {stateOrigin' : UInt64}
    (hle : stateOrigin ≤ stateOrigin') : Alike stateOrigin' sealedBlockMs vs vs' :=
  h.imp_right fun hr => hr.advance hle

theorem Alike.version : vs.version = vs'.version := by
  rcases h with rfl | h
  exacts [rfl, h.version.trans h.version'.symm]

theorem Alike.carryWindowRules : vs.carryWindowRules = vs'.carryWindowRules := by
  rcases h with rfl | h
  · rfl
  · rw [VersionSwitch.carryWindowRules, VersionSwitch.carryWindowRules, h.flag, h.flag']
    rfl

theorem Alike.versionAtBoundary (l2Timestamp : UInt64) :
    vs.versionAtBoundary stateOrigin sealedBlockMs l2Timestamp
      = vs'.versionAtBoundary stateOrigin sealedBlockMs l2Timestamp := by
  rcases h with rfl | h
  exacts [rfl, h.versionAtBoundary l2Timestamp]

theorem Alike.atBoundary (l2Timestamp : UInt64) : vs.atBoundary stateOrigin sealedBlockMs l2Timestamp
      = vs'.atBoundary stateOrigin sealedBlockMs l2Timestamp := by
  rcases h with rfl | h
  exacts [rfl, h.atBoundary l2Timestamp]

theorem Alike.onActivation (fileStore : Bool) (activation : FeatureActivation) : Alike stateOrigin sealedBlockMs
        (vs.onActivation fileStore activation stateOrigin sealedBlockMs).1
        (vs'.onActivation fileStore activation stateOrigin sealedBlockMs).1 ∧
      (vs.onActivation fileStore activation stateOrigin sealedBlockMs).2.stripLate
        = (vs'.onActivation fileStore activation stateOrigin sealedBlockMs).2.stripLate := by
  rcases h with rfl | h
  · exact ⟨.inl rfl, rfl⟩
  · exact (h.onActivation fileStore activation).imp_left .inr

end VersionSwitch

namespace CanonicalSealerState

/-- An answer without the report that an activation was late. -/
def Answer.stripLate : Answer → Answer
  | .featureActivation o => .featureActivation o.stripLate
  | a => a

/-- `t` is `s` after a restart. -/
structure Alike (s t : CanonicalSealerState) : Prop where
  rest : t = { s with
    dedup := t.dedup, voids := t.voids, recorded := t.recorded, rules := t.rules
    versions := t.versions, windows := t.windows }
  dedup : t.dedup.dedup = s.dedup.dedup
  agree : s.dedup.Agree
  agree' : t.dedup.Agree
  origin_nonneg : 0 ≤ s.l1Origin
  versions : VersionSwitch.Alike s.l1Origin.toUInt64 (UInt64.ofInt s.lastL2Timestamp) s.versions
    t.versions
  windows : Same .default s.windows t.windows

/-- Two calls answer the same and leave alike states. -/
structure AlikeOut {α : Type} (r r' : CanonicalSealerState × α) : Prop where
  answer : r.2 = r'.2
  alike : Alike r.1 r'.1

variable {cfg : SealerConfig} {s t : CanonicalSealerState}

section

variable (h : Alike s t)
include h

/-- A check that both calls make before anything else. -/
theorem AlikeOut.check {α : Type} {c : Prop} [Decidable c] {a : α} {r r' : CanonicalSealerState × α}
    (hgo : ¬ c → AlikeOut r r') : AlikeOut (if c then (s, a) else r) (if c then (t, a) else r') := by
  split
  · exact ⟨rfl, h⟩
  · exact hgo ‹_›

/-- The parts that need not be equal, as parameters. -/
theorem Alike.exists_rest : ∃ d l r u vs w, t = { s with
    dedup := d, voids := l, recorded := r, rules := u, versions := vs, windows := w } :=
  ⟨_, _, _, _, _, _, h.rest⟩

theorem Alike.containsKey (key : CanonicalId) : t.dedup.containsKey key = s.dedup.containsKey key := by
  rw [DedupWindow.containsKey, h.dedup]
  rfl

theorem Alike.size : t.dedup.size = s.dedup.size := by
  rw [DedupWindow.size, h.dedup]
  rfl

theorem Alike.daLagHalted (cfg : SealerConfig) : t.daLagHalted cfg = s.daLagHalted cfg := by
  rw [h.rest]
  rfl

variable {key : CanonicalId}

/-- Both windows take a new id. -/
theorem Alike.insertFresh (hk : s.dedup.containsKey key = false) (cfg : SealerConfig) (deadline : Int) :
    Alike (s.insertFresh cfg key deadline) (t.insertFresh cfg key deadline) := by
  have hns : key ∉ s.dedup.dedup.keys := LinkedMap.contains_eq_false_iff.1 hk
  have hnt : key ∉ t.dedup.dedup.keys := by rw [h.dedup]; exact hns
  have hagree := DedupWindow.insertFresh_agree h.agree hns
  have hagree' := DedupWindow.insertFresh_agree h.agree' hnt
  have hdedup := h.dedup
  obtain ⟨d, l, r, u, vs, w, rfl⟩ := h.exists_rest
  refine ⟨rfl, ?_, hagree _, hagree' _, h.origin_nonneg, h.versions, h.windows⟩
  show d.dedup.put key _ = s.dedup.dedup.put key _
  rw [hdedup]
  rfl

/-- Both stamp the same boundary, and prune the same ids. -/
theorem Alike.onTick (clock : Int) : AlikeOut (s.onTick clock) (t.onTick clock) := by
  have hagree := pruneExpired_agree h.agree
  have hagree' := pruneExpired_agree h.agree'
  have hentries := pruneExpired_entries h.agree
  have hentries' := pruneExpired_entries h.agree'
  have hdedup := h.dedup
  have hswitch := h.versions.atBoundary
  obtain ⟨d, l, r, u, vs, w, rfl⟩ := h.exists_rest
  refine ⟨rfl, rfl, LinkedMap.ext ?_, hagree _, hagree' _, h.origin_nonneg, .inl (hswitch _),
    h.windows⟩
  show (d.pruneExpired (s.blockNumber + 1)).dedup.entries
    = (s.dedup.pruneExpired (s.blockNumber + 1)).dedup.entries
  rw [hentries, hentries', hdedup]

theorem Alike.leadBlock (hk : s.dedup.containsKey key = false) (cfg : SealerConfig) (clock : Int) :
    AlikeOut (s.leadBlock cfg key clock) (t.leadBlock cfg key clock) := by
  have hins := h.insertFresh hk cfg (s.assignedDeadline cfg)
  obtain ⟨d, l, r, u, vs, w, rfl⟩ := h.exists_rest
  unfold leadBlock
  by_cases hne : s.lastBoundaryCount < s.canonicalCount
  · rw [if_pos hne, if_pos hne]
    obtain ⟨hboundary, htick⟩ := hins.onTick clock
    exact ⟨congrArg some hboundary, htick⟩
  · rw [if_neg hne, if_neg hne]
    exact ⟨rfl, hins⟩

/-- The origin moves up, and indices are taken. -/
theorem Alike.adoptOrigin {origin : Int64} (ho : s.l1Origin ≤ origin) (count : Int) :
    Alike { s with l1Origin := origin, canonicalCount := count }
      { t with l1Origin := origin, canonicalCount := count } := by
  have hmono := toUInt64_le_toUInt64 h.origin_nonneg ho
  obtain ⟨d, l, r, u, vs, w, rfl⟩ := h.exists_rest
  exact { h with
    rest := rfl
    origin_nonneg := Int64.le_trans h.origin_nonneg ho
    versions := h.versions.advance hmono }

/-! ## The calls, one by one -/

theorem Alike.firstSeen (cfg : SealerConfig) (id : CanonicalId) (deadline : Int) :
    AlikeOut (s.firstSeen cfg id deadline) (t.firstSeen cfg id deadline) := by
  have hkey := h.containsKey id
  have hsize := h.size
  have hins : s.dedup.containsKey id = false → _ := fun hk => h.insertFresh hk cfg deadline
  obtain ⟨d, l, r, u, vs, w, rfl⟩ := h.exists_rest
  unfold firstSeen
  rw [hkey, hsize]
  exact .check h fun hdup => .check h fun _ => .check h fun _ => ⟨rfl, hins (by simpa using hdup)⟩

omit h in
/-- With no budget the record-lag guard is off. -/
theorem recordLagHalted_eq_false (hr : cfg.recordLagBudget = 0) (s : CanonicalSealerState) :
    s.recordLagHalted cfg = false := by
  simp [recordLagHalted, RecordedCursors.halted, hr]

theorem Alike.relayFresh (hk : s.dedup.containsKey key = false)
    (cfg : SealerConfig) (deadline : Int) (payload : Bytes) :
    AlikeOut (s.relayFresh cfg key deadline payload) (t.relayFresh cfg key deadline payload) := by
  have hins := h.insertFresh hk cfg deadline
  obtain ⟨d, l, r, u, vs, w, rfl⟩ := h.exists_rest
  exact ⟨rfl, hins.adoptOrigin (Int64.le_refl _) _⟩

/-- The nonce guard and the void ledger move on. -/
theorem Alike.guard (m : LinkedMap Sender UInt64) (l l' : VoidLedger) :
    Alike { s with expectedNonce := m, voids := l } { t with expectedNonce := m, voids := l' } := by
  obtain ⟨d, _, r, u, vs, w, rfl⟩ := h.exists_rest
  exact { h with rest := rfl }

theorem Alike.onRecord (hr : cfg.recordLagBudget = 0) (id : CanonicalId)
    (sender : Sender) (nonce : UInt64) (deadline : Int) (payload : Bytes) :
    AlikeOut (s.onRecord cfg id sender nonce deadline payload)
      (t.onRecord cfg id sender nonce deadline payload) := by
  have hkey := h.containsKey id
  have hsize := h.size
  have hlag := recordLagHalted_eq_false hr s
  have hlag' := recordLagHalted_eq_false hr t
  obtain ⟨d, l, r, u, vs, w, rfl⟩ := h.exists_rest
  unfold onRecord
  rw [hkey, hsize, hlag, hlag']
  dsimp only
  refine .check h fun hdup => .check h fun _ => .check h fun _ => .check h fun _ => .check h fun _ => ?_
  have hk : s.dedup.containsKey id = false := by simpa using hdup
  split
  · exact h.relayFresh hk cfg deadline payload
  split
  · split
    · exact ⟨rfl, h.guard _ s.voids l⟩
    · refine Alike.relayFresh (h.guard _ _ _) ?_ cfg deadline payload
      exact hk
  · refine Alike.relayFresh (h.guard _ _ _) ?_ cfg deadline payload
    exact hk

theorem Alike.onVoidRequest (hv : cfg.voids.voterMask = 0) (voterId index : Int) (txHash : CanonicalId) :
    AlikeOut (s.onVoidRequest cfg voterId index txHash) (t.onVoidRequest cfg voterId index txHash) := by
  obtain ⟨d, l, r, u, vs, w, rfl⟩ := h.exists_rest
  unfold onVoidRequest
  rw [VoidLedger.onVote_of_disabled hv, VoidLedger.onVote_of_disabled hv]
  exact ⟨rfl, { h with rest := rfl }⟩

/-- The windows decide a reference alike. -/
theorem Alike.onCarriedRef (hr : cfg.recordLagBudget = 0) (lane session : UInt32) (position : UInt64) :
    AlikeOut (s.onCarriedRef cfg lane session position) (t.onCarriedRef cfg lane session position) := by
  obtain ⟨hseen, hsame, hslot, hunit, hlt⟩ := h.windows.check lane session position s.canonicalCount
  obtain ⟨d, l, r, u, vs, w, rfl⟩ := h.exists_rest
  unfold onCarriedRef
  dsimp only at hseen ⊢
  rw [← hseen]
  have hwindows : ∀ {w w'}, Same .default w w' → Alike { s with windows := w } { s with
        dedup := d, voids := l, recorded := r, rules := u, versions := vs, windows := w' } :=
    fun hw => { h with rest := rfl, windows := hw }
  split
  · exact ⟨rfl, hwindows hsame⟩
  · exact ⟨rfl, hwindows hsame⟩
  · rw [recordLagHalted_eq_false hr, recordLagHalted_eq_false hr, (hwindows hsame).daLagHalted cfg]
    simp only [Bool.false_eq_true, if_false]
    split
    · exact ⟨rfl, hwindows hsame⟩
    · exact ⟨rfl, (hwindows (hsame.mark hslot hunit hlt)).adoptOrigin (Int64.le_refl _) _⟩

section

variable (cfg : SealerConfig)

theorem Alike.onFeatureActivation (activation : FeatureActivation) :
    (s.onFeatureActivation cfg activation).2.stripLate
        = (t.onFeatureActivation cfg activation).2.stripLate ∧
      Alike (s.onFeatureActivation cfg activation).1 (t.onFeatureActivation cfg activation).1 := by
  obtain ⟨hswitch, hout⟩ := h.versions.onActivation cfg.fileStore activation
  obtain ⟨d, l, r, u, vs, w, rfl⟩ := h.exists_rest
  exact ⟨hout, { h with rest := rfl, versions := hswitch }⟩

theorem Alike.onOriginRecord (id : CanonicalId)
    (newL1Origin : Int64) (slotCount : Int) (payload : Bytes) (clock : Int) :
    AlikeOut (s.onOriginRecord cfg id newL1Origin slotCount payload clock)
      (t.onOriginRecord cfg id newL1Origin slotCount payload clock) := by
  have hkey := h.containsKey id
  have horigin : t.l1Origin = s.l1Origin := by rw [h.rest]
  unfold CanonicalSealerState.onOriginRecord
  rw [hkey, horigin]
  refine .check h fun _ => .check h fun hdup => .check h fun hadv => .check h fun _ => ?_
  obtain ⟨hforced, hlead⟩ := h.leadBlock (by simpa using hdup) cfg clock
  have hcount : (t.leadBlock cfg id clock).1.canonicalCount
      = (s.leadBlock cfg id clock).1.canonicalCount := by rw [hlead.rest]
  have hbefore : (s.leadBlock cfg id clock).1.l1Origin = s.l1Origin := by
    rcases leadBlock_cases cfg s id clock with ⟨-, hl⟩ | ⟨-, hl⟩ <;> rw [hl] <;> rfl
  have hle : (s.leadBlock cfg id clock).1.l1Origin ≤ newL1Origin :=
    hbefore ▸ Int64.le_of_lt (Int64.not_le.1 hadv)
  have hadopt := hlead.adoptOrigin hle ((s.leadBlock cfg id clock).1.canonicalCount + slotCount)
  dsimp only
  rw [hcount, ← hforced]
  exact ⟨rfl, hadopt⟩

theorem Alike.onRemoteOriginRecord (id : CanonicalId)
    (chain anchor : UInt64) (slotCount : Int) (firstSeq lastSeq : UInt64) (payload : Bytes)
    (clock : Int) :
    AlikeOut (s.onRemoteOriginRecord cfg id chain anchor slotCount firstSeq lastSeq payload clock)
      (t.onRemoteOriginRecord cfg id chain anchor slotCount firstSeq lastSeq payload clock) := by
  have hkey := h.containsKey id
  have hpeers : t.remoteOrigins = s.remoteOrigins := by rw [h.rest]
  have hadopt : s.dedup.containsKey id = false →
      AlikeOut (onRemoteOriginRecord.adopt cfg s id chain anchor slotCount lastSeq payload clock)
        (onRemoteOriginRecord.adopt cfg t id chain anchor slotCount lastSeq payload clock) := by
    intro hk
    obtain ⟨hforced, hlead⟩ := h.leadBlock hk cfg clock
    unfold onRemoteOriginRecord.adopt
    dsimp only
    rw [← hforced]
    obtain ⟨d, l, r, u, vs, w, hrest⟩ := hlead.exists_rest
    rw [hrest] at hlead ⊢
    exact ⟨rfl, { hlead with rest := rfl }⟩
  unfold CanonicalSealerState.onRemoteOriginRecord
  rw [hkey, hpeers]
  refine .check h fun hdup => .check h fun _ => .check h fun _ => .check h fun _ => .check h fun _ => ?_
  have hk : s.dedup.containsKey id = false := by simpa using hdup
  split
  · exact .check h fun _ => .check h fun _ => hadopt hk
  · exact hadopt hk

end

theorem Alike.onRef (hr : cfg.recordLagBudget = 0) (lane session : UInt32)
    (position : UInt64) (id : CanonicalId) :
    AlikeOut (s.onRef cfg lane session position id) (t.onRef cfg lane session position id) := by
  obtain ⟨hout, halike⟩ := h.onCarriedRef hr lane session position
  unfold CanonicalSealerState.onRef
  dsimp only
  rw [← hout]
  split
  · obtain ⟨d, l, r, u, vs, w, hrest⟩ := halike.exists_rest
    rw [hrest] at halike ⊢
    exact ⟨rfl, { halike with rest := rfl }⟩
  · exact ⟨rfl, halike⟩

theorem Alike.onPostedCursor (postedHead : Int) :
    AlikeOut (s.onPostedCursor postedHead) (t.onPostedCursor postedHead) := by
  obtain ⟨d, l, r, u, vs, w, rfl⟩ := h.exists_rest
  refine .check h fun _ => .check h fun _ => ?_
  exact ⟨rfl, { h with rest := rfl }⟩

/-- Without voters every cursor is refused. -/
theorem Alike.onRecordedCursor (hv : cfg.voids.voterMask = 0) (executorId : Int) (recordedThrough : UInt64) :
    AlikeOut (s.onRecordedCursor cfg executorId recordedThrough)
      (t.onRecordedCursor cfg executorId recordedThrough) := by
  have hno : cfg.voids.isVoter executorId = false := by simp [VoidConfig.isVoter, hv]
  unfold CanonicalSealerState.onRecordedCursor
  rw [hno]
  exact ⟨rfl, h⟩

theorem Alike.onSeedEpoch (digest : CanonicalId) : AlikeOut (s.onSeedEpoch digest) (t.onSeedEpoch digest) := by
  obtain ⟨d, l, r, u, vs, w, rfl⟩ := h.exists_rest
  refine .check h fun _ => .check h fun _ => ?_
  exact ⟨rfl, { h with rest := rfl }⟩

/-! ## Runs -/

section

variable (hv : cfg.voids.voterMask = 0) (hr : cfg.recordLagBudget = 0)
include hv hr

/-- **Every call answers alike and keeps the states alike.** -/
theorem Alike.step (op : Op) :
    Alike (step cfg s op).1 (step cfg t op).1 ∧
      (step cfg s op).2.stripLate = (step cfg t op).2.stripLate := by
  -- all but an activation give the very same answer
  have hsame : ∀ {α : Type} (f : α → Answer) {r r' : CanonicalSealerState × α}, AlikeOut r r' →
      Alike (answering f r).1 (answering f r').1 ∧
        (answering f r).2.stripLate = (answering f r').2.stripLate :=
    fun f _ _ hrr => ⟨hrr.alike, congrArg (fun a => (f a).stripLate) hrr.answer⟩
  cases op with
  | firstSeen id deadline => exact hsame _ (h.firstSeen cfg id deadline)
  | record id sender nonce deadline payload =>
    exact hsame _ (h.onRecord hr id sender nonce deadline payload)
  | voidRequest voterId index txHash => exact hsame _ (h.onVoidRequest hv voterId index txHash)
  | featureActivation activation =>
    obtain ⟨hout, halike⟩ := h.onFeatureActivation cfg activation
    exact ⟨halike, congrArg Answer.featureActivation hout⟩
  | carriedRef lane session position => exact hsame _ (h.onCarriedRef hr lane session position)
  | ref lane session position id => exact hsame _ (h.onRef hr lane session position id)
  | tick clock => exact hsame _ (h.onTick clock)
  | originRecord id newL1Origin slotCount payload clock =>
    exact hsame _ (h.onOriginRecord cfg id newL1Origin slotCount payload clock)
  | remoteOriginRecord id chain anchor slotCount firstSeq lastSeq payload clock =>
    exact hsame _
      (h.onRemoteOriginRecord cfg id chain anchor slotCount firstSeq lastSeq payload clock)
  | postedCursor postedHead => exact hsame _ (h.onPostedCursor postedHead)
  | recordedCursor executorId recordedThrough =>
    exact hsame _ (h.onRecordedCursor hv executorId recordedThrough)
  | seedEpoch digest => exact hsame _ (h.onSeedEpoch digest)

theorem Alike.run (later : List Op) :
    Alike (run (CanonicalSealerState.step cfg) s later).1
        (run (CanonicalSealerState.step cfg) t later).1 ∧
      Forall₂ (fun a b => a.1 = b.1 ∧ a.2.stripLate = b.2.stripLate)
        (run (CanonicalSealerState.step cfg) s later).2
        (run (CanonicalSealerState.step cfg) t later).2 :=
  run_simulation (E := fun a b : Answer => a.stripLate = b.stripLate)
    (fun _ _ op h => h.step hv hr op) h later

end

omit h in
/-- The decision versions that a member reports: of the open block, whether the carry window rules
apply in it, and of an origin-advancing record offered now. -/
def decisions (s : CanonicalSealerState) : Nat × Bool × (Int → Nat) :=
  (s.versions.version, s.versions.carryWindowRules, s.decisionVersionOfOriginRecord)

theorem Alike.decisions : s.decisions = t.decisions := by
  have hversion := h.versions.version
  have hrules := h.versions.carryWindowRules
  have hboundary := h.versions.versionAtBoundary
  obtain ⟨d, l, r, u, vs, w, rfl⟩ := h.exists_rest
  refine Prod.ext hversion (Prod.ext hrules (funext fun clock => ?_))
  show s.decisionVersionOfOriginRecord clock = decisionVersionOfOriginRecord _ clock
  unfold decisionVersionOfOriginRecord nextL2Timestamp
  rw [hboundary, hversion]

end

/-- A restorable state and what its snapshot restores. -/
theorem Restorable.alike_reloaded (h : s.Restorable cfg) (voids : VoidLedger) :
    Alike s (s.reloaded voids) := by
  refine ⟨rfl, ?_, h.kept.agree, ?_, h.origin_nonneg, ?_, ?_⟩
  · exact (foldl_insertFresh_dedup _ _).trans (LinkedMap.foldl_put_entries _)
  · exact foldl_insertFresh_agree _ agree_empty (by simpa [empty] using s.dedup.dedup.nodup)
  · show VersionSwitch.Alike _ _ _ (if s.snapshotVersion = snapshotWriteVersion then _ else _)
    rcases s.snapshotVersion_cases with hv | ⟨hv, -⟩ | ⟨hv, -⟩ | ⟨hv, hw, hc, h4⟩ <;> rw [hv]
    · exact .inl rfl
    · exact .inl rfl
    · exact .inl rfl
    · exact .inr (restarted_start h.settled h4 hc hw h.sealed_le _)
  · show Same _ _ (if s.snapshotVersion = snapshotWriteVersion then _ else _)
    have hsame := same_reloaded h.windows.valid
    rcases s.snapshotVersion_cases with hv | ⟨hv, -⟩ | ⟨hv, -⟩ | ⟨hv, -, -, h4⟩ <;> rw [hv]
    · exact hsame
    · exact hsame
    · exact hsame
    · have hempty := h.idle h4
      rw [hempty] at hsame ⊢
      exact hsame

/-- What a restored state must do to stand for the one it was taken from: load, and from then on
answer every sequence of calls alike and decide under the same versions at every step. -/
def Restores (cfg : SealerConfig) (s : CanonicalSealerState) (bytes : Bytes) : Prop :=
  ∃ loaded, load cfg bytes = .ok (loaded, []) ∧ ∀ later : List Op,
    Forall₂ (fun a b => a.1 = b.1 ∧ a.2.stripLate = b.2.stripLate) (run (step cfg) s later).2
        (run (step cfg) loaded later).2 ∧
      (run (step cfg) s later).1.decisions = (run (step cfg) loaded later).1.decisions

theorem Restorable.restores (h : s.Restorable cfg) (hv : cfg.voids.voterMask = 0)
    (hr : cfg.recordLagBudget = 0) (hhorizon : cfg.inclusionHorizonBlocks ≤ 4095)
    (hlong : s.InLongs) {bytes : Bytes} (hbytes : s.takeSnapshot cfg = some bytes) :
    Restores cfg s bytes := by
  unfold takeSnapshot takeSnapshotAt at hbytes
  split at hbytes
  next hlen =>
    obtain rfl := some.inj hbytes
    have hstore := h.storable hlong hhorizon hlen
    obtain ⟨voids, hvoids⟩ := h.reads_voids hlong.canonicalCount
    refine ⟨s.reloaded voids, ?_, fun later => ?_⟩
    · have := reads_snapshot hstore h.settled hvoids []
      rwa [append_nil] at this
    · obtain ⟨halike, hanswers⟩ := (h.alike_reloaded voids).run hv hr later
      exact ⟨hanswers, halike.decisions⟩
  next => cases hbytes

/-- **Snapshot bisimulation.** A state reached from genesis or a seed, whose counters are Java
`long`s, restores from every snapshot that it writes; only the report that an activation was late
may differ. A member whose longest snapshot fits a Java array always writes one. -/
theorem restored_bisimilar {s₀ : CanonicalSealerState} (h₀ : Started cfg s₀)
    (hv : cfg.voids.voterMask = 0) (hr : cfg.recordLagBudget = 0)
    (hhorizon : cfg.inclusionHorizonBlocks ≤ 4095) {ops : List Op}
    (hg : Guarded (step cfg) VersionGated s₀ ops)
    (hs : s = (run (step cfg) s₀ ops).1) (hlong : s.InLongs) :
    (∀ bytes, s.takeSnapshot cfg = some bytes → Restores cfg s bytes) ∧
      (cfg.snapshotBound < 2 ^ 31 → s.takeSnapshot cfg ≠ none) := by
  have hres : s.Restorable cfg := hs ▸ run_restorable h₀ hv hg
  exact ⟨fun bytes hbytes => hres.restores hv hr hhorizon hlong hbytes,
    hres.takeSnapshot_ne_none hlong hv hhorizon⟩

/-- A run that switches to version 4 and orders a reference. -/
def switchingOps : List Op :=
  [.featureActivation ⟨1, 3, 1⟩, .originRecord 7 1 1 [] 1000, .tick 1000, .ref 1 2 64 9]

theorem restored_bisimilar_of_reference :
    ∃ bytes, (run (step .default) genesis switchingOps).1.takeSnapshot .default = some bytes ∧
      Restores .default (run (step .default) genesis switchingOps).1
        bytes := by
  have hg : Guarded (step .default) VersionGated genesis
      switchingOps :=
    ⟨trivial, trivial, trivial, show onVersion ≤ version _ by decide +kernel, trivial⟩
  obtain ⟨hrestores, hsome⟩ := restored_bisimilar .genesis rfl rfl (by decide) hg rfl
    ⟨by decide +kernel, by decide +kernel, by decide +kernel⟩
  obtain ⟨bytes, hbytes⟩ := ne_none_iff_exists'.1 (hsome (by decide))
  exact ⟨bytes, hbytes, hrestores bytes hbytes⟩

/-! ## A window too large for a snapshot -/

/-- The default configuration with a larger dedup window. -/
def wideConfig : SealerConfig :=
  { SealerConfig.default with
    dedupCapacity := 2 ^ 27, dedupCapacity_pos := by decide, dedupCapacity_int := by decide }

/-- `n` distinct ids, offered one after the other. -/
def offers (n : Nat) : List Op := (range n).map fun i => .firstSeen (BitVec.ofNat 256 i) longMax

theorem offers_succ (n : Nat) :
    offers (n + 1) = offers n ++ [.firstSeen (BitVec.ofNat 256 n) longMax] := by
  rw [offers, range_succ, map_append]
  rfl

theorem firstSeen_of_fresh {id : CanonicalId} {deadline : Int} (hk : id ∉ s.dedup.dedup.keys)
    (hd : s.blockNumber ≤ deadline) (hroom : s.dedup.size < cfg.dedupCapacity) :
    s.firstSeen cfg id deadline = (s.insertFresh cfg id deadline, .fresh) := by
  rw [firstSeen, if_neg fun h => hk (containsKey_iff.1 h), if_neg (by omega), if_neg (by omega)]

/-- Each of the ids enters the window. -/
theorem keys_run_offers {n : Nat} (hn : n ≤ cfg.dedupCapacity) :
    ∃ w : DedupWindow, (run (step cfg) genesis (offers n)).1 = { genesis with dedup := w } ∧
      w.dedup.keys = (range n).map (BitVec.ofNat 256) := by
  induction n with
  | zero => exact ⟨.empty, rfl, rfl⟩
  | succ n ih =>
    obtain ⟨w, hrun, hkeys⟩ := ih (by omega)
    have hsize : w.size = n := by
      have := congrArg length hkeys
      simpa [LinkedMap.keys, size, LinkedMap.size] using this
    have hfresh : BitVec.ofNat 256 n ∉ w.dedup.keys := by
      rw [hkeys]
      intro hmem
      obtain ⟨i, hi, heq⟩ := mem_map.1 hmem
      have hi := mem_range.1 hi
      have hint := cfg.dedupCapacity_int
      have hnat := congrArg BitVec.toNat heq
      rw [toNat_ofNat, toNat_ofNat, Nat.mod_eq_of_lt (by omega),
        Nat.mod_eq_of_lt (by omega)] at hnat
      omega
    refine ⟨w.insertFresh (BitVec.ofNat 256 n) (min longMax (genesis.assignedDeadline cfg)), ?_, ?_⟩
    · rw [offers_succ, run_append, hrun]
      exact congrArg Prod.fst (firstSeen_of_fresh (s := { genesis with dedup := w }) hfresh
        (show 1 ≤ longMax by decide) (show w.size < cfg.dedupCapacity by omega))
    · rw [LinkedMap.keys, insertFresh_entries hfresh, map_append, range_succ, map_append]
      exact congrArg (· ++ [BitVec.ofNat 256 n]) hkeys

theorem takeSnapshot_eq_none {version : Int} (h : 2 ^ 31 ≤ s.dedup.size * (32 + 8)) :
    s.takeSnapshotAt cfg version = none := by
  refine if_neg (Nat.not_lt.2 (h.trans ?_))
  simp only [snapshotBytes, putIds, length_append, s.length_ids]
  omega

/-- Offering an id is no reference. -/
theorem gated_offers (cfg : SealerConfig) (n : Nat) :
    Guarded (step cfg) VersionGated genesis (offers n) := by
  refine mono (G := fun _ op => ∃ id d, op = .firstSeen id d) ?_ (of_inputs _ fun op hop => ?_)
  · rintro s _ ⟨id, d, rfl⟩
    trivial
  · obtain ⟨i, -, rfl⟩ := mem_map.1 hop
    exact ⟨_, _, rfl⟩

/-- The size of a snapshot is a Java `int`. A member that is configured with a window of 2^27 ids
reaches a state that holds 2^26 of them, and then has no snapshot to restore from. -/
theorem wide_window_has_no_snapshot :
    wideConfig.voids.voterMask = 0 ∧ wideConfig.recordLagBudget = 0 ∧
      wideConfig.inclusionHorizonBlocks ≤ 4095 ∧
      ∃ ops, Guarded (step wideConfig) VersionGated genesis ops ∧
        (run (step wideConfig) genesis ops).1.InLongs ∧
        (run (step wideConfig) genesis ops).1.takeSnapshot wideConfig = none := by
  refine ⟨rfl, rfl, by decide, offers (2 ^ 26), gated_offers _ _, ?_⟩
  obtain ⟨w, hrun, hkeys⟩ := keys_run_offers (show 2 ^ 26 ≤ wideConfig.dedupCapacity by decide)
  have hsize : w.dedup.size = 2 ^ 26 := by
    rw [LinkedMap.size, ← length_map Prod.fst]
    exact (congrArg length hkeys).trans (by rw [length_map, length_range])
  have hlarge : 2 ^ 31 ≤ w.dedup.size * (32 + 8) := by
    rw [hsize]
    decide
  rw [hrun]
  exact ⟨⟨show (0 : Int) ≤ longMax by decide, show (1 : Int) ≤ longMax by decide,
    show (0 : Int) ≤ longMax by decide⟩, takeSnapshot_eq_none hlarge⟩

end CanonicalSealerState

end Kardamom.Sealer
