import Kardamom.Sealer.Markers
import Kardamom.Sealer.SnapshotRoundTrip

/-!
# Every reachable state can be restored

What the snapshot relies on and no single call shows: the counters stay in order, a replay window
only holds values that its section has room for, a switch without a held activation was never on, and
the windows stay empty until the switch is (`Restorable`). It holds along every run that asks the
replay windows only under the decision versions that use them, so every state of such a run is
`Storable` while its counters fit a Java `long` (`Restorable.storable`).
-/

namespace Kardamom.Sealer

open ByteCodec VersionSwitch List Machine Function LinkedMap UInt64

/-! ## The replay windows -/

namespace SessionWindows

variable {lay : WindowLayout} {w : SessionWindows} {count : Int}

@[simp] theorem length_clearAbove (lay : WindowLayout) (window : List UInt64) (top : Int)
    (unit : Nat) : (clearAbove lay window top unit).length = window.length := by
  unfold clearAbove clearRange clearWords fillZero
  dsimp only
  split
  · simp
  · split
    · simp
    · split <;> simp

/-- What the used slots hold while `count` is the canonical count: a unit is a position in frames of
32 bytes, and an image was last heard of at an earlier count. -/
structure Within (lay : WindowLayout) (count : Int) (w : SessionWindows) : Prop where
  valid : Valid lay w
  highest : ∀ s < w.used, -1 ≤ w.highest s ∧ w.highest s < 2 ^ 59
  lastSeen : ∀ s < w.used, 0 ≤ w.lastSeen s ∧ w.lastSeen s ≤ count
  bits : ∀ s < w.used, (w.bits s).length = lay.wordsPerSlot

theorem within_empty (lay : WindowLayout) (count : Int) : Within lay count empty :=
  ⟨valid_empty lay, by simp [empty], by simp [empty], by simp [empty]⟩

theorem Within.mono (h : Within lay count w) {count' : Int} (hle : count ≤ count') :
    Within lay count' w :=
  ⟨h.valid, h.highest, fun s hs => ⟨(h.lastSeen s hs).1, (h.lastSeen s hs).2.trans hle⟩, h.bits⟩

theorem Within.storable (h : Within lay count w) (hc : count ≤ longMax) : Storable lay w where
  __ := h
  highest s hs := by
    have := h.highest s hs
    unfold longMin longMax
    omega
  lastSeen s hs := by
    have := h.lastSeen s hs
    unfold longMin
    omega

/-- A slot in use after `slotOf` was in use before, or was taken for a new image. -/
theorem slotOf_cases (key : UInt64) {s : Nat} (hs : s < (w.slotOf lay key).1.used) :
    (s < w.used ∧ (w.slotOf lay key).1.highest s = w.highest s ∧
        (w.slotOf lay key).1.bits s = w.bits s ∧
        (w.slotOf lay key).1.lastSeen s = w.lastSeen s) ∨
      (s = (w.slotOf lay key).2 ∧ (w.slotOf lay key).1.highest s = -1 ∧
        (w.slotOf lay key).1.bits s = List.replicate lay.wordsPerSlot 0) := by
  unfold slotOf at hs ⊢
  cases hfind : w.find lay key with
  | some slot =>
    rw [hfind] at hs
    exact .inl ⟨hs, rfl, rfl, rfl⟩
  | none =>
    rw [hfind] at hs
    obtain ⟨h1, h2, h3⟩ := freeSlot_highest lay w
    by_cases hslot : s = (w.freeSlot lay).2
    · exact .inr ⟨hslot, by simp [takeSlot, hslot], by simp [takeSlot, hslot]⟩
    · exact .inl ⟨Valid.used_of_freeSlot hs hslot, by simp [takeSlot, hslot, h1],
        by simp [takeSlot, hslot, h3], by simp [takeSlot, h2]⟩

theorem Within.check (h : Within lay count w) {now : Int} (h0 : 0 ≤ now) (hle : now ≤ count)
    (lane session : UInt32) (position : UInt64) :
    Within lay count (w.check lay lane session position now).1 := by
  refine ⟨(h.valid.slotOf _).1.remember .., fun s hs => ?_, fun s hs => ?_, fun s hs => ?_⟩
  · rcases slotOf_cases (keyOf lane session) hs with ⟨hold, heq, -, -⟩ | ⟨-, heq, -⟩
    · exact heq ▸ h.highest s hold
    · show -1 ≤ (w.slotOf lay (keyOf lane session)).1.highest s ∧
        (w.slotOf lay (keyOf lane session)).1.highest s < 2 ^ 59
      rw [heq]
      decide
  · simp only [SessionWindows.check, remember]
    by_cases hslot : s = (w.slotOf lay (keyOf lane session)).2
    · rw [hslot, update_self]
      exact ⟨h0, hle⟩
    · rw [update_of_ne hslot]
      rcases slotOf_cases (keyOf lane session) hs with ⟨hold, -, -, heq⟩ | ⟨hnew, -⟩
      · exact heq ▸ h.lastSeen s hold
      · exact absurd hnew hslot
  · rcases slotOf_cases (keyOf lane session) hs with ⟨hold, -, heq, -⟩ | ⟨-, -, heq⟩
    · exact heq ▸ h.bits s hold
    · show ((w.slotOf lay (keyOf lane session)).1.bits s).length = _
      rw [heq, length_replicate]

theorem check_unit_lt (lane session : UInt32) (position : UInt64) (now : Int) :
    (w.check lay lane session position now).1.checkedUnit < 2 ^ 59 := by
  have := position.toNat_lt
  show position.toNat / 32 < 2 ^ 59
  omega

theorem Within.mark (h : Within lay count w) (hunit : w.checkedUnit < 2 ^ 59) :
    Within lay count (w.mark lay) := by
  refine ⟨h.valid.mark, fun s hs => ?_, h.lastSeen, fun s hs => ?_⟩
  · have hold := h.highest s hs
    simp only [SessionWindows.mark]
    split
    · by_cases hslot : s = w.checkedSlot
      · rw [hslot, update_self]
        omega
      · rwa [update_of_ne hslot]
    · exact hold
  · have hold := h.bits s hs
    simp only [SessionWindows.mark]
    by_cases hslot : s = w.checkedSlot
    · subst hslot
      rw [update_self, length_modify]
      split
      · rwa [length_clearAbove]
      · exact hold
    · rwa [update_of_ne hslot]

end SessionWindows

/-! ## The state -/

/-- An origin that is not negative compares alike with and without a sign. -/
theorem toUInt64_le_toUInt64 {a b : Int64} (ha : 0 ≤ a) (h : a ≤ b) : a.toUInt64 ≤ b.toUInt64 := by
  have hva := Words.toNat_toUInt64 ha
  have hvb := Words.toNat_toUInt64 (Int64.le_trans ha h)
  rw [Int64.le_iff_toInt_le] at h
  rw [le_iff_toNat_le]
  omega

theorem VersionSwitch.onActivation_sealedOrigin (vs : VersionSwitch) (fileStore : Bool)
    (activation : FeatureActivation) (stateOrigin openBlockMs : UInt64) :
    (vs.onActivation fileStore activation stateOrigin openBlockMs).1.sealedOrigin
      = vs.sealedOrigin := by
  rcases vs.onActivation_cases fileStore activation stateOrigin openBlockMs with h | ⟨f, a, h⟩
  · rw [h]
  · rw [h]
    cases f <;> rfl

namespace CanonicalSealerState

variable {cfg : SealerConfig} {s s' : CanonicalSealerState} {op : Op} {ans : Answer}

/-- The service asks the replay windows only under the versions that use them: a reference with its
id from version 4 on, a carried one under version 5. -/
def VersionGated (s : CanonicalSealerState) : Op → Prop
  | .ref .. => onVersion ≤ s.versions.version
  | .carriedRef .. => s.versions.version = carryVersion
  | _ => True

/-- What a state of a run without voids and without recorded cursors satisfies. -/
structure Restorable (cfg : SealerConfig) (s : CanonicalSealerState) : Prop where
  kept : s.Kept cfg
  senders : s.expectedNonce.size ≤ cfg.dedupCapacity
  boundary_nonneg : 0 ≤ s.lastBoundaryCount
  time_nonneg : 0 ≤ s.lastL2Timestamp
  posted : 0 ≤ s.postedHead ∧ s.postedHead ≤ s.sealedHead
  origin_nonneg : 0 ≤ s.l1Origin
  sealed_le : s.versions.sealedOrigin ≤ s.l1Origin.toUInt64
  settled : s.versions.Settled
  windows : s.windows.Within .default s.canonicalCount
  idle : s.versions.v4.held = [] → s.windows = .empty
  voids : s.voids = .empty
  peers : ∀ chain ∈ s.remoteOrigins.keys, chain ∈ cfg.remoteOriginAllowlist

section

variable (he : Effect cfg s op s' ans)
include he

/-- What a step can do to the version switch, and to the origin that its boundaries see. -/
theorem Effect.versions_cases : (s'.versions = s.versions ∧ s.l1Origin ≤ s'.l1Origin) ∨
      (∃ activation, s'.versions = (s.versions.onActivation cfg.fileStore activation
        s.l1Origin.toUInt64 (ofInt s.lastL2Timestamp)).1 ∧ s'.l1Origin = s.l1Origin) ∨
      (∃ l2Timestamp, s'.versions = s.versions.atBoundary s.l1Origin.toUInt64
        (ofInt s.lastL2Timestamp) l2Timestamp ∧ s.l1Origin ≤ s'.l1Origin) := by
  cases he with
  | activated => exact .inr (.inl ⟨_, rfl, rfl⟩)
  | ticked => exact .inr (.inr ⟨_, rfl, Int64.le_refl _⟩)
  | @originAdopted id _ _ _ clock _ _ hadv =>
    rcases leadBlock_cases cfg s id clock with ⟨-, h⟩ | ⟨-, h⟩ <;> rw [h]
    · exact .inr (.inr ⟨_, rfl, Int64.le_of_lt hadv⟩)
    · exact .inl ⟨rfl, Int64.le_of_lt hadv⟩
  | @remoteAdopted id _ _ _ _ _ _ clock =>
    rcases leadBlock_cases cfg s id clock with ⟨-, h⟩ | ⟨-, h⟩ <;> rw [h]
    · exact .inr (.inr ⟨_, rfl, Int64.le_refl _⟩)
    · exact .inl ⟨rfl, Int64.le_refl _⟩
  | _ =>
    exact .inl ⟨rfl, Int64.le_refl _⟩

/-- What a step can do to the replay windows: only a reference asks them. -/
theorem Effect.windows_cases : s'.windows = s.windows ∨ ∃ lane session position,
      (op = .carriedRef lane session position ∨ ∃ id, op = .ref lane session position id) ∧
      s'.versions = s.versions ∧
      (s'.windows = (s.windows.check .default lane session position s.canonicalCount).1 ∨ s'.windows
          = (s.windows.check .default lane session position s.canonicalCount).1.mark .default) := by
  cases he with
  | refRefused hop => exact .inr ⟨_, _, _, hop, rfl, .inl rfl⟩
  | carriedRefOrdered => exact .inr ⟨_, _, _, .inl rfl, rfl, .inr rfl⟩
  | refOrdered => exact .inr ⟨_, _, _, .inr ⟨_, rfl⟩, rfl, .inr rfl⟩
  | @originAdopted id _ _ _ clock | @remoteAdopted id _ _ _ _ _ _ clock =>
    rcases leadBlock_cases cfg s id clock with ⟨-, h⟩ | ⟨-, h⟩ <;> rw [h] <;> exact .inl rfl
  | _ => exact .inl rfl

/-- What a step can do to the open block's number, its time and the posted head. -/
theorem Effect.block_cases : s'.sealedHead = s.sealedHead ∧ s'.lastL2Timestamp = s.lastL2Timestamp ∧
        s'.lastBoundaryCount = s.lastBoundaryCount ∧
        (s'.postedHead = s.postedHead ∨
          s.postedHead < s'.postedHead ∧ s'.postedHead ≤ s.sealedHead) ∨
      s'.sealedHead = s.sealedHead + 1 ∧ s.lastL2Timestamp < s'.lastL2Timestamp ∧
        s'.lastBoundaryCount = s.canonicalCount ∧ s'.postedHead = s.postedHead := by
  have hts : ∀ clock, s.lastL2Timestamp < s.nextL2Timestamp clock := fun clock =>
    lt_of_lt_of_le (Int.lt_succ _) (le_max_right _ _)
  have hhead : ∀ b : Int, b + 1 - 1 = b - 1 + 1 := by omega
  cases he with
  | posted h hle => exact .inl ⟨rfl, rfl, rfl, .inr ⟨h, hle⟩⟩
  | @ticked clock => exact .inr ⟨hhead _, hts clock, rfl, rfl⟩
  | @originAdopted id _ _ _ clock | @remoteAdopted id _ _ _ _ _ _ clock =>
    rcases leadBlock_cases cfg s id clock with ⟨-, h⟩ | ⟨-, h⟩ <;> rw [h]
    · exact .inr ⟨hhead _, hts clock, rfl, rfl⟩
    · exact .inl ⟨rfl, rfl, rfl, .inl rfl⟩
  | _ =>
    exact .inl ⟨rfl, rfl, rfl, .inl rfl⟩

/-- With voids disabled the ledger stays empty. -/
theorem Effect.voids_empty (hv : cfg.voids.voterMask = 0) (h : s.voids = .empty) : s'.voids = .empty := by
  cases he with
  | recordFrom | refOrdered => exact (VoidLedger.onReference_of_disabled hv ..).trans h
  | voted hvote =>
    rw [VoidLedger.onVote_of_disabled hv, h] at hvote
    exact (congrArg Prod.fst hvote).symm
  | voided hd => exact (not_voided hv hd).elim
  | @originAdopted id _ _ _ clock | @remoteAdopted id _ _ _ _ _ _ clock =>
    rcases leadBlock_cases cfg s id clock with ⟨-, h'⟩ | ⟨-, h'⟩ <;> rw [h'] <;> exact h
  | _ => exact h

/-- Only peers of the allowlist get an entry. -/
theorem Effect.peers_allowed (h : ∀ chain ∈ s.remoteOrigins.keys, chain ∈ cfg.remoteOriginAllowlist) :
    ∀ chain ∈ s'.remoteOrigins.keys, chain ∈ cfg.remoteOriginAllowlist := by
  cases he with
  | originAdopted => exact leadBlock_remoteOrigins cfg s .. ▸ h
  | remoteAdopted _ hallow =>
    intro chain hmem
    obtain ⟨peer, hget⟩ := mem_keys_iff_get?.1 hmem
    rcases mem_entries_put.1 (get?_eq_some_iff.1 hget) with heq | ⟨-, hold⟩
    · exact heq.1 ▸ hallow
    · exact h chain (mem_map_of_mem hold)
  | _ =>
    exact h

omit he in
/-- A version that asks the replay windows has a held activation. -/
theorem VersionGated.v4_held (hg : s.VersionGated op) (hset : s.versions.Settled)
    {lane session : UInt32} {position : UInt64}
    (hop : op = .carriedRef lane session position ∨ ∃ id, op = .ref lane session position id) :
    s.versions.v4.held ≠ [] := by
  intro hnil
  have hoff := hset.version_of_v4 hnil
  rcases hop with rfl | ⟨id, rfl⟩
  · rw [VersionGated, hoff] at hg
    exact absurd hg (by decide)
  · rw [VersionGated, hoff] at hg
    exact absurd hg (by decide)

/-- **Every gated step keeps the state restorable.** -/
theorem Effect.restorable (hv : cfg.voids.voterMask = 0)
    (hg : s.VersionGated op) (h : s.Restorable cfg) : s'.Restorable cfg := by
  have hcount := he.canonicalCount_le
  have hcount0 : 0 ≤ s.canonicalCount := h.boundary_nonneg.trans h.kept.counted
  have hposted := h.posted
  have htime := h.time_nonneg
  have horigin : s.l1Origin ≤ s'.l1Origin := by
    rcases he.versions_cases with ⟨-, ho⟩ | ⟨_, -, ho⟩ | ⟨_, -, ho⟩
    exacts [ho, ho ▸ Int64.le_refl _, ho]
  refine ⟨he.kept h.kept, he.size_expectedNonce h.senders, ?_, ?_, ?_,
    Int64.le_trans h.origin_nonneg horigin, ?_, ?_, ?_, ?_, he.voids_empty hv h.voids,
    he.peers_allowed h.peers⟩
  · rcases he.block_cases with ⟨-, -, hl, -⟩ | ⟨-, -, hl, -⟩
    exacts [hl ▸ h.boundary_nonneg, hl ▸ hcount0]
  · rcases he.block_cases with ⟨-, ht, -, -⟩ | ⟨-, ht, -, -⟩ <;> omega
  · rcases he.block_cases with ⟨hs, -, -, hp | hp⟩ | ⟨hs, -, -, hp⟩ <;> omega
  · have hmono := toUInt64_le_toUInt64 h.origin_nonneg horigin
    rcases he.versions_cases with ⟨heq, -⟩ | ⟨_, heq, -⟩ | ⟨_, heq, -⟩ <;> rw [heq]
    · exact UInt64.le_trans h.sealed_le hmono
    · rw [onActivation_sealedOrigin]
      exact UInt64.le_trans h.sealed_le hmono
    · exact hmono
  · rcases he.versions_cases with ⟨heq, -⟩ | ⟨_, heq, -⟩ | ⟨_, heq, -⟩ <;> rw [heq]
    exacts [h.settled, h.settled.onActivation .., h.settled.atBoundary ..]
  · rcases he.windows_cases with heq | ⟨_, _, _, -, -, heq | heq⟩ <;> rw [heq]
    · exact h.windows.mono hcount
    · exact (h.windows.check hcount0 le_rfl ..).mono hcount
    · exact ((h.windows.check hcount0 le_rfl ..).mark (SessionWindows.check_unit_lt ..)).mono hcount
  · intro hnil
    have hold : s.versions.v4.held = [] := by
      rcases he.versions_cases with ⟨heq, -⟩ | ⟨_, heq, -⟩ | ⟨_, heq, -⟩ <;> rw [heq] at hnil
      exacts [hnil, onActivation_v4_held_nil hnil, atBoundary_v4_held_nil hnil]
    rcases he.windows_cases with heq | ⟨_, _, _, hop, -⟩
    · rw [heq, h.idle hold]
    · exact absurd hold (hg.v4_held h.settled hop)

end

section

variable {s₀ : CanonicalSealerState} (h : Started cfg s₀)
include h

theorem Started.restorable :
    s₀.Restorable cfg := by
  have hkept := h.kept
  have hsize := h.size_expectedNonce
  cases h with
  | genesis =>
    exact ⟨hkept, hsize, le_rfl, le_rfl, ⟨le_rfl, by decide⟩, by decide, by decide,
      settled_start, SessionWindows.within_empty _ _, fun _ => rfl, rfl,
      fun _ hmem => absurd hmem not_mem_nil⟩
  | seeded seed _ =>
    have hblock := seed.block_pos
    refine ⟨hkept, hsize, seed.endTxIdx_range.1, seed.l2Timestamp_range.1, ⟨hblock.le, ?_⟩,
      seed.l1Origin_nonneg, ?_, settled_start, SessionWindows.within_empty _ _,
      fun _ => rfl, rfl, fun _ hmem => absurd hmem not_mem_nil⟩
    · show seed.block ≤ seed.block + 1 - 1
      omega
    · exact UInt64.zero_le

/-- **Every state of a gated run is restorable.** -/
theorem run_restorable (hv : cfg.voids.voterMask = 0) {ops : List Op}
    (hg : Guarded (step cfg) VersionGated s₀ ops) :
    (run (step cfg) s₀ ops).1.Restorable cfg :=
  run_invariant_of_guard h.restorable
    (fun s op hs hgate => (step_effect cfg s op).restorable hv hgate hs) hg

end

/-- The counters of a state are Java `long`s. -/
structure InLongs (s : CanonicalSealerState) : Prop where
  canonicalCount : s.canonicalCount ≤ longMax
  blockNumber : s.blockNumber ≤ longMax
  lastL2Timestamp : s.lastL2Timestamp ≤ longMax

/-- A snapshot that fits a Java array has counts that fit an `int`. -/
theorem counts_lt_of_length_lt {version : Int} (h : (s.snapshotBytes cfg version).length < 2 ^ 31) :
    s.dedup.size < 2 ^ 31 ∧ s.remoteOrigins.size < 2 ^ 31 := by
  have hids := s.length_ids
  have hpeers := s.length_peers
  simp only [snapshotBytes, putIds, putPeers, length_append] at h
  omega

/-- A restorable state passes every check of `load`. -/
theorem Restorable.storable (h : s.Restorable cfg) (hlong : s.InLongs)
    (hhorizon : cfg.inclusionHorizonBlocks ≤ 4095) {version : Int}
    (hlen : (s.snapshotBytes cfg version).length < 2 ^ 31) : s.Storable cfg := by
  obtain ⟨hids, hpeers⟩ := counts_lt_of_length_lt hlen
  have hsize := h.kept.size_le hlong.blockNumber
  have hposted := h.posted
  have hblock := h.kept.block_nonneg
  have hcounted := h.kept.counted
  have hcount := hlong.canonicalCount
  have hnumber := hlong.blockNumber
  have hboundary := h.boundary_nonneg
  have hslack : markerSlack = 4096 := rfl
  unfold sealedHead at hposted
  refine ⟨⟨by omega, hcount⟩, ⟨hblock, hnumber⟩, ⟨h.time_nonneg, hlong.lastL2Timestamp⟩,
    ⟨hboundary, by omega⟩, ⟨hposted.1, by omega⟩, by omega, hids, fun e he => ⟨?_, ?_⟩, h.senders,
    hpeers, h.windows.storable hcount⟩
  · exact hblock.trans (h.kept.live hnumber e he)
  · exact h.kept.clamped e he

/-- **The dedup window in every reachable state.** Its map and its index hold the same ids under the
same deadlines, from the open block to a horizon past it; it is at most the horizon and one over its
cap, so that with a horizon of at most 4095 blocks the counts of ids and senders of the member's own
snapshot pass the checks of `load`. -/
theorem dedup_window_bounded {s₀ : CanonicalSealerState} (h₀ : Started cfg s₀) {ops : List Op}
    (hrun : (run (step cfg) s₀ ops).1 = s) (hlong : s.blockNumber ≤ longMax) :
    (∀ id held, (id, held) ∈ s.dedup.dedup.entries ↔
        ∃ group, (held, group) ∈ s.dedup.byDeadline.entries ∧ id ∈ group) ∧
      (∀ e ∈ s.dedup.dedup.entries,
        s.blockNumber ≤ e.2 ∧ e.2 ≤ s.blockNumber + cfg.inclusionHorizonBlocks) ∧
      (s.dedup.size : Int) ≤ cfg.dedupCapacity + cfg.inclusionHorizonBlocks + 1 ∧
      (cfg.inclusionHorizonBlocks ≤ 4095 → ∀ version,
        version = s.snapshotVersion ∨ version = fileSnapshotVersion →
        s.takeSnapshotAt cfg version ≠ none → ∃ t t',
          Reads (loadIds cfg version { genesis with blockNumber := s.blockNumber }) s.putIds t ∧
          Reads (loadSenders cfg version t) s.putSenders t') := by
  obtain ⟨hkept, hsenders⟩ : s.Kept cfg ∧ s.expectedNonce.size ≤ cfg.dedupCapacity := by
    rw [← hrun]
    exact ⟨run_invariant h₀.kept (fun s op => (step_effect cfg s op).kept) ops,
      run_invariant (P := fun s => s.expectedNonce.size ≤ cfg.dedupCapacity)
        h₀.size_expectedNonce (fun s op => (step_effect cfg s op).size_expectedNonce) ops⟩
  have hsize := hkept.size_le hlong
  have hpos := cfg.horizon_pos
  refine ⟨hkept.agree.mem_iff, fun e he => ⟨hkept.live hlong e he,
    (hkept.clamped e he).trans (assignedDeadline_le hkept.block_nonneg)⟩, by omega, ?_⟩
  intro hhorizon version hversion hwritten
  have hseven : 7 ≤ version := by
    rcases hversion with rfl | rfl
    · rcases s.snapshotVersion_cases with hv | ⟨hv, -⟩ | ⟨hv, -⟩ | ⟨hv, -⟩ <;> rw [hv] <;> decide
    · decide
  have hslack : markerSlack = 4096 := rfl
  have hint : s.dedup.size < 2 ^ 31 := by
    by_contra hlt
    exact hwritten (if_neg fun hlen => hlt (counts_lt_of_length_lt hlen).1)
  exact ⟨_, _, reads_ids (by omega) hint
    (fun e he => ⟨hkept.block_nonneg.trans (hkept.live hlong e he), hkept.clamped e he⟩)
    hkept.block_nonneg rfl hseven, reads_senders hsenders rfl (by omega)⟩

theorem dedup_window_bounded_ticked :
    let s := (run (step .default) genesis [.record 1 0 0 60 [], .tick 0]).1
    s.blockNumber ≤ longMax ∧ ∀ e ∈ s.dedup.dedup.entries, 2 ≤ e.2 ∧ e.2 ≤ 2 + 64 :=
  ⟨by decide +kernel, (dedup_window_bounded .genesis rfl (by decide +kernel)).2.1⟩

/-- The section of an unused ledger reads back. -/
theorem Restorable.reads_voids (h : s.Restorable cfg) (hcount : s.canonicalCount ≤ longMax) :
    ∃ voids, Reads (VoidLedger.readFrom cfg.voids) (s.voids.writeTo cfg.voids s.canonicalCount)
      voids := by
  obtain ⟨n, hn⟩ := Int.eq_ofNat_of_zero_le (h.boundary_nonneg.trans h.kept.counted)
  have hwf : VoidLedger.Ledger.WellFormed cfg.voids ⟨.empty, n⟩ :=
    VoidLedger.Ledger.wellFormed_empty n
  obtain ⟨voids, hread, -⟩ := VoidLedger.reads_ledger hwf (show (n : Int) ≤ longMax from hn ▸ hcount)
  rw [h.voids, hn]
  exact ⟨voids, hread⟩

end CanonicalSealerState

/-! ## How long a snapshot gets -/

theorem Schedule.length_writeTo_le (s : Schedule) : s.writeTo.length ≤ 49 := by
  have hlen : (s.held.flatMap putActivation).length = s.held.length * (8 + 8) :=
    length_flatMap_of_width (by simp [putActivation])
  have hheld := s.held_le
  have hmax : maxHeld = 3 := rfl
  rw [writeTo, length_append, length_putByte]
  omega

theorem SessionWindows.Storable.length_writeTo {lay : WindowLayout} {w : SessionWindows}
    (h : w.Storable lay) :
    (w.writeTo lay).length = 12 + w.used * (24 + lay.wordsPerSlot * 8) := by
  have hslot : ∀ s ∈ List.range w.used, (w.writeSlot s).length = 24 + lay.wordsPerSlot * 8 := by
    intro s hs
    have hbits : ((w.bits s).flatMap putWord).length = (w.bits s).length * 8 :=
      length_flatMap_of_width (by simp)
    simp only [writeSlot, length_append, length_putWord, length_putLong, hbits,
      h.bits s (mem_range.1 hs)]
    omega
  simp only [writeTo, length_append, length_putInt, length_flatMap_of_width hslot, length_range]
  omega

/-- The longest snapshot of a member: every id, sender, peer and replay window that it can hold. -/
def SealerConfig.snapshotBound (cfg : SealerConfig) : Nat :=
  (cfg.dedupCapacity + markerSlack) * (32 + 8) + cfg.dedupCapacity * (20 + 8)
    + cfg.remoteOriginAllowlist.length * (8 + 8 + 1 + 8)
    + WindowLayout.default.slots * (24 + WindowLayout.default.wordsPerSlot * 8) + 340

namespace CanonicalSealerState

variable {cfg : SealerConfig} {s : CanonicalSealerState}

theorem length_ite_le {c : Prop} [Decidable c] {bs : Bytes} {n : Nat} (h : bs.length ≤ n) :
    (if c then bs else []).length ≤ n := by
  split
  exacts [h, Nat.zero_le n]

theorem length_snapshotTail_le {n : Nat} (h : (s.windows.writeTo .default).length ≤ n) :
    (s.snapshotTail s.snapshotVersion).length ≤ n + 215 := by
  have hcursors : s.snapshotVersion ≠ cursorsSnapshotVersion := by
    rcases s.snapshotVersion_cases with hv | ⟨hv, -⟩ | ⟨hv, -⟩ | ⟨hv, -⟩ <;> rw [hv] <;> decide
  have hrules : s.rules.writeTo.length ≤ 58 := by
    have := s.rules.activations.length_writeTo_le
    simp only [DecisionRules.writeTo, length_append, length_putByte, length_putWord]
    omega
  have hswitch : (s.versions.writeTo ++ s.windows.writeTo .default).length ≤ 58 + n := by
    have := s.versions.v4.length_writeTo_le
    simp only [writeTo, length_append, length_putByte, length_putWord]
    omega
  have hcarry : s.versions.writeCarryTo.length ≤ 49 := s.versions.carry.length_writeTo_le
  have hwindow : s.versions.writeWindowTo.length ≤ 50 := by
    have := s.versions.window.length_writeTo_le
    simp only [writeWindowTo, length_append, length_putByte]
    omega
  simp only [snapshotTail, length_append, if_neg hcursors]
  refine le_trans (Nat.add_le_add_left (Nat.add_le_add (length_ite_le hrules)
    (Nat.add_le_add (length_ite_le (by simpa using hswitch)) (Nat.add_le_add (length_ite_le hcarry)
      (length_ite_le hwindow)))) 0) ?_
  omega

/-- **A member whose windows are not too large can always write its snapshot.** -/
theorem Restorable.takeSnapshot_ne_none (h : s.Restorable cfg) (hlong : s.InLongs)
    (hv : cfg.voids.voterMask = 0) (hhorizon : cfg.inclusionHorizonBlocks ≤ 4095)
    (hbound : cfg.snapshotBound < 2 ^ 31) : s.takeSnapshot cfg ≠ none := by
  have hids : s.dedup.size ≤ cfg.dedupCapacity + markerSlack := by
    have := h.kept.size_le hlong.blockNumber
    have hslack : markerSlack = 4096 := rfl
    omega
  have hpeers : s.remoteOrigins.size ≤ cfg.remoteOriginAllowlist.length := by
    have := (s.remoteOrigins.nodup.subperm h.peers).length_le
    rwa [length_map] at this
  have hvoids : (s.voids.writeTo cfg.voids s.canonicalCount).length = 8 := by
    have hnil : VoidLedger.empty.heldEntries cfg.voids s.canonicalCount = [] :=
      if_pos (cfg.voids.capacity_zero hv)
    rw [h.voids, VoidLedger.writeTo, hnil]
    rfl
  have hwindows := (h.windows.storable hlong.canonicalCount).length_writeTo
  have hused := Nat.mul_le_mul_right (24 + WindowLayout.default.wordsPerSlot * 8) h.windows.valid.used_le
  have htail := length_snapshotTail_le (hwindows.le.trans (Nat.add_le_add_left hused 12))
  have hlen : (s.snapshotBytes cfg s.snapshotVersion).length ≤ cfg.snapshotBound := by
    have hsenders := Nat.mul_le_mul_right (20 + 8) h.senders
    simp only [snapshotBytes, putIds, putSenders, putOrigin, putPeers, putSeed, length_append,
      length_putInt, length_putLong, length_putWord, length_putByte, length_putId, s.length_ids,
      s.length_senders, s.length_peers]
    grw [length_ite_le hvoids.le]
    unfold SealerConfig.snapshotBound
    omega
  rw [takeSnapshot, takeSnapshotAt, if_pos (lt_of_le_of_lt hlen hbound)]
  exact Option.some_ne_none _

end CanonicalSealerState

end Kardamom.Sealer
