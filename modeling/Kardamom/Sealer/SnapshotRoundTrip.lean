import Kardamom.Sealer.Snapshot

/-!
# The round trip of the snapshot

Each section of the snapshot reads back as it was written, whatever follows it. `reads_snapshot`
puts the sections together for the versions that `takeSnapshot` writes: a `Storable` state reads
back as `reloaded`, which differs from the state only where the reader builds a structure anew (the
deadline index, the probe table) or where the layout leaves a section out.
-/

namespace Kardamom.Sealer

open ByteCodec Reads LinkedMap List VersionSwitch Schedule Int

/-! ## Round trips of the sections -/

namespace Schedule

theorem foldl_hold_held (held : List Activation) (s : Schedule)
    (h : s.held.length + held.length ≤ maxHeld) :
    (held.foldl hold s).held = s.held ++ held := by
  induction held generalizing s with
  | nil => simp
  | cons a held ih =>
    have hroom : s.held.length < maxHeld := by rw [length_cons] at h; omega
    have hnext : (s.hold a).held = s.held ++ [a] := by rw [hold, dif_pos hroom]
    have hlen : (s.hold a).held.length + held.length ≤ maxHeld := by
      rw [length_cons] at h
      rw [hnext, length_append, length_singleton]
      omega
    rw [foldl_cons, ih _ hlen, hnext, append_assoc, singleton_append]

theorem reads_schedule (s : Schedule) : Reads (readFrom .empty) s.writeTo s := by
  have hlen := s.held_le
  have hmax : (maxHeld : Int) = 3 := rfl
  have hstep : ∀ s : Schedule, ∀ a : Activation, Reads (getActivation s) (putActivation a) (s.hold a) :=
    fun s a => (reads_word a.origin).bind ((reads_word a.time).map fun time => s.hold ⟨_, time⟩)
  have hall : s.held.foldl hold empty = s :=
    Schedule.ext (foldl_hold_held s.held empty (by simpa [empty] using hlen))
  refine (reads_byte (by omega) (by omega)).bind (check ⟨by omega, by omega⟩ ?_)
  have hread : Reads _ _ (s.held.foldl hold empty) := times_of_mem (fun s a _ => hstep s a) empty
  rwa [hall] at hread

end Schedule

theorem DecisionRules.reads_rules (r : DecisionRules) : Reads DecisionRules.readFrom r.writeTo r :=
  (reads_byte (by decide) (by decide)).bind (check (.inr rfl)
    ((reads_word _).bind ((reads_schedule _).map fun a =>
      (⟨a, r.sealedOrigin⟩ : DecisionRules))))

variable {vs : VersionSwitch}

namespace VersionSwitch

/-- The first section reads back with the carry flag and the carry window off. -/
theorem reads_switch (vs : VersionSwitch) : Reads readFrom vs.writeTo
      { vs with carry := .empty, window := .empty, carryWindow := false } := by
  obtain ⟨hlo, hhi⟩ := vs.version_range
  have hcarry : (carryVersion : Int) = 5 := rfl
  refine (reads_byte (by omega) (by omega)).bind ?_
  rw [dif_pos ⟨hlo, hhi⟩]
  exact (reads_word _).bind ((reads_schedule _).map fun v4 =>
    (⟨v4, .empty, .empty, false, vs.sealedOrigin, vs.version, ⟨hlo, hhi⟩⟩ : VersionSwitch))

theorem reads_carry {vs vs' : VersionSwitch} (h : vs'.carry = .empty) :
    Reads vs'.readCarryFrom vs.writeCarryTo { vs' with carry := vs.carry } := by
  have := (reads_schedule vs.carry).map fun c => { vs' with carry := c }
  rwa [← h] at this

theorem reads_window {vs vs' : VersionSwitch} (h : vs'.window = .empty) :
    Reads vs'.readWindowFrom vs.writeWindowTo
      { vs' with carryWindow := vs.carryWindow, window := vs.window } := by
  have hflag : ∀ flag : Bool, decide ((if flag then (1 : Int) else 0) = 1) = flag := by decide
  have hread := (reads_schedule vs.window).map fun w =>
    { vs' with carryWindow := vs.carryWindow, window := w }
  rw [← h] at hread
  refine (reads_byte ?_ ?_).bind (check ?_ ?_)
  · split <;> decide
  · split <;> decide
  · split <;> simp
  · rw [hflag]
    exact hread

/-- A settled switch loses nothing when the section of an empty carry window is left out. -/
theorem Settled.without_window (h : vs.Settled) (hw : vs.window.held = []) :
    { vs with window := .empty, carryWindow := false } = vs := by
  have hempty : vs.window = .empty := Schedule.ext hw
  rw [← hempty, ← h.flag_of_window hw]

/-- Nor when the schedule of an empty carry flag is left out as well. -/
theorem Settled.without_carry (h : vs.Settled) (hw : vs.window.held = []) (hc : vs.carry.held = []) :
    { vs with carry := .empty, window := .empty, carryWindow := false } = vs := by
  rw [show Schedule.empty = vs.carry from Schedule.ext hc.symm, ← h.flag_of_window hw]
  nth_rewrite 2 [show vs.carry = vs.window from Schedule.ext (hc.trans hw.symm)]
  rfl

end VersionSwitch

namespace SessionWindows

variable {lay : WindowLayout} {w : SessionWindows}

/-- What the writer puts into 64 bits is in range, and every used slot has its bitmap. -/
structure Storable (lay : WindowLayout) (w : SessionWindows) : Prop where
  valid : Valid lay w
  highest : ∀ s < w.used, longMin ≤ w.highest s ∧ w.highest s ≤ longMax
  lastSeen : ∀ s < w.used, longMin ≤ w.lastSeen s ∧ w.lastSeen s ≤ longMax
  bits : ∀ s < w.used, (w.bits s).length = lay.wordsPerSlot

section

variable (lay : WindowLayout) (w : SessionWindows) (n : Nat)

/-- The windows that the first `n` slots of a snapshot restore. -/
def reloaded : SessionWindows := (List.range n).foldl
    (fun r s => r.addSlot lay (w.keys s) (w.highest s) (w.lastSeen s) (w.bits s)) empty

theorem reloaded_succ : w.reloaded lay (n + 1)
      = (w.reloaded lay n).addSlot lay (w.keys n) (w.highest n) (w.lastSeen n) (w.bits n) := by
  rw [reloaded, range_succ, foldl_concat]
  rfl

end

theorem Valid.addSlot (hv : Valid lay w) (hroom : w.used < lay.slots) {key : UInt64}
    (hkey : ∀ s < w.used, w.keys s ≠ key) (highest lastSeen : Int) (bits : List UInt64) :
    Valid lay (w.addSlot lay key highest lastSeen bits) := by
  have htake := hv.takeSlot hkey
  rw [show w.freeSlot lay = ({ w with used := w.used + 1 }, w.used) from if_pos hroom] at htake
  exact ⟨htake.used_le, htake.keys_inj, htake.table⟩

/-- Slot by slot, the restored windows hold the same images; only the table is filled anew. -/
theorem same_reloaded (hv : Valid lay w) : Same lay w (w.reloaded lay w.used) := by
  suffices h : ∀ n ≤ w.used, (w.reloaded lay n).used = n ∧ Valid lay (w.reloaded lay n) ∧
      ∀ s < n, (w.reloaded lay n).keys s = w.keys s ∧ (w.reloaded lay n).highest s = w.highest s ∧
        (w.reloaded lay n).lastSeen s = w.lastSeen s ∧ (w.reloaded lay n).bits s = w.bits s by
    obtain ⟨hused, hvalid, hslots⟩ := h w.used le_rfl
    exact ⟨hused.symm, fun s hs => (hslots s hs).1.symm, fun s hs => (hslots s hs).2.1.symm,
      fun s hs => (hslots s hs).2.2.1.symm, fun s hs => (hslots s hs).2.2.2.symm, hv, hvalid⟩
  intro n hn
  induction n with
  | zero => exact ⟨rfl, valid_empty lay, fun s hs => absurd hs (Nat.not_lt_zero s)⟩
  | succ n ih =>
    obtain ⟨hused, hvalid, hslots⟩ := ih (by omega)
    rw [reloaded_succ]
    refine ⟨by rw [addSlot, hused], hvalid.addSlot ?_ ?_ .., fun s hs => ?_⟩
    · have := hv.used_le
      omega
    · intro s hs heq
      rw [hused] at hs
      rw [(hslots s hs).1] at heq
      have := hv.keys_inj s (by omega) n (by omega) heq
      omega
    · simp only [addSlot, hused]
      by_cases hsn : s = n
      · simp [hsn]
      · simpa [hsn] using hslots s (by omega)

theorem reads_bits {bits : List UInt64} (h : bits.length = lay.wordsPerSlot) :
    Reads (getBits lay) (bits.flatMap putWord) bits := by
  have hread : Reads _ _ (bits.foldl (fun acc word => acc ++ [word]) []) :=
    times_of_mem (fun acc word _ => (reads_word word).map fun word => acc ++ [word]) []
  rwa [foldl_append_eq_append, ← flatMap_def, flatMap_singleton', h] at hread

/-- **The round trip of the replay windows.** -/
theorem reads_windows (h : Storable lay w) (hslots : lay.slots < 2 ^ 31)
    (hwidth : lay.width < 2 ^ 31) :
    Reads (readFrom lay) (w.writeTo lay) (w.reloaded lay w.used) := by
  have hused := h.valid.used_le
  have hslot : ∀ r : SessionWindows, ∀ s ∈ List.range w.used, Reads (readSlot lay r) (w.writeSlot s)
      (r.addSlot lay (w.keys s) (w.highest s) (w.lastSeen s) (w.bits s)) := by
    intro r s hs
    have hs := mem_range.1 hs
    exact (reads_word _).bind ((reads_long (h.highest s hs).1 (h.highest s hs).2).bind
      ((reads_long (h.lastSeen s hs).1 (h.lastSeen s hs).2).bind ((reads_bits (h.bits s hs)).map _)))
  refine (reads_int (by omega) (by omega)).bind ((reads_int (by omega) (by omega)).bind
    (Reads.check ⟨rfl, rfl⟩ ((reads_int (by omega) (by omega)).bind
      (Reads.check ⟨by omega, by omega⟩ ?_))))
  have := Reads.times_of_mem hslot empty
  rwa [length_range] at this

end SessionWindows

namespace CanonicalSealerState

variable {cfg : SealerConfig} {s t : CanonicalSealerState} {version : Int}

/-- What makes a state readable from its snapshot: the checks of `load` pass, and the counters are
in the range of a Java `long`. -/
structure Storable (cfg : SealerConfig) (s : CanonicalSealerState) : Prop where
  canonicalCount : 0 ≤ s.canonicalCount ∧ s.canonicalCount ≤ longMax
  blockNumber : 0 ≤ s.blockNumber ∧ s.blockNumber ≤ longMax
  lastL2Timestamp : 0 ≤ s.lastL2Timestamp ∧ s.lastL2Timestamp ≤ longMax
  lastBoundaryCount : 0 ≤ s.lastBoundaryCount ∧ s.lastBoundaryCount ≤ longMax
  postedHead : 0 ≤ s.postedHead ∧ s.postedHead ≤ longMax
  ids : s.dedup.size ≤ cfg.dedupCapacity + markerSlack
  ids_int : s.dedup.size < 2 ^ 31
  held : ∀ e ∈ s.dedup.dedup.entries, 0 ≤ e.2 ∧ e.2 ≤ s.assignedDeadline cfg
  senders : s.expectedNonce.size ≤ cfg.dedupCapacity
  peers_int : s.remoteOrigins.size < 2 ^ 31
  windows : s.windows.Storable .default

theorem assignedDeadline_le_longMax (cfg : SealerConfig) (h : 0 ≤ s.blockNumber) :
    s.assignedDeadline cfg ≤ longMax := by
  rw [assignedDeadline, saturatingAdd_eq_min h cfg.horizon_pos.le]
  exact min_le_right _ _

/-- Ids whose deadline the horizon does not cut go into the window as they are. -/
theorem foldl_insertFresh (es : List (CanonicalId × Int)) (t : CanonicalSealerState)
    (h : ∀ e ∈ es, e.2 ≤ t.assignedDeadline cfg) :
    es.foldl (fun t e => t.insertFresh cfg e.1 e.2) t
      = { t with dedup := es.foldl (fun w e => w.insertFresh e.1 e.2) t.dedup } := by
  induction es generalizing t with
  | nil => rfl
  | cons e es ih =>
    have hmin : min e.2 (t.assignedDeadline cfg) = e.2 := min_eq_left (h e mem_cons_self)
    rw [foldl_cons, ih (t.insertFresh cfg e.1 e.2) fun x hx => h x (.tail _ hx),
      foldl_cons, insertFresh, hmin]

section

variable (s : CanonicalSealerState)

theorem length_ids : (s.dedup.dedup.entries.flatMap putHeld).length = s.dedup.size * (32 + 8) :=
  length_flatMap_of_width (by simp [putHeld])

theorem length_peers :
    (s.remoteOrigins.entries.flatMap putPeer).length = s.remoteOrigins.size * (8 + 8 + 1 + 8) :=
  length_flatMap_of_width (by simp [putPeer])

theorem length_senders :
    (s.expectedNonce.entries.flatMap putExpected).length = s.expectedNonce.size * (20 + 8) :=
  length_flatMap_of_width (by simp [putExpected])

end

theorem reads_ids (hids : s.dedup.size ≤ cfg.dedupCapacity + markerSlack)
    (hint : s.dedup.size < 2 ^ 31)
    (hheld : ∀ e ∈ s.dedup.dedup.entries, 0 ≤ e.2 ∧ e.2 ≤ s.assignedDeadline cfg)
    (hnonneg : 0 ≤ s.blockNumber) (hblock : t.blockNumber = s.blockNumber)
    (hversion : 7 ≤ version) :
    Reads (loadIds cfg version t) s.putIds { t with
        dedup := s.dedup.dedup.entries.foldl (fun w e => w.insertFresh e.1 e.2) t.dedup } := by
  have hlen := s.length_ids
  have hdeadline : t.assignedDeadline cfg = s.assignedDeadline cfg := by
    rw [assignedDeadline, assignedDeadline, hblock]
  have hfold := foldl_insertFresh s.dedup.dedup.entries t fun e he => hdeadline ▸ (hheld e he).2
  have hitem : ∀ t : CanonicalSealerState, ∀ e ∈ s.dedup.dedup.entries,
      Reads (loadId cfg version t) (putHeld e) (t.insertFresh cfg e.1 e.2) := by
    intro t e he
    obtain ⟨hlo, hhi⟩ := hheld e he
    have hmax := assignedDeadline_le_longMax cfg hnonneg
    refine (reads_id e.1).bind ?_
    rw [if_pos hversion]
    exact (reads_long (by unfold longMin; omega) (hhi.trans hmax)).map _
  refine (reads_int (by omega) (by omega)).bind (check ⟨by omega, by omega⟩
    (ensure (fun r hr => ?_) ?_))
  · rw [hlen] at hr
    rw [if_pos hversion]
    exact_mod_cast hr
  · rw [toNat_natCast, ← hfold]
    exact times_of_mem hitem t

/-- Putting senders that are not in the map yet appends them while there is room. -/
theorem foldl_putNonce_entries {cap : Nat} (es : List (Sender × UInt64))
    (m : LinkedMap Sender UInt64) (hnd : ((m.entries ++ es).map Prod.fst).Nodup)
    (hcap : m.size + es.length ≤ cap) :
    (es.foldl (fun m e => putNonce cap m e.1 e.2) m).entries = m.entries ++ es := by
  induction es generalizing m with
  | nil => simp
  | cons e es ih =>
    have hnot : e.1 ∉ m.keys := by
      intro hmem
      rw [map_append, nodup_append] at hnd
      exact hnd.2.2 _ hmem _ (by simp) rfl
    have hsize : (m.putLast e.1 e.2).size ≤ cap := by
      rw [size_putLast_of_not_mem hnot]
      rw [length_cons] at hcap
      omega
    have hput : (putNonce cap m e.1 e.2).entries = m.entries ++ [e] := by
      rw [putNonce, dropEldestOver_of_le hsize, entries_putLast, remove_of_not_mem hnot]
    rw [foldl_cons, ih, hput, append_assoc, singleton_append]
    · rwa [hput, append_assoc, singleton_append]
    · rw [size, hput, length_append, length_singleton]
      rw [size, length_cons] at hcap
      omega

/-- Putting the senders of a map back, eldest first, rebuilds it with its access order. -/
theorem foldl_putNonce_self {cap : Nat} {m : LinkedMap Sender UInt64} (h : m.size ≤ cap) :
    m.entries.foldl (fun m e => putNonce cap m e.1 e.2) .empty = m :=
  LinkedMap.ext (foldl_putNonce_entries m.entries .empty (by simpa using m.nodup)
    (by simpa [LinkedMap.size] using h))

theorem reads_senders (hsize : s.expectedNonce.size ≤ cfg.dedupCapacity) (hempty : t.expectedNonce = .empty)
    (hversion : 2 ≤ version) :
    Reads (loadSenders cfg version t) s.putSenders { t with expectedNonce := s.expectedNonce } := by
  have hcap := cfg.dedupCapacity_int
  have hitem : ∀ t : CanonicalSealerState, ∀ e ∈ s.expectedNonce.entries,
      Reads (loadSender cfg t) (putExpected e)
        { t with expectedNonce := putNonce cfg.dedupCapacity t.expectedNonce e.1 e.2 } :=
    fun t e _ => (reads_sender e.1).bind ((reads_word e.2).map _)
  have hlen := s.length_senders
  have hfold : s.expectedNonce.entries.foldl (fun (t : CanonicalSealerState) e =>
        { t with expectedNonce := putNonce cfg.dedupCapacity t.expectedNonce e.1 e.2 }) t
      = { t with expectedNonce := s.expectedNonce } := by
    conv_rhs => rw [← foldl_putNonce_self hsize, ← hempty]
    refine foldl_hom (fun m => { t with expectedNonce := m }) ?_
    exact fun _ _ => rfl
  rw [loadSenders, if_neg (by omega)]
  refine (reads_int (by omega) (by omega)).bind (check ⟨by omega, by omega⟩
    (ensure (fun r hr => ?_) ?_))
  · rw [hlen] at hr
    exact_mod_cast hr
  · rw [toNat_natCast, ← hfold]
    exact times_of_mem hitem t

theorem reads_origin (h : s.Storable cfg) (hversion : 3 ≤ version) :
    Reads (loadOrigin version t) s.putOrigin { t with
        l1Origin := s.l1Origin
        lastL2Timestamp := s.lastL2Timestamp
        lastBoundaryCount := s.lastBoundaryCount } := by
  obtain ⟨hts, hts'⟩ := h.lastL2Timestamp
  obtain ⟨hbc, hbc'⟩ := h.lastBoundaryCount
  have hmin : longMin ≤ 0 := by decide
  rw [loadOrigin, if_neg (by omega)]
  exact (reads_word _).bind ((reads_long (hmin.trans hts) hts').bind
    ((reads_long (hmin.trans hbc) hbc').map _))

theorem reads_peers (h : s.Storable cfg) (hempty : t.remoteOrigins = .empty)
    (hversion : 5 ≤ version) :
    Reads (loadPeers version t) s.putPeers { t with remoteOrigins := s.remoteOrigins } := by
  have hint := h.peers_int
  have hknown : ∀ known : Bool, decide ((if known then (1 : Int) else 0) ≠ 0) = known := by decide
  have hitem : ∀ t : CanonicalSealerState, ∀ e ∈ s.remoteOrigins.entries,
      Reads (loadPeer version t) (putPeer e)
        { t with remoteOrigins := t.remoteOrigins.put e.1 e.2 } := by
    intro t e _
    refine (reads_word _).bind ((reads_word _).bind ?_)
    rw [if_pos hversion]
    refine (reads_byte (by split <;> decide) (by split <;> decide)).bind ?_
    rw [hknown]
    exact (reads_word _).map _
  have hlen := s.length_peers
  have hfold : s.remoteOrigins.entries.foldl (fun (t : CanonicalSealerState) e =>
        { t with remoteOrigins := t.remoteOrigins.put e.1 e.2 }) t
      = { t with remoteOrigins := s.remoteOrigins } := by
    conv_rhs => rw [← foldl_put_entries s.remoteOrigins, ← hempty]
    refine foldl_hom (fun m => { t with remoteOrigins := m }) ?_
    exact fun _ _ => rfl
  rw [loadPeers, if_neg (by omega)]
  refine (reads_int (by omega) (by omega)).bind (ensure (fun r hr => ⟨by omega, ?_⟩) ?_)
  · rw [hlen] at hr
    rw [if_pos hversion]
    exact_mod_cast hr
  · rw [toNat_natCast, ← hfold]
    exact times_of_mem hitem t

variable {voids : VoidLedger}

theorem reads_voids {bs : Bytes}
    (h : Reads (VoidLedger.readFrom cfg.voids) bs voids) (hversion : 6 ≤ version)
    (hfile : version ≠ retainedFileSnapshotVersion) :
    Reads (loadVoids cfg version t) bs { t with voids := voids } := by
  rw [loadVoids, if_pos ⟨hversion, hfile⟩]
  exact h.map _

theorem reads_orderingWindow (cfg : SealerConfig) (hversion : 8 ≤ version) :
    Reads (loadOrderingWindow cfg version t) (putInt cfg.orderingWindow) t := by
  have hint := cfg.orderingWindow_int
  rw [loadOrderingWindow, if_neg (by omega)]
  exact (reads_int (by omega) (by omega)).bind (check rfl (pure t))

theorem reads_postedHead (h : s.Storable cfg) (hversion : 9 ≤ version) :
    Reads (loadPostedHead version t) (putLong s.postedHead) { t with postedHead := s.postedHead } := by
  have hmin : longMin ≤ 0 := by decide
  rw [loadPostedHead, if_neg (by omega)]
  exact (reads_long (hmin.trans h.postedHead.1) h.postedHead.2).map _

theorem reads_seed (hversion : 10 ≤ version) : Reads (loadSeed version t) s.putSeed
      { t with seedStatus := s.seedStatus, seedDigest := s.seedDigest } := by
  rw [loadSeed, if_neg (by omega)]
  have hstatus : Reads (SeedStatus.ofCode s.seedStatus.ordinal) [] s.seedStatus := by
    cases s.seedStatus <;> exact pure _
  have hrange : 0 ≤ s.seedStatus.ordinal ∧ s.seedStatus.ordinal ≤ 2 := by
    cases s.seedStatus <;> decide
  exact (reads_byte (by omega) (by omega)).bind (hstatus.bind ((reads_id _).map _))

/-- The state that the snapshot of `s` restores, with the void ledger read as `voids`: the dedup
index and the table of the windows are built anew, and the switch of a state that holds no
activation starts over. -/
def reloaded (s : CanonicalSealerState) (voids : VoidLedger) : CanonicalSealerState :=
  { s with
    dedup := s.dedup.dedup.entries.foldl (fun w e => w.insertFresh e.1 e.2) .empty
    voids := voids
    recorded := .start
    versions := if s.snapshotVersion = snapshotWriteVersion then .start else s.versions
    windows := if s.snapshotVersion = snapshotWriteVersion then .empty
      else s.windows.reloaded .default s.windows.used }

theorem reads_switch (h : s.windows.Storable .default) (hversion : switchSnapshotVersion ≤ version) :
    Reads (loadSwitch version t) (s.versions.writeTo ++ s.windows.writeTo .default) { t with
        versions := { s.versions with carry := .empty, window := .empty, carryWindow := false }
        windows := s.windows.reloaded .default s.windows.used } := by
  rw [loadSwitch, if_pos hversion]
  exact (VersionSwitch.reads_switch s.versions).bind
    ((SessionWindows.reads_windows h (by decide) (by decide)).map _)

theorem reads_carry (h : t.versions.carry = .empty) (hversion : carrySnapshotVersion ≤ version) :
    Reads (loadCarry version t) vs.writeCarryTo
      { t with versions := { t.versions with carry := vs.carry } } := by
  rw [loadCarry, if_pos hversion]
  exact (VersionSwitch.reads_carry h).map _

theorem reads_window (h : t.versions.window = .empty) :
    Reads (loadWindow windowSnapshotVersion t) vs.writeWindowTo { t with versions :=
        { t.versions with carryWindow := vs.carryWindow, window := vs.window } } := by
  exact (VersionSwitch.reads_window h).map _

/-- The layout that the state's own schedules call for, and what it leaves out. -/
theorem snapshotVersion_cases (s : CanonicalSealerState) :
    s.snapshotVersion = windowSnapshotVersion ∨
      (s.snapshotVersion = carrySnapshotVersion ∧ s.versions.window.held = []) ∨
      (s.snapshotVersion = switchSnapshotVersion ∧ s.versions.window.held = [] ∧
        s.versions.carry.held = []) ∨
      (s.snapshotVersion = snapshotWriteVersion ∧ s.versions.window.held = [] ∧
        s.versions.carry.held = [] ∧ s.versions.v4.held = []) := by
  unfold snapshotVersion holdsWindowActivation holdsCarryActivation holdsActivation
  cases s.versions.window.held <;> cases s.versions.carry.held <;>
    cases s.versions.v4.held <;> simp

/-- The sections after the seed digest read back. -/
theorem reads_tail (hset : s.versions.Settled) (hw : s.windows.Storable .default)
    (hvs : t.versions = .start) (hwin : t.windows = .empty) :
    Reads (loadTail cfg s.snapshotVersion t) (s.snapshotTail s.snapshotVersion) { t with
        rules := s.rules
        versions := if s.snapshotVersion = snapshotWriteVersion then .start else s.versions
        windows := if s.snapshotVersion = snapshotWriteVersion then .empty
          else s.windows.reloaded .default s.windows.used } := by
  have hrules := (DecisionRules.reads_rules s.rules).map fun r => { t with rules := r }
  -- a version that has the switch restores the switch it read
  have hkeep : ∀ {version : Int} {vs : VersionSwitch}, version ≠ snapshotWriteVersion →
      vs = s.versions → Reads (loadTail cfg version t) (s.snapshotTail version) { t with
          rules := s.rules, versions := vs
          windows := s.windows.reloaded .default s.windows.used } →
      Reads (loadTail cfg version t) (s.snapshotTail version) { t with
          rules := s.rules
          versions := if version = snapshotWriteVersion then .start else s.versions
          windows := if version = snapshotWriteVersion then .empty
            else s.windows.reloaded .default s.windows.used } := by
    rintro version _ hne rfl hread
    rwa [if_neg hne, if_neg hne]
  rcases s.snapshotVersion_cases with hv | ⟨hv, hwnil⟩ | ⟨hv, hwnil, hcnil⟩ | ⟨hv, -⟩
  · rw [hv]
    refine hkeep (by decide) rfl ?_
    exact (pure t).bind (hrules.bind ((reads_switch hw (by decide)).bind
      ((reads_carry rfl (by decide)).bind (reads_window rfl))))
  · rw [hv]
    refine hkeep (by decide) (hset.without_window hwnil) ?_
    exact (pure t).bind (hrules.bind ((reads_switch hw (by decide)).bind
      ((reads_carry rfl (by decide)).bind (pure _))))
  · rw [hv]
    refine hkeep (by decide) (hset.without_carry hwnil hcnil) ?_
    exact (pure t).bind (hrules.bind ((reads_switch hw (by decide)).bind ((pure _).bind (pure _))))
  · rw [hv, if_pos rfl, if_pos rfl, ← hvs, ← hwin]
    exact (pure t).bind (hrules.bind ((pure _).bind ((pure _).bind (pure _))))

/-- **The round trip.** A storable state reads back from the bytes that `takeSnapshot` writes. -/
theorem reads_snapshot (h : s.Storable cfg) (hset : s.versions.Settled)
    (hvoids : Reads (VoidLedger.readFrom cfg.voids)
      (s.voids.writeTo cfg.voids s.canonicalCount) voids) :
    Reads (load cfg) (s.snapshotBytes cfg s.snapshotVersion) (s.reloaded voids) := by
  have hmin : longMin ≤ 0 := by decide
  have hversion : 14 ≤ s.snapshotVersion ∧ s.snapshotVersion ≤ 18 := by
    rcases s.snapshotVersion_cases with hv | ⟨hv, -⟩ | ⟨hv, -⟩ | ⟨hv, -⟩ <;> rw [hv] <;> decide
  have hfile : s.snapshotVersion ≠ retainedFileSnapshotVersion := by
    unfold retainedFileSnapshotVersion; omega
  refine (reads_int (by decide) (by decide)).bind (check rfl
    ((reads_int (by omega) (by omega)).bind (check ⟨by omega, by omega⟩
      ((reads_long (hmin.trans h.canonicalCount.1) h.canonicalCount.2).bind
        ((reads_long (hmin.trans h.blockNumber.1) h.blockNumber.2).bind ?_)))))
  rw [if_pos hfile]
  refine map (a := { s.reloaded voids with canonicalCount := 0 })
    (fun t => { t with canonicalCount := s.canonicalCount }) ?_
  have hv : ∀ {k : Int}, k ≤ 14 → k ≤ s.snapshotVersion := fun hk => hk.trans hversion.1
  refine bind (reads_ids h.ids h.ids_int h.held h.blockNumber.1 rfl (hv (by decide))) ?_
  refine bind (reads_senders h.senders rfl (hv (by decide))) ?_
  refine bind (reads_origin h (hv (by decide))) ?_
  refine bind (reads_peers h rfl (hv (by decide))) ?_
  refine bind (reads_voids hvoids (hv (by decide)) hfile) ?_
  refine bind (reads_orderingWindow cfg (hv (by decide))) ?_
  refine bind (reads_postedHead h (hv (by decide))) ?_
  refine bind (reads_seed (hv (by decide))) ?_
  exact reads_tail hset h.windows rfl rfl

end CanonicalSealerState

end Kardamom.Sealer
