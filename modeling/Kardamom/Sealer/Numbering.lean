import Kardamom.Sealer.Stream

/-!
# Canonical numbering and block structure

Every run of the sealer, from genesis or a seed, emits a canonical stream: `run_stream` shows that
each effect of a step grows the stream in one of its two ways, and that the sealer's counters are
the cursor of the stream. `canonical_numbering` reads off what that means for the relayed entries
and the boundaries.

The sealer keeps `lastBoundaryCount` to know whether the open block is empty; the invariant of the
refinement is only that it does not run ahead of `canonicalCount`.
-/

namespace Kardamom.Sealer.CanonicalSealerState

open Machine List

/-- The emissions of a whole history. -/
def emissions (τ : List (Op × Answer)) : List Emission := τ.flatMap fun x => emitted x.1 x.2

@[simp] theorem emissions_append (τ τ' : List (Op × Answer)) :
    emissions (τ ++ τ') = emissions τ ++ emissions τ' := flatMap_append

@[simp] theorem emissions_singleton (op : Op) (ans : Answer) :
    emissions [(op, ans)] = emitted op ans := by
  simp [emissions]

/-- Where the stream of the sealer stands. -/
def cursor (s : CanonicalSealerState) : StreamCursor where
  count := s.canonicalCount
  block := s.blockNumber
  time := s.lastL2Timestamp
  origin := s.l1Origin
  openEmpty := decide (s.canonicalCount ≤ s.lastBoundaryCount)

/-- The sealer emitted a canonical stream up to its own counters. -/
structure Streams (start : StreamCursor) (s : CanonicalSealerState) (ems : List Emission) :
    Prop where
  stream : Stream start ems s.cursor
  boundary_le : s.lastBoundaryCount ≤ s.canonicalCount

variable {cfg : SealerConfig} {s s' : CanonicalSealerState} {start : StreamCursor}
  {ems : List Emission} {op : Op} {ans : Answer}

section Counters

variable (h : Streams start s ems) (hb : s'.blockNumber = s.blockNumber) (ht : s'.lastL2Timestamp = s.lastL2Timestamp)
  (ho : s'.l1Origin = s.l1Origin) (hl : s'.lastBoundaryCount = s.lastBoundaryCount)
include h hb ht ho hl

/-- The stream only sees the counters. -/
theorem Streams.congr (hc : s'.canonicalCount = s.canonicalCount) : Streams start s' ems := by
  refine ⟨?_, by rw [hl, hc]; exact h.boundary_le⟩
  have : s'.cursor = s.cursor := by simp [cursor, hc, hb, ht, ho, hl]
  rw [this]
  exact h.stream

/-- A step that moves none of the counters and emits nothing. -/
theorem Streams.quiet (hno : emitted op ans = []) (hc : s'.canonicalCount = s.canonicalCount) :
    Streams start s' (ems ++ emitted op ans) := by
  rw [hno, append_nil]
  exact h.congr hb ht ho hl hc

end Counters

section

variable (h : Streams start s ems)
include h

/-- A step that gives one index to an entry that need not lead its block. -/
theorem Streams.one {kind : EntryKind} (hk : kind.leads = false) (hc : s'.canonicalCount = s.canonicalCount + 1)
    (hb : s'.blockNumber = s.blockNumber) (ht : s'.lastL2Timestamp = s.lastL2Timestamp)
    (ho : s'.l1Origin = s.l1Origin) (hl : s'.lastBoundaryCount = s.lastBoundaryCount) :
    Streams start s' (ems ++ [.entry ⟨kind, s.canonicalCount, 1⟩]) := by
  have hle := h.boundary_le
  refine ⟨?_, by omega⟩
  have hok : EntryKind.OriginOk s.l1Origin kind ∧ EntryKind.originAfter s.l1Origin kind = s.l1Origin := by
    cases kind with
    | origin o => exact Bool.noConfusion hk
    | _ => exact ⟨trivial, rfl⟩
  have hcur : s'.cursor = { s.cursor with
      count := s.cursor.count + 1
      origin := EntryKind.originAfter s.cursor.origin kind
      openEmpty := false } := by
    have hopen : decide (s.canonicalCount + 1 ≤ s.lastBoundaryCount) = false := by
      exact decide_eq_false (by omega)
    simp only [cursor, hc, hb, ht, ho, hl, hok.2, hopen]
  rw [hcur]
  exact h.stream.entry ⟨kind, s.canonicalCount, 1⟩ rfl le_rfl (by simp [hk]) hok.1

/-- A tick stamps the next boundary of the stream. -/
theorem Streams.tick (clock : Int) :
    Streams start (s.onTick clock).1 (ems ++ [.boundary (s.onTick clock).2]) := by
  refine ⟨?_, le_rfl⟩
  have htime : s.lastL2Timestamp < s.nextL2Timestamp clock := by
    unfold nextL2Timestamp
    omega
  have hcur : (s.onTick clock).1.cursor = { s.cursor with
      block := s.cursor.block + 1
      time := (s.onTick clock).2.l2Timestamp
      openEmpty := true } := by
    simp [cursor, onTick]
  rw [hcur]
  exact h.stream.boundary _ rfl rfl htime rfl

/-- Before an origin-advancing record the open block is closed if it holds any entry. -/
theorem Streams.lead (cfg : SealerConfig) (key : CanonicalId) (clock : Int) :
    Streams start (s.leadBlock cfg key clock).1
        (ems ++ ((s.leadBlock cfg key clock).2.map Emission.boundary).toList)
      ∧ (s.leadBlock cfg key clock).1.cursor.openEmpty = true
      ∧ (s.leadBlock cfg key clock).1.l1Origin = s.l1Origin := by
  have h' : Streams start (s.insertFresh cfg key (s.assignedDeadline cfg)) ems :=
    h.congr rfl rfl rfl rfl rfl
  unfold leadBlock
  split
  case isTrue => exact ⟨by simpa using h'.tick clock, by simp [cursor, onTick], rfl⟩
  case isFalse hempty => exact ⟨by simpa using h', by simpa [cursor, insertFresh] using hempty, rfl⟩

/-- An origin-advancing record leads its block and takes its slots. -/
theorem Streams.advance (kind : EntryKind) {key : CanonicalId}
    {clock slots : Int} {payload : Bytes} (hslots : 1 ≤ slots)
    (hk : EntryKind.OriginOk s.l1Origin kind)
    (hc : s'.canonicalCount = s.canonicalCount + slots)
    (hb : s'.blockNumber = (s.leadBlock cfg key clock).1.blockNumber)
    (ht : s'.lastL2Timestamp = (s.leadBlock cfg key clock).1.lastL2Timestamp)
    (ho : s'.l1Origin = EntryKind.originAfter s.l1Origin kind)
    (hl : s'.lastBoundaryCount = (s.leadBlock cfg key clock).1.lastBoundaryCount) :
    Streams start s' (ems ++ emittedAdvance kind slots
      ⟨(s.leadBlock cfg key clock).2, ⟨s.canonicalCount, payload⟩⟩) := by
  obtain ⟨hs, hopen, horigin⟩ := h.lead cfg key clock
  have hcount := leadBlock_canonicalCount cfg s key clock
  have hle := hs.boundary_le
  refine ⟨?_, by omega⟩
  unfold emittedAdvance
  rw [← append_assoc]
  generalize s.leadBlock cfg key clock = r at *
  have hcur : s'.cursor = { r.1.cursor with
      count := r.1.cursor.count + slots
      origin := EntryKind.originAfter r.1.cursor.origin kind
      openEmpty := false } := by
    have hfalse : decide (s.canonicalCount + slots ≤ r.1.lastBoundaryCount) = false := by
      exact decide_eq_false (by omega)
    simp [cursor, hc, hb, ht, ho, hl, hcount, horigin, hfalse]
  rw [hcur]
  exact hs.stream.entry ⟨kind, s.canonicalCount, slots⟩ hcount.symm hslots (fun _ => hopen)
    (by rw [show r.1.cursor.origin = s.l1Origin from horigin]; exact hk)

/-- **One step**: every effect of the sealer grows the canonical stream, or leaves it. -/
theorem Streams.effect (he : Effect cfg s op s' ans) : Streams start s' (ems ++ emitted op ans) := by
  cases he with
  | unchanged hno => rw [hno, append_nil]; exact h
  | inserted | nonceRejected => exact h.quiet rfl rfl rfl rfl rfl rfl
  | recordZero | recordFrom => exact h.one rfl rfl rfl rfl rfl rfl
  | voted => exact h.quiet rfl rfl rfl rfl rfl rfl
  | voided => exact h.one rfl rfl rfl rfl rfl rfl
  | activated => exact h.quiet rfl rfl rfl rfl rfl rfl
  | @refRefused op lane session position o hop ho =>
    have hno : emitted op (.ref o) = [] := by
      cases o with
      | index i => exact absurd rfl (ho i)
      | _ => rcases hop with rfl | ⟨id, rfl⟩ <;> rfl
    exact h.quiet rfl rfl rfl rfl hno rfl
  | carriedRefOrdered | refOrdered => exact h.one rfl rfl rfl rfl rfl rfl
  | ticked => exact h.tick _
  | originAdopted hslots _ hadv hgap => 
    exact h.advance (.origin _) hslots ⟨hadv, hgap⟩ rfl rfl rfl rfl rfl
  | remoteAdopted _ _ _ hslots _ =>
    refine h.advance .remoteOrigin (by omega) trivial rfl rfl rfl ?_ rfl
    exact (h.lead _ _ _).2.2
  | posted | recorded | seedConfirmed => exact h.quiet rfl rfl rfl rfl rfl rfl

end

theorem Started.boundary_eq {s₀ : CanonicalSealerState} (h : Started cfg s₀) :
    s₀.lastBoundaryCount = s₀.canonicalCount ∧ 0 ≤ s₀.l1Origin := by
  cases h with
  | genesis => exact ⟨rfl, by decide⟩
  | seeded seed _ => exact ⟨rfl, seed.l1Origin_nonneg⟩

/-- **Every run**: the sealer emits a canonical stream, and its counters are the stream's cursor. -/
theorem run_stream {s₀ : CanonicalSealerState} (h₀ : Started cfg s₀) (ops : List Op) :
    Streams s₀.cursor (run (step cfg) s₀ ops).1 (emissions (run (step cfg) s₀ ops).2) :=
  run_induction (P := fun s τ => Streams s₀.cursor s (emissions τ)) ⟨.nil, h₀.boundary_eq.1.le⟩
    (fun s τ op h => by
      rw [emissions_append, emissions_singleton]
      exact h.effect (step_effect cfg s op))
    ops

/-! ## What the numbering gives -/

/-- The canonical numbering and block structure of a run from `s₀` to `s` that emitted `ems`. -/
structure CanonicalNumbering (s₀ s : CanonicalSealerState) (ems : List Emission) : Prop where
  /-- Each slot range starts where the one before ends. -/
  ranges_consecutive : (rangesOf ems).IsChain fun r r' => r'.1 = r.1 + r.2
  ranges_disjoint : (rangesOf ems).Pairwise fun r r' => r.1 + r.2 ≤ r'.1
  /-- The ranges cover exactly the indices handed out. -/
  ranges_cover : ∀ x, (∃ r ∈ rangesOf ems, r.1 ≤ x ∧ x < r.1 + r.2) ↔
    s₀.canonicalCount ≤ x ∧ x < s.canonicalCount
  block_numbers : (boundariesOf ems).map Boundary.blockNumber
    = (range (boundariesOf ems).length).map fun k : Nat => s₀.blockNumber + (k : Int)
  /-- A boundary's end is the canonical count at the tick: what the entries before it fill. -/
  end_tx_idx : ∀ pre b post, ems = pre ++ .boundary b :: post →
    Tiles s₀.canonicalCount (rangesOf pre) b.endTxIdx
  timestamps : (boundariesOf ems).Pairwise fun b b' => b.l2Timestamp < b'.l2Timestamp
  boundary_origins : (boundariesOf ems).Pairwise fun b b' => b.l1Origin ≤ b'.l1Origin
  /-- Only the first entry of a block is an origin record or a remote origin record. -/
  leads_block : ∀ block ∈ blocksOf ems, ∀ e ∈ block.tail, e.kind.leads = false
  at_most_one : ∀ block ∈ blocksOf ems, (block.filter fun e => e.kind.leads).length ≤ 1
  /-- The adopted L1 origins, after the one the run started with if any, are consecutive. -/
  origins_consecutive : (Stream.startOrigins s₀.cursor ++ originsOf ems).IsChain
    fun a b => b.toInt = a.toInt + 1

/-- In every run from genesis or a seed, through any interleaving of calls with any clock values,
the relayed entries are numbered without gap or overlap, the boundaries are numbered, ended and
timed in order, an origin-advancing record leads its block, and the adopted origins are
consecutive. -/
theorem canonical_numbering {s₀ : CanonicalSealerState} (h₀ : Started cfg s₀) (ops : List Op) :
    CanonicalNumbering s₀ (run (step cfg) s₀ ops).1
      (emissions (run (step cfg) s₀ ops).2) := by
  have hs := (run_stream h₀ ops).stream
  exact
    { ranges_consecutive := hs.tiles.consecutive
      ranges_disjoint := hs.tiles.disjoint
      ranges_cover := hs.tiles.cover
      block_numbers := hs.blockNumbers.1
      end_tx_idx := fun pre b post => hs.endTxIdx
      timestamps := hs.times.1
      boundary_origins := hs.boundaryOrigins.1
      leads_block := hs.leads.1
      at_most_one := hs.leads_atMostOne
      origins_consecutive := (hs.origins h₀.boundary_eq.2).1 }

/-- A record, then an epoch of three slots that forces a boundary, then a tick at an earlier clock:
the run emits two blocks, the second one led by the epoch. -/
theorem canonical_numbering_of_epoch : Started SealerConfig.default genesis ∧
      emissions (run (step .default) genesis
        [.record 1 0 0 5 [], .originRecord 2 7 3 [] 1000, .tick 0]).2
        = [.entry ⟨.record, 0, 1⟩, .boundary ⟨1, 1, 1000, 0⟩, .entry ⟨.origin 7, 1, 3⟩,
          .boundary ⟨2, 4, 1001, 7⟩] ∧
      CanonicalNumbering genesis
        (run (step .default) genesis [.record 1 0 0 5 [], .originRecord 2 7 3 [] 1000, .tick 0]).1
        (emissions (run (step .default) genesis
          [.record 1 0 0 5 [], .originRecord 2 7 3 [] 1000, .tick 0]).2) :=
  ⟨.genesis, by decide +kernel, canonical_numbering .genesis _⟩

end Kardamom.Sealer.CanonicalSealerState
