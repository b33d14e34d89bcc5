import Kardamom.Sequencer.EpochSystem
import Kardamom.Wire.Agreement

/-!
# Epochs are ordered once each

The invariant of the lanes and the sealer (`Inv`), over any interleaving of pump calls, deliveries and
other sealer calls: what the sealer ordered is a range of L1 blocks that ends at its origin; every
confirmation on its way to a pump names the origin of a boundary that was emitted; and a pump still
holds every epoch that it took, but for the ones at or below such an origin.
-/

namespace Kardamom.Sequencer

open Sealer (CanonicalSealerState SealerConfig Boundary boundariesOf)
open Sealer.CanonicalSealerState (Op emitted Effect step_effect)
open Wire (EpochRecord)
open Words EpochPump Machine Function List Int64 List EpochSystem Option EpochLane

namespace EpochSystem

/-! ## The range of ordered epochs -/

/-- The sealer went from `origin` to `origin'` by ordering these epochs: consecutive L1 blocks, from
the one after `origin` if the sealer held an origin. -/
structure Ranges (origin origin' : Int64) (ordered : List EpochRecord) (first : Nat) : Prop where
  numbers : ordered.map (fun e => e.l1Number.toNat) = range' first ordered.length
  first_eq : 0 < origin → (first : Int) = origin.toInt + 1
  first_pos : 0 < first
  last : ordered ≠ [] → origin'.toInt + 1 = first + ordered.length
  none : ordered = [] → origin' = origin

section

variable {origin origin' : Int64} {ordered : List EpochRecord} {first : Nat}
  (h : Ranges origin origin' ordered first)
include h

theorem Ranges.origin_pos (hne : ordered ≠ []) : 0 < origin' := by
  have hlast := h.last hne
  have hlen : 0 < ordered.length := length_pos_iff.2 hne
  have hpos := h.first_pos
  rw [lt_iff_toInt_lt]
  show (0 : Int) < origin'.toInt
  omega

/-- One more epoch, as the sealer accepts it. -/
theorem Ranges.snoc (h₀ : 0 ≤ origin') (e : EpochRecord) (hadv : origin' < e.l1Number.toInt64)
    (hgap : 0 < origin' → e.l1Number.toInt64 = origin' + 1) :
    ∃ first', Ranges origin e.l1Number.toInt64 (ordered ++ [e]) first' := by
  have hnonneg : 0 ≤ e.l1Number.toInt64 := Int64.le_trans h₀ (Int64.le_of_lt hadv)
  have hvalue : e.l1Number.toInt64.toInt = e.l1Number.toNat := toInt_toInt64 hnonneg
  have hnext : 0 < origin' → (e.l1Number.toNat : Int) = origin'.toInt + 1 := fun hpos => by
    rw [← hvalue, hgap hpos]
    exact Sealer.Stream.toInt_add_one (hgap hpos ▸ hadv)
  have hlt := lt_iff_toInt_lt.1 hadv
  have hle := le_iff_toInt_le.1 h₀
  have hzero : (0 : Int64).toInt = 0 := rfl
  cases hnil : ordered with
  | nil =>
    -- the first one: any block at origin 0, the next one otherwise
    have horigin : origin' = origin := h.none hnil
    refine ⟨e.l1Number.toNat, ⟨rfl, fun hpos => ?_, by omega, fun _ => by rw [hvalue]; simp, nofun⟩⟩
    rw [← horigin]
    exact hnext (horigin ▸ hpos)
  | cons d rest =>
    have hne : ordered ≠ [] := by simp [hnil]
    have hnumber := hnext (h.origin_pos hne)
    have hlast := h.last hne
    rw [← hnil]
    refine ⟨first, ⟨?_, h.first_eq, h.first_pos, fun _ => ?_, by simp⟩⟩
    · rw [map_append, h.numbers, length_append, length_singleton,
        range'_1_concat]
      congr 1
      simp only [map_cons, map_nil, cons.injEq, and_true]
      omega
    · rw [hvalue, length_append, length_singleton]
      omega

end

/-! ## The invariant -/

/-- A boundary with this origin was emitted. -/
def Seen (bs : List Boundary) (origin : UInt64) : Prop := ∃ b ∈ bs, b.l1Origin.toUInt64 = origin

theorem Seen.append {bs : List Boundary} {origin : UInt64} (h : Seen bs origin)
    (bs' : List Boundary) : Seen (bs ++ bs') origin := by
  obtain ⟨b, hb, ho⟩ := h
  exact ⟨b, mem_append_left _ hb, ho⟩

/-- What holds of a lane when the boundaries `bs` were emitted. -/
structure LaneInv (epochs : List EpochRecord) (bs : List Boundary) (l : EpochLane) : Prop where
  ordered : l.pump.Ordered
  queue : ∀ e ∈ l.pump.unconfirmed, e ∈ epochs
  signals : ∀ origin, .confirmed origin ∈ l.signals → Seen bs origin
  confirmed : ∀ origin, l.pump.confirmed = some origin → Seen bs origin
  taken_mem : ∀ e ∈ l.taken, e ∈ epochs
  taken : ∀ e ∈ l.taken, e ∈ l.pump.unconfirmed ∨ ∃ origin, Seen bs origin ∧ e.l1Number ≤ origin

theorem laneInv_new (epochs : List EpochRecord) (grace : Nat) :
    LaneInv epochs [] (EpochLane.new grace) :=
  ⟨ordered_new grace, nofun, nofun, nofun, nofun, nofun⟩

variable {epochs : List EpochRecord} {bs : List Boundary} {l : EpochLane}

/-- The feed passes on boundaries that were emitted. -/
theorem LaneInv.confirmOrigins (h : LaneInv epochs bs l) (new : List Boundary) :
    LaneInv epochs (bs ++ new) (l.confirmOrigins new) := by
  induction new generalizing bs l with
  | nil => rw [append_nil]; exact h
  | cons b new ih =>
    have hone : LaneInv epochs (bs ++ [b]) (l.confirmOrigin b.l1Origin.toUInt64) := by
      have hold : LaneInv epochs (bs ++ [b]) l :=
        ⟨h.ordered, h.queue, fun o ho => (h.signals o ho).append _,
          fun o ho => (h.confirmed o ho).append _, h.taken_mem,
          fun e he => (h.taken e he).imp_right fun ⟨o, ho, hle⟩ => ⟨o, ho.append _, hle⟩⟩
      unfold confirmOrigin
      split
      case isTrue => exact hold
      case isFalse =>
        refine { hold with signals := fun o ho => ?_ }
        rcases mem_append.1 ho with ho | ho
        · exact hold.signals o ho
        · obtain rfl : o = b.l1Origin.toUInt64 := by simpa using ho
          exact ⟨b, mem_append_right _ mem_cons_self, rfl⟩
    have hall := ih hone
    rw [append_assoc] at hall
    exact hall

theorem LaneInv.signalGap (h : LaneInv epochs bs l) (expected : UInt64) :
    LaneInv epochs bs { l with signals := l.signals ++ [.gap expected] } :=
  { h with signals := fun o ho => h.signals o (by simpa using ho) }

variable {e : EpochRecord}

theorem mem_of_polledEpoch {feed : Feed} {polled : Except SequencerError (Option Nat)}
    (h : polledEpoch feed polled = .ok (some e)) : e ∈ feed.epochs := by
  match polled with
  | .error err => cases h
  | .ok none => cases h
  | .ok (some k) => exact mem_of_getElem? (Except.ok.inj h)

/-- The feed is a stretch of the L1 chain: consecutive block numbers. -/
def Feed.Consecutive (feed : Feed) : Prop :=
  ∃ n, feed.epochs.map (fun e => e.l1Number.toNat) = range' n feed.epochs.length

variable {feed : Feed}

theorem Feed.Consecutive.unique (h : feed.Consecutive) :
    ∀ e ∈ feed.epochs, ∀ e' ∈ feed.epochs, e.l1Number = e'.l1Number → e = e' := by
  obtain ⟨n, hn⟩ := h
  have hnodup : (feed.epochs.map fun e => e.l1Number.toNat).Nodup := hn ▸ nodup_range'
  intro e he e' he' hnumber
  exact inj_on_of_nodup_map hnodup he he' (congrArg UInt64.toNat hnumber)

variable (hfeed : feed.Consecutive) (now arrived : Nat) (polled : Except SequencerError (Option Nat))
  (published : Except SequencerError Unit)

include hfeed in
/-- One relay call keeps what holds of the lane. -/
theorem LaneInv.relay (h : LaneInv feed.epochs bs l) :
    LaneInv feed.epochs bs (relayLane feed l now arrived polled published).1 := by
  have hread : ∀ origin, .confirmed origin ∈ l.signals.take arrived → Seen bs origin :=
    fun origin ho => h.signals origin (mem_of_mem_take ho)
  have hqueue : ∀ e ∈ (relayLane feed l now arrived polled published).1.pump.unconfirmed,
      e ∈ feed.epochs := fun e he =>
    (mem_of_mem_relay he).elim (h.queue e) mem_of_polledEpoch
  -- the epochs that this call polled
  have hpolled : ∀ e, (l.pump.takeSignals now (l.signals.take arrived)).polls = true →
      polledEpoch feed polled = .ok (some e) →
      e ∈ (relayLane feed l now arrived polled published).1.pump.unconfirmed ∨
        ∃ origin, Seen bs origin ∧ e.l1Number ≤ origin := by
    intro e hpolls he
    have hcases := polled_relay published h.ordered e hpolls
    rw [← he] at hcases
    rcases hcases with ⟨e', hmem, hnumber⟩ | ⟨origin, hconf, hle⟩
    · rw [hfeed.unique e (mem_of_polledEpoch he) e' (hqueue e' hmem) hnumber.symm]
      exact .inl hmem
    · refine .inr ⟨origin, ?_, hle⟩
      exact (confirmed_takeSignals hconf).elim (h.confirmed origin) (hread origin)
  have htaken : ∀ e ∈ (relayLane feed l now arrived polled published).1.taken, e ∈ l.taken ∨
      (l.pump.takeSignals now (l.signals.take arrived)).polls = true ∧
        polledEpoch feed polled = .ok (some e) := by
    intro e he
    refine (mem_append.1 he).imp_right fun hnew => ?_
    split at hnew
    case isTrue hpolls =>
      refine ⟨hpolls, ?_⟩
      cases hp : polledEpoch feed polled with
      | error err => simp [hp, Except.toOption] at hnew
      | ok epoch =>
        have : epoch = some e := by simpa [hp, Except.toOption] using hnew
        rw [this]
    case isFalse => cases hnew
  refine ⟨h.ordered.relay .., hqueue, ?_, ?_, ?_, ?_⟩
  · exact fun origin ho => h.signals origin (mem_of_mem_drop ho)
  · exact fun origin ho => (confirmed_relay ho).elim (h.confirmed origin) (hread origin)
  · exact fun e he => (htaken e he).elim (h.taken_mem e) fun hnew => mem_of_polledEpoch hnew.2
  · intro e he
    rcases htaken e he with hold | ⟨hpolls, hnew⟩
    · rcases h.taken e hold with hheld | hseen
      · refine (mem_relay _ _ _ _ hheld).imp_right fun ⟨origin, ho, hle⟩ => ?_
        exact ⟨origin, hread origin ho, hle⟩
      · exact .inr hseen
    · exact hpolled e hpolls hnew

variable {ι : Type}

/-- What holds of the system after the history `τ`. -/
structure Inv (feed : Feed) (origin : Int64) (σ : EpochSystem ι) (τ : List (Move ι × Out)) : Prop where
  nonneg : 0 ≤ σ.sealer.l1Origin
  ranges : ∃ first, Ranges origin σ.sealer.l1Origin (orderedOf τ) first
  ordered_mem : ∀ e ∈ orderedOf τ, e ∈ feed.epochs
  network : ∀ o ∈ σ.network, o.2 ∈ feed.epochs
  lanes : ∀ i, LaneInv feed.epochs (boundariesIn τ) (σ.lanes i)
  boundaries : ∀ b ∈ boundariesIn τ, 0 ≤ b.l1Origin ∧ b.l1Origin ≤ σ.sealer.l1Origin

theorem inv_start (feed : Feed) {s₀ : CanonicalSealerState} (h₀ : 0 ≤ s₀.l1Origin)
    (grace : ι → Nat) : Inv feed s₀.l1Origin (start s₀ grace) [] where
  nonneg := h₀
  ranges := by
    have hnonneg := le_iff_toInt_le.1 h₀
    have hzero : (0 : Int64).toInt = 0 := rfl
    refine ⟨(s₀.l1Origin.toInt + 1).toNat, ⟨rfl, fun _ => ?_, ?_, nofun, fun _ => rfl⟩⟩ <;> omega
  ordered_mem := nofun
  network := nofun
  lanes i := laneInv_new feed.epochs (grace i)
  boundaries := nofun

variable {cfg : SealerConfig} {origin : Int64} {σ : EpochSystem ι}
  {τ : List (Move ι × Out)}

section

variable (τ : List (Move ι × Out)) (m : Move ι) (o : Out)

theorem orderedOf_snoc :
    orderedOf (τ ++ [(m, o)]) = orderedOf τ ++ o.ordered.toList :=
  filterMap_snoc ..

theorem boundariesIn_snoc :
    boundariesIn (τ ++ [(m, o)]) = boundariesIn τ ++ boundariesOf o.emitted := by
  simp [boundariesIn]

end

variable [DecidableEq ι]

section

variable (h : Inv feed origin σ τ)
include h

omit [DecidableEq ι] in
/-- A move in which the sealer does nothing. -/
theorem Inv.quiet (m : Move ι) : Inv feed origin σ (τ ++ [(m, .none)]) := by
  have hordered : orderedOf (τ ++ [(m, .none)]) = orderedOf τ := by
    rw [orderedOf_snoc]; exact append_nil _
  have hbounds : boundariesIn (τ ++ [(m, .none)]) = boundariesIn τ := by
    rw [boundariesIn_snoc]; exact append_nil _
  exact ⟨h.nonneg, hordered ▸ h.ranges, hordered ▸ h.ordered_mem, h.network, hbounds ▸ h.lanes,
    hbounds ▸ h.boundaries⟩

omit [DecidableEq ι] in
/-- A call of the sealer, given what it did to the origin. -/
theorem Inv.call (m : Move ι) (op : Op) (ordered : Option EpochRecord)
    (hgrow : σ.sealer.l1Origin ≤ (callSealer cfg σ op).1.sealer.l1Origin)
    (hranges : ∃ first, Ranges origin (callSealer cfg σ op).1.sealer.l1Origin
      (orderedOf τ ++ ordered.toList) first)
    (hmem : ∀ e ∈ ordered, e ∈ feed.epochs) :
    Inv feed origin (callSealer cfg σ op).1
      (τ ++ [(m, ⟨emitted op (callSealer cfg σ op).2, ordered⟩)]) := by
  have heffect := step_effect cfg σ.sealer op
  have hnew := l1Origin_of_boundary heffect
  refine ⟨Int64.le_trans h.nonneg hgrow, ?_, ?_, h.network, fun i => ?_, ?_⟩
  · rw [orderedOf_snoc]; exact hranges
  · rw [orderedOf_snoc]
    intro e he
    exact (mem_append.1 he).elim (h.ordered_mem e) fun hnew => hmem e (mem_toList.1 hnew)
  · rw [boundariesIn_snoc]
    exact (h.lanes i).confirmOrigins _
  · rw [boundariesIn_snoc]
    intro b hb
    rcases mem_append.1 hb with hb | hb
    · exact ⟨(h.boundaries b hb).1, Int64.le_trans (h.boundaries b hb).2 hgrow⟩
    · rw [hnew b hb]
      exact ⟨h.nonneg, hgrow⟩

/-- A change of one lane. -/
theorem Inv.update (i : ι) {l : EpochLane} (hl : LaneInv feed.epochs (boundariesIn τ) l) (j : ι) :
    LaneInv feed.epochs (boundariesIn τ) (update σ.lanes i l j) := by
  by_cases hj : j = i
  · subst hj
    rwa [update_self]
  · rw [update_of_ne hj]
    exact h.lanes j

theorem Inv.signalGap (i : ι) (expected : UInt64) : Inv feed origin (σ.signalGap i expected) τ :=
  { h with lanes := h.update i ((h.lanes i).signalGap expected) }

omit [DecidableEq ι] in
/-- A call that leaves the origin. -/
theorem Inv.refused (m : Move ι) (op : Op)
    (hsame : (callSealer cfg σ op).1.sealer.l1Origin = σ.sealer.l1Origin) :
    Inv feed origin (callSealer cfg σ op).1
      (τ ++ [(m, ⟨emitted op (callSealer cfg σ op).2, none⟩)]) :=
  h.call m op none (Int64.le_of_eq hsame.symm)
    (by rw [hsame, toList_none, append_nil]; exact h.ranges) nofun

include hfeed in
/-- A relay call keeps the invariant. -/
theorem Inv.relay (i : ι) : Inv feed origin (σ.relay feed i now arrived polled published) τ := by
  have hlane := (h.lanes i).relay hfeed now arrived polled published
  refine { h with network := fun o ho => ?_, lanes := h.update i hlane }
  rcases mem_append.1 ho with ho | ho
  · exact h.network o ho
  · obtain ⟨e, he, rfl⟩ := mem_map.1 ho
    exact hlane.queue e (mem_of_offered (mem_toList.1 he))

/-- The offer of an epoch keeps the invariant: it is ordered as the next one, or refused. -/
theorem Inv.offer (m : Move ι) (i : ι) {epoch : EpochRecord} (hmem : epoch ∈ feed.epochs) (clock : Int) :
    Inv feed origin (σ.offer cfg feed i epoch clock).1
      (τ ++ [(m, (σ.offer cfg feed i epoch clock).2)]) := by
  have heffect := l1Origin_of_offer (step_effect cfg σ.sealer (offerOp feed epoch clock))
  unfold EpochSystem.offer
  dsimp only
  rcases heffect with ⟨hsame, hno⟩ | ⟨hset, hadv, hgap, a, ha⟩
  · have hquiet : Inv feed origin (callSealer cfg σ (offerOp feed epoch clock)).1 _ :=
      h.refused m _ hsame
    split
    case h_1 expected _ => exact hquiet.signalGap i expected.toUInt64
    case h_2 a ha => exact absurd ha (hno a)
    case h_3 => exact hquiet
  · obtain ⟨first, hranges⟩ := h.ranges
    split
    case h_1 hans => exact absurd (ha.symm.trans hans) (by simp)
    case h_2 =>
      refine h.call m (offerOp feed epoch clock) (some epoch) ?_ ?_ ?_
      · exact Int64.le_of_lt (hset ▸ hadv)
      · exact hset ▸ hranges.snoc h.nonneg epoch hadv hgap
      · rintro e ⟨⟩
        exact hmem
    case h_3 _ hother => exact absurd ha (hother a)

include hfeed in
/-- **One move** keeps the invariant. -/
theorem Inv.step (m : Move ι) : Inv feed origin (step cfg feed σ m).1 (τ ++ [(m, (step cfg feed σ m).2)]) := by
  cases m with
  | relay i now arrived polled published =>
    exact (h.relay hfeed now arrived polled published i).quiet _
  | deliver k clock =>
    rw [EpochSystem.step]
    cases hget : σ.network[k]? with
    | none => exact h.quiet _
    | some o => exact h.offer _ o.1 (h.network o (mem_of_getElem? hget)) clock
  | call op =>
    rw [EpochSystem.step]
    cases hop : isOffer op with
    | true => exact h.quiet _
    | false => exact h.refused _ op (l1Origin_of_call (step_effect cfg σ.sealer op) hop)

end

/-! ## Runs -/

/-- **Every run** keeps the invariant. -/
theorem inv_run (hfeed : feed.Consecutive) {s₀ : CanonicalSealerState} (h₀ : 0 ≤ s₀.l1Origin)
    (grace : ι → Nat) (moves : List (Move ι)) :
    Inv feed s₀.l1Origin (run (step cfg feed) (start s₀ grace) moves).1
      (run (step cfg feed) (start s₀ grace) moves).2 :=
  run_induction (inv_start feed h₀ grace) (fun _ _ m h => h.step hfeed m) moves

omit [DecidableEq ι] in
/-- An epoch that a lane took is still there, was ordered, or lies below what the sealer orders. -/
theorem Inv.taken (h : Inv feed origin σ τ) (hfeed : feed.Consecutive) {first : Nat}
    (hranges : Ranges origin σ.sealer.l1Origin (orderedOf τ) first) (i : ι)
    (he : e ∈ (σ.lanes i).taken) :
    e ∈ (σ.lanes i).pump.unconfirmed ∨ e ∈ orderedOf τ ∨ e.l1Number.toNat < first := by
  refine ((h.lanes i).taken e he).imp_right fun ⟨o, ⟨b, hb, ho⟩, hle⟩ => ?_
  by_cases hfirst : e.l1Number.toNat < first
  · exact .inr hfirst
  -- the boundary that confirmed it lies in what was ordered
  obtain ⟨hb₀, hbound⟩ := h.boundaries b hb
  have hvalue : (o.toNat : Int) = b.l1Origin.toInt := by rw [← ho]; exact toNat_toUInt64 hb₀
  have hlast := le_iff_toInt_le.1 hbound
  have hnumber := UInt64.le_iff_toNat_le.1 hle
  have hne : orderedOf τ ≠ [] := by
    intro hnil
    have hsame : σ.sealer.l1Origin = origin := hranges.none hnil
    have hpos := hranges.first_pos
    have horigin : 0 < origin := by
      rw [lt_iff_toInt_lt, ← hsame]
      show (0 : Int) < σ.sealer.l1Origin.toInt
      omega
    have := hranges.first_eq horigin
    rw [hsame] at hlast
    omega
  have hend := hranges.last hne
  have hin : e.l1Number.toNat ∈ (orderedOf τ).map fun e => e.l1Number.toNat := by
    rw [hranges.numbers, mem_range'_1]
    omega
  obtain ⟨e', he', heq⟩ := mem_map.1 hin
  rw [hfeed.unique e ((h.lanes i).taken_mem e he) e' (h.ordered_mem e' he')
    (UInt64.toNat_inj.1 heq.symm)]
  exact .inl he'

theorem pump_confirmOrigins (l : EpochLane) (bs : List Boundary) :
    (l.confirmOrigins bs).pump = l.pump := by
  induction bs generalizing l with
  | nil => rfl
  | cons b bs ih =>
    refine (ih _).trans ?_
    show (l.confirmOrigin b.l1Origin.toUInt64).pump = l.pump
    unfold confirmOrigin
    split <;> rfl

theorem pump_offer (σ : EpochSystem ι) (i : ι) (epoch : EpochRecord) (clock : Int) (j : ι) :
    ((σ.offer cfg feed i epoch clock).1.lanes j).pump = (σ.lanes j).pump := by
  have hcall (j : ι) : ((callSealer cfg σ (offerOp feed epoch clock)).1.lanes j).pump
      = (σ.lanes j).pump := pump_confirmOrigins ..
  unfold offer
  dsimp only
  split
  case h_1 =>
    rw [← hcall j, signalGap]
    by_cases hj : j = i
    · subst hj
      simp
    · simp [update_of_ne hj]
  case h_2 => exact hcall j
  case h_3 => exact hcall j

/-- What one move removes from a queue: only what a confirmation that arrived allows. -/
theorem mem_step {i : ι} (he : e ∈ (σ.lanes i).pump.unconfirmed) (m : Move ι) :
    e ∈ ((step cfg feed σ m).1.lanes i).pump.unconfirmed ∨
      ∃ o, .confirmed o ∈ (σ.lanes i).signals ∧ e.l1Number ≤ o := by
  cases m with
  | relay j now arrived polled published =>
    show e ∈ (update σ.lanes j _ i).pump.unconfirmed ∨ _
    by_cases hj : i = j
    · subst hj
      rw [update_self]
      exact (mem_relay _ _ _ _ he).imp_right fun ⟨o, ho, hle⟩ => ⟨o, mem_of_mem_take ho, hle⟩
    · rw [update_of_ne hj]
      exact .inl he
  | deliver k clock =>
    rw [step]
    cases σ.network[k]? with
    | none => exact .inl he
    | some o =>
      rw [pump_offer]
      exact .inl he
  | call op =>
    rw [step]
    cases isOffer op with
    | true => exact .inl he
    | false =>
      refine .inl ?_
      show e ∈ ((σ.lanes i).confirmOrigins _).pump.unconfirmed
      rwa [pump_confirmOrigins]

/-- **Epochs are ordered once each.** Whatever the network does with the offers, after every run the
sealer has ordered consecutive L1 epochs, each once: from the one after its first origin if it held
one, from any epoch otherwise. No epoch that a pump took is lost: the pump still holds it, or it is
ordered, or it lies below the first one. Each queue is strictly ascending with its cursor in it, loses
an epoch only to a confirmation that a boundary at or above it caused, and after a rewind to an epoch
that it holds offers that epoch next, or an earlier one that the cursor had not passed. -/
theorem epochs_once (cfg : SealerConfig) (hfeed : feed.Consecutive) (s₀ : CanonicalSealerState) (h₀ : 0 ≤ s₀.l1Origin)
    (grace : ι → Nat) (moves : List (Move ι)) :
    let r := run (step cfg feed) (start s₀ grace) moves
    (∃ first, (orderedOf r.2).map (fun e => e.l1Number.toNat)
          = range' first (orderedOf r.2).length ∧
        (0 < s₀.l1Origin → (first : Int) = s₀.l1Origin.toInt + 1) ∧
        (∀ e ∈ orderedOf r.2, e ∈ feed.epochs) ∧
        ∀ i, ∀ e ∈ (r.1.lanes i).taken,
          e ∈ (r.1.lanes i).pump.unconfirmed ∨ e ∈ orderedOf r.2 ∨ e.l1Number.toNat < first) ∧
      ∀ i, let p := (r.1.lanes i).pump
        p.unconfirmed.Pairwise (fun a b => a.l1Number < b.l1Number) ∧
        p.next ≤ p.unconfirmed.length ∧
        (∀ m, ∀ e ∈ p.unconfirmed, e ∈ ((step cfg feed r.1 m).1.lanes i).pump.unconfirmed ∨
          ∃ b ∈ boundariesIn r.2, .confirmed b.l1Origin.toUInt64 ∈ (r.1.lanes i).signals ∧
            e.l1Number ≤ b.l1Origin.toUInt64) ∧
        ∀ now expected, (∃ e ∈ p.unconfirmed, e.l1Number = expected) →
          ∃ e, (p.rewind now expected).toOffer = some e ∧
            (p.place expected ≤ p.next → e.l1Number = expected) ∧
            (p.next < p.place expected → p.unconfirmed[p.next]? = some e ∧ e.l1Number < expected) := by
  intro r
  have hinv : Inv feed s₀.l1Origin r.1 r.2 := inv_run hfeed h₀ grace moves
  refine ⟨?_, fun i => ?_⟩
  · obtain ⟨first, hranges⟩ := hinv.ranges
    exact ⟨first, hranges.numbers, hranges.first_eq, hinv.ordered_mem,
      fun i e he => hinv.taken hfeed hranges i he⟩
  · have hlane := hinv.lanes i
    refine ⟨hlane.ordered.ascending, hlane.ordered.next_le, fun m e he => ?_, fun now expected hheld => ?_⟩
    · refine (mem_step he m).imp_right fun ⟨o, ho, hle⟩ => ?_
      obtain ⟨b, hb, rfl⟩ := hlane.signals o ho
      exact ⟨b, hb, ho, hle⟩
    · exact toOffer_rewind hlane.ordered (hlane.ordered.holds_iff.2 hheld)

/-! ## On one run -/

/-- The first four L1 epochs. -/
def fourEpochs : Feed := ⟨Wire.sampleCodecs, [⟨1, 11, []⟩, ⟨2, 12, []⟩, ⟨3, 13, []⟩, ⟨4, 14, []⟩]⟩

/-- Two lanes: the lane `true` gets ahead by itself, the lane `false` polls four epochs, of which two
reach the sealer too early. -/
def crossedOffers : List (Move Bool) :=
  [.relay true 0 0 (.ok (some 0)) (.ok ()), .deliver 0 0,
    .relay false 0 0 (.ok (some 0)) (.ok ()), .relay false 0 0 (.ok (some 1)) (.ok ()),
    .relay false 0 0 (.ok (some 2)) (.ok ()), .relay false 0 0 (.ok (some 3)) (.ok ()),
    .deliver 3 0,
    .relay true 0 0 (.ok (some 1)) (.ok ()), .deliver 5 0, .deliver 4 0]

/-- The lane `false` reads the rewind to epoch 2, the confirmation of epoch 1 and the rewind to epoch 3
in one call. The last rewind finds the cursor at epoch 2: epoch 3 is expected and held, and epoch 2 is
offered. -/
theorem rewind_before_expected :
    let l := (run (step .default fourEpochs) (start .genesis fun _ => 0) crossedOffers).1.lanes
      false
    let p := l.pump.takeSignals 0 [.gap 2, .confirmed 1]
    l.signals = [.gap 2, .confirmed 1, .gap 3] ∧ (∃ e ∈ p.unconfirmed, e.l1Number = 3) ∧
      (p.rewind 0 3).toOffer = some ⟨2, 12, []⟩ ∧
      (l.pump.relay 0 l.signals (.ok none) (.ok ())).2.offered = some ⟨2, 12, []⟩ := by
  decide +kernel

/-- The theorem on this run: its two ordered epochs are consecutive. -/
theorem epochs_once_sample : fourEpochs.Consecutive ∧ 0 ≤ CanonicalSealerState.genesis.l1Origin ∧
      ∃ first, (orderedOf (run (step .default fourEpochs) (start .genesis fun _ => 0)
        crossedOffers).2).map (fun e => e.l1Number.toNat) = range' first 2 := by
  have hfeed : fourEpochs.Consecutive := ⟨1, by decide⟩
  refine ⟨hfeed, by decide, ?_⟩
  obtain ⟨⟨first, hnumbers, -⟩, -⟩ :=
    epochs_once .default hfeed .genesis (by decide) (fun _ => 0) crossedOffers
  have hlen : (orderedOf (run (step .default fourEpochs) (start .genesis fun _ => 0)
      crossedOffers).2).length = 2 := by decide +kernel
  exact ⟨first, hlen ▸ hnumbers⟩

end EpochSystem

end Kardamom.Sequencer
