import Kardamom.Sealer.Stream
import Kardamom.Sequencer.EpochPump
import Kardamom.Wire.Ingress

/-!
# The epoch lanes and the sealer

Any number of epoch pumps, each behind the feed of its own egress, and one sealer. The pumps' offers
go over a network that may lose, duplicate, delay and reorder them: it keeps every offer that ever
left a pump, and delivers any of them at any time. What the sealer emits reaches each pump in the
sealer's order, as late as it may: the feed turns a boundary whose origin grows into a confirmation
and a refusal of one of its own offers into a gap, and a pump reads some prefix of what arrived.

A pump may be given any epoch of the L1 chain at any poll, in particular the epochs in their order.
-/

namespace Kardamom.Sequencer

open Sealer Function

open Sealer (CanonicalSealerState SealerConfig Boundary Bytes boundariesOf)
open Sealer.CanonicalSealerState (Op Emission emitted)
open Wire (EpochRecord Codecs epochSlots)

/-- One pump with the feed of its egress. -/
structure EpochLane where
  pump : EpochPump
  /-- The highest origin that the feed passed on. -/
  lastOrigin : UInt64
  /-- What the feed sent and the pump has not read. -/
  signals : List OriginSignal
  /-- The epochs that the pump polled. -/
  taken : List EpochRecord

/-- The feed tells the pump that the boundaries reached an origin, once per growth. -/
def EpochLane.confirmOrigin (l : EpochLane) (l1Origin : UInt64) : EpochLane :=
  if l1Origin ≤ l.lastOrigin then l
  else { l with lastOrigin := l1Origin, signals := l.signals ++ [.confirmed l1Origin] }

/-- The feed passes on the boundaries of one sealer call. -/
def EpochLane.confirmOrigins (l : EpochLane) (bs : List Boundary) : EpochLane :=
  bs.foldl (fun l b => l.confirmOrigin b.l1Origin.toUInt64) l

/-- A lane that starts. -/
def EpochLane.new (grace : Nat) : EpochLane := ⟨.new grace, 0, [], []⟩

/-- The lanes, the sealer, and every offer that ever left a pump. -/
structure EpochSystem (ι : Type) where
  sealer : CanonicalSealerState
  lanes : ι → EpochLane
  network : List (ι × EpochRecord)

namespace EpochSystem

variable {ι : Type} [DecidableEq ι]

/-- One move of the system. -/
inductive Move (ι : Type) where
  /-- The pump of `i` is called when `arrived` signals are there; a poll gives an epoch of the chain
  by its place. -/
  | relay (i : ι) (now arrived : Nat) (polled : Except SequencerError (Option Nat))
      (published : Except SequencerError Unit)
  /-- The `k`-th offer reaches the sealer, for the first time or again. -/
  | deliver (k : Nat) (clock : Int)
  /-- Any other call of the sealer. -/
  | call (op : Op)

/-- What the sealer did in a move: what it emitted, and the epoch that it ordered. -/
structure Out where
  emitted : List Emission
  ordered : Option EpochRecord

def Out.none : Out := ⟨[], .none⟩

/-- The L1 chain that the pumps are fed from, and the codecs of the wire. -/
structure Feed where
  codecs : Codecs
  epochs : List EpochRecord

variable (cfg : SealerConfig) (feed : Feed)

/-- The call that an offered epoch makes at the sealer. -/
def offerOp (epoch : EpochRecord) (clock : Int) : Op :=
  .originRecord (epoch.canonicalId feed.codecs) epoch.l1Number.toInt64 (epochSlots epoch)
    (Wire.idBytes (epoch.canonicalId feed.codecs) ++ [Wire.rtEpoch]
      ++ (feed.codecs.epoch.toBytes epoch).toOption.getD []) clock

/-- Whether a call of the sealer is the offer of an epoch. -/
def isOffer : Op → Bool
  | .originRecord .. => true
  | _ => false

section

variable (σ : EpochSystem ι)

/-- A call of the sealer: its boundaries go to every lane. -/
def callSealer (op : Op) : EpochSystem ι × CanonicalSealerState.Answer :=
  let r := CanonicalSealerState.step cfg σ.sealer op
  ({ σ with
      sealer := r.1
      lanes := fun i => (σ.lanes i).confirmOrigins (boundariesOf (emitted op r.2)) }, r.2)

/-- A refusal goes to the lane that made the offer. -/
def signalGap (i : ι) (expected : UInt64) : EpochSystem ι :=
  { σ with
    lanes := update σ.lanes i { σ.lanes i with signals := (σ.lanes i).signals ++ [.gap expected] } }

/-- The epoch of a poll. -/
def polledEpoch (polled : Except SequencerError (Option Nat)) :
    Except SequencerError (Option EpochRecord) :=
  polled.map fun k => k.bind fun k => feed.epochs[k]?

/-- One relay call of the lane `i`. -/
def relayLane (l : EpochLane) (now arrived : Nat) (polled : Except SequencerError (Option Nat))
    (published : Except SequencerError Unit) : EpochLane × Option EpochRecord :=
  let signals := l.signals.take arrived
  let r := l.pump.relay now signals (polledEpoch feed polled) published
  let taken :=
    if (l.pump.takeSignals now signals).polls then
      ((polledEpoch feed polled).toOption.join).toList
    else []
  ({ l with pump := r.1, signals := l.signals.drop arrived, taken := l.taken ++ taken },
    r.2.offered)

/-- The lane `i` makes a relay call; what it offers goes out. -/
def relay (i : ι) (now arrived : Nat)
    (polled : Except SequencerError (Option Nat)) (published : Except SequencerError Unit) :
    EpochSystem ι :=
  let r := relayLane feed (σ.lanes i) now arrived polled published
  { σ with
    lanes := update σ.lanes i r.1
    network := σ.network ++ r.2.toList.map (i, ·) }

/-- The offer of an epoch by the lane `i` reaches the sealer. -/
def offer (i : ι) (epoch : EpochRecord) (clock : Int) : EpochSystem ι × Out :=
  let r := callSealer cfg σ (offerOp feed epoch clock)
  let ems := emitted (offerOp feed epoch clock) r.2
  match r.2 with
  | .originRecord (.ok (.gap expected)) => (r.1.signalGap i expected.toUInt64, ⟨ems, none⟩)
  | .originRecord (.ok (.relayed _)) => (r.1, ⟨ems, some epoch⟩)
  | _ => (r.1, ⟨ems, none⟩)

def step : Move ι → EpochSystem ι × Out
  | .relay i now arrived polled published => (σ.relay feed i now arrived polled published, .none)
  | .deliver k clock =>
    match σ.network[k]? with
    | none => (σ, .none)
    | some (i, epoch) => σ.offer cfg feed i epoch clock
  | .call op =>
    -- only the pumps offer epochs
    if isOffer op then (σ, .none)
    else ((callSealer cfg σ op).1, ⟨emitted op (callSealer cfg σ op).2, none⟩)

end

/-- A system that starts: fresh lanes and an empty network. -/
def start (sealer : CanonicalSealerState) (grace : ι → Nat) : EpochSystem ι :=
  ⟨sealer, fun i => .new (grace i), []⟩

/-- The epochs that the sealer ordered, in order. -/
def orderedOf (τ : List (Move ι × Out)) : List EpochRecord := τ.filterMap fun x => x.2.ordered

/-- The boundaries that the sealer emitted, in order. -/
def boundariesIn (τ : List (Move ι × Out)) : List Boundary :=
  τ.flatMap fun x => boundariesOf x.2.emitted

end EpochSystem

/-! ## What a sealer call does to the L1 origin -/

namespace EpochSystem

open Sealer.CanonicalSealerState (Effect step_effect)

variable {cfg : SealerConfig}

theorem boundary_leadBlock {s : CanonicalSealerState} {key : CanonicalId}
    {clock : Int} {b : Boundary} (h : (s.leadBlock cfg key clock).2 = some b) :
    b.l1Origin = s.l1Origin := by
  unfold CanonicalSealerState.leadBlock at h
  split at h
  · cases h; rfl
  · cases h

theorem boundariesOf_advance (kind : CanonicalSealerState.EntryKind) (slots : Int)
    (a : OriginAdvance) :
    boundariesOf (CanonicalSealerState.emittedAdvance kind slots a) = a.forced.toList := by
  unfold CanonicalSealerState.emittedAdvance
  cases a.forced <;> rfl

variable {ans : CanonicalSealerState.Answer} {s s' : CanonicalSealerState}

/-- Every boundary carries the origin that the sealer held before the call. -/
theorem l1Origin_of_boundary {op : Op} (he : Effect cfg s op s' ans) :
    ∀ b ∈ boundariesOf (emitted op ans), b.l1Origin = s.l1Origin := by
  cases he with
  | unchanged hno => rw [hno]; nofun
  | ticked =>
    intro b hb
    obtain rfl := List.mem_singleton.1 hb
    rfl
  | originAdopted | remoteAdopted =>
    intro b hb
    rw [emitted, boundariesOf_advance, Option.mem_toList] at hb
    exact boundary_leadBlock hb
  | @refRefused op lane session position o hop ho =>
    have hno : emitted op (.ref o) = [] := by
      cases o with
      | index i => exact absurd rfl (ho i)
      | _ => rcases hop with rfl | ⟨id, rfl⟩ <;> rfl
    rw [hno]; nofun
  | _ => nofun

/-- What a call that is no offer does to the origin: nothing. -/
theorem l1Origin_of_call {op : Op}
    (he : Effect cfg s op s' ans) (hop : isOffer op = false) : s'.l1Origin = s.l1Origin := by
  cases he with
  | originAdopted => cases hop
  | @remoteAdopted id chain anchor slotCount firstSeq lastSeq payload clock =>
    unfold CanonicalSealerState.leadBlock
    split <;> rfl
  | _ => rfl

/-- What an offer does: it is ordered as the next origin, or nothing moves. -/
theorem l1Origin_of_offer {id : CanonicalId} {origin : Int64} {slots clock : Int} {payload : Bytes}
    (he : Effect cfg s (.originRecord id origin slots payload clock) s' ans) :
    (s'.l1Origin = s.l1Origin ∧ ∀ a, ans ≠ .originRecord (.ok (.relayed a))) ∨
      (s'.l1Origin = origin ∧ s.l1Origin < origin ∧
        (0 < s.l1Origin → origin = s.l1Origin + 1) ∧ ∃ a, ans = .originRecord (.ok (.relayed a))) := by
  cases he with
  | unchanged hno =>
    refine .inl ⟨rfl, fun a ha => ?_⟩
    subst ha
    simp [emitted, CanonicalSealerState.emittedAdvance] at hno
  | refRefused hop => rcases hop with hop | ⟨id, hop⟩ <;> cases hop
  | originAdopted hslots hfresh hadv hgap => exact .inr ⟨rfl, hadv, hgap, _, rfl⟩

end EpochSystem

end Kardamom.Sequencer
