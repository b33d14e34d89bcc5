import Kardamom.Lib.PartitionPoint
import Kardamom.Wire.Basic

/-!
# The epoch pump

The epoch lane of a sequencer: it takes the epochs of the finalized L1 blocks off a subscription and
offers them to the sealer, and it keeps every epoch until a boundary confirms it. The sealer refuses
an epoch that skips an L1 block and names the one it expects; the pump then offers again from there,
or waits while it does not hold that epoch.

The queue is searched by binary search in the source; here the searches are the partition points of
the queue, which are the same on an ascending queue (`Ascending` is an invariant). A call reads the
clock once.
-/

namespace Kardamom.Sequencer

open Wire (EpochRecord)
open PartitionPoint List List Option

/-- The most epochs the pump keeps without a boundary that confirms them. -/
def maxUnconfirmedEpochs : Nat := 4096

/-- What the cluster egress tells the pump about the L1 origin. -/
inductive OriginSignal where
  /-- A boundary carries this L1 origin. -/
  | confirmed (origin : UInt64)
  /-- The sealer refused an epoch of this session: the next L1 origin it accepts is `expected`. -/
  | gap (expected : UInt64)
  deriving DecidableEq, Repr

/-- The errors of a lane. -/
inductive SequencerError where
  | backpressure
  | ingressDisconnected
  | encodeFailed (reason : String)
  | originGapUnfilled (expected : UInt64)
  | epochQueueFull (held : Nat) (oldest : UInt64)
  deriving DecidableEq, Repr

/-- An origin the sealer expects that the pump does not hold, and when the pump first lacked one. -/
structure Gap where
  expected : UInt64
  since : Nat
  deriving DecidableEq, Repr

/-- The epoch lane. -/
structure EpochPump where
  /-- Ascending by L1 block, one epoch per block. -/
  unconfirmed : List EpochRecord
  /-- The index of the next epoch to offer. -/
  next : Nat
  /-- The last L1 origin a boundary carried. -/
  confirmed : Option UInt64
  missing : Option Gap
  /-- How long a gap may stand before the pump reports it. -/
  grace : Nat
  deriving DecidableEq, Repr

namespace EpochPump

def new (grace : Nat) : EpochPump := ⟨[], 0, none, none, grace⟩

variable (p : EpochPump)

/-- Forget every epoch at or below `origin`. -/
def confirm (origin : UInt64) : EpochPump :=
  let done := partitionPoint (fun e => e.l1Number ≤ origin) p.unconfirmed
  { p with
    unconfirmed := p.unconfirmed.drop done
    next := p.next - done
    confirmed := some origin
    missing := p.missing.filter fun gap => origin < gap.expected }

/-- Where the epoch of `number` stands or would stand in the queue. -/
def place (number : UInt64) : Nat := partitionPoint (fun e => e.l1Number < number) p.unconfirmed

/-- Whether the queue holds the epoch of `number`. -/
def holds (number : UInt64) : Bool :=
  p.unconfirmed[p.place number]?.any fun e => e.l1Number == number

section

variable (now : Nat)

/-- Offer again from `expected`. When the pump does not hold it, the gap stands, unless the boundaries
confirmed it already. A gap that moves keeps its start time. -/
def rewind (expected : UInt64) : EpochPump :=
  let since := p.missing.elim now Gap.since
  { p with
    next := min p.next (p.place expected)
    missing :=
      if !p.holds expected && p.confirmed.all (· < expected) then some ⟨expected, since⟩ else none }

def apply : OriginSignal → EpochPump
  | .confirmed origin => p.confirm origin
  | .gap expected => p.rewind now expected

/-- Apply every signal that arrived since the last call. -/
def takeSignals (signals : List OriginSignal) : EpochPump :=
  signals.foldl (fun p signal => p.apply now signal) p

/-- The queue with one more epoch; an epoch that lands before the cursor is offered next. -/
def put (epoch : EpochRecord) : EpochPump :=
  { p with
    unconfirmed := p.unconfirmed.take (p.place epoch.l1Number)
      ++ epoch :: p.unconfirmed.drop (p.place epoch.l1Number)
    next := min p.next (p.place epoch.l1Number) }

/-- Keep `epoch` in L1 order. An epoch the sealer ordered already, or one the pump holds, is a copy. -/
def insert (epoch : EpochRecord) : EpochPump :=
  if p.confirmed.any (epoch.l1Number ≤ ·) then p
  else if p.holds epoch.l1Number then p
  else match p.missing with
    | some gap => (p.put epoch).rewind now gap.expected
    | none => p.put epoch

/-- The next epoch to offer: none while the gap stands. -/
def toOffer : Option EpochRecord := if p.missing.isSome then none else p.unconfirmed[p.next]?

/-- Whether the pump asks the subscription for an epoch. -/
def polls : Bool := p.toOffer.isNone && decide (p.unconfirmed.length < maxUnconfirmedEpochs)

/-- The result of a poll that took an epoch or not: an error once the gap stood for the grace. -/
def pollResult (took : Bool) : Except SequencerError Bool :=
  match p.missing with
  | some gap =>
    if p.grace ≤ now - gap.since then .error (.originGapUnfilled gap.expected) else .ok took
  | none => .ok took

/-- Poll one epoch when the pump has none left to offer. Returns whether it took one. -/
def fill (polled : Except SequencerError (Option EpochRecord)) :
    EpochPump × Except SequencerError Bool :=
  if p.toOffer.isSome then (p, .ok false)
  else if maxUnconfirmedEpochs ≤ p.unconfirmed.length then
    (p, .error (.epochQueueFull p.unconfirmed.length (p.unconfirmed.head?.elim 0 (·.l1Number))))
  else match polled with
    | .error e => (p, .error e)
    | .ok epoch =>
      let p := epoch.elim p (p.insert now)
      (p, p.pollResult now epoch.isSome)

/-- The answer of one relay call: the epoch that went out, if any, and the result. -/
structure Relayed where
  offered : Option EpochRecord
  result : Except SequencerError Bool

/-- One call of the lane: apply the signals, take one epoch when nothing is left to offer, and offer
the next one. The cursor stays when the publisher refuses it. -/
def relay (signals : List OriginSignal)
    (polled : Except SequencerError (Option EpochRecord)) (published : Except SequencerError Unit) :
    EpochPump × Relayed :=
  let r := (p.takeSignals now signals).fill now polled
  match r.2 with
  | .error e => (r.1, ⟨none, .error e⟩)
  | .ok took =>
    match r.1.toOffer with
    | none => (r.1, ⟨none, .ok took⟩)
    | some epoch =>
      match published with
      | .error e => (r.1, ⟨none, .error e⟩)
      | .ok () => ({ r.1 with next := r.1.next + 1 }, ⟨some epoch, .ok true⟩)

end

/-! ## The queue -/

/-- The queue ascends strictly and the cursor is in it or at its end. -/
structure Ordered : Prop where
  ascending : p.unconfirmed.Pairwise fun a b => a.l1Number < b.l1Number
  next_le : p.next ≤ p.unconfirmed.length

variable {p} (now : Nat) (signals : List OriginSignal) (polled : Except SequencerError (Option EpochRecord))
  (published : Except SequencerError Unit)

theorem ordered_new (grace : Nat) : (new grace).Ordered := ⟨.nil, Nat.le_refl _⟩

namespace Ordered

theorem take (_ : p.Ordered) (number : UInt64) :
    ∀ e ∈ p.unconfirmed.take (p.place number), e.l1Number < number := by
  intro e he
  rw [place, take_partitionPoint] at he
  simpa using mem_takeWhile_imp he

variable (h : p.Ordered)
include h

theorem drop (number : UInt64) : ∀ e ∈ p.unconfirmed.drop (p.place number), number ≤ e.l1Number := by
  intro e he
  rw [place, drop_partitionPoint] at he
  have hdown : p.unconfirmed.Pairwise fun a b =>
      decide (b.l1Number < number) = true → decide (a.l1Number < number) = true :=
    h.ascending.imp fun hab hb => by simpa using hab.trans (by simpa using hb)
  simpa using not_of_mem_dropWhile hdown he

/-- The pump holds the epoch of a number exactly when it is in the queue. -/
theorem holds_iff {number : UInt64} : p.holds number = true ↔ ∃ e ∈ p.unconfirmed, e.l1Number = number := by
  constructor
  · intro hh
    obtain ⟨e, he, hn⟩ := (Option.any_eq_true _ _).1 hh
    exact ⟨e, mem_of_getElem? he, by simpa using hn⟩
  · rintro ⟨e, he, rfl⟩
    rw [← take_append_drop (p.place e.l1Number) p.unconfirmed, mem_append] at he
    have hdrop := he.resolve_left fun hl => (h.take _ e hl).ne rfl
    -- the epoch leads what stands behind its place, since that part ascends and none is below it
    have hasc := h.ascending.drop (i := p.place e.l1Number)
    have hge := h.drop e.l1Number
    rw [holds, ← Nat.add_zero (p.place e.l1Number), ← getElem?_drop]
    cases hd : p.unconfirmed.drop (p.place e.l1Number) with
    | nil => rw [hd] at hdrop; cases hdrop
    | cons a rest =>
      rw [hd] at hdrop hasc hge
      rcases mem_cons.1 hdrop with rfl | hrest
      · simp
      · have hlt := (pairwise_cons.1 hasc).1 e hrest
        exact absurd (hge a mem_cons_self) (not_le.2 hlt)

theorem confirm (origin : UInt64) : (p.confirm origin).Ordered where
  ascending := h.ascending.drop
  next_le := by
    rw [EpochPump.confirm, length_drop]
    exact Nat.sub_le_sub_right h.next_le _

theorem rewind (expected : UInt64) : (p.rewind now expected).Ordered :=
  ⟨h.ascending, (Nat.min_le_left _ _).trans h.next_le⟩

variable {epoch : EpochRecord}

theorem put (hnew : p.holds epoch.l1Number = false) : (p.put epoch).Ordered := by
  have hplace : p.place epoch.l1Number ≤ p.unconfirmed.length := partitionPoint_le _ _
  have hqueue : (p.put epoch).unconfirmed = p.unconfirmed.take (p.place epoch.l1Number)
      ++ epoch :: p.unconfirmed.drop (p.place epoch.l1Number) := rfl
  refine ⟨?_, ?_⟩
  · rw [hqueue, pairwise_append, pairwise_cons]
    refine ⟨h.ascending.take, ⟨fun e he => ?_, h.ascending.drop⟩, fun a ha b hb => ?_⟩
    · refine lt_of_le_of_ne (h.drop _ e he) fun heq => ?_
      have : p.holds epoch.l1Number = true := h.holds_iff.2 ⟨e, mem_of_mem_drop he, heq.symm⟩
      simp [this] at hnew
    · rcases mem_cons.1 hb with rfl | hb
      · exact h.take _ a ha
      · exact (h.take _ a ha).trans_le (h.drop _ b hb)
  · have hlen := congrArg length hqueue
    simp only [length_append, length_take] at hlen
    have hnext : (p.put epoch).next ≤ p.place epoch.l1Number := Nat.min_le_right _ _
    omega

theorem insert (epoch : EpochRecord) : (p.insert now epoch).Ordered := by
  unfold EpochPump.insert
  split
  case isTrue => exact h
  case isFalse =>
    split
    case isTrue => exact h
    case isFalse hnew =>
      have hput := h.put (by simpa using hnew)
      split
      case h_1 gap _ => exact hput.rewind now gap.expected
      case h_2 => exact hput

theorem takeSignals : (p.takeSignals now signals).Ordered := by
  induction signals generalizing p with
  | nil => exact h
  | cons signal signals ih =>
    cases signal with
    | confirmed origin => exact ih (h.confirm origin)
    | gap expected => exact ih (h.rewind now expected)

end Ordered

/-- What `fill` does to the pump: when it polls an epoch, it takes it. -/
theorem fst_fill (p : EpochPump) : (p.fill now polled).1 =
      if p.polls then
        match polled with
        | .ok (some epoch) => p.insert now epoch
        | _ => p
      else p := by
  unfold fill polls
  cases hnone : p.toOffer with
  | some e => rfl
  | none =>
    by_cases hroom : maxUnconfirmedEpochs ≤ p.unconfirmed.length
    · simp [hroom]
    · have hlt : p.unconfirmed.length < maxUnconfirmedEpochs := not_le.1 hroom
      match polled with
      | .error e => simp [hroom, hlt]
      | .ok none => simp [hroom, hlt]
      | .ok (some epoch) => simp [hroom, hlt]

/-- What holds of the pump and of the pump with the polled epoch holds after `fill`. -/
theorem fill_induction {P : EpochPump → Prop} (h : P p)
    (hinsert : ∀ epoch, polled = .ok (some epoch) → P (p.insert now epoch)) : P (p.fill now polled).1 := by
  rw [fst_fill]
  split
  case isTrue =>
    split
    case h_1 epoch => exact hinsert epoch rfl
    case h_2 => exact h
  case isFalse => exact h

/-- What a relay call leaves of the pump: `fill`, and the cursor moved over the epoch that went out. -/
theorem relay_cases (p : EpochPump) :
    let q := ((p.takeSignals now signals).fill now polled).1
    ((p.relay now signals polled published).1 = q ∧
        (p.relay now signals polled published).2.offered = none) ∨
      ∃ epoch, q.toOffer = some epoch ∧
        (p.relay now signals polled published).1 = { q with next := q.next + 1 } ∧
        (p.relay now signals polled published).2.offered = some epoch := by
  unfold relay
  dsimp only
  split
  case h_1 => exact .inl ⟨rfl, rfl⟩
  case h_2 =>
    split
    case h_1 => exact .inl ⟨rfl, rfl⟩
    case h_2 epoch hoffer =>
      split
      case h_1 => exact .inl ⟨rfl, rfl⟩
      case h_2 => exact .inr ⟨epoch, hoffer, rfl, rfl⟩

/-- The epoch to offer is the one under the cursor. -/
theorem getElem?_of_toOffer (h : p.toOffer = some epoch) : p.unconfirmed[p.next]? = some epoch := by
  unfold toOffer at h
  split at h
  · cases h
  · exact h

theorem Ordered.relay (h : p.Ordered) : (p.relay now signals polled published).1.Ordered := by
  have hs := h.takeSignals now signals
  have hq := fill_induction now polled hs fun epoch _ => hs.insert now epoch
  rcases relay_cases now signals polled published p with ⟨heq, -⟩ | ⟨epoch, hoffer, heq, -⟩
  · rw [heq]; exact hq
  · rw [heq]
    obtain ⟨hlt, -⟩ := List.getElem?_eq_some_iff.1 (getElem?_of_toOffer hoffer)
    exact ⟨hq.ascending, hlt⟩

/-! ## What stays in the queue -/

variable {e : EpochRecord}

theorem mem_confirm (h : e ∈ p.unconfirmed) (origin : UInt64) :
    e ∈ (p.confirm origin).unconfirmed ∨ e.l1Number ≤ origin := by
  rw [confirm, drop_partitionPoint]
  rw [← takeWhile_append_dropWhile (p := fun e => decide (e.l1Number ≤ origin))
    (l := p.unconfirmed), mem_append] at h
  exact h.symm.imp_right fun hl => by simpa using mem_takeWhile_imp hl

theorem mem_put {e : EpochRecord} :
    e ∈ (p.put epoch).unconfirmed ↔ e = epoch ∨ e ∈ p.unconfirmed := by
  have hsplit := take_append_drop (p.place epoch.l1Number) p.unconfirmed
  rw [put, ← hsplit, mem_append, mem_cons, mem_append, hsplit]
  tauto

theorem unconfirmed_insert (p : EpochPump) (epoch : EpochRecord) :
    (p.insert now epoch).unconfirmed = p.unconfirmed ∧
        (p.confirmed.any (epoch.l1Number ≤ ·) = true ∨ p.holds epoch.l1Number = true) ∨
      (p.insert now epoch).unconfirmed = (p.put epoch).unconfirmed := by
  unfold insert
  split
  case isTrue h => exact .inl ⟨rfl, .inl h⟩
  case isFalse =>
    split
    case isTrue h => exact .inl ⟨rfl, .inr h⟩
    case isFalse => split <;> exact .inr rfl

/-- A removal is a confirmation: a signal names an origin at or above the epoch. -/
theorem mem_takeSignals (h : e ∈ p.unconfirmed) : e ∈ (p.takeSignals now signals).unconfirmed ∨
      ∃ origin, .confirmed origin ∈ signals ∧ e.l1Number ≤ origin := by
  induction signals generalizing p with
  | nil => exact .inl h
  | cons signal signals ih =>
    have hlater : ∀ q : EpochPump, e ∈ q.unconfirmed →
        e ∈ (signals.foldl (fun p signal => p.apply now signal) q).unconfirmed ∨
          ∃ origin, .confirmed origin ∈ signal :: signals ∧ e.l1Number ≤ origin := fun q hq =>
      (ih hq).imp_right fun ⟨origin, hmem, hle⟩ => ⟨origin, mem_cons_of_mem _ hmem, hle⟩
    cases signal with
    | gap expected => exact hlater (p.rewind now expected) h
    | confirmed origin =>
      rcases mem_confirm h origin with hkept | hle
      · exact hlater _ hkept
      · exact .inr ⟨origin, mem_cons_self, hle⟩

theorem mem_fill (h : e ∈ p.unconfirmed) : e ∈ (p.fill now polled).1.unconfirmed := by
  refine fill_induction (P := (e ∈ ·.unconfirmed)) now polled h fun epoch _ => ?_
  rcases unconfirmed_insert now p epoch with ⟨hsame, -⟩ | hput
  · rw [hsame]; exact h
  · rw [hput]; exact mem_put.2 (.inr h)

/-- The queue of a relay call is the one that `fill` left. -/
theorem unconfirmed_relay (p : EpochPump) : (p.relay now signals polled published).1.unconfirmed
      = ((p.takeSignals now signals).fill now polled).1.unconfirmed := by
  rcases relay_cases now signals polled published p with ⟨heq, -⟩ | ⟨epoch, -, heq, -⟩ <;> rw [heq]

/-- **A relay call removes an epoch only when it reads the confirmation of an origin at or above
it.** -/
theorem mem_relay (h : e ∈ p.unconfirmed) :
    e ∈ (p.relay now signals polled published).1.unconfirmed ∨
      ∃ origin, .confirmed origin ∈ signals ∧ e.l1Number ≤ origin := by
  rw [unconfirmed_relay]
  exact (mem_takeSignals now signals h).imp_left (mem_fill now polled)

/-! ## What enters the queue -/

variable {now signals polled published}

theorem mem_of_mem_takeSignals (h : e ∈ (p.takeSignals now signals).unconfirmed) : e ∈ p.unconfirmed := by
  induction signals generalizing p with
  | nil => exact h
  | cons signal signals ih =>
    have hone := ih h
    cases signal with
    | gap expected => exact hone
    | confirmed origin => exact mem_of_mem_drop hone

theorem mem_of_mem_relay (h : e ∈ (p.relay now signals polled published).1.unconfirmed) :
    e ∈ p.unconfirmed ∨ polled = .ok (some e) := by
  rw [unconfirmed_relay] at h
  revert h
  refine fill_induction (P := fun q => e ∈ q.unconfirmed → _) now polled (.inl ∘ mem_of_mem_takeSignals)
    fun epoch hpolled h => ?_
  rcases unconfirmed_insert now (p.takeSignals now signals) epoch with ⟨hsame, -⟩ | hput
  · rw [hsame] at h
    exact .inl (mem_of_mem_takeSignals h)
  · rw [hput] at h
    rcases mem_put.1 h with rfl | h
    · exact .inr hpolled
    · exact .inl (mem_of_mem_takeSignals h)

/-- What goes out is in the queue. -/
theorem mem_of_offered (h : (p.relay now signals polled published).2.offered = some e) :
    e ∈ (p.relay now signals polled published).1.unconfirmed := by
  rw [unconfirmed_relay]
  rcases relay_cases now signals polled published p with ⟨-, hnone⟩ | ⟨epoch, hoffer, -, hsome⟩
  · rw [hnone] at h; cases h
  · rw [hsome] at h
    obtain rfl := some.inj h
    exact mem_of_getElem? (getElem?_of_toOffer hoffer)

variable {origin : UInt64}

/-- The origin that the pump holds as confirmed is one that a signal named. -/
theorem confirmed_takeSignals (h : (p.takeSignals now signals).confirmed = some origin) :
    p.confirmed = some origin ∨ .confirmed origin ∈ signals := by
  induction signals generalizing p with
  | nil => exact .inl h
  | cons signal signals ih =>
    rcases ih (p := p.apply now signal) h with hone | hmem
    · cases signal with
      | gap expected => exact .inl hone
      | confirmed o =>
        obtain rfl : o = origin := some.inj hone
        exact .inr mem_cons_self
    · exact .inr (mem_cons_of_mem _ hmem)

theorem confirmed_insert (epoch : EpochRecord) : (p.insert now epoch).confirmed = p.confirmed := by
  unfold insert
  split
  · rfl
  · split
    · rfl
    · split <;> rfl

theorem confirmed_relay (h : (p.relay now signals polled published).1.confirmed = some origin) :
    p.confirmed = some origin ∨ .confirmed origin ∈ signals := by
  refine confirmed_takeSignals (?_ : (p.takeSignals now signals).confirmed = _)
  have hfill : ((p.takeSignals now signals).fill now polled).1.confirmed
      = (p.takeSignals now signals).confirmed :=
    fill_induction (P := (·.confirmed = _)) now polled rfl fun epoch _ => confirmed_insert epoch
  rcases relay_cases now signals polled published p with ⟨heq, -⟩ | ⟨epoch, -, heq, -⟩
  · rw [← hfill, ← heq]; exact h
  · rw [heq] at h
    exact hfill ▸ h

variable (published) in
/-- An epoch that was polled is in the queue, or the queue holds a copy of it, or a boundary confirmed
it. -/
theorem polled_relay (hp : p.Ordered) (epoch : EpochRecord) (hpolls : (p.takeSignals now signals).polls = true) :
    (∃ e ∈ (p.relay now signals (.ok (some epoch)) published).1.unconfirmed,
        e.l1Number = epoch.l1Number) ∨
      ∃ origin, (p.takeSignals now signals).confirmed = some origin ∧ epoch.l1Number ≤ origin := by
  rw [unconfirmed_relay]
  have hq := hp.takeSignals now signals
  generalize p.takeSignals now signals = q at hpolls hq ⊢
  have hfill : (q.fill now (.ok (some epoch))).1 = q.insert now epoch := by
    rw [fst_fill, if_pos hpolls]
  rw [hfill]
  rcases unconfirmed_insert now q epoch with ⟨hsame, hconf | hheld⟩ | hput
  · obtain ⟨origin, hsome, hle⟩ := (Option.any_eq_true _ _).1 hconf
    exact .inr ⟨origin, hsome, by simpa using hle⟩
  · rw [hsame]
    exact .inl (hq.holds_iff.1 hheld)
  · rw [hput]
    exact .inl ⟨epoch, mem_put.2 (.inl rfl), rfl⟩

/-! ## Rewinds -/

/-- **What a rewind to an epoch that the pump holds offers next**: that epoch, unless the cursor stood
before it; then the epoch under the cursor, which is an earlier one. -/
theorem toOffer_rewind (h : p.Ordered) {expected : UInt64} (hheld : p.holds expected = true) :
    ∃ e, (p.rewind now expected).toOffer = some e ∧
      (p.place expected ≤ p.next → e.l1Number = expected) ∧
      (p.next < p.place expected → p.unconfirmed[p.next]? = some e ∧ e.l1Number < expected) := by
  have hoffer : (p.rewind now expected).toOffer
      = p.unconfirmed[min p.next (p.place expected)]? := by
    simp [toOffer, EpochPump.rewind, hheld]
  rw [hoffer]
  by_cases hnext : p.place expected ≤ p.next
  · rw [Nat.min_eq_right hnext]
    obtain ⟨e, he, hn⟩ := (Option.any_eq_true _ _).1 hheld
    exact ⟨e, he, fun _ => by simpa using hn, fun hlt => absurd hnext (not_le.2 hlt)⟩
  · have hlt : p.next < p.place expected := not_le.1 hnext
    rw [Nat.min_eq_left hlt.le]
    have hlen : p.next < p.unconfirmed.length := hlt.trans_le (partitionPoint_le _ _)
    refine ⟨p.unconfirmed[p.next], getElem?_eq_getElem hlen, fun hle => absurd hle hnext,
      fun _ => ⟨getElem?_eq_getElem hlen, h.take expected _ ?_⟩⟩
    exact mem_take_iff_getElem.2 ⟨p.next, by omega, rfl⟩

end EpochPump

end Kardamom.Sequencer
