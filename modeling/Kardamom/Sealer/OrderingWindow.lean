import Kardamom.Lib.Run
import Kardamom.Sealer.State

/-!
# The ordering window in front of the record path

A bounded window holds the records that the log delivers and hands them to `onRecord` highest tip
first. A record of a sender that the window already holds takes the key of that sender's first
record, so one sender's records keep their arrival order whatever their tips:
`OrderingWindow.Chained.flush` says it of one window, and `RecordPath.run_order` of the whole log,
with the window closed by its size, by its timer, by a boundary or by an origin record.
-/

namespace Kardamom.Sealer

open Machine List Prod

/-! ## The window -/

/-- One held record and its sort key: the tip and the arrival of its sender's head, then its own
arrival. -/
structure WindowEntry (α : Type) where
  tipHi : UInt64
  tipLo : UInt64
  headArrival : Nat
  arrival : Nat
  record : α

/-- Highest tip first, as an unsigned 128-bit comparison; then the head's arrival and the own. -/
def WindowEntry.byTipDescending {α : Type} (a b : WindowEntry α) : Ordering :=
  (compare b.tipHi a.tipHi).then <| (compare b.tipLo a.tipLo).then <|
    (compare a.headArrival b.headArrival).then (compare a.arrival b.arrival)

/-- The held records in arrival order, the head of each sender, and the arrival stamp. -/
structure OrderingWindow (α : Type) where
  entries : List (WindowEntry α)
  heads : LinkedMap Sender (WindowEntry α)
  nextArrival : Nat

open OrderingWindow

namespace OrderingWindow

variable {α : Type}

def empty : OrderingWindow α := ⟨[], .empty, 0⟩

section

variable (w : OrderingWindow α)

/-- The entry of a record that arrives now: its own key, or its sender's head key. -/
def entryOf (sender : Sender) (tipHi tipLo : UInt64) (record : α) : WindowEntry α :=
  match if isZeroSender sender then none else w.heads.get? sender with
  | none => ⟨tipHi, tipLo, w.nextArrival, w.nextArrival, record⟩
  | some head => ⟨head.tipHi, head.tipLo, head.headArrival, w.nextArrival, record⟩

/-- Hold one record; whether the window is full and must flush now. -/
def add (capacity : Nat) (w : OrderingWindow α) (sender : Sender) (tipHi tipLo : UInt64)
    (record : α) : OrderingWindow α × Bool :=
  let entry := w.entryOf sender tipHi tipLo record
  let heads :=
    if isZeroSender sender || (w.heads.get? sender).isSome then w.heads
    else w.heads.put sender entry
  (⟨w.entries ++ [entry], heads, w.nextArrival + 1⟩, decide (capacity ≤ w.entries.length + 1))

/-- Take every held record out, in flush order. -/
def flush : OrderingWindow α × List α := (⟨[], .empty, w.nextArrival⟩,
    (w.entries.insertionSort fun a b => (a.byTipDescending b).isLE).map (·.record))

/-- The records that the window holds, in arrival order. -/
def held : List α := w.entries.map (·.record)

@[simp] theorem held_flush : w.flush.1.held = [] := rfl

end

/-- The chaining invariant, for records whose sender is `senderOf`: arrivals ascend, and each entry
of a non-zero sender carries the key of that sender's head. -/
structure Chained (senderOf : α → Sender) (w : OrderingWindow α) : Prop where
  arrivals : w.entries.Pairwise fun a b => a.arrival < b.arrival
  below : ∀ e ∈ w.entries, e.arrival < w.nextArrival
  chained : ∀ e ∈ w.entries, senderOf e.record ≠ zeroSender →
    ∃ head, w.heads.get? (senderOf e.record) = some head ∧
      e.tipHi = head.tipHi ∧ e.tipLo = head.tipLo ∧ e.headArrival = head.headArrival

variable {senderOf : α → Sender} {w : OrderingWindow α}

theorem chained_of_nil (w : OrderingWindow α) (h : w.entries = []) : w.Chained senderOf := by
  constructor <;> simp [h]

section

variable (w : OrderingWindow α) (sender : Sender) (tipHi tipLo : UInt64) (record : α)

theorem entryOf_record : (w.entryOf sender tipHi tipLo record).record = record := by
  unfold entryOf
  split <;> rfl

theorem entryOf_arrival : (w.entryOf sender tipHi tipLo record).arrival = w.nextArrival := by
  unfold entryOf
  split <;> rfl

end

section

variable (capacity : Nat)

theorem held_add (w : OrderingWindow α) (sender : Sender) (tipHi tipLo : UInt64)
    (record : α) : (w.add capacity sender tipHi tipLo record).1.held = w.held ++ [record] := by
  simp [held, add, entryOf_record]

/-- A head, once in the window, stays the head of its sender. -/
theorem heads_add_of_some {x : Sender} {head : WindowEntry α}
    (h : w.heads.get? x = some head) (sender : Sender) (tipHi tipLo : UInt64) (record : α) :
    (w.add capacity sender tipHi tipLo record).1.heads.get? x = some head := by
  unfold add
  split
  next => exact h
  next hno =>
    have hne : x ≠ sender := by
      rintro rfl
      simp [h] at hno
    rw [LinkedMap.get?_put_of_ne _ hne, h]

/-- After an add, the head of the added record's sender has the key of its entry. -/
theorem heads_add_self (w : OrderingWindow α) {sender : Sender}
    (hs : sender ≠ zeroSender) (tipHi tipLo : UInt64) (record : α) :
    ∃ head, (w.add capacity sender tipHi tipLo record).1.heads.get? sender = some head ∧
      (w.entryOf sender tipHi tipLo record).tipHi = head.tipHi ∧
      (w.entryOf sender tipHi tipLo record).tipLo = head.tipLo ∧
      (w.entryOf sender tipHi tipLo record).headArrival = head.headArrival := by
  have hz : isZeroSender sender = false := by simpa [isZeroSender] using hs
  cases hget : w.heads.get? sender with
  | some head => exact ⟨head, heads_add_of_some capacity hget .., by simp [entryOf, hz, hget]⟩
  | none =>
    refine ⟨w.entryOf sender tipHi tipLo record, ?_, rfl, rfl, rfl⟩
    simp [add, hz, hget]

end

theorem Chained.add (h : w.Chained senderOf) (capacity : Nat) (tipHi tipLo : UInt64) (record : α) :
    (w.add capacity (senderOf record) tipHi tipLo record).1.Chained senderOf where
  arrivals := by
    refine pairwise_snoc.2 ⟨h.arrivals, fun a ha => ?_⟩
    rw [entryOf_arrival]
    exact h.below a ha
  below := by
    refine forall_mem_snoc.2 ⟨fun e he => Nat.lt_succ_of_lt (h.below e he), ?_⟩
    rw [entryOf_arrival]
    exact Nat.lt_succ_self _
  chained := by
    intro e he hs
    rcases mem_append.1 he with he | he
    · obtain ⟨head, hget, hkey⟩ := h.chained e he hs
      exact ⟨head, heads_add_of_some capacity hget .., hkey⟩
    · rw [mem_singleton.1 he, entryOf_record] at hs ⊢
      exact heads_add_self capacity w hs tipHi tipLo record

variable {x : Sender} (h : w.Chained senderOf) (hx : x ≠ zeroSender)
include h hx

/-- Two entries of one sender stand in flush order as they arrived. -/
theorem Chained.flushOrder {a b : WindowEntry α} (ha : a ∈ w.entries) (hb : b ∈ w.entries)
    (hax : senderOf a.record = x) (hbx : senderOf b.record = x) (hab : a.arrival < b.arrival) :
    (a.byTipDescending b).isLE = true := by
  obtain ⟨head, hget, ha1, ha2, ha3⟩ := h.chained a ha (hax ▸ hx)
  obtain ⟨head', hget', hb1, hb2, hb3⟩ := h.chained b hb (hbx ▸ hx)
  obtain rfl : head = head' := by
    rw [hax] at hget
    rw [hbx, hget] at hget'
    exact Option.some.inj hget'
  have hlt : compare a.arrival b.arrival = .lt := Nat.compare_eq_lt.2 hab
  simp [WindowEntry.byTipDescending, ha1, ha2, ha3, hb1, hb2, hb3, hlt]

/-- **A flush keeps each sender's arrival order.** -/
theorem Chained.flush : w.flush.2.filter (senderOf · = x) = w.held.filter (senderOf · = x) := by
  set own := w.entries.filter fun e => senderOf e.record = x with hown
  have hsorted : own.Pairwise fun a b => (a.byTipDescending b).isLE = true := by
    refine (List.Pairwise.filter _ h.arrivals).imp_of_mem fun {a b} ha hb hab => ?_
    obtain ⟨ha, hax⟩ := mem_filter.1 ha
    obtain ⟨hb, hbx⟩ := mem_filter.1 hb
    exact h.flushOrder hx ha hb (by simpa using hax) (by simpa using hbx) hab
  -- the sort is stable on what is already in order, and it loses nothing
  have hsub := sublist_insertionSort hsorted filter_sublist
  have hperm := perm_insertionSort (fun a b => (a.byTipDescending b).isLE = true) w.entries
  have hfilter : own = (w.entries.insertionSort fun a b => (a.byTipDescending b).isLE).filter
      fun e => senderOf e.record = x := by
    have hsub' := hsub.filter fun e => senderOf e.record = x
    simp only [hown, filter_filter, Bool.and_self] at hsub'
    exact hsub'.eq_of_length (hperm.filter _).length_eq.symm
  rw [OrderingWindow.flush, held, filter_map, filter_map]
  exact congrArg (List.map _) hfilter.symm

end OrderingWindow

/-! ## The record path of the service -/

/-- What the service keeps of a record while the window holds it. -/
structure HeldRecord where
  canonicalId : CanonicalId
  sender : Sender
  nonce : UInt64
  deadline : Int
  payload : Bytes
  deriving DecidableEq, Repr

open CanonicalSealerState

/-- The call that `admitRecord` makes below decision version 4. -/
def HeldRecord.op (r : HeldRecord) : Op :=
  .record r.canonicalId r.sender r.nonce r.deadline r.payload

/-- The record that a call of the sealer offers. -/
def CanonicalSealerState.Op.held : Op → Option HeldRecord
  | .record id sender nonce deadline payload => some ⟨id, sender, nonce, deadline, payload⟩
  | _ => none

@[simp] theorem HeldRecord.held_op (r : HeldRecord) : r.op.held = some r := rfl

/-- The open window and the replicated state behind it. -/
structure RecordPath where
  window : OrderingWindow HeldRecord
  state : CanonicalSealerState

/-- The log entries that reach the record path at decision version 3. -/
inductive LogEvent where
  | ingressRecord (tipHi tipLo : UInt64) (record : HeldRecord)
  | windowTimer
  | boundaryTimer (clock : Int)
  | originRecord (id : CanonicalId) (newL1Origin : Int64) (slotCount : Int) (payload : Bytes)
      (clock : Int)
  | remoteOriginRecord (id : CanonicalId) (originChainId anchorNumber : UInt64) (slotCount : Int)
      (firstSeq lastSeq : UInt64) (payload : Bytes) (clock : Int)
  | snapshot

namespace RecordPath

variable (cfg : SealerConfig)

section

variable (p : RecordPath)

/-- Run the record path on every held record in flush order (`flushWindow`). -/
def flushWindow : RecordPath × List (Op × Answer) :=
  let r := run (step cfg) p.state (p.window.flush.2.map HeldRecord.op)
  (⟨p.window.flush.1, r.1⟩, r.2)

/-- Close the window, then make one call. -/
def flushThen (op : Op) : RecordPath × List (Op × Answer) :=
  let r := p.flushWindow cfg
  let q := step cfg r.1.state op
  ({ r.1 with state := q.1 }, r.2 ++ [(op, q.2)])

/-- Hold one record, and close the window if that fills it (`processRecord`). -/
def processRecord (tipHi tipLo : UInt64) (record : HeldRecord) : RecordPath × List (Op × Answer) :=
  let r := p.window.add cfg.orderingWindow record.sender tipHi tipLo record
  let p := { p with window := r.1 }
  if r.2 then p.flushWindow cfg else (p, [])

/-- One log entry, and the calls of the sealer that it makes. -/
def onEvent : LogEvent → RecordPath × List (Op × Answer)
  | .ingressRecord tipHi tipLo record => p.processRecord cfg tipHi tipLo record
  | .windowTimer => p.flushWindow cfg
  | .boundaryTimer clock => p.flushThen cfg (.tick clock)
  | .originRecord id newL1Origin slotCount payload clock =>
    p.flushThen cfg (.originRecord id newL1Origin slotCount payload clock)
  | .remoteOriginRecord id chain anchor slotCount firstSeq lastSeq payload clock =>
    p.flushThen cfg (.remoteOriginRecord id chain anchor slotCount firstSeq lastSeq payload clock)
  | .snapshot => p.flushWindow cfg

end

/-- The records that the log delivers, in log order. -/
def arrivals (events : List LogEvent) : List HeldRecord := events.filterMap fun
    | .ingressRecord _ _ record => some record
    | _ => none

/-- All calls of a run, with their answers, in call order. -/
def calls (τ : List (LogEvent × List (Op × Answer))) : List (Op × Answer) := τ.flatMap snd

/-- The records that a list of answered calls offered to the sealer. -/
def offered (σ : List (Op × Answer)) : List HeldRecord := σ.filterMap fun c => c.1.held

variable {cfg}

theorem offered_append (σ σ' : List (Op × Answer)) : offered (σ ++ σ') = offered σ ++ offered σ' :=
  filterMap_append

theorem offered_eq (σ : List (Op × Answer)) : offered σ = (σ.map fst).filterMap Op.held := by
  rw [filterMap_map]
  rfl

theorem offered_run (s : CanonicalSealerState) (ops : List Op) :
    offered (run (step cfg) s ops).2 = ops.filterMap Op.held := by
  rw [offered_eq, run_history_inputs]

theorem offered_flushWindow (p : RecordPath) :
    offered (p.flushWindow cfg).2 = p.window.flush.2 := by
  rw [flushWindow, offered_run]
  simp [Function.comp_def]

/-! ### The calls are a run of the sealer -/

/-- The answered calls `σ` are a run of the sealer from `s` to `s'`. -/
def IsRun (cfg : SealerConfig) (s : CanonicalSealerState) (σ : List (Op × Answer))
    (s' : CanonicalSealerState) : Prop :=
  run (step cfg) s (σ.map fst) = (s', σ)

theorem isRun_run (s : CanonicalSealerState) (ops : List Op) :
    IsRun cfg s (run (step cfg) s ops).2 (run (step cfg) s ops).1 := by
  rw [IsRun, run_history_inputs]

theorem IsRun.append {s s' s'' : CanonicalSealerState} {σ σ' : List (Op × Answer)}
    (h : IsRun cfg s σ s') (h' : IsRun cfg s' σ' s'') : IsRun cfg s (σ ++ σ') s'' := by
  unfold IsRun at *
  rw [map_append, run_append, h, h']

theorem isRun_onEvent (p : RecordPath) (e : LogEvent) :
    IsRun cfg p.state (p.onEvent cfg e).2 (p.onEvent cfg e).1.state := by
  have hflush : ∀ q : RecordPath,
      IsRun cfg q.state (q.flushWindow cfg).2 (q.flushWindow cfg).1.state :=
    fun q => isRun_run q.state _
  have hthen : ∀ op, IsRun cfg p.state (p.flushThen cfg op).2 (p.flushThen cfg op).1.state :=
    fun op => (hflush p).append (isRun_run (p.flushWindow cfg).1.state [op])
  cases e with
  | ingressRecord tipHi tipLo record =>
    show IsRun cfg p.state (p.processRecord cfg tipHi tipLo record).2
      (p.processRecord cfg tipHi tipLo record).1.state
    unfold processRecord
    dsimp only
    split
    · exact hflush ⟨(p.window.add cfg.orderingWindow record.sender tipHi tipLo record).1, p.state⟩
    · exact isRun_run p.state []
  | windowTimer => exact hflush p
  | boundaryTimer | originRecord | remoteOriginRecord => exact hthen _
  | snapshot => exact hflush p

theorem isRun_run_onEvent (cfg : SealerConfig) (p : RecordPath) (events : List LogEvent) :
    IsRun cfg p.state (calls (run (onEvent cfg) p events).2)
      (run (onEvent cfg) p events).1.state := by
  refine run_induction (P := fun (q : RecordPath) τ => IsRun cfg p.state (calls τ) q.state)
    (isRun_run p.state []) (fun q τ e h => ?_) events
  have hcalls : calls (τ ++ [(e, (q.onEvent cfg e).2)]) = calls τ ++ (q.onEvent cfg e).2 := by
    simp [calls]
  rw [hcalls]
  exact h.append (isRun_onEvent q e)

/-! ### Each sender's records are offered in arrival order -/

/-- What was offered of each non-zero sender, then what the window holds of it, is what arrived of
it. -/
structure InOrder (arrived : List HeldRecord) (offered : List HeldRecord) (p : RecordPath) :
    Prop where
  chained : p.window.Chained HeldRecord.sender
  order : ∀ x ≠ zeroSender, offered.filter (·.sender = x) ++ p.window.held.filter (·.sender = x)
      = arrived.filter (·.sender = x)

variable {p : RecordPath} {arrived taken : List HeldRecord}

variable (cfg : SealerConfig)

section

variable (h : InOrder arrived taken p)
include h

theorem InOrder.flushWindow :
    InOrder arrived (taken ++ offered (p.flushWindow cfg).2) (p.flushWindow cfg).1 where
  chained := chained_of_nil _ rfl
  order x hx := by
    rw [offered_flushWindow, filter_append, h.chained.flush hx, ← h.order x hx]
    show _ ++ (p.window.flush.1.held).filter _ = _
    rw [held_flush, filter_nil, append_nil]

theorem InOrder.flushThen {op : Op} (hop : op.held = none) :
    InOrder arrived (taken ++ offered (p.flushThen cfg op).2) (p.flushThen cfg op).1 := by
  have hcalls : offered (p.flushThen cfg op).2 = offered (p.flushWindow cfg).2 := by
    show offered ((p.flushWindow cfg).2 ++ _) = _
    simp [offered, hop]
  rw [hcalls]
  exact ⟨(h.flushWindow cfg).chained, (h.flushWindow cfg).order⟩

theorem InOrder.processRecord (tipHi tipLo : UInt64) (record : HeldRecord) :
    InOrder (arrived ++ [record]) (taken ++ offered (p.processRecord cfg tipHi tipLo record).2)
      (p.processRecord cfg tipHi tipLo record).1 := by
  have hadd : InOrder (arrived ++ [record]) taken
      { p with window := (p.window.add cfg.orderingWindow record.sender tipHi tipLo record).1 } := by
    refine ⟨h.chained.add cfg.orderingWindow tipHi tipLo record, fun x hx => ?_⟩
    rw [held_add, filter_append, ← append_assoc, h.order x hx, filter_append]
  unfold RecordPath.processRecord
  dsimp only
  split
  · exact hadd.flushWindow cfg
  · simpa [offered] using hadd

theorem InOrder.onEvent (e : LogEvent) :
    InOrder (arrived ++ arrivals [e]) (taken ++ offered (p.onEvent cfg e).2)
      (p.onEvent cfg e).1 := by
  cases e with
  | ingressRecord tipHi tipLo record => exact h.processRecord cfg tipHi tipLo record
  | windowTimer => simpa [arrivals, RecordPath.onEvent] using h.flushWindow cfg
  | boundaryTimer | originRecord | remoteOriginRecord =>
    simpa [arrivals, RecordPath.onEvent] using h.flushThen cfg rfl
  | snapshot => simpa [arrivals, RecordPath.onEvent] using h.flushWindow cfg

end

/-- **The order of the record path.** Along every log, what is offered to the sealer of a non-zero
sender, then what the window still holds of it, is what arrived of it, in arrival order. -/
theorem run_order (s : CanonicalSealerState) (events : List LogEvent) :
    InOrder (arrivals events) (offered (calls (run (onEvent cfg) ⟨.empty, s⟩ events).2))
      (run (onEvent cfg) ⟨.empty, s⟩ events).1 := by
  have hrun : InOrder (arrivals ((run (onEvent cfg) ⟨.empty, s⟩ events).2.map fst))
      (offered (calls (run (onEvent cfg) ⟨.empty, s⟩ events).2))
      (run (onEvent cfg) ⟨.empty, s⟩ events).1 := by
    refine run_induction (P := fun q τ => InOrder (arrivals (τ.map fst)) (offered (calls τ)) q)
      ⟨chained_of_nil _ rfl, fun _ _ => rfl⟩ (fun q τ e h => ?_) events
    have hstep := h.onEvent cfg e
    simpa [arrivals, calls, offered] using hstep
  rwa [run_history_inputs] at hrun

end RecordPath

end Kardamom.Sealer
