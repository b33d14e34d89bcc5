import Kardamom.Sequencer.PendingBuffer
import Kardamom.Wire.Basic

/-!
# The nonce check of a partition

For each sender the sequencer keeps a floor, the nonce it publishes next, and the refs above the floor
that wait. A ref at the floor goes out with the run behind it and moves the floor past them; a ref that
the publisher did not take comes back and moves the floor down again. Receipts, skips, rollbacks and
the sealer's answers move the floor too.

The deadlines are a heap with stale entries, here the sorted list of what is in it. The drain visits
the senders in the order of a hash map, which is an argument.
-/

namespace Kardamom.Sequencer

open Wire (Address)
open PendingBuffer Words

inductive ProcessAction (T : Type) where
  | publish (nonce : UInt64) (payload : T)
  | reportDuplicate (nonce expectedNonce : UInt64)
  deriving DecidableEq, Repr

inductive NonceOutcome (T : Type) where
  | matched
  | buffered
  /-- Buffered; a nonce further in the future left for it. -/
  | bufferedEvicting (evictedNonce : UInt64) (evicted : T)
  | rejectedTooFar (nonce : UInt64)
  | bufferedReplaced
  | bufferedDisabled
  | past
  /-- A nonce below the floor that the sealer refused: it is offered again. -/
  | reoffered
  deriving DecidableEq, Repr

structure ProcessResult (T : Type) where
  actions : List (ProcessAction T)
  outcome : NonceOutcome T
  deriving DecidableEq, Repr

/-- The expiry of one parked ref, as the heap orders it. -/
structure ParkedDeadline where
  dueAt : Nat
  sender : Address
  nonce : UInt64
  deriving DecidableEq, Repr

/-- The order of the heap: by time, then sender, then nonce. -/
def ParkedDeadline.le (d d' : ParkedDeadline) : Bool :=
  decide (d.dueAt < d'.dueAt) || (d.dueAt == d'.dueAt &&
    (decide (d.sender < d'.sender) || (d.sender == d'.sender && decide (d.nonce ≤ d'.nonce))))

/-- The nonce that the sealer expects of a sender and nobody here holds, with the later refs. -/
structure FreedNonce (T : Type) where
  sender : Address
  nonce : UInt64
  later : List (UInt64 × T)

structure PartitionState (T : Type) where
  maxPendingPerSender : Nat
  txTtl : Nat
  /-- The floors. -/
  next : LinkedMap Address UInt64
  pending : LinkedMap Address (PendingBuffer T)
  deadlines : List ParkedDeadline
  /-- The nonces below the floor that the sealer refused for good. -/
  refused : LinkedMap Address (Finset UInt64)

namespace PartitionState

variable {T : Type}

def new (maxPendingPerSender txTtl : Nat) : PartitionState T :=
  ⟨maxPendingPerSender, txTtl, .empty, .empty, [], .empty⟩

variable (s : PartitionState T)

section

variable (sender : Address)

def nextNonceKnown : Option UInt64 := s.next.get? sender

/-- The floor, 0 for a sender without one. -/
def nextNonce : UInt64 := (s.next.get? sender).getD 0

/-- The buffered refs below the floor of their sender. -/
def refsBelowFloor : Nat := (s.pending.entries.map fun e => e.2.countBelow (s.nextNonce e.1)).sum

def seedNextNonce (n : UInt64) : PartitionState T :=
  { s with next := s.next.put sender n }

end

/-! ## Buffers -/

section

variable (sender : Address)

/-- The buffer of a sender; a sender without one gets an empty one. -/
def bufferOf : PendingBuffer T := (s.pending.get? sender).getD (.new s.maxPendingPerSender)

def setBuffer (b : PendingBuffer T) : PartitionState T :=
  { s with pending := s.pending.put sender b }

def pushDeadline (d : ParkedDeadline) : PartitionState T :=
  { s with deadlines := s.deadlines.orderedInsert (fun a b => a.le b = true) d }

/-- Whether the buffer of the sender holds a ref at the nonce. -/
def holds (nonce : UInt64) : Bool := (s.pending.get? sender).any fun b => b.contains nonce

/-- The slot of the sender at the nonce. -/
def slotAt (nonce : UInt64) : Option (Slot T) :=
  (s.pending.get? sender).bind fun b => b.inner.get? nonce

/-- Change the buffer of a sender that has one. -/
def withBuffer {R : Type} (none : R)
    (f : PendingBuffer T → PendingBuffer T × R) : PartitionState T × R :=
  match s.pending.get? sender with
  | .none => (s, none)
  | .some b => (s.setBuffer sender (f b).1, (f b).2)

end

/-- Park a future nonce. A parked ref also goes on the heap; a rejected one does not. -/
def park (now : Nat) (sender : Address) (nonce : UInt64) (payload : T) :
    PartitionState T × NonceOutcome T :=
  let deadline := now + s.txTtl
  let r := (s.bufferOf sender).insert nonce payload deadline
  let s' := s.setBuffer sender r.1
  let d : ParkedDeadline := ⟨deadline, sender, nonce⟩
  match r.2 with
  | .inserted => (s'.pushDeadline d, .buffered)
  | .replaced => (s'.pushDeadline d, .bufferedReplaced)
  | .evictedFuture n evicted => (s'.pushDeadline d, .bufferedEvicting n evicted)
  | .rejectedTooFar n => (s', .rejectedTooFar n)
  | .droppedBufferDisabled => (s', .bufferedDisabled)

/-! ## Refused nonces -/

section

variable (sender : Address)

section

variable (nonce : UInt64)

def isRefused : Bool := decide (nonce ∈ (s.refused.get? sender).getD ∅)

/-- The sealer refused the ref at a nonce below the floor: a resubmit there is offered again. -/
def markRefused : PartitionState T :=
  if nonce < s.nextNonce sender then
    { s with refused := s.refused.put sender (insert nonce ((s.refused.get? sender).getD ∅)) }
  else s

/-- Keep the marks of a sender that pass a test. -/
def trimRefused (keep : UInt64 → Bool) : PartitionState T :=
  match s.refused.get? sender with
  | none => s
  | some marks =>
    let kept := marks.filter fun n => keep n = true
    { s with refused := if kept = ∅ then s.refused.remove sender else s.refused.put sender kept }

/-- A ref at the nonce published: its mark ends. -/
def clearRefused : PartitionState T := s.trimRefused sender fun n => n != nonce

end

end

/-! ## The nonce check -/

/-- Drain the run from a nonce on into publish actions; the nonce past it comes back. -/
def drainConsecutiveInto (sender : Address) (start : UInt64) :
    PartitionState T × List (ProcessAction T) × UInt64 :=
  s.withBuffer sender ([], start) fun b =>
    let r := b.drainConsecutiveFrom start
    (r.1, r.2.map fun e => .publish e.1 e.2, advanceOver start r.2)

/-- A ref at the floor: a ref that is buffered there goes before it, and the run behind it follows. -/
def processMatched (sender : Address) (nonce : UInt64) (payload : T) :
    PartitionState T × ProcessResult T :=
  let t := s.withBuffer sender none fun b => b.remove nonce
  let d := t.1.drainConsecutiveInto sender (satAdd64 nonce 1)
  ({ d.1 with next := d.1.next.put sender d.2.2 },
    ⟨.publish nonce (t.2.getD payload) :: d.2.1, .matched⟩)

/-- Check the nonce of an incoming ref. -/
def processAt (now : Nat) (sender : Address) (nonce : UInt64) (payload : T) :
    PartitionState T × ProcessResult T :=
  let expected := s.nextNonce sender
  if nonce < expected && s.isRefused sender nonce then
    (s, ⟨[.publish nonce payload], .reoffered⟩)
  else if nonce < expected then (s, ⟨[.reportDuplicate nonce expected], .past⟩)
  else if expected < nonce then
    let r := s.park now sender nonce payload
    (r.1, ⟨[], r.2⟩)
  else s.processMatched sender nonce payload

/-! ## Rewinds -/

section

variable (sender : Address) (nonce : UInt64)

/-- Lower the floor of a sender to a nonce, and give it a buffer. An unknown floor is set there. -/
def rewindFloor : PartitionState T :=
  let floor := (s.nextNonceKnown sender).elim nonce fun next => min next nonce
  { s with
    next := s.next.put sender floor
    pending := s.pending.put sender (s.bufferOf sender) }

/-- Put a ref that did not publish back, and rewind the floor to it. -/
def reinsertForRetry (payload : T) : PartitionState T :=
  let s' := s.rewindFloor sender nonce
  s'.setBuffer sender ((s'.bufferOf sender).reinsert nonce payload none)

/-- Park one of the later refs of a freed nonce. -/
def parkFreed (dueAt : Nat) (sender : Address) (e : UInt64 × T) : PartitionState T :=
  (s.setBuffer sender ((s.bufferOf sender).reinsert e.1 e.2 (some dueAt))).pushDeadline
    ⟨dueAt, sender, e.1⟩

/-- The floor goes back to a nonce, and the marks from it on end. -/
def freeFloor : PartitionState T :=
  (s.trimRefused sender fun n => decide (n < nonce)).rewindFloor sender nonce

/-- The sealer expects a nonce that nobody here holds: the floor goes back to it and the later refs
park above it. -/
def freeNonce (now : Nat) (freed : FreedNonce T) : PartitionState T :=
  let s' := s.freeFloor freed.sender freed.nonce
  freed.later.foldl (fun s e => s.parkFreed (now + s'.txTtl) freed.sender e) s'

/-- Take a parked ref out if it is the named one. -/
def takeParked (named : T → Bool) : PartitionState T × Option T :=
  s.withBuffer sender none fun b => b.takeParked nonce named

end

/-! ## Expiry and drain -/

/-- Expire one heap entry, if it still names a ref above the floor of its sender. -/
def expireParked (d : ParkedDeadline) : PartitionState T × Option (Address × UInt64 × T) :=
  if d.nonce ≤ s.nextNonce d.sender then (s, none)
  else
    let r := s.withBuffer d.sender none fun b => b.expire d.nonce d.dueAt
    (r.1, r.2.map fun payload => (d.sender, d.nonce, payload))

/-- Pop the due entries until `max` refs expired. -/
def sweepLoop (now : Nat) : List ParkedDeadline → Nat → PartitionState T →
    PartitionState T × List (Address × UInt64 × T)
  | [], _, s => ({ s with deadlines := [] }, [])
  | d :: ds, 0, s => ({ s with deadlines := d :: ds }, [])
  | d :: ds, max + 1, s =>
    if d.dueAt ≤ now then
      match s.expireParked d with
      | (s', none) => sweepLoop now ds (max + 1) s'
      | (s', some e) =>
        let r := sweepLoop now ds max s'
        (r.1, e :: r.2)
    else ({ s with deadlines := d :: ds }, [])

/-- Expire the parked refs whose time has passed, at most `max`. -/
def sweepExpired (now max : Nat) : PartitionState T × List (Address × UInt64 × T) :=
  sweepLoop now s.deadlines max s

/-- Drain the run at the floor of one sender. -/
def drainOneSender (sender : Address) : PartitionState T × List (Address × UInt64 × T) :=
  match s.pending.get? sender with
  | none => (s, [])
  | some b =>
    let r := b.drainConsecutiveFrom (s.nextNonce sender)
    let s' := s.setBuffer sender r.1
    (if r.2.isEmpty then s'
      else { s' with next := s'.next.put sender (advanceOver (s.nextNonce sender) r.2) },
      r.2.map fun e => (sender, e))

/-- The senders with a buffer, each once, in any order. -/
def visitOrder (order : List Address) : List Address :=
  (order.filter fun x => decide (x ∈ s.pending.keys)).dedup
    ++ s.pending.keys.filter fun x => decide (x ∉ order)

/-- Drain the senders of a list, one after the other. -/
def drainLoop : List Address → PartitionState T → PartitionState T × List (Address × UInt64 × T)
  | [], s => (s, [])
  | x :: xs, s =>
    let r := s.drainOneSender x
    let r' := drainLoop xs r.1
    (r'.1, r.2 ++ r'.2)

/-- Drain the run at the floor of every sender. -/
def drainPending (order : List Address) : PartitionState T × List (Address × UInt64 × T) :=
  drainLoop (s.visitOrder order) s

/-! ## Floors -/

section

variable (sender : Address)

/-- A receipt proves every nonce below `floor` executed. -/
def advanceFloor (floor : UInt64) :
    PartitionState T × Option (UInt64 × List (UInt64 × T)) :=
  let cur := s.nextNonce sender
  if floor ≤ cur then (s, none)
  else
    let r := s.withBuffer sender [] fun b => b.dropBelow floor
    ((({ r.1 with next := r.1.next.put sender floor } : PartitionState T).trimRefused sender
      fun n => decide (floor ≤ n)), some (cur, r.2))

/-- A skip proves that the chain expects `chain` next: lower the floor to it. -/
def releaseFloor (chain : UInt64) : PartitionState T × Option UInt64 :=
  match (s.nextNonceKnown sender).filter fun cur => decide (chain < cur) with
  | none => (s, none)
  | some cur =>
    (({ s with next := s.next.put sender chain } : PartitionState T).trimRefused sender
      fun n => decide (n < chain), some cur)

/-- A rollback voided the receipt that set the floor: forget it. -/
def forgetFloor : PartitionState T × Option UInt64 :=
  ({ s with next := s.next.remove sender }, s.next.get? sender)

end

end PartitionState

end Kardamom.Sequencer
