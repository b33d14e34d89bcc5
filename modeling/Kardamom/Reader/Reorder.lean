import Kardamom.Lib.Run
import Kardamom.Lib.SortedMap
import Kardamom.Reader.Ordered

/-!
# The order of delivery

`Reorder` is the delivery cursor and the pending set of one canonical stream. Neither key orders a
record against a boundary, so a record waits until the pending boundary of the open block closes behind
it, or until the reader knows that its source delivers in the order of emission.
-/

namespace Kardamom.Reader

open Wire Except

/-- Bound on the buffers of a catch-up. -/
def maxPending : Nat := 2 ^ 20

/-- The delivery cursor and the pending set of one canonical stream. -/
structure Reorder where
  cursor : ReplayCursor
  pendingRecords : SortedMap Nat Ordered
  pendingBoundaries : SortedMap Nat BlockBoundaryStart
  /-- A replay is outstanding: a record is delivered only once the boundary of the open block proves
  that it comes first. -/
  catchingUp : Bool

namespace Reorder

def new (cursor : ReplayCursor) : Reorder := ⟨cursor, .empty, .empty, false⟩

section

variable (r : Reorder)

/-- Hold the records until the replay of a new session is done; the pending set stays. -/
def catchUp : Reorder := { r with catchingUp := true }

/-- Start a new replay from the delivery cursor. -/
def restart : Reorder :=
  { r with pendingRecords := .empty, pendingBoundaries := .empty, catchingUp := true }

/-- Whether nothing proves that an earlier boundary is missing. -/
def recordIsNext : Bool :=
  match r.pendingBoundaries.get? r.cursor.nextBlock with
  | some b => decide (r.cursor.nextIndex < b.endTxIdx.asIndex.toNat)
  | none => !r.catchingUp

/-- Deliver the pending record at the cursor. -/
def deliverRecord : Except ExecutorError (Reorder × Option (BPosition × Ordered)) :=
  match r.pendingRecords.get? r.cursor.nextIndex with
  | none => .ok (r, none)
  | some item =>
    if r.cursor.nextIndex + item.slots < 2 ^ 64 then
      .ok ({ r with
              cursor := ⟨r.cursor.nextIndex + item.slots, r.cursor.nextBlock⟩
              pendingRecords := r.pendingRecords.remove r.cursor.nextIndex },
        some (.fromIndex (.ofNat r.cursor.nextIndex), item))
    else
      .error (.state ("cluster tx_ordering cursor overflow: " ++ toString r.cursor.nextIndex
        ++ " + slot_width would exceed u64"))

/-- The pending boundary that closes the open block at or below the cursor. -/
def boundaryIsNext : Option BlockBoundaryStart :=
  (r.pendingBoundaries.get? r.cursor.nextBlock).filter
    fun b => b.endTxIdx.asIndex.toNat ≤ r.cursor.nextIndex

/-- Deliver the next item from the buffers, if it is provably next. -/
def tryDeliver : Except ExecutorError (Reorder × Option (BPosition × Ordered)) :=
  match r.boundaryIsNext with
  | some b =>
    .ok ({ r with
            cursor := ⟨r.cursor.nextIndex, min (r.cursor.nextBlock + 1) (2 ^ 64 - 1)⟩
            pendingBoundaries := r.pendingBoundaries.remove r.cursor.nextBlock },
      some (b.endTxIdx, .message (.boundaryStart b)))
  | none => if r.recordIsNext then r.deliverRecord else .ok (r, none)

/-- End the catch-up at a `REPLAY_DONE` marker, which carries the head of the sealer. -/
def endReplay (upToIndex upToBlock : Nat) : Except ExecutorError Reorder :=
  if upToIndex < r.cursor.nextIndex ∨ upToBlock < r.cursor.nextBlock then
    .error (.clusterBehindCursor r.cursor.nextIndex r.cursor.nextBlock upToIndex upToBlock)
  else .ok { r with catchingUp := false }

def checkPendingOverflow : Except ExecutorError Reorder :=
  if maxPending < r.pendingRecords.entries.length ∨ maxPending < r.pendingBoundaries.entries.length then
    .error (.state "cluster catch-up buffer overflow — replay window too large to reorder")
  else .ok r

/-- Buffer one canonical record. A key gap enters the catch-up. -/
def ingestRecord (index : Nat) (item : Ordered) : Except ExecutorError Reorder :=
  if index < r.cursor.nextIndex then .ok r
  else
    checkPendingOverflow { r with
      catchingUp := r.catchingUp || decide (r.cursor.nextIndex < index)
      pendingRecords := r.pendingRecords.upsert index fun _ => item }

/-- Buffer one boundary. One that closes below the cursor is an error: what follows it is delivered. -/
def ingestBoundary (b : BlockBoundaryStart) : Except ExecutorError Reorder :=
  if b.blockNumber.toNat < r.cursor.nextBlock then .ok r
  else if b.endTxIdx.asIndex.toNat < r.cursor.nextIndex then
    .error (.boundaryMisaligned b.endTxIdx (.fromIndex (.ofNat r.cursor.nextIndex)))
  else
    checkPendingOverflow { r with
      catchingUp := r.catchingUp || decide (r.cursor.nextBlock < b.blockNumber.toNat)
      pendingBoundaries := r.pendingBoundaries.upsert b.blockNumber.toNat fun _ => b }

/-- Buffer one frame of the stream; a record is keyed by its canonical index. -/
def ingest (index : Nat) (x : Ordered) : Except ExecutorError Reorder :=
  match x.asBoundary with
  | some b => r.ingestBoundary b
  | none => r.ingestRecord index x

end

/-! ## What each call can do -/

variable {r r' : Reorder}

theorem checkPendingOverflow_eq_ok (h : r.checkPendingOverflow = .ok r') : r' = r := by
  unfold checkPendingOverflow at h
  split at h
  · exact nomatch h
  · exact (ok.inj h).symm

/-- A delivery hands out the pending boundary of the open block, or the pending record at the cursor, or
nothing. -/
theorem tryDeliver_eq_ok {d : Option (BPosition × Ordered)} (h : r.tryDeliver = .ok (r', d)) :
    (r' = r ∧ d = none)
    ∨ (∃ b, r.pendingBoundaries.get? r.cursor.nextBlock = some b
        ∧ b.endTxIdx.asIndex.toNat ≤ r.cursor.nextIndex
        ∧ r' = { r with
            cursor := ⟨r.cursor.nextIndex, min (r.cursor.nextBlock + 1) (2 ^ 64 - 1)⟩
            pendingBoundaries := r.pendingBoundaries.remove r.cursor.nextBlock }
        ∧ d = some (b.endTxIdx, .message (.boundaryStart b)))
    ∨ (∃ x, r.recordIsNext = true ∧ r.pendingRecords.get? r.cursor.nextIndex = some x
        ∧ r' = { r with
            cursor := ⟨r.cursor.nextIndex + x.slots, r.cursor.nextBlock⟩
            pendingRecords := r.pendingRecords.remove r.cursor.nextIndex }
        ∧ d = some (.fromIndex (.ofNat r.cursor.nextIndex), x)) := by
  unfold tryDeliver at h
  split at h
  next b hb =>
    obtain ⟨hget, hend⟩ := Option.filter_eq_some_iff.1 hb
    obtain ⟨rfl, rfl⟩ := Prod.mk.inj (ok.inj h)
    exact .inr (.inl ⟨b, hget, by simpa using hend, rfl, rfl⟩)
  next =>
    split at h
    next hnext =>
      unfold deliverRecord at h
      split at h
      · obtain ⟨rfl, rfl⟩ := Prod.mk.inj (ok.inj h)
        exact .inl ⟨rfl, rfl⟩
      next x hx =>
        split at h
        · obtain ⟨rfl, rfl⟩ := Prod.mk.inj (ok.inj h)
          exact .inr (.inr ⟨x, hnext, hx, rfl, rfl⟩)
        · exact nomatch h
    next =>
      obtain ⟨rfl, rfl⟩ := Prod.mk.inj (ok.inj h)
      exact .inl ⟨rfl, rfl⟩

theorem ingestRecord_eq_ok {index : Nat} {x : Ordered} (h : r.ingestRecord index x = .ok r') :
    (index < r.cursor.nextIndex ∧ r' = r)
    ∨ (r.cursor.nextIndex ≤ index ∧ r' = { r with
        catchingUp := r.catchingUp || decide (r.cursor.nextIndex < index)
        pendingRecords := r.pendingRecords.upsert index fun _ => x }) := by
  unfold ingestRecord at h
  split at h
  next hlt => exact .inl ⟨hlt, (ok.inj h).symm⟩
  next hge => exact .inr ⟨Nat.le_of_not_lt hge, checkPendingOverflow_eq_ok h⟩

theorem ingestBoundary_eq_ok {b : BlockBoundaryStart} (h : r.ingestBoundary b = .ok r') :
    (b.blockNumber.toNat < r.cursor.nextBlock ∧ r' = r)
    ∨ (r.cursor.nextBlock ≤ b.blockNumber.toNat ∧ r' = { r with
        catchingUp := r.catchingUp || decide (r.cursor.nextBlock < b.blockNumber.toNat)
        pendingBoundaries := r.pendingBoundaries.upsert b.blockNumber.toNat fun _ => b }) := by
  unfold ingestBoundary at h
  split at h
  next hlt => exact .inl ⟨hlt, (ok.inj h).symm⟩
  next hge =>
    split at h
    · exact nomatch h
    · exact .inr ⟨Nat.le_of_not_lt hge, checkPendingOverflow_eq_ok h⟩

theorem endReplay_eq_ok {upToIndex upToBlock : Nat}
    (h : r.endReplay upToIndex upToBlock = .ok r') : r' = { r with catchingUp := false } := by
  unfold endReplay at h
  split at h
  · exact nomatch h
  · exact (ok.inj h).symm

end Reorder

end Kardamom.Reader
