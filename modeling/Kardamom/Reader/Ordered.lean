import Kardamom.Wire.Entry

/-!
# Items of the canonical order

What a subscription of the canonical order yields, and the sequence that the sealer emits. A record
takes its slots from its own index; a boundary takes none, carries the number of the block that it
closes and the index behind the last slot of the block. An `Emission` is a sequence of that kind;
that a record moves the index and a boundary moves the block (`index_lt_of_record`,
`block_lt_of_boundary`) is all that the order of the frames rests on.
-/

namespace Kardamom.Reader

open Wire List

/-- One item of the canonical order: a record of the reference stream or a boundary, or an entry that
carries its bytes. -/
inductive Ordered where
  | message (msg : TxOrderingMessage)
  | tx (tx : CanonicalTx)
  deriving DecidableEq, Repr

variable {x : Ordered} {b : BlockBoundaryStart}

namespace Ordered

/-- The canonical slots of the item. -/
def slots : Ordered → Nat
  | .message (.epoch e) => epochSlots e
  | .message (.remoteEpoch r) => remoteEpochSlots r
  | .message (.txRef _) | .message (.depositRef _) | .message (.boundaryStart _) | .message (.void _)
  | .tx _ => 1

/-- The boundary in the item, if it is one. -/
def asBoundary : Ordered → Option BlockBoundaryStart
  | .message (.boundaryStart b) => some b
  | _ => none

/-- Whether the item is a boundary; a boundary takes no slot of its own. -/
def isBoundary (x : Ordered) : Bool := x.asBoundary.isSome

/-- The void record in the item, if any. -/
def asVoid : Ordered → Option VoidRecord
  | .message (.void v) => some v
  | _ => none

theorem asBoundary_eq_some_iff : x.asBoundary = some b ↔ x = .message (.boundaryStart b) := by
  unfold asBoundary
  split
  · simp
  · simp_all

theorem asVoid_eq_some_iff {v : VoidRecord} : x.asVoid = some v ↔ x = .message (.void v) := by
  unfold asVoid
  split
  · simp
  · simp_all

theorem one_le_slots (x : Ordered) : 1 ≤ x.slots := by
  unfold slots
  split
  · exact Nat.le_add_right ..
  · unfold remoteEpochSlots
    omega
  all_goals exact Nat.le_refl 1

end Ordered

/-- What stops a consumer of the canonical order. -/
inductive ExecutorError where
  | boundaryMisaligned («end» lastSeen : BPosition)
  | clusterBehindCursor (nextIndex nextBlock headIndex headBlock : Nat)
  | txOrderingClosed
  | joinTimeout (sequencerId : UInt8) (txDataPosition : BPosition) (timeoutMs : Nat)
  | voidOfExecutedEntry (index : UInt64) (txHash : B256)
  | txIndexOverflow
  | state (reason : String)
  deriving DecidableEq, Repr

/-- The next canonical index and the next block number. -/
structure ReplayCursor where
  nextIndex : Nat
  nextBlock : Nat
  deriving DecidableEq, Repr

open ReplayCursor

namespace ReplayCursor

/-- The cursor behind an item. -/
def after (c : ReplayCursor) (x : Ordered) : ReplayCursor :=
  match x.asBoundary with
  | some _ => ⟨c.nextIndex, c.nextBlock + 1⟩
  | none => ⟨c.nextIndex + x.slots, c.nextBlock⟩

/-- The sealer emits the item at this cursor: a boundary closes the block of the cursor behind its last
slot. The sealer counts slots and blocks in Java `long`s. -/
structure Emits (c : ReplayCursor) (x : Ordered) : Prop where
  index_lt : (c.after x).nextIndex < 2 ^ 63
  block_lt : (c.after x).nextBlock < 2 ^ 63
  boundary : ∀ b, x.asBoundary = some b →
    b.blockNumber.toNat = c.nextBlock ∧ b.endTxIdx.asIndex.toNat = c.nextIndex

instance (c : ReplayCursor) (x : Ordered) : Decidable (c.Emits x) :=
  decidable_of_iff ((c.after x).nextIndex < 2 ^ 63 ∧ (c.after x).nextBlock < 2 ^ 63
    ∧ ∀ b ∈ x.asBoundary, b.blockNumber.toNat = c.nextBlock ∧ b.endTxIdx.asIndex.toNat = c.nextIndex)
    ⟨fun h => ⟨h.1, h.2.1, h.2.2⟩, fun h => ⟨h.index_lt, h.block_lt, h.boundary⟩⟩

/-- The sealer emits the items in turn from this cursor on. -/
def EmitsAll : ReplayCursor → List Ordered → Prop
  | _, [] => True
  | c, x :: xs => c.Emits x ∧ (c.after x).EmitsAll xs

instance decidableEmitsAll : ∀ (c : ReplayCursor) (items : List Ordered), Decidable (c.EmitsAll items)
  | _, [] => .isTrue trivial
  | c, x :: xs =>
    have := decidableEmitsAll (c.after x) xs
    inferInstanceAs (Decidable (c.Emits x ∧ (c.after x).EmitsAll xs))

variable {c : ReplayCursor}

theorem after_of_record (h : x.asBoundary = none) :
    c.after x = ⟨c.nextIndex + x.slots, c.nextBlock⟩ := by
  unfold after
  rw [h]

theorem after_of_boundary
    (h : x.asBoundary = some b) : c.after x = ⟨c.nextIndex, c.nextBlock + 1⟩ := by
  unfold after
  rw [h]

/-- An item moves one of the two counters up and leaves the other. -/
theorem le_after (c : ReplayCursor) (x : Ordered) :
    c.nextIndex ≤ (c.after x).nextIndex ∧ c.nextBlock ≤ (c.after x).nextBlock := by
  cases h : x.asBoundary with
  | none => simp [after_of_record h]
  | some b => simp [after_of_boundary h]

end ReplayCursor

/-- A sequence of items as the sealer emits it. -/
structure Emission where
  start : ReplayCursor
  items : List Ordered
  emitted : start.EmitsAll items

namespace Emission

variable (E : Emission)

/-- The cursor in front of the item `k`. -/
def cursor (k : Nat) : ReplayCursor := (E.items.take k).foldl .after E.start

variable {k : Nat}

theorem cursor_succ (h : E.items[k]? = some x) : E.cursor (k + 1) = (E.cursor k).after x := by
  unfold cursor
  rw [take_add_one, h]
  simp

theorem emits_at (h : E.items[k]? = some x) : (E.cursor k).Emits x := by
  obtain ⟨c, items, hall⟩ := E
  induction items generalizing c k with
  | nil => simp at h
  | cons y items ih =>
    cases k with
    | zero =>
      obtain rfl : y = x := by simpa using h
      exact hall.1
    | succ k => exact ih (c.after y) hall.2 (by simpa using h)

theorem cursor_of_length_le (h : E.items.length ≤ k) : E.cursor (k + 1) = E.cursor k := by
  unfold cursor
  rw [take_of_length_le h, take_of_length_le (Nat.le_succ_of_le h)]

theorem cursor_mono {j : Nat} (h : j ≤ k) : (E.cursor j).nextIndex ≤ (E.cursor k).nextIndex
      ∧ (E.cursor j).nextBlock ≤ (E.cursor k).nextBlock := by
  induction k, h using Nat.le_induction with
  | base => exact ⟨le_rfl, le_rfl⟩
  | succ k _ ih =>
    cases hx : E.items[k]? with
    | none => rwa [E.cursor_of_length_le (List.getElem?_eq_none_iff.1 hx)]
    | some x =>
      rw [E.cursor_succ hx]
      have hstep := (E.cursor k).le_after x
      exact ⟨ih.1.trans hstep.1, ih.2.trans hstep.2⟩

variable {E}

/-- What stands behind a record has a larger index. -/
theorem index_lt_of_record {m : Nat} (hx : E.items[k]? = some x) (hr : x.asBoundary = none) (h : k < m) :
    (E.cursor k).nextIndex < (E.cursor m).nextIndex := by
  have hstep : (E.cursor (k + 1)).nextIndex = (E.cursor k).nextIndex + x.slots := by
    rw [E.cursor_succ hx, after_of_record hr]
  have hpos := x.one_le_slots
  have hmono : (E.cursor (k + 1)).nextIndex ≤ (E.cursor m).nextIndex := (E.cursor_mono h).1
  omega

/-- What stands behind a boundary is of a later block. -/
theorem block_lt_of_boundary {m : Nat} (hx : E.items[k]? = some x) (hb : x.asBoundary = some b) (h : k < m) :
    (E.cursor k).nextBlock < (E.cursor m).nextBlock := by
  have hstep : (E.cursor (k + 1)).nextBlock = (E.cursor k).nextBlock + 1 := by
    rw [E.cursor_succ hx, after_of_boundary hb]
  have hmono : (E.cursor (k + 1)).nextBlock ≤ (E.cursor m).nextBlock := (E.cursor_mono h).2
  omega

end Emission

end Kardamom.Reader
