import Mathlib.Data.PNat.Defs
import Kardamom.Lib.Custody
import Kardamom.Lib.Words

/-!
# The future nonces of a sender

A bounded buffer of the refs of one sender, by nonce. When it is full it keeps its lowest nonces: the
buffer holds what waits above the nonce that the sender must send next, and the lowest of those drain
first. A ref that comes back from the publisher goes in without the bound.

A drain takes the run of nonces from a start on and stops at the first gap. Its loop reads the last
64-bit nonce out of the buffer without yielding it, as the source's iterator does.
-/

namespace Kardamom.Sequencer

open Words SortedMap List UInt64 List Option

/-- The last nonce. -/
def nonceMax : UInt64 := 0xFFFFFFFFFFFFFFFF

/-- What an insert did. -/
inductive InsertOutcome (T : Type) where
  | inserted
  | replaced
  /-- The buffer was full: its highest nonce left for this lower one. -/
  | evictedFuture (evictedNonce : UInt64) (evicted : T)
  /-- The buffer was full, and this nonce is above all of its nonces. -/
  | rejectedTooFar (nonce : UInt64)
  | droppedBufferDisabled
  deriving DecidableEq, Repr

/-- One buffered ref. A fresh one has a deadline; one that waits on the publisher has none. -/
structure Slot (T : Type) where
  deadline : Option Nat
  value : T
  deriving DecidableEq, Repr

/-- The buffer; no capacity means that it is disabled. -/
structure PendingBuffer (T : Type) where
  capacity : Option ℕ+
  inner : SortedMap UInt64 (Slot T)

namespace PendingBuffer

variable {T : Type}

/-- An empty buffer; capacity 0 disables it. -/
def new (capacity : Nat) : PendingBuffer T :=
  ⟨if h : 0 < capacity then some ⟨capacity, h⟩ else none, .empty⟩

variable (b : PendingBuffer T)

def len : Nat := b.inner.entries.length

/-- How many refs sit below `floor`. -/
def countBelow (floor : UInt64) : Nat := (b.inner.headMap floor).entries.length

def contains (nonce : UInt64) : Bool := (b.inner.get? nonce).isSome

/-- Put a slot under a nonce. -/
def put (nonce : UInt64) (slot : Slot T) : PendingBuffer T :=
  { b with inner := b.inner.upsert nonce fun _ => slot }

/-- The highest entry, when the buffer is full and does not hold `nonce`. -/
def fullMax (capacity : ℕ+) (nonce : UInt64) : Option (UInt64 × Slot T) :=
  if !b.contains nonce && decide ((capacity : Nat) ≤ b.len) then b.inner.entries.getLast? else none

section

variable (nonce : UInt64)

/-- Buffer a fresh ref. -/
def insert (value : T) (deadline : Nat) : PendingBuffer T × InsertOutcome T :=
  match b.capacity with
  | none => (b, .droppedBufferDisabled)
  | some capacity =>
    let slot : Slot T := ⟨some deadline, value⟩
    match b.fullMax capacity nonce with
    | some (max, last) =>
      if max < nonce then (b, .rejectedTooFar nonce)
      else ({ b with inner := b.inner.remove max }.put nonce slot, .evictedFuture max last.value)
    | none => (b.put nonce slot, if b.contains nonce then .replaced else .inserted)

/-- Insert without the bound. -/
def reinsert (value : T) (deadline : Option Nat) : PendingBuffer T := b.put nonce ⟨deadline, value⟩

/-- Take the ref at `nonce` out. -/
def remove : PendingBuffer T × Option T :=
  ({ b with inner := b.inner.remove nonce }, (b.inner.get? nonce).map Slot.value)

/-- Take the ref at `nonce` out if its slot passes a test. -/
def takeIf (live : Slot T → Bool) : PendingBuffer T × Option T :=
  if (b.inner.get? nonce).any live then b.remove nonce else (b, none)

/-- Take the ref at `nonce` out if it still has this deadline. -/
def expire (deadline : Nat) : PendingBuffer T × Option T :=
  b.takeIf nonce fun slot => slot.deadline == some deadline

/-- Take the ref at `nonce` out if it has a deadline and is the named one. -/
def takeParked (named : T → Bool) : PendingBuffer T × Option T :=
  b.takeIf nonce fun slot => slot.deadline.isSome && named slot.value

end

/-- Drop the refs below `floor`. -/
def dropBelow (floor : UInt64) : PendingBuffer T × List (UInt64 × T) :=
  ({ b with inner := b.inner.filter fun e => decide (floor ≤ e.1) },
    (b.inner.headMap floor).entries.map fun e => (e.1, e.2.value))

/-- The drain loop. Each round takes an entry out, so `fuel` is at most the size. -/
def drainLoop : Nat → SortedMap UInt64 (Slot T) → UInt64 →
    SortedMap UInt64 (Slot T) × List (UInt64 × T)
  | 0, m, _ => (m, [])
  | fuel + 1, m, next =>
    match m.get? next with
    | none => (m, [])
    | some slot =>
      -- the iterator has no nonce to go on with: the last one is taken out and not yielded
      if next = nonceMax then (m.remove next, [])
      else
        let r := drainLoop fuel (m.remove next) (next + 1)
        (r.1, (next, slot.value) :: r.2)

/-- Drain the run of nonces from `start` on. -/
def drainConsecutiveFrom (start : UInt64) : PendingBuffer T × List (UInt64 × T) :=
  let r := drainLoop b.len b.inner start
  ({ b with inner := r.1 }, r.2)

/-- The nonce past the last drained one, or `start`. -/
def advanceOver (start : UInt64) (drained : List (UInt64 × T)) : UInt64 :=
  drained.foldl (fun _ e => satAdd64 e.1 1) start

/-! ## What the buffer holds -/

/-- The refs in the buffer. -/
def held : Multiset (UInt64 × T) := b.inner.pool fun n slot => {(n, slot.value)}

/-- The ref at one nonce. -/
def heldAt (nonce : UInt64) : Multiset (UInt64 × T) :=
  (b.inner.get? nonce).elim 0 fun slot => {(nonce, slot.value)}

variable {nonce : UInt64}

theorem heldAt_of_get? {b : PendingBuffer T} {slot : Slot T}
    (h : b.inner.get? nonce = some slot) : b.heldAt nonce = {(nonce, slot.value)} := by
  rw [heldAt, h]; rfl

theorem heldAt_of_none {b : PendingBuffer T} (h : b.inner.get? nonce = none) : b.heldAt nonce = 0 := by
  rw [heldAt, h]; rfl

section

variable (nonce : UInt64)

@[simp] theorem inner_put (slot : Slot T) : (b.put nonce slot).inner = b.inner.upsert nonce fun _ => slot := rfl

@[simp] theorem inner_remove : (b.remove nonce).1.inner = b.inner.remove nonce := rfl

/-- A slot that is put displaces what the buffer held there. -/
theorem held_put (slot : Slot T) :
    (b.put nonce slot).held + b.heldAt nonce = (nonce, slot.value) ::ₘ b.held := by
  have hsplit : b.held = b.heldAt nonce + (b.inner.remove nonce).pool _ :=
    pool_eq_add _ b.inner nonce
  have hput : (b.put nonce slot).held = {(nonce, slot.value)} + (b.inner.remove nonce).pool _ :=
    pool_upsert _ b.inner nonce slot
  rw [hsplit, hput, add_assoc, add_comm _ (b.heldAt nonce), Multiset.singleton_add]

theorem held_remove : b.held = b.heldAt nonce + (b.remove nonce).1.held :=
  pool_eq_add _ b.inner nonce

/-- What a conditional removal does. -/
theorem takeIf_cases (live : Slot T → Bool) :
    b.takeIf nonce live = (b, none) ∨ ∃ slot, b.inner.get? nonce = some slot ∧
      b.takeIf nonce live = ((b.remove nonce).1, some slot.value) := by
  unfold takeIf
  cases h : b.inner.get? nonce with
  | none => exact .inl rfl
  | some slot =>
    cases hlive : live slot with
    | false => exact .inl (if_neg (by simp [hlive]))
    | true => exact .inr ⟨slot, rfl, (if_pos (by simp [hlive])).trans (by rw [remove, h]; rfl)⟩

/-- What an insert does. -/
inductive Inserts (nonce : UInt64) (value : T) (deadline : Nat) :
    PendingBuffer T × InsertOutcome T → Prop
  | disabled : Inserts nonce value deadline (b, .droppedBufferDisabled)
  | tooFar : Inserts nonce value deadline (b, .rejectedTooFar nonce)
  | evicted {max : UInt64} {last : Slot T} (hmax : b.inner.get? max = some last)
      (hnew : b.inner.get? nonce = none) :
      Inserts nonce value deadline
        ((b.remove max).1.put nonce ⟨some deadline, value⟩, .evictedFuture max last.value)
  | replaced {old : Slot T} (hold : b.inner.get? nonce = some old) :
      Inserts nonce value deadline (b.put nonce ⟨some deadline, value⟩, .replaced)
  | inserted (hnew : b.inner.get? nonce = none) :
      Inserts nonce value deadline (b.put nonce ⟨some deadline, value⟩, .inserted)

theorem inserts (value : T) (deadline : Nat) :
    b.Inserts nonce value deadline (b.insert nonce value deadline) := by
  unfold insert
  split
  case h_1 => exact .disabled
  case h_2 capacity _ =>
    split
    case h_1 max last hfull =>
      unfold fullMax at hfull
      split at hfull
      case isFalse => cases hfull
      case isTrue hcond =>
        have hnew : b.inner.get? nonce = none := by
          simp only [contains, Bool.and_eq_true, Bool.not_eq_true', isSome_eq_false_iff,
            isNone_iff_eq_none] at hcond
          exact hcond.1
        have hmax : b.inner.get? max = some last := get?_eq_some_iff.2 (mem_of_getLast? hfull)
        split
        case isTrue => exact .tooFar
        case isFalse => exact .evicted hmax hnew
    case h_2 =>
      unfold contains
      cases hget : b.inner.get? nonce with
      | none => exact .inserted hget
      | some old => exact .replaced hget

end

variable {n : UInt64}

/-- An insert adds no other nonce. -/
theorem mem_insert {value : T} {deadline : Nat} (h : ((b.insert nonce value deadline).1.inner.get? n).isSome) :
    n = nonce ∨ (b.inner.get? n).isSome := by
  by_cases hn : n = nonce
  · exact .inl hn
  refine .inr ?_
  have hins := b.inserts nonce value deadline
  generalize b.insert nonce value deadline = r at h hins
  cases hins with
  | disabled | tooFar => exact h
  | inserted | replaced => rwa [inner_put, get?_upsert_of_ne _ hn] at h
  | @evicted max last =>
    rw [inner_put, get?_upsert_of_ne _ hn, inner_remove] at h
    by_cases hm : n = max
    · rw [hm, get?_remove_self] at h
      cases h
    · rwa [get?_remove_of_ne _ hm] at h

/-- What a drop takes out and what it leaves. -/
theorem held_dropBelow (floor : UInt64) :
    b.held = ↑(b.dropBelow floor).2 + (b.dropBelow floor).1.held := by
  have hsplit := pool_filter_add (fun n (slot : Slot T) => {(n, slot.value)}) b.inner
    fun e => decide (e.1 < floor)
  have hkeep : (b.dropBelow floor).1.inner = b.inner.filter fun e => !decide (e.1 < floor) :=
    congrArg b.inner.filter (funext fun e => by rw [← decide_not, decide_eq_decide, not_lt])
  have hdrop : (↑(b.dropBelow floor).2 : Multiset (UInt64 × T))
      = (b.inner.headMap floor).pool fun n slot => {(n, slot.value)} :=
    (pool_singleton (fun n (slot : Slot T) => (n, slot.value)) _).symm
  rw [hdrop, held, held, hkeep]
  exact hsplit.symm

theorem get?_dropBelow (floor n : UInt64) :
    (b.dropBelow floor).1.inner.get? n = if floor ≤ n then b.inner.get? n else none := by
  have h := get?_filter_of_key b.inner (fun k => decide (floor ≤ k)) n
  simp only [decide_eq_true_eq] at h
  exact h

/-! ## Drains -/

theorem toNat_add_one (h : n ≠ nonceMax) : (n + 1).toNat = n.toNat + 1 := by
  have hne : n.toNat ≠ nonceMax.toNat := fun heq => h (UInt64.toNat_inj.1 heq)
  have hmax : nonceMax.toNat = 2 ^ 64 - 1 := rfl
  have hlt := n.toNat_lt
  rw [UInt64.toNat_add, toNat_one, Nat.mod_eq_of_lt (by omega)]

theorem satAdd64_one (h : n ≠ nonceMax) : satAdd64 n 1 = n + 1 := by
  apply UInt64.toNat_inj.1
  have hsucc := toNat_add_one h
  have hlt := (n + 1).toNat_lt
  rw [toNat_satAdd64, toNat_one]
  omega

section Drain

variable {m : SortedMap UInt64 (Slot T)} {fuel : Nat} {next : UInt64}

/-- A drain leaves nothing of the run that it walked over. -/
theorem mem_drainLoop (h : ((drainLoop fuel m next).1.get? n).isSome) :
    (m.get? n).isSome ∧ (next ≤ n → advanceOver next (drainLoop fuel m next).2 ≤ n) := by
  induction fuel generalizing m next with
  | zero => exact ⟨h, id⟩
  | succ fuel ih =>
    unfold drainLoop at h ⊢
    cases hget : m.get? next with
    | none =>
      rw [hget] at h
      exact ⟨h, id⟩
    | some slot =>
      rw [hget] at h
      dsimp only at h ⊢
      have hleft : ((m.remove next).get? n).isSome → (m.get? n).isSome ∧ n ≠ next := by
        intro hn
        have hne : n ≠ next := by
          rintro rfl
          rw [get?_remove_self] at hn
          cases hn
        exact ⟨by rwa [get?_remove_of_ne _ hne] at hn, hne⟩
      by_cases hmax : next = nonceMax
      · rw [if_pos hmax] at h ⊢
        exact ⟨(hleft h).1, id⟩
      · rw [if_neg hmax] at h ⊢
        obtain ⟨hin, hadv⟩ := ih h
        obtain ⟨hin, hne⟩ := hleft hin
        refine ⟨hin, fun hle => ?_⟩
        show advanceOver (satAdd64 next 1) _ ≤ n
        rw [satAdd64_one hmax]
        refine hadv (le_iff_toNat_le.2 ?_)
        have hle' := le_iff_toNat_le.1 hle
        have hne' : n.toNat ≠ next.toNat := fun heq => hne (UInt64.toNat_inj.1 heq)
        rw [toNat_add_one hmax]
        omega

/-- A drain yields the nonces from its start on, in their order. -/
theorem nonces_drainLoop : (drainLoop fuel m next).2.map (fun e => e.1.toNat)
      = range' next.toNat (drainLoop fuel m next).2.length ∧
    (advanceOver next (drainLoop fuel m next).2).toNat
      = next.toNat + (drainLoop fuel m next).2.length := by
  induction fuel generalizing m next with
  | zero => exact ⟨rfl, rfl⟩
  | succ fuel ih =>
    unfold drainLoop
    cases m.get? next with
    | none => exact ⟨rfl, rfl⟩
    | some slot =>
      dsimp only
      by_cases hmax : next = nonceMax
      · rw [if_pos hmax]
        exact ⟨rfl, rfl⟩
      · rw [if_neg hmax]
        obtain ⟨hrange, hadv⟩ := @ih (m.remove next) (next + 1)
        rw [toNat_add_one hmax] at hrange hadv
        refine ⟨?_, ?_⟩
        · rw [map_cons, hrange, length_cons, range'_succ]
        · show (advanceOver (satAdd64 next 1) _).toNat = _
          rw [satAdd64_one hmax, length_cons]
          omega

/-- The floor that a drain moves to is past every nonce that it yields. -/
theorem lt_advanceOver {e : UInt64 × T} (he : e ∈ (drainLoop fuel m next).2) :
    e.1 < advanceOver next (drainLoop fuel m next).2 := by
  obtain ⟨hrange, hadv⟩ := @nonces_drainLoop T m fuel next
  have hmem : e.1.toNat ∈ range' next.toNat (drainLoop fuel m next).2.length :=
    hrange ▸ mem_map_of_mem he
  rw [mem_range'_1] at hmem
  rw [lt_iff_toNat_lt, hadv]
  exact hmem.2

theorem le_advanceOver : next ≤ advanceOver next (drainLoop fuel m next).2 := by
  rw [le_iff_toNat_le, nonces_drainLoop.2]
  exact Nat.le_add_right ..

/-- A drain moves refs out and changes none, unless it reaches the last nonce. -/
theorem pool_drainLoop (hmax : m.get? nonceMax = none) :
    m.pool (fun n slot => {(n, slot.value)}) = ↑(drainLoop fuel m next).2
      + (drainLoop fuel m next).1.pool fun n slot => {(n, slot.value)} := by
  induction fuel generalizing m next with
  | zero => exact (zero_add _).symm
  | succ fuel ih =>
    unfold drainLoop
    cases hget : m.get? next with
    | none => exact (zero_add _).symm
    | some slot =>
      have hne : next ≠ nonceMax := by
        rintro rfl
        rw [hmax] at hget
        cases hget
      dsimp only
      rw [if_neg hne, pool_eq_add _ m next, hget, ih (by rwa [get?_remove_of_ne _ hne.symm])]
      rw [← Multiset.cons_coe, Multiset.cons_add]
      rfl

/-- The loop ends at a gap: the fuel does not stop it. -/
theorem drainLoop_stops (hfuel : m.entries.length ≤ fuel) (hmax : m.get? nonceMax = none) :
    (drainLoop fuel m next).1.get? (advanceOver next (drainLoop fuel m next).2) = none := by
  induction fuel generalizing m next with
  | zero =>
    have hnil : m.entries = [] := eq_nil_of_length_eq_zero (by omega)
    exact get?_eq_none_iff.2 (by simp [drainLoop, hnil])
  | succ fuel ih =>
    unfold drainLoop
    cases hget : m.get? next with
    | none => exact hget
    | some slot =>
      have hne : next ≠ nonceMax := by
        rintro rfl
        rw [hmax] at hget
        cases hget
      dsimp only
      rw [if_neg hne]
      show (drainLoop fuel _ _).1.get? (advanceOver (satAdd64 next 1) _) = none
      rw [satAdd64_one hne]
      refine ih ?_ (by rwa [get?_remove_of_ne _ hne.symm])
      have hlen := (perm_entries_remove hget).length_eq
      rw [length_cons] at hlen
      omega

end Drain

end PendingBuffer

end Kardamom.Sequencer
