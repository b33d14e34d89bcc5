import Mathlib.Data.Prod.Lex
import Kardamom.Lib.Custody
import Kardamom.Wire.Basic

/-!
# The ledger of published refs

An accepted offer is no commitment, so a published ref stays here until a receipt of its sender at or
above its nonce confirms it. A ref that waits longer than the timeout is taken out to be offered again.

The expiry queue is in publish order and deletes lazily: an entry of it counts only while the ledger
holds its key with the same time.
-/

namespace Kardamom.Sequencer

open Wire (Address)
open List SortedMap Multiset

/-- The keys of the ledger, by sender and then by nonce. -/
abbrev UnconfirmedKey := Address ×ₗ UInt64

/-- A ref of a sender at a nonce. -/
abbrev Ref (T : Type) := Address × UInt64 × T

structure UnconfirmedLedger (T : Type) where
  /-- The refs and when they published. -/
  entries : SortedMap UnconfirmedKey (T × Nat)
  expiry : List (Nat × UnconfirmedKey)

namespace UnconfirmedLedger

variable {T : Type}

def new : UnconfirmedLedger T := ⟨.empty, []⟩

variable (l : UnconfirmedLedger T)

section

variable (sender : Address)

def key (nonce : UInt64) : UnconfirmedKey := toLex (sender, nonce)

/-- The keys of a sender with a nonce in `lo..=hi`, ascending. -/
def keysIn (lo hi : UInt64) : List UnconfirmedKey :=
  (l.entries.entries.map Prod.fst).filter fun k => decide (key sender lo ≤ k ∧ k ≤ key sender hi)

def contains (nonce : UInt64) : Bool := (l.entries.get? (key sender nonce)).isSome

/-- The refs of a sender at `start` or later. -/
def countFrom (start : UInt64) : Nat := (l.keysIn sender start 0xFFFFFFFFFFFFFFFF).length

end

/-- Keep a ref that just published. -/
def recordPublished (now : Nat) (sender : Address) (nonce : UInt64) (payload : T) :
    UnconfirmedLedger T :=
  { entries := l.entries.upsert (key sender nonce) fun _ => (payload, now)
    expiry := l.expiry ++ [(now, key sender nonce)] }

/-- Take one key out. -/
def take (k : UnconfirmedKey) : UnconfirmedLedger T × Option (UnconfirmedKey × T) :=
  ({ l with entries := l.entries.remove k }, (l.entries.get? k).map fun e => (k, e.1))

/-- Take keys out, one after the other. -/
def takeAll : List UnconfirmedKey → UnconfirmedLedger T →
    UnconfirmedLedger T × List (UnconfirmedKey × T)
  | [], l => (l, [])
  | k :: ks, l =>
    let r := takeAll ks (l.take k).1
    (r.1, (l.take k).2.toList ++ r.2)

section

variable (sender : Address)

/-- A receipt confirms every ref of a sender up to a nonce. The refs that leave come with it. -/
def confirmThrough (confirmed : UInt64) : UnconfirmedLedger T × List (UnconfirmedKey × T) :=
  takeAll (l.keysIn sender 0 confirmed) l

/-- Drop the ref at a nonce. -/
def dropCommitted (nonce : UInt64) : UnconfirmedLedger T × Option T :=
  let r := l.take (key sender nonce)
  (r.1, r.2.map Prod.snd)

/-- Drop the ref at a nonce if it is the named one. -/
def takeNamed (nonce : UInt64) (named : T → Bool) : UnconfirmedLedger T × Option T :=
  if (l.entries.get? (key sender nonce)).any fun e => named e.1 then l.dropCommitted sender nonce
  else (l, none)

/-- Take keys out, the last one first: the lowest nonce of a sender is rewound last. -/
def takeDescending (keys : List UnconfirmedKey) : UnconfirmedLedger T × List (UnconfirmedKey × T) :=
  takeAll keys.reverse l

/-- Take every ref of a sender at or above a nonce. -/
def takeGapRewinds (expected : UInt64) : UnconfirmedLedger T × List (UnconfirmedKey × T) :=
  l.takeDescending (l.keysIn sender expected 0xFFFFFFFFFFFFFFFF)

end

/-- Pop the queue entries past the timeout until `max` keys of the ledger came out. The keys and the
rest of the queue come back. -/
def expireLoop (entries : SortedMap UnconfirmedKey (T × Nat)) (timeout now : Nat) :
    List (Nat × UnconfirmedKey) → Nat → List UnconfirmedKey × List (Nat × UnconfirmedKey)
  | [], _ => ([], [])
  | q :: queue, 0 => ([], q :: queue)
  | q :: queue, max + 1 =>
    if now - q.1 < timeout then ([], q :: queue)
    else if (entries.get? q.2).any fun e => e.2 == q.1 then
      let r := expireLoop entries timeout now queue max
      (q.2 :: r.1, r.2)
    else expireLoop entries timeout now queue (max + 1)

/-- Take the refs past the timeout, at most `max`. -/
def sweepExpired (timeout now max : Nat) : UnconfirmedLedger T × List (UnconfirmedKey × T) :=
  let r := expireLoop l.entries timeout now l.expiry max
  { l with expiry := r.2 }.takeDescending r.1

/-! ## What the ledger holds -/

/-- The ref under a key. -/
def refOf (e : UnconfirmedKey × T) : Ref T := ((ofLex e.1).1, (ofLex e.1).2, e.2)

/-- The refs in the ledger. -/
def held : Multiset (Ref T) := l.entries.pool fun k e => {refOf (k, e.1)}

theorem held_take (k : UnconfirmedKey) :
    l.held = ↑((l.take k).2.toList.map refOf) + (l.take k).1.held := by
  have hsplit : l.held = (l.entries.get? k).elim 0 (fun e => {refOf (k, e.1)}) + (l.take k).1.held :=
    pool_eq_add _ l.entries k
  rw [hsplit, take]
  cases l.entries.get? k with
  | none | some => rfl

theorem held_takeAll (ks : List UnconfirmedKey) :
    l.held = ↑((takeAll ks l).2.map refOf) + (takeAll ks l).1.held := by
  induction ks generalizing l with
  | nil => exact (zero_add _).symm
  | cons k ks ih =>
    rw [takeAll, map_append, ← coe_add, add_assoc, ← ih, ← held_take]

theorem held_sweepExpired (timeout now max : Nat) :
    l.held = ↑((l.sweepExpired timeout now max).2.map refOf) + (l.sweepExpired timeout now max).1.held :=
  held_takeAll { l with expiry := (expireLoop l.entries timeout now l.expiry max).2 } _

theorem held_takeNamed (sender : Address) (nonce : UInt64) (named : T → Bool) :
    l.held = ↑((l.takeNamed sender nonce named).2.toList.map fun m => (sender, nonce, m))
      + (l.takeNamed sender nonce named).1.held := by
  unfold takeNamed
  split
  case isTrue =>
    have htake := l.held_take (key sender nonce)
    unfold dropCommitted
    cases h : l.entries.get? (key sender nonce) with
    | none | some =>
      rw [take, h] at htake ⊢
      exact htake
  case isFalse => exact (zero_add _).symm

/-- A recorded ref takes the place of the one under its key. -/
theorem held_recordPublished (now : Nat) (sender : Address) (nonce : UInt64) (payload : T) :
    (l.recordPublished now sender nonce payload).held
      = (sender, nonce, payload) ::ₘ (l.take (key sender nonce)).1.held :=
  (pool_upsert _ l.entries _ _).trans (singleton_add ..)

/-! ## Keys -/

variable {sender : Address}

theorem mem_keysIn {lo hi : UInt64} {k : UnconfirmedKey}
    (h : k ∈ l.keysIn sender lo hi) : (ofLex k).1 = sender ∧ lo ≤ (ofLex k).2 := by
  have hk : key sender lo ≤ k ∧ k ≤ key sender hi := by simpa using (mem_filter.1 h).2
  rcases Prod.Lex.le_iff.1 hk.1 with hlt | ⟨heq, hle⟩
  · rcases Prod.Lex.le_iff.1 hk.2 with hlt' | ⟨heq, -⟩
    · exact absurd hlt' (not_lt.2 hlt.le)
    · exact absurd hlt (not_lt.2 heq.le)
  · exact ⟨heq.symm, hle⟩

variable {e : UnconfirmedKey × T}

theorem key_mem_takeAll {ks : List UnconfirmedKey} (h : e ∈ (takeAll ks l).2) : e.1 ∈ ks := by
  induction ks generalizing l with
  | nil => cases h
  | cons k ks ih =>
    rcases mem_append.1 h with h | h
    · obtain ⟨v, -, rfl⟩ := Option.map_eq_some_iff.1 (Option.mem_toList.1 h)
      exact mem_cons_self
    · exact mem_cons_of_mem _ (ih _ h)

/-- The refs of a gap are the sender's, at or above the nonce that is expected. -/
theorem mem_takeGapRewinds {expected : UInt64} (h : e ∈ (l.takeGapRewinds sender expected).2) :
    (ofLex e.1).1 = sender ∧ expected ≤ (ofLex e.1).2 :=
  l.mem_keysIn (mem_reverse.1 (l.key_mem_takeAll h))

end UnconfirmedLedger

end Kardamom.Sequencer
