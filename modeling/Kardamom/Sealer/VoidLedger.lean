import Kardamom.Lib.LinkedMap
import Kardamom.Sealer.Codec

/-!
# The void ledger

The part of the canonical state that decides a void: the removal of one ordered transaction
reference that no consumer can execute. The window keeps `(id, sender, nonce)` of the newest
references in a ring, slot = index mod capacity, and the open votes keep one voter mask for each
index. A ring slot is overwritten only by a reference, while the canonical index also advances
through entries that are none, so a slot can outlive the window.

`onVote_cases` says everything a vote can do. `Ledger.step` is the ledger as the sealer drives it,
together with the canonical count: references and voids take the next index, other entries take any
number of them.
-/

namespace Kardamom.Sealer

open ByteCodec Function LinkedMap

/-- The void window and the voter set. Without a voter the ledger keeps no window. -/
structure VoidConfig where
  /-- How many of the newest canonical indices the window covers. -/
  capacity : Nat
  /-- Bit `n` is set when voter id `n` is a configured voter. -/
  voterMask : BitVec 64
  capacity_int : capacity < 2 ^ 31
  capacity_pos : voterMask ≠ 0 → 0 < capacity
  capacity_zero : voterMask = 0 → capacity = 0

namespace VoidConfig

/-- No voters: the ledger refuses every vote. -/
def disabled : VoidConfig := ⟨0, 0, zero_int, fun h => absurd rfl h, fun _ => rfl⟩

/-- Whether `voterId` is a configured voter. -/
def isVoter (cfg : VoidConfig) (voterId : Int) : Bool :=
  decide (0 ≤ voterId) && decide (voterId < 64) && cfg.voterMask.getLsbD voterId.toNat

/-- The ring slot of an index. -/
def slot (cfg : VoidConfig) (index : Int) : Nat := (index % cfg.capacity).toNat

end VoidConfig

/-- One ring slot, and what the state needs to remove the entry: an index of -1 is a free slot. -/
structure VoidEntry where
  index : Int
  id : CanonicalId
  sender : Sender
  nonce : UInt64
  deriving DecidableEq, Repr

/-- The result of one vote. -/
inductive Vote where
  | refused
  | repeated
  | counted
  | decided
  deriving DecidableEq, Repr

/-- One vote result, with the removed entry when the vote decided the void. -/
structure Tally where
  vote : Vote
  entry : Option VoidEntry
  deriving DecidableEq, Repr

/-- The ring of references and the open votes, in the order of their first vote. -/
structure VoidLedger where
  window : Nat → VoidEntry
  votes : LinkedMap Int (BitVec 64)

namespace VoidLedger

/-- The most indices that can have open votes at one time (`MAX_OPEN_VOTES`). -/
def maxOpenVotes : Nat := 1024

/-- The ledger of a new state. -/
def empty : VoidLedger := ⟨fun _ => ⟨-1, 0, 0, 0⟩, .empty⟩

/-- Record one ordered transaction reference. -/
def onReference (cfg : VoidConfig) (l : VoidLedger) (index : Int) (id : CanonicalId)
    (sender : Sender) (nonce : UInt64) : VoidLedger :=
  if cfg.capacity = 0 then l
  else { l with window := update l.window (cfg.slot index) ⟨index, id, sender, nonce⟩ }

/-- A vote for an index that left the window can never be decided. -/
def dropVotesBelow (l : VoidLedger) (oldest : Int) : VoidLedger :=
  { l with votes := l.votes.filter fun e => !decide (e.1 < oldest) }

section

variable (cfg : VoidConfig) (l : VoidLedger) (index : Int)

/-- Whether the slot of `index` holds it, with that hash. -/
def holds (hash : CanonicalId) : Bool :=
  decide (cfg.capacity ≠ 0 ∧ 0 ≤ index ∧ (l.window (cfg.slot index)).index = index
    ∧ (l.window (cfg.slot index)).id = hash)

/-- Free the slot of `index`. -/
def take : VoidLedger :=
  { l with
    window := update l.window (cfg.slot index) { l.window (cfg.slot index) with index := -1 } }

/-- The entry that `take` hands out. -/
def entryAt : VoidEntry := { l.window (cfg.slot index) with index := index }

end

/-- The mask of `index` with one more voter. -/
def maskWith (l : VoidLedger) (index voterId : Int) : BitVec 64 :=
  (l.votes.get? index).getD 0 ||| BitVec.twoPow 64 voterId.toNat

/-- Count one vote. On `decided` the entry leaves the window and the tally carries it. The decision
is checked before the repeat: a mask from a snapshot can hold every configured voter already. -/
def onVote (cfg : VoidConfig) (l : VoidLedger) (voterId index : Int) (hash : CanonicalId)
    (canonicalCount : Int) : VoidLedger × Tally :=
  let l := l.dropVotesBelow (canonicalCount - cfg.capacity)
  if !cfg.isVoter voterId || !l.holds cfg index hash then (l, ⟨.refused, none⟩)
  else if l.votes.get? index = none ∧ maxOpenVotes ≤ l.votes.size then (l, ⟨.refused, none⟩)
  else if l.maskWith index voterId &&& cfg.voterMask = cfg.voterMask then
    ({ l.take cfg index with votes := l.votes.remove index },
      ⟨.decided, some (l.entryAt cfg index)⟩)
  else if l.maskWith index voterId = (l.votes.get? index).getD 0 then (l, ⟨.repeated, none⟩)
  else ({ l with votes := l.votes.put index (l.maskWith index voterId) }, ⟨.counted, none⟩)

/-- Record type of a void record in a relayed payload (`RT_VOID`). -/
def recordTypeVoid : UInt8 := 4

/-- The relayed payload of the void record for one entry: hash, record type, index little-endian. -/
def payload (entry : VoidEntry) : Bytes :=
  putId entry.id ++ [recordTypeVoid] ++ leBytes 8 (entry.index % 2 ^ 64).toNat

/-! ## What a vote can do -/

variable {cfg : VoidConfig} {l : VoidLedger}

@[simp] theorem dropVotesBelow_window (l : VoidLedger) (oldest : Int) :
    (l.dropVotesBelow oldest).window = l.window := rfl

@[simp] theorem onReference_votes (cfg : VoidConfig) (l : VoidLedger) (index : Int)
    (id : CanonicalId) (sender : Sender) (nonce : UInt64) :
    (l.onReference cfg index id sender nonce).votes = l.votes := by
  unfold onReference
  split <;> rfl

theorem onReference_window (hcap : cfg.capacity ≠ 0) (l : VoidLedger) (index : Int)
    (id : CanonicalId) (sender : Sender) (nonce : UInt64) :
    (l.onReference cfg index id sender nonce).window
      = update l.window (cfg.slot index) ⟨index, id, sender, nonce⟩ := by
  rw [onReference, if_neg hcap]

theorem get?_dropVotesBelow (l : VoidLedger) (oldest index : Int) :
    (l.dropVotesBelow oldest).votes.get? index
      = if index < oldest then none else l.votes.get? index := by
  refine Option.ext fun mask => ?_
  rw [get?_eq_some_iff]
  simp only [dropVotesBelow]
  by_cases h : index < oldest
  · simp [h]
  · simp [h, get?_eq_some_iff]

theorem holds_iff {index : Int} {hash : CanonicalId} :
    l.holds cfg index hash = true ↔ cfg.capacity ≠ 0 ∧ 0 ≤ index ∧
      (l.window (cfg.slot index)).index = index ∧ (l.window (cfg.slot index)).id = hash := by
  simp [holds]

/-- The entry of a slot that holds the index is the slot. -/
theorem entryAt_eq {index : Int} (h : (l.window (cfg.slot index)).index = index) :
    l.entryAt cfg index = l.window (cfg.slot index) := by
  unfold entryAt
  generalize l.window (cfg.slot index) = e at h
  subst h
  rfl

/-- The vote reaches the count: the voter is configured, the slot holds the reference, and there is
room for one more open index. -/
def Admits (cfg : VoidConfig) (l : VoidLedger) (voterId index : Int) (hash : CanonicalId) : Prop :=
  cfg.isVoter voterId = true ∧ l.holds cfg index hash = true ∧
    (l.votes.get? index = none → l.votes.size < maxOpenVotes)

instance (cfg : VoidConfig) (l : VoidLedger) (voterId index : Int) (hash : CanonicalId) :
    Decidable (l.Admits cfg voterId index hash) := by
  unfold Admits; infer_instance

theorem getLsbD_maskWith_iff {l : VoidLedger} {index voterId : Int} {i : Nat} :
    (l.maskWith index voterId).getLsbD i = true ↔
      ((l.votes.get? index).getD 0).getLsbD i = true ∨ (voterId.toNat < 64 ∧ i = voterId.toNat) := by
  rw [maskWith, BitVec.getLsbD_or, Bool.or_eq_true, BitVec.getLsbD_twoPow, Bool.and_eq_true,
    decide_eq_true_iff, decide_eq_true_iff, @eq_comm _ i]

theorem isVoter_iff {c : VoidConfig} {voterId : Int} : c.isVoter voterId = true ↔
    0 ≤ voterId ∧ voterId < 64 ∧ c.voterMask.getLsbD voterId.toNat = true := by
  simp [VoidConfig.isVoter, and_assoc]

section

variable (cfg l) (voterId index : Int) (hash : CanonicalId) (count : Int)

/-- The four things a vote can do, on the ledger `d` without the votes below the window. -/
theorem onVote_cases :
    let d := l.dropVotesBelow (count - cfg.capacity)
    (¬ d.Admits cfg voterId index hash ∧
        l.onVote cfg voterId index hash count = (d, ⟨.refused, none⟩)) ∨
      (d.Admits cfg voterId index hash ∧
        d.maskWith index voterId &&& cfg.voterMask = cfg.voterMask ∧
        l.onVote cfg voterId index hash count
          = ({ d.take cfg index with votes := d.votes.remove index },
              ⟨.decided, some (d.entryAt cfg index)⟩)) ∨
      (d.Admits cfg voterId index hash ∧
        d.maskWith index voterId &&& cfg.voterMask ≠ cfg.voterMask ∧
        d.maskWith index voterId = (d.votes.get? index).getD 0 ∧
        l.onVote cfg voterId index hash count = (d, ⟨.repeated, none⟩)) ∨
      (d.Admits cfg voterId index hash ∧
        d.maskWith index voterId &&& cfg.voterMask ≠ cfg.voterMask ∧
        d.maskWith index voterId ≠ (d.votes.get? index).getD 0 ∧
        l.onVote cfg voterId index hash count
          = ({ d with votes := d.votes.put index (d.maskWith index voterId) },
              ⟨.counted, none⟩)) := by
  intro d
  unfold onVote
  by_cases hvoter : cfg.isVoter voterId = true ∧ d.holds cfg index hash = true
  swap
  · refine .inl ⟨fun h => hvoter ⟨h.1, h.2.1⟩, if_pos ?_⟩
    simpa [or_iff_not_imp_left] using hvoter
  have hno : ¬ ((!cfg.isVoter voterId || !d.holds cfg index hash) = true) := by
    simp [hvoter.1, hvoter.2]
  by_cases hroom : d.votes.get? index = none ∧ maxOpenVotes ≤ d.votes.size
  · refine .inl ⟨fun h => ?_, by rw [if_neg hno, if_pos hroom]⟩
    have := h.2.2 hroom.1
    omega
  have hadm : d.Admits cfg voterId index hash :=
    ⟨hvoter.1, hvoter.2, fun h => Nat.lt_of_not_le fun hle => hroom ⟨h, hle⟩⟩
  by_cases hall : d.maskWith index voterId &&& cfg.voterMask = cfg.voterMask
  · exact .inr (.inl ⟨hadm, hall, by rw [if_neg hno, if_neg hroom, if_pos hall]⟩)
  by_cases hrep : d.maskWith index voterId = (d.votes.get? index).getD 0
  · exact .inr (.inr (.inl ⟨hadm, hall, hrep, by
      rw [if_neg hno, if_neg hroom, if_neg hall, if_pos hrep]⟩))
  · exact .inr (.inr (.inr ⟨hadm, hall, hrep, by
      rw [if_neg hno, if_neg hroom, if_neg hall, if_neg hrep]⟩))

/-- A vote as one chain of tests on the ledger `d` without the votes below the window. -/
theorem onVote_eq :
    l.onVote cfg voterId index hash count =
      let d := l.dropVotesBelow (count - cfg.capacity)
      if ¬ d.Admits cfg voterId index hash then (d, ⟨.refused, none⟩)
      else if d.maskWith index voterId &&& cfg.voterMask = cfg.voterMask then
        ({ d.take cfg index with votes := d.votes.remove index },
          ⟨.decided, some (d.entryAt cfg index)⟩)
      else if d.maskWith index voterId = (d.votes.get? index).getD 0 then (d, ⟨.repeated, none⟩)
      else ({ d with votes := d.votes.put index (d.maskWith index voterId) }, ⟨.counted, none⟩) := by
  rcases onVote_cases cfg l voterId index hash count with ⟨h, heq⟩ | ⟨h, hall, heq⟩ |
      ⟨h, hall, hrep, heq⟩ | ⟨h, hall, hrep, heq⟩
  · rw [heq, if_pos h]
  · rw [heq, if_neg (not_not.2 h), if_pos hall]
  · rw [heq, if_neg (not_not.2 h), if_neg hall, if_pos hrep]
  · rw [heq, if_neg (not_not.2 h), if_neg hall, if_neg hrep]

/-- Exactly the admitted votes are not refused. -/
theorem onVote_refused_iff :
    (l.onVote cfg voterId index hash count).2.vote = .refused ↔
      ¬ (l.dropVotesBelow (count - cfg.capacity)).Admits cfg voterId index hash := by
  rcases onVote_cases cfg l voterId index hash count with ⟨h, heq⟩ | ⟨h, -, heq⟩ |
      ⟨h, -, -, heq⟩ | ⟨h, -, -, heq⟩ <;>
    simp [heq, h]

end

/-- Without a configured voter every vote is refused. -/
theorem onVote_of_disabled (hcfg : cfg.voterMask = 0) (l : VoidLedger) (voterId index : Int)
    (hash : CanonicalId) (count : Int) :
    l.onVote cfg voterId index hash count
      = (l.dropVotesBelow (count - cfg.capacity), ⟨.refused, none⟩) := by
  have hno : cfg.isVoter voterId = false := by simp [VoidConfig.isVoter, hcfg]
  simp [onVote, hno]

theorem onReference_of_disabled (hcfg : cfg.voterMask = 0) (l : VoidLedger) (index : Int)
    (id : CanonicalId) (sender : Sender) (nonce : UInt64) :
    l.onReference cfg index id sender nonce = l :=
  if_pos (cfg.capacity_zero hcfg)

/-! ## The ledger as the sealer drives it -/

/-- One step of the ledger: a reference ordered, other entries ordered, or a vote. -/
inductive LedgerOp where
  | reference (id : CanonicalId) (sender : Sender) (nonce : UInt64)
  | ordered (slots : Nat)
  | vote (voterId index : Int) (hash : CanonicalId)
  deriving DecidableEq, Repr

/-- The ledger and the canonical count. -/
structure Ledger where
  ledger : VoidLedger
  count : Int

/-- A reference takes the next index and a decided vote takes it for its void record; other entries
take `slots` of them. -/
def Ledger.step (cfg : VoidConfig) (s : Ledger) : LedgerOp → Ledger × Option Tally
  | .reference id sender nonce =>
    (⟨s.ledger.onReference cfg s.count id sender nonce, s.count + 1⟩, none)
  | .ordered slots => (⟨s.ledger, s.count + slots⟩, none)
  | .vote voterId index hash =>
    let r := s.ledger.onVote cfg voterId index hash s.count
    (⟨r.1, if r.2.vote = .decided then s.count + 1 else s.count⟩, some r.2)

end VoidLedger

end Kardamom.Sealer
