import Kardamom.Lib.SortedMap
import Kardamom.Wire.Basic

/-!
# The admission state of one sender

What the admission filter of the sequencer keeps for a sender: the newest chain state of its account,
the run of transactions it forwarded that no state confirmed yet, and the transactions that wait for
a nonce gap or for a lookup. Costs and balances are 256-bit words and the source's arithmetic on them
saturates; nonces are 64-bit words and wrap, as a release build does.

The verdicts that a function pushes are returned in order.
-/

namespace Kardamom.Sequencer

open Wire (Address B256)
open Words

/-- A 256-bit word. -/
abbrev U256 := BitVec 256

/-- The limits of the filter. Times are instants of a clock that ends at `maxInstant`. -/
structure AdmissionConfig where
  /-- The most transactions of one sender that wait. -/
  maxParked : Nat
  /-- The most forwarded transactions of one sender that no state confirmed. -/
  maxForwarded : Nat
  lossBlocks : UInt64
  parkWidth : UInt64
  parkTtl : Nat
  relookAfter : Nat
  maxSenders : Nat
  maxInstant : Nat
  maxParked_pos : 0 < maxParked
  maxForwarded_pos : 0 < maxForwarded
  lossBlocks_pos : 0 < lossBlocks
  parkWidth_pos : 0 < parkWidth
  maxSenders_pos : 0 < maxSenders

/-- The chain state of one account. -/
structure AccountState where
  nonce : UInt64
  balance : U256
  /-- The account has delegated code. -/
  delegated : Bool
  /-- The canonical position of the state. -/
  txIdx : UInt64
  deriving DecidableEq, Repr

/-- Whether this state replaces `held`. Position 0 names both the empty chain and the state after its
first transaction. -/
def AccountState.isNewerThan (st held : AccountState) : Bool :=
  decide (held.txIdx < st.txIdx) || (st.txIdx == 0 && held.txIdx == 0 && decide (held.nonce < st.nonce))

/-- The place of a transaction in its ingress image. -/
structure ImagePos where
  lane : UInt8
  session : Int32
  unit : UInt64
  deriving DecidableEq, Repr

/-- One transaction that the filter may forward. -/
structure Candidate (T : Type) where
  sender : Address
  nonce : UInt64
  txHash : B256
  /-- The most the transaction can be charged. -/
  cost : U256
  image : ImagePos
  ingress : UInt16
  /-- The client has its answer. -/
  answered : Bool
  payload : T
  deriving DecidableEq, Repr

/-- The ack of one transaction that the filter took into its mempool. -/
structure Ack where
  ingress : UInt16
  sender : Address
  nonce : UInt64
  txHash : B256
  deriving DecidableEq, Repr

/-- Why the filter refused a transaction. -/
inductive Refusal where
  | nonceTooLow (chainNonce : UInt64)
  | insufficientFunds (available cost : U256)
  | tooManyPending (expectedNonce : UInt64)
  | inFlight (expectedNonce : UInt64)
  | expired (expectedNonce : UInt64)
  deriving DecidableEq, Repr

/-- One outcome of the filter. -/
inductive Verdict (T : Type) where
  | forward (c : Candidate T)
  | reject (c : Candidate T) (r : Refusal)
  | lookup (sender : Address)
  | accept (ack : Ack)
  deriving DecidableEq, Repr

variable {T : Type}

namespace Candidate

section

variable (c : Candidate T)

/-- The ack of the candidate. -/
def ack : Ack := ⟨c.ingress, c.sender, c.nonce, c.txHash⟩

/-- The candidate with its answer given. -/
def marked : Candidate T := { c with answered := true }

/-- Mark the candidate answered; one that has its answer gives no ack. -/
def answer : Candidate T × Option Ack :=
  (c.marked, if c.answered then none else some c.ack)

end

end Candidate

/-- When a parked transaction gets its ack: now, or when the state of the sender comes. -/
inductive Answer where
  | accept
  | wait
  deriving DecidableEq, Repr

/-- The admission state of one sender. -/
structure SenderState (T : Type) where
  /-- The newest chain state. -/
  state : Option AccountState
  /-- A lookup is out for this sender. -/
  asked : Bool
  /-- The state came from a lookup, not from rows. -/
  fromLookup : Bool
  /-- A relook of this sender waits in the queue of the filter. -/
  relookDue : Bool
  /-- The nonce of the first forwarded transaction that no state confirmed. -/
  first : UInt64
  /-- The costs of the forwarded run, from `first` on. -/
  forwarded : List U256
  /-- The sum of `forwarded`. -/
  spend : U256
  /-- The transactions that wait. -/
  parked : SortedMap UInt64 (Candidate T)

namespace SenderState

/-- A sender that the filter has not seen. -/
def default : SenderState T := ⟨none, false, false, false, 0, [], 0, .empty⟩

variable (cfg : AdmissionConfig) (s : SenderState T)

/-- The candidates that wait, in nonce order. -/
def waiting : List (Candidate T) := s.parked.entries.map Prod.snd

def nextNonce (st : AccountState) : UInt64 :=
  if s.forwarded.isEmpty then st.nonce else s.first + UInt64.ofNat s.forwarded.length

/-- The next nonce that the filter expects, 0 while the state is unknown. -/
def expectedNonce : UInt64 :=
  match s.state with
  | some st => s.nextNonce st
  | none => 0

def holdsForwarded (nonce : UInt64) : Bool :=
  decide (s.first ≤ nonce) && decide ((nonce - s.first).toNat < s.forwarded.length)

/-- Whether the run takes no more transactions now. -/
def busy (st : AccountState) : Bool :=
  decide (cfg.maxForwarded ≤ s.forwarded.length) || (st.delegated && !s.forwarded.isEmpty)

/-- Nothing forwarded waits for a state, and nothing is parked. -/
def isIdle : Bool := s.forwarded.isEmpty && s.parked.entries.isEmpty

section

variable (c : Candidate T)

/-- Park a transaction. Returns whether it parked. -/
def park (answer : Answer) : SenderState T × List (Verdict T) × Bool :=
  if (s.parked.get? c.nonce).isSome then (s, [.reject c (.inFlight s.expectedNonce)], false)
  else if cfg.maxParked ≤ s.parked.entries.length then
    (s, [.reject c (.tooManyPending s.expectedNonce)], false)
  else match answer with
    | .accept =>
      ({ s with parked := s.parked.upsert c.nonce fun _ => c.answer.1 },
        (c.answer.2.map .accept).toList, true)
    | .wait => ({ s with parked := s.parked.upsert c.nonce fun _ => c }, [], true)

/-- Park a transaction of a sender with no state, and ask for a lookup once. -/
def parkForLookup : SenderState T × List (Verdict T) × Bool :=
  let r := s.park cfg c .wait
  if r.2.2 && !r.1.asked then ({ r.1 with asked := true }, r.2.1 ++ [.lookup c.sender], true)
  else r

/-- The run with a transaction at its end. -/
def pushForwarded : SenderState T :=
  { s with
    first := if s.forwarded.isEmpty then c.nonce else s.first
    forwarded := s.forwarded ++ [c.cost]
    spend := satAdd s.spend c.cost }

/-- Forward a transaction at the next nonce when the balance covers it, or park it while the run is
busy. Returns whether it parked. -/
def forwardOrPark (st : AccountState) : SenderState T × List (Verdict T) × Bool :=
  if s.busy cfg st then s.park cfg c .accept
  else if satSub st.balance s.spend < c.cost then
    (s, [.reject c (.insufficientFunds (satSub st.balance s.spend) c.cost)], false)
  else (s.pushForwarded c, [.forward c], false)

end

/-- The sender without its first parked transaction. -/
def popParked : SenderState T := { s with parked := s.parked.popFirst }

/-- Forward the parked transaction at the next nonce. Returns whether it went out. -/
def releaseOne : SenderState T × List (Verdict T) × Bool :=
  match s.state with
  | none => (s, [], false)
  | some st =>
    match s.parked.entries with
    | [] => (s, [], false)
    | (n, c) :: _ =>
      if s.busy cfg st || n != s.nextNonce st then (s, [], false)
      else
        let r := s.popParked.forwardOrPark cfg c st
        (r.1, r.2.1, decide (s.forwarded.length < r.1.forwarded.length))

/-- `while self.release_one(cfg, out) {}`, at most `n` times. -/
def releaseLoop : Nat → SenderState T → SenderState T × List (Verdict T)
  | 0, s => (s, [])
  | n + 1, s =>
    let r := s.releaseOne cfg
    if r.2.2 then ((releaseLoop n r.1).1, r.2.1 ++ (releaseLoop n r.1).2) else (r.1, r.2.1)

/-- The whole loop: each round that goes on takes one parked transaction out. -/
def release : SenderState T × List (Verdict T) := releaseLoop cfg (s.parked.entries.length + 1) s

/-- Decide one transaction of this sender. Returns whether it parked. -/
def offer (c : Candidate T) : SenderState T × List (Verdict T) × Bool :=
  match s.state with
  | none => s.parkForLookup cfg c
  | some st =>
    if c.nonce < st.nonce then (s, [.reject c (.nonceTooLow st.nonce)], false)
    else if c.nonce < s.nextNonce st then (s, [.reject c (.inFlight (s.nextNonce st))], false)
    else if s.nextNonce st < c.nonce then s.park cfg c .accept
    else
      let r := s.forwardOrPark cfg c st
      let l := r.1.release cfg
      (l.1, r.2.1 ++ l.2, r.2.2)

/-- Drop the first forwarded transaction when the chain is past it. -/
def confirmOne (chainNonce : UInt64) : Option (SenderState T) :=
  match s.forwarded with
  | [] => none
  | cost :: rest =>
    if chainNonce ≤ s.first then none
    else some { s with forwarded := rest, spend := satSub s.spend cost, first := s.first + 1 }

/-- `while self.confirm_one(state.nonce) {}`, at most `n` times. -/
def confirmLoop (chainNonce : UInt64) : Nat → SenderState T → SenderState T
  | 0, s => s
  | n + 1, s =>
    match s.confirmOne chainNonce with
    | none => s
    | some s' => confirmLoop chainNonce n s'

/-- The whole loop: each round takes one transaction off the run. -/
def confirm (chainNonce : UInt64) : SenderState T :=
  confirmLoop chainNonce (s.forwarded.length + 1) s

/-- Accept the parked transactions that waited for a state with no answer. -/
def acceptParked : SenderState T × List (Verdict T) :=
  ({ s with parked := s.parked.mapValues fun c => c.answer.1 },
    s.waiting.filterMap fun c => c.answer.2.map .accept)

section

variable (st : AccountState)

/-- Whether `st` replaces the state held. -/
def takes : Bool :=
  match s.state with
  | some held => st.isNewerThan held
  | none => true

section

variable (fromLookup : Bool)

/-- Any answer of a lookup ends the lookup that was out. -/
def endLookup : SenderState T :=
  if fromLookup then { s with asked := false } else s

/-- The sender with a new chain state. -/
def adopt : SenderState T :=
  { s with state := some st, fromLookup := fromLookup, asked := false }

/-- The sender with only the parked transactions from `nonce` on. -/
def keepFrom (nonce : UInt64) : SenderState T :=
  { s with parked := s.parked.filter fun e => !decide (e.1 < nonce) }

/-- Apply a chain state: a newer one confirms the run up to its nonce, refuses the parked transactions
below it, and forwards the parked ones that now continue the run. -/
def onState : SenderState T × List (Verdict T) :=
  let s := s.endLookup fromLookup
  if s.takes st then
    let s := (s.adopt st fromLookup).confirm st.nonce
    let below := s.parked.headMap st.nonce
    let l := (s.keepFrom st.nonce).release cfg
    let a := l.1.acceptParked
    (a.1, (below.entries.map fun e => .reject e.2 (.nonceTooLow st.nonce)) ++ l.2 ++ a.2)
  else (s, [])

end

end

/-- The sender with no forwarded transaction. -/
def clearRun : SenderState T := { s with forwarded := [], spend := 0 }

/-- The forwarded transaction at `nonce` is lost if the run still holds it: forget the run, and
forward the parked transactions from the chain nonce. Returns whether the run changed. -/
def onLost (nonce : UInt64) : SenderState T × List (Verdict T) × Bool :=
  if !s.holdsForwarded nonce then (s, [], false)
  else
    let l := s.clearRun.release cfg
    (l.1, l.2, true)

/-- Take the parked transaction at `nonce` out, when it is the one that parked at `unit`. -/
def unpark (nonce unit : UInt64) : Option (Candidate T × SenderState T) :=
  match s.parked.get? nonce with
  | some c =>
    if c.image.unit = unit then some (c, { s with parked := s.parked.remove nonce }) else none
  | none => none

/-- Whether a parked transaction waits for a nonce gap over a state from a lookup, with nothing
forwarded. -/
def waitsOnLookupGap : Bool := s.fromLookup && s.forwarded.isEmpty &&
    match s.state, s.parked.entries with
    | some st, (n, _) :: _ => decide (st.nonce < n)
    | _, _ => false

/-- Mark a relook as queued; `false` when one is queued already. -/
def queueRelook : SenderState T × Bool := ({ s with relookDue := true }, !s.relookDue)

/-- The queued relook is due. Returns whether to ask again. -/
def relook : SenderState T × Bool :=
  let ask := s.waitsOnLookupGap && !s.asked
  ({ s with relookDue := false, asked := s.asked || ask }, ask)

/-- Forget the chain state. -/
def forgetState : SenderState T := { s with state := none, asked := false }

/-! ## What a release does -/

variable {cfg} {s}

/-- What one round of the release loop can do: nothing, refuse the first parked transaction, or send
it. -/
inductive Released (cfg : AdmissionConfig) (s : SenderState T) :
    SenderState T × List (Verdict T) × Bool → Prop
  | stuck : Released cfg s (s, [], false)
  | refused {st : AccountState} {c : Candidate T} {rest : List (UInt64 × Candidate T)} :
      s.state = some st → s.parked.entries = (s.nextNonce st, c) :: rest → s.busy cfg st = false →
      Released cfg s (s.popParked,
        [.reject c (.insufficientFunds (satSub st.balance s.spend) c.cost)], false)
  | sent {st : AccountState} {c : Candidate T} {rest : List (UInt64 × Candidate T)} :
      s.state = some st → s.parked.entries = (s.nextNonce st, c) :: rest → s.busy cfg st = false →
      ¬ satSub st.balance s.spend < c.cost →
      Released cfg s (s.popParked.pushForwarded c, [.forward c], true)

theorem released (cfg : AdmissionConfig) (s : SenderState T) : Released cfg s (s.releaseOne cfg) := by
  unfold releaseOne
  cases hst : s.state with
  | none => exact .stuck
  | some st =>
    cases hes : s.parked.entries with
    | nil => exact .stuck
    | cons e rest =>
      obtain ⟨n, c⟩ := e
      dsimp only
      split
      case isTrue => exact .stuck
      case isFalse hgo =>
        rw [Bool.not_eq_true, Bool.or_eq_false_iff, bne_eq_false_iff_eq] at hgo
        obtain ⟨hfree, rfl⟩ := hgo
        have hfree' : s.popParked.busy cfg st = false := hfree
        rw [forwardOrPark, hfree']
        by_cases hcost : satSub st.balance s.popParked.spend < c.cost
        · rw [if_pos hcost]
          simpa [popParked] using Released.refused hst hes hfree
        · rw [if_neg hcost]
          simpa [pushForwarded, popParked] using Released.sent hst hes hfree hcost

/-- A round that goes on takes one parked transaction out. -/
theorem length_releaseOne (h : (s.releaseOne cfg).2.2 = true) :
    (s.releaseOne cfg).1.parked.entries.length + 1 = s.parked.entries.length := by
  have hr := released cfg s
  generalize s.releaseOne cfg = r at h hr
  cases hr with
  | stuck | refused => cases h
  | sent _ hes => simp [pushForwarded, popParked, hes]

theorem releaseLoop_of_lt {n m : Nat} (hn : s.parked.entries.length < n)
    (hm : s.parked.entries.length < m) : releaseLoop cfg n s = releaseLoop cfg m s := by
  induction n generalizing s m with
  | zero => omega
  | succ n ih =>
    obtain ⟨m, rfl⟩ : ∃ k, m = k + 1 := ⟨m - 1, by omega⟩
    simp only [releaseLoop]
    split
    case isTrue h =>
      have hlen := length_releaseOne h
      rw [ih (by omega) (m := m) (by omega)]
    case isFalse => rfl

/-- `release` is the loop of the source: the bound on the rounds cuts nothing off. -/
theorem release_eq (cfg : AdmissionConfig) (s : SenderState T) : s.release cfg =
      if (s.releaseOne cfg).2.2 then
        (((s.releaseOne cfg).1.release cfg).1,
          (s.releaseOne cfg).2.1 ++ ((s.releaseOne cfg).1.release cfg).2)
      else ((s.releaseOne cfg).1, (s.releaseOne cfg).2.1) := by
  rw [release, releaseLoop]
  split
  case isTrue h =>
    have hlen := length_releaseOne h
    rw [release, releaseLoop_of_lt (m := (s.releaseOne cfg).1.parked.entries.length + 1) (by omega)
      (by omega)]
  case isFalse => rfl

/-- What every round of the release loop carries, the loop carries. -/
theorem release_induction {P : SenderState T → List (Verdict T) → SenderState T → Prop}
    (hround : ∀ s, P s (s.releaseOne cfg).2.1 (s.releaseOne cfg).1)
    (htrans : ∀ s vs m ws t, P s vs m → P m ws t → P s (vs ++ ws) t) (hrefl : ∀ s, P s [] s)
    (s : SenderState T) : P s (s.release cfg).2 (s.release cfg).1 := by
  unfold release
  generalize s.parked.entries.length + 1 = n
  induction n generalizing s with
  | zero => exact hrefl s
  | succ n ih =>
    rw [releaseLoop]
    split
    case isTrue => exact htrans _ _ _ _ _ (hround s) (ih _)
    case isFalse => exact hround s

theorem length_confirmOne {k : UInt64} {s' : SenderState T} (h : s.confirmOne k = some s') :
    s'.forwarded.length + 1 = s.forwarded.length := by
  unfold confirmOne at h
  split at h
  · cases h
  · next hf =>
    split at h
    · cases h
    · cases h; rw [hf]; rfl

theorem confirmLoop_of_lt {k : UInt64} {n m : Nat} (hn : s.forwarded.length < n)
    (hm : s.forwarded.length < m) : confirmLoop k n s = confirmLoop k m s := by
  induction n generalizing s m with
  | zero => omega
  | succ n ih =>
    obtain ⟨m, rfl⟩ : ∃ k, m = k + 1 := ⟨m - 1, by omega⟩
    simp only [confirmLoop]
    cases h : s.confirmOne k with
    | none => rfl
    | some s' =>
      have hlen := length_confirmOne h
      exact ih (by omega) (by omega)

/-- `confirm` is the loop of the source. -/
theorem confirm_eq (k : UInt64) (s : SenderState T) : s.confirm k = match s.confirmOne k with
      | none => s
      | some s' => s'.confirm k := by
  rw [confirm, confirmLoop]
  cases h : s.confirmOne k with
  | none => rfl
  | some s' =>
    have hlen := length_confirmOne h
    dsimp only
    rw [confirm, confirmLoop_of_lt (m := s'.forwarded.length + 1) (by omega) (by omega)]

end SenderState

end Kardamom.Sequencer
