import Kardamom.Lib.CallTree
import Kardamom.Lib.Run
import Kardamom.Lib.Words
import Kardamom.State.Mpt
import Mathlib.Data.List.DropRight

/-!
# The output oracle

`WithdrawalOutputOracle`: the attester appends outputs, the challenger deletes one that is still
inside its finalization window, and the recovery account pauses finalization and rolls a suffix
back. Whether an output is settled is computed from the live window and a clock that stands still
during a pause.

A call is a function of the message and the state that answers the next state or the error it
reverts with. `finalizable_never_deleted` says when an output that was once finalizable stays;
`finalized_output_deleted` shows that a longer window takes a settled output back inside its
window, where it can be deleted.
-/

namespace Kardamom.L1

open Mpt (Address)
open Except List Machine List UInt64 Option

/-- What a call knows of its transaction: `msg.sender` and `block.timestamp`. -/
structure Msg where
  sender : Address
  timestamp : Nat
  deriving DecidableEq, Repr

/-- The conversion `uint64(..)`. -/
def uint64 (n : Nat) : UInt64 := ofNat n

theorem toNat_uint64 {n : Nat} (h : n < 2 ^ 64) : (uint64 n).toNat = n := toNat_ofNat_of_lt' h

/-- An attested output. -/
structure Output (H : Type) where
  outputRoot : H
  l2BlockNumber : UInt64
  timestamp : UInt64
  deleted : Bool
  deriving DecidableEq, Repr

inductive OracleError where
  | notFactory
  | notAttester
  | notChallenger
  | nonMonotonicBlock
  | unknownOutput
  | alreadyDeleted
  | windowElapsed
  | zeroAddress
  | zeroWindow
  | notRecovery
  | belowSettlementFloor (index : Nat)
  | alreadyPaused
  | notPaused
  deriving DecidableEq, Repr

/-- The storage of the contract. `pausedAt` is only valid while `paused`. -/
structure WithdrawalOutputOracle (H : Type) where
  attester : Address
  challenger : Address
  finalizationWindow : UInt64
  outputs : List (Output H)
  recovery : Address
  paused : Bool
  pausedAt : UInt64
  deriving DecidableEq, Repr

open WithdrawalOutputOracle

/-- A call that changes the storage. -/
inductive OracleCall (H : Type) where
  | setAttester (attester : Address)
  | setChallenger (challenger : Address)
  | setFinalizationWindow (finalizationWindow : UInt64)
  | setRecovery (recovery : Address)
  | proposeOutput (outputRoot : H) (l2BlockNumber : UInt64)
  | deleteOutput (index : Nat)
  | pause
  | unpause
  | rollbackOutputs (fromIndex : Nat)
  deriving DecidableEq, Repr

namespace WithdrawalOutputOracle

variable {H : Type}

/-- `initialize`, on fresh storage. -/
def initializeOracle (attester challenger : Address) (finalizationWindow : UInt64) :
    Except OracleError (WithdrawalOutputOracle H) :=
  if attester = 0 ∨ challenger = 0 then .error .zeroAddress
  else if finalizationWindow = 0 then .error .zeroWindow
  else .ok ⟨attester, challenger, finalizationWindow, [], 0, false, 0⟩

section

variable (o : WithdrawalOutputOracle H) (now : Nat)

/-- The settlement clock of `_settled`: the block time, or the pause time while paused. -/
def clock : Nat :=
  if o.paused then o.pausedAt.toNat else now

/-- `_settled`. -/
def settled (out : Output H) : Bool :=
  decide (out.timestamp.toNat + o.finalizationWindow.toNat ≤ o.clock now)

def isFinalizable (index : Nat) : Bool :=
  if o.paused then false
  else
    match o.outputs[index]? with
    | none => false
    | some out => !out.deleted && o.settled now out

end

section

variable (factory : Address) (msg : Msg)

/-- A setter that only the factory may call. -/
def onlyFactory (set : Except OracleError (WithdrawalOutputOracle H)) :
    Except OracleError (WithdrawalOutputOracle H) :=
  if msg.sender ≠ factory then .error .notFactory else set

def setAttester (attester : Address) (o : WithdrawalOutputOracle H) :
    Except OracleError (WithdrawalOutputOracle H) :=
  onlyFactory factory msg
    (if attester = 0 then .error .zeroAddress else .ok { o with attester := attester })

def setChallenger (challenger : Address)
    (o : WithdrawalOutputOracle H) : Except OracleError (WithdrawalOutputOracle H) :=
  onlyFactory factory msg
    (if challenger = 0 then .error .zeroAddress else .ok { o with challenger := challenger })

def setFinalizationWindow (finalizationWindow : UInt64)
    (o : WithdrawalOutputOracle H) : Except OracleError (WithdrawalOutputOracle H) :=
  onlyFactory factory msg (if finalizationWindow = 0 then .error .zeroWindow
     else .ok { o with finalizationWindow := finalizationWindow })

def setRecovery (recovery : Address) (o : WithdrawalOutputOracle H) :
    Except OracleError (WithdrawalOutputOracle H) :=
  onlyFactory factory msg (.ok { o with recovery := recovery })

end

/-- The newest output that is not deleted: where the backward scan of `proposeOutput` stops. -/
def latestLive (o : WithdrawalOutputOracle H) : Option (Output H) :=
  o.outputs.reverse.find? (fun out => !out.deleted)

section

variable (msg : Msg)

def proposeOutput (outputRoot : H) (l2BlockNumber : UInt64)
    (o : WithdrawalOutputOracle H) : Except OracleError (WithdrawalOutputOracle H) :=
  if msg.sender ≠ o.attester then .error .notAttester
  else if o.latestLive.any (fun prev => l2BlockNumber ≤ prev.l2BlockNumber) then
    .error .nonMonotonicBlock
  else .ok { o with
    outputs := o.outputs ++ [⟨outputRoot, l2BlockNumber, uint64 msg.timestamp, false⟩] }

def deleteOutput (index : Nat) (o : WithdrawalOutputOracle H) :
    Except OracleError (WithdrawalOutputOracle H) :=
  if msg.sender ≠ o.challenger then .error .notChallenger
  else
    match o.outputs[index]? with
    | none => .error .unknownOutput
    | some out =>
      if out.deleted then .error .alreadyDeleted
      else if o.settled msg.timestamp out then .error .windowElapsed
      else .ok { o with outputs := o.outputs.set index { out with deleted := true } }

def pause (o : WithdrawalOutputOracle H) : Except OracleError (WithdrawalOutputOracle H) :=
  if msg.sender ≠ o.recovery then .error .notRecovery
  else if o.paused then .error .alreadyPaused
  else .ok { o with paused := true, pausedAt := uint64 msg.timestamp }

/-- The loop of `unpause`, over the outputs from the newest on: it stops at the first settled one,
passes over the deleted ones and gives every other one the time of the call. -/
def restartClocks (settled : Output H → Bool) (now : UInt64) : List (Output H) → List (Output H)
  | [] => []
  | out :: older =>
    if settled out then out :: older
    else if out.deleted then out :: restartClocks settled now older
    else { out with timestamp := now } :: restartClocks settled now older

def unpause (o : WithdrawalOutputOracle H) : Except OracleError (WithdrawalOutputOracle H) :=
  if msg.sender ≠ o.recovery then .error .notRecovery
  else if !o.paused then .error .notPaused
  else .ok { o with
    outputs :=
      (restartClocks (o.settled msg.timestamp) (uint64 msg.timestamp) o.outputs.reverse).reverse
    paused := false
    pausedAt := 0 }

/-- The loop of `rollbackOutputs`, over the outputs from `i` on. -/
def rollbackFrom (settled : Output H → Bool) : Nat → List (Output H) →
    Except OracleError (List (Output H))
  | _, [] => .ok []
  | i, out :: newer =>
    if out.deleted then (rollbackFrom settled (i + 1) newer).map (out :: ·)
    else if settled out then .error (.belowSettlementFloor i)
    else (rollbackFrom settled (i + 1) newer).map ({ out with deleted := true } :: ·)

def rollbackOutputs (fromIndex : Nat) (o : WithdrawalOutputOracle H) :
    Except OracleError (WithdrawalOutputOracle H) :=
  if msg.sender ≠ o.recovery then .error .notRecovery
  else if o.outputs.length ≤ fromIndex then .error .unknownOutput
  else
    (rollbackFrom (o.settled msg.timestamp) fromIndex (o.outputs.drop fromIndex)).map
      fun newer => { o with outputs := o.outputs.take fromIndex ++ newer }

end

/-- One call. -/
def exec (factory : Address) (msg : Msg) : OracleCall H → WithdrawalOutputOracle H →
    Except OracleError (WithdrawalOutputOracle H)
  | .setAttester attester => setAttester factory msg attester
  | .setChallenger challenger => setChallenger factory msg challenger
  | .setFinalizationWindow window => setFinalizationWindow factory msg window
  | .setRecovery recovery => setRecovery factory msg recovery
  | .proposeOutput root number => proposeOutput msg root number
  | .deleteOutput index => deleteOutput msg index
  | .pause => pause msg
  | .unpause => unpause msg
  | .rollbackOutputs fromIndex => rollbackOutputs msg fromIndex

/-- A call as a step of a run: a call that reverts leaves the storage as it was. -/
def step (factory : Address) (o : WithdrawalOutputOracle H) (c : Msg × OracleCall H) :
    WithdrawalOutputOracle H × Option OracleError :=
  match o.exec factory c.1 c.2 with
  | .ok o' => (o', none)
  | .error e => (o, some e)

/-! ## What a call does -/

/-- The output is left as it is, or it was neither deleted nor settled and is deleted now. -/
inductive Dropped (settled : Output H → Bool) (out : Output H) : Output H → Prop
  | kept : Dropped settled out out
  | deleted : out.deleted = false → settled out = false →
      Dropped settled out { out with deleted := true }

/-- The clock of an output that is not deleted, restarted. -/
def restart (now : UInt64) (out : Output H) : Output H :=
  if out.deleted then out else { out with timestamp := now }

/-- What a call that goes through leaves. -/
inductive Called (factory : Address) (o : WithdrawalOutputOracle H) (msg : Msg) :
    OracleCall H → WithdrawalOutputOracle H → Prop
  | roles {call} (attester challenger recovery : Address) : Called factory o msg call
      { o with attester := attester, challenger := challenger, recovery := recovery }
  | window (window : UInt64) : msg.sender = factory →
      Called factory o msg (.setFinalizationWindow window) { o with finalizationWindow := window }
  | proposed {root : H} {number : UInt64} :
      ¬ o.latestLive.any (fun prev => number ≤ prev.l2BlockNumber) →
      Called factory o msg (.proposeOutput root number)
        { o with outputs := o.outputs ++ [⟨root, number, uint64 msg.timestamp, false⟩] }
  | dropped {call} {outs : List (Output H)} :
      o.outputs.Forall₂ (Dropped (o.settled msg.timestamp)) outs →
      Called factory o msg call { o with outputs := outs }
  | paused : ¬ o.paused → Called factory o msg .pause
      { o with paused := true, pausedAt := uint64 msg.timestamp }
  | unpaused {older newer : List (Output H)} : o.paused = true → o.outputs = older ++ newer →
      (∀ out ∈ newer, o.settled msg.timestamp out = false) →
      Called factory o msg .unpause { o with
        outputs := older ++ newer.map (restart (uint64 msg.timestamp))
        paused := false
        pausedAt := 0 }

section

variable {settled : Output H → Bool} {now : UInt64} {out out' : Output H} {outs outs' : List (Output H)}

theorem restartClocks_eq : restartClocks settled now outs
    = (outs.takeWhile (!settled ·)).map (restart now) ++ outs.dropWhile (!settled ·) := by
  induction outs with
  | nil => rfl
  | cons newest older ih =>
    rw [restartClocks, ih]
    by_cases hset : settled newest = true
    · simp [hset]
    · by_cases hdeleted : newest.deleted = true
      · simp [hset, hdeleted, restart]
      · simp [hset, hdeleted, restart]

theorem forall₂_dropped_self (outs : List (Output H)) : outs.Forall₂ (Dropped settled) outs :=
  forall₂_same.2 fun _ _ => .kept

theorem forall₂_dropped_set {i : Nat} (hget : outs[i]? = some out) (hdrop : Dropped settled out out') :
    outs.Forall₂ (Dropped settled) (outs.set i out') := by
  induction outs generalizing i with
  | nil => exact .nil
  | cons first outs ih =>
    cases i with
    | zero =>
      obtain rfl := some.inj hget
      exact .cons hdrop (forall₂_dropped_self outs)
    | succ i => exact .cons .kept (ih hget)

theorem forall₂_dropped_of_rollbackFrom {i : Nat} (h : rollbackFrom settled i outs = .ok outs') :
    outs.Forall₂ (Dropped settled) outs' := by
  induction outs generalizing i outs' with
  | nil =>
    obtain rfl := ok.inj h
    exact .nil
  | cons first newer ih =>
    unfold rollbackFrom at h
    split at h
    · obtain ⟨rest, hrest, rfl⟩ := map_eq_ok_iff.1 h
      exact .cons .kept (ih hrest)
    · rename_i hlive
      obtain ⟨hset, h⟩ := guard_eq_ok_iff.1 h
      obtain ⟨rest, hrest, rfl⟩ := map_eq_ok_iff.1 h
      exact .cons (.deleted (by simpa using hlive) (by simpa using hset)) (ih hrest)

end

variable {factory : Address} {o o' : WithdrawalOutputOracle H} {i t : Nat} {msg : Msg}
  {call : OracleCall H}

/-- The end of a pause restarts the outputs of the longest end of the list in which none is settled. -/
theorem unpause_eq_ok (hok : o.unpause msg = .ok o') : o.paused = true ∧ ∃ older newer,
    o.outputs = older ++ newer ∧ (∀ out ∈ newer, o.settled msg.timestamp out = false)
      ∧ (∀ out ∈ older.getLast?, o.settled msg.timestamp out = true)
      ∧ o' = { o with
        outputs := older ++ newer.map (restart (uint64 msg.timestamp)), paused := false, pausedAt := 0 } := by
  obtain ⟨-, hok⟩ := guard_eq_ok_iff.1 hok
  obtain ⟨hpaused, ⟨⟩⟩ := guard_eq_ok_iff.1 hok
  rw [restartClocks_eq, reverse_append, ← map_reverse]
  refine ⟨by simpa using hpaused, _, _, (rdropWhile_append_rtakeWhile ..).symm, ?_, ?_, rfl⟩
  · intro out hout
    simpa using mem_takeWhile_imp (mem_reverse.1 hout)
  · intro out hout
    have hstop := head?_dropWhile_not (fun out => !o.settled msg.timestamp out) o.outputs.reverse
    rw [rdropWhile, getLast?_reverse] at hout
    rw [hout] at hstop
    simpa using hstop

theorem called_of_exec (hok : o.exec factory msg call = .ok o') : Called factory o msg call o' := by
  cases call with
  | setAttester | setChallenger =>
    obtain ⟨-, ⟨⟩⟩ := guard_eq_ok_iff.1 (guard_eq_ok_iff.1 hok).2
    exact .roles ..
  | setRecovery =>
    obtain ⟨-, ⟨⟩⟩ := guard_eq_ok_iff.1 hok
    exact .roles ..
  | setFinalizationWindow window =>
    obtain ⟨hsender, hok⟩ := guard_eq_ok_iff.1 hok
    obtain ⟨-, ⟨⟩⟩ := guard_eq_ok_iff.1 hok
    exact .window window (not_not.1 hsender)
  | proposeOutput root number =>
    obtain ⟨-, hok⟩ := guard_eq_ok_iff.1 hok
    obtain ⟨hmonotone, ⟨⟩⟩ := guard_eq_ok_iff.1 hok
    exact .proposed hmonotone
  | deleteOutput index =>
    obtain ⟨-, hok⟩ := guard_eq_ok_iff.1 hok
    split at hok
    · cases hok
    · rename_i out hget
      obtain ⟨hlive, hok⟩ := guard_eq_ok_iff.1 hok
      obtain ⟨hset, ⟨⟩⟩ := guard_eq_ok_iff.1 hok
      exact .dropped (forall₂_dropped_set hget (.deleted (by simpa using hlive) (by simpa using hset)))
  | pause =>
    obtain ⟨-, hok⟩ := guard_eq_ok_iff.1 hok
    obtain ⟨hrunning, ⟨⟩⟩ := guard_eq_ok_iff.1 hok
    exact .paused hrunning
  | unpause =>
    obtain ⟨hpaused, older, newer, hsplit, hnewer, -, rfl⟩ := unpause_eq_ok hok
    exact .unpaused hpaused hsplit hnewer
  | rollbackOutputs fromIndex =>
    obtain ⟨-, hok⟩ := guard_eq_ok_iff.1 hok
    obtain ⟨-, hok⟩ := guard_eq_ok_iff.1 hok
    obtain ⟨newer, hnewer, rfl⟩ := map_eq_ok_iff.1 hok
    refine .dropped ?_
    conv_lhs => rw [← take_append_drop fromIndex o.outputs]
    exact rel_append (forall₂_dropped_self _) (forall₂_dropped_of_rollbackFrom hnewer)

/-! ## An output that was finalizable stays -/

/-- Output `i` is there and not deleted, it is settled at the time `t`, and a pause that is on
began by then. -/
structure Kept (i t : Nat) (o : WithdrawalOutputOracle H) : Prop where
  held : ∃ out, o.outputs[i]? = some out ∧ out.deleted = false ∧ o.settled t out = true
  paused_le : o.paused = true → o.pausedAt.toNat ≤ t

theorem kept_of_isFinalizable {t i : Nat} (h : o.isFinalizable t i = true) : Kept i t o := by
  unfold isFinalizable at h
  split at h
  · cases h
  · rename_i hpaused
    split at h
    · cases h
    · rename_i out hout
      simp only [Bool.and_eq_true, Bool.not_eq_true'] at h
      exact ⟨⟨out, hout, h.1, h.2⟩, fun hp => absurd hp hpaused⟩

variable {out : Output H}

theorem settled_iff {t : Nat} :
    o.settled t out = true ↔ out.timestamp.toNat + o.finalizationWindow.toNat ≤ o.clock t :=
  decide_eq_true_iff

theorem clock_mono (o : WithdrawalOutputOracle H) {t t' : Nat} (ht : t ≤ t') :
    o.clock t ≤ o.clock t' := by
  unfold clock
  split
  · exact le_rfl
  · exact ht

/-- Time only settles outputs. -/
theorem settled_mono {t t' : Nat} (ht : t ≤ t') (h : o.settled t out = true) : o.settled t' out = true :=
  settled_iff.2 ((settled_iff.1 h).trans (o.clock_mono ht))

theorem Kept.mono {i t t' : Nat} (ht : t ≤ t') (h : Kept i t o) : Kept i t' o := by
  obtain ⟨out, hout, hlive, hset⟩ := h.held
  exact ⟨⟨out, hout, hlive, settled_mono ht hset⟩, fun hp => (h.paused_le hp).trans ht⟩

theorem getElem?_of_forall₂ {R : Output H → Output H → Prop} {outs outs' : List (Output H)}
    (h : outs.Forall₂ R outs') (hget : outs[i]? = some out) : ∃ out', outs'[i]? = some out' ∧ R out out' := by
  induction h generalizing i with
  | nil => cases hget
  | @cons _ out' _ _ hR _ ih =>
    cases i with
    | zero => exact ⟨out', rfl, some.inj hget ▸ hR⟩
    | succ i => exact ih hget

theorem getElem?_append_map (older newer : List (Output H)) (f : Output H → Output H) (i : Nat) :
    (older ++ newer.map f)[i]?
      = if i < older.length then (older ++ newer)[i]? else (older ++ newer)[i]?.map f := by
  rw [getElem?_append, getElem?_append, getElem?_map]
  split
  · rfl
  · rfl

/-- The call takes no settled output back inside its window. Two calls could: one that sets a longer
window, and a pause at a time that does not fit the 64 bits of `pausedAt`. -/
def StaysSettled (factory : Address) (o : WithdrawalOutputOracle H) : Msg × OracleCall H → Prop
  | (msg, .setFinalizationWindow window) =>
    msg.sender = factory → ∀ out ∈ o.outputs, out.deleted = false →
      o.settled msg.timestamp out = true →
        { o with finalizationWindow := window }.settled msg.timestamp out = true
  | (msg, .pause) => msg.timestamp < 2 ^ 64
  | _ => True

/-- One call keeps a settled output, unless it is one that may unsettle it. -/
theorem Kept.called (h : Kept i msg.timestamp o) (hcall : Called factory o msg call o')
    (hstays : StaysSettled factory o (msg, call)) : Kept i msg.timestamp o' := by
  obtain ⟨out, hget, hlive, hsettled⟩ := h.held
  cases hcall with
  | roles => exact { h with }
  | window window hsender =>
    have hstill := hstays hsender out (mem_of_getElem? hget) hlive hsettled
    exact ⟨⟨out, hget, hlive, hstill⟩, h.paused_le⟩
  | proposed =>
    refine ⟨⟨out, ?_, hlive, hsettled⟩, h.paused_le⟩
    rw [getElem?_append_left (List.getElem?_eq_some_iff.1 hget).1]
    exact hget
  | dropped hdrop =>
    obtain ⟨out', hget', hdrop⟩ := getElem?_of_forall₂ hdrop hget
    cases hdrop with
    | kept => exact ⟨⟨out, hget', hlive, hsettled⟩, h.paused_le⟩
    | deleted _ hunsettled =>
      rw [hsettled] at hunsettled
      cases hunsettled
  | paused hrunning =>
    have hat : (uint64 msg.timestamp).toNat = msg.timestamp := toNat_uint64 hstays
    refine ⟨⟨out, hget, hlive, ?_⟩, fun _ => hat.le⟩
    rw [settled_iff, clock, if_neg hrunning] at hsettled
    rw [settled_iff, clock, hat]
    exact hsettled
  | @unpaused older newer hpaused hsplit hnewer =>
    refine ⟨⟨out, ?_, hlive, ?_⟩, fun hp => by cases hp⟩
    · rw [hsplit] at hget
      rw [getElem?_append_map, hget]
      split
      · rfl
      · rw [getElem?_append_right (by omega)] at hget
        rw [hnewer out (mem_of_getElem? hget)] at hsettled
        cases hsettled
    · -- the clock runs again from a time at or after the one it stood at
      have hat := h.paused_le hpaused
      rw [settled_iff, clock, if_pos hpaused] at hsettled
      rw [settled_iff]
      exact hsettled.trans hat

/-- A call that reverts changes nothing. -/
theorem step_of_called {P : WithdrawalOutputOracle H → Prop} {c : Msg × OracleCall H} (h : P o)
    (hcall : ∀ o', Called factory o c.1 c.2 o' → P o') : P (o.step factory c).1 := by
  unfold step
  cases hexec : o.exec factory c.1 c.2 with
  | ok o' => exact hcall o' (called_of_exec hexec)
  | error e => exact h

theorem Kept.run {calls : List (Msg × OracleCall H)} (h : Kept i t o)
    (htimes : (t :: calls.map (·.1.timestamp)).Pairwise (· ≤ ·))
    (hstays : Guarded (step factory) (StaysSettled factory) o calls) :
    ∃ t', Kept i t' (run (step factory) o calls).1 := by
  induction calls generalizing o t with
  | nil => exact ⟨t, h⟩
  | cons c calls ih =>
    obtain ⟨hfirst, hrest⟩ := pairwise_cons.1 htimes
    have hnow : Kept i c.1.timestamp o := h.mono (hfirst _ (mem_cons_self ..))
    exact ih (step_of_called hnow fun _ hcall => hnow.called hcall hstays.1) hrest hstays.2

/-- **Settlement is final, while the window is not made longer under a settled output.** An output
that is finalizable at some time is there and not deleted after every later sequence of calls, by
any callers and at any times from then on, in which no call of the factory sets a window under
which a settled output is not settled any more, and no pause comes at a time above 64 bits. -/
theorem finalizable_never_deleted {calls : List (Msg × OracleCall H)}
    (h : o.isFinalizable t i = true) (htimes : (t :: calls.map (·.1.timestamp)).Pairwise (· ≤ ·))
    (hstays : Guarded (step factory) (StaysSettled factory) o calls) :
    ∃ out, (run (step factory) o calls).1.outputs[i]? = some out ∧ out.deleted = false := by
  obtain ⟨t', hkept⟩ := (kept_of_isFinalizable h).run htimes hstays
  obtain ⟨out, hget, hlive, -⟩ := hkept.held
  exact ⟨out, hget, hlive⟩

/-- An oracle with attester 1, challenger 2, recovery account 3 and factory 9, a window of ten
seconds, and one output proposed at the time 5. -/
def proposedAtFive : WithdrawalOutputOracle Nat :=
  (run (step 9) ((initializeOracle 1 2 10).settle ⟨0, 0, 0, [], 0, false, 0⟩)
    [(⟨9, 0⟩, .setRecovery 3), (⟨1, 5⟩, .proposeOutput 7 1)]).1

/-- The output is finalizable from the time 15 on. A shorter window, a challenge, a pause, an attempt
to roll it back and the end of the pause leave it. -/
theorem finalizable_never_deleted_of_pause :
    proposedAtFive.isFinalizable 15 0 = true ∧ ∃ out, (run (step 9) proposedAtFive
          [(⟨9, 15⟩, .setFinalizationWindow 8), (⟨2, 15⟩, .deleteOutput 0), (⟨3, 16⟩, .pause),
            (⟨3, 17⟩, .rollbackOutputs 0), (⟨3, 90⟩, .unpause)]).1.outputs[0]? = some out
        ∧ out.deleted = false := by
  refine ⟨by decide +kernel, finalizable_never_deleted (t := 15) ?_ ?_ ?_⟩
  · decide +kernel
  · decide +kernel
  · refine ⟨fun _ out hout _ _ => ?_, trivial, ?_, trivial, trivial, trivial⟩
    · obtain rfl : out = ⟨7, 1, 5, false⟩ := by
        have houts : proposedAtFive.outputs = [⟨7, 1, 5, false⟩] := by decide +kernel
        rw [houts] at hout
        exact mem_singleton.1 hout
      decide +kernel
    · exact (by decide : (16 : Nat) < 2 ^ 64)

/-- A window of a hundred seconds, set after the output was finalizable, lets the challenger delete
it. -/
theorem finalized_output_deleted :
    initializeOracle (H := Nat) 1 2 10 = .ok ⟨1, 2, 10, [], 0, false, 0⟩
      ∧ proposedAtFive.isFinalizable 15 0 = true
      ∧ (run (step 9) proposedAtFive
          [(⟨9, 16⟩, .setFinalizationWindow 100), (⟨2, 17⟩, .deleteOutput 0)]).1.outputs
        = [⟨7, 1, 5, true⟩] := by
  decide +kernel

end WithdrawalOutputOracle

end Kardamom.L1
