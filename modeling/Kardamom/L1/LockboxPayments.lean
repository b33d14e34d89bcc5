import Kardamom.L1.Lockbox

/-!
# Payments of the lockbox

What holds of the payments after every sequence of transactions, with any calls made from inside a
payment: no hash is paid twice, each payment was proven under an output that was final at that
moment, and the payments of one egress window made under one cap stay within it.
`Bridge.payments_sound` states the three for every run, together with the rollback of a call that
reverts.

All of it is one invariant (`Accounted`) that entering a call keeps: the guard and the counters are
written before the lockbox hands control out, so a re-entrant call meets them like any later one.
-/

namespace Kardamom.L1

open Mpt (Address)
open Payment Except List TreeHash Bridge Machine Function CallTree Nat BridgeHash Option

variable {H : Type}

/-! ## The withdrawals tree -/

namespace BridgeHash

variable {K : BridgeHash H} {leaves : List H}

theorem padLeaves_length (leaves : List H) :
    (K.padLeaves leaves).length = 2 ^ clog 2 leaves.length := by
  have hle : leaves.length ≤ 2 ^ clog 2 leaves.length := le_pow_clog (by decide) _
  rw [padLeaves, length_append, length_replicate]
  omega

theorem length_level (leaves : List H) :
    ((K.padLeaves leaves).map K.leaf).length = 2 ^ clog 2 leaves.length := by
  rw [length_map, padLeaves_length]

/-- The withdrawals root is the last level of the padded leaves. -/
theorem iterate_up_eq_withdrawalsRoot (h : leaves ≠ []) :
    K.tree.up^[clog 2 leaves.length] ((K.padLeaves leaves).map K.leaf)
      = [K.withdrawalsRoot leaves] := by
  have hlen := K.length_level leaves
  obtain ⟨r, hr⟩ := length_eq_one_iff.1 (iterate_up_length (T := K.tree) hlen)
  rw [withdrawalsRoot, if_neg h]
  dsimp only
  rw [hlen, reduce_eq_iterate hlen Nat.lt_two_pow_self.le, hr]
  rfl

/-- The root of a list of withdrawals has only the padded list below it. -/
theorem getElem?_of_leafAt_withdrawalsRoot (hK : K.CollisionFree) {i : Nat} {w : H}
    (h : K.tree.LeafAt (K.withdrawalsRoot leaves) i w) : (K.padLeaves leaves)[i]? = some w := by
  obtain ⟨d, hnode⟩ := h
  by_cases hnil : leaves = []
  · -- no walk ends at the zero word
    have hzero : ∀ {d i n}, K.tree.NodeAt K.zero d i n → n = K.zero ∧ d = 0 := by
      intro d i n hn
      induction hn with
      | root => exact ⟨rfl, rfl⟩
      | left _ ih | right _ ih => exact absurd ih.1 hK.node_ne_zero
    rw [withdrawalsRoot, if_pos hnil] at hnode
    exact absurd (hzero hnode).1 hK.leaf_ne_zero
  · exact (nodeAt_leaf_iterate_up hK.tree (iterate_up_eq_withdrawalsRoot hnil) hnode).2

/-- What a proof shows that the lockbox follows to a root. -/
theorem nodeAt_of_merkleRoot {leaf root : H} {index : Nat} {proof : List H}
    (h : merkleRoot K leaf index proof = .ok root) :
    K.tree.NodeAt root proof.length index (K.leaf leaf) := by
  unfold merkleRoot at h
  dsimp only at h
  split at h
  · cases h
  · rename_i hused
    exact nodeAt_of_climb (Prod.ext (ok.inj h) (not_not.1 hused))

/-- **The withdrawals tree of the two sides.** The proof that the validator builds for a leaf of the
list leads to the root of the list on chain. When the hashes have no collisions, a leaf, an index
and a proof of any length that lead to it are a leaf of the list at its own index, or the zero leaf
at an index of the padding, and the proof has the depth of the tree. -/
theorem withdrawalProof_sound (K : BridgeHash H) (hK : K.CollisionFree) (leaves : List H)
    (hne : leaves ≠ []) :
    (∀ i leaf, leaves[i]? = some leaf → ∃ proof, K.withdrawalProof leaves i = some proof ∧
      merkleRoot K leaf i proof = .ok (K.withdrawalsRoot leaves)) ∧
    ∀ leaf index proof, merkleRoot K leaf index proof = .ok (K.withdrawalsRoot leaves) →
      proof.length = clog 2 leaves.length ∧ (leaves[index]? = some leaf ∨
          leaves.length ≤ index ∧ index < 2 ^ clog 2 leaves.length ∧ leaf = K.zero) := by
  have hroot := iterate_up_eq_withdrawalsRoot (K := K) hne
  refine ⟨fun i leaf hleaf => ?_, fun leaf index proof h => ?_⟩
  · obtain ⟨hi, -⟩ := List.getElem?_eq_some_iff.1 hleaf
    have hlen := K.length_level leaves
    have hpad : ((K.padLeaves leaves).map K.leaf)[i]? = some (K.leaf leaf) := by
      rw [getElem?_map, padLeaves, getElem?_append_left hi, hleaf]
      rfl
    obtain ⟨proof, r, hproof, hr, hclimb⟩ := climb_siblings (T := K.tree) hlen
      (hlen ▸ Nat.lt_two_pow_self.le) hpad
    obtain rfl : r = K.withdrawalsRoot leaves := singleton_inj.1 (hr.symm.trans hroot)
    refine ⟨proof, (if_pos hi).trans hproof, ?_⟩
    rw [merkleRoot, hclimb]
    rfl
  · obtain ⟨hdepth, hget⟩ := nodeAt_leaf_iterate_up hK.tree hroot (nodeAt_of_merkleRoot h)
    refine ⟨hdepth, ?_⟩
    rw [padLeaves, getElem?_append, getElem?_replicate] at hget
    split at hget
    · exact .inl hget
    · obtain ⟨hlt, heq⟩ := ite_none_right_eq_some.1 hget
      exact .inr ⟨by omega, by omega, (some.inj heq).symm⟩

end BridgeHash

namespace Bridge

/-- A hash that keeps what it was computed from. -/
inductive BridgeDigest where
  | zero
  | stateRoot (n : Nat)
  | withdrawal (wtx : WithdrawalTransaction)
  | leaf (d : BridgeDigest)
  | node (l r : BridgeDigest)
  | output (stateRoot withdrawalsRoot : BridgeDigest)
  deriving DecidableEq

def plainHash : BridgeHash BridgeDigest := ⟨.zero, .withdrawal, .leaf, .node, .output⟩

theorem plainHash_collisionFree : plainHash.CollisionFree where
  tree := ⟨BridgeDigest.leaf.inj, fun h => BridgeDigest.node.inj h, nofun⟩
  output_inj h := BridgeDigest.output.inj h
  leaf_ne_zero := nofun
  node_ne_zero := nofun

/-- Three leaves make a tree of depth two with one leaf of padding. -/
theorem withdrawalProof_sound_of_three :
    let leaves : List BridgeDigest := [.stateRoot 1, .stateRoot 2, .stateRoot 3]
    plainHash.CollisionFree ∧ leaves ≠ [] ∧
      ∃ proof, plainHash.withdrawalProof leaves 2 = some proof ∧
        merkleRoot plainHash (.stateRoot 3) 2 proof = .ok (plainHash.withdrawalsRoot leaves) :=
  ⟨plainHash_collisionFree, by simp,
    (withdrawalProof_sound plainHash plainHash_collisionFree _ (by simp)).1 2 _ rfl⟩

end Bridge

/-! ## What one payment does -/

/-- The payment was proven: the oracle held, not deleted, settled and not paused, an output that
commits to a withdrawals root with the hash as the leaf at the index. -/
def Payment.Proven (K : BridgeHash H) (p : Payment H) : Prop :=
  p.hash = K.withdrawal p.wtx ∧ p.oracle.paused = false
    ∧ K.tree.LeafAt p.withdrawalsRoot p.leafIndex p.hash
    ∧ ∃ output, p.oracle.outputs[p.outputIndex]? = some output ∧ output.deleted = false
        ∧ p.oracle.settled p.time output = true
        ∧ output.outputRoot = K.output p.stateRoot p.withdrawalsRoot

namespace Payment

/-- The counter of the window total that the payment is charged to, with its cap. -/
def meter (p : Payment H) : Option (Nat × Nat) :=
  if p.cap = 0 then none else some (p.windowId, p.cap)

/-- The counter of its L2 sender that the payment is charged to, with its cap. -/
def accountMeter (p : Payment H) : Option ((Nat × Address) × Nat) :=
  if p.accountCap = 0 then none else some ((p.windowId, p.wtx.sender), p.accountCap)

/-- The amount of the payment. -/
def value (p : Payment H) : Nat := p.wtx.value

end Payment

namespace WithdrawalOutputOracle

theorem isFinalizable_eq_true {o : WithdrawalOutputOracle H} {t i : Nat}
    (h : o.isFinalizable t i = true) :
    o.paused = false ∧ ∃ out, o.outputs[i]? = some out ∧ out.deleted = false
      ∧ o.settled t out = true := by
  refine ⟨?_, (kept_of_isFinalizable h).held⟩
  unfold isFinalizable at h
  split at h
  · cases h
  · rename_i hpaused
    exact Bool.not_eq_true _ ▸ hpaused

end WithdrawalOutputOracle

namespace Bridge

variable {K : BridgeHash H} {factory owner : Address} {s s' : Bridge H}

section Charge

variable {κ : Type} [DecidableEq κ] {cap value : Nat} {used used' : κ → Nat} {k : κ}

/-- A charge that goes through: the cap is disabled and nothing is counted, or the counter stays
within the cap. -/
theorem charge_eq_ok (h : charge cap used k value = .ok used') : (cap = 0 ∧ used' = used)
      ∨ (cap ≠ 0 ∧ used k + value ≤ cap ∧ used' = update used k (used k + value)) := by
  unfold charge at h
  split at h
  · rename_i hcap
    exact .inl ⟨hcap, (ok.inj h).symm⟩
  · rename_i hcap
    simp only [bind_eq_ok_iff, require_eq_ok_iff, pure_eq_ok_iff, exists_const] at h
    obtain ⟨total, htotal, hle, rfl⟩ := h
    obtain rfl : used k + value = total := by
      unfold checkedAdd at htotal
      split at htotal
      · exact ok.inj htotal
      · cases htotal
    exact .inr ⟨hcap, hle, rfl⟩

/-- A charge keeps the counter above what the log holds and the log within its caps. -/
theorem charge_metered {meter : Payment H → Option (κ × Nat)} {ps : List (Payment H)} {p : Payment H}
    (hmeter : Metered Payment.value meter used ps)
    (hp : meter p = if cap = 0 then none else some (k, cap))
    (h : charge cap used k p.value = .ok used') : Metered Payment.value meter used' (ps ++ [p]) := by
  rcases charge_eq_ok h with ⟨hcap, rfl⟩ | ⟨hcap, hle, rfl⟩
  · rw [if_pos hcap] at hp
    exact hmeter.free hp
  · rw [if_neg hcap] at hp
    exact hmeter.charge hp hle

end Charge

/-- What recording the egress does to the storage. -/
theorem recordEgress_eq_ok {oracle : WithdrawalOutputOracle H} {l2Sender : Address} {value : Nat}
    {lockbox : ETHLockbox H} (horacle : s.outputOracle = .ok oracle)
    (h : s.recordEgress l2Sender value = .ok lockbox) :
    lockbox.finalizedWithdrawals = s.lockbox.finalizedWithdrawals
      ∧ charge s.lockbox.egressCapPerWindow s.lockbox.egressUsed
          (s.now / oracle.finalizationWindow.toNat) value = .ok lockbox.egressUsed
      ∧ charge s.lockbox.egressAccountCapPerWindow s.lockbox.egressUsedBy
          (s.now / oracle.finalizationWindow.toNat, l2Sender) value = .ok lockbox.egressUsedBy := by
  unfold recordEgress at h
  dsimp only at h
  split at h
  · rename_i hcaps
    obtain rfl := ok.inj h
    exact ⟨rfl, if_pos hcaps.1, if_pos hcaps.2⟩
  · simp only [bind_eq_ok_iff, pure_eq_ok_iff] at h
    obtain ⟨windowId, hid, used, hused, usedBy, husedBy, rfl⟩ := h
    simp only [egressWindowId, bind_eq_ok_iff, require_eq_ok_iff, pure_eq_ok_iff, exists_const] at hid
    obtain ⟨oracle', horacle', -, rfl⟩ := hid
    obtain rfl := ok.inj (horacle.symm.trans horacle')
    exact ⟨rfl, hused, husedBy⟩

/-! ## The invariant -/

/-- The payments of the log, the replay guard and the counters agree. -/
structure Accounted (K : BridgeHash H) (s : Bridge H) : Prop where
  once : (s.paid.map (·.hash)).Nodup
  guarded : ∀ p ∈ s.paid, s.lockbox.finalizedWithdrawals p.hash = true
  proven : ∀ p ∈ s.paid, p.Proven K
  window : Metered value meter s.lockbox.egressUsed s.paid
  account : Metered value accountMeter s.lockbox.egressUsedBy s.paid

/-- A bridge that has paid nothing yet, in any other state. -/
theorem accounted_of_nil (h : s.paid = []) : Accounted K s := by
  refine ⟨?_, ?_, ?_, ?_, ?_⟩
  · rw [h]
    exact nodup_nil
  · simp [h]
  · simp [h]
  · rw [h]
    exact Metered.nil _
  · rw [h]
    exact Metered.nil _

variable [DecidableEq H] {wtx : WithdrawalTransaction} {withdrawalsRoot : H} {outputIndex : Nat}

variable {leafIndex : Nat}

/-- What a withdrawal that is paid does, and what was checked for it. -/
theorem finalizeWithdrawal_eq_ok {stateRoot : H} {proof : List H}
    (h : s.finalizeWithdrawal K wtx outputIndex stateRoot withdrawalsRoot leafIndex proof = .ok s') :
    ∃ oracle lockbox, ∃ p : Payment H,
      p = ⟨wtx, K.withdrawal wtx, outputIndex, stateRoot, withdrawalsRoot, leafIndex, s.now,
        s.lockbox.egressCapPerWindow, s.lockbox.egressAccountCapPerWindow, oracle⟩
      ∧ s.lockbox.finalizedWithdrawals p.hash = false
      ∧ p.Proven K
      ∧ s.outputOracle = .ok oracle
      ∧ s.recordEgress wtx.sender wtx.value = .ok lockbox
      ∧ s'.lockbox = { lockbox with
          finalizedWithdrawals := update lockbox.finalizedWithdrawals p.hash true }
      ∧ s'.paid = s.paid ++ [p] := by
  simp only [finalizeWithdrawal, bind_eq_ok_iff, require_eq_ok_iff, ofOption_eq_ok_iff,
    pure_eq_ok_iff, exists_const] at h
  obtain ⟨hfresh, root, hroot, hsame, oracle, horacle, output, houtput, hcommits, hfinal, lockbox, hlockbox, -, rfl⟩ := h
  obtain ⟨hrunning, output', houtput', hlive, hsettled⟩ :=
    WithdrawalOutputOracle.isFinalizable_eq_true hfinal
  obtain rfl := some.inj (houtput.symm.trans houtput')
  have hleaf : K.tree.LeafAt withdrawalsRoot leafIndex (K.withdrawal wtx) :=
    ⟨_, hsame ▸ nodeAt_of_merkleRoot hroot⟩
  exact ⟨oracle, lockbox, _, rfl, hfresh, ⟨rfl, hrunning, hleaf, output, houtput, hlive, hsettled,
    hcommits⟩, horacle, hlockbox, rfl, rfl⟩

section

variable (h : Accounted K s)
include h

/-- A payment is charged and guarded before control leaves the lockbox. -/
theorem Accounted.finalizeWithdrawal {stateRoot : H} {proof : List H}
    (hok : s.finalizeWithdrawal K wtx outputIndex stateRoot withdrawalsRoot leafIndex proof = .ok s') :
    Accounted K s' := by
  obtain ⟨oracle, lockbox, p, hp, hfresh, hproven, horacle, hrecord, hlockbox, hpaid⟩ :=
    finalizeWithdrawal_eq_ok hok
  obtain ⟨hguard, hused, husedBy⟩ := recordEgress_eq_ok horacle hrecord
  refine ⟨?_, ?_, ?_, ?_, ?_⟩
  · rw [hpaid, map_append, nodup_append]
    refine ⟨h.once, nodup_singleton _, ?_⟩
    -- a hash that is in the log is guarded, and the new one was not
    intro a ha b hb hab
    obtain ⟨q, hq, rfl⟩ := mem_map.1 ha
    obtain rfl : b = p.hash := by simpa using hb
    have hguarded := h.guarded q hq
    rw [hab, hfresh] at hguarded
    cases hguarded
  · rw [hpaid, hlockbox, hguard]
    refine forall_mem_snoc.2 ⟨fun q hq => ?_, update_self ..⟩
    dsimp only
    by_cases hsame : q.hash = p.hash
    · rw [hsame, update_self]
    · rw [update_of_ne hsame]
      exact h.guarded q hq
  · rw [hpaid]
    exact forall_mem_snoc.2 ⟨h.proven, hproven⟩
  · rw [hpaid, hlockbox]
    subst hp
    exact charge_metered h.window rfl hused
  · rw [hpaid, hlockbox]
    subst hp
    exact charge_metered h.account rfl husedBy

omit [DecidableEq H] in
theorem Accounted.lockboxCall {sender : Address} {call : LockboxCall H}
    (hok : lockboxCall factory owner sender s call = .ok s') : Accounted K s' := by
  cases call with
  | receiveEther | finalizeWithdrawal => cases hok
  | initializeV2 | depositETH =>
    obtain ⟨_, -, hok⟩ := bind_eq_ok_iff.1 hok
    obtain ⟨_, -, hok⟩ := bind_eq_ok_iff.1 hok
    obtain rfl := ok.inj hok
    exact { h with }
  | _ =>
    -- one check, then a field of its own
    obtain ⟨_, -, hok⟩ := bind_eq_ok_iff.1 hok
    obtain rfl := ok.inj hok
    exact { h with }

omit [DecidableEq H] in
theorem Accounted.oracleCall {sender address : Address} {call : OracleCall H}
    (hok : oracleCall factory sender s address call = .ok s') : Accounted K s' := by
  unfold Bridge.oracleCall at hok
  split at hok
  · cases hok
  · split at hok
    · cases hok
    · obtain rfl := ok.inj hok
      exact { h with }

/-- Entering any call keeps the invariant, at the point where control leaves the lockbox too. -/
theorem Accounted.enter {c : Address × BridgeCall H} {e : Entered (Bridge H)}
    (hok : enter K factory owner c s = .ok e) : Accounted K e.state := by
  obtain ⟨sender, call⟩ := c
  cases call with
  | oracle address call =>
    obtain ⟨s', hs', rfl⟩ := map_eq_ok_iff.1 hok
    exact h.oracleCall hs'
  | forceEther value =>
    obtain rfl := ok.inj hok
    exact { h with }
  | lockbox call =>
    cases call with
    | finalizeWithdrawal wtx outputIndex stateRoot withdrawalsRoot leafIndex proof =>
      obtain ⟨s', hs', rfl⟩ := map_eq_ok_iff.1 hok
      exact h.finalizeWithdrawal hs'
    | receiveEther value => cases hok
    | _ =>
      obtain ⟨s', hs', rfl⟩ := map_eq_ok_iff.1 hok
      exact h.lockboxCall hs'

theorem Accounted.step (event : BridgeEvent H) : Accounted K (s.step K factory owner event).1 := by
  cases event with
  | time now => exact { h with }
  | transaction t =>
    unfold Bridge.step
    dsimp only
    split
    · rename_i s' hs'
      exact exec_invariant (fun c s e hs he => hs.enter he) t h hs'
    · exact h

theorem Accounted.run (events : List (BridgeEvent H)) :
    Accounted K (run (Bridge.step K factory owner) s events).1 :=
  run_invariant h (fun _ event hs => hs.step event) events

end

variable (K factory owner) in
/-- **Payments of the lockbox.** After every sequence of transactions by any callers, with any calls
of the two contracts made from inside a payment, from any state of the contracts:

* no withdrawal hash was paid twice;
* each payment was proven, at its moment, under an output that was there, not deleted, settled and
  not paused; when that output commits to the root of a list of withdrawals, the hash is the entry
  at the leaf index of the padded list, unless the hashes have collisions;
* of a stretch of payments made under the same caps and finalization window, those of one egress
  window stay within the window cap, and those of one L2 sender in it within the account cap, unless
  the cap is zero.

A call that reverts leaves the replay guard and the counters as they were: as a transaction, and as a
call from inside of another one, where the calls after it go on from the state before it. -/
theorem payments_sound (h : s.paid = []) (events : List (BridgeEvent H)) :
    let s' := (run (Bridge.step K factory owner) s events).1
    (s'.paid.map (·.hash)).Nodup ∧ (∀ p ∈ s'.paid, p.Proven K
        ∧ (K.CollisionFree → ∀ output, p.oracle.outputs[p.outputIndex]? = some output →
          ∀ stateRoot leaves, output.outputRoot = K.output stateRoot (K.withdrawalsRoot leaves) →
            (K.padLeaves leaves)[p.leafIndex]? = some p.hash))
      ∧ (∀ pre seg post cap accountCap window, s'.paid = pre ++ seg ++ post →
        (∀ p ∈ seg, p.cap = cap ∧ p.accountCap = accountCap
          ∧ p.oracle.finalizationWindow = window) →
        (cap ≠ 0 → ∀ id, ((seg.filter (·.windowId = id)).map value).sum ≤ cap)
        ∧ (accountCap ≠ 0 → ∀ id sender,
          ((seg.filter fun p => (p.windowId, p.wtx.sender) = (id, sender)).map value).sum
            ≤ accountCap))
      ∧ ∀ (s₁ : Bridge H) (t : CallTree (Address × BridgeCall H)) (e : LockboxError),
        t.exec (contract K factory owner) s₁ = .error e →
          (∀ s₂, s₂ = (s₁.step K factory owner (.transaction t)).1 →
            s₂.lockbox.finalizedWithdrawals = s₁.lockbox.finalizedWithdrawals
              ∧ s₂.lockbox.egressUsed = s₁.lockbox.egressUsed
              ∧ s₂.lockbox.egressUsedBy = s₁.lockbox.egressUsedBy)
          ∧ ∀ ts, execAll (contract K factory owner) (t :: ts) s₁
              = execAll (contract K factory owner) ts s₁ := by
  intro s'
  have hacc : Accounted K s' := (accounted_of_nil h).run events
  refine ⟨hacc.once, ?_, ?_, ?_⟩
  · intro p hp
    have hproven := hacc.proven p hp
    refine ⟨hproven, fun hK output houtput stateRoot leaves hroot => ?_⟩
    obtain ⟨-, -, hleaf, output', houtput', -, -, hcommits⟩ := hproven
    obtain rfl := some.inj (houtput.symm.trans houtput')
    have hsame := (hK.output_inj (hcommits.symm.trans hroot)).2
    exact getElem?_of_leafAt_withdrawalsRoot hK (hsame ▸ hleaf)
  · intro pre seg post cap accountCap window hpaid hlimits
    refine ⟨fun hcap id => ?_, fun hcap id sender => ?_⟩
    · refine hacc.window.sum_le hpaid (fun p hp => ?_) id
      rw [meter, (hlimits p hp).1, if_neg hcap]
    · refine hacc.account.sum_le hpaid (fun p hp => ?_) (id, sender)
      rw [accountMeter, (hlimits p hp).2.1, if_neg hcap]
  · intro s₁ t e he
    refine ⟨fun s₂ hs₂ => ?_, fun ts => ?_⟩
    · obtain rfl : s₂ = s₁ := by rw [hs₂, Bridge.step, he]
      exact ⟨rfl, rfl, rfl⟩
    · rw [execAll, he, settle_error]

/-! ## A payment that is re-entered -/

def firstWithdrawal : WithdrawalTransaction := ⟨0, 100, 7, 4⟩

def secondWithdrawal : WithdrawalTransaction := ⟨1, 101, 7, 3⟩

/-- A lockbox with caps of 10 and 6 over an oracle with a window of ten seconds, whose output of the
time 5 commits to two withdrawals. -/
def twoWithdrawals : Bridge BridgeDigest where
  now := 5
  lockbox := ⟨1, 0, 0, 5, fun _ => false, 0, 10, 6, fun _ => 0, fun _ => 0⟩
  balance := 20
  oracles := fun a => if a = 5 then
    some ⟨1, 2, 10, [⟨.output (.stateRoot 0) (.node (.leaf (.withdrawal firstWithdrawal))
      (.leaf (.withdrawal secondWithdrawal))), 1, 5, false⟩], 3, false, 0⟩ else none
  paid := []

def payFirst : BridgeCall BridgeDigest :=
  .lockbox (.finalizeWithdrawal firstWithdrawal 0 (.stateRoot 0)
    (.node (.leaf (.withdrawal firstWithdrawal)) (.leaf (.withdrawal secondWithdrawal))) 0
    [.leaf (.withdrawal secondWithdrawal)])

def paySecond : BridgeCall BridgeDigest :=
  .lockbox (.finalizeWithdrawal secondWithdrawal 0 (.stateRoot 0)
    (.node (.leaf (.withdrawal firstWithdrawal)) (.leaf (.withdrawal secondWithdrawal))) 1
    [.leaf (.withdrawal firstWithdrawal)])

/-- The target of the first withdrawal tries to have it paid again, has the second one paid, and
accepts: both are paid once, in one window, within the caps. -/
theorem payments_sound_of_reentry :
    let s' := (run (Bridge.step plainHash 9 8) twoWithdrawals [.time 15,
      .transaction (.call (7, payFirst) [.call (7, payFirst) [] true, .call (7, paySecond) [] true]
        true)]).1
    s'.paid.map value = [4, 3] ∧ (s'.paid.map (·.hash)).Nodup
      ∧ ((s'.paid.filter (·.windowId = 1)).map value).sum ≤ 10 := by
  intro s'
  have hsound := payments_sound plainHash 9 8 (s := twoWithdrawals) rfl [.time 15, .transaction (.call (7, payFirst)
      [.call (7, payFirst) [] true, .call (7, paySecond) [] true] true)]
  refine ⟨by decide +kernel, hsound.1, ?_⟩
  refine (hsound.2.2.1 [] s'.paid [] 10 6 10 (by simp [s']) ?_).1 (by decide) 1
  decide +kernel

end Bridge

end Kardamom.L1
