import Kardamom.L1.ProofOracleSound
import Mathlib.Logic.Equiv.List

/-!
# Runs of the proof oracle

The invariant along every run, and what it gives: the accounting of the ether, which claims are
pending and what they start from, why each root followed the one before, and that an honest proof of
the first wrong block refutes a pending claim.
-/

namespace Kardamom.L1

open Mpt (Address)
open ProofOracle Except Machine List Encodable CallTree Nat

namespace ProofOracle

variable {H P : Type} [DecidableEq H] {K : OracleHash H} {V : ProofVerifier H P} {genesis : H}
  {s s' : ProofOracle H P} {sender : Address}

theorem enter_of_plainCall {call : ProofOracleCall H P} (hsender : sender ≠ 0)
    (h : plainCall K V sender call s = .ok s') : enter K V (sender, call) s = .ok (.done s') := by
  unfold enter
  rw [if_neg hsender]
  split
  · rename_i hcall
    obtain rfl : call = .withdraw := hcall
    cases h
  · exact map_eq_ok_iff.2 ⟨s', h, rfl⟩

section

variable (h : Sound K V genesis s)
include h

theorem Sound.plainCall {call : ProofOracleCall H P}
    (hok : plainCall K V sender call s = .ok s') : Sound K V genesis s' := by
  cases call with
  | claimBatch value index roots digests => exact h.claimBatch hok
  | finalizeBatch index => exact h.finalizeBatch hok
  | challengeBlock index offset roots digests values proof => exact h.challengeBlock hok
  | withdraw => cases hok
  | submitBatchProof index values proof => exact h.submitBatchProof hok
  | postBatch prev cert first last commitment => exact h.postBatch hok
  | forceEther value => exact h.forceEther hok

/-- Entering any call keeps the invariant, at the point where control leaves the oracle too. -/
theorem Sound.enter {c : Address × ProofOracleCall H P} {e : Entered (ProofOracle H P)}
    (hok : enter K V c s = .ok e) : Sound K V genesis e.state := by
  unfold ProofOracle.enter at hok
  split at hok
  · cases hok
  · split at hok
    · obtain ⟨s', hs', rfl⟩ := map_eq_ok_iff.1 hok
      exact h.withdraw hs'
    · obtain ⟨s', hs', rfl⟩ := map_eq_ok_iff.1 hok
      exact h.plainCall hs'

theorem Sound.step (event : ProofOracleEvent H P) : Sound K V genesis (s.step K V event).1 := by
  cases event with
  | time now =>
    exact { h with }
  | transaction t =>
    unfold ProofOracle.step
    dsimp only
    split
    · rename_i s' hs'
      exact exec_invariant (fun c s e hs he => hs.enter he) t h hs'
    · exact h

theorem Sound.run (events : List (ProofOracleEvent H P)) :
    Sound K V genesis (run (ProofOracle.step K V) s events).1 :=
  run_invariant h (fun _ event hs => hs.step event) events

end

/-! ## A wrong claim can be refuted -/

/-- The commitment of a batch folds the records digests of its blocks. -/
def Posted (K : OracleHash H) (recordsDigest : Nat → H) (e : BatchEntry H) : Prop :=
  e.recordsCommitment = K.foldDigests ((range' e.l2BlockStart.toNat
    (e.l2BlockEnd.toNat - e.l2BlockStart.toNat + 1)).map recordsDigest)

/-- Block `k` of the batch is the first whose claimed root is not the right one. `rootBefore n` is the
right state root before block `n`. -/
def FirstWrong (rootBefore : Nat → H) (e : BatchEntry H) (blockRoots : List H) (k : Nat) : Prop :=
  (∃ root, blockRoots[k]? = some root ∧ root ≠ rootBefore (e.l2BlockStart.toNat + k + 1))
    ∧ ∀ j root, j < k → blockRoots[j]? = some root → root = rootBefore (e.l2BlockStart.toNat + j + 1)

variable {rootBefore : Nat → H} {blockRoots : List H}

omit [DecidableEq H] in
/-- Roots that are not all right have a first wrong one. -/
theorem exists_firstWrong {e : BatchEntry H}
    (h : ∃ k root, blockRoots[k]? = some root ∧ root ≠ rootBefore (e.l2BlockStart.toNat + k + 1)) :
    ∃ k, FirstWrong rootBefore e blockRoots k := by
  classical
  refine ⟨Nat.find h, Nat.find_spec h, fun j root hj hget => ?_⟩
  by_contra hne
  exact Nat.find_min h hj ⟨root, hget, hne⟩

/-- The public values of an honest proof of block `k` of the batch. -/
def honestValues (rootBefore recordsDigest : Nat → H) (e : BatchEntry H) (k : Nat) (bal : H) :
    BlockValues H :=
  ⟨rootBefore (e.l2BlockStart.toNat + k), rootBefore (e.l2BlockStart.toNat + k + 1),
    e.l2BlockStart.toNat + k, recordsDigest (e.l2BlockStart.toNat + k), bal⟩

variable {i : Nat} {recordsDigest : Nat → H} {blockDigests : List H}

/-- The refutation checks pass for an honest proof of the first wrong block. -/
theorem checkRefutation_of_firstWrong {claimPreRoot bal : H} {k : Nat}
    (hpre : claimPreRoot = rootBefore (s.entry K i).l2BlockStart.toNat)
    (hdigest : blockDigests[k]? = some (recordsDigest ((s.entry K i).l2BlockStart.toNat + k)))
    (hfirst : FirstWrong rootBefore (s.entry K i) blockRoots k) :
    s.checkRefutation K claimPreRoot i k blockRoots blockDigests
      (honestValues rootBefore recordsDigest (s.entry K i) k bal) = .ok () := by
  obtain ⟨⟨root, hroot, hwrong⟩, hbefore⟩ := hfirst
  have hexpected : expectedPre claimPreRoot blockRoots k
      = .ok (rootBefore ((s.entry K i).l2BlockStart.toNat + k)) := by
    unfold expectedPre
    split
    · rename_i hk
      rw [hpre, hk, Nat.add_zero]
    · rename_i hk
      have hlt := (List.getElem?_eq_some_iff.1 hroot).1
      obtain ⟨prev, hprev⟩ : ∃ prev, blockRoots[k - 1]? = some prev :=
        ⟨_, getElem?_eq_getElem (by omega)⟩
      have hright := hbefore (k - 1) prev (by omega) hprev
      rw [show (s.entry K i).l2BlockStart.toNat + (k - 1) + 1
        = (s.entry K i).l2BlockStart.toNat + k by omega] at hright
      rw [hprev, hright]
      rfl
  simp only [checkRefutation, bind_eq_ok_iff, require_eq_ok_iff, ofOption_eq_ok_iff, exists_const]
  exact ⟨root, hroot, _, hexpected, rfl, rfl, _, hdigest, rfl, hwrong.symm⟩

omit [DecidableEq H] in
/-- A challenge of a pending claim is resolved, while the counter of the loop does not overflow. -/
theorem Sound.exists_resolveChallenge (h : Sound K V genesis s)
    (hlast : s.highestClaimedBatch + 1 < 2 ^ 64) {c : Claim H} (hc : s.claims i = some c)
    (sender : Address) : ∃ s', s.resolveChallenge sender i c = .ok s' := by
  obtain ⟨hfinalized, hpending⟩ := (h.stored i).1 (by rw [hc]; simp)
  -- the bonds and the refunds together fit a word, so no addition overflows
  have hbond := bondOf_eq hc
  have hfunds := h.funds
  have hlt := h.balance_lt
  have hsplit := bondsIn_split (s := s) hfinalized hpending
  obtain ⟨credited, hcredit⟩ : ∃ s', s.credit sender c.bond = .ok s' := exists_credit (by omega)
  obtain ⟨-, -, hrefund, hrest⟩ := credit_eq_ok hcredit i
  obtain ⟨cancelled, hcancel⟩ : ∃ s', cancelFrom (s.highestClaimedBatch - i) (i + 1)
      (credited.deleteClaim i) = .ok s' := by
    apply exists_cancelFrom
    rw [show i + (s.highestClaimedBatch - i) = s.highestClaimedBatch by omega, hrefund, hrest]
    omega
  simp only [ProofOracle.resolveChallenge, bind_eq_ok_iff, require_eq_ok_iff, exists_const]
  exact ⟨_, _, hcredit, i + 1, if_pos (by omega), fun _ => hlast, cancelled, hcancel, by omega, rfl⟩

/-- A pending claim that starts from the right root and whose block roots are not all right is refuted
by an honest proof of its first wrong block. -/
theorem Sound.challenge_succeeds (hK : K.CollisionFree) (h : Sound K V genesis s)
    (hlast : s.highestClaimedBatch + 1 < 2 ^ 64) {k : Nat} {c : Claim H} (hc : s.claims i = some c)
    (hposted : Posted K recordsDigest (s.entry K i))
    (hpre : c.preRoot = rootBefore (s.entry K i).l2BlockStart.toNat)
    (hseq : K.sequence blockRoots blockDigests = c.seqHash)
    (hfirst : FirstWrong rootBefore (s.entry K i) blockRoots k) {bal : H} {proof : P}
    (hproof : V.block (honestValues rootBefore recordsDigest (s.entry K i) k bal) proof = true)
    (hsender : sender ≠ 0) :
    ∃ s', ProofOracle.enter K V (sender, .challengeBlock i k blockRoots blockDigests
      (some (honestValues rootBefore recordsDigest (s.entry K i) k bal)) proof) s = .ok (.done s') := by
  obtain ⟨-, roots, digests, blocks, hseq', hblocks, hroots, hdigests, hfold, -⟩ := h.follows i c hc
  obtain ⟨rfl, rfl⟩ := hK.sequence_inj (hseq.trans hseq')
  have hk : k < blockRoots.length := by
    obtain ⟨⟨root, hroot, -⟩, -⟩ := hfirst
    exact (List.getElem?_eq_some_iff.1 hroot).1
  have hdigest : blockDigests[k]? = some (recordsDigest ((s.entry K i).l2BlockStart.toNat + k)) := by
    have hall := hK.foldDigests_inj (hfold.trans hposted)
    have hlen := congrArg length hall
    rw [length_map, length_range'] at hlen
    rw [hall, getElem?_map, getElem?_range' (by omega)]
    simp
  obtain ⟨s', hresolve⟩ := h.exists_resolveChallenge hlast hc sender
  have hchallenge : ProofOracle.challengeBlock K V sender i k blockRoots blockDigests
      (some (honestValues rootBefore recordsDigest (s.entry K i) k bal)) proof s = .ok s' := by
    simp only [ProofOracle.challengeBlock, bind_eq_ok_iff, require_eq_ok_iff, ofOption_eq_ok_iff,
      exists_const]
    exact ⟨_, rfl, c, hc, hseq, hk, (), checkRefutation_of_firstWrong hpre hdigest hfirst, hproof, hresolve⟩
  exact ⟨s', enter_of_plainCall hsender hchallenge⟩

/-- **Accounting and progress of the proof oracle**, over every sequence of transactions by any
callers with any calls made from inside a `withdraw`, at any times:

* the ether of the contract, apart from what was forced in, is the bonds of the pending claims and
  what can be withdrawn;
* a claim is stored for an index exactly when the index is above the last finalized batch and not
  above the highest claimed one;
* the first pending claim starts from the state root, each other one from the final root of the claim
  before it;
* the state root is the last of a history of roots, each the final root of a claim whose window had
  passed or the post root of a verified batch proof from the root before;
* a pending claim that starts from the right root and whose block roots are not all right has a first
  wrong block, and an honest proof of it refutes the claim, while the highest claimed batch is not the
  last one that a `uint64` counts. -/
theorem accounting_and_progress (hK : K.CollisionFree) (genesis : H) (l1Batcher : Address)
    (challengeWindow : UInt64) (minBond : Nat) (events : List (ProofOracleEvent H P)) :
    let s := (run (ProofOracle.step K V)
      (initial l1Batcher genesis challengeWindow minBond) events).1
    (s.balance = ∑ i ∈ Finset.Ioc s.lastFinalizedBatch s.highestClaimedBatch, s.bondOf i
        + ∑ a, s.withdrawable a + s.forced)
      ∧ (∀ i, s.claims i ≠ none ↔ s.lastFinalizedBatch < i ∧ i ≤ s.highestClaimedBatch)
      ∧ ((∀ c, s.claims (s.lastFinalizedBatch + 1) = some c → c.preRoot = s.stateRoot)
        ∧ ∀ i c c', s.claims i = some c → s.claims (i + 1) = some c' → c'.preRoot = c.finalRoot)
      ∧ (s.stateRoot = rootAfter genesis s.history
        ∧ ∀ pre change post, s.history = pre ++ change :: post →
          Justified V s.challengeWindow (rootAfter genesis pre) change)
      ∧ (s.highestClaimedBatch + 1 < 2 ^ 64 →
        ∀ i c, s.claims i = some c → ∀ rootBefore recordsDigest,
          Posted K recordsDigest (s.entry K i) →
          c.preRoot = rootBefore (s.entry K i).l2BlockStart.toNat →
          ∀ blockRoots blockDigests, K.sequence blockRoots blockDigests = c.seqHash →
          (∃ k root, blockRoots[k]? = some root
            ∧ root ≠ rootBefore ((s.entry K i).l2BlockStart.toNat + k + 1)) →
          ∃ k, FirstWrong rootBefore (s.entry K i) blockRoots k ∧ ∀ bal proof sender,
            V.block (honestValues rootBefore recordsDigest (s.entry K i) k bal) proof = true →
            sender ≠ 0 →
            ∃ s', enter K V (sender, .challengeBlock i k blockRoots blockDigests
              (some (honestValues rootBefore recordsDigest (s.entry K i) k bal)) proof) s
                = .ok (.done s')) := by
  intro s
  have h : Sound K V genesis s := (sound_initial l1Batcher challengeWindow minBond).run events
  refine ⟨h.funds, h.stored, ⟨h.first_preRoot, h.next_preRoot⟩, ⟨h.root, h.justified⟩, ?_⟩
  intro hlast i c hc rootBefore recordsDigest hposted hpre blockRoots blockDigests hseq hwrong
  obtain ⟨k, hfirst⟩ := exists_firstWrong hwrong
  exact ⟨k, hfirst, fun bal proof sender hproof hsender =>
    h.challenge_succeeds hK hlast hc hposted hpre hseq hfirst hproof hsender⟩

/-! ## The last batch index -/

/-- Hashes by an injective numbering of their inputs. -/
def countHash : OracleHash Nat where
  zero := 0
  foldDigests digests := encode digests + 1
  sequence roots digests := encode (roots, digests)

theorem countHash_collisionFree : countHash.CollisionFree where
  foldDigests_inj h := encode_injective (succ_injective h)
  sequence_inj h := Prod.mk.inj (encode_injective h)

/-- A verifier that takes every proof. -/
def acceptAll : ProofVerifier Nat Unit := ⟨fun _ _ => true, fun _ _ => true⟩

/-- A batch of block 0 alone, whose records have the digest 7. -/
def blockZero : BatchEntry Nat := ⟨0, 0, countHash.foldDigests [7]⟩

/-- The claim of account 5 that the root after block 0 is 1, without a bond. -/
def wrongClaim : Claim Nat := ⟨5, 0, 0, 0, 1, countHash.sequence [1] [7]⟩

/-- The root 0 was proven to stay over block 0. -/
def keptRoot : RootChange Nat Unit := .proven ⟨0, 0, 0, 0, blockZero.recordsCommitment⟩ ()

/-- The oracle after `posted` batches of block 0, of which `proven` were proven to keep the root 0. -/
def sameBatches (posted proven : Nat) : ProofOracle Nat Unit where
  now := 0
  settlement := ⟨1, replicate posted blockZero⟩
  stateRoot := 0
  lastFinalizedBatch := proven
  highestClaimedBatch := proven
  challengeWindow := 10
  minBond := 0
  claims := fun _ => none
  withdrawable := fun _ => 0
  balance := 0
  forced := 0
  history := replicate proven keptRoot

/-- A transaction that is one call. -/
def single (sender : Address) (call : ProofOracleCall Nat Unit) : ProofOracleEvent Nat Unit :=
  .transaction (.call (sender, call) [] true)

/-- Some run from the root 0 ends in the state. -/
def Reached (s : ProofOracle Nat Unit) : Prop :=
  ∃ events, (run (step countHash acceptAll) (initial 1 0 10 0) events).1 = s

theorem Reached.call {s s' : ProofOracle Nat Unit} (h : Reached s) (sender : Address)
    (call : ProofOracleCall Nat Unit) (hsender : sender ≠ 0) (hok : plainCall countHash acceptAll sender call s = .ok s') :
    Reached s' := by
  obtain ⟨events, hrun⟩ := h
  have henter : enter countHash acceptAll (sender, call) s = .ok (.done s') :=
    enter_of_plainCall hsender hok
  refine ⟨events ++ [single sender call], ?_⟩
  rw [run_append, hrun]
  simp only [run_cons, run_nil, step, single, exec, contract, henter]

theorem sameBatches_entry (posted proven : Nat) (hpos : i ≠ 0) (hle : i ≤ posted) :
    (sameBatches posted proven).entry countHash i = blockZero := by
  rw [entry, if_neg hpos]
  show ((replicate posted blockZero)[i - 1]?).getD _ = _
  rw [getElem?_replicate, if_pos (by omega)]
  rfl

theorem postBatch_sameBatches {posted proven : Nat} (h : posted + 1 < 2 ^ 64) :
    postBatch 1 posted [0] 0 0 blockZero.recordsCommitment (sameBatches posted proven)
      = .ok (sameBatches (posted + 1) proven) := by
  simp only [postBatch, bind_eq_ok_iff, require_eq_ok_iff, pure_eq_ok_iff, exists_const]
  refine ⟨rfl, by simp [sameBatches], by simp, le_rfl, posted + 1, if_pos h, ?_⟩
  show { sameBatches posted proven with
    settlement := ⟨1, replicate posted blockZero ++ [blockZero]⟩ } = _
  rw [← replicate_succ']
  rfl

variable {n : Nat}

theorem submitBatchProof_sameBatches (h : n + 1 < 2 ^ 64) :
    submitBatchProof countHash acceptAll (n + 1) (some ⟨0, 0, 0, 0, blockZero.recordsCommitment⟩) ()
      (sameBatches (n + 1) n) = .ok (sameBatches (n + 1) (n + 1)) := by
  have hentry : (sameBatches (n + 1) n).entry countHash (n + 1) = blockZero :=
    sameBatches_entry (n + 1) n (by omega) le_rfl
  simp only [submitBatchProof, bind_eq_ok_iff, require_eq_ok_iff, ofOption_eq_ok_iff,
    pure_eq_ok_iff, exists_const, hentry]
  refine ⟨_, rfl, n + 1, if_pos h, rfl, rfl, succ_ne_zero _, ⟨rfl, rfl⟩, rfl, rfl, rfl, ?_⟩
  show { sameBatches (n + 1) n with
    lastFinalizedBatch := n + 1
    highestClaimedBatch := n + 1
    history := replicate n keptRoot ++ [keptRoot] } = _
  rw [← replicate_succ']
  rfl

/-- Every number of batches below `2 ^ 64` can be posted and proven. -/
theorem reached_sameBatches (h : n < 2 ^ 64) : Reached (sameBatches n n) := by
  induction n with
  | zero => exact ⟨[], rfl⟩
  | succ n ih =>
    have hposted : Reached (sameBatches (n + 1) n) :=
      (ih (by omega)).call 1 (.postBatch ..) (by decide) (postBatch_sameBatches h)
    exact hposted.call 1 (.submitBatchProof ..) (by decide) (submitBatchProof_sameBatches h)

theorem claimBatch_sameBatches (h : n + 1 < 2 ^ 64) :
    claimBatch countHash 5 0 (n + 1) [1] [7] (sameBatches (n + 1) n)
      = .ok ((sameBatches (n + 1) n).addClaim wrongClaim) := by
  have hentry : (sameBatches (n + 1) n).entry countHash (n + 1) = blockZero :=
    sameBatches_entry (n + 1) n (by omega) le_rfl
  simp only [claimBatch, bind_eq_ok_iff, require_eq_ok_iff, ofOption_eq_ok_iff,
    pure_eq_ok_iff, exists_const, hentry]
  refine ⟨n + 1, if_pos h, rfl, ⟨le_rfl, by decide⟩, succ_ne_zero _, 1, rfl, ⟨rfl, rfl⟩, rfl, n + 1, if_pos h,
    1, rfl, by simp [sameBatches], ?_⟩
  rw [if_pos rfl]
  rfl

/-- The oracle with a wrong claim for the batch after the `n` proven ones. -/
def wronglyClaimed (n : Nat) : ProofOracle Nat Unit := (sameBatches (n + 1) n).addClaim wrongClaim

theorem wronglyClaimed_entry (n : Nat) : (wronglyClaimed n).entry countHash (n + 1) = blockZero :=
  sameBatches_entry (n + 1) n (by omega) le_rfl

theorem wronglyClaimed_claims (n : Nat) : (wronglyClaimed n).claims (n + 1) = some wrongClaim :=
  addClaim_claims_new _ wrongClaim

theorem firstWrong_blockZero : FirstWrong (fun _ => 0) blockZero [1] 0 :=
  ⟨⟨1, rfl, by decide⟩, fun j _ hj => absurd hj (Nat.not_lt_zero j)⟩

theorem reached_wronglyClaimed (h : n + 1 < 2 ^ 64) : Reached (wronglyClaimed n) := by
  have hposted : Reached (sameBatches (n + 1) n) :=
    (reached_sameBatches (by omega)).call 1 (.postBatch ..) (by decide) (postBatch_sameBatches h)
  exact hposted.call 5 (.claimBatch ..) (by decide) (claimBatch_sameBatches h)

/-- At the highest index that fits a `uint64`, the counter of the loop overflows. -/
theorem challengeBlock_wronglyClaimed (h : 2 ^ 64 ≤ n + 2) :
    challengeBlock countHash acceptAll 6 (n + 1) 0 [1] [7]
      (some (honestValues (fun _ => 0) (fun _ => 7) blockZero 0 0)) () (wronglyClaimed n)
        = .error .panicked := by
  have hrefutes : checkRefutation countHash wrongClaim.preRoot (n + 1) 0 [1] [7]
      (honestValues (fun _ => 0) (fun _ => 7) blockZero 0 0) (wronglyClaimed n) = .ok () := by
    have hpasses : checkRefutation countHash wrongClaim.preRoot (n + 1) 0 [1] [7]
        (honestValues (fun _ => 0) (fun _ => 7) ((wronglyClaimed n).entry countHash (n + 1)) 0 0)
        (wronglyClaimed n) = .ok () :=
      checkRefutation_of_firstWrong rfl rfl (by rw [wronglyClaimed_entry]; exact firstWrong_blockZero)
    rwa [wronglyClaimed_entry] at hpasses
  have hcredit : ∃ s', (wronglyClaimed n).credit 6 wrongClaim.bond = .ok s' :=
    ⟨_, if_pos (show (0 : Nat) + 0 < 2 ^ 256 by decide)⟩
  have hover : checkedSucc (n + 1) = .error .panicked := if_neg (by omega)
  obtain ⟨credited, hcredit⟩ := hcredit
  have hresolve : (wronglyClaimed n).resolveChallenge 6 (n + 1) wrongClaim = .error .panicked := by
    refine (bind_of_eq_ok hcredit _).trans ?_
    rw [hover]
    rfl
  refine (bind_of_eq_ok (ofOption_eq_ok_iff.2 rfl) _).trans ?_
  refine (bind_of_eq_ok (ofOption_eq_ok_iff.2 (wronglyClaimed_claims n)) _).trans ?_
  refine (bind_of_eq_ok (a := ()) (require_eq_ok_iff.2 rfl) _).trans ?_
  refine (bind_of_eq_ok (a := ()) (require_eq_ok_iff.2 (by decide)) _).trans ?_
  refine (bind_of_eq_ok hrefutes _).trans ?_
  refine (bind_of_eq_ok (a := ()) (require_eq_ok_iff.2 rfl) _).trans ?_
  exact hresolve

/-- The wrong claim for the first batch is refuted at its first wrong block. -/
theorem accounting_and_progress_of_wrongClaim :
    ∃ events, let s := (run (step countHash acceptAll) (initial 1 0 10 0) events).1
      s.claims 1 = some wrongClaim
        ∧ ∃ k s', enter countHash acceptAll (6, .challengeBlock 1 k [1] [7]
          (some (honestValues (fun _ => 0) (fun _ => 7) (s.entry countHash 1) k 0)) ()) s
            = .ok (.done s') := by
  obtain ⟨events, hrun⟩ := reached_wronglyClaimed (n := 0) (by decide)
  have hsound := accounting_and_progress (V := acceptAll) countHash_collisionFree 0 1 10 0 events
  rw [hrun] at hsound
  obtain ⟨k, -, hchallenge⟩ := hsound.2.2.2.2 (by decide) 1 wrongClaim (wronglyClaimed_claims 0)
    (fun _ => 0) (fun _ => 7) (by rw [wronglyClaimed_entry]; rfl) rfl [1] [7] rfl ⟨0, 1, rfl, by decide⟩
  refine ⟨events, ?_⟩
  rw [hrun]
  exact ⟨wronglyClaimed_claims 0, k, hchallenge 0 () 6 rfl (by decide)⟩

/-- **A claim for the last index cannot be challenged.** In a run in which every batch below the last
index `i = 2 ^ 64 - 1` is posted and proven, account 5 claims a wrong root for the batch `i`. Its pre
root is right and the honest proof of its first wrong block verifies, and the challenge reverts. -/
theorem last_index_is_not_challengeable : ∃ i, i + 1 = 2 ^ 64 ∧ ∃ events c,
      let s := (run (step countHash acceptAll) (initial 1 0 10 0) events).1
      s.claims i = some c ∧ Posted countHash (fun _ => 7) (s.entry countHash i) ∧ c.preRoot = 0
        ∧ countHash.sequence [1] [7] = c.seqHash
        ∧ FirstWrong (fun _ => 0) (s.entry countHash i) [1] 0
        ∧ acceptAll.block (honestValues (fun _ => 0) (fun _ => 7) (s.entry countHash i) 0 0) () = true
        ∧ plainCall countHash acceptAll 6 (.challengeBlock i 0 [1] [7]
          (some (honestValues (fun _ => 0) (fun _ => 7) (s.entry countHash i) 0 0)) ()) s
            = .error .panicked := by
  obtain ⟨n, hn⟩ : ∃ n, n + 2 = 2 ^ 64 := ⟨2 ^ 64 - 2, by decide⟩
  obtain ⟨events, hrun⟩ := reached_wronglyClaimed (n := n) (by omega)
  refine ⟨n + 1, by omega, events, wrongClaim, ?_⟩
  rw [hrun]
  dsimp only
  rw [wronglyClaimed_entry]
  exact ⟨wronglyClaimed_claims n, rfl, rfl, rfl, firstWrong_blockZero, rfl,
    challengeBlock_wronglyClaimed (by omega)⟩

end ProofOracle

end Kardamom.L1
