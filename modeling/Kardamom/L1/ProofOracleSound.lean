import Kardamom.L1.ProofOracle
import Mathlib.Algebra.BigOperators.Intervals
import Mathlib.Algebra.Order.BigOperators.Group.Finset
import Mathlib.Data.FinEnum

/-!
# Accounting and progress of the proof oracle

`ProofOracle.Sound` ties the three counters, the claims, the ether and the history of roots together;
entering any call keeps it, so it holds after every sequence of transactions with any calls made from
inside a `withdraw`. From it follow the accounting, the shape of the pending claims and that every
wrong claim on a right root can be refuted (`ProofOracle.accounting_and_progress`), up to the last
batch index that a `uint64` can hold (`ProofOracle.last_index_is_not_challengeable`).
-/

namespace Kardamom.L1

open Mpt (Address)
open Except Function Finset Option

/-- Changing one value of a finite family changes its sum by the difference. -/
theorem sum_update_add {ι : Type} [Fintype ι] [DecidableEq ι] (f : ι → Nat) (k : ι) (b : Nat) :
    ∑ a, update f k b a + f k = ∑ a, f a + b := by
  have hold : ∑ a, f a = f k + ∑ a ∈ univ \ {k}, f a := by
    have hsame := sum_update_of_mem (mem_univ k) f (f k)
    rwa [update_eq_self] at hsame
  have hnew := sum_update_of_mem (mem_univ k) f b
  omega

namespace ProofOracle

variable {H P : Type}

section

variable (s : ProofOracle H P)

/-- The bond of the claim stored for an index. -/
def bondOf (i : Nat) : Nat := ((s.claims i).map (·.bond)).getD 0

/-- The bonds of the claims stored for the indices above `a`, up to `b`. -/
def bondsIn (a b : Nat) : Nat := ∑ i ∈ Ioc a b, s.bondOf i

/-- What all accounts can withdraw. -/
def refunds : Nat := ∑ a, s.withdrawable a

end

/-! ## The bookkeeping of a refund and of the cancelled claims -/

variable {c : Claim H} {a b : Nat}

section Refund

variable {s s' : ProofOracle H P} {account : Address} {amount i count : Nat}

/-- A refund goes through while everything that can be withdrawn fits a word. -/
theorem exists_credit (h : s.refunds + amount < 2 ^ 256) : ∃ s', s.credit account amount = .ok s' := by
  have hle : s.withdrawable account ≤ s.refunds :=
    single_le_sum (fun _ _ => Nat.zero_le _) (mem_univ account)
  exact ⟨_, if_pos (by omega)⟩

@[simp] theorem deleteClaim_claims_self : (s.deleteClaim i).claims i = none := update_self ..

theorem deleteClaim_claims_of_ne {j : Nat} (h : j ≠ i) : (s.deleteClaim i).claims j = s.claims j :=
  update_of_ne h ..

@[simp] theorem bondsIn_self (a : Nat) : s.bondsIn a a = 0 := by simp [bondsIn]

theorem bondsIn_succ_left (h : a < b) : s.bondsIn a b = s.bondOf (a + 1) + s.bondsIn (a + 1) b := by
  unfold bondsIn
  rw [← sum_Ioc_consecutive s.bondOf (Nat.le_succ a) h]
  simp

theorem bondsIn_succ_right (h : a ≤ b) : s.bondsIn a (b + 1) = s.bondsIn a b + s.bondOf (b + 1) :=
  sum_Ioc_succ_top h s.bondOf

theorem bondsIn_append {a b c : Nat} (hab : a ≤ b) (hbc : b ≤ c) :
    s.bondsIn a b + s.bondsIn b c = s.bondsIn a c :=
  sum_Ioc_consecutive s.bondOf hab hbc

theorem bondsIn_congr (h : ∀ j, a < j → j ≤ b → s'.claims j = s.claims j) : s'.bondsIn a b = s.bondsIn a b := by
  refine sum_congr rfl fun j hj => ?_
  rw [mem_Ioc] at hj
  rw [bondOf, h j hj.1 hj.2, bondOf]

/-- The claim of an index among the others. -/
theorem bondsIn_split (ha : a < i) (hb : i ≤ b) :
    s.bondsIn a b = s.bondsIn a (i - 1) + s.bondOf i + s.bondsIn i b := by
  have hhead := bondsIn_succ_left (s := s) (show i - 1 < b by omega)
  rw [Nat.sub_add_cancel (by omega)] at hhead
  rw [← bondsIn_append (show a ≤ i - 1 by omega) (show i - 1 ≤ b by omega), hhead, Nat.add_assoc]

theorem bondOf_eq (h : s.claims i = some c) : s.bondOf i = c.bond := by
  rw [bondOf, h]
  rfl

/-- A refund that goes through, and what is left when a claim is deleted with it: the amount can be
withdrawn, and the bonds after the claim stay. -/
theorem credit_eq_ok (h : s.credit account amount = .ok s') (i : Nat) :
    ∃ w : Address → Nat, s' = { s with withdrawable := w }
      ∧ (s'.deleteClaim i).refunds = s.refunds + amount
      ∧ ∀ b, (s'.deleteClaim i).bondsIn i b = s.bondsIn i b := by
  unfold credit at h
  split at h
  · obtain rfl := ok.inj h
    refine ⟨_, rfl, ?_, fun b => bondsIn_congr fun _ hj _ => deleteClaim_claims_of_ne hj.ne'⟩
    have hsum := sum_update_add s.withdrawable account (s.withdrawable account + amount)
    show ∑ a, update s.withdrawable account (s.withdrawable account + amount) a
      = ∑ a, s.withdrawable a + amount
    omega
  · cases h

/-- What the loop of a challenge does: the claims it passes are gone, and their bonds can be
withdrawn. -/
theorem cancelFrom_eq_ok (h : cancelFrom count (i + 1) s = .ok s') :
    ∃ (claims : Nat → Option (Claim H)) (w : Address → Nat),
      s' = { s with claims := claims, withdrawable := w }
      ∧ (∀ j, claims j = if i < j ∧ j ≤ i + count then none else s.claims j)
      ∧ ∑ a, w a = s.refunds + s.bondsIn i (i + count) := by
  induction count generalizing i s with
  | zero =>
    obtain rfl := ok.inj h
    refine ⟨_, _, rfl, fun j => ?_, by simp [refunds]⟩
    rw [if_neg (by omega)]
  | succ count ih =>
    have hrange : i + (count + 1) = i + 1 + count := by omega
    have hsplit : s.bondsIn i (i + 1 + count) = s.bondOf (i + 1) + s.bondsIn (i + 1) (i + 1 + count) :=
      bondsIn_succ_left (by omega)
    unfold cancelFrom at h
    rw [hrange]
    split at h
    · rename_i hnone
      obtain ⟨claims, w, rfl, hclaims, hsum⟩ := ih h
      refine ⟨claims, w, rfl, fun j => ?_, ?_⟩
      · rw [hclaims j]
        by_cases hj : j = i + 1
        · subst hj
          rw [if_neg (by omega), if_pos (by omega), hnone]
        · exact if_congr (by omega) rfl rfl
      · have hzero : s.bondOf (i + 1) = 0 := by rw [bondOf, hnone]; rfl
        omega
    · rename_i dep hdep
      obtain ⟨credited, hcredit, h⟩ := bind_eq_ok_iff.1 h
      obtain ⟨w₁, rfl, hrefund, hrest⟩ := credit_eq_ok hcredit (i + 1)
      obtain ⟨claims, w, rfl, hclaims, hsum⟩ := ih h
      refine ⟨claims, w, rfl, fun j => ?_, ?_⟩
      · rw [hclaims j]
        by_cases hj : j = i + 1
        · subst hj
          rw [if_neg (by omega), if_pos (by omega), deleteClaim_claims_self]
        · rw [deleteClaim_claims_of_ne hj]
          exact if_congr (by omega) rfl rfl
      · have hbond := bondOf_eq hdep
        rw [hrefund, hrest] at hsum
        omega

/-- The loop goes through while everything that can be withdrawn in the end fits a word. -/
theorem exists_cancelFrom (h : s.refunds + s.bondsIn i (i + count) < 2 ^ 256) :
    ∃ s', cancelFrom count (i + 1) s = .ok s' := by
  induction count generalizing i s with
  | zero => exact ⟨s, rfl⟩
  | succ count ih =>
    have hrange : i + (count + 1) = i + 1 + count := by omega
    have hsplit : s.bondsIn i (i + 1 + count) = s.bondOf (i + 1) + s.bondsIn (i + 1) (i + 1 + count) :=
      bondsIn_succ_left (by omega)
    rw [hrange] at h
    unfold cancelFrom
    split
    · exact ih (by omega)
    · rename_i dep hdep
      have hbond := bondOf_eq hdep
      obtain ⟨credited, hcredit⟩ : ∃ s', s.credit dep.claimer dep.bond = .ok s' :=
        exists_credit (by omega)
      obtain ⟨w₁, -, hrefund, hrest⟩ := credit_eq_ok hcredit (i + 1)
      obtain ⟨s', hs'⟩ := ih (s := credited.deleteClaim (i + 1)) (i := i + 1)
        (by rw [hrefund, hrest]; omega)
      exact ⟨s', bind_eq_ok_iff.2 ⟨_, hcredit, hs'⟩⟩

end Refund

/-! ## The invariant -/

/-- The root that a change leads to. -/
def rootOf : RootChange H P → H
  | .finalized c _ => c.finalRoot
  | .proven v _ => v.postRoot

/-- The root after a history. -/
def rootAfter (genesis : H) (history : List (RootChange H P)) : H :=
  (history.getLast?.map rootOf).getD genesis

@[simp] theorem rootAfter_snoc (genesis : H) (history : List (RootChange H P))
    (change : RootChange H P) : rootAfter genesis (history ++ [change]) = rootOf change := by
  simp [rootAfter]

/-- What a change rests on: the window of a claim passed, or a batch proof from the root before. -/
def Justified (V : ProofVerifier H P) (window : UInt64) (before : H) : RootChange H P → Prop
  | .finalized c now => c.claimedAt.toNat + window.toNat ≤ now
  | .proven v proof => V.batch v proof = true ∧ v.preRoot = before

/-- The claim is about the batch: its arrays have one entry per block, the digests fold to the
commitment, and its final root is the last root. -/
def Follows (K : OracleHash H) (e : BatchEntry H) (c : Claim H) : Prop :=
  e.recordsCommitment ≠ K.zero ∧ ∃ blockRoots blockDigests blocks,
    c.seqHash = K.sequence blockRoots blockDigests ∧ blocksInBatch e = .ok blocks
      ∧ blockRoots.length = blocks
      ∧ blockDigests.length = blocks
      ∧ K.foldDigests blockDigests = e.recordsCommitment
      ∧ blockRoots.getLast? = some c.finalRoot

structure Sound (K : OracleHash H) (V : ProofVerifier H P) (genesis : H) (s : ProofOracle H P) :
    Prop where
  last_le : s.lastFinalizedBatch ≤ s.highestClaimedBatch
  highest_lt : s.highestClaimedBatch < 2 ^ 64
  funds : s.balance = s.bondsIn s.lastFinalizedBatch s.highestClaimedBatch + s.refunds + s.forced
  balance_lt : s.balance < 2 ^ 256
  stored : ∀ i, s.claims i ≠ none ↔ s.lastFinalizedBatch < i ∧ i ≤ s.highestClaimedBatch
  first_preRoot : ∀ c, s.claims (s.lastFinalizedBatch + 1) = some c → c.preRoot = s.stateRoot
  next_preRoot : ∀ i c c', s.claims i = some c → s.claims (i + 1) = some c' →
    c'.preRoot = c.finalRoot
  follows : ∀ i c, s.claims i = some c → Follows K (s.entry K i) c
  root : s.stateRoot = rootAfter genesis s.history
  justified : ∀ pre change post, s.history = pre ++ change :: post →
    Justified V s.challengeWindow (rootAfter genesis pre) change

variable {K : OracleHash H} {V : ProofVerifier H P} {genesis : H} {s s' : ProofOracle H P}

theorem sound_initial (l1Batcher : Address) (challengeWindow : UInt64) (minBond : Nat) :
    Sound K V genesis (initial l1Batcher genesis challengeWindow minBond) where
  last_le := le_rfl
  highest_lt := by simp [initial]
  funds := by simp [initial, refunds]
  balance_lt := by simp [initial]
  stored i := by
    simp only [initial, ne_eq, not_true_eq_false, false_iff]
    omega
  first_preRoot c hc := by cases hc
  next_preRoot i c c' hc := by cases hc
  follows i c hc := by cases hc
  root := rfl
  justified pre change post h := by simp [initial] at h

theorem checkedSucc_eq_ok {n m : Nat} (h : checkedSucc n = .ok m) : m = n + 1 ∧ m < 2 ^ 64 := by
  unfold checkedSucc at h
  split at h
  · obtain rfl := ok.inj h
    exact ⟨rfl, by assumption⟩
  · cases h

variable (h : Sound K V genesis s)
include h

/-- An index above the last one has no claim. -/
theorem Sound.claims_eq_none {i : Nat}
    (hi : ¬ (s.lastFinalizedBatch < i ∧ i ≤ s.highestClaimedBatch)) : s.claims i = none :=
  not_not.1 fun hne => hi ((h.stored i).1 hne)

/-- What one more change of the root leaves. -/
theorem Sound.justified_snoc {change : RootChange H P}
    (hnew : Justified V s.challengeWindow s.stateRoot change) {pre post : List (RootChange H P)}
    {old : RootChange H P} (hsplit : s.history ++ [change] = pre ++ old :: post) :
    Justified V s.challengeWindow (rootAfter genesis pre) old := by
  rcases Machine.snoc_eq_append_cons hsplit with ⟨rfl, rfl, -⟩ | ⟨post', -, hold⟩
  · rw [← h.root]
    exact hnew
  · exact h.justified pre old post' hold

/-! ## Every call keeps it -/

omit h in
/-- What a claim that goes through stores. -/
def addClaim (s : ProofOracle H P) (c : Claim H) : ProofOracle H P :=
  { s with
    claims := update s.claims (s.highestClaimedBatch + 1) (some c)
    highestClaimedBatch := s.highestClaimedBatch + 1
    balance := s.balance + c.bond }

omit h in
theorem addClaim_claims_new (s : ProofOracle H P) (c : Claim H) :
    (s.addClaim c).claims (s.highestClaimedBatch + 1) = some c :=
  update_self ..

omit h in
theorem addClaim_claims_of_ne {i : Nat} (hi : i ≠ s.highestClaimedBatch + 1) :
    (s.addClaim c).claims i = s.claims i :=
  update_of_ne hi ..

omit h in
/-- The root that a new claim starts from. -/
def nextPreRoot (K : OracleHash H) (s : ProofOracle H P) : H :=
  if s.highestClaimedBatch = s.lastFinalizedBatch then s.stateRoot
  else ((s.claims s.highestClaimedBatch).map (·.finalRoot)).getD K.zero

theorem Sound.addClaim (hlt : s.highestClaimedBatch + 1 < 2 ^ 64) (hfunds : s.balance + c.bond < 2 ^ 256)
    (hpre : c.preRoot = s.nextPreRoot K)
    (hfollows : Follows K (s.entry K (s.highestClaimedBatch + 1)) c) :
    Sound K V genesis (s.addClaim c) := by
  have hle := h.last_le
  refine ⟨?_, hlt, ?_, hfunds, fun i => ?_, fun c' hc' => ?_, fun i c₁ c₂ hc₁ hc₂ => ?_,
    fun i c' hc' => ?_, h.root, h.justified⟩
  · show s.lastFinalizedBatch ≤ s.highestClaimedBatch + 1
    omega
  · have hold : (s.addClaim c).bondsIn s.lastFinalizedBatch s.highestClaimedBatch
        = s.bondsIn s.lastFinalizedBatch s.highestClaimedBatch :=
      bondsIn_congr fun j _ hj => addClaim_claims_of_ne (by omega)
    have hbond := bondOf_eq (s.addClaim_claims_new c)
    have hbonds : (s.addClaim c).bondsIn s.lastFinalizedBatch (s.highestClaimedBatch + 1)
        = s.bondsIn s.lastFinalizedBatch s.highestClaimedBatch + c.bond := by
      rw [bondsIn_succ_right hle, hold, hbond]
    show s.balance + c.bond
      = (s.addClaim c).bondsIn s.lastFinalizedBatch (s.highestClaimedBatch + 1) + s.refunds + s.forced
    rw [h.funds]
    omega
  · show (s.addClaim c).claims i ≠ none ↔ s.lastFinalizedBatch < i ∧ i ≤ s.highestClaimedBatch + 1
    by_cases hi : i = s.highestClaimedBatch + 1
    · subst hi
      rw [addClaim_claims_new]
      simp only [ne_eq, reduceCtorEq, not_false_eq_true, true_iff]
      omega
    · rw [addClaim_claims_of_ne hi, h.stored i]
      omega
  · change (s.addClaim c).claims (s.lastFinalizedBatch + 1) = some c' at hc'
    show c'.preRoot = s.stateRoot
    by_cases hi : s.lastFinalizedBatch + 1 = s.highestClaimedBatch + 1
    · rw [hi, addClaim_claims_new, some.injEq] at hc'
      rw [← hc', hpre, nextPreRoot, if_pos (by omega)]
    · rw [addClaim_claims_of_ne hi] at hc'
      exact h.first_preRoot c' hc'
  · by_cases hi : i + 1 = s.highestClaimedBatch + 1
    · obtain rfl : i = s.highestClaimedBatch := by omega
      rw [addClaim_claims_new, some.injEq] at hc₂
      rw [addClaim_claims_of_ne (by omega)] at hc₁
      have hpending := (h.stored s.highestClaimedBatch).1 (by rw [hc₁]; simp)
      rw [← hc₂, hpre, nextPreRoot, if_neg (by omega), hc₁]
      rfl
    · rw [addClaim_claims_of_ne hi] at hc₂
      have hpending := (h.stored (i + 1)).1 (by rw [hc₂]; simp)
      rw [addClaim_claims_of_ne (by omega)] at hc₁
      exact h.next_preRoot i c₁ c₂ hc₁ hc₂
  · by_cases hi : i = s.highestClaimedBatch + 1
    · subst hi
      rw [addClaim_claims_new, some.injEq] at hc'
      exact hc' ▸ hfollows
    · rw [addClaim_claims_of_ne hi] at hc'
      exact h.follows i c' hc'

variable {sender : Address} {blockDigests : List H} {blockRoots : List H}

theorem Sound.claimBatch [DecidableEq H] {value batchIndex : Nat}
    (hok : claimBatch K sender value batchIndex blockRoots blockDigests s = .ok s') :
    Sound K V genesis s' := by
  simp only [ProofOracle.claimBatch, bind_eq_ok_iff, require_eq_ok_iff, ofOption_eq_ok_iff,
    pure_eq_ok_iff, exists_const] at hok
  obtain ⟨next, hnext, hindex, -, hknown, blocks, hblocks, hlengths, hfold, first, hfirst, finalRoot, hfinal,
    hfunds, rfl⟩ := hok
  obtain ⟨rfl, hlt⟩ := checkedSucc_eq_ok hnext
  obtain ⟨rfl, -⟩ := checkedSucc_eq_ok hfirst
  subst hindex
  refine h.addClaim hlt hfunds ?_ ⟨hknown, blockRoots, blockDigests, blocks, rfl, hblocks,
    hlengths.1, hlengths.2, hfold, hfinal⟩
  exact if_congr (by omega) rfl rfl

/-- The claims that are left when both ends of the pending ones move inwards. -/
theorem Sound.narrow (claims : Nat → Option (Claim H))
    (ha : s.lastFinalizedBatch ≤ a) (hb : b ≤ s.highestClaimedBatch)
    (hkept : ∀ j, a < j → j ≤ b → claims j = s.claims j) (hgone : ∀ j, ¬ (a < j ∧ j ≤ b) → claims j = none) :
    (∀ i, claims i ≠ none ↔ a < i ∧ i ≤ b) ∧ ∀ i c, claims i = some c → s.claims i = some c := by
  refine ⟨fun i => ?_, fun i c hc => ?_⟩
  · by_cases hi : a < i ∧ i ≤ b
    · rw [hkept i hi.1 hi.2, h.stored i]
      omega
    · simp [hgone i hi, hi]
  · by_cases hi : a < i ∧ i ≤ b
    · rwa [hkept i hi.1 hi.2] at hc
    · rw [hgone i hi] at hc
      cases hc

variable {batchIndex : Nat}

theorem Sound.finalizeBatch (hok : finalizeBatch batchIndex s = .ok s') : Sound K V genesis s' := by
  simp only [ProofOracle.finalizeBatch, bind_eq_ok_iff, require_eq_ok_iff, ofOption_eq_ok_iff,
    pure_eq_ok_iff, exists_const] at hok
  obtain ⟨first, hfirst, hindex, c, hc, hwindow, credited, hcredit, rfl⟩ := hok
  obtain ⟨rfl, -⟩ := checkedSucc_eq_ok hfirst
  subst hindex
  obtain ⟨w, rfl, hrefund, hbonds⟩ := credit_eq_ok hcredit (s.lastFinalizedBatch + 1)
  obtain ⟨hlast, hpending⟩ := (h.stored (s.lastFinalizedBatch + 1)).1 (by rw [hc]; simp)
  have hrest : ∀ j, j ≠ s.lastFinalizedBatch + 1 →
      (s.deleteClaim (s.lastFinalizedBatch + 1)).claims j = s.claims j := fun j => deleteClaim_claims_of_ne
  obtain ⟨hstored, hsub⟩ := h.narrow (s.deleteClaim (s.lastFinalizedBatch + 1)).claims
    (Nat.le_succ _) le_rfl (fun j hj _ => hrest j (by omega)) fun j hj => by
      by_cases hi : j = s.lastFinalizedBatch + 1
      · rw [hi, deleteClaim_claims_self]
      · rw [hrest j hi, h.claims_eq_none (by omega)]
  refine ⟨hpending, h.highest_lt, ?_, h.balance_lt, hstored, fun c' hc' => h.next_preRoot _ c c' hc (hsub _ _ hc'),
    fun i c₁ c₂ hc₁ hc₂ => h.next_preRoot i c₁ c₂ (hsub _ _ hc₁) (hsub _ _ hc₂),
    fun i c' hc' => h.follows i c' (hsub _ _ hc'), by simp [rootOf], ?_⟩
  · -- the bond of the claim moves to what its claimer can withdraw
    have hbond := bondOf_eq hc
    have hsplit := bondsIn_succ_left (s := s) hpending
    have hfunds := h.funds
    show s.balance = (deleteClaim { s with withdrawable := w } (s.lastFinalizedBatch + 1)).bondsIn
      (s.lastFinalizedBatch + 1) s.highestClaimedBatch
      + (deleteClaim { s with withdrawable := w } (s.lastFinalizedBatch + 1)).refunds + s.forced
    rw [hrefund, hbonds]
    omega
  · have hnew : Justified V s.challengeWindow s.stateRoot (.finalized c s.now) := hwindow
    exact fun pre change post hsplit => h.justified_snoc hnew hsplit

omit h in
/-- What a won challenge does: the claim and everything after it are gone, its bond is the
challenger's, and the others are refunded. -/
theorem resolveChallenge_eq_ok (hle : batchIndex ≤ s.highestClaimedBatch)
    (hok : s.resolveChallenge sender batchIndex c = .ok s') :
    ∃ (claims : Nat → Option (Claim H)) (w : Address → Nat), s' = { s with
        claims := claims, withdrawable := w, highestClaimedBatch := batchIndex - 1 }
      ∧ batchIndex ≠ 0
      ∧ (∀ j, claims j = if batchIndex ≤ j ∧ j ≤ s.highestClaimedBatch then none else s.claims j)
      ∧ ∑ a, w a = s.refunds + c.bond + s.bondsIn batchIndex s.highestClaimedBatch := by
  simp only [resolveChallenge, bind_eq_ok_iff, require_eq_ok_iff, pure_eq_ok_iff,
    exists_const] at hok
  obtain ⟨credited, hcredit, first, hfirst, -, cancelled, hcancel, hpos, rfl⟩ := hok
  obtain ⟨rfl, -⟩ := checkedSucc_eq_ok hfirst
  obtain ⟨w₁, rfl, hrefund, hrest⟩ := credit_eq_ok hcredit batchIndex
  obtain ⟨claims, w, rfl, hclaims, hsum⟩ := cancelFrom_eq_ok hcancel
  have hend : batchIndex + (s.highestClaimedBatch - batchIndex) = s.highestClaimedBatch := by omega
  rw [hend] at hsum hclaims
  refine ⟨claims, w, rfl, hpos, fun j => ?_, by rw [hsum, hrefund, hrest]⟩
  rw [hclaims j]
  by_cases hj : j = batchIndex
  · subst hj
    rw [if_neg (by omega), if_pos ⟨le_rfl, hle⟩, deleteClaim_claims_self]
  · rw [deleteClaim_claims_of_ne hj]
    exact if_congr (by omega) rfl rfl

theorem Sound.resolveChallenge (hc : s.claims batchIndex = some c)
    (hok : s.resolveChallenge sender batchIndex c = .ok s') : Sound K V genesis s' := by
  obtain ⟨hlast, hpending⟩ := (h.stored batchIndex).1 (by rw [hc]; simp)
  obtain ⟨claims, w, rfl, hpos, hclaims, hsum⟩ := resolveChallenge_eq_ok hpending hok
  have hlt := h.highest_lt
  have hkept : ∀ j, j < batchIndex → claims j = s.claims j := fun j hj => by rw [hclaims j, if_neg (by omega)]
  obtain ⟨hstored, hsub⟩ := h.narrow claims (b := batchIndex - 1) le_rfl (by omega)
    (fun j _ hj => hkept j (by omega)) fun j hj => by
      rw [hclaims j]
      split
      · rfl
      · exact h.claims_eq_none (by omega)
  refine ⟨?_, ?_, ?_, h.balance_lt, hstored, fun c' hc' => h.first_preRoot c' (hsub _ _ hc'),
    fun i c₁ c₂ hc₁ hc₂ => h.next_preRoot i c₁ c₂ (hsub _ _ hc₁) (hsub _ _ hc₂),
    fun i c' hc' => h.follows i c' (hsub _ _ hc'), h.root, h.justified⟩
  · show s.lastFinalizedBatch ≤ batchIndex - 1
    omega
  · show batchIndex - 1 < 2 ^ 64
    omega
  · have hbond := bondOf_eq hc
    have hbonds : bondsIn { s with claims := claims } s.lastFinalizedBatch (batchIndex - 1)
        = s.bondsIn s.lastFinalizedBatch (batchIndex - 1) :=
      bondsIn_congr fun j _ hj => hkept j (by omega)
    have hsplit := bondsIn_split (s := s) hlast hpending
    have hfunds := h.funds
    show s.balance = bondsIn { s with claims := claims } s.lastFinalizedBatch (batchIndex - 1)
      + ∑ a, w a + s.forced
    omega

theorem Sound.challengeBlock [DecidableEq H] {batchIndex blockOffset : Nat}
    {publicValues : Option (BlockValues H)} {proof : P}
    (hok : challengeBlock K V sender batchIndex blockOffset blockRoots blockDigests publicValues proof s
      = .ok s') : Sound K V genesis s' := by
  simp only [ProofOracle.challengeBlock, bind_eq_ok_iff, require_eq_ok_iff, ofOption_eq_ok_iff,
    exists_const] at hok
  obtain ⟨v, -, c, hc, -, -, _, -, -, hresolve⟩ := hok
  exact h.resolveChallenge hc hresolve

theorem Sound.withdraw (hok : withdraw sender s = .ok s') : Sound K V genesis s' := by
  simp only [ProofOracle.withdraw, bind_eq_ok_iff, require_eq_ok_iff, pure_eq_ok_iff,
    exists_const] at hok
  obtain ⟨-, hcovered, rfl⟩ := hok
  have hlt := h.balance_lt
  refine { h with funds := ?_, balance_lt := ?_ }
  · have hsum := sum_update_add s.withdrawable sender 0
    have hfunds : s.balance = s.bondsIn s.lastFinalizedBatch s.highestClaimedBatch
      + ∑ a, s.withdrawable a + s.forced := h.funds
    show s.balance - s.withdrawable sender = s.bondsIn s.lastFinalizedBatch s.highestClaimedBatch
        + ∑ a, update s.withdrawable sender 0 a + s.forced
    omega
  · show s.balance - s.withdrawable sender < 2 ^ 256
    omega

theorem Sound.submitBatchProof [DecidableEq H] {publicValues : Option (BatchValues H)} {proof : P}
    (hok : submitBatchProof K V batchIndex publicValues proof s = .ok s') : Sound K V genesis s' := by
  simp only [ProofOracle.submitBatchProof, bind_eq_ok_iff, require_eq_ok_iff, ofOption_eq_ok_iff,
    pure_eq_ok_iff, exists_const] at hok
  obtain ⟨v, -, first, hfirst, hindex, hnone, -, -, -, hpre, hproof, rfl⟩ := hok
  obtain ⟨rfl, hlt⟩ := checkedSucc_eq_ok hfirst
  subst hindex
  -- no claim is pending before or after
  have hclaims : ∀ i, s.claims i = none := fun i => h.claims_eq_none (by omega)
  refine ⟨le_rfl, hlt, ?_, h.balance_lt, fun i => ?_, fun c' hc' => ?_, h.next_preRoot, h.follows,
    by simp [rootOf], ?_⟩
  · have hfunds := h.funds
    rw [hnone, bondsIn_self] at hfunds
    rw [bondsIn_self]
    exact hfunds
  · rw [hclaims i]
    simp only [ne_eq, not_true_eq_false, false_iff]
    omega
  · rw [show _ = none from hclaims _] at hc'
    cases hc'
  · have hnew : Justified V s.challengeWindow s.stateRoot (.proven v proof) := ⟨hproof, hpre⟩
    exact fun pre change post hsplit => h.justified_snoc hnew hsplit

omit h in
/-- A batch that is posted stays as it is. -/
theorem entry_append {i : Nat} (hi : (s.entry K i).recordsCommitment ≠ K.zero)
    {batches : List (BatchEntry H)} :
    entry K { s with settlement := ⟨s.settlement.l1Batcher, s.settlement.batches ++ batches⟩ } i
      = s.entry K i := by
  unfold entry at hi ⊢
  split
  · rfl
  · rename_i hpos
    rw [if_neg hpos] at hi
    cases hget : s.settlement.batches[i - 1]? with
    | none =>
      rw [hget] at hi
      exact absurd rfl hi
    | some e =>
      rw [List.getElem?_append_left (List.getElem?_eq_some_iff.1 hget).1, hget]

theorem Sound.postBatch {prevBatchIndex : Nat} {daCert : Mpt.Bytes}
    {l2BlockStart l2BlockEnd : UInt64} {recordsCommitment : H}
    (hok : postBatch sender prevBatchIndex daCert l2BlockStart l2BlockEnd recordsCommitment s = .ok s') :
    Sound K V genesis s' := by
  simp only [ProofOracle.postBatch, bind_eq_ok_iff, require_eq_ok_iff, pure_eq_ok_iff,
    exists_const] at hok
  obtain ⟨-, -, -, -, _, -, rfl⟩ := hok
  refine { h with follows := fun i c hc => ?_ }
  have hold := h.follows i c hc
  rw [entry_append hold.1]
  exact hold

theorem Sound.forceEther {value : Nat} (hok : forceEther value s = .ok s') : Sound K V genesis s' := by
  simp only [ProofOracle.forceEther, bind_eq_ok_iff, require_eq_ok_iff, pure_eq_ok_iff,
    exists_const] at hok
  obtain ⟨hfits, rfl⟩ := hok
  refine { h with funds := ?_, balance_lt := hfits }
  have hfunds := h.funds
  show s.balance + value
    = s.bondsIn s.lastFinalizedBatch s.highestClaimedBatch + s.refunds + (s.forced + value)
  omega

end ProofOracle

end Kardamom.L1
