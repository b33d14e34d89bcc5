import Kardamom.Sealer.Effects
import Kardamom.Sealer.VoidSnapshot

/-!
# Void soundness

A void removes an ordered reference for good, so it must rest on the vote of every configured voter
for that very reference. The ledger keeps the votes by index and the references by ring slot, and
both are reused: the votes of an index are bits that say nothing of the hash they were cast for, and
the slot of an index may hold another one.

The invariant `Traced` ties them to the history: a slot that holds an index has its reference in the
history, and every vote bit of that index has its vote, for that id, after the reference. `voids_sound`
reads the result off at a decided vote.

`Effect.ledger` says what each step of the sealer does to the ledger inside it.
-/

namespace Kardamom.Sealer.CanonicalSealerState

open VoidLedger Machine Function LinkedMap List Option Answer

/-! ## References, votes and decisions in a history -/

/-- The reference that an answered call ordered, as the ledger keeps it: a record of a sender, or a
positioned reference, which has none. -/
def referenceOf : Op × Answer → Option VoidEntry
  | (.record id sender nonce _ _, .record (.relayed r)) =>
    if sender = zeroSender then none else some ⟨r.index, id, sender, nonce⟩
  | (.ref _ _ _ id, .ref (.index i)) => some ⟨i, id, zeroSender, 0⟩
  | _ => none

/-- The index whose void an answered call decided. -/
def decidedAt : Op × Answer → Option Int
  | (.voidRequest _ index _, .voidRequest ⟨.decided, _⟩) => some index
  | _ => none

/-- The counted vote of `voter` for the reference `e`. -/
def countedVote (voter : Int) (e : VoidEntry) : Op × Answer :=
  (.voidRequest voter e.index e.id, .voidRequest ⟨.counted, none⟩)

variable {cfg : SealerConfig} {s s' : CanonicalSealerState} {op : Op} {ans : Answer}
  {τ : List (Op × Answer)}

theorem referenceOf_of_emitted (h : emitted op ans = []) : referenceOf (op, ans) = none := by
  unfold referenceOf
  split
  next heq => cases heq; simp [emitted] at h
  next heq => cases heq; simp [emitted] at h
  next => rfl

theorem leadBlock_voids (cfg : SealerConfig) (s : CanonicalSealerState) (key : CanonicalId)
    (clock : Int) : (s.leadBlock cfg key clock).1.voids = s.voids := by
  unfold leadBlock
  split <;> rfl

/-- What a step can do to the ledger: nothing, order a reference, count a vote, decide a void. -/
inductive LedgerEffect (cfg : SealerConfig) (s s' : CanonicalSealerState) : Op × Answer → Prop where
  | kept {c : Op × Answer} (hv : s'.voids = s.voids) (hr : referenceOf c = none)
      (hd : decidedAt c = none) : LedgerEffect cfg s s' c
  | reference {c : Op × Answer} {e : VoidEntry} (hr : referenceOf c = some e)
      (hd : decidedAt c = none) (hi : e.index = s.canonicalCount)
      (hc : s'.canonicalCount = s.canonicalCount + 1)
      (hv : s'.voids = s.voids.onReference cfg.voids e.index e.id e.sender e.nonce) :
      LedgerEffect cfg s s' c
  | voted {voterId index : Int} {txHash : CanonicalId} {vote : Vote} (hne : vote ≠ .decided)
      (hc : s'.canonicalCount = s.canonicalCount)
      (hv : s.voids.onVote cfg.voids voterId index txHash s.canonicalCount
        = (s'.voids, ⟨vote, none⟩)) :
      LedgerEffect cfg s s' (.voidRequest voterId index txHash, .voidRequest ⟨vote, none⟩)
  | decided {voterId index : Int} {txHash : CanonicalId} {entry : VoidEntry}
      (hv : s.voids.onVote cfg.voids voterId index txHash s.canonicalCount
        = (s'.voids, ⟨.decided, some entry⟩))
      (hs : s' = ({ s with voids := s'.voids }.appendVoid entry).1) :
      LedgerEffect cfg s s' (.voidRequest voterId index txHash,
        .voidRequest ⟨.decided, some ⟨s.canonicalCount, payload entry⟩⟩)

theorem decidedAt_of_not_vote (h : op.isVoidRequest = false) (ans : Answer) :
    decidedAt (op, ans) = none := by
  unfold decidedAt
  split
  next heq => cases heq; cases h
  next => rfl

theorem Effect.ledger (he : Effect cfg s op s' ans) : LedgerEffect cfg s s' (op, ans) := by
  cases he with
  | unchanged hno hop =>
    exact .kept rfl (referenceOf_of_emitted hno) (decidedAt_of_not_vote hop _)
  | recordFrom _ hs => exact .reference (if_neg hs) rfl rfl rfl rfl
  | refOrdered => exact .reference rfl rfl rfl rfl rfl
  | voted h hne => exact .voted hne rfl h
  | voided h => exact .decided h rfl
  | refRefused hop ho =>
    rcases hop with rfl | ⟨id, rfl⟩
    · exact .kept rfl rfl rfl
    · refine .kept rfl ?_ rfl
      unfold referenceOf
      split
      next heq => cases heq
      next heq => cases heq; exact absurd rfl (ho _)
      next => rfl
  | originAdopted | remoteAdopted => exact .kept (leadBlock_voids ..) rfl rfl
  | _ => exact .kept rfl rfl rfl

/-! ## The trace of the ledger -/

/-- Whether the open votes of `index` hold the bit of `voter`. -/
def voteBit (l : VoidLedger) (index : Int) (voter : Nat) : Bool :=
  ((l.votes.get? index).getD 0).getLsbD voter

/-- The reference `e` was ordered, and since then every voter whose bit stands for its index voted
for it. -/
def OrderedAndVoted (l : VoidLedger) (τ : List (Op × Answer)) (e : VoidEntry) : Prop :=
  ∃ pre c post, τ = pre ++ c :: post ∧ referenceOf c = some e ∧
    ∀ voter, voteBit l e.index voter = true → countedVote voter e ∈ post

/-- The history behind the ledger. -/
structure Traced (cfg : SealerConfig) (s : CanonicalSealerState) (τ : List (Op × Answer)) :
    Prop where
  /-- A slot holds an index of its own, below the count and not voided yet. -/
  slots : ∀ k, 0 ≤ (s.voids.window k).index → cfg.voids.slot (s.voids.window k).index = k ∧
      (s.voids.window k).index < s.canonicalCount ∧
      (∀ c ∈ τ, decidedAt c ≠ some (s.voids.window k).index) ∧
      OrderedAndVoted s.voids τ (s.voids.window k)
  votesBelow : ∀ i mask, s.voids.votes.get? i = some mask → i < s.canonicalCount
  decidedBelow : ∀ c ∈ τ, ∀ i, decidedAt c = some i → i < s.canonicalCount

variable {c : Op × Answer}

theorem OrderedAndVoted.snoc {l l' : VoidLedger} {e : VoidEntry} (h : OrderedAndVoted l τ e)
    (hbits : ∀ voter, voteBit l' e.index voter = true →
      voteBit l e.index voter = true ∨ c = countedVote voter e) :
    OrderedAndVoted l' (τ ++ [c]) e := by
  obtain ⟨pre, r, post, rfl, hr, hvotes⟩ := h
  refine ⟨pre, r, post ++ [c], by simp, hr, fun voter hbit => ?_⟩
  rcases hbits voter hbit with hold | rfl
  · exact mem_append_left _ (hvotes voter hold)
  · exact mem_append_right _ (mem_singleton_self _)

theorem voteBit_dropVotesBelow {l : VoidLedger} {oldest index : Int} {voter : Nat}
    (h : voteBit (l.dropVotesBelow oldest) index voter = true) : voteBit l index voter = true := by
  unfold voteBit at *
  rw [get?_dropVotesBelow] at h
  split at h
  next => simp at h
  next => exact h

variable {txHash : CanonicalId} {voterId index : Int}

section

variable (h : Traced cfg s τ)
include h

/-- A step that holds no more slots and votes than before, and decides nothing. -/
theorem Traced.snoc_of_subset (hcount : s.canonicalCount ≤ s'.canonicalCount) (hd : decidedAt c = none)
    (hwindow : s'.voids.window = s.voids.window)
    (hvotes : ∀ i mask, s'.voids.votes.get? i = some mask → i < s'.canonicalCount)
    (hbits : ∀ k, 0 ≤ (s.voids.window k).index → ∀ voter,
      voteBit s'.voids (s.voids.window k).index voter = true →
        voteBit s.voids (s.voids.window k).index voter = true ∨
          c = countedVote voter (s.voids.window k)) :
    Traced cfg s' (τ ++ [c]) where
  slots k hk := by
    rw [hwindow] at hk ⊢
    obtain ⟨hslot, hlt, hnot, hord⟩ := h.slots k hk
    exact ⟨hslot, lt_of_lt_of_le hlt hcount, forall_mem_snoc.2 ⟨hnot, by simp [hd]⟩, hord.snoc (hbits k hk)⟩
  votesBelow := hvotes
  decidedBelow :=
    forall_mem_snoc.2 ⟨fun c' hc' i hi => lt_of_lt_of_le (h.decidedBelow c' hc' i hi) hcount, by simp [hd]⟩

/-- A reference at the count: no vote and no decision can name its index yet. -/
theorem Traced.snoc_reference {e : VoidEntry}
    (hr : referenceOf c = some e) (hd : decidedAt c = none) (hi : e.index = s.canonicalCount)
    (hc : s'.canonicalCount = s.canonicalCount + 1)
    (hv : s'.voids = s.voids.onReference cfg.voids e.index e.id e.sender e.nonce) :
    Traced cfg s' (τ ++ [c]) := by
  have hvotes : ∀ i mask, s'.voids.votes.get? i = some mask → i < s'.canonicalCount := by
    intro i mask hm
    rw [hv, onReference_votes] at hm
    have := h.votesBelow i mask hm
    omega
  by_cases hcap : cfg.voids.capacity = 0
  · have hsame : s'.voids = s.voids := by rw [hv, onReference, if_pos hcap]
    exact h.snoc_of_subset (by omega) hd (by rw [hsame]) hvotes
      fun k _ voter hbit => .inl (by rwa [hsame] at hbit)
  have hwindow : s'.voids.window = update s.voids.window (cfg.voids.slot e.index) e := by
    rw [hv, onReference_window hcap]
  have hdecided : ∀ c' ∈ τ ++ [c], ∀ i, decidedAt c' = some i → i < s.canonicalCount :=
    forall_mem_snoc.2 ⟨h.decidedBelow, by simp [hd]⟩
  refine ⟨fun k hk => ?_, hvotes, fun c' hc' i hdec => (hdecided c' hc' i hdec).trans (by omega)⟩
  · rw [hwindow] at hk ⊢
    by_cases hslot : k = cfg.voids.slot e.index
    · subst hslot
      rw [update_self] at hk ⊢
      refine ⟨rfl, by omega, fun c' hc' hdec => ?_, τ, c, [], by simp, hr, fun voter hbit => ?_⟩
      · have := hdecided c' hc' _ hdec
        omega
      · have hnone : s.voids.votes.get? e.index = none := by
          refine eq_none_iff_forall_ne_some.2 fun mask hm => ?_
          have := h.votesBelow _ mask hm
          omega
        rw [voteBit, hv, onReference_votes, hnone] at hbit
        simp at hbit
    · rw [update_of_ne hslot] at hk ⊢
      obtain ⟨hown, hlt, hnot, hord⟩ := h.slots k hk
      refine ⟨hown, by omega, forall_mem_snoc.2 ⟨hnot, by simp [hd]⟩, hord.snoc fun voter hbit => .inl ?_⟩
      rwa [voteBit, hv, onReference_votes] at hbit

/-- What an admitted vote knows of its slot. -/
theorem Traced.of_admits {oldest voterId index : Int} {hash : CanonicalId}
    (hadm : (s.voids.dropVotesBelow oldest).Admits cfg.voids voterId index hash) :
    (s.voids.window (cfg.voids.slot index)).index = index ∧
      (s.voids.window (cfg.voids.slot index)).id = hash ∧ 0 ≤ index ∧
      index < s.canonicalCount := by
  obtain ⟨-, hpos, hindex, hid⟩ := holds_iff.1 hadm.2.1
  rw [dropVotesBelow_window] at hindex hid
  refine ⟨hindex, hid, hpos, ?_⟩
  have hlt := (h.slots (cfg.voids.slot index) (by rw [hindex]; exact hpos)).2.1
  rwa [hindex] at hlt

theorem Traced.snoc_vote {vote : Vote} (hne : vote ≠ .decided) (hc : s.canonicalCount ≤ s'.canonicalCount)
    (hv : s.voids.onVote cfg.voids voterId index txHash s.canonicalCount
      = (s'.voids, ⟨vote, none⟩)) :
    Traced cfg s' (τ ++ [(.voidRequest voterId index txHash, .voidRequest ⟨vote, none⟩)]) := by
  have hd : decidedAt (.voidRequest voterId index txHash, .voidRequest ⟨vote, none⟩) = none := by
    cases vote <;> first | rfl | exact absurd rfl hne
  have hdrop : ∀ oldest i mask, (s.voids.dropVotesBelow oldest).votes.get? i = some mask →
      i < s'.canonicalCount := by
    intro oldest i mask hm
    rw [get?_dropVotesBelow] at hm
    split at hm
    next => cases hm
    next => exact lt_of_lt_of_le (h.votesBelow i mask hm) hc
  have hkept : ∀ {oldest t}, s.voids.onVote cfg.voids voterId index txHash s.canonicalCount
      = (s.voids.dropVotesBelow oldest, t) →
      Traced cfg s' (τ ++ [(.voidRequest voterId index txHash, .voidRequest ⟨vote, none⟩)]) := by
    intro oldest t heq
    obtain ⟨hl, -⟩ := Prod.mk.inj (hv.symm.trans heq)
    exact h.snoc_of_subset hc hd (by rw [hl]; rfl) (by rw [hl]; exact hdrop _)
      fun k _ voter hbit => .inl (voteBit_dropVotesBelow (by rwa [hl] at hbit))
  rcases onVote_cases cfg.voids s.voids voterId index txHash s.canonicalCount with
    ⟨-, heq⟩ | ⟨-, -, heq⟩ | ⟨-, -, -, heq⟩ | ⟨hadm, -, -, heq⟩
  · exact hkept heq
  · obtain ⟨-, ht⟩ := Prod.mk.inj (hv.symm.trans heq)
    exact absurd (Tally.mk.inj ht).1 hne
  · exact hkept heq
  · obtain ⟨hl, ht⟩ := Prod.mk.inj (hv.symm.trans heq)
    obtain ⟨rfl, -⟩ := Tally.mk.inj ht
    obtain ⟨hindex, hid, hpos, hlt⟩ := h.of_admits hadm
    refine h.snoc_of_subset hc hd (by rw [hl]; rfl) (fun i mask hm => ?_) fun k hk voter hbit => ?_
    · rw [hl] at hm
      by_cases hi : i = index
      · omega
      · rw [get?_put_of_ne _ hi] at hm
        exact hdrop _ i mask hm
    · rw [hl, voteBit] at hbit
      by_cases hi : (s.voids.window k).index = index
      · -- the slot of the index holds it, so the vote's hash is the id of this slot
        have hslot : cfg.voids.slot index = k := by rw [← hi]; exact (h.slots k hk).1
        rw [hi, get?_put_self] at hbit
        rcases getLsbD_maskWith_iff.1 hbit with hold | ⟨-, rfl⟩
        · exact .inl (by rw [hi]; exact voteBit_dropVotesBelow hold)
        · refine .inr ?_
          have hvoter : ((voterId.toNat : Nat) : Int) = voterId :=
            Int.toNat_of_nonneg (isVoter_iff.1 hadm.1).1
          rw [countedVote, hvoter, hi, ← hslot, hid]
      · rw [get?_put_of_ne _ hi] at hbit
        exact .inl (voteBit_dropVotesBelow hbit)

theorem Traced.snoc_decided {entry : VoidEntry} {relayed : Option Relayed}
    (hc : s'.canonicalCount = s.canonicalCount + 1)
    (hv : s.voids.onVote cfg.voids voterId index txHash s.canonicalCount
      = (s'.voids, ⟨.decided, some entry⟩)) :
    Traced cfg s' (τ ++ [(.voidRequest voterId index txHash, .voidRequest ⟨.decided, relayed⟩)]) := by
  rcases onVote_cases cfg.voids s.voids voterId index txHash s.canonicalCount with
    ⟨-, heq⟩ | ⟨hadm, -, heq⟩ | ⟨-, -, -, heq⟩ | ⟨-, -, -, heq⟩
  case inr.inl =>
    obtain ⟨hl, -⟩ := Prod.mk.inj (hv.symm.trans heq)
    obtain ⟨hindex, -, -, hlt⟩ := h.of_admits hadm
    refine ⟨fun k hk => ?_, fun i mask hm => ?_, forall_mem_snoc.2 ⟨fun c hc' i hdec => ?_, fun i hdec => ?_⟩⟩
    · -- the slot of the index is free now, and every other slot holds another index
      have hwindow : s'.voids.window = update s.voids.window (cfg.voids.slot index)
          { s.voids.window (cfg.voids.slot index) with index := -1 } := by rw [hl]; rfl
      rw [hwindow] at hk ⊢
      by_cases hslot : k = cfg.voids.slot index
      · subst hslot
        rw [update_self] at hk
        exact absurd hk (show ¬ (0 : Int) ≤ -1 by decide)
      · rw [update_of_ne hslot] at hk ⊢
        obtain ⟨hown, hbelow, hnot, hord⟩ := h.slots k hk
        have hother : (s.voids.window k).index ≠ index := by
          intro hi
          rw [hi] at hown
          exact hslot hown.symm
        refine ⟨hown, by omega, forall_mem_snoc.2 ⟨hnot, fun hi => hother (some.inj hi).symm⟩,
          hord.snoc fun voter hbit => .inl ?_⟩
        rw [hl, voteBit, get?_remove_of_ne _ hother] at hbit
        exact voteBit_dropVotesBelow hbit
    · rw [hl] at hm
      by_cases hi : i = index
      · omega
      · rw [get?_remove_of_ne _ hi, get?_dropVotesBelow] at hm
        split at hm
        next => cases hm
        next =>
          have := h.votesBelow i mask hm
          omega
    · have := h.decidedBelow c hc' i hdec
      omega
    · have : index = i := some.inj hdec
      omega
  all_goals
    obtain ⟨-, ht⟩ := Prod.mk.inj (hv.symm.trans heq)
    cases (Tally.mk.inj ht).1

/-- **One step.** -/
theorem Traced.next (he : Effect cfg s op s' ans) : Traced cfg s' (τ ++ [(op, ans)]) := by
  have hc := he.canonicalCount_le
  rcases he.ledger with ⟨hv, hr, hd⟩ | ⟨hr, hd, hi, hc, hv⟩ | ⟨hne, -, hv⟩ | ⟨hv, hs⟩
  · refine h.snoc_of_subset hc hd (by rw [hv]) (fun i mask hm => ?_)
      fun k _ voter hbit => .inl (by rwa [hv] at hbit)
    rw [hv] at hm
    exact lt_of_lt_of_le (h.votesBelow i mask hm) hc
  · exact h.snoc_reference hr hd hi hc hv
  · exact h.snoc_vote hne hc hv
  · exact h.snoc_decided (by rw [hs]; rfl) hv

end

theorem Started.traced {s₀ : CanonicalSealerState} (h : Started cfg s₀) : Traced cfg s₀ [] := by
  have hempty : s₀.voids = .empty := by cases h <;> rfl
  refine ⟨fun k hk => ?_, fun i mask hm => ?_, fun c hc => absurd hc not_mem_nil⟩
  · rw [hempty] at hk
    exact absurd hk (show ¬ (0 : Int) ≤ -1 by decide)
  · rw [hempty] at hm
    cases hm

/-- What stands behind a void of `index` that the vote of `voterId` decides in the state `s` with the
history `τ`: the reference `e` that was ordered at `index`, with `post` since then. -/
structure VoidGrounded (cfg : SealerConfig) (s : CanonicalSealerState) (τ : List (Op × Answer))
    (voterId index : Int) (txHash : CanonicalId) (e : VoidEntry) (post : List (Op × Answer)) :
    Prop where
  ordered : ∃ pre c, τ = pre ++ c :: post ∧ referenceOf c = some e
  index_eq : e.index = index
  id_eq : e.id = txHash
  /-- Every configured voter voted for this reference after it was ordered. -/
  voted : ∀ voter, cfg.voids.isVoter voter = true → voter = voterId ∨ countedVote voter e ∈ post
  /-- The index was not voided before. -/
  first : ∀ c ∈ τ, decidedAt c ≠ some index
  /-- The void record names the reference, and so does what the state undoes. -/
  appended : step cfg s (.voidRequest voterId index txHash) = (({ s with
          voids := (s.voids.onVote cfg.voids voterId index txHash s.canonicalCount).1
        }.appendVoid e).1,
        .voidRequest ⟨.decided, some ⟨s.canonicalCount, payload e⟩⟩)

/-- A mask that covers every configured voter holds each voter's bit. -/
theorem getLsbD_of_all {c : VoidConfig} {mask : BitVec 64} (h : mask &&& c.voterMask = c.voterMask)
    {voter : Int} (hv : c.isVoter voter = true) : mask.getLsbD voter.toNat = true := by
  have hbit := (isVoter_iff.1 hv).2.2
  rw [← h, BitVec.getLsbD_and, Bool.and_eq_true] at hbit
  exact hbit.1

theorem Traced.grounded (h : Traced cfg s τ) {relayed : Option Relayed}
    (hdec : (step cfg s (.voidRequest voterId index txHash)).2 = .voidRequest ⟨.decided, relayed⟩) :
    ∃ e post, VoidGrounded cfg s τ voterId index txHash e post := by
  have hstep : step cfg s (.voidRequest voterId index txHash)
      = answering .voidRequest (s.onVoidRequest cfg voterId index txHash) := rfl
  have hvote : (s.onVoidRequest cfg voterId index txHash).2.vote = .decided := by
    exact congrArg VoidOutcome.vote (voidRequest.inj hdec)
  unfold onVoidRequest at hvote
  rcases onVote_cases cfg.voids s.voids voterId index txHash s.canonicalCount with
    ⟨-, heq⟩ | ⟨hadm, hall, heq⟩ | ⟨-, -, -, heq⟩ | ⟨-, -, -, heq⟩
  case inr.inl =>
    obtain ⟨hindex, hid, hpos, -⟩ := h.of_admits hadm
    obtain ⟨-, -, hnot, pre, c, post, hτ, hr, hvotes⟩ :=
      h.slots (cfg.voids.slot index) (by rw [hindex]; exact hpos)
    refine ⟨s.voids.window (cfg.voids.slot index), post, ⟨pre, c, hτ, hr⟩, hindex, hid, ?_, ?_, ?_⟩
    · intro voter hvoter
      rcases getLsbD_maskWith_iff.1 (getLsbD_of_all hall hvoter) with
        hbit | ⟨-, hself⟩
      · refine .inr ?_
        have hcounted := hvotes voter.toNat (by rw [hindex]; exact voteBit_dropVotesBelow hbit)
        rwa [Int.toNat_of_nonneg (isVoter_iff.1 hvoter).1] at hcounted
      · refine .inl ?_
        have := (isVoter_iff.1 hvoter).1
        have := (isVoter_iff.1 hadm.1).1
        omega
    · rwa [hindex] at hnot
    · have hentry : (s.voids.dropVotesBelow (s.canonicalCount - cfg.voids.capacity)).entryAt
          cfg.voids index = s.voids.window (cfg.voids.slot index) := entryAt_eq hindex
      rw [hentry] at heq
      rw [hstep, onVoidRequest, heq]
      rfl
  all_goals
    rw [heq] at hvote
    cases hvote

/-- **Void soundness.** In every run, a void of an index is decided only after every configured voter
voted, since the reference at that index was ordered, for exactly that index and id; no index is
decided twice; and the void record and its undoing are those of the reference that was ordered. -/
theorem voids_sound (cfg : SealerConfig) {s₀ : CanonicalSealerState} (h₀ : Started cfg s₀)
    (ops : List Op) {voterId index : Int} {txHash : CanonicalId} {relayed : Option Relayed}
    (hdec : (step cfg (run (step cfg) s₀ ops).1 (.voidRequest voterId index txHash)).2
      = .voidRequest ⟨.decided, relayed⟩) :
    ∃ e post, VoidGrounded cfg (run (step cfg) s₀ ops).1 (run (step cfg) s₀ ops).2
      voterId index txHash e post := by
  have hrun : Traced cfg (run (step cfg) s₀ ops).1 (run (step cfg) s₀ ops).2 :=
    run_induction (P := Traced cfg) h₀.traced (fun s τ op h => h.next (step_effect cfg s op)) ops
  exact hrun.grounded hdec

/-- Two voters, 0 and 1, and a window of four indices. -/
def twoVoters : SealerConfig :=
  { SealerConfig.default with
    voids := ⟨4, 3, by decide, fun _ => by decide, fun h => absurd h (by decide)⟩ }

/-- A reference at index 0 and the vote of voter 0; the vote of voter 1 decides. -/
theorem voids_sound_of_two : ∃ e post, VoidGrounded twoVoters
      (run (step twoVoters) genesis [.record 9 7 5 60 [], .voidRequest 0 0 9]).1
      (run (step twoVoters) genesis [.record 9 7 5 60 [], .voidRequest 0 0 9]).2
      1 0 9 e post :=
  voids_sound twoVoters .genesis [.record 9 7 5 60 [], .voidRequest 0 0 9]
    (show _ = voidRequest ⟨.decided, some ⟨1, payload ⟨0, 9, 7, 5⟩⟩⟩ from rfl)

end Kardamom.Sealer.CanonicalSealerState
