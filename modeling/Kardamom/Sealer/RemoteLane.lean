import Kardamom.Lib.Run
import Kardamom.Sealer.Effects

/-!
# The remote lanes

Every peer chain has a lane: its accepted batches must cover its message sequence without a hole or
a repeat, and their anchors must advance. The guard keeps the next expected sequence number, which
is an unsigned 64-bit counter: after a batch that ends at `2^64 - 1` it is 0 again, and
`remote_lane_wraps` shows a lane that starts over.

`remote_lanes_in_order` is what holds: as long as no peer whose cursor stands at 0 is offered a batch
from 0, every lane is contiguous, free of repeats and of ranges past `2^64 - 1`, and its anchors
increase.
-/

namespace Kardamom.Sealer.CanonicalSealerState

open Machine List Option Machine UInt64 LinkedMap

/-! ## The batches of a lane -/

/-- What an accepted remote-origin record claims. -/
structure RemoteBatch where
  anchorNumber : UInt64
  slotCount : Int
  firstSeq : UInt64
  lastSeq : UInt64
  deriving DecidableEq, Repr

/-- The batch of the peer `chain` that an answered call accepted. -/
def batchOf (chain : UInt64) : Op × Answer → Option RemoteBatch
  | (.remoteOriginRecord _ originChainId anchor slotCount firstSeq lastSeq _ _,
      .remoteOriginRecord (.relayed _)) =>
    if originChainId = chain then some ⟨anchor, slotCount, firstSeq, lastSeq⟩ else none
  | _ => none

/-- The accepted batches of a peer, in the order of their acceptance. -/
def batchesOf (chain : UInt64) (τ : List (Op × Answer)) : List RemoteBatch :=
  τ.filterMap (batchOf chain)

/-- The range of a batch: one marker slot and one slot for each sequence number from `firstSeq`, the
last of them `lastSeq` itself, so that the range stays below `2^64`. -/
def RemoteBatch.InRange (b : RemoteBatch) : Prop :=
  b.firstSeq ≤ b.lastSeq ∧ (b.firstSeq.toNat : Int) + (b.slotCount - 2) = b.lastSeq.toNat

/-- A lane in order. -/
structure LaneInOrder (bs : List RemoteBatch) : Prop where
  inRange : ∀ b ∈ bs, b.InRange
  contiguous : bs.IsChain fun a b => b.firstSeq.toNat = a.lastSeq.toNat + 1
  /-- No sequence number is covered twice. -/
  disjoint : bs.Pairwise fun a b => a.lastSeq < b.firstSeq
  anchors : bs.Pairwise fun a b => a.anchorNumber < b.anchorNumber

theorem laneInOrder_nil : LaneInOrder [] :=
  ⟨by simp, isChain_nil, List.Pairwise.nil, List.Pairwise.nil⟩

/-- A lane grows in order by the batch right after its last one. -/
theorem LaneInOrder.snoc {bs : List RemoteBatch} (h : LaneInOrder bs) {b : RemoteBatch}
    (hb : b.InRange)
    (hnext : ∀ r ∈ bs.getLast?, b.firstSeq.toNat = r.lastSeq.toNat + 1 ∧
      r.anchorNumber < b.anchorNumber) :
    LaneInOrder (bs ++ [b]) := by
  -- an earlier batch ends before the last one begins, and the last one before the new one
  have hbefore : ∀ a ∈ bs, a.lastSeq < b.firstSeq ∧ a.anchorNumber < b.anchorNumber := by
    rcases eq_nil_or_concat bs with rfl | ⟨init, r, rfl⟩
    · simp
    · rw [concat_eq_append] at h hnext ⊢
      obtain ⟨hseq, hanchor⟩ := hnext r (List.getLast?_concat ..)
      have hlast : r.lastSeq < b.firstSeq := lt_iff_toNat_lt.2 (by omega)
      intro a ha
      rcases mem_append.1 ha with ha | ha
      · have hmem := mem_singleton_self r
        have hdis := (pairwise_append.1 h.disjoint).2.2 a ha r hmem
        have hanc := (pairwise_append.1 h.anchors).2.2 a ha r hmem
        have hr := (h.inRange r (mem_append_right _ hmem)).1
        exact ⟨UInt64.lt_trans (UInt64.lt_of_lt_of_le hdis hr) hlast, UInt64.lt_trans hanc hanchor⟩
      · rw [mem_singleton.1 ha]
        exact ⟨hlast, hanchor⟩
  refine ⟨forall_mem_snoc.2 ⟨h.inRange, hb⟩, ?_, ?_, ?_⟩
  · refine isChain_append.2 ⟨h.contiguous, isChain_singleton _, fun r hr c hc => ?_⟩
    obtain rfl := some.inj hc
    exact (hnext r hr).1
  · exact pairwise_snoc.2 ⟨h.disjoint, fun a ha => (hbefore a ha).1⟩
  · exact pairwise_snoc.2 ⟨h.anchors, fun a ha => (hbefore a ha).2⟩

/-! ## The lane cursor along a run -/

variable {cfg : SealerConfig} {s s' : CanonicalSealerState} {op : Op} {ans : Answer}
  {τ : List (Op × Answer)}

theorem batchOf_of_emitted (h : emitted op ans = []) (chain : UInt64) :
    batchOf chain (op, ans) = none := by
  unfold batchOf
  split
  next heq =>
    cases heq
    simp [emitted, emittedAdvance] at h
  next => rfl

/-- What a step can do to the lanes. -/
theorem Effect.batch_cases (he : Effect cfg s op s' ans) :
    (s'.remoteOrigins = s.remoteOrigins ∧ ∀ chain, batchOf chain (op, ans) = none) ∨
      ∃ id originChainId payload clock, ∃ b : RemoteBatch,
        op = .remoteOriginRecord id originChainId b.anchorNumber b.slotCount b.firstSeq b.lastSeq
          payload clock ∧
        b.firstSeq ≤ b.lastSeq ∧ b.slotCount = (b.lastSeq - b.firstSeq).toNat + 2 ∧
        (∀ peer, s.remoteOrigins.get? originChainId = some peer →
          (peer.nextSeqKnown = true → peer.nextSeq = b.firstSeq) ∧
            peer.anchorNumber < b.anchorNumber) ∧
        s'.remoteOrigins = s.remoteOrigins.put originChainId ⟨b.anchorNumber, true, b.lastSeq + 1⟩ ∧
        ∀ chain, batchOf chain (op, ans) = if originChainId = chain then some b else none := by
  cases he with
  | unchanged hno => exact .inl ⟨rfl, batchOf_of_emitted hno⟩
  | refRefused hop => rcases hop with rfl | ⟨id, rfl⟩ <;> exact .inl ⟨rfl, fun _ => rfl⟩
  | originAdopted => exact .inl ⟨leadBlock_remoteOrigins .., fun _ => rfl⟩
  | @remoteAdopted id chain anchor slotCount firstSeq lastSeq payload clock _ _ hr hs hpeer =>
    exact .inr ⟨id, chain, payload, clock, ⟨anchor, slotCount, firstSeq, lastSeq⟩, rfl, hr, hs,
      hpeer, rfl, fun _ => rfl⟩
  | _ =>
    exact .inl ⟨rfl, fun _ => rfl⟩

/-- No peer whose cursor stands at 0 is offered a batch that starts at 0: in a run, such a cursor
comes from a batch that ended at `2^64 - 1`. -/
def LaneNotRestarted (s : CanonicalSealerState) : Op → Prop
  | .remoteOriginRecord _ originChainId _ _ firstSeq _ _ _ =>
    ∀ peer, s.remoteOrigins.get? originChainId = some peer → peer.nextSeqKnown = true →
      peer.nextSeq = 0 → firstSeq ≠ 0
  | _ => True

/-- Every lane is in order, and its cursor stands right after its last batch. -/
structure Lanes (s : CanonicalSealerState) (τ : List (Op × Answer)) : Prop where
  inOrder : ∀ chain, LaneInOrder (batchesOf chain τ)
  cursor : ∀ chain, ∀ b ∈ (batchesOf chain τ).getLast?,
    s.remoteOrigins.get? chain = some ⟨b.anchorNumber, true, b.lastSeq + 1⟩

theorem inRange_of_checks {b : RemoteBatch} (hr : b.firstSeq ≤ b.lastSeq)
    (hs : b.slotCount = (b.lastSeq - b.firstSeq).toNat + 2) : b.InRange := by
  have hle := le_iff_toNat_le.1 hr
  have hsub : (b.lastSeq - b.firstSeq).toNat = b.lastSeq.toNat - b.firstSeq.toNat :=
    UInt64.toNat_sub_of_le _ _ hr
  exact ⟨hr, by omega⟩

/-- A counter that is not 0 after the increment did not wrap. -/
theorem toNat_succ_of_ne_zero {n : UInt64} (h : n + 1 ≠ 0) : (n + 1).toNat = n.toNat + 1 := by
  have hne : (n + 1).toNat ≠ 0 := fun h0 => h (UInt64.toNat_inj.1 h0)
  rw [UInt64.toNat_add, toNat_one] at hne ⊢
  have := n.toNat_lt
  omega

/-- **One step.** -/
theorem Lanes.step (h : Lanes s τ) (he : Effect cfg s op s' ans) (hop : LaneNotRestarted s op) :
    Lanes s' (τ ++ [(op, ans)]) := by
  rcases he.batch_cases with ⟨hsame, hno⟩ | ⟨id, peerId, payload, clock, b, hrecord, hr, hs,
      hpeer, hput, hbatch⟩
  · have heq : ∀ chain, batchesOf chain (τ ++ [(op, ans)]) = batchesOf chain τ := by
      intro chain
      rw [batchesOf, filterMap_snoc, hno chain, toList_none, append_nil, batchesOf]
    refine ⟨fun chain => ?_, fun chain => ?_⟩
    · rw [heq]
      exact h.inOrder chain
    · rw [heq, hsame]
      exact h.cursor chain
  · rw [hrecord] at hop
    have heq : ∀ chain, batchesOf chain (τ ++ [(op, ans)])
        = batchesOf chain τ ++ (if peerId = chain then some b else none).toList := by
      intro chain
      rw [batchesOf, filterMap_snoc, hbatch chain, batchesOf]
    refine ⟨fun chain => ?_, fun chain => ?_⟩
    · rw [heq]
      split
      next hchain =>
        subst hchain
        refine (h.inOrder peerId).snoc (inRange_of_checks hr hs) fun r hr => ?_
        have hcur := h.cursor peerId r hr
        obtain ⟨hseq, hanchor⟩ := hpeer _ hcur
        have hnz : r.lastSeq + 1 ≠ 0 := fun h0 =>
          hop _ hcur rfl h0 ((hseq rfl).symm.trans h0)
        exact ⟨by rw [← hseq rfl, toNat_succ_of_ne_zero hnz], hanchor⟩
      next => rw [toList_none, append_nil]; exact h.inOrder chain
    · intro c hc
      rw [heq] at hc
      rw [hput]
      by_cases hchain : peerId = chain
      · subst hchain
        rw [if_pos rfl, toList_some, List.getLast?_concat] at hc
        obtain rfl := some.inj hc
        exact get?_put_self ..
      · rw [if_neg hchain, toList_none, append_nil] at hc
        rw [get?_put_of_ne _ fun h => hchain h.symm]
        exact h.cursor chain c hc

/-- **The remote lanes.** In every run whose steps restart no lane at 0, the accepted batches of each
peer are contiguous from the first one, cover no sequence number twice and none past `2^64 - 1`, and
their anchors increase strictly. -/
theorem remote_lanes_in_order (cfg : SealerConfig) (s₀ : CanonicalSealerState) {ops : List Op}
    (hwhen : Guarded (step cfg) LaneNotRestarted s₀ ops) (chain : UInt64) :
    LaneInOrder (batchesOf chain (run (step cfg) s₀ ops).2) := by
  have hrun : Lanes (run (step cfg) s₀ ops).1 (run (step cfg) s₀ ops).2 := by
    refine run_induction_of_guard
      ⟨fun _ => laneInOrder_nil, fun _ _ h => ?_⟩ (fun s τ op h hop => ?_) hwhen
    · simp [batchesOf] at h
    · exact h.step (step_effect cfg s op) hop
  exact hrun.inOrder chain

/-- The default configuration with one peer, chain 5. -/
def onePeer : SealerConfig := { SealerConfig.default with remoteOriginAllowlist := [5] }

/-- Two batches of a peer: 7 to 8, then 9. -/
theorem remote_lanes_in_order_of_two : Guarded (step onePeer) LaneNotRestarted genesis
        [.remoteOriginRecord 1 5 1 3 7 8 [] 0, .remoteOriginRecord 2 5 2 2 9 9 [] 0] ∧
      LaneInOrder (batchesOf 5 (run (step onePeer) genesis
        [.remoteOriginRecord 1 5 1 3 7 8 [] 0, .remoteOriginRecord 2 5 2 2 9 9 [] 0]).2) := by
  have hwhen : Guarded (step onePeer) LaneNotRestarted genesis
      [.remoteOriginRecord 1 5 1 3 7 8 [] 0, .remoteOriginRecord 2 5 2 2 9 9 [] 0] :=
    ⟨fun _ _ _ _ => by decide, fun _ _ _ _ => by decide, trivial⟩
  exact ⟨hwhen, remote_lanes_in_order onePeer genesis hwhen 5⟩

/-- A lane that begins at `2^64 - 1`: the cursor wraps and the batch of sequence number 0 is accepted
after it. -/
theorem remote_lane_wraps : batchesOf 5 (run (step onePeer) genesis
        [.remoteOriginRecord 1 5 1 2 (-1) (-1) [] 0, .remoteOriginRecord 2 5 2 2 0 0 [] 0]).2
      = [⟨1, 2, -1, -1⟩, ⟨2, 2, 0, 0⟩] ∧
    ¬ LaneInOrder (batchesOf 5 (run (step onePeer) genesis
        [.remoteOriginRecord 1 5 1 2 (-1) (-1) [] 0, .remoteOriginRecord 2 5 2 2 0 0 [] 0]).2) := by
  have hbatches : batchesOf 5 (run (step onePeer) genesis
      [.remoteOriginRecord 1 5 1 2 (-1) (-1) [] 0, .remoteOriginRecord 2 5 2 2 0 0 [] 0]).2
      = [⟨1, 2, -1, -1⟩, ⟨2, 2, 0, 0⟩] := by decide +kernel
  refine ⟨hbatches, fun h => ?_⟩
  rw [hbatches] at h
  exact absurd (isChain_pair.1 h.contiguous) (by decide)

end Kardamom.Sealer.CanonicalSealerState
