import Kardamom.Sealer.OrderingWindow
import Kardamom.Sealer.Window

/-!
# Nonce contiguity

The nonce guard relays a record of a tracked sender only at the expected nonce, so the relayed nonces
of a sender follow one another as long as the guard does not forget the sender and the expected
nonce does not wrap.

* It does not forget: the senders that the run touched stand at the newest end of the
  access-ordered map, and there are at most `dedupCapacity` of them.
* It can wrap: after nonce `2^64 - 1` it expects nonce 0, and `nonces_wrap` relays both.

`nonces_contiguous` is the result, for calls made directly and for calls that went through the
ordering window, which keeps each sender's arrival order.
-/

namespace Kardamom.Sealer

open List Machine LinkedMap Option SealerConfig

namespace CanonicalSealerState

open RecordPath (offered offered_append offered_eq offered_run)
open Machine

/-! ## The relays of a sender -/

/-- A relayed record of one sender. -/
structure Relay where
  index : Int
  nonce : UInt64
  deriving DecidableEq, Repr

/-- The relay of `sender` that an answered call made. -/
def relayOf (sender : Sender) : Op × Answer → Option Relay
  | (.record _ from_ nonce _ _, .record (.relayed r)) =>
    if from_ = sender then some ⟨r.index, nonce⟩ else none
  | _ => none

/-- The relays of `sender`, in relay order. -/
def relaysOf (sender : Sender) (τ : List (Op × Answer)) : List Relay := τ.filterMap (relayOf sender)

/-- The next relay: a later index, and the next nonce. -/
def Follows (a b : Relay) : Prop := a.index < b.index ∧ b.nonce.toNat = a.nonce.toNat + 1

/-- In index order, the relayed nonces of every non-zero sender are consecutive and ascending. -/
def NoncesContiguous (τ : List (Op × Answer)) : Prop :=
  ∀ sender ≠ zeroSender, (relaysOf sender τ).IsChain Follows

/-- The record `b`, offered after `a`, does not restart the sender's count at 0 after its last
nonce. -/
def KeepsCount (a b : HeldRecord) : Prop :=
  a.sender = b.sender → a.sender ≠ zeroSender → a.nonce.toNat = 2 ^ 64 - 1 → b.nonce ≠ 0

/-- The non-zero senders of a list of records. -/
def nonZeroSenders (rs : List HeldRecord) : Finset Sender :=
  ((rs.map (·.sender)).filter (· ≠ zeroSender)).toFinset

variable {rs : List HeldRecord}

theorem mem_nonZeroSenders {x : Sender} :
    x ∈ nonZeroSenders rs ↔ x ≠ zeroSender ∧ ∃ r ∈ rs, r.sender = x := by
  simp [nonZeroSenders, and_comm]

variable {cfg : SealerConfig} {s s' : CanonicalSealerState} {op : Op} {ans : Answer}
  {τ : List (Op × Answer)}

theorem relayOf_of_emitted (h : emitted op ans = []) (x : Sender) : relayOf x (op, ans) = none := by
  unfold relayOf
  split
  next heq =>
    cases heq
    simp [emitted] at h
  next => rfl

/-- A relay was offered. -/
theorem offered_of_relay {x : Sender} {r : Relay} (h : r ∈ relaysOf x τ) :
    ∃ a ∈ offered τ, a.sender = x ∧ a.nonce = r.nonce := by
  obtain ⟨⟨op, ans⟩, hc, hr⟩ := mem_filterMap.1 h
  unfold relayOf at hr
  split at hr
  next id from_ nonce deadline payload _ heq =>
    cases heq
    split at hr
    next hx =>
      cases hr
      exact ⟨⟨id, from_, nonce, deadline, payload⟩, mem_filterMap.2 ⟨_, hc, rfl⟩, hx, rfl⟩
    next => cases hr
  next => cases hr

/-- What a step can do to the guard and to the relays of the non-zero senders, while no void is
decided. -/
theorem Effect.relay_cases (he : Effect cfg s op s' ans) (hv : cfg.voids.voterMask = 0) :
    (s'.expectedNonce = s.expectedNonce ∧ ∀ x ≠ zeroSender, relayOf x (op, ans) = none) ∨
      (∃ r : HeldRecord, op = r.op ∧ r.sender ≠ zeroSender ∧ r.sender ∈ s.expectedNonce.keys ∧
        s'.expectedNonce = s.expectedNonce.touch r.sender ∧
        ∀ x ≠ zeroSender, relayOf x (op, ans) = none) ∨
      ∃ r : HeldRecord, op = r.op ∧ r.sender ≠ zeroSender ∧
        (∀ expected, s.expectedNonce.get? r.sender = some expected → expected = r.nonce) ∧
        s'.expectedNonce = putNonce cfg.dedupCapacity s.expectedNonce r.sender (r.nonce + 1) ∧
        s'.canonicalCount = s.canonicalCount + 1 ∧
        ∀ x, relayOf x (op, ans)
          = if r.sender = x then some ⟨s.canonicalCount, r.nonce⟩ else none := by
  cases he with
  | unchanged hno => exact .inl ⟨rfl, fun x _ => relayOf_of_emitted hno x⟩
  | @nonceRejected id sender nonce _ deadline payload hs hget =>
    exact .inr (.inl ⟨⟨id, sender, nonce, deadline, payload⟩, rfl, hs,
      mem_keys_iff_get?.2 ⟨_, hget⟩, rfl, fun _ _ => rfl⟩)
  | recordZero => exact .inl ⟨rfl, fun x hx => if_neg fun h => hx h.symm⟩
  | @recordFrom id sender nonce deadline payload _ hs _ _ hn =>
    exact .inr (.inr ⟨⟨id, sender, nonce, deadline, payload⟩, rfl, hs, hn, rfl, rfl, fun _ => rfl⟩)
  | voided hd => exact (not_voided hv hd).elim
  | refRefused hop => rcases hop with rfl | ⟨id, rfl⟩ <;> exact .inl ⟨rfl, fun _ _ => rfl⟩
  | originAdopted => exact .inl ⟨leadBlock_expectedNonce .., fun _ _ => rfl⟩
  | remoteAdopted => exact .inl ⟨leadBlock_expectedNonce .., fun _ _ => rfl⟩
  | _ => exact .inl ⟨rfl, fun _ _ => rfl⟩

/-! ## The guard along a run -/

/-- The senders that the run touched are `P`: they are the newest of the guard, and of each the
guard expects the nonce after its last relay. -/
structure Tracks (P : Sender → Prop) (s : CanonicalSealerState) (τ : List (Op × Answer)) :
    Prop where
  newest : s.expectedNonce.Newest P
  last : ∀ x ≠ zeroSender, ∀ r ∈ (relaysOf x τ).getLast?,
    P x ∧ r.index < s.canonicalCount ∧ s.expectedNonce.get? x = some (r.nonce + 1)
  contiguous : NoncesContiguous τ

variable {P : Sender → Prop}

/-- A step that relays nothing of a non-zero sender and keeps the guard's lookups. -/
theorem Tracks.of_no_relay {Q : Sender → Prop} (h : Tracks P s τ)
    (hno : ∀ x ≠ zeroSender, relayOf x (op, ans) = none) (hnew : s'.expectedNonce.Newest Q)
    (hPQ : ∀ x, P x → Q x) (hget : ∀ x, s'.expectedNonce.get? x = s.expectedNonce.get? x)
    (hcount : s.canonicalCount ≤ s'.canonicalCount) : Tracks Q s' (τ ++ [(op, ans)]) := by
  have hsame : ∀ x ≠ zeroSender, relaysOf x (τ ++ [(op, ans)]) = relaysOf x τ := by
    intro x hx
    rw [relaysOf, filterMap_snoc, hno x hx, toList_none, append_nil, relaysOf]
  refine ⟨hnew, fun x hx r hr => ?_, fun x hx => ?_⟩
  · rw [hsame x hx] at hr
    obtain ⟨hP, hlt, hexp⟩ := h.last x hx r hr
    exact ⟨hPQ x hP, lt_of_lt_of_le hlt hcount, by rw [hget, hexp]⟩
  · rw [hsame x hx]
    exact h.contiguous x hx

/-- The expected nonce of a sender is one more than the last relayed one, unless it wrapped. -/
theorem Tracks.follows (h : Tracks P s τ) {b : HeldRecord}
    (hb : b.sender ≠ zeroSender) (hkeeps : ∀ a ∈ offered τ, KeepsCount a b)
    (hn : ∀ expected, s.expectedNonce.get? b.sender = some expected → expected = b.nonce)
    {r : Relay} (hr : r ∈ (relaysOf b.sender τ).getLast?) :
    Follows r ⟨s.canonicalCount, b.nonce⟩ := by
  obtain ⟨-, hlt, hexp⟩ := h.last _ hb r hr
  have hnext : r.nonce + 1 = b.nonce := hn _ hexp
  obtain ⟨a, ha, hax, han⟩ := offered_of_relay (mem_of_mem_getLast? hr)
  have hfits : r.nonce.toNat + 1 < 2 ^ 64 := by
    by_contra hwrap
    have hmax : r.nonce.toNat = 2 ^ 64 - 1 := by
      have := r.nonce.toNat_lt
      omega
    refine hkeeps a ha hax (hax ▸ hb) (han ▸ hmax) ?_
    rw [← hnext]
    exact UInt64.toNat_inj.1 (by rw [UInt64.toNat_add, hmax]; rfl)
  refine ⟨hlt, ?_⟩
  rw [← hnext, toNat_add_one hfits]

/-- **One step.** While at most `dedupCapacity` senders are touched, a step keeps the guard. -/
theorem Tracks.step (h : Tracks P s τ) (he : Effect cfg s op s' ans)
    (hv : cfg.voids.voterMask = 0) {S : Finset Sender} (hS : S.card ≤ cfg.dedupCapacity)
    (hP : ∀ x, P x → x ∈ S)
    (hop : ∀ r, op.held = some r → r.sender ≠ zeroSender → r.sender ∈ S)
    (hkeeps : ∀ b, op.held = some b → ∀ a ∈ offered τ, KeepsCount a b) :
    ∃ Q : Sender → Prop, (∀ x, Q x → x ∈ S) ∧ Tracks Q s' (τ ++ [(op, ans)]) := by
  rcases he.relay_cases hv with ⟨heq, hno⟩ | ⟨r, rfl, hr, hmem, heq, hno⟩ |
      ⟨r, rfl, hr, hn, heq, hcount, hrelay⟩
  · exact ⟨P, hP, h.of_no_relay hno (heq ▸ h.newest) (fun _ => id) (fun _ => by rw [heq])
      he.canonicalCount_le⟩
  · refine ⟨fun x => P x ∨ x = r.sender, ?_, ?_⟩
    · rintro x (hx | rfl)
      · exact hP x hx
      · exact hop r rfl hr
    · refine h.of_no_relay hno ?_ (fun _ => .inl) (fun x => ?_) he.canonicalCount_le
      · rw [heq]
        exact h.newest.touch hmem
      · rw [heq, get?_touch]
  · have hQ : ∀ x, P x ∨ x = r.sender → x ∈ S := by
      rintro x (hx | rfl)
      · exact hP x hx
      · exact hop r rfl hr
    have hnewest := h.newest.putLast r.sender (r.nonce + 1)
    -- the put evicts none of the touched senders
    have hget : ∀ x, P x ∨ x = r.sender → s'.expectedNonce.get? x
        = (s.expectedNonce.putLast r.sender (r.nonce + 1)).get? x := by
      intro x hx
      rw [heq]
      exact hnewest.get?_dropEldestOver hQ hS hx
    refine ⟨fun x => P x ∨ x = r.sender, hQ, ?_, fun x hx q hq => ?_, fun x hx => ?_⟩
    · rw [heq]
      exact hnewest.dropEldestOver _
    · rw [relaysOf, filterMap_snoc, ← relaysOf, hrelay] at hq
      by_cases hxr : r.sender = x
      · subst hxr
        rw [if_pos rfl, toList_some, List.getLast?_concat] at hq
        obtain rfl := some.inj hq
        exact ⟨.inr rfl, by rw [hcount]; exact Int.lt_succ _,
          by rw [hget _ (.inr rfl), get?_putLast_self]⟩
      · rw [if_neg hxr, toList_none, append_nil] at hq
        obtain ⟨hPx, hlt, hexp⟩ := h.last x hx q hq
        refine ⟨.inl hPx, lt_of_lt_of_le hlt he.canonicalCount_le, ?_⟩
        rw [hget x (.inl hPx), get?_putLast_of_ne _ fun heq => hxr heq.symm, hexp]
    · rw [relaysOf, filterMap_snoc, ← relaysOf, hrelay]
      by_cases hxr : r.sender = x
      · subst hxr
        rw [if_pos rfl, isChain_append]
        refine ⟨h.contiguous _ hx, isChain_singleton _, fun q hq y hy => ?_⟩
        obtain rfl := some.inj hy
        exact h.follows hx (hkeeps r rfl) hn hq
      · rw [if_neg hxr, toList_none, append_nil]
        exact h.contiguous x hx

/-- The sealer's side: along a run of calls whose records keep the count. -/
theorem run_contiguous (hv : cfg.voids.voterMask = 0) (s₀ : CanonicalSealerState) {ops : List Op}
    (hsenders : (nonZeroSenders (ops.filterMap Op.held)).card ≤ cfg.dedupCapacity)
    (hkeeps : (ops.filterMap Op.held).Pairwise KeepsCount) :
    NoncesContiguous (run (step cfg) s₀ ops).2 := by
  set S := nonZeroSenders (ops.filterMap Op.held)
  have hrun : (∀ r ∈ offered (run (step cfg) s₀ ops).2, r.sender ≠ zeroSender →
        r.sender ∈ S) → (offered (run (step cfg) s₀ ops).2).Pairwise KeepsCount →
      ∃ P : Sender → Prop, (∀ x, P x → x ∈ S) ∧
        Tracks P (run (step cfg) s₀ ops).1 (run (step cfg) s₀ ops).2 := by
    refine run_induction (P := fun s τ => (∀ r ∈ offered τ, r.sender ≠ zeroSender → r.sender ∈ S) →
        (offered τ).Pairwise KeepsCount →
        ∃ P : Sender → Prop, (∀ x, P x → x ∈ S) ∧ Tracks P s τ) ?_ ?_ ops
    · exact fun _ _ => ⟨fun _ => False, fun _ => False.elim, newest_none _,
        by simp [relaysOf], fun _ _ => isChain_nil⟩
    · intro s τ op ih hS hpair
      rw [offered_append] at hS hpair
      obtain ⟨hpre, -, hcross⟩ := pairwise_append.1 hpair
      obtain ⟨P, hP, htr⟩ := ih (fun r hr => hS r (mem_append_left _ hr)) hpre
      have hlast : ∀ r, op.held = some r → r ∈ offered [(op, (step cfg s op).2)] :=
        fun r hr => mem_filterMap.2 ⟨_, mem_singleton_self _, hr⟩
      exact htr.step (step_effect cfg s op) hv hsenders hP
        (fun r hr => hS r (mem_append_right _ (hlast r hr)))
        (fun b hb a ha => hcross a ha b (hlast b hb))
  rw [offered_run] at hrun
  obtain ⟨P, -, htr⟩ := hrun (fun r hr hz => mem_nonZeroSenders.2 ⟨hz, r, hr, rfl⟩) hkeeps
  exact htr.contiguous

/-- Only records of one sender can break the count, so it is enough to look at each sender. -/
theorem pairwise_keepsCount (h : ∀ x ≠ zeroSender, (rs.filter (·.sender = x)).Pairwise KeepsCount) :
    rs.Pairwise KeepsCount := by
  rw [pairwise_iff_forall_sublist]
  intro a b hab heq hz
  have hown : [a, b].filter (·.sender = a.sender) = [a, b] := by simp [heq]
  have hsub := hab.filter (·.sender = a.sender)
  rw [hown] at hsub
  exact pairwise_iff_forall_sublist.1 (h a.sender hz) hsub heq hz

end CanonicalSealerState

/-! ## Through the ordering window -/

namespace RecordPath

open CanonicalSealerState

variable {cfg : SealerConfig} {arrived taken : List HeldRecord} {p : RecordPath}

/-- What the window offers of a sender is a first part of what arrived of it, so a condition on each
sender's arrivals holds of the calls. -/
theorem InOrder.keepsCount (h : InOrder arrived taken p) (hkeeps : arrived.Pairwise KeepsCount) :
    taken.Pairwise KeepsCount := by
  refine pairwise_keepsCount fun x hx => ?_
  have hown := List.Pairwise.filter (·.sender = x) hkeeps
  rw [← h.order x hx] at hown
  exact (pairwise_append.1 hown).1

theorem InOrder.nonZeroSenders_subset (h : InOrder arrived taken p) :
    nonZeroSenders taken ⊆ nonZeroSenders arrived := by
  intro x hx
  obtain ⟨hz, r, hr, rfl⟩ := mem_nonZeroSenders.1 hx
  have hmem : r ∈ taken.filter (·.sender = r.sender) ++ p.window.held.filter (·.sender = r.sender) :=
    mem_append_left _ (mem_filter.2 ⟨hr, by simp⟩)
  rw [h.order r.sender hz] at hmem
  exact mem_nonZeroSenders.2 ⟨hz, r, (mem_filter.1 hmem).1, rfl⟩

/-- **Nonce contiguity.** With voids disabled, from any state of the sealer: if at most
`dedupCapacity` non-zero senders offer records, and none of them offers nonce 0 after nonce
`2^64 - 1`, then the relayed nonces of every non-zero sender are consecutive and ascending in index
order. It holds of every interleaving of direct calls, and of every log whose records go through the
ordering window. -/
theorem nonces_contiguous (cfg : SealerConfig) (hv : cfg.voids.voterMask = 0) (s₀ : CanonicalSealerState) :
    (∀ ops : List Op, (nonZeroSenders (ops.filterMap Op.held)).card ≤ cfg.dedupCapacity →
        (ops.filterMap Op.held).Pairwise KeepsCount →
        NoncesContiguous (run (step cfg) s₀ ops).2) ∧
      ∀ events : List LogEvent, (nonZeroSenders (arrivals events)).card ≤ cfg.dedupCapacity →
        (arrivals events).Pairwise KeepsCount →
        NoncesContiguous (calls (run (onEvent cfg) ⟨.empty, s₀⟩ events).2) := by
  refine ⟨fun ops hsenders hkeeps => run_contiguous hv s₀ hsenders hkeeps, ?_⟩
  intro events hsenders hkeeps
  have horder := run_order cfg s₀ events
  have hcalls := isRun_run_onEvent cfg ⟨.empty, s₀⟩ events
  set σ := calls (run (onEvent cfg) ⟨.empty, s₀⟩ events).2
  have hrun : (run (step cfg) s₀ (σ.map Prod.fst)).2 = σ := congrArg Prod.snd hcalls
  rw [← hrun]
  apply run_contiguous hv s₀
  · rw [← offered_eq]
    exact (Finset.card_le_card horder.nonZeroSenders_subset).trans hsenders
  · rw [← offered_eq]
    exact horder.keepsCount hkeeps

/-- Two records of one sender through a window of two, the later with the higher tip: they keep
their order. -/
theorem nonces_contiguous_of_two : NoncesContiguous (calls (run
      (onEvent { default with orderingWindow := 2, orderingWindow_int := by decide })
      ⟨.empty, genesis⟩
      [.ingressRecord 0 1 ⟨1, 7, 5, 60, []⟩, .ingressRecord 0 9 ⟨2, 7, 6, 60, []⟩]).2) :=
  (nonces_contiguous { default with
      orderingWindow := 2, orderingWindow_int := by decide } rfl genesis).2 _
    (by decide) (by simp [arrivals, KeepsCount])

/-- A sender that starts at its last nonce: the expected nonce wraps, and nonce 0 is relayed after
it. -/
theorem nonces_wrap : default.voids.voterMask = 0 ∧ relaysOf 7 (run (step .default) genesis
          [.record 1 7 (-1) 60 [], .record 2 7 0 60 []]).2
        = [⟨0, -1⟩, ⟨1, 0⟩] ∧
      ¬ NoncesContiguous (run (step .default) genesis
          [.record 1 7 (-1) 60 [], .record 2 7 0 60 []]).2 := by
  have hrelays : relaysOf 7 (run (step .default) genesis
      [.record 1 7 (-1) 60 [], .record 2 7 0 60 []]).2 = [⟨0, -1⟩, ⟨1, 0⟩] := by decide +kernel
  refine ⟨rfl, hrelays, fun h => ?_⟩
  have hchain := h 7 (by decide)
  rw [hrelays] at hchain
  exact absurd (isChain_pair.1 hchain).2 (by decide)

end RecordPath

end Kardamom.Sealer
