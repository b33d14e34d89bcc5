import Kardamom.Lib.Run
import Kardamom.Sealer.Window

/-!
# Exactly-once ordering

An id leaves the dedup window when its held deadline passes, and from then on an offer is refused by
the deadline it carries: the two clauses hand over to each other only if the held deadline is the
carried one. The window clamps it to the inclusion horizon, so a record whose deadline lies beyond
the horizon leaves the window before its own deadline refuses it, and it is the nonce guard alone
that stands between. `relays_twice_beyond_horizon` is such a record, of the zero sender, ordered
twice.

`relays_once` is what holds: when every offer's deadline is within the horizon, or when the offers
beyond it come from senders that the nonce guard tracks and never forgets.
-/

namespace Kardamom.Sealer.CanonicalSealerState

open LinkedMap List Machine DedupWindow Option

/-! ## Offers and relays -/

/-- What a canonical id is offered with. -/
structure Offer where
  sender : Sender
  nonce : UInt64
  deadline : Int
  deriving DecidableEq, Repr

/-- Every offer of a record carries what `offers` says of its id. -/
def Op.OfferedAs (offers : CanonicalId → Offer) : Op → Prop
  | .record id sender nonce deadline _ => offers id = ⟨sender, nonce, deadline⟩
  | _ => True

instance (offers : CanonicalId → Offer) (op : Op) : Decidable (op.OfferedAs offers) :=
  match op with
  | .record id sender nonce deadline _ =>
    inferInstanceAs (Decidable (offers id = ⟨sender, nonce, deadline⟩))
  | .firstSeen .. | .ref .. | .carriedRef .. | .tick .. | .originRecord .. | .remoteOriginRecord ..
  | .voidRequest .. | .featureActivation .. | .postedCursor .. | .recordedCursor ..
  | .seedEpoch .. => .isTrue trivial

/-- The id that an answered call relayed as a record. -/
def relayedId : Op × Answer → Option CanonicalId
  | (.record id .., .record (.relayed _)) => some id
  | _ => none

/-- The ids relayed as records, in relay order. -/
def relayedIds (τ : List (Op × Answer)) : List CanonicalId := τ.filterMap relayedId

variable {cfg : SealerConfig} {s s' : CanonicalSealerState} {op : Op} {ans : Answer}

theorem relayedId_of_emitted (h : emitted op ans = []) : relayedId (op, ans) = none := by
  unfold relayedId
  split
  next heq =>
    cases heq
    simp [emitted] at h
  next => rfl

/-- A step relays an id as a record only after every check of the record path. -/
theorem Effect.relayedId_cases (he : Effect cfg s op s' ans) :
    relayedId (op, ans) = none ∨ ∃ id sender nonce deadline payload,
      op = .record id sender nonce deadline payload ∧ relayedId (op, ans) = some id ∧
        Admissible cfg s id deadline ∧
        s'.dedup = (s.insertFresh cfg id deadline).dedup ∧ s'.blockNumber = s.blockNumber ∧
        (sender = zeroSender ∨ (sender ≠ zeroSender ∧
          (∀ expected, s.expectedNonce.get? sender = some expected → expected = nonce) ∧
          s'.expectedNonce = putNonce cfg.dedupCapacity s.expectedNonce sender (nonce + 1))) := by
  cases he with
  | unchanged hno => exact .inl (relayedId_of_emitted hno)
  | recordZero hadm =>
    exact .inr ⟨_, _, _, _, _, rfl, rfl, hadm, rfl, rfl, .inl rfl⟩
  | recordFrom hadm hs _ _ hn =>
    exact .inr ⟨_, _, _, _, _, rfl, rfl, hadm, rfl, rfl, .inr ⟨hs, hn, rfl⟩⟩
  | refRefused hop => rcases hop with rfl | ⟨id, rfl⟩ <;> exact .inl rfl
  | _ => exact .inl rfl

/-! ## What covers a relayed id

An id that was relayed is *covered* when no offer of it can be relayed again. A cover that every
step keeps, and that every relayed record gets, makes the ordering exactly-once. -/

/-- What a cover must do, in the states that satisfy `Inv` and for the steps that meet `G`. -/
structure Cover (cfg : SealerConfig) (G : CanonicalSealerState → Op → Prop)
    (Inv : CanonicalSealerState → Prop) (C : CanonicalSealerState → CanonicalId → Prop) :
    Prop where
  inv : ∀ s op, Inv s → G s op → Inv (step cfg s op).1
  keep : ∀ s op id, Inv s → G s op → C s id → C (step cfg s op).1 id
  refuse : ∀ s op id, Inv s → G s op → C s id → relayedId (op, (step cfg s op).2) ≠ some id
  relay : ∀ s op id, Inv s → G s op → relayedId (op, (step cfg s op).2) = some id →
    C (step cfg s op).1 id

theorem Cover.nodup {G : CanonicalSealerState → Op → Prop} {Inv : CanonicalSealerState → Prop}
    {C : CanonicalSealerState → CanonicalId → Prop} (hc : Cover cfg G Inv C)
    {s₀ : CanonicalSealerState} (h₀ : Inv s₀) {ops : List Op}
    (hg : Guarded (step cfg) G s₀ ops) :
    (relayedIds (run (step cfg) s₀ ops).2).Nodup := by
  -- along the run: no id twice so far, and every id relayed so far is covered
  refine (run_induction_of_guard
    (P := fun s τ => Inv s ∧ (relayedIds τ).Nodup ∧ ∀ id ∈ relayedIds τ, C s id)
    ⟨h₀, nodup_nil, by simp [relayedIds]⟩ ?_ hg).2.1
  rintro s τ op ⟨hinv, hnd, hcov⟩ hG
  refine ⟨hc.inv s op hinv hG, ?_⟩
  rw [relayedIds, filterMap_snoc]
  cases h : relayedId (op, (step cfg s op).2) with
  | none =>
    rw [toList_none, append_nil]
    exact ⟨hnd, fun id hid => hc.keep s op id hinv hG (hcov id hid)⟩
  | some new =>
    constructor
    · refine nodup_append.2 ⟨hnd, nodup_singleton _, ?_⟩
      intro id hid x hx heq
      obtain rfl := mem_singleton.1 hx
      exact hc.refuse s op id hinv hG (hcov id hid) (heq ▸ h)
    · exact forall_mem_snoc.2
        ⟨fun id hid => hc.keep s op id hinv hG (hcov id hid), hc.relay s op _ hinv hG h⟩

/-! ## The window's cover -/

variable {offers : CanonicalId → Offer}

/-- The window holds the id until its own deadline, and from then on the deadline refuses it. -/
def WindowCover (offers : CanonicalId → Offer) (s : CanonicalSealerState) (id : CanonicalId) : Prop :=
  (id, (offers id).deadline) ∈ s.dedup.dedup.entries ∨ (offers id).deadline < s.blockNumber

variable {id : CanonicalId}

theorem WindowCover.keep (h : WindowCover offers s id) (hsv : Survives s s') : WindowCover offers s' id := by
  rcases h with h | h
  · exact hsv.2 _ _ h
  · exact .inr (lt_of_lt_of_le h hsv.1)

theorem WindowCover.refuse (h : WindowCover offers s id)
    (hadm : Admissible cfg s id (offers id).deadline) : False := by
  rcases h with h | h
  · exact hadm.fresh (mem_map.2 ⟨_, h, rfl⟩)
  · have := hadm.inTime
    omega

/-- A deadline within the horizon is held unclamped. -/
theorem WindowCover.relay (hadm : Admissible cfg s id (offers id).deadline)
    (hd : s'.dedup = (s.insertFresh cfg id (offers id).deadline).dedup)
    (hle : (offers id).deadline ≤ s.assignedDeadline cfg) : WindowCover offers s' id := by
  refine .inl ?_
  rw [hd, insertFresh, insertFresh_entries hadm.fresh, Int.min_eq_left hle]
  simp

/-- Every offer's deadline lies within the inclusion horizon at its call. -/
def WithinHorizon (cfg : SealerConfig) (s : CanonicalSealerState) : Op → Prop
  | .record _ _ _ deadline _ => deadline ≤ s.assignedDeadline cfg
  | _ => True

instance (cfg : SealerConfig) (s : CanonicalSealerState) (op : Op) :
    Decidable (WithinHorizon cfg s op) :=
  match op with
  | .record _ _ _ deadline _ => inferInstanceAs (Decidable (deadline ≤ s.assignedDeadline cfg))
  | .firstSeen .. | .ref .. | .carriedRef .. | .tick .. | .originRecord .. | .remoteOriginRecord ..
  | .voidRequest .. | .featureActivation .. | .postedCursor .. | .recordedCursor ..
  | .seedEpoch .. => .isTrue trivial

/-- An id that is relayed was offered in this step, as it is always offered. -/
theorem relayed_offer (hrel : relayedId (op, (step cfg s op).2) = some id) (hoff : op.OfferedAs offers) :
    ∃ payload, op = .record id (offers id).sender (offers id).nonce (offers id).deadline payload ∧
      Admissible cfg s id (offers id).deadline ∧
      (step cfg s op).1.dedup = (s.insertFresh cfg id (offers id).deadline).dedup ∧
      ((offers id).sender = zeroSender ∨ (offers id).sender ≠ zeroSender ∧
        (∀ expected, s.expectedNonce.get? (offers id).sender = some expected → expected = (offers id).nonce) ∧
        (step cfg s op).1.expectedNonce
          = putNonce cfg.dedupCapacity s.expectedNonce (offers id).sender ((offers id).nonce + 1)) := by
  rcases (step_effect cfg s op).relayedId_cases with hno | ⟨id', sender, nonce, deadline, payload, hop, hid, hadm, hd,
    -, hsender⟩
  · rw [hno] at hrel
    cases hrel
  · obtain rfl : id' = id := some.inj (hid.symm.trans hrel)
    have hoffer : offers id' = ⟨sender, nonce, deadline⟩ := by simpa [hop, Op.OfferedAs] using hoff
    rw [hoffer]
    exact ⟨payload, hop, hadm, hd, hsender⟩

theorem windowCover (hv : cfg.voids.voterMask = 0) :
    Cover cfg (fun s op => WithinHorizon cfg s op ∧ op.OfferedAs offers)
      (fun s => s.dedup.Agree) (WindowCover offers) where
  inv s op h _ := (step_effect cfg s op).agree h
  keep s op id h _ hc := hc.keep ((step_effect cfg s op).survives hv h)
  refuse s op id h hG hc hrel := by
    obtain ⟨payload, -, hadm, -⟩ := relayed_offer hrel hG.2
    exact hc.refuse hadm
  relay s op id h hG hrel := by
    obtain ⟨payload, hop, hadm, hd, -⟩ := relayed_offer hrel hG.2
    exact .relay hadm hd (by simpa [hop, WithinHorizon] using hG.1)

/-! ## The nonce guard's cover -/

/-- The guard tracks the sender and expects a nonce past the id's. -/
def NonceCover (offers : CanonicalId → Offer) (s : CanonicalSealerState) (id : CanonicalId) : Prop :=
  ∃ expected, s.expectedNonce.get? (offers id).sender = some expected ∧
    (offers id).nonce.toNat < expected.toNat

/-- A record of the zero sender stays within the horizon; a record of another sender evicts no
sender from the nonce guard, and its nonce has a successor. -/
def NonceGuarded (cfg : SealerConfig) (s : CanonicalSealerState) : Op → Prop
  | .record _ sender nonce deadline _ =>
    (sender = zeroSender → deadline ≤ s.assignedDeadline cfg) ∧
      (sender ≠ zeroSender → (sender ∈ s.expectedNonce.keys ∨
        s.expectedNonce.size < cfg.dedupCapacity) ∧ nonce.toNat + 1 < 2 ^ 64)
  | _ => True

theorem putNonce_of_room {cap : Nat} {m : LinkedMap Sender UInt64} {sender : Sender}
    (hsize : m.size ≤ cap) (hroom : sender ∈ m.keys ∨ m.size < cap) (nonce : UInt64) :
    putNonce cap m sender nonce = m.putLast sender nonce := by
  refine dropEldestOver_of_le ?_
  rcases hroom with hmem | hlt
  · rwa [size_putLast_of_mem hmem]
  · have := size_putLast_le m sender nonce
    omega

/-- While nothing is evicted, the expected nonce of a sender only grows. -/
theorem NonceCover.keep (h : NonceCover offers s id)
    (he : Effect cfg s op s' ans) (hv : cfg.voids.voterMask = 0)
    (hsize : s.expectedNonce.size ≤ cfg.dedupCapacity) (hG : NonceGuarded cfg s op) :
    NonceCover offers s' id := by
  obtain ⟨expected, hget, hlt⟩ := h
  rcases he.expectedNonce_cases hv with heq | ⟨sender, heq⟩ |
      ⟨_, sender, nonce, _, _, hop, hs, hn, heq⟩
  · exact ⟨expected, heq ▸ hget, hlt⟩
  · exact ⟨expected, by rw [heq, get?_touch]; exact hget, hlt⟩
  · rw [hop] at hG
    obtain ⟨hroom, hnext⟩ := hG.2 hs
    rw [putNonce_of_room hsize hroom] at heq
    unfold NonceCover
    rw [heq]
    by_cases hsame : (offers id).sender = sender
    · rw [hsame, get?_putLast_self]
      rw [hsame] at hget
      rw [hn expected hget] at hlt
      exact ⟨nonce + 1, rfl, by rw [toNat_add_one hnext]; omega⟩
    · rw [get?_putLast_of_ne _ hsame]
      exact ⟨expected, hget, hlt⟩

/-- The cover of an id under `NonceGuarded`: the window's for the zero sender, else the guard's. -/
def SenderCover (offers : CanonicalId → Offer) (s : CanonicalSealerState) (id : CanonicalId) :
    Prop :=
  if (offers id).sender = zeroSender then WindowCover offers s id else NonceCover offers s id

theorem senderCover (hv : cfg.voids.voterMask = 0) :
    Cover cfg (fun s op => NonceGuarded cfg s op ∧ op.OfferedAs offers)
      (fun s => s.dedup.Agree ∧ s.expectedNonce.size ≤ cfg.dedupCapacity)
      (SenderCover offers) where
  inv s op h _ := ⟨(step_effect cfg s op).agree h.1, (step_effect cfg s op).size_expectedNonce h.2⟩
  keep s op id h hG hc := by
    unfold SenderCover at hc ⊢
    split
    next hz => rw [if_pos hz] at hc; exact hc.keep ((step_effect cfg s op).survives hv h.1)
    next hz => rw [if_neg hz] at hc; exact hc.keep (step_effect cfg s op) hv h.2 hG.1
  refuse s op id h hG hc hrel := by
    obtain ⟨payload, -, hadm, -, hsender⟩ := relayed_offer hrel hG.2
    unfold SenderCover at hc
    rcases hsender with hz | ⟨hs, hn, -⟩
    · rw [if_pos hz] at hc
      exact hc.refuse hadm
    · rw [if_neg hs] at hc
      obtain ⟨expected, hget, hlt⟩ := hc
      rw [hn expected hget] at hlt
      exact lt_irrefl _ hlt
  relay s op id h hG hrel := by
    obtain ⟨payload, hop, hadm, hd, hsender⟩ := relayed_offer hrel hG.2
    have hguard := hG.1
    rw [hop] at hguard
    unfold SenderCover
    rcases hsender with hz | ⟨hs, -, heq⟩
    · rw [if_pos hz]
      exact .relay hadm hd (hguard.1 hz)
    · rw [if_neg hs]
      obtain ⟨hroom, hnext⟩ := hguard.2 hs
      refine ⟨(offers id).nonce + 1, ?_, ?_⟩
      · rw [heq, putNonce_of_room h.2 hroom, get?_putLast_self]
      · rw [toNat_add_one hnext]
        exact Nat.lt_succ_self _

/-! ## Exactly once -/

theorem Started.agree {s₀ : CanonicalSealerState} (h : Started cfg s₀) : s₀.dedup.Agree := by
  cases h <;> exact agree_empty

/-- **Exactly-once ordering.** With voids disabled and each id always offered with one sender, nonce
and deadline, no id is relayed twice in a run whose deadlines are all within the inclusion horizon,
or in one where those beyond it belong to senders the nonce guard never forgets. -/
theorem relays_once (hv : cfg.voids.voterMask = 0) {s₀ : CanonicalSealerState}
    (h₀ : Started cfg s₀) {ops : List Op} (offers : CanonicalId → Offer)
    (hoffers : ∀ op ∈ ops, op.OfferedAs offers)
    (hwhen : Guarded (step cfg) (WithinHorizon cfg) s₀ ops ∨
      Guarded (step cfg) (NonceGuarded cfg) s₀ ops) :
    (relayedIds (run (step cfg) s₀ ops).2).Nodup := by
  have hoff : Guarded (step cfg) (fun _ op => op.OfferedAs offers) s₀ ops :=
    Guarded.of_inputs s₀ hoffers
  rcases hwhen with hg | hg
  · exact (windowCover hv).nodup h₀.agree (hg.and hoff)
  · exact (senderCover hv).nodup ⟨h₀.agree, h₀.size_expectedNonce⟩ (hg.and hoff)

/-- A record offered twice inside the horizon is relayed once. -/
theorem relays_once_within_horizon :
    Guarded (step .default) (WithinHorizon .default) genesis
        [.record 1 0 0 60 [], .tick 0, .record 1 0 0 60 []] ∧
      (relayedIds (run (step .default) genesis
        [.record 1 0 0 60 [], .tick 0, .record 1 0 0 60 []]).2).Nodup :=
  ⟨⟨by decide, trivial, by decide, trivial⟩,
    relays_once rfl .genesis (fun _ => ⟨0, 0, 60⟩) (by decide)
      (.inl ⟨by decide, trivial, by decide, trivial⟩)⟩

/-- A record of the zero sender with a deadline beyond the horizon: the window forgets it when the
horizon has passed, its deadline does not refuse it yet, and it is ordered a second time. -/
theorem relays_twice_beyond_horizon :
    SealerConfig.default.voids.voterMask = 0 ∧
      (∀ op ∈ .record 1 0 0 1000 [] :: List.replicate 65 (.tick 0) ++ [Op.record 1 0 0 1000 []],
        op.OfferedAs fun _ => ⟨0, 0, 1000⟩) ∧
      relayedIds (run (step .default) genesis
        (.record 1 0 0 1000 [] :: List.replicate 65 (.tick 0) ++ [.record 1 0 0 1000 []])).2
        = [1, 1] := by
  refine ⟨rfl, ?_, by decide +kernel⟩
  simp [Op.OfferedAs]

end Kardamom.Sealer.CanonicalSealerState
