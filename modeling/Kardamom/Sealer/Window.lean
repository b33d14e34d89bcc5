import Kardamom.Sealer.Effects

/-!
# The dedup window and the nonce guard along a run

What holds from step to step whatever the call. The map of the window and its deadline index agree
(`Effect.agree`). While no void is decided, an id leaves the window only when the open block passes
the deadline it is held under (`Effect.survives`), and the nonce guard changes only by the lookup of
a refused record or by the put of a relayed one (`Effect.expectedNonce_cases`).
-/

namespace Kardamom.Sealer.CanonicalSealerState

open DedupWindow LinkedMap List

variable {cfg : SealerConfig} {s s' : CanonicalSealerState} {op : Op} {ans : Answer}

/-- With voids disabled no vote is ever decided. -/
theorem not_voided (hv : cfg.voids.voterMask = 0) {voterId index : Int} {txHash : CanonicalId}
    {l : VoidLedger} {entry : VoidEntry}
    (h : s.voids.onVote cfg.voids voterId index txHash s.canonicalCount
      = (l, ⟨.decided, some entry⟩)) : False := by
  rw [VoidLedger.onVote_of_disabled hv] at h
  simp at h

theorem leadBlock_dedup (cfg : SealerConfig) (s : CanonicalSealerState) (key : CanonicalId)
    (clock : Int) :
    ((s.leadBlock cfg key clock).1.dedup = (s.insertFresh cfg key (s.assignedDeadline cfg)).dedup ∧
        (s.leadBlock cfg key clock).1.blockNumber = s.blockNumber) ∨
      ((s.leadBlock cfg key clock).1.dedup
          = (s.insertFresh cfg key (s.assignedDeadline cfg)).dedup.pruneExpired (s.blockNumber + 1)
        ∧ (s.leadBlock cfg key clock).1.blockNumber = s.blockNumber + 1) := by
  rcases leadBlock_cases cfg s key clock with ⟨-, h⟩ | ⟨-, h⟩
  · exact .inr (by rw [h]; exact ⟨rfl, rfl⟩)
  · exact .inl (by rw [h]; exact ⟨rfl, rfl⟩)

variable {key : CanonicalId}

theorem insertFresh_agree (cfg : SealerConfig) (h : s.dedup.Agree)
    (hk : key ∉ s.dedup.dedup.keys) (deadline : Int) : (s.insertFresh cfg key deadline).dedup.Agree :=
  DedupWindow.insertFresh_agree h hk _

theorem leadBlock_agree (h : s.dedup.Agree) (hk : key ∉ s.dedup.dedup.keys)
    (clock : Int) : (s.leadBlock cfg key clock).1.dedup.Agree := by
  have hins := insertFresh_agree cfg h hk (s.assignedDeadline cfg)
  rcases leadBlock_dedup cfg s key clock with ⟨hd, -⟩ | ⟨hd, -⟩
  · rw [hd]; exact hins
  · rw [hd]; exact pruneExpired_agree hins _

/-- The map and its deadline index agree after every step. -/
theorem Effect.agree (he : Effect cfg s op s' ans) (h : s.dedup.Agree) : s'.dedup.Agree := by
  cases he with
  | inserted hadm | recordZero hadm | recordFrom hadm => exact insertFresh_agree cfg h hadm.fresh _
  | voided => exact forget_agree h _
  | ticked => exact pruneExpired_agree h _
  | originAdopted _ hfresh | remoteAdopted hfresh => exact leadBlock_agree h hfresh _
  | _ => exact h

/-- An entry of the window stays until the open block passes its deadline. -/
def Survives (s s' : CanonicalSealerState) : Prop :=
  s.blockNumber ≤ s'.blockNumber ∧ ∀ id held, (id, held) ∈ s.dedup.dedup.entries →
    (id, held) ∈ s'.dedup.dedup.entries ∨ held < s'.blockNumber

theorem Survives.refl (h : s'.dedup = s.dedup) (hb : s'.blockNumber = s.blockNumber) :
    Survives s s' :=
  ⟨hb.ge, fun _ _ hm => .inl (h ▸ hm)⟩

theorem Survives.insert (hk : key ∉ s.dedup.dedup.keys) {deadline : Int}
    (h : s'.dedup = (s.insertFresh cfg key deadline).dedup) (hb : s'.blockNumber = s.blockNumber) :
    Survives s s' := by
  refine ⟨hb.ge, fun id held hm => .inl ?_⟩
  rw [h, insertFresh, insertFresh_entries hk]
  exact mem_append_left _ hm

theorem Survives.prune {w : DedupWindow} (hw : w.Agree)
    (hsub : ∀ e ∈ s.dedup.dedup.entries, e ∈ w.dedup.entries)
    (h : s'.dedup = w.pruneExpired (s.blockNumber + 1)) (hb : s'.blockNumber = s.blockNumber + 1) :
    Survives s s' := by
  refine ⟨by omega, fun id held hm => ?_⟩
  rw [h, pruneExpired_entries hw, hb]
  by_cases hd : held < s.blockNumber + 1
  · exact .inr hd
  · exact .inl (mem_filter.2 ⟨hsub _ hm, by simpa using hd⟩)

theorem Survives.lead (h : s.dedup.Agree) (hk : key ∉ s.dedup.dedup.keys)
    (clock : Int) (hd : s'.dedup = (s.leadBlock cfg key clock).1.dedup)
    (hb : s'.blockNumber = (s.leadBlock cfg key clock).1.blockNumber) : Survives s s' := by
  rcases leadBlock_dedup cfg s key clock with ⟨hd', hb'⟩ | ⟨hd', hb'⟩
  · exact .insert hk (hd.trans hd') (hb.trans hb')
  · refine .prune (insertFresh_agree cfg h hk _) (fun e he => ?_) (hd.trans hd') (hb.trans hb')
    rw [insertFresh, insertFresh_entries hk]
    exact mem_append_left _ he

/-- Without voids, only the passing of its deadline takes an id out of the window. -/
theorem Effect.survives (he : Effect cfg s op s' ans) (hv : cfg.voids.voterMask = 0)
    (h : s.dedup.Agree) : Survives s s' := by
  cases he with
  | inserted hadm | recordZero hadm | recordFrom hadm => exact .insert hadm.fresh rfl rfl
  | voided hd => exact (not_voided hv hd).elim
  | ticked => exact .prune h (fun _ he => he) rfl rfl
  | originAdopted _ hfresh | remoteAdopted hfresh => exact .lead h hfresh _ rfl rfl
  | _ => exact .refl rfl rfl

/-! ## The nonce guard -/

theorem size_putNonce_le {cap : Nat} {m : LinkedMap Sender UInt64} (hsize : m.size ≤ cap)
    (sender : Sender) (nonce : UInt64) : (putNonce cap m sender nonce).size ≤ cap :=
  size_dropEldestOver_le ((size_putLast_le m sender nonce).trans (Nat.succ_le_succ hsize))

theorem leadBlock_expectedNonce (cfg : SealerConfig) (s : CanonicalSealerState) (key : CanonicalId)
    (clock : Int) : (s.leadBlock cfg key clock).1.expectedNonce = s.expectedNonce := by
  unfold leadBlock
  split <;> rfl

/-- What a step can do to the nonce guard while no void is decided. -/
theorem Effect.expectedNonce_cases (he : Effect cfg s op s' ans) (hv : cfg.voids.voterMask = 0) :
    s'.expectedNonce = s.expectedNonce ∨
      (∃ sender, s'.expectedNonce = s.expectedNonce.touch sender) ∨
      ∃ id sender nonce deadline payload, op = .record id sender nonce deadline payload ∧
        sender ≠ zeroSender ∧
        (∀ expected, s.expectedNonce.get? sender = some expected → expected = nonce) ∧
        s'.expectedNonce = putNonce cfg.dedupCapacity s.expectedNonce sender (nonce + 1) := by
  cases he with
  | nonceRejected => exact .inr (.inl ⟨_, rfl⟩)
  | recordFrom _ hs _ _ hn => exact .inr (.inr ⟨_, _, _, _, _, rfl, hs, hn, rfl⟩)
  | voided hd => exact (not_voided hv hd).elim
  | originAdopted | remoteAdopted => exact .inl (leadBlock_expectedNonce ..)
  | _ => exact .inl rfl

/-- A void changes the expected nonce of a sender that has one. -/
theorem size_appendVoid (s : CanonicalSealerState) (entry : VoidEntry) :
    (s.appendVoid entry).1.expectedNonce.size = s.expectedNonce.size := by
  unfold appendVoid
  split
  next hget => exact size_putLast_of_mem (mem_keys_iff_get?.2 ⟨_, hget⟩) _
  next => rfl

theorem Effect.size_expectedNonce (he : Effect cfg s op s' ans)
    (h : s.expectedNonce.size ≤ cfg.dedupCapacity) :
    s'.expectedNonce.size ≤ cfg.dedupCapacity := by
  cases he with
  | nonceRejected => exact (size_touch ..).le.trans h
  | recordFrom => exact size_putNonce_le h ..
  | voided => exact (size_appendVoid ..).le.trans h
  | originAdopted | remoteAdopted => exact (leadBlock_expectedNonce cfg s ..).symm ▸ h
  | _ => exact h

theorem toNat_add_one {nonce : UInt64} (h : nonce.toNat + 1 < 2 ^ 64) :
    (nonce + 1).toNat = nonce.toNat + 1 := by
  rw [UInt64.toNat_add, UInt64.toNat_one, Nat.mod_eq_of_lt h]

theorem Started.size_expectedNonce {s₀ : CanonicalSealerState} (h : Started cfg s₀) :
    s₀.expectedNonce.size ≤ cfg.dedupCapacity := by
  cases h with
  | genesis => exact Nat.zero_le _
  | seeded seed _ =>
    refine foldlRecOn (motive := fun m : LinkedMap Sender UInt64 => m.size ≤ cfg.dedupCapacity)
      seed.senders _ (Nat.zero_le _) ?_
    exact fun m hm x _ => size_putNonce_le hm x.1 x.2

end Kardamom.Sealer.CanonicalSealerState
