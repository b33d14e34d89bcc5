import Kardamom.Anchor.PostRoot
import Kardamom.State.TrieRuns

/-!
# The recomputed root and the live root

The same delta on the same state, by the stateless recompute and by the trie tables of the live writer. Both
drop an account that is empty, but the recompute only when it has no storage either, and the tables drop its
storage with it. So the two roots agree exactly when the delta leaves no empty account with a non-zero slot
(`recomputePostRoot_eq_live_iff`).
-/

namespace Kardamom.Anchor

open Mpt State LinkedMap TrieTables Outcome StateDb

variable {H : Type} [LinearOrder H] {C : StateCodec H}

/-- The delta of a block for the writer: each of the maps in the order of its keys. -/
def finalize (delta : PendingDelta H) : BlockDelta H where
  accounts := delta.accounts.entries.insertionSort fun a b => a.1 ≤ b.1
  storage := delta.storage.entries.insertionSort fun a b => a.1.1 < b.1.1 ∨ a.1.1 = b.1.1 ∧ a.1.2 ≤ b.1.2
  code := delta.code.entries.insertionSort fun a b => a.1 ≤ b.1

/-- Entries in another order are the same map. -/
theorem lastOf_of_perm {α β : Type} [DecidableEq α] {m : LinkedMap α β} {es : List (α × β)}
    (h : es.Perm m.entries) (k : α) : lastOf es k = m.get? k := by
  refine IsMap.lastOf ⟨(h.map Prod.fst).nodup_iff.2 m.nodup, fun k v => ?_⟩ k
  rw [h.mem_iff, get?_eq_some_iff]

section

variable (w : World H) (delta : PendingDelta H) (a : Address)

theorem account_write_finalize :
    (w.write (finalize delta)).accounts.get? a = (w.apply delta).accounts.get? a := by
  have hlast : lastOf (finalize delta).accounts a = delta.accounts.get? a :=
    lastOf_of_perm (List.perm_insertionSort ..) a
  rw [w.account_apply, ← hlast]
  exact get?_putAll ..

theorem slot_write_finalize (key : B256) :
    (w.write (finalize delta)).slot a key = (w.apply delta).slot a key := by
  have hlast : lastOf (finalize delta).storage (a, key) = delta.storage.get? (a, key) :=
    lastOf_of_perm (List.perm_insertionSort ..) (a, key)
  rw [w.slot_apply, w.slot_write, writesOver_apply, lastOf_slotsIn, hlast]

end

/-- From a state without slots of empty accounts, the slots follow a delta that leaves none either. -/
theorem slotsFollow_iff {w : World H} (h : EmptyHoldNothing C w) (delta : PendingDelta H) :
    SlotsFollow C w delta ↔ EmptyHoldNothing C (w.apply delta) := by
  have hafter : ∀ a key, slotsAfter C w delta a key = (w.apply delta).slot a key := fun a key => by
    rw [slotsAfter, h.heldSlot_eq, w.slot_apply]
  constructor
  · intro hfollow a key hnone
    have hkey := congrFun (hfollow a) key
    rw [hafter, World.heldSlot, hnone] at hkey
    exact hkey.symm
  · intro hempty a
    funext key
    rw [hafter, hempty.heldSlot_eq]

/-- **One leaf rule on both sides**, as far as it goes: on the state that the tables hold, the recomputed root is
the root that the writer commits exactly when the delta leaves no empty account with a non-zero slot. -/
theorem recomputePostRoot_eq_live_iff (hC : C.Lawful) (hlong : C.LongBranches) {w : World H} {t : TrieTables H}
    (h : Mirrors C w t) {pre : ProvenPre H} (hroot : pre.root = w.root C) (hpre : Proven C w pre.accounts)
    {proofs : WitnessProofs} {delta : PendingDelta H} {root : H}
    (hok : recomputePostRoot C proofs pre delta = .ok root) :
    ∃ t' live, updateForBlock C t (finalize delta) = some (t', live) ∧
      (root = live ↔ EmptyHoldNothing C (w.apply delta)) := by
  obtain ⟨t', hrun, -⟩ := h.updateForBlock_pruned hC hlong (finalize delta)
  refine ⟨t', _, hrun, ?_⟩
  have hlive : (w.write (finalize delta)).root C = (w.apply delta).root C :=
    World.root_congr hC (fun a => by rw [account_write_finalize]) fun a _ key => slot_write_finalize w delta a key
  rw [hlive, recomputePostRoot_eq_iff hC hroot hpre hok, slotsFollow_iff (h.emptyHoldNothing hC)]

/-! ## Runs -/

/-- The tables of `fundedWorld`: one block on a fresh database. -/
theorem exists_mirrors_fundedWorld : ∃ t, Mirrors plainStateCodec fundedWorld t := by
  have hempty : EmptyHoldNothing plainStateCodec ((fresh : StateDb Digest).world.write
      ⟨fundedWorld.accounts.entries, fundedWorld.storage.entries, []⟩) :=
    emptyHoldNothing_of_entries (by decide +kernel)
  obtain ⟨t, -, hmirrors⟩ :=
    mirrors_fresh.updateForBlock plainStateCodec_lawful plainCodec_longBranches hempty
  exact ⟨t, hmirrors.congr (fun _ => rfl) fun _ => rfl⟩

/-- The account of `fundedWorld` changes, and so does its slot. -/
def fundedDelta : PendingDelta Digest where
  accounts := ⟨[(1, ⟨2, 4, plainCodec.zero⟩)], by decide⟩
  storage := ⟨[((1, keyOf 0), 8)], by decide⟩
  code := .empty

theorem recomputePostRoot_eq_live_iff_funded : ∃ t pre root, Mirrors plainStateCodec fundedWorld t ∧
      verifyWitnessAnchored plainStateCodec fundedWitness fundedProofs = .ok pre ∧
      recomputePostRoot plainStateCodec fundedProofs pre fundedDelta = .ok root ∧
      ∃ t' live, updateForBlock plainStateCodec t (finalize fundedDelta) = some (t', live) ∧
        (root = live ↔ EmptyHoldNothing plainStateCodec (fundedWorld.apply fundedDelta)) := by
  obtain ⟨t, hmirrors⟩ := exists_mirrors_fundedWorld
  obtain ⟨root, hroot⟩ := exists_of_isOk (show
    (verifyWitnessAnchored plainStateCodec fundedWitness fundedProofs >>= fun pre =>
      recomputePostRoot plainStateCodec fundedProofs pre fundedDelta).isOk = true by decide +kernel)
  obtain ⟨pre, hverify, hrecompute⟩ := bind_eq_ok.1 hroot
  obtain ⟨hpreRoot, hproven, -⟩ := verifyWitnessAnchored_spec plainStateCodec_lawful rfl hverify
  exact ⟨t, pre, root, hmirrors, hverify, hrecompute,
    recomputePostRoot_eq_live_iff plainStateCodec_lawful plainCodec_longBranches hmirrors hpreRoot hproven hrecompute⟩

/-- **An account with storage and nothing else**, again: the recompute gives it a leaf, the writer none. -/
theorem storageOnly_live_differs : Mirrors plainStateCodec emptyWorld .empty ∧
      ∃ pre root t' live, verifyWitnessAnchored plainStateCodec absentWitness ⟨[]⟩ = .ok pre ∧
        recomputePostRoot plainStateCodec ⟨[]⟩ pre storageOnly = .ok root ∧
        updateForBlock plainStateCodec .empty (finalize storageOnly) = some (t', live) ∧ root ≠ live := by
  refine ⟨mirrors_fresh, ?_⟩
  obtain ⟨root, hroot⟩ := exists_of_isOk (show
    (verifyWitnessAnchored plainStateCodec absentWitness ⟨[]⟩ >>= fun pre =>
      recomputePostRoot plainStateCodec ⟨[]⟩ pre storageOnly).isOk = true by decide +kernel)
  obtain ⟨pre, hverify, hrecompute⟩ := bind_eq_ok.1 hroot
  have hlive : (updateForBlock plainStateCodec .empty (finalize storageOnly)).map Prod.snd =
      some (emptyWorld.root plainStateCodec) := by decide +kernel
  obtain ⟨⟨t', live⟩, hrun, rfl⟩ := Option.map_eq_some_iff.1 hlive
  refine ⟨pre, root, t', _, hverify, hrecompute, hrun, fun heq => ?_⟩
  have hsame : (verifyWitnessAnchored plainStateCodec absentWitness ⟨[]⟩ >>= fun pre =>
      recomputePostRoot plainStateCodec ⟨[]⟩ pre storageOnly) = .ok (emptyWorld.root plainStateCodec) := heq ▸ hroot
  revert hsame
  decide +kernel

end Kardamom.Anchor
