import Kardamom.Anchor.WitnessSound

/-!
# The root after the block

What `recomputePostRoot` answers, from the proven leaves of a world and the writes of a block. It is the
root of a trie whose leaves are those of the world, with the leaf of each touched account computed from the
delta. That leaf differs from the leaf of the world after the block in one thing only: an account that is
empty but has storage keeps a leaf here, and the canonical root has none for it
(`recomputePostRoot_eq_iff`).
-/

namespace Kardamom.Anchor

open ProvenPre Prod

open Mpt State Outcome SortedMap ProvenPre List Option Function World StateCodec WitnessAnchor

variable {H : Type} [LinearOrder H] {C : StateCodec H}

/-! ## The writes of one account -/

/-- The slots that an account holds, with the writes of a delta over them. -/
def slotsAfter (C : StateCodec H) (w : World H) (delta : PendingDelta H) (address : Address) (key : B256) :
    U256 :=
  (delta.storage.get? (address, key)).getD (w.heldSlot C address key)

theorem writesOver_slotsIn (w : World H) (delta : PendingDelta H) (address : Address) :
    writesOver (w.heldSlot C address) (slotsIn delta.storage.entries address) =
      slotsAfter C w delta address := by
  funext key
  rw [writesOver_apply, (isMap_slotsIn delta.storage address).lastOf]
  rfl

omit [LinearOrder H] in
theorem get?_groupStorageWrites (delta : PendingDelta H) (address : Address) :
    (groupStorageWrites delta).get? address =
      if slotsIn delta.storage.entries address = [] then none
      else some (slotsIn delta.storage.entries address) :=
  get?_foldl_group _ _

variable {address : Address}

theorem slotsIn_eq_nil_iff {storage : LinkedMap (Address × B256) U256} :
    slotsIn storage.entries address = [] ↔ ∀ key, storage.get? (address, key) = none := by
  have hmap := isMap_slotsIn storage address
  constructor
  · intro hnil key
    refine eq_none_iff_forall_ne_some.2 fun v hv => ?_
    have hmem := (hmap.mem_iff key v).2 hv
    rw [hnil] at hmem
    cases hmem
  · intro hnone
    refine eq_nil_iff_forall_not_mem.2 fun e he => ?_
    have hv := (hmap.mem_iff e.1 e.2).1 he
    rw [hnone] at hv
    cases hv

variable {slots : B256 → U256}

omit [LinearOrder H] in
theorem slotMap_zero_iff (hC : C.Lawful) : slotMap C slots = (fun _ => none) ↔ slots = fun _ => 0 := by
  exact ⟨fun h => slotMap_injective hC h, congrArg _⟩

/-! ## Storage roots -/

variable {trie trie' : SparseTrie C.toCodec} {roots : SortedMap Address H}

namespace ProvenPre

variable {addr : Address}

section

variable (hC : C.Lawful) (htrie : Holds trie (keyed C.slotKey (slotMap C slots)))
include hC htrie

theorem applyOneStorageWrite_spec {key : B256} {value : U256}
    (h : applyOneStorageWrite C trie addr key value = .ok trie') :
    Holds trie' (keyed C.slotKey (slotMap C (update slots key value))) := by
  rw [slotMap_update, keyed_update hC.slotKey_injective]
  unfold applyOneStorageWrite at h
  unfold slotLeaf
  split at h
  case isTrue hzero =>
    rw [if_pos hzero]
    exact (htrie.remove hC.toLawful _).2 _ (mapErr_eq_ok.1 h)
  case isFalse hne =>
    rw [if_neg hne]
    exact (htrie.insert hC.toLawful _ _).2 _ (mapErr_eq_ok.1 h)

theorem applyStorageWrites_spec {writes : List (B256 × U256)}
    (h : applyStorageWrites C addr writes trie = .ok trie') :
    Holds trie' (keyed C.slotKey (slotMap C (writesOver slots writes))) := by
  induction writes generalizing trie slots with
  | nil =>
    cases h
    exact htrie
  | cons e writes ih =>
    obtain ⟨trie'', hone, h⟩ := bind_eq_ok.1 h
    exact ih (applyOneStorageWrite_spec hC htrie hone) h

end

variable {w : World H} {delta : PendingDelta H} {pre : ProvenPre H}

/-- The storage roots that were computed commit to the slots after the block. -/
def RootsAfter (C : StateCodec H) (w : World H) (delta : PendingDelta H) (roots : SortedMap Address H) : Prop :=
  ∀ address root, roots.get? address = some root →
    SecureRoot C.toCodec C.slotKey (slotMap C (slotsAfter C w delta address)) root

variable (hC : C.Lawful)
include hC

theorem recomputeStorageRoots_spec (hpre : Proven C w pre.accounts)
    {store : NodeStore C.toCodec} {writes : List (Address × List (B256 × U256))}
    (hwrites : ∀ e ∈ writes, e.2 = slotsIn delta.storage.entries e.1) {roots out : SortedMap Address H}
    (hroots : RootsAfter C w delta roots)
    (h : pre.recomputeStorageRoots C store writes roots = .ok out) :
    RootsAfter C w delta out ∧
      ∀ address, (∃ root, roots.get? address = some root) ∨ address ∈ writes.map fst →
        ∃ root, out.get? address = some root := by
  induction writes generalizing roots with
  | nil =>
    cases h
    exact ⟨hroots, fun address hor => hor.resolve_right (by simp)⟩
  | cons e writes ih =>
    obtain ⟨addr, slots⟩ := e
    obtain ⟨preAcct, hget, hstorage⟩ := bind_eq_ok.1 h
    obtain ⟨trie, htrie, hrest⟩ := bind_eq_ok.1 hstorage
    obtain rfl : preAcct = w.leaf C addr := hpre _ _ (ofOption_eq_ok.1 hget)
    obtain rfl : slots = slotsIn delta.storage.entries addr := hwrites _ mem_cons_self
    have hstart := Holds.of_secureRoot hC.toLawful store (secureRoot_storageRootOf hC w addr)
    have hafter := applyStorageWrites_spec hC hstart htrie
    rw [writesOver_slotsIn] at hafter
    have hroots' : RootsAfter C w delta (roots.upsert addr fun _ => trie.rootHash) := by
      intro address root hr
      by_cases ha : address = addr
      · subst ha
        rw [get?_upsert_self] at hr
        cases hr
        exact hafter.secureRoot
      · rw [get?_upsert_of_ne _ ha] at hr
        exact hroots address root hr
    obtain ⟨hout, hhas⟩ := ih (fun e he => hwrites e (mem_cons_of_mem _ he)) hroots' hrest
    refine ⟨hout, fun address hor => hhas address ?_⟩
    by_cases ha : address = addr
    · subst ha
      exact .inl ⟨_, get?_upsert_self ..⟩
    · rw [get?_upsert_of_ne _ ha]
      exact hor.imp_right fun hmem => (mem_cons.1 hmem).resolve_left ha

/-! ## The leaf of a touched account -/

/-- The fields that the recompute takes count as those of the world after the block. -/
theorem normal_postFields (w : World H) (delta : PendingDelta H) (addr : Address) :
    C.normal (some (postFields C addr delta (w.leaf C addr))) =
      C.normal ((w.apply delta).accounts.get? addr) := by
  rw [w.account_apply]
  unfold postFields
  cases delta.accounts.get? addr with
  | some fields => rfl
  | none =>
    rw [none_or, w.leaf_eq hC]
    have hidem := hC.normal_idem (w.accounts.get? addr)
    cases hnormal : C.normal (w.accounts.get? addr) with
    | some fields =>
      rw [hnormal] at hidem
      exact hidem
    | none =>
      have hempty : C.isEmptyAccount 0 0 C.keccakEmpty = true := by
        simp [isEmptyAccount, toRevmCodeHash]
      exact if_pos hempty

/-- The root of an account's storage after the block. -/
theorem secureRoot_after (hroots : RootsAfter C w delta roots)
    (hhas : slotsIn delta.storage.entries addr ≠ [] → ∃ root, roots.get? addr = some root) :
    SecureRoot C.toCodec C.slotKey (slotMap C (slotsAfter C w delta addr))
      ((roots.get? addr).getD (storageRootOf C (w.leaf C addr))) := by
  cases hget : roots.get? addr with
  | some root => exact hroots addr root hget
  | none =>
    -- no write of this account, so its slots are as they were
    have hnil : slotsIn delta.storage.entries addr = [] := by
      by_contra hne
      obtain ⟨root, hroot⟩ := hhas hne
      rw [hget] at hroot
      cases hroot
    have hsame : slotsAfter C w delta addr = w.heldSlot C addr := by
      funext key
      rw [slotsAfter, slotsIn_eq_nil_iff.1 hnil key]
      rfl
    rw [hsame]
    exact secureRoot_storageRootOf hC w addr

/-- **The recomputed leaf is the leaf of a world with the accounts of after the block exactly when the slots that
the account counts as holding there are the slots before the block, with the writes over them.** -/
theorem postAccountLeaf_spec (hpre : Proven C w pre.accounts) (hroots : RootsAfter C w delta roots)
    (hhas : slotsIn delta.storage.entries addr ≠ [] → ∃ root, roots.get? addr = some root)
    {post : Option (TrieAccount H)} (h : pre.postAccountLeaf C addr delta roots = .ok post) :
    (post = none → w.leaf C addr = none) ∧
      ∀ v : World H, C.normal (v.accounts.get? addr) = C.normal ((w.apply delta).accounts.get? addr) →
        (post = v.leaf C addr ↔ v.heldSlot C addr = slotsAfter C w delta addr) := by
  obtain ⟨preAcct, hget, h⟩ := bind_eq_ok.1 h
  obtain rfl : preAcct = w.leaf C addr := hpre _ _ (ofOption_eq_ok.1 hget)
  dsimp only at h
  have hroot := secureRoot_after hC hroots hhas
  generalize (roots.get? addr).getD (storageRootOf C (w.leaf C addr)) = root at h hroot
  have hnormal := normal_postFields hC w delta addr
  generalize postFields C addr delta (w.leaf C addr) = fields at h hnormal
  rw [hC.isEmptyAccount_toRevm] at h
  rw [normal_some] at hnormal
  have hzero : root = C.emptyRootHash ↔ slotsAfter C w delta addr = fun _ => 0 :=
    (hroot.eq_iff hC.toLawful hC.slotKey_injective (.empty hC.slotKey_injective)).trans
      (slotMap_zero_iff hC)
  by_cases hempty : C.isEmptyAccount fields.nonce fields.balance fields.codeHash = true
  · -- the canonical root has no leaf for an empty account
    rw [if_pos hempty] at hnormal
    by_cases hroot0 : root = C.emptyRootHash
    · rw [if_pos ⟨hempty, hroot0⟩] at h
      cases hleaf : w.leaf C addr with
      | some ta =>
        rw [hleaf] at h
        cases h
      | none =>
        rw [hleaf] at h
        cases h
        refine ⟨fun _ => rfl, fun v hv => ?_⟩
        rw [v.leaf_eq hC, heldSlot_of_empty (hv.trans hnormal.symm), hv, ← hnormal, hzero.1 hroot0]
        exact ⟨fun _ => rfl, fun _ => rfl⟩
    · rw [if_neg fun hboth => hroot0 hboth.2] at h
      cases h
      refine ⟨fun hnone => (nomatch hnone), fun v hv => ?_⟩
      rw [v.leaf_eq hC, heldSlot_of_empty (hv.trans hnormal.symm), hv, ← hnormal]
      exact ⟨fun hnone => (nomatch hnone), fun hslots => absurd (hzero.2 hslots.symm) hroot0⟩
  · rw [if_neg fun hboth => hempty hboth.1] at h
    cases h
    rw [if_neg hempty] at hnormal
    refine ⟨fun hnone => (nomatch hnone), fun v hv => ?_⟩
    have hslots : v.heldSlot C addr = v.slot addr := heldSlot_of_normal (hv.trans hnormal.symm)
    rw [v.leaf_eq hC, hv, ← hnormal, hslots]
    simp only [map_some, some.injEq, TrieAccount.mk.injEq, true_and, and_true]
    rw [hroot.eq_iff hC.toLawful hC.slotKey_injective (v.secureRoot_storage hC addr)]
    exact ⟨fun heq => (slotMap_injective hC heq).symm, fun heq => congrArg (slotMap C) heq.symm⟩

/-- Two checks against one world recompute one leaf. -/
theorem postAccountLeaf_unique {pre' : ProvenPre H} (hpre : Proven C w pre.accounts)
    (hpre' : Proven C w pre'.accounts) {roots roots' : SortedMap Address H} (hroots : RootsAfter C w delta roots)
    (hroots' : RootsAfter C w delta roots')
    (hhas : slotsIn delta.storage.entries addr ≠ [] → ∃ root, roots.get? addr = some root)
    (hhas' : slotsIn delta.storage.entries addr ≠ [] → ∃ root, roots'.get? addr = some root)
    {post post' : Option (TrieAccount H)} (h : pre.postAccountLeaf C addr delta roots = .ok post)
    (h' : pre'.postAccountLeaf C addr delta roots' = .ok post') : post = post' := by
  obtain ⟨preAcct, hget, h⟩ := bind_eq_ok.1 h
  obtain ⟨preAcct', hget', h'⟩ := bind_eq_ok.1 h'
  obtain rfl : preAcct = w.leaf C addr := hpre _ _ (ofOption_eq_ok.1 hget)
  obtain rfl : preAcct' = w.leaf C addr := hpre' _ _ (ofOption_eq_ok.1 hget')
  have hroot := ((secureRoot_after hC hroots hhas).eq_iff hC.toLawful hC.slotKey_injective
    (secureRoot_after hC hroots' hhas')).2 rfl
  rw [hroot, h'] at h
  exact (ok.inj h).symm

end ProvenPre

/-! ## The account trie -/

/-- The delta writes the account or one of its slots. -/
def Touches (delta : PendingDelta H) (address : Address) : Prop :=
  address ∈ delta.accounts.keys ∨ slotsIn delta.storage.entries address ≠ []

omit [LinearOrder H] in
theorem mem_touchedAccounts {delta : PendingDelta H} :
    address ∈ (touchedAccounts delta).entries.map fst ↔ Touches delta address := by
  have hwrites : address ∈ (groupStorageWrites delta).entries.map fst ↔
      slotsIn delta.storage.entries address ≠ [] := by
    have hget := get?_groupStorageWrites delta address
    by_cases hnil : slotsIn delta.storage.entries address = []
    · rw [if_pos hnil, get?_eq_none_iff] at hget
      refine ⟨fun hmem => ?_, fun hne => absurd hnil hne⟩
      obtain ⟨e, he, heq⟩ := mem_map.1 hmem
      exact absurd heq (hget e he)
    · rw [if_neg hnil, get?_eq_some_iff] at hget
      exact ⟨fun _ => hnil, fun _ => mem_map.2 ⟨_, hget, rfl⟩⟩
  rw [touchedAccounts, mem_keys_foldl_upsert, mem_append, hwrites]
  exact or_iff_right (by simp [empty])

section Recompute

variable {w : World H} {delta : PendingDelta H} {pre : ProvenPre H}

section

variable (hC : C.Lawful)
include hC

/-- Two worlds have the same leaf for an account that counts as the same in both exactly when it holds the same
slots in both. -/
theorem leaf_eq_leaf_iff {v : World H}
    (hnormal : C.normal (v.accounts.get? address) = C.normal (w.accounts.get? address)) :
    w.leaf C address = v.leaf C address ↔ v.heldSlot C address = w.heldSlot C address := by
  rw [w.leaf_eq hC, v.leaf_eq hC, hnormal]
  cases hw : C.normal (w.accounts.get? address) with
  | none =>
    rw [heldSlot_of_empty (hnormal.trans hw), heldSlot_of_empty hw]
    exact ⟨fun _ => rfl, fun _ => rfl⟩
  | some fields =>
    rw [heldSlot_of_normal (hnormal.trans hw), heldSlot_of_normal hw]
    simp only [map_some, some.injEq, TrieAccount.mk.injEq, true_and, and_true]
    rw [(w.secureRoot_storage hC address).eq_iff hC.toLawful hC.slotKey_injective (v.secureRoot_storage hC address)]
    exact ⟨fun heq => (slotMap_injective hC heq).symm, fun heq => congrArg (slotMap C) heq.symm⟩

omit hC in
/-- An account that the delta does not touch counts as before and keeps its slots. -/
theorem untouched (h : ¬ Touches delta address) :
    (w.apply delta).accounts.get? address = w.accounts.get? address ∧
      slotsAfter C w delta address = w.heldSlot C address := by
  obtain ⟨haccount, hslots⟩ := not_or.1 h
  constructor
  · rw [w.account_apply, LinkedMap.get?_eq_none_iff.2 haccount, none_or]
  · funext key
    rw [slotsAfter, slotsIn_eq_nil_iff.1 (not_not.1 hslots) key]
    rfl

/-- The loop over the touched accounts leaves their recomputed leaves in the trie. -/
theorem insertTouchedLeaves_spec {addrs : List Address} (hnodup : addrs.Nodup) {leaves : Address → Option Bytes}
    (htrie : Holds trie (keyed C.addressKey leaves))
    (hnone : ∀ addr ∈ addrs, pre.postAccountLeaf C addr delta roots = .ok none → leaves addr = none)
    (h : insertTouchedLeaves C pre delta roots addrs trie = .ok trie') :
    ∃ leaves', Holds trie' (keyed C.addressKey leaves') ∧
      (∀ addr ∉ addrs, leaves' addr = leaves addr) ∧
      ∀ addr ∈ addrs, ∃ post, pre.postAccountLeaf C addr delta roots = .ok post ∧
        leaves' addr = post.map C.accountRlp := by
  induction addrs generalizing trie leaves with
  | nil =>
    cases h
    exact ⟨leaves, htrie, fun _ _ => rfl, by simp⟩
  | cons addr addrs ih =>
    obtain ⟨hfresh, hnodup⟩ := nodup_cons.1 hnodup
    obtain ⟨trie'', hone, h⟩ := bind_eq_ok.1 h
    obtain ⟨post, hpost, hone⟩ := bind_eq_ok.1 hone
    -- the trie with the leaf of this account
    have htrie'' : Holds trie'' (keyed C.addressKey (update leaves addr (post.map C.accountRlp))) := by
      cases post with
      | none =>
        cases hone
        have hkeep : leaves addr = none := hnone addr mem_cons_self hpost
        rw [map_none, ← hkeep, update_eq_self]
        exact htrie
      | some post =>
        rw [keyed_update hC.addressKey_injective]
        exact (htrie.insert hC.toLawful _ _).2 _ hone
    have hne : ∀ {a}, a ∈ addrs → a ≠ addr := fun ha heq => hfresh (heq ▸ ha)
    obtain ⟨leaves', hleaves', hout, hin⟩ := ih hnodup htrie'' (fun a ha hp => by
      rw [update_of_ne (hne ha)]
      exact hnone a (mem_cons_of_mem _ ha) hp) h
    refine ⟨leaves', hleaves', fun a ha => ?_, fun a ha => ?_⟩
    · have hadd : a ≠ addr := by
        rintro rfl
        exact ha mem_cons_self
      rw [hout a fun hmem => ha (mem_cons_of_mem _ hmem), update_of_ne hadd]
    · rcases mem_cons.1 ha with rfl | ha
      · exact ⟨post, hpost, by rw [hout a hfresh, update_self]⟩
      · exact hin a ha

omit hC in
/-- The slots that every account counts as holding after the delta are those before it, with the writes of
the delta over them. -/
def SlotsFollow (C : StateCodec H) (w : World H) (delta : PendingDelta H) : Prop :=
  ∀ address, (w.apply delta).heldSlot C address = slotsAfter C w delta address

variable {proofs : WitnessProofs} {root : H}

section

variable (hroot : pre.root = w.root C) (hpre : Proven C w pre.accounts)
  (h : recomputePostRoot C proofs pre delta = .ok root)
include hroot hpre h

/-- What the recompute leaves in the account trie: the recomputed leaves of the touched accounts, and the others as
they were. -/
theorem recomputePostRoot_leaves :
    ∃ roots leaves, RootsAfter C w delta roots ∧
      (∀ addr, slotsIn delta.storage.entries addr ≠ [] → ∃ root, roots.get? addr = some root) ∧
      SecureRoot C.toCodec C.addressKey leaves root ∧
      (∀ addr, ¬ Touches delta addr → leaves addr = accountMap C w addr) ∧
      ∀ addr, Touches delta addr → ∃ post, pre.postAccountLeaf C addr delta roots = .ok post ∧
        leaves addr = post.map C.accountRlp := by
  obtain ⟨store, -, h⟩ := bind_eq_ok.1 h
  obtain ⟨roots, hroots, h⟩ := bind_eq_ok.1 h
  obtain ⟨trie, htrie, h⟩ := bind_eq_ok.1 h
  cases h
  -- the storage roots
  have hwrites : ∀ e ∈ (groupStorageWrites delta).entries,
      e.2 = slotsIn delta.storage.entries e.1 := by
    intro e he
    have hget := get?_groupStorageWrites delta e.1
    rw [get?_eq_some_iff.2 (show (e.1, e.2) ∈ _ from he)] at hget
    split at hget
    · cases hget
    · exact some.inj hget
  have hnone : RootsAfter C w delta .empty := fun _ root hget => nomatch (hget : none = some root)
  obtain ⟨hafter, hhas⟩ := recomputeStorageRoots_spec hC hpre hwrites hnone hroots
  have hhas' : ∀ addr, slotsIn delta.storage.entries addr ≠ [] → ∃ root, roots.get? addr = some root := by
    intro addr hne
    have hget := get?_groupStorageWrites delta addr
    rw [if_neg hne, get?_eq_some_iff] at hget
    exact hhas addr (.inr (mem_map.2 ⟨_, hget, rfl⟩))
  -- the account trie
  have hstart : Holds (SparseTrie.new pre.root store) (keyed C.addressKey (accountMap C w)) := by
    rw [hroot]
    exact .of_secureRoot hC.toLawful store (w.secureRoot_root hC)
  have hnodup := (touchedAccounts delta).linked.nodup
  obtain ⟨leaves, hleaves, hout, hin⟩ := insertTouchedLeaves_spec hC hnodup hstart (fun addr _ hp => by
    rw [accountMap, (postAccountLeaf_spec hC hpre hafter (hhas' addr) hp).1 rfl]
    rfl) htrie
  exact ⟨roots, leaves, hafter, hhas', hleaves.secureRoot, fun addr hnot => hout addr (hnot ∘ mem_touchedAccounts.1),
    fun addr htouched => hin addr (mem_touchedAccounts.2 htouched)⟩

/-- **When the recomputed root is the root of a world** with the accounts of after the block. -/
theorem recomputePostRoot_eq_world_iff {v : World H}
    (hv : ∀ a, C.normal (v.accounts.get? a) = C.normal ((w.apply delta).accounts.get? a)) :
    root = v.root C ↔ ∀ address, v.heldSlot C address = slotsAfter C w delta address := by
  obtain ⟨roots, leaves, hafter, hhas, hsecure, hout, hin⟩ := recomputePostRoot_leaves hC hroot hpre h
  rw [hsecure.eq_iff hC.toLawful hC.addressKey_injective (v.secureRoot_root hC), funext_iff]
  refine forall_congr' fun addr => ?_
  by_cases htouched : Touches delta addr
  · obtain ⟨post, hpost, hleaf⟩ := hin addr htouched
    rw [hleaf, ← (postAccountLeaf_spec hC hpre hafter (hhas addr) hpost).2 v (hv addr)]
    exact (map_injective (accountRlp_injective hC)).eq_iff
  · obtain ⟨hsame, hslots⟩ := untouched htouched
    rw [hout addr htouched, hslots]
    refine (map_injective (accountRlp_injective hC)).eq_iff.trans (leaf_eq_leaf_iff hC ?_)
    rw [hv, hsame]

end

/-- **One delta on one world leads to one root**, whatever nodes the two provers bring. -/
theorem recomputePostRoot_unique {pre' : ProvenPre H} (hroot : pre.root = w.root C)
    (hroot' : pre'.root = w.root C) (hpre : Proven C w pre.accounts) (hpre' : Proven C w pre'.accounts)
    {proofs proofs' : WitnessProofs} {root' : H} (h : recomputePostRoot C proofs pre delta = .ok root)
    (h' : recomputePostRoot C proofs' pre' delta = .ok root') : root = root' := by
  obtain ⟨roots, leaves, hafter, hhas, hsecure, hout, hin⟩ := recomputePostRoot_leaves hC hroot hpre h
  obtain ⟨roots', leaves', hafter', hhas', hsecure', hout', hin'⟩ := recomputePostRoot_leaves hC hroot' hpre' h'
  refine (hsecure.eq_iff hC.toLawful hC.addressKey_injective hsecure').2 (funext fun addr => ?_)
  by_cases htouched : Touches delta addr
  · obtain ⟨post, hpost, hleaf⟩ := hin addr htouched
    obtain ⟨post', hpost', hleaf'⟩ := hin' addr htouched
    rw [hleaf, hleaf', postAccountLeaf_unique hC hpre hpre' hafter hafter' (hhas addr) (hhas' addr) hpost hpost']
  · rw [hout addr htouched, hout' addr htouched]

/-- **When the recomputed root is the canonical one.** -/
theorem recomputePostRoot_eq_iff (hroot : pre.root = w.root C) (hpre : Proven C w pre.accounts)
    (h : recomputePostRoot C proofs pre delta = .ok root) :
    root = (w.apply delta).root C ↔ SlotsFollow C w delta :=
  recomputePostRoot_eq_world_iff hC hroot hpre h fun _ => rfl

end

/-- **The anchored witness.** A witness that passes under the root of a world says what the world holds.
The root that is then recomputed for a delta is the canonical root of the world with the delta applied
exactly when the slots follow the delta. -/
theorem anchored_sound_iff (hC : C.Lawful) {witness : ExecutionWitness H} {proofs : WitnessProofs}
    (hroot : witness.preStateRoot = some (w.root C))
    (hverify : verifyWitnessAnchored C witness proofs = .ok pre) :
    witness.Holds C w ∧ ∀ proofs' delta root, recomputePostRoot C proofs' pre delta = .ok root →
      (root = (w.apply delta).root C ↔ SlotsFollow C w delta) := by
  obtain ⟨hpreRoot, hproven, hholds⟩ := verifyWitnessAnchored_spec hC hroot hverify
  exact ⟨hholds, fun _ _ _ h => recomputePostRoot_eq_iff hC hpreRoot hproven h⟩

end Recompute

/-! ## Runs -/

/-- One account with a balance, a nonce and a slot. -/
def fundedWorld : World Digest where
  accounts := ⟨[(1, ⟨1, 5, plainCodec.zero⟩)], by decide⟩
  storage := ⟨[((1, keyOf 0), 7)], by decide⟩
  code := .empty

/-- The one node of each of the two tries of `fundedWorld`. -/
def fundedProofs : WitnessProofs where
  nodes :=
    let account := plainAccountRlp ⟨1, 5, storageRoot plainStateCodec [(keyOf 0, 7)], plainStateCodec.keccakEmpty⟩
    [Plain.encode (.leaf (unpack (keyOf 0)) (plainStateCodec.uintRlp 7)),
      Plain.encode (.leaf (unpack (plainAddressKey 1)) account)]

def fundedWitness : ExecutionWitness Digest where
  accounts := [⟨1, true, 1, 5, plainCodec.zero⟩, ⟨2, true, 0, 0, plainCodec.zero⟩]
  storage := [⟨1, keyOf 0, 7⟩, ⟨1, keyOf 1, 0⟩, ⟨2, keyOf 0, 0⟩]
  code := []
  preStateRoot := some (fundedWorld.root plainStateCodec)

theorem anchored_sound_iff_funded :
    ∃ pre, verifyWitnessAnchored plainStateCodec fundedWitness fundedProofs = .ok pre ∧
      fundedWitness.Holds plainStateCodec fundedWorld ∧
      ∀ proofs' delta root, recomputePostRoot plainStateCodec proofs' pre delta = .ok root →
        (root = (fundedWorld.apply delta).root plainStateCodec ↔
          SlotsFollow plainStateCodec fundedWorld delta) := by
  obtain ⟨pre, hverify⟩ := exists_of_isOk (show
    (verifyWitnessAnchored plainStateCodec fundedWitness fundedProofs).isOk = true by decide +kernel)
  exact ⟨pre, hverify, anchored_sound_iff plainStateCodec_lawful rfl hverify⟩

/-- No account at all. -/
def emptyWorld : World Digest := ⟨.empty, .empty, .empty⟩

/-- A read of an account that is not there, and of a slot of it. -/
def absentWitness : ExecutionWitness Digest where
  accounts := [⟨1, false, 0, 0, plainCodec.zero⟩]
  storage := [⟨1, keyOf 0, 0⟩]
  code := []
  preStateRoot := some (emptyWorld.root plainStateCodec)

/-- A write to a slot of that account, and nothing else. -/
def storageOnly : PendingDelta Digest where
  accounts := .empty
  storage := ⟨[((1, keyOf 0), 1)], by decide⟩
  code := .empty

/-- **An account with storage and nothing else.** The recompute gives it a leaf; in the canonical root it
is empty and has none. -/
theorem storageOnly_root_differs :
    ∃ root, (verifyWitnessAnchored plainStateCodec absentWitness ⟨[]⟩ >>= fun pre =>
        recomputePostRoot plainStateCodec ⟨[]⟩ pre storageOnly) = .ok root ∧
      root ≠ (emptyWorld.apply storageOnly).root plainStateCodec := by
  obtain ⟨root, hroot⟩ := exists_of_isOk (show
    (verifyWitnessAnchored plainStateCodec absentWitness ⟨[]⟩ >>= fun pre =>
        recomputePostRoot plainStateCodec ⟨[]⟩ pre storageOnly).isOk = true by decide +kernel)
  refine ⟨root, hroot, fun heq => ?_⟩
  have hcanonical : (verifyWitnessAnchored plainStateCodec absentWitness ⟨[]⟩ >>= fun pre =>
      recomputePostRoot plainStateCodec ⟨[]⟩ pre storageOnly) =
        .ok ((emptyWorld.apply storageOnly).root plainStateCodec) := heq ▸ hroot
  revert hcanonical
  decide +kernel

end Kardamom.Anchor
