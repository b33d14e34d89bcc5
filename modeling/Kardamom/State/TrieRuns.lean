import Kardamom.State.TrieTables

/-!
# The incremental root over runs of blocks

The flat tables and the trie tables advance together from a seeded genesis. The mirror holds, of each account,
its fields if it is not empty and its non-zero slots; an account that a block leaves empty loses them. So
the root of the tries is the canonical root of the flat tables, and the stored nodes are those of a rebuild
from scratch, as long as no block leaves an empty account with a non-zero slot (`StateDb.run_rebuilds`).
It is not enough that no account with storage becomes empty: an account that is empty from the start may be
written to and funded later (`fundedLater_root_differs`).
-/

namespace Kardamom.State

open AccountTrieParts

open Mpt Patricia Patricia.Trie TrieTables LinkedMap World Function List Option StateCodec List

variable {H : Type} [DecidableEq H]

/-! ## What the mirror holds of an account -/

/-- The fields of an account that is not empty. -/
def StateCodec.live (C : StateCodec H) (account : Option (AccountFields H)) : Option (AccountFields H) :=
  account.filter fun fields => !C.isEmptyAccount fields.nonce fields.balance fields.codeHash

/-- A slot that is zero has no row. -/
def slotRow (v : U256) : Option U256 := if v = 0 then none else some v

/-- The row and the hashed slots of an account. -/
structure Reads (C : StateCodec H) (c : Cell H) (account : Option (AccountFields H)) (slots : B256 → U256) :
    Prop where
  row : c.row.map (fun p => (⟨p.nonce, p.balance, p.codeHash⟩ : AccountFields H)) = account
  slots : c.slots.get? = keyed C.slotKey fun key => slotRow (slots key)

variable {C : StateCodec H} {account : Option (AccountFields H)}

theorem live_eq_none_iff : C.live account = none ↔ C.normal account = none := by
  cases account with
  | none => exact ⟨fun _ => rfl, fun _ => rfl⟩
  | some fields =>
    rw [normal_some, live, filter_some]
    split <;> split <;> simp_all

theorem live_live (account : Option (AccountFields H)) : C.live (C.live account) = C.live account := by
  unfold live
  simp

variable {slots : B256 → U256}

omit [DecidableEq H] in
theorem get?_writeAccountSlots (hC : C.Lawful) {rows : SortedMap B256 U256}
    (h : rows.get? = keyed C.slotKey fun key => slotRow (slots key)) (changes : List (B256 × U256)) :
    (writeAccountSlots C rows changes).get? = keyed C.slotKey fun key => slotRow (writesOver slots changes key) := by
  induction changes generalizing rows slots with
  | nil => exact h
  | cons c changes ih =>
    suffices hone : (writeOneSlot C rows c).get? =
        keyed C.slotKey fun key => slotRow (update slots c.1 c.2 key) from ih hone
    have hrow : (fun key => slotRow (update slots c.1 c.2 key)) =
        update (fun key => slotRow (slots key)) c.1 (slotRow c.2) := by
      funext key
      by_cases hk : key = c.1
      · subst hk
        rw [update_self, update_self]
      · rw [update_of_ne hk, update_of_ne hk]
    rw [hrow, keyed_update hC.slotKey_injective, ← h]
    funext k
    unfold writeOneSlot slotRow
    by_cases hk : k = C.slotKey c.1
    · subst hk
      rw [update_self]
      split
      · exact rows.get?_remove_self _
      · exact rows.get?_upsert_self _ _
    · rw [update_of_ne hk]
      split
      · exact rows.get?_remove_of_ne hk
      · exact rows.get?_upsert_of_ne hk _

omit [DecidableEq H] in
theorem keyed_none {α β : Type} (key : α → B256) : (keyed key fun _ => (none : Option β)) = fun _ => none := by
  funext k
  unfold keyed
  split <;> rfl

omit [DecidableEq H] in
theorem rowAfter_fields (row : Option (AccountTrieParts H)) (basics : Option (AccountFields H)) (newSroot : Option H) :
    (⟨(rowAfter C row basics newSroot).nonce, (rowAfter C row basics newSroot).balance,
      (rowAfter C row basics newSroot).codeHash⟩ : AccountFields H) =
      (basics.or (row.map fun p => ⟨p.nonce, p.balance, p.codeHash⟩)).getD ⟨0, 0, C.zero⟩ := by
  cases basics <;> cases row <;> rfl

/-- An account that is not there has the fields of an empty one. -/
theorem live_eq (account : Option (AccountFields H)) :
    C.live account = if C.isEmptyAccount (account.getD ⟨0, 0, C.zero⟩).nonce (account.getD ⟨0, 0, C.zero⟩).balance
      (account.getD ⟨0, 0, C.zero⟩).codeHash then none else some (account.getD ⟨0, 0, C.zero⟩) := by
  cases account with
  | none => exact (if_pos (Cell.isEmpty_default C.zero)).symm
  | some fields =>
    rw [live, filter_some, getD_some]
    split <;> simp_all

/-- **What a block leaves of an account in the mirror.** -/
theorem Reads.advance (hC : C.Lawful) {c : Cell H}
    (h : Reads C c account slots) (basics : Option (AccountFields H)) (changes : List (B256 × U256)) :
    Reads C (c.advance C basics changes) (C.live (basics.or account))
      (if C.live (basics.or account) = none then fun _ => 0 else writesOver slots changes) := by
  unfold Cell.advance Cell.write
  dsimp only
  generalize (if changes = [] then none else
    some (C.root (slotTrie C (writeAccountSlots C c.slots changes)))) = newSroot
  have hfields := rowAfter_fields (C := C) c.row basics newSroot
  rw [h.row] at hfields
  generalize hparts : rowAfter C c.row basics newSroot = parts at hfields
  have hlive := live_eq (C := C) (basics.or account)
  rw [← hfields] at hlive
  by_cases hempty : parts.isEmpty C = true
  · rw [if_pos hempty, hlive.trans (if_pos hempty), if_pos rfl]
    refine ⟨rfl, ?_⟩
    have hzero : (fun _ : B256 => slotRow 0) = fun _ => none := funext fun _ => if_pos rfl
    rw [hzero, keyed_none]
    rfl
  · rw [if_neg hempty, hlive.trans (if_neg hempty), if_neg (some_ne_none _)]
    exact ⟨rfl, get?_writeAccountSlots hC h.slots changes⟩

/-! ## The flat tables -/

section

variable (w : World H) (delta : BlockDelta H)

/-- The flat tables with a delta written to them. -/
def World.write : World H where
  accounts := w.accounts.putAll delta.accounts
  storage := w.storage.putAll delta.storage
  code := w.code.putAll delta.code

omit [DecidableEq H] in
theorem lastOf_slotsIn (es : List ((Address × B256) × U256)) (a : Address) (key : B256) :
    lastOf (slotsIn es a) key = lastOf es (a, key) := by
  induction es using reverseRecOn with
  | nil => rfl
  | append_singleton es e ih =>
    have hes : lastOf (es ++ [e]) (a, key) =
        if e.1 = (a, key) then some e.2 else lastOf es (a, key) := by
      rw [lastOf, foldl_append]
      rfl
    rw [hes]
    unfold slotsIn at ih ⊢
    rw [filterMap_append]
    by_cases ha : e.1.1 = a
    · have hlast : filterMap (fun e : (Address × B256) × U256 =>
          if e.1.1 = a then some (e.1.2, e.2) else none) [e] = [(e.1.2, e.2)] := by simp [ha]
      rw [hlast, lastOf, foldl_append]
      have hiff : e.1 = (a, key) ↔ e.1.2 = key := by simp [Prod.ext_iff, ha]
      rw [if_congr hiff rfl rfl]
      exact congrArg (ite _ _) ih
    · have hlast : filterMap (fun e : (Address × B256) × U256 =>
          if e.1.1 = a then some (e.1.2, e.2) else none) [e] = [] := by simp [ha]
      rw [hlast, append_nil, if_neg fun heq => ha (congrArg Prod.fst heq)]
      exact ih

theorem World.slot_write (a : Address) :
    (w.write delta).slot a = writesOver (w.slot a) (slotsIn delta.storage a) := by
  funext key
  rw [writesOver_apply, lastOf_slotsIn]
  unfold slot
  rw [show (w.write delta).storage.get? (a, key) = _ from get?_putAll ..]
  cases lastOf delta.storage (a, key) <;> rfl

end

/-! ## The mirror of the flat tables -/

section

variable (C : StateCodec H) (w : World H)

/-- No account that is empty in the sense of EIP-161 holds a non-zero slot. -/
def EmptyHoldNothing : Prop :=
  ∀ a key, C.normal (w.accounts.get? a) = none → w.slot a key = 0

/-- The flat tables without the slots of empty accounts. -/
def World.pruned : World H :=
  { w with storage := w.storage.filter fun e => (C.normal (w.accounts.get? e.1.1)).isSome }

end

theorem World.slot_pruned (w : World H) (a : Address) : (w.pruned C).slot a = w.heldSlot C a := by
  funext key
  unfold heldSlot slot
  by_cases hsome : (C.normal (w.accounts.get? a)).isSome = true
  · rw [if_pos hsome]
    refine congrArg (Option.getD · 0) (get?_congr fun v => ?_)
    exact mem_filter.trans (and_iff_left hsome)
  · rw [if_neg hsome]
    have hnone : (w.pruned C).storage.get? (a, key) = none := by
      refine eq_none_iff_forall_ne_some.2 fun v hv => hsome ?_
      exact (mem_filter.1 (get?_eq_some_iff.1 hv)).2
    rw [hnone, getD_none]

theorem EmptyHoldNothing.heldSlot_eq {w : World H} (h : EmptyHoldNothing C w) (a : Address) :
    w.heldSlot C a = w.slot a := by
  funext key
  unfold heldSlot
  by_cases hsome : (C.normal (w.accounts.get? a)).isSome = true
  · rw [if_pos hsome]
  · rw [if_neg hsome, h a key (by simpa using hsome)]

theorem World.root_pruned (hC : C.Lawful) (w : World H) : (w.pruned C).root C = w.root C := by
  refine root_congr hC (fun _ => rfl) fun a hne key => ?_
  rw [slot_pruned]
  exact if_pos (isSome_iff_ne_none.2 hne)

theorem World.root_eq (w : World H) : w.root C = C.root (mapTrie (w.leaves C)) := rfl

/-- The trie tables mirror the flat tables. -/
structure Mirrors (C : StateCodec H) (w : World H) (t : TrieTables H) : Prop where
  stored : Stored C t
  reads : ∀ a, Reads C (t.cell (C.addressKey a)) (C.live (w.accounts.get? a)) (w.slot a)
  others : ∀ ah, (∀ a, C.addressKey a ≠ ah) → t.cell ah = ⟨none, .empty, fun _ => none⟩

omit [DecidableEq H] in
theorem keyed_bind {α β γ : Type} {key : α → B256} (hkey : Function.Injective key) (f : α → Option β)
    (g : β → Option γ) : (fun k => (keyed key f k).bind g) = keyed key fun a => (f a).bind g := by
  funext k
  refine Option.ext fun v => ?_
  simp only [keyed_eq_some_iff hkey, bind_eq_some_iff]
  constructor
  · rintro ⟨b, ⟨a, ha, hb⟩, hv⟩
    exact ⟨a, ha, b, hb, hv⟩
  · rintro ⟨a, ha, b, hb, hv⟩
    exact ⟨b, ⟨a, ha, hb⟩, hv⟩

omit [DecidableEq H] in
/-- The trie of hashed slots that read as the slots of an account. -/
theorem Reads.slotTrie_readsAs (hC : C.Lawful) {c : Cell H} (h : Reads C c account slots) :
    ReadsAs (slotTrie C c.slots) (keyed C.slotKey fun key => slotLeaf C (slots key)) := by
  have hreads := (isMap_rowLeaves (fun v => some (C.uintRlp v)) c.slots).ofEntries.2
  rw [h.slots, keyed_bind hC.slotKey_injective] at hreads
  have hleaf : (fun key => (slotRow (slots key)).bind fun v => some (C.uintRlp v)) =
      fun key => slotLeaf C (slots key) := by
    funext key
    unfold slotRow slotLeaf
    split <;> rfl
  rwa [hleaf] at hreads

namespace Mirrors

variable {w : World H} {t : TrieTables H}

section

variable (hC : C.Lawful) (h : Mirrors C w t)
include hC h

theorem slotTrie_eq (a : Address) :
    slotTrie C (t.hashedStorage (C.addressKey a)) = mapTrie (storageLeaves C (w.slotsOf a)) :=
  ((h.reads a).slotTrie_readsAs hC).unique (w.isMap_storageLeaves hC a).ofEntries.2
    (isMap_rowLeaves _ _).ofEntries.1 (w.isMap_storageLeaves hC a).ofEntries.1

/-- The leaf of a row is the leaf of the account. -/
theorem accountLeaf_eq (a : Address) :
    (t.hashedAccounts.get? (C.addressKey a)).bind (accountLeaf C) = (w.leaf C a).map C.accountRlp := by
  have hrow : (t.hashedAccounts.get? (C.addressKey a)).map
      (fun p => (⟨p.nonce, p.balance, p.codeHash⟩ : AccountFields H)) = C.live (w.accounts.get? a) := (h.reads a).row
  rw [w.leaf_eq hC]
  cases hget : t.hashedAccounts.get? (C.addressKey a) with
  | none =>
    rw [hget, eq_comm] at hrow
    rw [live_eq_none_iff.1 hrow]
    rfl
  | some p =>
    obtain ⟨hempty, hroot⟩ := (h.stored.cell (C.addressKey a)).row p hget
    have hslots : p.storageRoot = storageRoot C (w.slotsOf a) := hroot.trans (congrArg C.root (h.slotTrie_eq hC a))
    have hcanonical : p.canonicalStorageRoot C = storageRoot C (w.slotsOf a) := by
      rw [canonicalStorageRoot, hslots]
      exact if_neg (hC.root_ne_zero _)
    rw [hget, eq_comm] at hrow
    have hleaf : accountLeaf C p = some (C.accountRlp (p.toTrieAccount C)) := if_pos (by rw [hempty]; rfl)
    have hnormal : C.normal (w.accounts.get? a) =
        some ⟨p.nonce, p.balance, C.toRevmCodeHash p.codeHash⟩ := by
      rw [(filter_eq_some_iff.1 hrow).1]
      exact if_neg (Bool.eq_false_iff.1 hempty)
    rw [Option.bind_some, hleaf, hnormal, toTrieAccount, hcanonical]
    rfl

theorem accountsTrie_eq : accountsTrie C t.hashedAccounts = mapTrie (w.leaves C) := by
  have hreads := (isMap_rowLeaves (accountLeaf C) t.hashedAccounts).ofEntries.2
  have hmap : (fun k => (t.hashedAccounts.get? k).bind (accountLeaf C)) =
      keyed C.addressKey fun a => (w.leaf C a).map C.accountRlp := by
    funext k
    by_cases hex : ∃ a, C.addressKey a = k
    · obtain ⟨a, rfl⟩ := hex
      rw [keyed_apply hC.addressKey_injective, h.accountLeaf_eq hC]
    · have hnone : t.hashedAccounts.get? k = none :=
        congrArg Cell.row (h.others k fun a heq => hex ⟨a, heq⟩)
      rw [hnone, keyed, dif_neg hex]
      rfl
  rw [hmap] at hreads
  exact hreads.unique (w.isMap_leaves hC).ofEntries.2 (isMap_rowLeaves _ _).ofEntries.1
    (w.isMap_leaves hC).ofEntries.1

/-- What the mirror says of an account without a row. -/
theorem emptyHoldNothing : EmptyHoldNothing C w := by
  intro a key hnone
  have hrow : (t.cell (C.addressKey a)).row = none := by
    have hmap := (h.reads a).row
    rw [live_eq_none_iff.2 hnone] at hmap
    exact map_eq_none_iff.1 hmap
  have hslots := (h.reads a).slots
  rw [(h.stored.cell (C.addressKey a)).noRow hrow] at hslots
  have hkey := congrFun hslots (C.slotKey key)
  rw [keyed_apply hC.slotKey_injective] at hkey
  by_contra hne
  have hsome : slotRow (w.slot a key) = some (w.slot a key) := if_neg hne
  rw [hsome] at hkey
  exact nomatch (hkey : none = some _)

end

theorem congr {w' : World H} (h : Mirrors C w t) (haccounts : ∀ a, w.accounts.get? a = w'.accounts.get? a)
    (hslots : ∀ a, w.slot a = w'.slot a) : Mirrors C w' t :=
  ⟨h.stored, fun a => haccounts a ▸ hslots a ▸ h.reads a, h.others⟩

variable (hC : C.Lawful) (hlong : C.LongBranches) (h : Mirrors C w t)
include hC hlong h

/-- **One block.** The root is that of the flat tables; the mirror no longer has the slots of accounts that
are empty now. -/
theorem updateForBlock_pruned (delta : BlockDelta H) :
    ∃ t', TrieTables.updateForBlock C t delta = some (t', (w.write delta).root C) ∧
      Mirrors C ((w.write delta).pruned C) t' := by
  obtain ⟨t', hrun, hstored, hcell, hothers⟩ := updateForBlock_spec hlong hC.addressKey_injective h.stored delta
  have hmirrors : Mirrors C ((w.write delta).pruned C) t' := by
    refine ⟨hstored, fun a => ?_, fun ah hah => (hothers ah hah).trans (h.others ah hah)⟩
    have hreads := (h.reads a).advance hC (lastOf delta.accounts a) (slotsIn delta.storage a)
    have haccount : C.live ((lastOf delta.accounts a).or (C.live (w.accounts.get? a))) =
        C.live ((w.write delta).accounts.get? a) := by
      rw [show (w.write delta).accounts.get? a = _ from get?_putAll ..]
      cases lastOf delta.accounts a with
      | some fields => rfl
      | none => exact live_live _
    have hslots : (if C.live ((w.write delta).accounts.get? a) = none then fun _ => 0
        else writesOver (w.slot a) (slotsIn delta.storage a)) = ((w.write delta).pruned C).slot a := by
      rw [← w.slot_write, slot_pruned]
      funext key
      rw [heldSlot]
      split
      case isTrue hnone => rw [live_eq_none_iff.1 hnone, if_neg (by simp)]
      case isFalse hsome =>
        rw [if_pos (isSome_iff_ne_none.2 fun hnone => hsome (live_eq_none_iff.2 hnone))]
    rw [haccount, hslots] at hreads
    rw [hcell a]
    exact hreads
  refine ⟨t', ?_, hmirrors⟩
  rw [hrun, ← (w.write delta).root_pruned hC, root_eq, ← hmirrors.accountsTrie_eq hC]

/-- One block that leaves no empty account with a slot. -/
theorem updateForBlock {delta : BlockDelta H} (hempty : EmptyHoldNothing C (w.write delta)) :
    ∃ t', TrieTables.updateForBlock C t delta = some (t', (w.write delta).root C) ∧ Mirrors C (w.write delta) t' := by
  obtain ⟨t', hrun, hmirrors⟩ := h.updateForBlock_pruned hC hlong delta
  refine ⟨t', hrun, hmirrors.congr (fun _ => rfl) fun a => ?_⟩
  rw [slot_pruned]
  exact hempty.heldSlot_eq a

end Mirrors

/-! ## Runs -/

/-- The state database: the flat tables, the trie tables and the root of the last block. -/
structure StateDb (H : Type) where
  world : World H
  tables : TrieTables H
  stateRoot : Option H

namespace StateDb

def fresh : StateDb H := ⟨⟨.empty, .empty, .empty⟩, .empty, none⟩

variable (C : StateCodec H)

/-- A block is committed: the flat tables and the tries advance in one transaction. -/
def commit (db : StateDb H) (delta : BlockDelta H) : Option (StateDb H) := do
  let (tables, root) ← db.tables.updateForBlock C delta
  some ⟨db.world.write delta, tables, some root⟩

/-- The allocations of the genesis, as one delta on a fresh database. -/
def seedGenesis (accounts : List (Address × AccountFields H)) (code : List (H × Bytes)) : Option (StateDb H) :=
  fresh.commit C ⟨accounts, [], code⟩

/-- Blocks, one after the other. -/
def run (db : StateDb H) : List (BlockDelta H) → Option (StateDb H)
  | [] => some db
  | delta :: deltas => do
    let db ← db.commit C delta
    run db deltas

/-- The database is what a rebuild from the flat tables gives: the root, and every stored node. -/
structure Rebuilt (db : StateDb H) : Prop where
  root : db.stateRoot = some (db.world.root C)
  accountNodes : db.tables.accountTrie = C.storedNodes (full (mapTrie (db.world.leaves C)))
  storageNodes : ∀ a, db.tables.storageTrie (C.addressKey a) =
    C.storedNodes (full (mapTrie (storageLeaves C (db.world.slotsOf a))))
  noOthers : ∀ ah, (∀ a, C.addressKey a ≠ ah) → db.tables.storageTrie ah = fun _ => none

/-- After each of the blocks no empty account holds a non-zero slot. -/
def EmptyHoldNothingAlong (w : World H) : List (BlockDelta H) → Prop
  | [] => True
  | delta :: deltas => EmptyHoldNothing C (w.write delta) ∧ EmptyHoldNothingAlong (w.write delta) deltas

variable {C} {db : StateDb H}

theorem Rebuilt.of_mirrors (hC : C.Lawful) (h : Mirrors C db.world db.tables)
    (hroot : db.stateRoot = some (db.world.root C)) : Rebuilt C db where
  root := hroot
  accountNodes := by rw [h.stored.accountTrie, h.accountsTrie_eq hC]
  storageNodes a := by
    have hnodes : db.tables.storageTrie (C.addressKey a) = _ := (h.stored.cell (C.addressKey a)).nodes
    rw [hnodes]
    exact congrArg (fun t => C.storedNodes (full t)) (h.slotTrie_eq hC a)
  noOthers ah hah := congrArg Cell.nodes (h.others ah hah)

theorem commit_rebuilds (hC : C.Lawful) (hlong : C.LongBranches)
    (h : Mirrors C db.world db.tables) {delta : BlockDelta H} (hempty : EmptyHoldNothing C (db.world.write delta)) :
    ∃ db', db.commit C delta = some db' ∧ db'.world = db.world.write delta ∧
      Mirrors C db'.world db'.tables ∧ Rebuilt C db' := by
  obtain ⟨t', hrun, hmirrors⟩ := h.updateForBlock hC hlong hempty
  refine ⟨⟨db.world.write delta, t', some ((db.world.write delta).root C)⟩, ?_, rfl, hmirrors, .of_mirrors hC hmirrors rfl⟩
  rw [commit, hrun]
  rfl

theorem mirrors_fresh : Mirrors C (fresh : StateDb H).world (fresh : StateDb H).tables where
  stored := stored_empty
  reads a := by
    refine ⟨rfl, ?_⟩
    have hzero : (fun key => slotRow ((fresh : StateDb H).world.slot a key)) = fun _ => none :=
      funext fun _ => if_pos rfl
    rw [hzero, keyed_none]
    rfl
  others _ _ := rfl

/-- The genesis leaves no slots at all. -/
theorem emptyHoldNothing_genesis (accounts : List (Address × AccountFields H)) (code : List (H × Bytes)) :
    EmptyHoldNothing C ((fresh : StateDb H).world.write ⟨accounts, [], code⟩) := fun _ _ _ => rfl

theorem run_rebuilt (hC : C.Lawful) (hlong : C.LongBranches) {deltas : List (BlockDelta H)}
    (h : Mirrors C db.world db.tables) (hrebuilt : Rebuilt C db)
    (hempty : EmptyHoldNothingAlong C db.world deltas) :
    ∃ db', db.run C deltas = some db' ∧ db'.world = deltas.foldl write db.world ∧ Rebuilt C db' := by
  induction deltas generalizing db with
  | nil => exact ⟨db, rfl, rfl, hrebuilt⟩
  | cons delta deltas ih =>
    obtain ⟨db₁, hcommit, hworld, hmirrors, hrebuilt₁⟩ := commit_rebuilds hC hlong h hempty.1
    obtain ⟨db', hrun, hworld', hrebuilt'⟩ := ih hmirrors hrebuilt₁ (hworld ▸ hempty.2)
    refine ⟨db', ?_, ?_, hrebuilt'⟩
    · rw [run, hcommit]
      exact hrun
    · rw [hworld', hworld]
      rfl

/-- **The incremental state trie is a rebuild.** From any seeded genesis, over any blocks after each of which
no empty account holds a non-zero slot, the root is the canonical root of the flat tables and every stored
node is the node of a rebuild at its path. -/
theorem run_rebuilds (hC : C.Lawful) (hlong : C.LongBranches) (accounts : List (Address × AccountFields H))
    (code : List (H × Bytes)) (deltas : List (BlockDelta H))
    (hempty : EmptyHoldNothingAlong C ((fresh : StateDb H).world.write ⟨accounts, [], code⟩) deltas) :
    ∃ genesis db, seedGenesis C accounts code = some genesis ∧ genesis.run C deltas = some db ∧
      db.world = deltas.foldl write ((fresh : StateDb H).world.write ⟨accounts, [], code⟩) ∧
      Rebuilt C genesis ∧ Rebuilt C db := by
  obtain ⟨genesis, hseed, hworld, hmirrors, hrebuilt⟩ :=
    commit_rebuilds hC hlong mirrors_fresh (emptyHoldNothing_genesis (C := C) accounts code)
  obtain ⟨db, hrun, hdb, hfinal⟩ := run_rebuilt hC hlong hmirrors hrebuilt (hworld ▸ hempty)
  exact ⟨genesis, db, hseed, hrun, by rw [hdb, hworld], hrebuilt, hfinal⟩

end StateDb

/-! ## Concrete runs -/

open Plain in
theorem plainCodec_longBranches : plainCodec.LongBranches := by
  intro children _ _
  have hfield : ∀ bs : Bytes, (field bs).length = 2 * bs.length + 1 := by
    intro bs
    induction bs with
    | nil => rfl
    | cons b bs ih =>
      rw [field, length_cons, length_cons, length_cons]
      omega
  show 32 ≤ (3 :: (field (maskBytes _) ++ _)).length
  rw [length_cons, length_append, hfield, maskBytes, length_map, length_finRange]
  omega

/-- It is enough to look at the slots there are. -/
theorem emptyHoldNothing_of_entries {w : World H}
    (h : ∀ e ∈ w.storage.entries, C.normal (w.accounts.get? e.1.1) ≠ none) : EmptyHoldNothing C w := by
  intro a key hnone
  cases hget : w.storage.get? (a, key) with
  | none => rw [slot, hget, getD_none]
  | some v => exact absurd hnone (h _ (get?_eq_some_iff.1 hget))

namespace StateDb

/-- A slot whose key starts with the two bytes. -/
def slotAt (b b' : UInt8) : B256 := ⟨b :: b' :: replicate 30 0, rfl⟩

/-- Four slots that make branches below branches, and then a write to one of them. -/
def fourSlots : List (BlockDelta Digest) :=
  [⟨[], [((1, slotAt 0 0), 1), ((1, slotAt 0 16), 2), ((1, slotAt 1 0), 3), ((1, slotAt 16 0), 4)], []⟩,
    ⟨[], [((1, slotAt 16 0), 5)], []⟩]

def funded : List (Address × AccountFields Digest) := [(1, ⟨0, 9, plainCodec.zero⟩)]

theorem emptyHoldNothingAlong_fourSlots :
    EmptyHoldNothingAlong plainStateCodec ((fresh : StateDb Digest).world.write ⟨funded, [], []⟩) fourSlots := by
  refine ⟨emptyHoldNothing_of_entries ?_, emptyHoldNothing_of_entries ?_, trivial⟩ <;> decide +kernel

theorem run_rebuilds_fourSlots :
    EmptyHoldNothingAlong plainStateCodec ((fresh : StateDb Digest).world.write ⟨funded, [], []⟩) fourSlots ∧
      ∃ genesis db, seedGenesis plainStateCodec funded [] = some genesis ∧
        genesis.run plainStateCodec fourSlots = some db ∧ Rebuilt plainStateCodec db := by
  obtain ⟨genesis, db, hseed, hrun, -, -, hrebuilt⟩ := run_rebuilds plainStateCodec_lawful
    plainCodec_longBranches funded [] fourSlots emptyHoldNothingAlong_fourSlots
  exact ⟨emptyHoldNothingAlong_fourSlots, genesis, db, hseed, hrun, hrebuilt⟩

/-- No account that holds a non-zero slot becomes empty in any of the blocks. -/
def HoldersStay (C : StateCodec H) (w : World H) : List (BlockDelta H) → Prop
  | [] => True
  | delta :: deltas =>
    (∀ a, (∃ key, (w.write delta).slot a key ≠ 0) → C.normal (w.accounts.get? a) ≠ none →
      C.normal ((w.write delta).accounts.get? a) ≠ none) ∧ HoldersStay C (w.write delta) deltas

/-- A slot of an account that is not there, and then a balance for it. -/
def fundedLater : List (BlockDelta Digest) :=
  [⟨[], [((1, slotAt 0 0), 7)], []⟩, ⟨[(1, ⟨0, 9, plainCodec.zero⟩)], [], []⟩]

/-- **An account that is empty from the start.** The first block writes a slot of it and the mirror drops
the slot with the account; the flat tables keep it. When the account is funded the canonical root has the slot
and the incremental root has not. -/
theorem fundedLater_root_differs :
    HoldersStay plainStateCodec ((fresh : StateDb Digest).world.write ⟨[], [], []⟩) fundedLater ∧
      ∃ genesis db, seedGenesis plainStateCodec [] [] = some genesis ∧
        genesis.run plainStateCodec fundedLater = some db ∧
        db.stateRoot ≠ some (db.world.root plainStateCodec) := by
  refine ⟨⟨fun a _ hne => absurd rfl hne, fun a _ hne => absurd rfl hne, trivial⟩, ?_⟩
  have hrun : ((seedGenesis plainStateCodec [] []).bind fun genesis =>
      (genesis.run plainStateCodec fundedLater).map fun db =>
        decide (db.stateRoot = some (db.world.root plainStateCodec))) = some false := by decide +kernel
  obtain ⟨genesis, hseed, hrun⟩ := bind_eq_some_iff.1 hrun
  obtain ⟨db, hdb, hroot⟩ := map_eq_some_iff.1 hrun
  exact ⟨genesis, db, hseed, hdb, of_decide_eq_false hroot⟩

end StateDb

end Kardamom.State
