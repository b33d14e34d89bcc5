import Kardamom.State.Walker
import Kardamom.State.World

/-!
# The trie tables and the root of a block

A block's delta goes into the hashed mirror of accounts and slots, and the stored tries advance with it:
first the storage trie of each account with a storage write, then the account trie over the accounts that
the block touched. An account that the block leaves empty in the sense of EIP-161 loses its row, and with
it its hashed slots and the nodes of its storage trie.

The tables stay consistent with each other over every delta (`Stored`), and the root of a block is the root
over the rows of the mirror (`updateForBlock_spec`), which is what the shadow check rebuilds.
-/

namespace Kardamom.State

open Mpt Patricia Patricia.Trie SortedMap Function List Prod PrefixSet Function StateCodec
open LinkedMap (lastOf)

variable {H : Type}

/-- The writes of a block, in the order of the delta. -/
structure BlockDelta (H : Type) where
  accounts : List (Address × AccountFields H)
  storage : List ((Address × B256) × U256)
  code : List (H × Bytes)

/-- The four tables. The rows of hashed slots and of storage nodes are kept by the hash of their account. -/
structure TrieTables (H : Type) where
  accountTrie : NodeTable H
  storageTrie : B256 → NodeTable H
  hashedAccounts : SortedMap B256 (AccountTrieParts H)
  hashedStorage : B256 → SortedMap B256 U256

namespace TrieTables

def empty : TrieTables H := ⟨fun _ => none, fun _ _ => none, .empty, fun _ => .empty⟩

section Storage

variable (C : StateCodec H)

/-- The leaves of one storage trie. -/
def storageCtx (storageTrie : NodeTable H) (hashedStorage : SortedMap B256 U256) : LeafSource H where
  trieDb := storageTrie
  emitUnder path := (collectUnder hashedStorage path).map fun e => (unpack e.1, .leaf (C.uintRlp e.2))

/-- The storage changes of a block by account. -/
def groupStorageByAccount (delta : BlockDelta H) : SortedMap Address (List (B256 × U256)) :=
  delta.storage.foldl (fun grouped s => grouped.upsert s.1.1 fun old => old.getD [] ++ [(s.1.2, s.2)]) .empty

/-- A slot that becomes zero loses its row. -/
def writeOneSlot (rows : SortedMap B256 U256) (change : B256 × U256) : SortedMap B256 U256 :=
  if change.2 = 0 then rows.remove (C.slotKey change.1) else rows.upsert (C.slotKey change.1) fun _ => change.2

def writeAccountSlots (rows : SortedMap B256 U256) (changes : List (B256 × U256)) : SortedMap B256 U256 :=
  changes.foldl (writeOneSlot C) rows

/-- The storage trie of one account advances. -/
def updateStorageTrie (t : TrieTables H) (address : Address) (changes : List (B256 × U256)) :
    Option (TrieTables H × H) := do
  let ah := C.addressKey address
  let rows := writeAccountSlots C (t.hashedStorage ah) changes
  let changed := fromB256s (changes.map fun c => C.slotKey c.1)
  let (root, updates) ← rootWith C.toCodec (storageCtx C (t.storageTrie ah) rows) changed
  some ({ t with
    hashedStorage := update t.hashedStorage ah rows
    storageTrie := update t.storageTrie ah (applyUpdates (t.storageTrie ah) updates) }, root)

/-- The storage tries of all accounts with a storage change, and their new roots. -/
def updateStorageTries (t : TrieTables H) (newSroot : SortedMap Address H) :
    List (Address × List (B256 × U256)) → Option (TrieTables H × SortedMap Address H)
  | [] => some (t, newSroot)
  | (address, changes) :: rest => do
    let (t', root) ← updateStorageTrie C t address changes
    updateStorageTries t' (newSroot.upsert address fun _ => root) rest

end Storage

section Accounts

variable [DecidableEq H] (C : StateCodec H)

/-- The leaves of the account trie. -/
def accountWalk (accountTrie : NodeTable H) (hashedAccounts : SortedMap B256 (AccountTrieParts H)) :
    LeafSource H where
  trieDb := accountTrie
  emitUnder path := ((collectUnder hashedAccounts path).filter fun e => !e.2.isEmpty C).map fun e =>
    (unpack e.1, .leaf (C.accountRlp (e.2.toTrieAccount C)))

/-- The row of a touched account: its fields and its storage root are those of the block, or else those of
the row there is. -/
def rowAfter (existing : Option (AccountTrieParts H)) (basics : Option (AccountFields H))
    (newSroot : Option H) : AccountTrieParts H :=
  let fields := basics.getD (existing.elim ⟨0, 0, C.zero⟩ fun e => ⟨e.nonce, e.balance, e.codeHash⟩)
  ⟨fields.nonce, fields.balance, fields.codeHash,
    (newSroot.or (existing.map AccountTrieParts.storageRoot)).getD C.emptyRootHash⟩

/-- The row of one touched account is written, or deleted with all that hangs on it. -/
def writeOneHashedAccount (basics : SortedMap Address (AccountFields H)) (newSroot : SortedMap Address H)
    (t : TrieTables H) (address : Address) : TrieTables H :=
  let ah := C.addressKey address
  let parts := rowAfter C (t.hashedAccounts.get? ah) (basics.get? address) (newSroot.get? address)
  if parts.isEmpty C then
    { t with
      hashedAccounts := t.hashedAccounts.remove ah
      hashedStorage := update t.hashedStorage ah .empty
      storageTrie := update t.storageTrie ah fun _ => none }
  else { t with hashedAccounts := t.hashedAccounts.upsert ah fun _ => parts }

section

variable (t : TrieTables H) (touched : List Address)

def writeHashedAccounts (basics : SortedMap Address (AccountFields H))
    (newSroot : SortedMap Address H) : TrieTables H :=
  touched.foldl (writeOneHashedAccount C basics newSroot) t

/-- The account trie advances over the touched accounts. -/
def updateAccountTrie : Option (TrieTables H × H) := do
  let changed := fromB256s (touched.map C.addressKey)
  let (root, updates) ← rootWith C.toCodec (accountWalk C t.accountTrie t.hashedAccounts) changed
  some ({ t with accountTrie := applyUpdates t.accountTrie updates }, root)

end

/-- The fields that a block writes, by account: a later write replaces an earlier one. -/
def basicsOf (delta : BlockDelta H) : SortedMap Address (AccountFields H) :=
  delta.accounts.foldl (fun basics a => basics.upsert a.1 fun _ => a.2) .empty

/-- The accounts that a block touches. -/
def touchedBy (delta : BlockDelta H) : SortedMap Address Unit :=
  (((groupStorageByAccount delta).entries.map fst) ++ delta.accounts.map fst).foldl
    (fun touched a => touched.upsert a fun _ => ()) .empty

/-- **One block.** -/
def updateForBlock (t : TrieTables H) (delta : BlockDelta H) : Option (TrieTables H × H) := do
  let (t₁, newSroot) ← updateStorageTries C t .empty (groupStorageByAccount delta).entries
  let touched := (touchedBy delta).entries.map fst
  let t₂ := writeHashedAccounts C t₁ touched (basicsOf delta) newSroot
  updateAccountTrie C t₂ touched

end Accounts

/-! ## Rows and their tries -/

section Rows

variable {ν : Type} (leaf : ν → Option Bytes)

section

variable (rows : SortedMap B256 ν)

/-- The leaves that rows stand for. -/
def rowLeaves : List (B256 × Bytes) :=
  rows.entries.filterMap fun e => (leaf e.2).map fun v => (e.1, v)

theorem isMap_entries : IsMap rows.entries rows.get? where
  nodup := rows.linked.nodup
  mem_iff := fun _ _ => get?_eq_some_iff.symm

theorem isMap_rowLeaves : IsMap (rowLeaves leaf rows) fun k => (rows.get? k).bind leaf :=
  (isMap_entries rows).filterMap fun _ => leaf

end

variable {leaf}

/-- The walk over rows, from the nodes of the rows before: rows that did not change are not among the changed
keys. -/
theorem sources_rows {C : Codec H} {src : LeafSource H} {rows rows' : SortedMap B256 ν} {changed : List B256}
    (htrie : src.trieDb = C.storedNodes (full (mapTrie (rowLeaves leaf rows))))
    (hemit : ∀ path, src.emitUnder path = (collectUnder rows' path).filterMap fun e =>
      (leaf e.2).map fun v => (unpack e.1, .leaf v))
    (hsame : ∀ k ∉ changed, rows'.get? k = rows.get? k) :
    Sources C src (.fromB256s changed) (mapTrie (rowLeaves leaf rows)) (mapTrie (rowLeaves leaf rows')) := by
  obtain ⟨hcan, hreads⟩ := (isMap_rowLeaves leaf rows).ofEntries
  obtain ⟨hcan', hreads'⟩ := (isMap_rowLeaves leaf rows').ofEntries
  refine ⟨hcan, hcan', hreads.length_eq, hreads'.length_eq, fun path => by rw [htrie], ?_, ?_, ?_⟩
  · intro path p item
    rw [hemit, collectUnder_eq, mem_filterMap, full, get_map, Option.map_eq_some_iff]
    constructor
    · rintro ⟨⟨k, x⟩, he, heq⟩
      obtain ⟨hmem, hp⟩ := mem_filter.1 he
      obtain ⟨v, hv, hpair⟩ := Option.map_eq_some_iff.1 heq
      obtain ⟨rfl, rfl⟩ := Prod.mk.inj hpair
      refine ⟨by simpa using hp, v, (hreads' _ _).2 ⟨k, rfl, ?_⟩, rfl⟩
      beta_reduce
      rw [get?_eq_some_iff.2 hmem]
      exact hv
    · rintro ⟨hp, v, hv, rfl⟩
      obtain ⟨k, rfl, hk⟩ := (hreads' p v).1 hv
      obtain ⟨x, hx, hxv⟩ := Option.bind_eq_some_iff.1 hk
      refine ⟨(k, x), mem_filter.2 ⟨get?_eq_some_iff.1 hx, by simpa using hp⟩, ?_⟩
      rw [hxv]
      rfl
  · intro path
    rw [hemit, collectUnder_eq]
    refine pairwise_filterMap.2 ((rows'.sorted.sublist filter_sublist).imp ?_)
    intro e e' hlt x hx y hy
    obtain ⟨v, -, rfl⟩ := Option.map_eq_some_iff.1 hx
    obtain ⟨v', -, rfl⟩ := Option.map_eq_some_iff.1 hy
    exact hlt
  · intro path hpath q
    refine Option.ext fun v => ?_
    rw [hreads, hreads']
    refine exists_congr fun k => and_congr_right fun hk => ?_
    have hfresh : k ∉ changed := fun hmem => by
      have hcontains : (fromB256s changed).containsPrefix path = true :=
        containsPrefix_iff.2 ⟨_, mem_fromB256s.2 ⟨k, hmem, hk⟩, prefix_append path q⟩
      rw [hpath] at hcontains
      cases hcontains
    beta_reduce
    rw [hsame k hfresh]

end Rows

/-! ## Storage tries -/

variable {t : TrieTables H}

section StorageTries

variable (C : StateCodec H)

/-- The trie of the hashed slots of one account. -/
def slotTrie (rows : SortedMap B256 U256) : MptTrie := mapTrie (rowLeaves (fun v => some (C.uintRlp v)) rows)

/-- The nodes of every storage trie are those of its hashed slots. -/
def StorageStored (t : TrieTables H) : Prop :=
  ∀ ah, t.storageTrie ah = C.storedNodes (full (slotTrie C (t.hashedStorage ah)))

variable {C}

theorem get?_writeAccountSlots_of_not_mem {changes : List (B256 × U256)} {rows : SortedMap B256 U256} {k : B256}
    (h : k ∉ changes.map fun c => C.slotKey c.1) : (writeAccountSlots C rows changes).get? k = rows.get? k := by
  induction changes generalizing rows with
  | nil => rfl
  | cons c changes ih =>
    rw [map_cons, mem_cons, not_or] at h
    refine (ih h.2).trans ?_
    unfold writeOneSlot
    split
    · exact rows.get?_remove_of_ne h.1
    · exact rows.get?_upsert_of_ne h.1 _

/-- **One storage trie.** -/
theorem updateStorageTrie_eq (hlong : C.LongBranches) (h : StorageStored C t) (address : Address)
    (changes : List (B256 × U256)) :
    updateStorageTrie C t address changes =
      let ah := C.addressKey address
      let rows := writeAccountSlots C (t.hashedStorage ah) changes
      some ({ t with
        hashedStorage := update t.hashedStorage ah rows
        storageTrie := update t.storageTrie ah (C.storedNodes (full (slotTrie C rows))) },
        C.root (slotTrie C rows)) := by
  have hsources : Sources C.toCodec (storageCtx C (t.storageTrie (C.addressKey address))
        (writeAccountSlots C (t.hashedStorage (C.addressKey address)) changes))
      (.fromB256s (changes.map fun c => C.slotKey c.1)) (slotTrie C (t.hashedStorage (C.addressKey address)))
      (slotTrie C (writeAccountSlots C (t.hashedStorage (C.addressKey address)) changes)) := by
    refine sources_rows (h (C.addressKey address)) (fun path => ?_) fun k hk =>
      get?_writeAccountSlots_of_not_mem hk
    rw [storageCtx, ← filterMap_eq_map]
    rfl
  obtain ⟨updates, hroot, hnodes⟩ := hsources.rootWith_spec hlong
  unfold updateStorageTrie
  dsimp only
  rw [hroot]
  refine congrArg some (congrArg (Prod.mk · _) ?_)
  refine congrArg (TrieTables.mk _ · _ _) (congrArg _ ?_)
  exact funext hnodes

/-- **All storage tries of a block.** -/
theorem updateStorageTries_spec (hlong : C.LongBranches) (hkey : Injective C.addressKey)
    (h : StorageStored C t) {newSroot : SortedMap Address H}
    {changes : List (Address × List (B256 × U256))} (hnodup : (changes.map fst).Nodup) :
    ∃ t' newSroot', updateStorageTries C t newSroot changes = some (t', newSroot') ∧
      t'.accountTrie = t.accountTrie ∧ t'.hashedAccounts = t.hashedAccounts ∧ StorageStored C t' ∧
      (∀ e ∈ changes, t'.hashedStorage (C.addressKey e.1) =
          writeAccountSlots C (t.hashedStorage (C.addressKey e.1)) e.2 ∧
        newSroot'.get? e.1 = some (C.root (slotTrie C (t'.hashedStorage (C.addressKey e.1))))) ∧
      (∀ ah, (∀ a ∈ changes.map fst, C.addressKey a ≠ ah) → t'.hashedStorage ah = t.hashedStorage ah) ∧
      ∀ a ∉ changes.map fst, newSroot'.get? a = newSroot.get? a := by
  induction changes generalizing t newSroot with
  | nil => exact ⟨t, newSroot, rfl, rfl, rfl, h, by simp, fun _ _ => rfl, fun _ _ => rfl⟩
  | cons e changes ih =>
    obtain ⟨a, slots⟩ := e
    obtain ⟨hfresh, hnodup⟩ := nodup_cons.1 hnodup
    generalize hrows : writeAccountSlots C (t.hashedStorage (C.addressKey a)) slots = rows
    have hone := updateStorageTrie_eq hlong h a slots
    dsimp only at hone
    rw [hrows] at hone
    generalize ht₁ : ({ t with
        hashedStorage := update t.hashedStorage (C.addressKey a) rows
        storageTrie := update t.storageTrie (C.addressKey a) (C.storedNodes (full (slotTrie C rows))) } :
          TrieTables H) = t₁ at hone
    have hat : t₁.hashedStorage (C.addressKey a) = rows := by
      rw [← ht₁]
      exact update_self ..
    have hother : ∀ ah, ah ≠ C.addressKey a → t₁.hashedStorage ah = t.hashedStorage ah := fun ah hne => by
      rw [← ht₁]
      exact update_of_ne hne ..
    have hstored : StorageStored C t₁ := fun ah => by
      by_cases hah : ah = C.addressKey a
      · rw [hah, hat, ← ht₁]
        exact update_self ..
      · rw [hother ah hah, ← h ah, ← ht₁]
        exact update_of_ne hah ..
    obtain ⟨t', newSroot', hrun, hacct, hrowsAcct, hstored', hin, hout, hroots⟩ : ∃ t' newSroot',
        updateStorageTries C t₁ (newSroot.upsert a fun _ => C.root (slotTrie C rows)) changes =
          some (t', newSroot') ∧ _ := ih hstored hnodup
    have haddr : ∀ b ∈ changes.map fst, C.addressKey b ≠ C.addressKey a :=
      fun b hb heq => hfresh (hkey heq ▸ hb)
    refine ⟨t', newSroot', ?_, ?_, ?_, hstored', ?_, ?_, ?_⟩
    · rw [updateStorageTries, hone]
      exact hrun
    · rw [hacct, ← ht₁]
    · rw [hrowsAcct, ← ht₁]
    · intro e he
      rcases mem_cons.1 he with rfl | he
      · rw [hout _ haddr, hat, hroots a hfresh, get?_upsert_self]
        exact ⟨hrows.symm, rfl⟩
      · have hne := haddr e.1 (mem_map_of_mem he)
        rw [(hin e he).2, (hin e he).1, hother _ hne]
        exact ⟨rfl, rfl⟩
    · intro ah hah
      rw [hout ah fun b hb => hah b (mem_cons_of_mem _ hb), hother ah (hah a mem_cons_self).symm]
    · intro b hb
      rw [map_cons, mem_cons, not_or] at hb
      rw [hroots b hb.2, get?_upsert_of_ne _ hb.1]

end StorageTries

/-! ## Account by account -/

/-- What the tables hold of one hashed account: its row, its hashed slots and the nodes of its storage trie. -/
structure Cell (H : Type) where
  row : Option (AccountTrieParts H)
  slots : SortedMap B256 U256
  nodes : NodeTable H

open Cell

def cell (t : TrieTables H) (ah : B256) : Cell H := ⟨t.hashedAccounts.get? ah, t.hashedStorage ah, t.storageTrie ah⟩

section Cells

variable [DecidableEq H] (C : StateCodec H)

namespace Cell

section

variable (basics : Option (AccountFields H))

/-- The row is written, or deleted with the rest. -/
def write (newSroot : Option H) (c : Cell H) : Cell H :=
  if (rowAfter C c.row basics newSroot).isEmpty C then ⟨none, .empty, fun _ => none⟩
  else { c with row := some (rowAfter C c.row basics newSroot) }

/-- The writes of a block to one account. -/
def advance (changes : List (B256 × U256)) (c : Cell H) : Cell H :=
  let rows := writeAccountSlots C c.slots changes
  write C basics (if changes = [] then none else some (C.root (slotTrie C rows)))
    ⟨c.row, rows, C.storedNodes (full (slotTrie C rows))⟩

end

/-- The row is that of an account that is not empty and has the root of its slots; an account without a row
has no slots. -/
structure Consistent (c : Cell H) : Prop where
  nodes : c.nodes = C.storedNodes (full (slotTrie C c.slots))
  row : ∀ p, c.row = some p → p.isEmpty C = false ∧ p.storageRoot = C.root (slotTrie C c.slots)
  noRow : c.row = none → c.slots = .empty

variable {C}

omit [DecidableEq H] in
theorem slotTrie_empty : slotTrie C .empty = .nil := rfl

omit [DecidableEq H] in
theorem storedNodes_nil : C.storedNodes (full .nil) = fun _ => none := rfl

theorem isEmpty_default (root : H) : (⟨0, 0, C.zero, root⟩ : AccountTrieParts H).isEmpty C = true := by
  simp [AccountTrieParts.isEmpty, isEmptyAccount, toRevmCodeHash]

theorem consistent_empty : Consistent C (⟨none, .empty, fun _ => none⟩ : Cell H) :=
  ⟨by rw [slotTrie_empty, storedNodes_nil], fun _ h => (nomatch h), fun _ => rfl⟩

/-- **One block keeps an account consistent.** -/
theorem Consistent.advance {c : Cell H} (h : Consistent C c) (basics : Option (AccountFields H))
    (changes : List (B256 × U256)) : Consistent C (c.advance C basics changes) := by
  unfold Cell.advance Cell.write
  dsimp only
  generalize hroot : (if changes = [] then none else
    some (C.root (slotTrie C (writeAccountSlots C c.slots changes)))) = newSroot
  split
  case isTrue => exact consistent_empty
  case isFalse hempty =>
    refine ⟨rfl, fun p hp => ?_, fun hnone => by cases hnone⟩
    obtain rfl := Option.some.inj hp
    refine ⟨Bool.eq_false_iff.2 hempty, ?_⟩
    by_cases hch : changes = []
    · -- no storage write: the root that stands in the row, or the empty one
      subst hch
      subst hroot
      cases hrow : c.row with
      | some p => exact (h.row p hrow).2
      | none =>
        rw [h.noRow hrow]
        rfl
    · rw [if_neg hch] at hroot
      subst hroot
      rfl

/-- A block that does not write to an account leaves it as it is. -/
theorem Consistent.advance_none {c : Cell H} (h : Consistent C c) : c.advance C none [] = c := by
  obtain ⟨row, slots, nodes⟩ := c
  obtain rfl : nodes = C.storedNodes (full (slotTrie C slots)) := h.nodes
  unfold Cell.advance Cell.write
  cases row with
  | some p =>
    have hrow : rowAfter C (some p) none none = p := rfl
    dsimp only
    rw [if_pos rfl, hrow, if_neg (by rw [(h.row p rfl).1]; decide)]
    rfl
  | none =>
    obtain rfl : slots = .empty := h.noRow rfl
    exact if_pos (isEmpty_default _)

end Cell

variable {C}

theorem cell_writeOneHashedAccount (basics : SortedMap Address (AccountFields H)) (newSroot : SortedMap Address H)
    (t : TrieTables H) (a : Address) (ah : B256) :
    (writeOneHashedAccount C basics newSroot t a).cell ah =
      if ah = C.addressKey a then (t.cell ah).write C (basics.get? a) (newSroot.get? a) else t.cell ah := by
  unfold writeOneHashedAccount
  by_cases hempty : (rowAfter C (t.hashedAccounts.get? (C.addressKey a)) (basics.get? a)
      (newSroot.get? a)).isEmpty C = true
  · rw [if_pos hempty]
    by_cases hah : ah = C.addressKey a
    · subst hah
      rw [if_pos rfl]
      refine Eq.trans ?_ (if_pos hempty).symm
      simp only [cell, get?_remove_self, update_self]
    · rw [if_neg hah]
      simp only [cell, get?_remove_of_ne _ hah, update_of_ne hah]
  · rw [if_neg hempty]
    by_cases hah : ah = C.addressKey a
    · subst hah
      rw [if_pos rfl]
      refine Eq.trans ?_ (if_neg hempty).symm
      simp only [cell, get?_upsert_self]
    · rw [if_neg hah]
      simp only [cell, get?_upsert_of_ne _ hah]

theorem accountTrie_writeHashedAccounts (t : TrieTables H) (touched : List Address)
    (basics : SortedMap Address (AccountFields H)) (newSroot : SortedMap Address H) :
    (writeHashedAccounts C t touched basics newSroot).accountTrie = t.accountTrie := by
  induction touched generalizing t with
  | nil => rfl
  | cons a touched ih =>
    refine (ih _).trans ?_
    unfold writeOneHashedAccount
    dsimp only
    split <;> rfl

/-- **The rows of all touched accounts.** -/
theorem cell_writeHashedAccounts (hkey : Injective C.addressKey) (t : TrieTables H)
    {touched : List Address} (hnodup : touched.Nodup) (basics : SortedMap Address (AccountFields H))
    (newSroot : SortedMap Address H) :
    (∀ a ∈ touched, (writeHashedAccounts C t touched basics newSroot).cell (C.addressKey a) =
      (t.cell (C.addressKey a)).write C (basics.get? a) (newSroot.get? a)) ∧
    ∀ ah, (∀ a ∈ touched, C.addressKey a ≠ ah) →
      (writeHashedAccounts C t touched basics newSroot).cell ah = t.cell ah := by
  induction touched generalizing t with
  | nil => exact ⟨by simp, fun _ _ => rfl⟩
  | cons a touched ih =>
    obtain ⟨hfresh, hnodup⟩ := nodup_cons.1 hnodup
    obtain ⟨hin, hout⟩ := ih (writeOneHashedAccount C basics newSroot t a) hnodup
    have hne : ∀ b ∈ touched, C.addressKey b ≠ C.addressKey a := fun b hb heq => hfresh (hkey heq ▸ hb)
    constructor
    · intro b hb
      rcases mem_cons.1 hb with rfl | hb
      · exact (hout _ hne).trans ((cell_writeOneHashedAccount ..).trans (if_pos rfl))
      · refine (hin b hb).trans ?_
        rw [cell_writeOneHashedAccount, if_neg (hne b hb)]
    · intro ah hah
      refine (hout ah fun b hb => hah b (mem_cons_of_mem _ hb)).trans ?_
      rw [cell_writeOneHashedAccount, if_neg (hah a mem_cons_self).symm]

end Cells

/-! ## One block -/

section Block

variable [DecidableEq H] (C : StateCodec H)

/-- The leaf of a row. -/
def accountLeaf (p : AccountTrieParts H) : Option Bytes :=
  if !p.isEmpty C then some (C.accountRlp (p.toTrieAccount C)) else none

/-- The trie of the hashed accounts. -/
def accountsTrie (rows : SortedMap B256 (AccountTrieParts H)) : MptTrie := mapTrie (rowLeaves (accountLeaf C) rows)

/-- The tables agree with each other: every stored node is the node of the rows. -/
structure Stored (t : TrieTables H) : Prop where
  accountTrie : t.accountTrie = C.storedNodes (full (accountsTrie C t.hashedAccounts))
  cell : ∀ ah, (t.cell ah).Consistent C

variable {C}

theorem stored_empty : Stored C empty := ⟨rfl, fun _ => consistent_empty⟩

/-- **The account trie.** -/
theorem updateAccountTrie_eq (hlong : C.LongBranches) {rows : SortedMap B256 (AccountTrieParts H)}
    (h : t.accountTrie = C.storedNodes (full (accountsTrie C rows))) {touched : List Address}
    (hsame : ∀ k ∉ touched.map C.addressKey, t.hashedAccounts.get? k = rows.get? k) :
    updateAccountTrie C t touched =
      some ({ t with accountTrie := C.storedNodes (full (accountsTrie C t.hashedAccounts)) },
        C.root (accountsTrie C t.hashedAccounts)) := by
  have hsources : Sources C.toCodec (accountWalk C t.accountTrie t.hashedAccounts)
      (.fromB256s (touched.map C.addressKey)) (accountsTrie C rows) (accountsTrie C t.hashedAccounts) := by
    refine sources_rows h (fun path => map_filter_eq_filterMap _ fun e => ?_) hsame
    unfold accountLeaf
    split <;> rfl
  obtain ⟨updates, hroot, hnodes⟩ := hsources.rootWith_spec hlong
  unfold updateAccountTrie
  dsimp only
  rw [hroot]
  refine congrArg some (congrArg (Prod.mk · _) (congrArg (TrieTables.mk · _ _ _) ?_))
  exact funext hnodes

omit [DecidableEq H] in
theorem get?_basicsOf (delta : BlockDelta H) (a : Address) :
    (basicsOf delta).get? a = lastOf delta.accounts a := by
  unfold basicsOf
  induction delta.accounts using List.reverseRecOn with
  | nil => rfl
  | append_singleton es e ih =>
    rw [lastOf, foldl_append, foldl_append, foldl_cons, foldl_cons, foldl_nil, foldl_nil]
    by_cases hk : e.1 = a
    · subst hk
      rw [if_pos rfl, get?_upsert_self]
    · rw [if_neg hk, get?_upsert_of_ne _ (Ne.symm hk)]
      exact ih

variable {delta : BlockDelta H}

omit [DecidableEq H] in
theorem mem_groupStorageByAccount {e : Address × List (B256 × U256)} :
    e ∈ (groupStorageByAccount delta).entries ↔ slotsIn delta.storage e.1 ≠ [] ∧ e.2 = slotsIn delta.storage e.1 := by
  have hget : (groupStorageByAccount delta).get? e.1 = _ := get?_foldl_group delta.storage e.1
  rw [show e ∈ (groupStorageByAccount delta).entries ↔ _ from get?_eq_some_iff.symm, hget]
  by_cases hnil : slotsIn delta.storage e.1 = []
  · simp [hnil]
  · simp [hnil, eq_comm]

omit [DecidableEq H] in
theorem mem_keys_groupStorageByAccount {a : Address} :
    a ∈ (groupStorageByAccount delta).entries.map fst ↔ slotsIn delta.storage a ≠ [] := by
  rw [mem_map]
  refine ⟨?_, fun hne => ⟨(a, slotsIn delta.storage a), mem_groupStorageByAccount.2 ⟨hne, rfl⟩, rfl⟩⟩
  rintro ⟨e, he, rfl⟩
  exact (mem_groupStorageByAccount.1 he).1

omit [DecidableEq H] in
/-- The accounts that a delta touches are those that it writes a field or a slot of. -/
theorem mem_touchedBy {a : Address} :
    a ∈ (touchedBy delta).entries.map fst ↔
      slotsIn delta.storage a ≠ [] ∨ a ∈ delta.accounts.map fst := by
  rw [touchedBy, mem_keys_foldl_upsert, mem_append, mem_keys_groupStorageByAccount]
  exact or_iff_right (by simp)

theorem lastOf_eq_none_of_not_mem {α β : Type} [DecidableEq α] {es : List (α × β)} {a : α}
    (h : a ∉ es.map fst) : lastOf es a = none := by
  induction es using List.reverseRecOn with
  | nil => rfl
  | append_singleton es e ih =>
    rw [map_append, mem_append, not_or] at h
    rw [lastOf, foldl_append, foldl_cons, if_neg]
    · exact ih h.1
    · rintro rfl
      exact h.2 (by simp)

variable (hlong : C.LongBranches) (hkey : Injective C.addressKey) (h : Stored C t)
  (delta : BlockDelta H)
include hlong hkey h

/-- The first pass over a block: each account has its storage writes, and its new root if there are any. -/
theorem updateStorageTries_group :
    ∃ t₁ newSroot, updateStorageTries C t .empty (groupStorageByAccount delta).entries = some (t₁, newSroot) ∧
      t₁.accountTrie = t.accountTrie ∧ t₁.hashedAccounts = t.hashedAccounts ∧
      (∀ a basics, (t₁.cell (C.addressKey a)).write C basics (newSroot.get? a) =
        (t.cell (C.addressKey a)).advance C basics (slotsIn delta.storage a)) ∧
      ∀ ah, (∀ a, slotsIn delta.storage a ≠ [] → C.addressKey a ≠ ah) → t₁.cell ah = t.cell ah := by
  obtain ⟨t₁, newSroot, hrun, hacct, hrows, hstored, hin, hout, hroots⟩ : ∃ t₁ newSroot,
      updateStorageTries C t .empty (groupStorageByAccount delta).entries = some (t₁, newSroot) ∧ _ :=
    updateStorageTries_spec hlong hkey (fun ah => (h.cell ah).nodes)
      (groupStorageByAccount delta).linked.nodup
  have hfree : ∀ ah, (∀ a, slotsIn delta.storage a ≠ [] → C.addressKey a ≠ ah) → t₁.cell ah = t.cell ah := by
    intro ah hah
    have hsame : t₁.hashedStorage ah = t.hashedStorage ah := hout ah fun a ha => hah a (mem_keys_groupStorageByAccount.1 ha)
    have hnodes : t.storageTrie ah = C.storedNodes (full (slotTrie C (t.hashedStorage ah))) := (h.cell ah).nodes
    rw [cell, cell, hrows, hstored, hsame, hnodes]
  refine ⟨t₁, newSroot, hrun, hacct, hrows, fun a basics => ?_, hfree⟩
  unfold advance
  dsimp only
  by_cases hnil : slotsIn delta.storage a = []
  · have ha : a ∉ (groupStorageByAccount delta).entries.map fst := fun hmem =>
      mem_keys_groupStorageByAccount.1 hmem hnil
    have hsame : t₁.cell (C.addressKey a) = t.cell (C.addressKey a) :=
      hfree _ fun b hb heq => hb (hkey heq ▸ hnil)
    rw [hroots a ha, hsame, hnil]
    refine congrArg (write C basics none) ?_
    exact congrArg (Cell.mk _ _) (h.cell (C.addressKey a)).nodes
  · obtain ⟨hslots, hroot⟩ := hin (a, slotsIn delta.storage a) (mem_groupStorageByAccount.2 ⟨hnil, rfl⟩)
    rw [if_neg hnil, hroot, cell, cell, hrows, hstored, hslots]

/-- **One block**: the root is the root of the rows, the tables agree with each other, and each account has
advanced by the writes of the block to it. -/
theorem updateForBlock_spec :
    ∃ t', updateForBlock C t delta = some (t', C.root (accountsTrie C t'.hashedAccounts)) ∧ Stored C t' ∧
      (∀ a, t'.cell (C.addressKey a) =
        (t.cell (C.addressKey a)).advance C (lastOf delta.accounts a) (slotsIn delta.storage a)) ∧
      ∀ ah, (∀ a, C.addressKey a ≠ ah) → t'.cell ah = t.cell ah := by
  obtain ⟨t₁, newSroot, hrun, hacct, hrows, hcell₁, hfree⟩ := updateStorageTries_group hlong hkey h delta
  generalize htouched : (touchedBy delta).entries.map fst = touched
  have hmem : ∀ a, a ∈ touched ↔ slotsIn delta.storage a ≠ [] ∨ a ∈ delta.accounts.map fst := fun a => by
    rw [← htouched, mem_touchedBy]
  have hnodup : touched.Nodup := htouched ▸ (touchedBy delta).linked.nodup
  obtain ⟨hwritten, hkept⟩ := cell_writeHashedAccounts hkey t₁ hnodup (basicsOf delta) newSroot
  have hacct₂ := accountTrie_writeHashedAccounts (C := C) t₁ touched (basicsOf delta) newSroot
  generalize ht₂ : writeHashedAccounts C t₁ touched (basicsOf delta) newSroot = t₂ at hwritten hkept hacct₂
  have hcell : ∀ a, t₂.cell (C.addressKey a) =
      (t.cell (C.addressKey a)).advance C (lastOf delta.accounts a) (slotsIn delta.storage a) := by
    intro a
    by_cases ha : a ∈ touched
    · rw [hwritten a ha, get?_basicsOf, hcell₁]
    · -- an account that the block does not touch
      obtain ⟨hnil, hno⟩ := not_or.1 fun hor => ha ((hmem a).2 hor)
      rw [hkept _ fun b hb heq => ha (by rwa [← hkey heq]), hfree _ fun b hb heq => hnil (by rwa [← hkey heq]),
        lastOf_eq_none_of_not_mem hno, not_not.1 hnil, (h.cell (C.addressKey a)).advance_none]
  have hothers : ∀ ah, (∀ a, C.addressKey a ≠ ah) → t₂.cell ah = t.cell ah := fun ah hah => by
    rw [hkept ah fun a _ => hah a, hfree ah fun a _ => hah a]
  refine ⟨{ t₂ with accountTrie := C.storedNodes (full (accountsTrie C t₂.hashedAccounts)) }, ?_, ?_, hcell, hothers⟩
  · have hsame : ∀ k ∉ touched.map C.addressKey, t₂.hashedAccounts.get? k = t.hashedAccounts.get? k := by
      intro k hk
      have hrow := congrArg row (hkept k fun a ha heq => hk (mem_map.2 ⟨a, ha, heq⟩))
      rwa [cell, cell, hrows] at hrow
    have hroot := updateAccountTrie_eq hlong (hacct₂.trans (hacct.trans h.accountTrie)) hsame
    rw [updateForBlock, hrun, Option.bind_eq_bind, Option.bind_some]
    dsimp only
    rw [htouched, ht₂, hroot]
  · refine ⟨rfl, fun ah => ?_⟩
    show (t₂.cell ah).Consistent C
    by_cases hex : ∃ a, C.addressKey a = ah
    · obtain ⟨a, rfl⟩ := hex
      rw [hcell]
      exact (h.cell _).advance _ _
    · rw [hothers ah fun a heq => hex ⟨a, heq⟩]
      exact h.cell ah

end Block

end TrieTables

end Kardamom.State
