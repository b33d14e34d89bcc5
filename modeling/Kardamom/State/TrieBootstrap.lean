import Kardamom.State.TrieRuns

/-!
# Bootstrap of the trie from the flat tables

A writer with the trie off advances the flat tables only, so an image may hold a stale mirror. It is the mirror
of older tables (`Stale`), and the flat tables never lose a key. So one delta of all their rows, over whatever
mirror there is, leaves the mirror of the flat tables.
-/

namespace Kardamom.State

open Mpt TrieTables World List

variable {H : Type} [DecidableEq H]

/-- Every row of the flat tables, as one delta. -/
def World.asDelta (w : World H) : BlockDelta H := ⟨w.accounts.entries, w.storage.entries, w.code.entries⟩

namespace StateDb

variable (C : StateCodec H)

/-- Whether the writer keeps the trie. A shadow check is a check of the incremental mode. -/
inductive TrieMode
  | off
  | incremental

section

variable (db : StateDb H)

/-- A block of the state writer. -/
def apply (delta : BlockDelta H) : TrieMode → Option (StateDb H)
  | .off => some { db with world := db.world.write delta }
  | .incremental => db.commit C delta

/-- The trie tables and the root are cleared. -/
def stripTrie : StateDb H := { db with tables := .empty, stateRoot := none }

/-- The mirror and the tries from the flat tables, over those that are there. -/
def bootstrapTrieFromState : Option (StateDb H × H) := do
  let (tables, root) ← db.tables.updateForBlock C db.world.asDelta
  some (⟨db.world, tables, some root⟩, root)

/-- What happens to an image. -/
inductive ImageStep (H : Type)
  | block (mode : TrieMode) (delta : BlockDelta H)
  | strip

def step : ImageStep H → Option (StateDb H)
  | .block mode delta => db.apply C delta mode
  | .strip => some db.stripTrie

end

/-- The blocks of a history. -/
def blocks (steps : List (ImageStep H)) : List (BlockDelta H) := steps.filterMap fun
    | .block _ delta => some delta
    | .strip => none

/-- The mirror is that of older flat tables, whose keys are all still there. -/
structure Stale (db : StateDb H) (w₀ : World H) : Prop where
  mirrors : Mirrors C w₀ db.tables
  accounts : w₀.accounts.KeysWithin db.world.accounts
  storage : w₀.storage.KeysWithin db.world.storage

section

variable {C} {db : StateDb H} {w₀ : World H} (hC : C.Lawful) (hlong : C.LongBranches)
include hC hlong

section

variable (h : Stale C db w₀)
include h

/-- **One step of a history.** A block with the trie on advances a stale mirror by its own writes. -/
theorem Stale.step (s : ImageStep H) :
    ∃ db' w₁, db.step C s = some db' ∧ db'.world = (blocks [s]).foldl write db.world ∧ Stale C db' w₁ := by
  cases s with
  | strip => exact ⟨_, _, rfl, rfl, mirrors_fresh, fun _ _ => rfl, fun _ _ => rfl⟩
  | block mode delta =>
    cases mode with
    | off => exact ⟨_, w₀, rfl, rfl, h.mirrors, h.accounts.putAll_right _, h.storage.putAll_right _⟩
    | incremental =>
      obtain ⟨t', hrun, hmirrors⟩ := h.mirrors.updateForBlock_pruned hC hlong delta
      refine ⟨⟨db.world.write delta, t', some ((w₀.write delta).root C)⟩, _, ?_, rfl, hmirrors,
        h.accounts.putAll _, (h.storage.putAll _).filter _⟩
      rw [StateDb.step, apply, commit, hrun]
      rfl

theorem Stale.run (steps : List (ImageStep H)) :
    ∃ image w₁, steps.foldlM (StateDb.step C) db = some image ∧
      image.world = (blocks steps).foldl write db.world ∧ Stale C image w₁ := by
  induction steps generalizing db w₀ with
  | nil => exact ⟨db, w₀, rfl, rfl, h⟩
  | cons s steps ih =>
    obtain ⟨db₁, w₁, hstep, hworld, hstale⟩ := h.step hC hlong s
    obtain ⟨image, w₂, hrun, himage, hfinal⟩ := ih hstale
    refine ⟨image, w₂, ?_, ?_, hfinal⟩
    · rw [foldlM_cons, hstep]
      exact hrun
    · rw [himage, hworld, ← foldl_append, blocks, blocks, ← filterMap_append]
      rfl

/-- **The bootstrap over a stale mirror.** -/
theorem Stale.bootstrap :
    ∃ t', db.bootstrapTrieFromState C =
        some (⟨db.world, t', some (db.world.root C)⟩, db.world.root C) ∧ Mirrors C (db.world.pruned C) t' := by
  obtain ⟨t', hrun, hmirrors⟩ := h.mirrors.updateForBlock_pruned hC hlong db.world.asDelta
  have haccounts : ∀ a, (w₀.write db.world.asDelta).accounts.get? a = db.world.accounts.get? a :=
    h.accounts.get?_putAll_entries
  have hslots : ∀ a, (w₀.write db.world.asDelta).slot a = db.world.slot a := fun a =>
    funext fun key => congrArg (Option.getD · 0) (h.storage.get?_putAll_entries (a, key))
  have hroot : (w₀.write db.world.asDelta).root C = db.world.root C :=
    root_congr hC (fun a => congrArg C.normal (haccounts a)) fun a _ key => congrFun (hslots a) key
  refine ⟨t', ?_, hmirrors.congr haccounts fun a => ?_⟩
  · rw [bootstrapTrieFromState, hrun, hroot]
    rfl
  · funext key
    rw [slot_pruned, slot_pruned, heldSlot, heldSlot, haccounts, hslots]

end

/-- **The bootstrap converges from any stale mirror.** Over any history of blocks, with the trie on or off, and
strips, it returns the canonical root of the flat tables. If no block of the history left an empty account with a
non-zero slot, that is the root of a writer with the trie on since the genesis. If the image has no such account,
later blocks that leave none go on with the root and the nodes of a rebuild. -/
theorem bootstrapTrieFromState_converges (accounts : List (Address × AccountFields H)) (code : List (H × Bytes))
    (steps : List (ImageStep H)) :
    ∃ genesis image boot, seedGenesis C accounts code = some genesis ∧
      steps.foldlM (StateDb.step C) genesis = some image ∧
      image.world = (blocks steps).foldl write ((fresh : StateDb H).world.write ⟨accounts, [], code⟩) ∧
      image.bootstrapTrieFromState C = some (boot, image.world.root C) ∧
      (EmptyHoldNothingAlong C ((fresh : StateDb H).world.write ⟨accounts, [], code⟩) (blocks steps) →
        ∃ db, genesis.run C (blocks steps) = some db ∧ db.stateRoot = some (image.world.root C)) ∧
      (EmptyHoldNothing C image.world → ∀ later, EmptyHoldNothingAlong C image.world later →
        ∃ db, boot.run C later = some db ∧ db.world = later.foldl write image.world ∧ Rebuilt C db) := by
  obtain ⟨genesis, hseed, hgenesis, hmirrors, hrebuilt⟩ :=
    commit_rebuilds hC hlong mirrors_fresh (emptyHoldNothing_genesis (C := C) accounts code)
  obtain ⟨image, w₀, hrun, hworld, hstale⟩ :=
    Stale.run hC hlong ⟨hmirrors, fun _ => id, fun _ => id⟩ steps
  obtain ⟨t', hboot, hbooted⟩ := hstale.bootstrap hC hlong
  rw [← hgenesis]
  refine ⟨genesis, image, _, hseed, hrun, hworld, hboot, fun hempty => ?_, fun hempty later hlater => ?_⟩
  · obtain ⟨db, hon, hdb, hrebuilt⟩ := run_rebuilt hC hlong hmirrors hrebuilt hempty
    exact ⟨db, hon, hworld ▸ hdb ▸ hrebuilt.root⟩
  · let boot : StateDb H := ⟨image.world, t', some (image.world.root C)⟩
    have hfull : Mirrors C boot.world boot.tables := hbooted.congr (fun _ => rfl) fun a => by
      rw [slot_pruned, hempty.heldSlot_eq]
    exact run_rebuilt hC hlong hfull (.of_mirrors hC hfull rfl) hlater

end

/-- A strip, a block with the trie off, the bootstrap, and a block on it. -/
theorem bootstrapTrieFromState_converges_fourSlots :
    ∃ genesis image boot db, seedGenesis plainStateCodec funded [] = some genesis ∧
      (.strip :: (fourSlots.take 1).map (ImageStep.block .off)).foldlM (step plainStateCodec) genesis = some image ∧
      image.bootstrapTrieFromState plainStateCodec = some (boot, image.world.root plainStateCodec) ∧
      boot.run plainStateCodec (fourSlots.drop 1) = some db ∧ Rebuilt plainStateCodec db := by
  obtain ⟨genesis, image, boot, hseed, hrun, hworld, hboot, -, hlater⟩ := bootstrapTrieFromState_converges
    plainStateCodec_lawful plainCodec_longBranches funded [] (.strip :: (fourSlots.take 1).map (.block .off))
  obtain ⟨hempty, halong⟩ := emptyHoldNothingAlong_fourSlots
  obtain ⟨db, hdb, -, hrebuilt⟩ := hlater (hworld ▸ hempty) (fourSlots.drop 1) (hworld ▸ halong)
  exact ⟨genesis, image, boot, db, hseed, hrun, hboot, hdb, hrebuilt⟩

/-- A writer with the trie on has dropped the slot of an account that is funded later; the bootstrap finds it. -/
theorem fundedLater_bootstrap_differs :
    ((seedGenesis plainStateCodec [] []).bind fun genesis => do
      let image ← (fundedLater.map (ImageStep.block .off)).foldlM (step plainStateCodec) genesis
      let (_, root) ← image.bootstrapTrieFromState plainStateCodec
      let db ← genesis.run plainStateCodec fundedLater
      some (decide (db.stateRoot = some root))) = some false := by decide +kernel

end StateDb

end Kardamom.State
