import Kardamom.Exec.Scope

/-!
# Feature flags and the close of a block

The flags of a block are read once, before its first record, from the activation words in the state after the block
before it. A block with the health check records a beacon when it closes: a write of no record, which goes into the
delta of the block and nowhere else.
-/

namespace Kardamom.Exec

open Mpt State UInt64 BitVec ReadProgram

variable {H : Type} [LinearOrder H]

/-- The address of the chain state contract. -/
def chainState : Address := 0x4200000000000000000000000000000000000017

def featureHealthCheck : UInt64 := 1

def featureSealerV3 : UInt64 := 2

/-- The slot of the health beacon. -/
def healthBeaconSlot : B256 := ⟨List.replicate 31 0 ++ [1], rfl⟩

/-- The flags of one block. -/
structure BlockFeatures where
  healthCheck : Bool
  sealerV3 : Bool
  deriving DecidableEq

/-- `ParentState::storage`: a slot through the writes of the block, the parent layer and the database. -/
def parentStorage (delta : PendingDelta H) (parent : Option (PendingDelta H)) (address : Address) (key : B256) :
    StateProgram H U256 :=
  .cached (delta.storage.get? (address, key))
    (.cached (parent.bind fun p => p.storage.get? (address, key)) (.read (.storage address key) .done))

omit [LinearOrder H] in
/-- A program that reads slots only has every property that the read of a slot has. -/
theorem property_parentStorage (Q : Property (StateKey H) (StateValue H))
    (hread : ∀ address key, Q.Of (.read (.storage address key) .done)) (delta : PendingDelta H)
    (parent : Option (PendingDelta H)) (address : Address) (key : B256) :
    Q.Of (parentStorage delta parent address key) :=
  Q.cached (Q.cached (hread address key) _) _

/-- A feature is active when its word is set and has come. -/
def activeAt (word : U256) (execTs : UInt64) : Bool := word ≠ 0 ∧ word.toNat ≤ execTs.toNat

/-- `BlockFeatures::read`. The slot of an activation word is the hash of the feature id by the rule of mappings. -/
def BlockFeatures.read (activationSlot : UInt64 → B256) (parent : Option (PendingDelta H)) (execTs : UInt64) :
    StateProgram H BlockFeatures := do
  let health ← parentStorage .new parent chainState (activationSlot featureHealthCheck)
  let sealer ← parentStorage .new parent chainState (activationSlot featureSealerV3)
  return ⟨activeAt health execTs, activeAt sealer execTs⟩

omit [LinearOrder H] in
theorem BlockFeatures.property_read (Q : Property (StateKey H) (StateValue H))
    (hread : ∀ address key, Q.Of (.read (.storage address key) .done)) (activationSlot : UInt64 → B256)
    (parent : Option (PendingDelta H)) (execTs : UInt64) : Q.Of (BlockFeatures.read activationSlot parent execTs) :=
  Q.bind (property_parentStorage Q hread ..) fun _ => Q.bind (property_parentStorage Q hread ..) fun _ => Q.done _

/-! ## The beacon -/

structure Beacon where
  count : UInt64
  blockNumber : UInt64
  timestampMs : UInt64
  deriving DecidableEq

namespace Beacon

def pack (b : Beacon) : U256 :=
  b.count.toBitVec.setWidth 256 ||| (b.blockNumber.toBitVec.setWidth 256 <<< 64) |||
    (b.timestampMs.toBitVec.setWidth 256 <<< 128)

def field (word : U256) (shift : Nat) : UInt64 := ⟨(word >>> shift).setWidth 64⟩

def unpack (word : U256) : Beacon := ⟨field word 0, field word 64, field word 128⟩

end Beacon

/-- Add one, at most up to the greatest value. -/
def saturatingSucc (n : UInt64) : UInt64 := if n = ofNat (size - 1) then n else n + 1

/-- The close of one block. -/
structure BlockClose where
  blockNumber : UInt64
  headerTsMs : UInt64
  features : BlockFeatures

/-- The beacon of a block after the beacon `prior`. -/
def BlockClose.beacon (close : BlockClose) (prior : U256) : Beacon where
  count := saturatingSucc (Beacon.unpack prior).count
  blockNumber := close.blockNumber
  timestampMs := close.headerTsMs

/-- A delta with the word of a beacon in it. -/
def withBeacon (delta : PendingDelta H) (word : U256) : PendingDelta H :=
  { delta with storage := delta.storage.put (chainState, healthBeaconSlot) word }

/-- `BlockClose::apply`: the actions of the close go into the delta of the block. -/
def BlockClose.apply (close : BlockClose) (delta : PendingDelta H) (parent : Option (PendingDelta H)) :
    StateProgram H (PendingDelta H) :=
  if close.features.healthCheck = false then .done delta
  else do
    let prior ← parentStorage delta parent chainState healthBeaconSlot
    return withBeacon delta (close.beacon prior).pack

/-! ## The layer of the blocks in flight -/

/-- `merge_into_parent`: one more unsettled block in the layer. -/
def mergeIntoParent (acc : Option (PendingDelta H)) (d : PendingDelta H) : Option (PendingDelta H) :=
  some (acc.elim d (·.mergeFrom d))

/-- What a delta says of a key. -/
def layerRead (d : PendingDelta H) : ∀ k : StateKey H, Option (StateValue H k)
  | .basic address => (d.accounts.get? address).map some
  | .storage address key => d.storage.get? (address, key)
  | .codeByHash codeHash => d.code.get? codeHash

/-- A value with what a delta says over it. -/
def overlay (k : StateKey H) (v : StateValue H k) (d : PendingDelta H) : StateValue H k := (layerRead d k).getD v

section Layer

open List LinkedMap

variable (k : StateKey H) (w : World H)

theorem viewOf_apply (d : PendingDelta H) : viewOf (w.apply d) k = overlay k (viewOf w k) d := by
  cases k with
  | basic address =>
    refine (w.account_apply d address).trans ?_
    dsimp only [overlay, layerRead, viewOf]
    cases d.accounts.get? address <;> rfl
  | storage address key => exact w.slot_apply d address key
  | codeByHash => exact (congrArg (Option.getD · []) (get?_putAll_entries ..)).trans Option.getD_or

theorem layerRead_mergeFrom (d d' : PendingDelta H) :
    layerRead (d.mergeFrom d') k = (layerRead d' k).or (layerRead d k) := by
  cases k with
  | basic address =>
    dsimp only [layerRead, PendingDelta.mergeFrom]
    rw [get?_putAll_entries]
    cases d'.accounts.get? address <;> rfl
  | storage | codeByHash => exact get?_putAll_entries ..

/-- One merged layer reads as its blocks one over the other. -/
theorem layer_getD (deltas : List (PendingDelta H)) (v : StateValue H k) :
    ((deltas.foldl mergeIntoParent none).bind (layerRead · k)).getD v = deltas.foldl (overlay k) v := by
  induction deltas using reverseRecOn with
  | nil => rfl
  | append_singleton deltas d ih =>
    simp only [foldl_append, foldl_cons, foldl_nil, ← ih]
    cases deltas.foldl mergeIntoParent none with
    | none => rfl
    | some merged => exact (congrArg (Option.getD · v) (layerRead_mergeFrom k merged d)).trans Option.getD_or

/-- A layer over a snapshot that holds its first blocks reads as the tables after all blocks. -/
theorem layer_getD_viewOf (settled held later : List (PendingDelta H)) :
    (((held ++ later).foldl mergeIntoParent none).bind (layerRead · k)).getD
        (viewOf ((settled ++ held).foldl World.apply w) k) =
      viewOf ((settled ++ held ++ later).foldl World.apply w) k := by
  have htables : ∀ ds : List (PendingDelta H), viewOf (ds.foldl World.apply w) k = ds.foldl (overlay k) (viewOf w k) :=
    fun ds => (foldl_hom (viewOf · k) fun w d => (viewOf_apply k w d).symm).symm
  -- the blocks of both are written over themselves
  have htwice : ∀ v, held.foldl (overlay k) (held.foldl (overlay k) v) = held.foldl (overlay k) v := fun v => by
    simp only [← layer_getD]
    cases (held.foldl mergeIntoParent none).bind (layerRead · k) <;> rfl
  rw [layer_getD, htables, htables]
  simp only [foldl_append, htwice]

end Layer

/-- **Pipelined commits do not change what a block reads.** A layer over the blocks in flight reads as the tables
after all blocks, over a snapshot that holds any part of them: key by key, for the flags of the next block and for the
close of a block. -/
theorem pipelined_reads (w : World H) (settled held later : List (PendingDelta H)) :
    let layer := (held ++ later).foldl mergeIntoParent none
    let snapshot := viewOf ((settled ++ held).foldl World.apply w)
    let head := viewOf ((settled ++ held ++ later).foldl World.apply w)
    (∀ k, (layer.bind (layerRead · k)).getD (snapshot k) = head k) ∧
      (∀ slot ts, (BlockFeatures.read slot layer ts).run snapshot = (BlockFeatures.read slot none ts).run head) ∧
      ∀ (close : BlockClose) delta, (close.apply delta layer).run snapshot = (close.apply delta none).run head := by
  intro layer snapshot head
  have hread := fun k => layer_getD_viewOf k w settled held later
  have hparent : ∀ delta a key, (parentStorage delta layer a key).run snapshot =
      (parentStorage delta none a key).run head := fun delta a key => by
    simp only [parentStorage, run_cached]
    exact congrArg _ (hread (.storage a key))
  refine ⟨hread, fun slot ts => ?_, fun close delta => ?_⟩
  · simp [BlockFeatures.read, hparent]
  · unfold BlockClose.apply
    split
    case isTrue => rfl
    case isFalse => simp [hparent]

end Kardamom.Exec
