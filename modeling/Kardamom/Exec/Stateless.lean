import Kardamom.Anchor.LiveRoot
import Kardamom.Exec.Block
import Kardamom.Lib.CallTree
import Mathlib.Data.Prod.Lex

/-!
# Execution over a witness

A witness is captured by running the block over a recorder, which keeps the first answer to each read.
`executeBlockStateless` runs the same driver over the witness alone and fails on a read that the witness does not
answer. `executeBlockAnchored` proves the witness against a state root before the run and recomputes the root after it.

The live executor runs the same records, then the actions of the close of the block, and commits both. The stateless
run has no close. So the two roots agree exactly when the close writes nothing that counts
(`executeBlockAnchored_eq_live_iff`).
-/

namespace Kardamom.Exec

open Mpt State Anchor ReadProgram BlockFeatures Outcome StateDb Option SortedMap World LinkedMap

variable {H : Type} [LinearOrder H] {P : Payloads}

/-! ## Capture and replay of a witness -/

/-- A witness as a database. The recorder of a capture holds the same three maps. -/
structure WitnessDb (H : Type) [LinearOrder H] where
  accounts : SortedMap Address (Option (AccountFields H))
  storage : SortedMap (Address ×ₗ B256) U256
  code : SortedMap H Bytes

open WitnessDb

namespace WitnessDb

def empty : WitnessDb H := ⟨.empty, .empty, .empty⟩

/-- The account of a witness as the read found it. -/
def fieldsOf (a : WitnessAccount H) : Option (AccountFields H) :=
  if a.present then some ⟨a.nonce, a.balance, a.codeHash⟩ else none

def fromWitness (w : ExecutionWitness H) : WitnessDb H where
  accounts := w.accounts.foldl (fun m a => m.upsert a.address fun _ => fieldsOf a) .empty
  storage := w.storage.foldl (fun m s => m.upsert (toLex (s.address, s.key)) fun _ => s.value) .empty
  code := w.code.foldl (fun m c => m.upsert c.codeHash fun _ => c.code) .empty

variable (C : StateCodec H)

/-- What the witness answers, if it holds the key. No code needs no entry. -/
def get (db : WitnessDb H) : ∀ k, Option (StateValue H k)
  | .basic address => db.accounts.get? address
  | .storage address key => db.storage.get? (toLex (address, key))
  | .codeByHash hash => if hash = C.keccakEmpty ∨ hash = C.zero then some [] else db.code.get? hash

/-- The value that the map holds at the key, or the fetched one, which it then holds. -/
def memo {κ ν : Type} [LinearOrder κ] (map : SortedMap κ ν) (key : κ) (fetched : ν) : ν × SortedMap κ ν :=
  match map.get? key with
  | some value => (value, map)
  | none => (fetched, map.upsert key fun _ => fetched)

/-- A read through the recorder: the first answer to a key stays. -/
def record (view : StateView H) (rec : WitnessDb H) : (k : StateKey H) → StateValue H k × WitnessDb H
  | .basic address =>
    let m := memo rec.accounts address (view (.basic address))
    (m.1, { rec with accounts := m.2 })
  | .storage address key =>
    let m := memo rec.storage (toLex (address, key)) (view (.storage address key))
    (m.1, { rec with storage := m.2 })
  | .codeByHash hash =>
    if hash = C.keccakEmpty ∨ hash = C.zero then (([] : Bytes), rec)
    else
      let m := memo rec.code hash (view (.codeByHash hash))
      (m.1, { rec with code := m.2 })

/-- A program over the recorder. -/
def recordRun {α : Type} (view : StateView H) : StateProgram H α → WitnessDb H → α × WitnessDb H
  | .done a, rec => (a, rec)
  | .read k next, rec => recordRun view (next (rec.record C view k).1) (rec.record C view k).2

/-- `into_witness`. -/
def intoWitness (rec : WitnessDb H) : ExecutionWitness H where
  accounts := rec.accounts.entries.map fun e =>
    match e.2 with
    | some fields => ⟨e.1, true, fields.nonce, fields.balance, fields.codeHash⟩
    | none => ⟨e.1, false, 0, 0, C.zero⟩
  storage := rec.storage.entries.map fun e => ⟨(ofLex e.1).1, (ofLex e.1).2, e.2⟩
  code := rec.code.entries.map fun e => ⟨e.1, e.2⟩
  preStateRoot := none

/-- All answers are those of one database. -/
structure Of (view : StateView H) (db : WitnessDb H) : Prop where
  accounts : ∀ address fields, db.accounts.get? address = some fields → view (.basic address) = fields
  storage : ∀ address key value, db.storage.get? (toLex (address, key)) = some value →
    view (.storage address key) = value
  code : ∀ hash code, db.code.get? hash = some code → view (.codeByHash hash) = code

variable {C} {view : StateView H} {db : WitnessDb H}

theorem of_empty : Of view (empty : WitnessDb H) where
  accounts _ _ h := nomatch h
  storage _ _ _ h := nomatch h
  code _ _ h := nomatch h

theorem get?_memo {κ ν : Type} [LinearOrder κ] {map : SortedMap κ ν} {key k : κ} {fetched v : ν}
    (h : (memo map key fetched).2.get? k = some v) : k = key ∧ fetched = v ∨ map.get? k = some v := by
  unfold memo at h
  cases hget : map.get? key with
  | some value =>
    rw [hget] at h
    exact .inr h
  | none =>
    rw [hget] at h
    by_cases hk : k = key
    · subst hk
      rw [get?_upsert_self] at h
      exact .inl ⟨rfl, some.inj h⟩
    · rw [get?_upsert_of_ne _ hk] at h
      exact .inr h

variable {hash : H}

theorem record_of_noCode (hk : hash = C.keccakEmpty ∨ hash = C.zero) :
    db.record C view (.codeByHash hash) = (([] : Bytes), db) :=
  if_pos hk

theorem record_codeByHash (hk : Asked C (.codeByHash hash)) :
    db.record C view (.codeByHash hash) = ((memo db.code hash (view (.codeByHash hash))).1,
      { db with code := (memo db.code hash (view (.codeByHash hash))).2 }) :=
  if_neg (not_or.2 hk)

theorem get_codeByHash (hk : Asked C (.codeByHash hash)) :
    db.get C (.codeByHash hash) = db.code.get? hash :=
  if_neg (not_or.2 hk)

theorem Of.record (h : Of view db) (k : StateKey H) : Of view (db.record C view k).2 := by
  cases k with
  | basic address =>
    refine ⟨fun a fields ha => ?_, h.storage, h.code⟩
    rcases get?_memo ha with ⟨rfl, rfl⟩ | ha
    · rfl
    · exact h.accounts a fields ha
  | storage address key =>
    refine ⟨h.accounts, fun a k value ha => ?_, h.code⟩
    rcases get?_memo ha with ⟨heq, rfl⟩ | ha
    · cases heq
      rfl
    · exact h.storage a k value ha
  | codeByHash hash =>
    by_cases hnone : hash = C.keccakEmpty ∨ hash = C.zero
    · rw [record_of_noCode hnone]
      exact h
    · rw [record_codeByHash (not_or.1 hnone)]
      refine ⟨h.accounts, h.storage, fun a code ha => ?_⟩
      rcases get?_memo ha with ⟨rfl, rfl⟩ | ha
      · rfl
      · exact h.code a code ha

variable {α : Type}

/-- A recording holds answers of its database only. -/
theorem Of.recordRun (h : Of view db) (p : StateProgram H α) : Of view (recordRun C view p db).2 := by
  induction p generalizing db with
  | done a => exact h
  | read k next ih => exact ih _ (h.record k)

/-- A witness holds all that was recorded and nothing else. -/
theorem fromWitness_intoWitness (db : WitnessDb H) : fromWitness (db.intoWitness C) = db := by
  have haccounts := db.accounts.foldl_upsert_entries WitnessAccount.address fieldsOf (fun e =>
    match e.2 with
    | some fields => ⟨e.1, true, fields.nonce, fields.balance, fields.codeHash⟩
    | none => ⟨e.1, false, 0, 0, C.zero⟩) (by rintro ⟨_, _ | _⟩ <;> rfl) (by rintro ⟨_, _ | _⟩ <;> rfl)
  have hstorage := db.storage.foldl_upsert_entries (fun s : WitnessSlot => toLex (s.address, s.key)) (·.value)
    (fun e => ⟨(ofLex e.1).1, (ofLex e.1).2, e.2⟩) (fun _ => rfl) (fun _ => rfl)
  have hcode := db.code.foldl_upsert_entries CodeEntry.codeHash (·.code) (fun e => ⟨e.1, e.2⟩) (fun _ => rfl)
    (fun _ => rfl)
  rw [fromWitness, intoWitness, haccounts, hstorage, hcode]

theorem Of.get (h : Of view db) (k : StateKey H) (v : StateValue H k) (hk : Asked C k) (hget : db.get C k = some v) :
    view k = v := by
  cases k with
  | basic address => exact h.accounts address v hget
  | storage address key => exact h.storage address key v hget
  | codeByHash hash => exact h.code hash v ((get_codeByHash hk).symm.trans hget)

/-! ### Replay of a recording -/

theorem memo_of_get? {κ ν : Type} [LinearOrder κ] {map : SortedMap κ ν} {key : κ} {fetched v : ν}
    (h : map.get? key = some v) : memo map key fetched = (v, map) := by
  rw [memo, h]

/-- What is held after a read: the answer, and all that was held before. -/
theorem get?_memo_eq {κ ν : Type} [LinearOrder κ] (map : SortedMap κ ν) (key k : κ) (fetched : ν) :
    (memo map key fetched).2.get? k = if k = key then some (memo map key fetched).1 else map.get? k := by
  unfold memo
  cases hget : map.get? key with
  | some value =>
    by_cases hk : k = key
    · rw [if_pos hk, hk]
      exact hget
    · rw [if_neg hk]
  | none =>
    by_cases hk : k = key
    · rw [if_pos hk, hk, get?_upsert_self]
    · rw [if_neg hk, get?_upsert_of_ne _ hk]

variable {k : StateKey H} {v : StateValue H k}

/-- The first answer stays: a key that is held is not asked for again. -/
theorem record_of_get (h : db.get C k = some v) : db.record C view k = (v, db) := by
  cases k with
  | basic address => exact congrArg (fun m => (m.1, { db with accounts := m.2 })) (memo_of_get? h)
  | storage address key => exact congrArg (fun m => (m.1, { db with storage := m.2 })) (memo_of_get? h)
  | codeByHash hash =>
    by_cases hk : hash = C.keccakEmpty ∨ hash = C.zero
    · have hv : v = [] := (some.inj ((if_pos hk).symm.trans h)).symm
      rw [hv]
      exact record_of_noCode hk
    · rw [get_codeByHash (not_or.1 hk)] at h
      rw [record_codeByHash (not_or.1 hk)]
      exact congrArg (fun m => (m.1, { db with code := m.2 })) (memo_of_get? h)

theorem get_record_self (k : StateKey H) : (db.record C view k).2.get C k = some (db.record C view k).1 := by
  cases k with
  | basic | storage => exact (get?_memo_eq ..).trans (if_pos rfl)
  | codeByHash hash =>
    by_cases hk : hash = C.keccakEmpty ∨ hash = C.zero
    · rw [record_of_noCode hk]
      exact if_pos hk
    · rw [record_codeByHash (not_or.1 hk), get_codeByHash (not_or.1 hk)]
      exact (get?_memo_eq ..).trans (if_pos rfl)

theorem get_record_of_ne {k' : StateKey H} (h : k' ≠ k) : (db.record C view k).2.get C k' = db.get C k' := by
  cases k with
  | basic address =>
    cases k' with
    | basic address' => exact (get?_memo_eq ..).trans (if_neg fun heq => h (by rw [heq]))
    | _ => rfl
  | storage address key =>
    cases k' with
    | storage address' key' =>
      refine (get?_memo_eq ..).trans (if_neg fun heq => h ?_)
      cases heq
      rfl
    | _ => rfl
  | codeByHash hash =>
    by_cases hk : hash = C.keccakEmpty ∨ hash = C.zero
    · rw [record_of_noCode hk]
    rw [record_codeByHash (not_or.1 hk)]
    cases k' with
    | codeByHash hash' =>
      have hkept := (get?_memo_eq db.code hash hash' (view (.codeByHash hash))).trans
        (if_neg fun heq => h (congrArg _ heq))
      exact congrArg (fun code => if hash' = C.keccakEmpty ∨ hash' = C.zero then some [] else code) hkept
    | _ => rfl

section

variable (p : StateProgram H α)

/-- A run over the recorder loses nothing that was recorded before. -/
theorem get_recordRun (h : db.get C k = some v) : (recordRun C view p db).2.get C k = some v := by
  induction p generalizing db with
  | done a => exact h
  | read k' next ih =>
    refine ih _ ?_
    by_cases hk : k = k'
    · subst hk
      rwa [record_of_get h]
    · rwa [get_record_of_ne hk]

/-- Over what a run recorded, the same program runs in the same way. -/
theorem tryRun_recordRun :
    p.tryRun ((recordRun C view p db).2.get C) = .ok (recordRun C view p db).1 := by
  induction p generalizing db with
  | done a => rfl
  | read k next ih =>
    rw [tryRun, recordRun, get_recordRun _ (get_record_self k)]
    exact ih _

/-- The answers that are held are those that were given. -/
theorem get_recordRun_logged (log : List (Σ k, StateValue H k))
    (h : ∀ k, Asked C k → ∀ v, db.get C k = some v ↔ ⟨k, v⟩ ∈ log) (k : StateKey H) (hk : Asked C k)
    (v : StateValue H k) :
    (recordRun C view (p.logged log) db).2.get C k = some v ↔
      ⟨k, v⟩ ∈ (recordRun C view (p.logged log) db).1.2 := by
  induction p generalizing db log with
  | done a => exact h k hk v
  | read k' next ih =>
    refine ih _ _ fun k hk v => ?_
    rw [List.mem_append, List.mem_singleton]
    by_cases heq : k = k'
    · subst heq
      rw [get_record_self, some.injEq, ← h k hk v, Sigma.mk.injEq, heq_eq_eq]
      refine ⟨fun hv => .inr ⟨rfl, hv.symm⟩, ?_⟩
      rintro (hget | ⟨-, hv⟩)
      · rw [record_of_get hget]
      · exact hv.symm
    · rw [get_record_of_ne heq, h k hk v, or_iff_left fun hv => heq (congrArg Sigma.fst hv)]

end

/-- **A recording replays its program, and answers no other read.** The program gets every answer again, and so its
result. A key that it did not read is refused, whatever was read of the same account or of the same code; only the
code of no code is answered without an entry. -/
theorem replay_recording (C : StateCodec H) (view : StateView H) {α : Type} (p : StateProgram H α) :
    let ran := recordRun C view (p.logged []) empty
    let db := fromWitness (ran.2.intoWitness C)
    (p.logged []).tryRun (db.get C) = .ok ran.1 ∧
      (∀ k, Asked C k → ∀ v, db.get C k = some v ↔ ⟨k, v⟩ ∈ ran.1.2) ∧
      (∀ k, Asked C k → (∀ v, ⟨k, v⟩ ∉ ran.1.2) → ∀ (β : Type) (next : StateValue H k → StateProgram H β),
        (read k next).tryRun (db.get C) = .error k) ∧
      ∀ hash, hash = C.keccakEmpty ∨ hash = C.zero → db.get C (.codeByHash hash) = some [] := by
  dsimp only
  rw [fromWitness_intoWitness]
  have hempty : ∀ k, Asked C k → ∀ v, (empty : WitnessDb H).get C k = some v ↔
      (⟨k, v⟩ : Σ k, StateValue H k) ∈ [] := by
    intro k hk v
    cases k with
    | codeByHash hash => rw [get_codeByHash hk]; exact ⟨nofun, nofun⟩
    | _ => exact ⟨nofun, nofun⟩
  have hheld := @get_recordRun_logged H _ C view _ α p [] hempty
  refine ⟨tryRun_recordRun _, hheld, fun k hk hno β next => ?_, fun hash hh => if_pos hh⟩
  have hnone := eq_none_iff_forall_ne_some.2 fun v hv => hno v ((hheld k hk v).1 hv)
  rw [tryRun, hnone]

/-- **The code of no code needs no recording.** Nothing was recorded, and the read is answered. -/
theorem emptyCode_answered_unrecorded :
    (read (.codeByHash plainStateCodec.keccakEmpty) done : StateProgram Digest Bytes).tryRun
      ((fromWitness ((recordRun plainStateCodec (viewOf (fresh : StateDb Digest).world)
        (.done () : StateProgram Digest Unit) empty).2.intoWitness plainStateCodec)).get plainStateCodec) = .ok [] := by
  decide +kernel

end WitnessDb

/-! ## The drivers -/

section Drivers

variable (C : StateCodec H) (evm : Evm H P)

/-- The env of a block with the flags that the state before it holds. The account of the flags is read too, because
a slot is proven under its account only. -/
def withFeaturesFrom (env : ExecEnv) (parent : Option (PendingDelta H)) : StateProgram H ExecEnv :=
  .read (.basic chainState) fun _ => do
    let features ← read evm.activationSlot parent env.l2Timestamp
    return { env with features := features }

/-- `capture_block_witness`. -/
def captureBlockWitness (view : StateView H) (parent : Option (PendingDelta H)) (records : List (BufferedRecord P))
    (env : ExecEnv) : Except (ExecError P.Fault) (BlockExecOutput H P.Facts × ExecutionWitness H × BlockAccessList) :=
  let flags := recordRun C view (withFeaturesFrom evm env parent) .empty
  let ran := recordRun C view (executeBlockWithBal C evm flags.1 parent records).run flags.2
  ran.1.map fun out => (out.1, ran.2.intoWitness C, out.2)

/-- Where two access lists differ first. -/
inductive BalDifference where
  | addresses (a b : Address)
  | account (a : Address)
  | entryCount
  deriving DecidableEq

def firstBalDifference (a b : BlockAccessList) : BalDifference := ((a.zip b).findSome? fun e =>
    if e.1.address ≠ e.2.address then some (.addresses e.1.address e.2.address)
    else if e.1 ≠ e.2 then some (.account e.1.address)
    else none).getD .entryCount

inductive ExecutorError (H Fault : Type) where
  | exec (e : ExecError Fault)
  | recordIdentity (e : Fault)
  | missing (k : StateKey H)
  | divergence (blockNumber : UInt64) (recomputed published granularity : Nat) (first : BalDifference)
  | witnessUnanchored (e : AnchorError H)

/-- Only transactions carry an identity that can be checked. -/
def verifyIdentities : List (BufferedRecord P) → Outcome (ExecutorError H P.Fault) Unit
  | [] => .ok ()
  | .tx envelope :: rest => do
    .ofExcept .recordIdentity (evm.verifyRecordIdentity envelope)
    verifyIdentities rest
  | _ :: rest => verifyIdentities rest

def executeBlockStateless (witness : ExecutionWitness H) (parent : Option (PendingDelta H))
    (records : List (BufferedRecord P)) (env : ExecEnv) (expectedBal : BlockAccessList) (granularity : Nat) :
    Outcome (ExecutorError H P.Fault) (BlockExecOutput H P.Facts) := do
  verifyIdentities evm records
  let db := fromWitness witness
  let env ← .ofExcept .missing ((withFeaturesFrom evm env parent).tryRun (db.get C))
  let result ← .ofExcept .missing ((executeBlockWithBal C evm env parent records).run.tryRun (db.get C))
  let (out, rawBal) ← .ofExcept .exec result
  let recomputed := quantize rawBal granularity
  if recomputed ≠ expectedBal then
    .err (.divergence env.blockNumber recomputed.length expectedBal.length granularity
      (firstBalDifference recomputed expectedBal))
  else .ok out

structure AnchoredBlockOutput (H Facts : Type) where
  out : BlockExecOutput H Facts
  preStateRoot : H
  postStateRoot : H
  balCommitment : H
  blockNumber : UInt64

def executeBlockAnchored (witness : ExecutionWitness H) (proofs : WitnessProofs) (parent : Option (PendingDelta H))
    (records : List (BufferedRecord P)) (env : ExecEnv) (expectedBal : BlockAccessList) (granularity : Nat) :
    Outcome (ExecutorError H P.Fault) (AnchoredBlockOutput H P.Facts) := do
  let pre ← (verifyWitnessAnchored C witness proofs).mapErr .witnessUnanchored
  let out ← executeBlockStateless C evm witness parent records env expectedBal granularity
  let postStateRoot ← (recomputePostRoot C proofs pre out.delta).mapErr .witnessUnanchored
  .ok ⟨out, pre.root, postStateRoot, C.keccak (evm.balRlp expectedBal), env.blockNumber⟩

/-- A block of the live executor on a committed state: the flags of the state, the records, the close of the block
with its own header time, and the commit. The answer is the delta and the state after it. -/
def liveBlock (db : StateDb H) (records : List (BufferedRecord P)) (env : ExecEnv) (headerTsMs : UInt64) :
    Except (ExecError P.Fault) (PendingDelta H × Option (StateDb H)) := do
  let view := viewOf db.world
  let env := { env with features := (read evm.activationSlot none env.l2Timestamp).run view }
  let (out, _) ← run view (executeBlockWithBal C evm env none records).run
  let delta := run view (BlockClose.apply ⟨env.blockNumber, headerTsMs, env.features⟩ out.delta none)
  return (delta, db.commit C (finalize delta))

end Drivers

/-! ## The stateless run is the live run without the close -/

section Agreement

variable {C : StateCodec H} {evm : Evm H P} {records : List (BufferedRecord P)}
  {parent : Option (PendingDelta H)} {witness : ExecutionWitness H} {out : BlockExecOutput H P.Facts}
  {env : ExecEnv} {view : StateView H}

/-- A witness whose answers are those of one database: of a capture, with or without a root on it. -/
theorem of_captureBlockWitness {bal : BlockAccessList}
    (h : captureBlockWitness C evm view parent records env = .ok (out, witness, bal)) (root : Option H) :
    (fromWitness { witness with preStateRoot := root }).Of view := by
  obtain ⟨_, -, heq⟩ := Except.map_eq_ok_iff.1 h
  cases heq
  exact (congrArg (Of view) (fromWitness_intoWitness (C := C) _)).mpr
    ((of_empty.recordRun _).recordRun _)

/-- The flags over a witness are those of its database. -/
theorem withFeaturesFrom_of {db : WitnessDb H} (hdb : db.Of view) {env env' : ExecEnv}
    (h : (withFeaturesFrom evm env parent).tryRun (db.get C) = .ok env') :
    env' = { env with features := (read evm.activationSlot parent env.l2Timestamp).run view } := by
  have hasks : (withFeaturesFrom evm env parent).Asks (Asked C) := by
    refine ⟨trivial, fun _ => .bind ?_ fun _ => trivial⟩
    exact property_read (asking (Asked C)) (fun _ _ => ⟨trivial, fun _ => trivial⟩) ..
  rw [← hasks.run_eq_of_tryRun hdb.get h]
  exact run_bind view _ _

variable {expectedBal : BlockAccessList} {granularity : Nat}

/-- What a stateless run that succeeds did. -/
theorem executeBlockStateless_eq_ok
    (h : executeBlockStateless C evm witness parent records env expectedBal granularity = .ok out) :
    verifyIdentities (H := H) evm records = .ok () ∧ ∃ env' rawBal,
      (withFeaturesFrom evm env parent).tryRun ((fromWitness witness).get C) = .ok env' ∧
      (executeBlockWithBal C evm env' parent records).run.tryRun ((fromWitness witness).get C) =
        .ok (.ok (out, rawBal)) ∧
      quantize rawBal granularity = expectedBal := by
  obtain ⟨⟨⟩, hidentity, hflags⟩ := bind_eq_ok.1 h
  obtain ⟨env', henv, hexec⟩ := bind_eq_ok.1 hflags
  obtain ⟨result, hresult, hcheck⟩ := bind_eq_ok.1 hexec
  obtain ⟨⟨out', rawBal⟩, hout, hbal⟩ := bind_eq_ok.1 hcheck
  rw [ofExcept_eq_ok.1 hout] at hresult
  refine ⟨hidentity, env', rawBal, ofExcept_eq_ok.1 henv, ?_⟩
  dsimp only at hbal
  split at hbal
  case isTrue => cases hbal
  case isFalse hsame =>
    cases hbal
    exact ⟨ofExcept_eq_ok.1 hresult, not_not.1 hsame⟩

/-- A stateless run that succeeds is the run of the block over the database of its witness. -/
theorem executeBlockStateless_of (hdb : (fromWitness witness).Of view)
    (h : executeBlockStateless C evm witness parent records env expectedBal granularity = .ok out) :
    ∃ rawBal, run view (executeBlockWithBal C evm
        { env with features := (read evm.activationSlot parent env.l2Timestamp).run view }
        parent records).run = .ok (out, rawBal) ∧
      quantize rawBal granularity = expectedBal := by
  obtain ⟨-, env', rawBal, henv, hrun, hbal⟩ := executeBlockStateless_eq_ok h
  refine ⟨rawBal, ?_, hbal⟩
  rw [← withFeaturesFrom_of hdb henv]
  exact (asks_executeBlockWithBal parent records).run_eq_of_tryRun hdb.get hrun

variable {proofs : WitnessProofs}

/-- What an anchored run that succeeds did. -/
theorem executeBlockAnchored_eq_ok {anchored : AnchoredBlockOutput H P.Facts}
    (h : executeBlockAnchored C evm witness proofs parent records env expectedBal granularity = .ok anchored) :
    ∃ pre, verifyWitnessAnchored C witness proofs = .ok pre ∧ ∃ out,
      executeBlockStateless C evm witness parent records env expectedBal granularity = .ok out ∧ ∃ post,
        recomputePostRoot C proofs pre out.delta = .ok post ∧
          anchored = ⟨out, pre.root, post, C.keccak (evm.balRlp expectedBal), env.blockNumber⟩ := by
  obtain ⟨pre, hverify, h⟩ := bind_eq_ok.1 h
  obtain ⟨out, hout, h⟩ := bind_eq_ok.1 h
  obtain ⟨post, hpost, h⟩ := bind_eq_ok.1 h
  exact ⟨pre, mapErr_eq_ok.1 hverify, out, hout, post, mapErr_eq_ok.1 hpost, (ok.inj h).symm⟩

section

variable (view : StateView H) (delta : PendingDelta H) (close : BlockClose)

/-- The beacon of a block over the state `view`. -/
def beaconOf : U256 := (close.beacon ((delta.storage.get? (chainState, healthBeaconSlot)).getD
    (view (.storage chainState healthBeaconSlot)))).pack

/-- The delta that the close of a block leaves. -/
def closedDelta : PendingDelta H :=
  if close.features.healthCheck then withBeacon delta (beaconOf view delta close) else delta

end

omit [LinearOrder H] in
theorem closedDelta_accounts (view : StateView H) (delta : PendingDelta H) (close : BlockClose) :
    (closedDelta view delta close).accounts = delta.accounts := by
  unfold closedDelta
  split <;> rfl

omit [LinearOrder H] in
theorem run_apply_close (view : StateView H) (close : BlockClose) (delta : PendingDelta H) :
    (close.apply delta none).run view = closedDelta view delta close := by
  unfold BlockClose.apply closedDelta
  cases close.features.healthCheck with
  | false => rfl
  | true =>
    rw [if_neg (by decide), run_bind]
    unfold parentStorage beaconOf
    rw [run_cached]
    rfl

/-- The root after the close, of a state without slots of empty accounts, against the root without it. -/
theorem closedDelta_follows_iff {held : World H} (hheld : EmptyHoldNothing C held) (view : StateView H)
    (delta : PendingDelta H) (close : BlockClose) :
    (∀ a, (held.apply (closedDelta view delta close)).heldSlot C a = slotsAfter C held delta a) ↔
      EmptyHoldNothing C (held.apply delta) ∧
        (close.features.healthCheck = true → C.normal ((held.apply delta).accounts.get? chainState) = none ∨
          (held.apply delta).slot chainState healthBeaconSlot = beaconOf view delta close) := by
  cases hhealth : close.features.healthCheck with
  | false =>
    rw [closedDelta, hhealth, if_neg (by decide)]
    rw [show (∀ a, (held.apply delta).heldSlot C a = slotsAfter C held delta a) ↔ _ from slotsFollow_iff hheld delta]
    simp
  | true =>
    have hafter : ∀ a key, slotsAfter C held delta a key = (held.apply delta).slot a key := fun a key => by
      rw [slotsAfter, hheld.heldSlot_eq, held.slot_apply]
    rw [closedDelta, hhealth, if_pos rfl]
    generalize hclosed : withBeacon delta (beaconOf view delta close) = closed
    have haccount : ∀ a, (held.apply closed).accounts.get? a = (held.apply delta).accounts.get? a := fun a => by
      rw [held.account_apply, held.account_apply, ← hclosed]
      rfl
    have hbeacon : (held.apply closed).slot chainState healthBeaconSlot = beaconOf view delta close := by
      rw [held.slot_apply, ← hclosed, withBeacon, get?_put_self]
      rfl
    have hother : ∀ a key, (a, key) ≠ (chainState, healthBeaconSlot) →
        (held.apply closed).slot a key = (held.apply delta).slot a key := fun a key hne => by
      rw [held.slot_apply, held.slot_apply, ← hclosed, withBeacon, get?_put_of_ne _ hne]
    have hnone : ∀ a, C.normal ((held.apply delta).accounts.get? a) = none →
        (held.apply closed).heldSlot C a = fun _ => 0 := fun a ha =>
      heldSlot_of_empty (by rw [haccount, ha])
    have hsome : ∀ a fields, C.normal ((held.apply delta).accounts.get? a) = some fields →
        (held.apply closed).heldSlot C a = (held.apply closed).slot a := fun a fields ha =>
      heldSlot_of_normal ((congrArg C.normal (haccount a)).trans ha)
    constructor
    · intro h
      refine ⟨fun a key ha => ?_, fun _ => ?_⟩
      · rw [← hafter, ← h a, hnone a ha]
      · cases hcs : C.normal ((held.apply delta).accounts.get? chainState) with
        | none => exact .inl rfl
        | some fields =>
          right
          rw [← hafter, ← h chainState, hsome _ fields hcs, hbeacon]
    · rintro ⟨hempty, hkept⟩ a
      funext key
      rw [hafter]
      cases ha : C.normal ((held.apply delta).accounts.get? a) with
      | none => rw [hnone a ha, hempty a key ha]
      | some fields =>
        rw [hsome a fields ha]
        by_cases hkey : (a, key) = (chainState, healthBeaconSlot)
        · cases hkey
          rw [hbeacon]
          rcases hkept rfl with hcs | hslot
          · exact absurd (ha.symm.trans hcs) (by simp)
          · exact hslot.symm
        · exact hother a key hkey

/-- **The proven root is the live root, up to the close of the block.** A witness is captured from a committed state
and stamped with its root, and the anchored run over it succeeds. Then the live executor commits the block, and the
proven root is the root that it commits exactly when the records leave no empty account with a non-zero slot, and the
close of a block with the health check writes a beacon that is there already, or on an account that counts as
absent. -/
theorem executeBlockAnchored_eq_live_iff (hC : C.Lawful) (hlong : C.LongBranches) {db : StateDb H} {held : World H}
    (hheld : Mirrors C held db.tables) {records : List (BufferedRecord P)} {env : ExecEnv} {headerTsMs : UInt64}
    {captured : BlockExecOutput H P.Facts} {witness : ExecutionWitness H} {rawBal : BlockAccessList}
    (hcapture : captureBlockWitness C evm (viewOf db.world) none records env = .ok (captured, witness, rawBal))
    {proofs : WitnessProofs} {expectedBal : BlockAccessList} {granularity : Nat}
    {anchored : AnchoredBlockOutput H P.Facts}
    (hok : executeBlockAnchored C evm { witness with preStateRoot := some (held.root C) } proofs none records env
      expectedBal granularity = .ok anchored) :
    ∃ delta db' live, liveBlock C evm db records env headerTsMs = .ok (delta, some db') ∧
      db'.stateRoot = some live ∧
      (anchored.postStateRoot = live ↔ EmptyHoldNothing C (held.apply anchored.out.delta) ∧
          (((read evm.activationSlot none env.l2Timestamp).run (viewOf db.world)).healthCheck = true →
            C.normal ((held.apply anchored.out.delta).accounts.get? chainState) = none ∨
              (held.apply anchored.out.delta).slot chainState healthBeaconSlot =
                beaconOf (viewOf db.world) anchored.out.delta ⟨env.blockNumber, headerTsMs,
                  (read evm.activationSlot none env.l2Timestamp).run (viewOf db.world)⟩)) := by
  obtain ⟨pre, hverify, out, hstateless, post, hpost, rfl⟩ := executeBlockAnchored_eq_ok hok
  obtain ⟨hroot, hproven, -⟩ := verifyWitnessAnchored_spec hC rfl hverify
  obtain ⟨bal, hrun, -⟩ := executeBlockStateless_of (of_captureBlockWitness hcapture _) hstateless
  generalize hclose : (⟨env.blockNumber, headerTsMs,
    (read evm.activationSlot none env.l2Timestamp).run (viewOf db.world)⟩ : BlockClose) = close
  let delta := closedDelta (viewOf db.world) out.delta close
  obtain ⟨t', hupdate, -⟩ := hheld.updateForBlock_pruned hC hlong (finalize delta)
  let db' : StateDb H := ⟨db.world.write (finalize delta), t', some ((held.write (finalize delta)).root C)⟩
  have hcommit : db.commit C (finalize delta) = some db' := by
    rw [StateDb.commit, hupdate]
    rfl
  refine ⟨delta, db', _, ?_, rfl, ?_⟩
  · rw [liveBlock, hrun]
    change Except.ok (_, db.commit C (finalize _)) = _
    rw [run_apply_close, hclose, hcommit]
  · have hlive : (held.write (finalize delta)).root C = (held.apply delta).root C :=
      root_congr hC (fun a => by rw [account_write_finalize]) fun a _ key => slot_write_finalize held delta a key
    have haccounts : ∀ a, C.normal ((held.apply delta).accounts.get? a) =
        C.normal ((held.apply out.delta).accounts.get? a) := fun a => by
      rw [held.account_apply, held.account_apply, closedDelta_accounts]
    rw [hlive, recomputePostRoot_eq_world_iff hC hroot hproven hpost haccounts,
      closedDelta_follows_iff (hheld.emptyHoldNothing hC), ← hclose]

end Agreement

/-! ## Runs -/

/-- Records without content. -/
def plainPayloads : Payloads := ⟨Unit, Unit, Unit, Unit, Unit⟩

/-- A machine whose transactions write one slot of account 1 and count its nonce. -/
def countingEvm : Evm Digest plainPayloads where
  activationSlot id := keyOf (UInt8.ofNat (16 * id.toNat))
  writeSetHash _ := plainCodec.zero
  chainStateCode := []
  balRlp _ := []
  verifyRecordIdentity _ := .ok ()
  transact _ _ := .read (.basic 1) fun info =>
    let info := infoOrDefault plainStateCodec info
    .done (.ok ⟨(), 1, [⟨1, { info with nonce := info.nonce + 1 }, none, [(keyOf 0, 8)], true, false⟩]⟩)
  depositFrom _ := 0
  depositMint _ := 0
  isUpgrade _ := false
  transactDeposit _ _ := .done (.ok (.rejected ()))
  transactXchain _ _ _ := .done (.ok (.rejected ()))

def plainEnv : ExecEnv := ⟨1, 2, 10, ⟨0, 0⟩, ⟨false, false⟩⟩

/-- The proven and the live root of a block on `w`, with the captured access list as the published one. -/
def provenRoot (w : World Digest) (proofs : WitnessProofs) (records : List (BufferedRecord plainPayloads)) :
    Option Digest :=
  match captureBlockWitness plainStateCodec countingEvm (viewOf w) none records plainEnv with
  | .error _ => none
  | .ok (_, witness, bal) =>
    match executeBlockAnchored plainStateCodec countingEvm
      { witness with preStateRoot := some (w.root plainStateCodec) } proofs none records plainEnv bal 1 with
    | .ok anchored => some anchored.postStateRoot
    | _ => none

/-- A run that answers a root did both steps. -/
theorem exists_of_provenRoot {w : World Digest}
    {records : List (BufferedRecord plainPayloads)} {root : Digest} (h : provenRoot w proofs records = some root) :
    ∃ captured witness bal anchored,
      captureBlockWitness plainStateCodec countingEvm (viewOf w) none records plainEnv = .ok (captured, witness, bal) ∧
      executeBlockAnchored plainStateCodec countingEvm
        { witness with preStateRoot := some (w.root plainStateCodec) } proofs none records plainEnv bal 1 =
          .ok anchored ∧
      anchored.postStateRoot = root := by
  unfold provenRoot at h
  split at h
  case h_1 => cases h
  case h_2 captured witness bal hcapture =>
    split at h
    case h_1 anchored hanchored => exact ⟨captured, witness, bal, anchored, hcapture, hanchored, some.inj h⟩
    case h_2 => cases h

theorem executeBlockAnchored_eq_live_iff_funded :
    ∃ t captured witness bal anchored, Mirrors plainStateCodec fundedWorld t ∧
      captureBlockWitness plainStateCodec countingEvm (viewOf fundedWorld) none [.tx ()] plainEnv =
        .ok (captured, witness, bal) ∧
      executeBlockAnchored plainStateCodec countingEvm
        { witness with preStateRoot := some (fundedWorld.root plainStateCodec) } fundedProofs none [.tx ()] plainEnv
          bal 1 = .ok anchored ∧
      ∃ delta db' live, liveBlock plainStateCodec countingEvm ⟨fundedWorld, t, none⟩ [.tx ()] plainEnv 11 =
          .ok (delta, some db') ∧ db'.stateRoot = some live ∧
        (anchored.postStateRoot = live ↔
          EmptyHoldNothing plainStateCodec (fundedWorld.apply anchored.out.delta) ∧
            (((read countingEvm.activationSlot none plainEnv.l2Timestamp).run
                (viewOf fundedWorld)).healthCheck = true →
              plainStateCodec.normal ((fundedWorld.apply anchored.out.delta).accounts.get? chainState) = none ∨
                (fundedWorld.apply anchored.out.delta).slot chainState healthBeaconSlot =
                  beaconOf (viewOf fundedWorld) anchored.out.delta ⟨plainEnv.blockNumber, 11,
                    (read countingEvm.activationSlot none plainEnv.l2Timestamp).run
                      (viewOf fundedWorld)⟩)) := by
  obtain ⟨t, hmirrors⟩ := exists_mirrors_fundedWorld
  obtain ⟨root, hroot⟩ := isSome_iff_exists.1 (show (provenRoot fundedWorld fundedProofs [.tx ()]).isSome = true
    by decide +kernel)
  obtain ⟨captured, witness, bal, anchored, hcapture, hanchored, -⟩ := exists_of_provenRoot hroot
  let db : StateDb Digest := ⟨fundedWorld, t, none⟩
  have hdb : Mirrors plainStateCodec fundedWorld db.tables := hmirrors
  exact ⟨t, captured, witness, bal, anchored, hmirrors, hcapture, hanchored,
    executeBlockAnchored_eq_live_iff plainStateCodec_lawful plainCodec_longBranches hdb hcapture hanchored⟩

/-- The chain state contract with the health check active since 5, committed on a fresh database. -/
def healthDelta : BlockDelta Digest := ⟨[(chainState, ⟨1, 0, plainCodec.zero⟩)], [((chainState, keyOf 16), 5)], []⟩

def healthWorld : World Digest := (fresh : StateDb Digest).world.write healthDelta

/-- The one node of each of the two tries of `healthWorld`. -/
def healthProofs : WitnessProofs where
  nodes :=
    let account := plainAccountRlp ⟨1, 0, storageRoot plainStateCodec [(keyOf 16, 5)], plainStateCodec.keccakEmpty⟩
    [Plain.encode (.leaf (unpack (plainAddressKey chainState)) account),
      Plain.encode (.leaf (unpack (keyOf 16)) (plainStateCodec.uintRlp 5))]

/-- The root that the live executor commits for an empty block on `healthWorld`. -/
def healthLive : Option Digest := do
  let db ← (fresh : StateDb Digest).commit plainStateCodec healthDelta
  match liveBlock plainStateCodec countingEvm db [] plainEnv 11 with
  | .ok (_, some db') => db'.stateRoot
  | _ => none

/-- **A block with the health check and no records.** The live executor writes the beacon; the proven root is the root
before the block. -/
theorem health_root_differs : ∃ db captured witness bal anchored delta db' live,
      (fresh : StateDb Digest).commit plainStateCodec healthDelta = some db ∧
      Mirrors plainStateCodec db.world db.tables ∧ db.stateRoot = some (db.world.root plainStateCodec) ∧
      captureBlockWitness plainStateCodec countingEvm (viewOf db.world) none [] plainEnv =
        .ok (captured, witness, bal) ∧
      executeBlockAnchored plainStateCodec countingEvm
        { witness with preStateRoot := some (db.world.root plainStateCodec) } healthProofs none [] plainEnv bal 1 =
          .ok anchored ∧
      liveBlock plainStateCodec countingEvm db [] plainEnv 11 = .ok (delta, some db') ∧
      db'.stateRoot = some live ∧ anchored.postStateRoot ≠ live := by
  have hempty : EmptyHoldNothing plainStateCodec ((fresh : StateDb Digest).world.write healthDelta) :=
    emptyHoldNothing_of_entries (by decide +kernel)
  obtain ⟨db, hcommit, hworld, hmirrors, hrebuilt⟩ :=
    commit_rebuilds plainStateCodec_lawful plainCodec_longBranches mirrors_fresh hempty
  obtain ⟨proven, hproven⟩ := isSome_iff_exists.1 (show (provenRoot healthWorld healthProofs []).isSome = true
    by decide +kernel)
  obtain ⟨captured, witness, bal, anchored, hcapture, hanchored, hpost⟩ := exists_of_provenRoot hproven
  obtain ⟨live, hlive⟩ := isSome_iff_exists.1 (show healthLive.isSome = true by decide +kernel)
  have hdiffer : provenRoot healthWorld healthProofs [] ≠ healthLive := by decide +kernel
  have hsome := hlive
  rw [healthLive, hcommit] at hlive
  change (match liveBlock plainStateCodec countingEvm db [] plainEnv 11 with
    | .ok (_, some db') => db'.stateRoot
    | _ => none) = some live at hlive
  split at hlive
  case h_2 => cases hlive
  case h_1 delta db' hblock =>
    refine ⟨db, captured, witness, bal, anchored, delta, db', live, hcommit, hmirrors, hrebuilt.root, ?_, ?_, hblock,
      hlive, ?_⟩
    · rw [hworld]
      exact hcapture
    · rw [hworld]
      exact hanchored
    · rintro rfl
      exact hdiffer (hproven.trans (hpost ▸ hsome.symm))

end Kardamom.Exec
