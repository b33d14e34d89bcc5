import Kardamom.Wire.Basic

/-!
# The account projection of a state mirror

A mirror writes the rows and receipts of every executor into one Redis. A row is written only over a lower position,
so a rollback record clears the projection and a rebuild follows. The mirror acts on the first copy of a record, and
then a batch of the lost history that another executor published before its own copy is written like any other. The
projection holds values of the new history only if no such batch comes after the first copy (`projection_forgets`,
`lost_row_stays`).
-/

namespace Kardamom.StateMirror

open Sealer (Bytes)
open Wire (Address B256)
open List Option Function

/-- What the cache reads of a receipt. -/
structure Receipt where
  txIdx : UInt64
  sender : Address
  nonce : UInt64
  /-- Neither a deposit nor a cross-chain delivery. -/
  indexed : Bool
  usesNonce : Bool
  rest : Bytes
  deriving DecidableEq

structure AccountRow where
  address : Address
  nonce : UInt64
  balance : Nat
  deriving DecidableEq

structure ReceiptBatch where
  receipts : List Receipt
  accounts : List AccountRow
  deriving DecidableEq

open ReceiptBatch

def ReceiptBatch.endTxIdx (batch : ReceiptBatch) : Option UInt64 := batch.receipts.getLast?.map Receipt.txIdx

structure ReceiptRollback where
  toBlock : UInt64
  id : B256
  deriving DecidableEq

/-! ## The cache -/

/-- An account hash of Redis. -/
structure Row where
  txIdx : UInt64
  nonce : UInt64
  balance : Nat
  deriving DecidableEq

/-- The `acct:` and `rcpt:` keys. -/
structure AccountCache where
  rows : Address → Option Row
  receipts : Address × UInt64 → Option Receipt

open AccountCache

namespace AccountCache

def empty : AccountCache := ⟨fun _ => none, fun _ => none⟩

/-- The row script, without its return code: the row stays unless the new one is at a higher position. -/
def applyRow (stored : Option Row) (row : Row) : Option Row :=
  match stored with
  | none => some row
  | some old => if old.txIdx < row.txIdx then some row else some old

def pushRow (endTxIdx : UInt64) (cache : AccountCache) (row : AccountRow) : AccountCache :=
  { cache with
    rows := update cache.rows row.address
      (applyRow (cache.rows row.address) ⟨endTxIdx, row.nonce, row.balance⟩) }

section

variable (cache : AccountCache)

/-- `SET`, or `SET NX` for a receipt that uses no nonce. -/
def pushReceipt (receipt : Receipt) : AccountCache :=
  if !receipt.indexed || (!receipt.usesNonce && (cache.receipts (receipt.sender, receipt.nonce)).isSome) then cache
  else { cache with receipts := update cache.receipts (receipt.sender, receipt.nonce) (some receipt) }

def writeRows (endTxIdx : UInt64) (rows : List AccountRow) : AccountCache :=
  rows.foldl (pushRow endTxIdx) cache

def writeBatch (batch : ReceiptBatch) : AccountCache :=
  match batch.endTxIdx with
  | none => cache
  | some endTxIdx => batch.receipts.foldl pushReceipt (cache.writeRows endTxIdx batch.accounts)

end

end AccountCache

/-! ## The mirror -/

/-- The rollbacks that the mirror applied, oldest first. -/
structure AppliedRollbacks where
  recent : List ReceiptRollback

namespace AppliedRollbacks

def cap : Nat := 64

def contains (a : AppliedRollbacks) (id : B256) : Bool := a.recent.any fun r => r.id = id

def firstTime (a : AppliedRollbacks) (rollback : ReceiptRollback) : AppliedRollbacks × Bool :=
  if a.contains rollback.id then (a, false)
  else (⟨(if a.recent.length = cap then a.recent.tail else a.recent) ++ [rollback]⟩, true)

end AppliedRollbacks

/-- A checkpoint of the executor: the last position that it includes, and its accounts. -/
structure Checkpoint where
  last : UInt64
  rows : List AccountRow

/-- One round of the loop: the frames that it takes, the checkpoint that a rebuild waits for, and whether the write
takes too long or the audit is due. -/
structure Round where
  group : List ReceiptBatch
  after : Option ReceiptRollback
  checkpoint : Checkpoint
  rebuildLater : Bool

open Round

structure Mirror where
  cache : AccountCache
  pendingRebuild : Bool
  rollbacks : AppliedRollbacks

open Mirror

namespace Mirror

section

variable (m : Mirror)

/-- A rebuild. It waits for a checkpoint that reaches the first live position, so none below ends the wait. -/
def runRebuild (firstLive : UInt64) (checkpoint : Checkpoint) : Option Mirror :=
  if checkpoint.last < firstLive then none
  else some { m with cache := m.cache.writeRows checkpoint.last checkpoint.rows, pendingRebuild := false }

/-- A group of batches. A rebuild that is due comes first. -/
def apply (round : Round) : Option Mirror :=
  match round.group.filterMap endTxIdx with
  | [] => some m
  | first :: _ =>
    (if m.pendingRebuild then m.runRebuild first round.checkpoint else some m).map fun m =>
      { m with
        cache := round.group.foldl writeBatch m.cache
        pendingRebuild := m.pendingRebuild || round.rebuildLater }

def rollBack (rollback : ReceiptRollback) : Mirror :=
  match m.rollbacks.firstTime rollback with
  | (_, false) => m
  | (rollbacks, true) => ⟨.empty, true, rollbacks⟩

def onFrame (round : Round) : Option Mirror :=
  (m.apply round).map fun m => round.after.elim m m.rollBack

def after (rounds : List Round) : Option Mirror := rounds.foldlM onFrame m

end

end Mirror

/-! ## The streams of the executors -/

inductive ReceiptFrame where
  | batch (batch : ReceiptBatch)
  | rollback (rollback : ReceiptRollback)
  deriving DecidableEq

def Round.frames (round : Round) : List ReceiptFrame :=
  round.group.map .batch ++ round.after.toList.map .rollback

/-- What one executor publishes: batches of the old history, the rollback, batches of the new one. -/
structure ExecutorStream where
  old : List ReceiptBatch
  new : List ReceiptBatch

def ExecutorStream.frames (e : ExecutorStream) (r : ReceiptRollback) : List ReceiptFrame :=
  e.old.map .batch ++ .rollback r :: e.new.map .batch

/-- Frames that the mirror took from the streams of the executors, each stream in its order. -/
abbrev Interleaved {ι : Type} [DecidableEq ι] (streams : ι → List ReceiptFrame) (taken : List (ι × ReceiptFrame)) : Prop :=
  ∀ i, taken.filterMap (fun x => if x.1 = i then some x.2 else none) <+: streams i

theorem Interleaved.mem {ι : Type} [DecidableEq ι] {streams : ι → List ReceiptFrame}
    {taken : List (ι × ReceiptFrame)} (h : Interleaved streams taken) {f : ReceiptFrame}
    (hf : f ∈ taken.map Prod.snd) : ∃ i, f ∈ streams i := by
  obtain ⟨⟨i, f⟩, hmem, rfl⟩ := mem_map.1 hf
  exact ⟨i, (h i).subset (mem_filterMap.2 ⟨(i, f), hmem, if_pos rfl⟩)⟩

/-! ## Values of one history -/

/-- The rows and the receipts of a history. -/
structure History where
  IsRow : Address → Row → Prop
  IsReceipt : Receipt → Prop

open History

namespace History

variable (H : History)

def Rows (endTxIdx : UInt64) (rows : List AccountRow) : Prop :=
  ∀ row ∈ rows, H.IsRow row.address ⟨endTxIdx, row.nonce, row.balance⟩

/-- A batch of the history. -/
def Batch (batch : ReceiptBatch) : Prop :=
  (∀ endTxIdx ∈ batch.endTxIdx, H.Rows endTxIdx batch.accounts) ∧ ∀ r ∈ batch.receipts, H.IsReceipt r

/-- The projection holds nothing else. -/
structure Projection (cache : AccountCache) : Prop where
  rows : ∀ address, ∀ row ∈ cache.rows address, H.IsRow address row
  receipts : ∀ key, ∀ r ∈ cache.receipts key, H.IsReceipt r

variable {H} {cache : AccountCache}

variable (h : H.Projection cache)
include h

theorem Projection.writeRows {endTxIdx : UInt64} {rows : List AccountRow}
    (hrows : H.Rows endTxIdx rows) : H.Projection (cache.writeRows endTxIdx rows) := by
  induction rows generalizing cache with
  | nil => exact h
  | cons row rows ih =>
    refine ih ⟨fun address stored hstored => ?_, h.receipts⟩ fun r hr => hrows r (mem_cons_of_mem _ hr)
    unfold pushRow at hstored
    by_cases heq : address = row.address
    · subst heq
      have hnew := hrows row mem_cons_self
      simp only [update_self, applyRow] at hstored
      cases hold : cache.rows row.address with
      | none =>
        rw [hold] at hstored
        exact some.inj hstored ▸ hnew
      | some old =>
        rw [hold] at hstored
        dsimp only at hstored
        split at hstored
        · exact some.inj hstored ▸ hnew
        · exact some.inj hstored ▸ h.rows _ old hold
    · simp only [update_of_ne heq] at hstored
      exact h.rows address stored hstored

theorem Projection.pushReceipt {r : Receipt} (hr : H.IsReceipt r) :
    H.Projection (cache.pushReceipt r) := by
  unfold AccountCache.pushReceipt
  split
  · exact h
  refine ⟨h.rows, fun key stored hstored => ?_⟩
  by_cases heq : key = (r.sender, r.nonce)
  · subst heq
    simp only [update_self] at hstored
    exact some.inj hstored ▸ hr
  · simp only [update_of_ne heq] at hstored
    exact h.receipts key stored hstored

theorem Projection.writeBatch {batch : ReceiptBatch} (hbatch : H.Batch batch) :
    H.Projection (cache.writeBatch batch) := by
  unfold AccountCache.writeBatch
  split
  · exact h
  case h_2 endTxIdx hend =>
    refine List.foldlRecOn _ _ (h.writeRows (hbatch.1 endTxIdx hend)) fun cache hcache r hr => ?_
    exact Projection.pushReceipt hcache (hbatch.2 r hr)

end History

/-! ## Rounds -/

variable {H : History} {r : ReceiptRollback} {m m' : Mirror} {round : Round} {rounds : List Round}

theorem apply_cases (h : m.apply round = some m') : m' = m ∨ ∃ cache pendingRebuild,
    (cache = m.cache ∨ cache = m.cache.writeRows round.checkpoint.last round.checkpoint.rows) ∧
      m' = ⟨round.group.foldl writeBatch cache, pendingRebuild, m.rollbacks⟩ := by
  unfold apply at h
  split at h
  · exact .inl (some.inj h).symm
  · obtain ⟨m₁, hm₁, rfl⟩ := map_eq_some_iff.1 h
    split at hm₁
    · unfold runRebuild at hm₁
      split at hm₁
      · cases hm₁
      · obtain rfl := some.inj hm₁
        exact .inr ⟨_, _, .inr rfl, rfl⟩
    · obtain rfl := some.inj hm₁
      exact .inr ⟨_, _, .inl rfl, rfl⟩

theorem projection_rollBack (h : H.Projection m.cache ∨ ¬ m.rollbacks.contains r.id) :
    H.Projection (m.rollBack r).cache := by
  unfold rollBack AppliedRollbacks.firstTime
  by_cases hc : m.rollbacks.contains r.id
  · rw [if_pos hc]
    exact h.resolve_right (not_not.2 hc)
  · rw [if_neg hc]
    exact ⟨nofun, nofun⟩

/-- After the first copy of the record, no batch of the lost history comes, and the checkpoints are of the new one. -/
def Clean (H : History) (r : ReceiptRollback) (old : ReceiptBatch → Prop) : Bool → List Round → Prop
  | _, [] => True
  | copied, round :: rounds =>
    (copied → H.Rows round.checkpoint.last round.checkpoint.rows ∧ ∀ b ∈ round.group, old b → H.Batch b) ∧
      Clean H r old (copied || round.after = some r) rounds

/-- What holds before the first copy, and after it. -/
def Awaits (H : History) (r : ReceiptRollback) (copied : Bool) (m : Mirror) : Prop :=
  if copied then H.Projection m.cache else ¬ m.rollbacks.contains r.id

theorem Awaits.onFrame {copied : Bool} (h : Awaits H r copied m) (honly : ∀ r' ∈ round.after, r' = r)
    (hnew : copied → H.Rows round.checkpoint.last round.checkpoint.rows ∧ ∀ b ∈ round.group, H.Batch b)
    (hframe : m.onFrame round = some m') : Awaits H r (copied || round.after = some r) m' := by
  obtain ⟨m₁, happly, rfl⟩ := map_eq_some_iff.1 hframe
  have hmid : Awaits H r copied m₁ := by
    rcases apply_cases happly with rfl | ⟨cache, _, hcache, rfl⟩
    · exact h
    cases copied with
    | false => exact h
    | true =>
      obtain ⟨hcheck, hgroup⟩ := hnew rfl
      refine List.foldlRecOn _ _ ?_ fun cache hcache b hb => Projection.writeBatch hcache (hgroup b hb)
      rcases hcache with rfl | rfl
      exacts [h, Projection.writeRows h hcheck]
  cases hafter : round.after with
  | none => simpa using hmid
  | some r' =>
    obtain rfl := honly r' hafter
    simp only [decide_true, Bool.or_true]
    refine projection_rollBack ?_
    cases copied with
    | false => exact .inr hmid
    | true => exact .inl hmid

theorem Awaits.after {old : ReceiptBatch → Prop} {copied : Bool} (h : Awaits H r copied m)
    (hclean : Clean H r old copied rounds) (honly : ∀ round ∈ rounds, ∀ r' ∈ round.after, r' = r)
    (hsource : ∀ round ∈ rounds, ∀ b ∈ round.group, old b ∨ H.Batch b)
    (hcopy : copied ∨ ∃ round ∈ rounds, round.after = some r) (hafter : m.after rounds = some m') :
    H.Projection m'.cache := by
  induction rounds generalizing m copied with
  | nil =>
    obtain rfl := some.inj hafter
    obtain rfl := hcopy.resolve_right (by simp)
    exact h
  | cons round rounds ih =>
    obtain ⟨m₁, hframe, hafter⟩ := bind_eq_some_iff.1 hafter
    have hnext := h.onFrame (honly round mem_cons_self) (fun hcopied => ⟨(hclean.1 hcopied).1, fun b hb =>
      (hsource round mem_cons_self b hb).elim ((hclean.1 hcopied).2 b hb) id⟩) hframe
    refine ih hnext hclean.2 (fun x hx => honly x (mem_cons_of_mem _ hx))
      (fun x hx => hsource x (mem_cons_of_mem _ hx)) ?_ hafter
    rcases hcopy with hcopied | ⟨x, hx, hxr⟩
    · exact .inl (by simp [hcopied])
    · rcases mem_cons.1 hx with rfl | hx
      · exact .inl (by simp [hxr])
      · exact .inr ⟨x, hx, hxr⟩

/-- **The projection forgets the lost history**, over every interleaving of the streams of any number of executors in
which no batch of the lost history comes after the first copy of the rollback. -/
theorem projection_forgets {ι : Type} [DecidableEq ι] (execs : ι → ExecutorStream)
    (taken : List (ι × ReceiptFrame)) (htaken : Interleaved (fun i => (execs i).frames r) taken)
    (hframes : rounds.flatMap frames = taken.map Prod.snd)
    (hcopy : .rollback r ∈ rounds.flatMap frames) (hfresh : ¬ m.rollbacks.contains r.id)
    (hnew : ∀ i, ∀ b ∈ (execs i).new, H.Batch b)
    (hclean : Clean H r (fun b => ∃ i, b ∈ (execs i).old) false rounds) (hafter : m.after rounds = some m') :
    H.Projection m'.cache := by
  have hmem : ∀ {f round}, round ∈ rounds → f ∈ frames round → ∃ i, f ∈ (execs i).frames r :=
    fun hround hf => htaken.mem (hframes ▸ mem_flatMap.2 ⟨_, hround, hf⟩)
  refine Awaits.after (show Awaits H r false m from hfresh) hclean (fun round hround r' hr' => ?_) (fun round hround b hb => ?_)
    (.inr ?_) hafter
  · obtain ⟨i, hi⟩ := hmem hround (f := .rollback r') (by simp [frames, show round.after = some r' from hr'])
    simpa [ExecutorStream.frames] using hi
  · obtain ⟨i, hi⟩ := hmem hround (f := .batch b) (by simp [frames, hb])
    have hi : b ∈ (execs i).old ∨ b ∈ (execs i).new := by simpa [ExecutorStream.frames] using hi
    exact hi.imp (fun h => ⟨i, h⟩) (hnew i b)
  · obtain ⟨round, hround, hf⟩ := mem_flatMap.1 hcopy
    exact ⟨round, hround, by simpa [frames] using hf⟩

/-! ## Two executors -/

/-- A batch of one transaction of the default account. -/
def transfer (txIdx nonce : UInt64) (balance : Nat) : ReceiptBatch :=
  ⟨[⟨txIdx, default, nonce, true, true, []⟩], [⟨default, nonce, balance⟩]⟩

/-- The second executor has a block of the lost history to publish, which ends at 900. -/
def twoExecutors : Bool → ExecutorStream
  | false => ⟨[], [transfer 700 1 70, transfer 701 2 60]⟩
  | true => ⟨[transfer 900 5 10], []⟩

def newHistory : History := ⟨fun _ row => row.txIdx < 900, fun r => r.txIdx < 900⟩

def rolledBack : ReceiptRollback := ⟨6, default⟩

def newCheckpoint : Checkpoint := ⟨701, [⟨default, 2, 60⟩]⟩

theorem newHistory_batch {i : Bool} {b : ReceiptBatch} (h : b ∈ (twoExecutors i).new) : newHistory.Batch b := by
  cases i with
  | true => cases h
  | false =>
    simp only [twoExecutors, mem_cons, not_mem_nil, or_false] at h
    rcases h with rfl | rfl <;> simp [Batch, Rows, transfer, endTxIdx, newHistory]

/-- A mirror that starts over an empty Redis. -/
def started : Mirror := ⟨.empty, false, ⟨[]⟩⟩

/-- The lost block comes before the first copy. -/
theorem projection_forgets_of_order : ∃ m', started.after
    [⟨[transfer 900 5 10], some rolledBack, newCheckpoint, false⟩, ⟨[], some rolledBack, newCheckpoint, false⟩,
      ⟨[transfer 700 1 70, transfer 701 2 60], none, newCheckpoint, false⟩] = some m' ∧
    newHistory.Projection m'.cache := by
  have hcheck : newHistory.Rows newCheckpoint.last newCheckpoint.rows :=
    forall_mem_singleton.2 (show (701 : UInt64) < 900 by decide)
  refine (isSome_iff_exists.1 rfl).imp fun m' hm' => ⟨hm', ?_⟩
  refine projection_forgets (r := rolledBack) twoExecutors ([true, false].flatMap fun i =>
    ((twoExecutors i).frames rolledBack).map (Prod.mk i)) (by decide) rfl (by decide) (by decide)
      (fun _ _ => newHistory_batch) ?_ hm'
  exact ⟨nofun, fun _ => ⟨hcheck, nofun⟩, fun _ => ⟨hcheck, fun b hb _ => newHistory_batch (i := false) hb⟩, trivial⟩

/-- **A row of the lost history stays.** The block that ends at 900 comes between the first copy and the copy of its
executor, which changes nothing. The mirror has consumed both streams and has run the rebuild. -/
theorem lost_row_stays :
    let rounds : List Round := [⟨[], some rolledBack, newCheckpoint, false⟩,
      ⟨[transfer 700 1 70], none, newCheckpoint, false⟩,
      ⟨[transfer 900 5 10], some rolledBack, newCheckpoint, false⟩,
      ⟨[transfer 701 2 60], none, newCheckpoint, false⟩]
    Interleaved (fun i => (twoExecutors i).frames rolledBack)
        ([false, false, true, true, false].zip (rounds.flatMap frames)) ∧
      ∃ m', started.after rounds = some m' ∧ m'.pendingRebuild = false ∧
        m'.cache.rows default = some ⟨900, 5, 10⟩ ∧ ¬ newHistory.Projection m'.cache := by
  refine ⟨by decide, _, rfl, rfl, rfl, fun h => ?_⟩
  have hrow : newHistory.IsRow default ⟨900, 5, 10⟩ := h.rows default _ rfl
  exact absurd hrow (show ¬ (900 : UInt64) < 900 by decide)

end Kardamom.StateMirror
