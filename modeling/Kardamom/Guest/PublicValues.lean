import Kardamom.Guest.Block

/-!
# What the public values of a block proof fix

Two accepted inputs with one root before the block, one block number and one digest ran the same transactions on the
same state. The post roots are equal when the deposits are the same and stand in the same places, and the inputs agree
on the chain id, the timestamp and the fees of the block and on which accounts exist (`SameContext`). None of these is
in the public values, and each of them can change the root (`context_is_not_fixed`). So the oracle slashes a claim of
the canonical roots.
-/

namespace Kardamom.Guest

open GuestBlock Except List L1 Outcome ReadProgram

open ByteCodec Mpt State Anchor Exec ProverRecord L1.ProofOracle GuestBlock SortedMap List Option

/-! ## The digest fixes the transactions -/

namespace BlockRecordsDigest

variable {H D : Type} {records : List (ProverRecord H D)}

theorem addRecords_eq_some {digest digest' : BlockRecordsDigest}
    (h : digest.addRecords records = some digest') :
    digest'.hashed = digest.hashed ++ (records.filterMap rawTx).flatMap arm ∧
      ∀ raw ∈ records.filterMap rawTx, raw.length < 2 ^ 32 := by
  induction records generalizing digest with
  | nil =>
    cases h
    simp
  | cons record rest ih =>
    cases record with
    | tx t =>
      obtain ⟨next, hnext, hrest⟩ := bind_eq_some_iff.1 h
      obtain ⟨hhashed, hlengths⟩ := ih hrest
      unfold addTx at hnext
      split at hnext
      case isTrue hlength =>
        cases hnext
        rw [filterMap_cons_some (f := rawTx) rfl, flatMap_cons, ← append_assoc]
        exact ⟨hhashed, forall_mem_cons.2 ⟨hlength, hlengths⟩⟩
      case isFalse => cases hnext
    | deposit d =>
      exact ih h

/-- The arms of the transactions read back. -/
theorem flatMap_arm_injOn {raws raws' : List Bytes} (h : ∀ raw ∈ raws, raw.length < 2 ^ 32)
    (h' : ∀ raw ∈ raws', raw.length < 2 ^ 32) (heq : raws.flatMap arm = raws'.flatMap arm) : raws = raws' := by
  induction raws generalizing raws' with
  | nil =>
    cases raws' with
    | nil => rfl
    | cons raw' rest' => cases heq
  | cons raw rest ih =>
    cases raws' with
    | nil => cases heq
    | cons raw' rest' =>
      obtain ⟨hraw, hrest⟩ := forall_mem_cons.1 h
      obtain ⟨hraw', hrest'⟩ := forall_mem_cons.1 h'
      simp only [flatMap_cons, arm, cons_append, cons.injEq, true_and, append_assoc] at heq
      obtain ⟨hlength, heq⟩ := append_inj heq (by simp)
      have hsame : raw.length = raw'.length := by
        rw [← leValue_leBytes (show raw.length < 256 ^ 4 from hraw), hlength]
        exact leValue_leBytes (show raw'.length < 256 ^ 4 from hraw')
      obtain ⟨rfl, htail⟩ := append_inj heq hsame
      rw [ih hrest hrest' htail]

/-- One digest is the digest of one list of transactions. -/
theorem rawTxs_eq {C : StateCodec H} (hC : C.Lawful) {n n' : UInt64} {records' : List (ProverRecord H D)}
    {digest digest' : BlockRecordsDigest} (h : (new n).addRecords records = some digest)
    (h' : (new n').addRecords records' = some digest') (heq : digest.finish C = digest'.finish C) :
    records.filterMap rawTx = records'.filterMap rawTx := by
  obtain ⟨hhashed, hlengths⟩ := addRecords_eq_some h
  obtain ⟨hhashed', hlengths'⟩ := addRecords_eq_some h'
  have hbytes := hC.keccak_injective heq
  rw [hhashed, hhashed'] at hbytes
  exact flatMap_arm_injOn hlengths hlengths' (append_inj hbytes (by simp [new])).2

end BlockRecordsDigest

/-! ## The transactions and deposits fix the execution -/

section Records

variable {H D M Facts Fault : Type} [LinearOrder H] {C : StateCodec H} {m : Machine H D M Facts Fault}

/-- Two records that the machine does not tell apart. -/
inductive SameRecord : ProverRecord H D → ProverRecord H D → Prop
  | tx {t t' : Placed (TxEnvelope H)} (hraw : t.record.rawTx = t'.record.rawTx)
      (hsender : t.record.sender = t'.record.sender) : SameRecord (.tx t) (.tx t')
  | deposit {d d' : Placed D} (h : d.record = d'.record) : SameRecord (.deposit d) (.deposit d')

theorem recoverSigner_of_verify {envelope : TxEnvelope H} (h : m.verifyRecordIdentity C envelope = .ok ()) :
    m.recoverSigner envelope.rawTx = .ok envelope.sender := by
  unfold Machine.verifyRecordIdentity at h
  split at h
  case isTrue => cases h
  case isFalse =>
    cases hrecover : m.recoverSigner envelope.rawTx with
    | error e =>
      rw [hrecover] at h
      cases h
    | ok recovered =>
      rw [hrecover] at h
      change (if recovered ≠ envelope.sender then _ else _) = _ at h
      split at h
      case isTrue => cases h
      case isFalse hsame => rw [not_not.1 hsame]

theorem forall₂_sameRecord {records records' : List (ProverRecord H D)}
    (hraw : records.filterMap rawTx = records'.filterMap rawTx)
    (hdeposits : records.map depositAt = records'.map depositAt)
    (hverify : verifyIdentities (H := H) (m.evm C) (records.map buffered) = .ok ())
    (hverify' : verifyIdentities (H := H) (m.evm C) (records'.map buffered) = .ok ()) :
    Forall₂ SameRecord records records' := by
  induction records generalizing records' with
  | nil =>
    cases records' with
    | nil => exact .nil
    | cons record' rest' => cases hdeposits
  | cons record rest ih =>
    cases records' with
    | nil => cases hdeposits
    | cons record' rest' =>
      obtain ⟨hhead, htail⟩ := cons.inj hdeposits
      cases record with
      | deposit d =>
        cases record' with
        | tx t' => cases hhead
        | deposit d' => exact .cons (.deposit (some.inj hhead)) (ih hraw htail hverify hverify')
      | tx t =>
        cases record' with
        | deposit d' => cases hhead
        | tx t' =>
          obtain ⟨hsame, hraws⟩ := cons.inj hraw
          obtain ⟨⟨⟩, hone, hrest⟩ := bind_eq_ok.1 hverify
          obtain ⟨⟨⟩, hone', hrest'⟩ := bind_eq_ok.1 hverify'
          have hsigner := recoverSigner_of_verify (ofExcept_eq_ok.1 hone)
          rw [hsame, recoverSigner_of_verify (ofExcept_eq_ok.1 hone')] at hsigner
          exact .cons (.tx hsame (ok.inj hsigner).symm) (ih hraws htail hrest hrest')

theorem executeRecords_congr {env : ExecEnv} {records records' : List (ProverRecord H D)}
    (h : Forall₂ SameRecord records records') (idx : Nat) (progress : BlockProgress H Facts) :
    executeRecords C (m.evm C) env (records.map buffered) idx progress =
      executeRecords C (m.evm C) env (records'.map buffered) idx progress := by
  induction h generalizing idx progress with
  | nil => rfl
  | @cons record record' rest rest' hhead htail ih =>
    have hone : ∀ slot cache, executeRecordInScope C (m.evm C) env slot cache record.buffered =
        executeRecordInScope C (m.evm C) env slot cache record'.buffered := by
      intro slot cache
      cases hhead with
      | @tx t t' hraw hsender =>
        obtain ⟨i, ⟨correlation, raw, sender, hash, deadline⟩, position⟩ := t
        obtain ⟨i', ⟨correlation', raw', sender', hash', deadline'⟩, position'⟩ := t'
        cases hraw
        cases hsender
        rfl
      | @deposit d d' hrecord =>
        obtain ⟨i, deposit, position⟩ := d
        obtain ⟨i', deposit', position'⟩ := d'
        cases hrecord
        rfl
    exact congrArg₂ Bind.bind (hone ..) (funext fun done => ih ..)

end Records

/-! ## The root fixes what the witness shows -/

section Context

variable {H D : Type} [LinearOrder H] {C : StateCodec H}

/-- One account in two spellings that the check accepts is one account to a call, if both say that it exists, or both
that it does not. -/
theorem accountInfo_eq_of_normal {v w : Option (AccountFields H)} (h : C.normal v = C.normal w)
    (hpresent : v.isSome = w.isSome) : v.map (accountInfo C) = w.map (accountInfo C) := by
  have hempty : ∀ f : AccountFields H, C.isEmptyAccount f.nonce f.balance f.codeHash = true →
      accountInfo C f = ⟨0, 0, C.keccakEmpty⟩ := by
    rintro ⟨nonce, balance, codeHash⟩ hf
    simp only [StateCodec.isEmptyAccount, Bool.and_eq_true, beq_iff_eq, decide_eq_true_eq] at hf
    obtain ⟨⟨rfl, rfl⟩, hcode⟩ := hf
    rw [accountInfo, hcode]
  cases v with
  | none =>
    cases w with
    | none => rfl
    | some g => cases hpresent
  | some f =>
    cases w with
    | none => cases hpresent
    | some g =>
      rw [StateCodec.normal_some, StateCodec.normal_some] at h
      split at h
      case isTrue hf =>
        split at h
        case isTrue hg => rw [map_some, map_some, hempty f hf, hempty g hg]
        case isFalse => cases h
      case isFalse =>
        split at h
        case isTrue => cases h
        case isFalse => exact h

/-- What the public values do not carry and the execution reads, beside the deposits: the chain id, the timestamp, the
fees, and whether an account that has no leaf is absent or empty. -/
structure SameContext (a b : ProverInput H D) : Prop where
  chainId : a.chainId = b.chainId
  l2Timestamp : a.boundary.l2Timestamp = b.boundary.l2Timestamp
  fees : a.fees = b.fees
  present : ∀ address v w, (WitnessDb.fromWitness a.witness).accounts.get? address = some v →
    (WitnessDb.fromWitness b.witness).accounts.get? address = some w → v.isSome = w.isSome

theorem SameContext.alike {a b : ProverInput H D} (h : SameContext a b) (hC : C.Lawful) {held : World H}
    (ha : a.witness.Holds C held) (hb : b.witness.Holds C held) (k : StateKey H) (v w : StateValue H k)
    (hv : (WitnessDb.fromWitness a.witness).get C k = some v)
    (hw : (WitnessDb.fromWitness b.witness).get C k = some w) : Alike C k v w := by
  cases k with
  | basic address =>
    have hpresent := h.present address v w hv hw
    rcases get?_foldl_upsert _ _ hv with hnone | ⟨acct, hacct, rfl, rfl⟩
    · cases hnone
    rcases get?_foldl_upsert _ _ hw with hnone | ⟨acct', hacct', haddress, rfl⟩
    · cases hnone
    refine accountInfo_eq_of_normal ((ha.accounts acct hacct).trans ?_) hpresent
    rw [← haddress]
    exact (hb.accounts acct' hacct').symm
  | storage address key =>
    rcases get?_foldl_upsert _ _ hv with hnone | ⟨slot, hslot, hkey, rfl⟩
    · cases hnone
    rcases get?_foldl_upsert _ _ hw with hnone | ⟨slot', hslot', hkey', rfl⟩
    · cases hnone
    cases hkey
    obtain ⟨haddress, hslotKey⟩ := Prod.mk.inj (toLex.injective hkey')
    change slot.value = slot'.value
    rw [ha.storage slot hslot, hb.storage slot' hslot', haddress, hslotKey]
  | codeByHash hash =>
    by_cases hempty : hash = C.keccakEmpty ∨ hash = C.zero
    · have hnone : ∀ db : WitnessDb H, db.get C (.codeByHash hash) = some [] := fun _ => if_pos hempty
      exact (some.inj ((hnone _).symm.trans hv)).symm.trans (some.inj ((hnone _).symm.trans hw))
    · have hcode : ∀ db : WitnessDb H, db.get C (.codeByHash hash) = db.code.get? hash := fun _ => if_neg hempty
      rcases get?_foldl_upsert _ _ ((hcode _).symm.trans hv) with hnone | ⟨entry, hentry, rfl, rfl⟩
      · cases hnone
      rcases get?_foldl_upsert _ _ ((hcode _).symm.trans hw) with hnone | ⟨entry', hentry', hhash, rfl⟩
      · cases hnone
      exact hC.keccak_injective ((ha.code entry hentry).trans (hhash.symm.trans (hb.code entry' hentry').symm))

end Context

/-! ## The post root -/

variable {H D M Facts Fault : Type} [LinearOrder H] {C : StateCodec H} {m : Machine H D M Facts Fault}

theorem respects_withFeaturesFrom {P : Payloads} (evm : Evm H P) (env : ExecEnv) (parent : Option (PendingDelta H)) :
    (withFeaturesFrom evm env parent).Respects (Alike C) := by
  refine ⟨fun _ _ _ => rfl, fun _ => .bind ?_ fun _ => trivial⟩
  exact BlockFeatures.property_read (respecting (Alike C))
    (fun _ _ => ⟨fun _ _ hvw => congrArg done hvw, fun _ => trivial⟩) ..

/-- The deposits are equal and stand in the same places among the transactions. -/
def SameDeposits (a b : ProverInput H D) : Prop := a.records.map depositAt = b.records.map depositAt

instance [DecidableEq D] (a b : ProverInput H D) : Decidable (SameDeposits a b) :=
  inferInstanceAs (Decidable (a.records.map depositAt = b.records.map depositAt))

/-- Two accepted inputs with the same public values, deposits and context, on the root of a state, end at one root. -/
theorem GuestBlock.postStateRoot_eq (hC : C.Lawful) {a b : ProverInput H D} {ra rb : GuestRun H Facts}
    (ha : run C m a = some ra) (hb : run C m b = some rb) {held : World H}
    (hheld : ra.anchored.preStateRoot = held.root C)
    (hpre : ra.anchored.preStateRoot = rb.anchored.preStateRoot)
    (hblock : ra.anchored.blockNumber = rb.anchored.blockNumber) (hdigest : ra.recordsDigest = rb.recordsDigest)
    (hdeposits : SameDeposits a b) (hcontext : SameContext a b) :
    ra.anchored.postStateRoot = rb.anchored.postStateRoot := by
  obtain ⟨digest, bal, hadd, hfinish, hanchored⟩ := run_eq_some ha
  obtain ⟨digest', bal', hadd', hfinish', hanchored'⟩ := run_eq_some hb
  obtain ⟨pre, hverify, out, hstateless, post, hpost, hdone⟩ := executeBlockAnchored_eq_ok hanchored
  obtain ⟨pre', hverify', out', hstateless', post', hpost', hdone'⟩ := executeBlockAnchored_eq_ok hanchored'
  rw [hdone] at hheld hpre hblock ⊢
  rw [hdone'] at hpre hblock ⊢
  -- both witnesses were checked against the one state
  have hroot : a.witness.preStateRoot = some (held.root C) := hheld ▸ root_of_verifyWitnessAnchored hverify
  have hroot' : b.witness.preStateRoot = some (held.root C) :=
    hheld ▸ hpre ▸ root_of_verifyWitnessAnchored hverify'
  obtain ⟨hpreRoot, hproven, hholds⟩ := verifyWitnessAnchored_spec hC hroot hverify
  obtain ⟨hpreRoot', hproven', hholds'⟩ := verifyWitnessAnchored_spec hC hroot' hverify'
  have halike := hcontext.alike hC hholds hholds'
  -- both ran the same records under the same env
  obtain ⟨hidentity, env, rawBal, henv, hrun, -⟩ := executeBlockStateless_eq_ok hstateless
  obtain ⟨hidentity', env', rawBal', henv', hrun', -⟩ := executeBlockStateless_eq_ok hstateless'
  have hraw := BlockRecordsDigest.rawTxs_eq hC hadd hadd' (hfinish.symm.trans (hdigest.trans hfinish'))
  have hsame : a.env = b.env := by
    have hnumber : a.boundary.blockNumber = b.boundary.blockNumber := hblock
    rw [ProverInput.env, ProverInput.env, hcontext.chainId, hcontext.l2Timestamp, hcontext.fees, hnumber]
  rw [← hsame] at henv'
  obtain rfl := (respects_withFeaturesFrom _ _ none).eq_of_tryRun halike henv henv'
  have hprogram : executeBlockWithBal C (m.evm C) env none (a.records.map buffered) =
      executeBlockWithBal C (m.evm C) env none (b.records.map buffered) :=
    congrArg₂ Bind.bind (executeRecords_congr (forall₂_sameRecord hraw hdeposits hidentity hidentity') ..) rfl
  rw [← hprogram] at hrun'
  have hout := (respects_executeBlockWithBal none _).eq_of_tryRun halike hrun hrun'
  cases hout
  exact recomputePostRoot_unique hC hpreRoot hpreRoot' hproven hproven' hpost hpost'

/-! ## The oracle -/

section Oracle

variable (C m)

/-- Each block of a claim on the batch `e` is a run of the guest, on the root of a state. -/
def Canonical (e : BatchEntry H) (preRoot : H) (blockRoots blockDigests : List H)
    (inputs : Nat → ProverInput H D) : Prop :=
  ∀ k < blockRoots.length, ∃ run : GuestRun H Facts, ∃ held : World H, GuestBlock.run C m (inputs k) = some run ∧
    run.anchored.preStateRoot = held.root C ∧
    expectedPre preRoot blockRoots k = .ok run.anchored.preStateRoot ∧
    run.anchored.blockNumber.toNat = e.l2BlockStart.toNat + k ∧
    blockDigests[k]? = some run.recordsDigest ∧ blockRoots[k]? = some run.anchored.postStateRoot

/-- A proof attests a run of the guest. The condition: if the run has the root, the number and the digest of a
canonical input, it has its deposits and its context too. -/
def Bound {Proof : Type} (V : ProofVerifier H Proof) (inputs : Nat → ProverInput H D) : Prop :=
  ∀ v proof, V.block v proof = true → ∃ input, ∃ run : GuestRun H Facts, GuestBlock.run C m input = some run ∧
    run.publicOutputs = v ∧ ∀ k (canonical : GuestRun H Facts), GuestBlock.run C m (inputs k) = some canonical →
      canonical.anchored.preStateRoot = run.anchored.preStateRoot →
      canonical.anchored.blockNumber = run.anchored.blockNumber → canonical.recordsDigest = run.recordsDigest →
        SameDeposits (inputs k) input ∧ SameContext (inputs k) input

variable {C m}

/-- A claim of the canonical roots cannot be refuted by proofs that are bound. -/
theorem challengeBlock_ne_ok (hC : C.Lawful) {Proof : Type} {K : OracleHash H} (hK : K.CollisionFree)
    {V : ProofVerifier H Proof} {inputs : Nat → ProverInput H D} (hV : Bound C m V inputs)
    {s s' : ProofOracle H Proof} {batchIndex : Nat} {c : Claim H} {blockRoots blockDigests : List H}
    (hc : s.claims batchIndex = some c) (hseq : c.seqHash = K.sequence blockRoots blockDigests)
    (hcanonical : Canonical C m (s.entry K batchIndex) c.preRoot blockRoots blockDigests inputs) {sender : Address}
    {k : Nat} {roots digests : List H} {values : Option (BlockValues H)} {proof : Proof} :
    challengeBlock K V sender batchIndex k roots digests values proof s ≠ .ok s' := by
  intro hok
  simp only [challengeBlock, checkRefutation, bind_eq_ok_iff,
    require_eq_ok_iff, ofOption_eq_ok_iff, exists_const] at hok
  obtain ⟨v, -, c', hc', hsame, hoffset, ⟨claimed, hclaimed, pre, hpre', hsamePre, hsameNumber, digest, hdigest',
    hsameDigest, hdiffers⟩, hproof, -⟩ := hok
  cases hc.symm.trans hc'
  obtain ⟨rfl, rfl⟩ := hK.sequence_inj (hsame.trans hseq)
  obtain ⟨canonical, held, hrun, hheld, hpre, hnumber, hdigest, hpost⟩ := hcanonical k hoffset
  obtain ⟨input, run, hinput, rfl, hbound⟩ := hV v proof hproof
  have hpreRoot : canonical.anchored.preStateRoot = run.anchored.preStateRoot :=
    (ok.inj (hpre.symm.trans hpre')).trans hsamePre.symm
  have hblock : canonical.anchored.blockNumber = run.anchored.blockNumber :=
    UInt64.toNat_inj.1 (hnumber.trans hsameNumber.symm)
  have hrecords : canonical.recordsDigest = run.recordsDigest :=
    (some.inj (hdigest.symm.trans hdigest')).trans hsameDigest.symm
  obtain ⟨hdeposits, hcontext⟩ := hbound k canonical hrun hpreRoot hblock hrecords
  have hroot := postStateRoot_eq hC hrun hinput hheld hpreRoot hblock hrecords hdeposits hcontext
  exact hdiffers (hroot.symm.trans (some.inj (hpost.symm.trans hclaimed)))

end Oracle

/-- **When the public values of a block proof fix the post root.** Two inputs that the guest accepts, with the same
root before the block, which is the root of a state, the same block number and the same digest, and with the same
deposits in the same places, have the same post root if they agree on the context. A claim of the canonical roots
cannot be slashed if every proof is bound to the deposits and the context of the canonical inputs. -/
theorem public_values_fix_post_root (hC : C.Lawful) :
    (∀ (a b : ProverInput H D) (ra rb : GuestRun H Facts) (held : World H),
      run C m a = some ra → run C m b = some rb →
      ra.anchored.preStateRoot = held.root C → ra.anchored.preStateRoot = rb.anchored.preStateRoot →
      ra.anchored.blockNumber = rb.anchored.blockNumber → ra.recordsDigest = rb.recordsDigest →
      SameDeposits a b → SameContext a b → ra.anchored.postStateRoot = rb.anchored.postStateRoot) ∧
    ∀ (Proof : Type) (K : OracleHash H) (V : ProofVerifier H Proof) (inputs : Nat → ProverInput H D)
      (s : ProofOracle H Proof) (batchIndex : Nat) (c : Claim H) (blockRoots blockDigests : List H),
      K.CollisionFree → Bound C m V inputs → s.claims batchIndex = some c →
      c.seqHash = K.sequence blockRoots blockDigests →
      Canonical C m (s.entry K batchIndex) c.preRoot blockRoots blockDigests inputs →
      ∀ sender k roots digests values proof s',
        challengeBlock K V sender batchIndex k roots digests values proof s ≠ .ok s' := by
  refine ⟨fun a b ra rb held ha hb hheld hpre hblock hdigest hdeposits hcontext => ?_, ?_⟩
  · exact postStateRoot_eq hC ha hb hheld hpre hblock hdigest hdeposits hcontext
  · intro Proof K V inputs s batchIndex c blockRoots blockDigests hK hV hc hseq hcanonical sender k roots digests
    exact fun values proof s' => challengeBlock_ne_ok hC hK hV hc hseq hcanonical

/-! ## Runs -/

/-- A machine whose four transactions pay an amount that depends on the base fee, on the timestamp, on the chain id, and
on whether account 2 exists, as the refund of an EIP-7702 authorization does. The encoding of an access list is its
place in `bals`. -/
def payingMachine (bals : List BlockAccessList) : Machine Digest Unit Unit Unit Unit where
  activationSlot id := keyOf (UInt8.ofNat (16 * id.toNat))
  writeSetHash _ := plainCodec.zero
  chainStateCode := []
  balRlp _ := []
  balDecode bytes := bals[beValue bytes]?
  recoverSigner _ := .ok 1
  txHashMismatch _ := ()
  senderMismatch _ := ()
  transact env raw sender := .read (.basic sender) fun info => .read (.basic 2) fun authority =>
    let info := infoOrDefault plainStateCodec info
    let paid := match raw with
      | [0] => env.fees.baseFee
      | [1] => env.l2Timestamp.toNat
      | [2] => env.chainId.toNat
      | _ => if isSome authority then 1 else 2
    .done (.ok ⟨(), 1, [⟨sender, { info with balance := info.balance - BitVec.ofNat 256 paid }, none, [], true, false⟩]⟩)
  depositFrom _ := 0
  depositMint _ := 0
  isUpgrade _ := false
  transactDeposit _ _ := .done (.ok (.rejected ()))
  transactXchain _ _ _ := .done (.ok (.rejected ()))

/-- A block with one transaction on `fundedWorld`, which has no account 2. -/
def payingInput (index raw : UInt8) (chainId l2Timestamp : UInt64) (baseFee : Nat) (present : Bool) :
    ProverInput Digest Unit where
  chainId := chainId
  boundary := ⟨2, ⟨0, 0⟩, l2Timestamp, 0⟩
  fees := ⟨baseFee, 0⟩
  witness :=
    { accounts := [⟨1, true, 1, 5, plainCodec.zero⟩, ⟨2, present, 0, 0, plainCodec.zero⟩,
        ⟨chainState, false, 0, 0, plainCodec.zero⟩]
      storage := [⟨chainState, keyOf 16, 0⟩, ⟨chainState, keyOf 32, 0⟩]
      code := []
      preStateRoot := some (fundedWorld.root plainStateCodec) }
  proofs := fundedProofs
  records := [.tx ⟨0, ⟨0, [raw], 1, plainCodec.keccak [raw], 0⟩, ⟨0, 0⟩⟩]
  balRlp := [index]
  granularity := 1
  granularity_ne_zero := by decide

/-- Four pairs of inputs: the two of a pair differ in one field. -/
def payingPairs : List (ProverInput Digest Unit × ProverInput Digest Unit) :=
  [(payingInput 0 0 1 1 1 false, payingInput 1 0 1 1 2 false), (payingInput 2 1 1 1 1 false, payingInput 3 1 1 2 1 false),
    (payingInput 4 2 1 1 1 false, payingInput 5 2 2 1 1 false), (payingInput 6 3 1 1 1 false, payingInput 7 3 1 1 1 true)]

section

variable (input : ProverInput Digest Unit)

/-- The access list of an input. -/
def publishedBal : BlockAccessList :=
  match (executeBlockWithBal plainStateCodec ((payingMachine []).evm plainStateCodec) input.env none
    (input.records.map buffered)).run.tryRun ((WitnessDb.fromWitness input.witness).get plainStateCodec) with
  | .ok (.ok (_, bal)) => bal
  | _ => []

/-- The machine with the access lists of the pairs. -/
def pricedMachine : Machine Digest Unit Unit Unit Unit :=
  payingMachine (payingPairs.flatMap fun p => [publishedBal p.1, publishedBal p.2])

def payingGuest : ProverInput Digest Unit → Option (GuestRun Digest Unit) :=
  run plainStateCodec pricedMachine

/-- The public values of a block proof. -/
def payingValues : Option (BlockValues Digest) :=
  (payingGuest input).map GuestRun.publicOutputs

end

/-- A list of digests, as the encoding of a node that refers to them. -/
def packed (ds : List Digest) : Bytes := Plain.encode (.branch (ds.map .hash) fun _ => false)

theorem packed_injective : Function.Injective packed := by
  intro ds ds' h
  have hnode := congrArg Plain.decode h
  rw [packed, packed, Plain.decode_encode, Plain.decode_encode] at hnode
  exact map_injective_iff.2 (fun _ _ => RlpNode.hash.inj) (TrieNode.branch.inj (some.inj hnode)).1

def plainOracleHash : OracleHash Digest where
  zero := plainCodec.zero
  foldDigests := packed
  sequence roots digests := packed [packed roots, packed digests]

theorem plainOracleHash_collisionFree : plainOracleHash.CollisionFree where
  foldDigests_inj h := packed_injective h
  sequence_inj h := by
    obtain ⟨hroots, hdigests⟩ := cons.inj (packed_injective h)
    exact ⟨packed_injective hroots, packed_injective (cons.inj hdigests).1⟩

/-- A verifier that accepts exactly the runs of the guest; the proof is the input. -/
def attesting : ProofVerifier Digest (ProverInput Digest Unit) :=
  ⟨fun v input => payingValues input = some v, fun _ _ => false⟩

/-- The canonical block: its base fee is 1. -/
def canonicalInput : ProverInput Digest Unit := payingInput 0 0 1 1 1 false

/-- A batch of the canonical block is posted, and account 6 claims its root with a bond of 3. -/
def canonicalClaim : Except ProofOracleError (ProofOracle Digest (ProverInput Digest Unit)) := do
  let v ← Except.ofOption .panicked (payingValues canonicalInput)
  let s ← postBatch 1 0 [1] 2 2 (packed [v.recordsDigest])
    (.initial 1 (fundedWorld.root plainStateCodec) 100 3)
  claimBatch plainOracleHash 6 3 1 [v.postRoot] [v.recordsDigest] s

/-- Account 7 challenges the claim with a proof of the same block under a base fee of 2. -/
def challenged (s : ProofOracle Digest (ProverInput Digest Unit)) :
    Except ProofOracleError (ProofOracle Digest (ProverInput Digest Unit)) := do
  let v ← Except.ofOption .panicked (payingValues canonicalInput)
  let other := payingInput 1 0 1 1 2 false
  challengeBlock plainOracleHash attesting 7 1 0 [v.postRoot] [v.recordsDigest] (payingValues other) other s

/-- Whether a claim is there before the challenge and after it, and what the challenger can withdraw. -/
def challengeOutcome : Option (Bool × Bool × Nat) :=
  match canonicalClaim with
  | .error _ => none
  | .ok s =>
    match challenged s with
    | .error _ => none
    | .ok s' => some ((s.claims 1).isSome, (s'.claims 1).isSome, s'.withdrawable 7)

/-- Whether two inputs are accepted with the same root, number and digest, and different post roots. -/
def differs (a b : ProverInput Digest Unit) : Bool :=
  match payingValues a, payingValues b with
  | some v, some w => v.preRoot = w.preRoot ∧ v.blockNumber = w.blockNumber ∧ v.recordsDigest = w.recordsDigest ∧
      v.postRoot ≠ w.postRoot
  | _, _ => false

theorem exists_runs_of_differs {a b : ProverInput Digest Unit} (h : differs a b = true) :
    ∃ ra rb, payingGuest a = some ra ∧ payingGuest b = some rb ∧
      ra.anchored.preStateRoot = rb.anchored.preStateRoot ∧ ra.anchored.blockNumber = rb.anchored.blockNumber ∧
      ra.recordsDigest = rb.recordsDigest ∧ ra.anchored.postStateRoot ≠ rb.anchored.postStateRoot := by
  unfold differs at h
  split at h
  case h_1 v w hv hw =>
    obtain ⟨ra, hra, rfl⟩ := map_eq_some_iff.1 hv
    obtain ⟨rb, hrb, rfl⟩ := map_eq_some_iff.1 hw
    obtain ⟨hpre, hnumber, hdigest, hpost⟩ := of_decide_eq_true h
    exact ⟨ra, rb, hra, hrb, hpre, UInt64.toNat_inj.1 hnumber, hdigest, hpost⟩
  case h_2 => cases h

set_option maxRecDepth 40000 in
/-- **The context is not fixed.** In each pair one field differs, both inputs are accepted with the same root, number
and digest, and the post roots differ. So a claim of the canonical root is slashed. -/
theorem context_is_not_fixed :
    (∀ p ∈ payingPairs, SameDeposits p.1 p.2 ∧ ∃ ra rb, payingGuest p.1 = some ra ∧ payingGuest p.2 = some rb ∧
      ra.anchored.preStateRoot = rb.anchored.preStateRoot ∧ ra.anchored.blockNumber = rb.anchored.blockNumber ∧
      ra.recordsDigest = rb.recordsDigest ∧ ra.anchored.postStateRoot ≠ rb.anchored.postStateRoot) ∧
    ∃ s s', canonicalClaim = .ok s ∧ (s.claims 1).isSome = true ∧ challenged s = .ok s' ∧
      (s'.claims 1).isSome = false ∧ s'.withdrawable 7 = 3 := by
  constructor
  · have hall : payingPairs.all (fun p => decide (SameDeposits p.1 p.2) && differs p.1 p.2) = true := by decide +kernel
    intro p hp
    obtain ⟨hdeposits, hdiffers⟩ := (Bool.and_eq_true ..).mp (all_eq_true.1 hall p hp)
    exact ⟨of_decide_eq_true hdeposits, exists_runs_of_differs hdiffers⟩
  · have houtcome : challengeOutcome = some (true, false, 3) := by decide +kernel
    unfold challengeOutcome at houtcome
    split at houtcome
    case h_1 => cases houtcome
    case h_2 s hs =>
      split at houtcome
      case h_1 => cases houtcome
      case h_2 s' hs' =>
        obtain ⟨hbefore, hafter, hpaid⟩ := by simpa only [some.injEq, Prod.mk.injEq] using houtcome
        exact ⟨s, s', hs, hbefore, hs', hafter, hpaid⟩

/-- A verifier that accepts the proof of the canonical input only. -/
def canonicalVerifier : ProofVerifier Digest Unit := ⟨fun v _ => payingValues canonicalInput = some v, fun _ _ => false⟩

/-- The oracle with a claim of the canonical root on a batch of one block. -/
def canonicalOracle (v : BlockValues Digest) : ProofOracle Digest Unit :=
  { initial 1 v.preRoot 100 3 with
    settlement := ⟨1, [⟨2, 2, packed [v.recordsDigest]⟩]⟩
    claims := fun i => if i = 1 then
      some ⟨6, 3, 0, v.preRoot, v.postRoot, plainOracleHash.sequence [v.postRoot] [v.recordsDigest]⟩ else none }

theorem sameContext_refl (a : ProverInput Digest Unit) : SameContext a a :=
  ⟨rfl, rfl, rfl, fun _ v w hv hw => by rw [Option.some.inj (hv.symm.trans hw)]⟩

/-- The canonical block with the transaction at another place, from another ingress. -/
def movedInput : ProverInput Digest Unit :=
  { canonicalInput with records := [.tx ⟨9, ⟨8, [0], 1, plainCodec.keccak [0], 7⟩, ⟨0, 6⟩⟩] }

/-- Both inputs are accepted, on `fundedWorld`, with the same public values but the post root. -/
def agree : Bool :=
  match payingValues canonicalInput, payingValues movedInput with
  | some v, some w => v.preRoot = fundedWorld.root plainStateCodec ∧ v.preRoot = w.preRoot ∧ v.blockNumber = 2 ∧
      w.blockNumber = 2 ∧ v.recordsDigest = w.recordsDigest
  | _, _ => false

set_option maxRecDepth 40000 in
theorem public_values_fix_post_root_of_canonical :
    ∃ ra rb, payingGuest canonicalInput = some ra ∧ payingGuest movedInput = some rb ∧
      ra.anchored.postStateRoot = rb.anchored.postStateRoot ∧
      ∀ sender k roots digests values proof s', challengeBlock plainOracleHash canonicalVerifier sender 1 k
        roots digests values proof (canonicalOracle ra.publicOutputs) ≠ .ok s' := by
  have hagree : agree = true := by decide +kernel
  unfold agree at hagree
  split at hagree
  case h_2 => cases hagree
  case h_1 v w hv hw =>
    obtain ⟨ra, hra, rfl⟩ := map_eq_some_iff.1 hv
    obtain ⟨rb, hrb, rfl⟩ := map_eq_some_iff.1 hw
    obtain ⟨hheld, hpre, hnumber, hnumber', hdigest⟩ := of_decide_eq_true hagree
    have hblock : ra.anchored.blockNumber = rb.anchored.blockNumber := UInt64.toNat_inj.1 (hnumber.trans hnumber'.symm)
    refine ⟨ra, rb, hra, hrb, (public_values_fix_post_root plainStateCodec_lawful).1 _ _ ra rb fundedWorld hra hrb hheld
      hpre hblock hdigest rfl ⟨rfl, rfl, rfl, (sameContext_refl canonicalInput).present⟩, ?_⟩
    refine (public_values_fix_post_root (m := pricedMachine) plainStateCodec_lawful).2 Unit plainOracleHash canonicalVerifier
      (fun _ => canonicalInput) (canonicalOracle ra.publicOutputs) 1 _ _ _ plainOracleHash_collisionFree ?_ rfl rfl ?_
    · intro v' proof hv'
      refine ⟨canonicalInput, ra, hra, some.inj (hv.symm.trans (of_decide_eq_true hv')), ?_⟩
      exact fun _ _ _ _ _ _ => ⟨rfl, sameContext_refl canonicalInput⟩
    · intro k hk
      obtain rfl : k = 0 := Nat.lt_one_iff.1 hk
      exact ⟨ra, fundedWorld, hra, hheld, rfl, hnumber, rfl, rfl⟩

end Kardamom.Guest
