import Kardamom.Lib.Run
import Kardamom.Sealer.VoidLedger

/-!
# The void ledger across a snapshot

The snapshot of the ledger holds the references whose index the window still covers, and the open
votes. The ring itself may hold more: a slot is only overwritten by a reference, so after entries
that are none, a slot can hold an index below the window. The writer drops it, and the vote looks
only at the slot.

`stale_reference_is_voided` is what follows: a member that never restarted decides a void that a
restored member refuses. `restored_answers_alike_iff` says that this is the only difference: the two
answer alike, and refuse every vote below the window, exactly as long as no admitted vote names such
a stale reference.
-/

namespace Kardamom.Sealer

open ByteCodec LinkedMap Function Machine List VoidLedger Ledger Machine

namespace VoidLedger

/-! ## The format -/

/-- Snapshot bytes of one window entry (`ENTRY_LEN`). -/
def entryLen : Nat := 8 + 32 + 20 + 8

/-- Snapshot bytes of one open vote (`VOTE_LEN`). -/
def voteLen : Nat := 8 + 8

section

variable (cfg : VoidConfig) (l : VoidLedger) (canonicalCount : Int)

/-- The window indices in the snapshot: those that the window still holds, oldest first. -/
def heldIndices : List Int :=
  let oldest := max 0 (canonicalCount - cfg.capacity)
  ((List.range (canonicalCount - oldest).toNat).map fun (n : Nat) => oldest + n).filter fun i =>
    (l.window (cfg.slot i)).index = i

/-- The entries that the snapshot holds. -/
def heldEntries : List VoidEntry :=
  if cfg.capacity = 0 then []
  else (l.heldIndices cfg canonicalCount).map fun i => l.entryAt cfg i

end

def putEntry (e : VoidEntry) : Bytes :=
  putLong e.index ++ (putId e.id ++ (putSender e.sender ++ putWord e.nonce))

def putVote (v : Int × BitVec 64) : Bytes := putLong v.1 ++ putWord ⟨v.2⟩

section

variable (cfg : VoidConfig) (l : VoidLedger)

/-- Write the window, oldest index first, then the open votes in insertion order. -/
def writeTo (canonicalCount : Int) : Bytes :=
  let held := l.heldEntries cfg canonicalCount
  putInt held.length ++ (held.flatMap putEntry
    ++ (putInt l.votes.size ++ l.votes.entries.flatMap putVote))

/-- Keep the bits of the configured voters; a mask with none left is no vote. -/
def restoreVote (index : Int) (mask : BitVec 64) : VoidLedger :=
  if mask &&& cfg.voterMask = 0 then l
  else { l with votes := l.votes.put index (mask &&& cfg.voterMask) }

def getEntry : SnapshotGet VoidLedger :=
  getLong.bind fun index => getId.bind fun id => getSender.bind fun sender =>
    getWord.bind fun nonce => Get.pure (l.onReference cfg index id sender nonce)

def getVote : SnapshotGet VoidLedger := getLong.bind fun index => getWord.bind fun mask =>
    Get.pure (l.restoreVote cfg index mask.toBitVec)

end

/-- A counted section of items of `width` bytes, read into the ledger. -/
def getSection (name : String) (width : Nat) (item : VoidLedger → SnapshotGet VoidLedger)
    (l : VoidLedger) : SnapshotGet VoidLedger :=
  getInt.bind fun count =>
    (Get.ensure (fun remaining => 0 ≤ count ∧ count * width ≤ remaining) fun remaining =>
      SealerException.illegalArgument
        s!"truncated snapshot: void {name} {count}, {remaining} bytes remaining").bind fun _ =>
    Get.times item count.toNat l

/-- Read what `writeTo` wrote. -/
def readFrom (cfg : VoidConfig) : SnapshotGet VoidLedger :=
  (getSection "entryCount" entryLen (getEntry cfg) empty).bind fun l =>
    getSection "voteCount" voteLen (getVote cfg) l

/-! ## The ledgers that a run reaches -/

/-- What holds of the ledger in every run: a slot is free or holds an index of its own, and the open
votes are those of configured voters. -/
structure Ledger.WellFormed (cfg : VoidConfig) (s : Ledger) : Prop where
  count : 0 ≤ s.count
  window : ∀ k, (s.ledger.window k).index = -1 ∨
    (0 ≤ (s.ledger.window k).index ∧ (s.ledger.window k).index < s.count ∧
      cfg.slot (s.ledger.window k).index = k)
  votes : ∀ v ∈ s.ledger.votes.entries, 0 ≤ v.1 ∧ v.1 < s.count ∧
    v.2 ≠ 0 ∧ ∀ i, v.2.getLsbD i = true → cfg.voterMask.getLsbD i = true
  size : s.ledger.votes.size ≤ maxOpenVotes

variable {cfg : VoidConfig} {s : Ledger}

theorem Ledger.wellFormed_empty (count : Nat) : WellFormed cfg ⟨.empty, count⟩ where
  count := Int.natCast_nonneg count
  window _ := .inl rfl
  votes _ hv := absurd hv not_mem_nil
  size := Nat.zero_le _

variable {voterId index : Int} {hash : CanonicalId}

section

variable (h : s.WellFormed cfg)
include h

theorem Ledger.WellFormed.dropVotesBelow (oldest : Int) :
    WellFormed cfg ⟨s.ledger.dropVotesBelow oldest, s.count⟩ where
  __ := h
  votes v hv := h.votes v (mem_filter.1 hv).1
  size := (size_filter_le _ _).trans h.size

/-- The count moves on. -/
theorem Ledger.WellFormed.advance {count : Int} (hc : s.count ≤ count) :
    WellFormed cfg ⟨s.ledger, count⟩ where
  count := h.count.trans hc
  window k := (h.window k).imp_right fun ⟨h1, h2, h3⟩ => ⟨h1, lt_of_lt_of_le h2 hc, h3⟩
  votes v hv :=
    have hw := h.votes v hv
    ⟨hw.1, lt_of_lt_of_le hw.2.1 hc, hw.2.2⟩
  size := h.size

theorem Ledger.WellFormed.onReference (id : CanonicalId) (sender : Sender) (nonce : UInt64) :
    WellFormed cfg ⟨s.ledger.onReference cfg s.count id sender nonce, s.count + 1⟩ := by
  have hadv : WellFormed cfg ⟨s.ledger, s.count + 1⟩ := h.advance (by omega)
  by_cases hcap : cfg.capacity = 0
  · rwa [VoidLedger.onReference, if_pos hcap]
  · refine ⟨hadv.count, fun k => ?_, fun v hv => ?_, ?_⟩
    · rw [onReference_window hcap]
      by_cases hk : k = cfg.slot s.count
      · subst hk
        rw [update_self]
        exact .inr ⟨h.count, Int.lt_succ _, rfl⟩
      · rw [update_of_ne hk]
        exact hadv.window k
    · rw [onReference_votes] at hv
      exact hadv.votes v hv
    · rw [onReference_votes]
      exact hadv.size

section

variable (hadm : s.ledger.Admits cfg voterId index hash)
include hadm

/-- A slot that holds the index `i ≥ 0` under `holds` is below the count. -/
theorem Ledger.WellFormed.of_admits :
    0 ≤ index ∧ index < s.count := by
  obtain ⟨-, hpos, hindex, -⟩ := holds_iff.1 hadm.2.1
  rcases h.window (cfg.slot index) with hfree | ⟨-, hlt, -⟩
  · omega
  · rw [hindex] at hlt
    exact ⟨hpos, hlt⟩

theorem Ledger.WellFormed.counted : WellFormed cfg
      ⟨{ s.ledger with votes := s.ledger.votes.put index (s.ledger.maskWith index voterId) },
        s.count⟩ := by
  obtain ⟨hpos, hlt⟩ := h.of_admits hadm
  obtain ⟨hv0, hv64, hvbit⟩ := isVoter_iff.1 hadm.1
  have hself : (s.ledger.maskWith index voterId).getLsbD voterId.toNat = true :=
    getLsbD_maskWith_iff.2 (.inr ⟨by omega, rfl⟩)
  refine ⟨h.count, h.window, fun v hv => ?_, ?_⟩
  · rcases mem_entries_put.1 hv with ⟨hk, hm⟩ | ⟨-, hold⟩
    · rw [hk, hm]
      refine ⟨hpos, hlt, fun h0 => ?_, fun i hi => ?_⟩
      · rw [h0] at hself
        simp at hself
      · rcases getLsbD_maskWith_iff.1 hi with hold | ⟨-, rfl⟩
        · cases hget : s.ledger.votes.get? index with
          | none => rw [hget] at hold; simp at hold
          | some mask =>
            rw [hget] at hold
            exact (h.votes _ (get?_eq_some_iff.1 hget)).2.2.2 i hold
        · exact hvbit
    · exact h.votes v hold
  · by_cases hmem : index ∈ s.ledger.votes.keys
    · exact (size_put_of_mem hmem _).trans_le h.size
    · exact (size_put_of_not_mem hmem _).trans_le (hadm.2.2 (get?_eq_none_iff.2 hmem))

end

theorem Ledger.WellFormed.decided (index : Int) : WellFormed cfg
      ⟨{ s.ledger.take cfg index with votes := s.ledger.votes.remove index }, s.count + 1⟩ := by
  have hadv : WellFormed cfg ⟨s.ledger, s.count + 1⟩ := h.advance (by omega)
  refine ⟨hadv.count, fun k => ?_, fun v hv => hadv.votes v (mem_filter.1 hv).1,
    (size_filter_le _ _).trans h.size⟩
  dsimp only [take]
  by_cases hk : k = cfg.slot index
  · subst hk
    rw [update_self]
    exact .inl rfl
  · rw [update_of_ne hk]
    exact hadv.window k

/-- **One step.** -/
theorem Ledger.WellFormed.step (op : LedgerOp) : (step cfg s op).1.WellFormed cfg := by
  cases op with
  | reference id sender nonce => exact h.onReference id sender nonce
  | ordered slots => exact h.advance (by omega)
  | vote voterId index hash =>
    have hd := h.dropVotesBelow (s.count - cfg.capacity)
    rcases onVote_cases cfg s.ledger voterId index hash s.count with ⟨-, heq⟩ | ⟨-, -, heq⟩ |
        ⟨-, -, -, heq⟩ | ⟨hadm, -, -, heq⟩
    · rw [Ledger.step, heq]
      exact hd
    · rw [Ledger.step, heq]
      exact hd.decided index
    · rw [Ledger.step, heq]
      exact hd
    · rw [Ledger.step, heq]
      exact hd.counted hadm

end

/-! ## The round trip -/

/-- A counted section reads back when each of its items does. -/
theorem reads_section {γ : Type} {name : String} {width : Nat}
    {item : VoidLedger → SnapshotGet VoidLedger} {write : γ → Bytes}
    {next : VoidLedger → γ → VoidLedger} {xs : List γ} (hlen : xs.length < 2 ^ 31)
    (hwidth : ∀ x, (write x).length = width)
    (hitem : ∀ l, ∀ x ∈ xs, Reads (item l) (write x) (next l x)) (l : VoidLedger) :
    Reads (getSection name width item l) (putInt xs.length ++ xs.flatMap write)
      (xs.foldl next l) := by
  have hbytes : (xs.flatMap write).length = xs.length * width :=
    length_flatMap_of_width fun x _ => hwidth x
  refine (reads_int (by omega) (by omega)).bind (Reads.ensure (fun r hr => ⟨by omega, ?_⟩) ?_)
  · rw [hbytes] at hr
    exact_mod_cast hr
  · exact Reads.times_of_mem hitem l

theorem length_putEntry (e : VoidEntry) : (putEntry e).length = entryLen := by
  simp [putEntry, entryLen]

theorem length_putVote (v : Int × BitVec 64) : (putVote v).length = voteLen := by
  simp [putVote, voteLen]

theorem reads_entry {e : VoidEntry} (hlo : 0 ≤ e.index) (hhi : e.index ≤ longMax) (l : VoidLedger) :
    Reads (getEntry cfg l) (putEntry e) (l.onReference cfg e.index e.id e.sender e.nonce) :=
  (reads_long (by unfold longMin; omega) hhi).bind <| (reads_id e.id).bind <|
    (reads_sender e.sender).bind <| (reads_word e.nonce).map _

theorem reads_vote {v : Int × BitVec 64} (hlo : 0 ≤ v.1) (hhi : v.1 ≤ longMax) (l : VoidLedger) :
    Reads (getVote cfg l) (putVote v) (l.restoreVote cfg v.1 v.2) :=
  (reads_long (by unfold longMin; omega) hhi).bind <| (reads_word ⟨v.2⟩).map _

/-- A mask of configured voters keeps all its bits. -/
theorem and_voterMask {mask : BitVec 64}
    (h : ∀ i, mask.getLsbD i = true → cfg.voterMask.getLsbD i = true) :
    mask &&& cfg.voterMask = mask := by
  refine BitVec.eq_of_getLsbD_eq fun i _ => ?_
  rw [BitVec.getLsbD_and]
  cases hi : mask.getLsbD i with
  | false => rfl
  | true => rw [h i hi]; rfl

theorem foldl_restoreVote (h : s.WellFormed cfg) {l : VoidLedger} (hl : l.votes = .empty) :
    s.ledger.votes.entries.foldl (fun l v => l.restoreVote cfg v.1 v.2) l
      = ⟨l.window, s.ledger.votes⟩ := by
  suffices hfold : ∀ (vs : List (Int × BitVec 64)) (l : VoidLedger),
      (∀ v ∈ vs, v ∈ s.ledger.votes.entries) →
      vs.foldl (fun l v => l.restoreVote cfg v.1 v.2) l
        = ⟨l.window, vs.foldl (fun acc v => acc.put v.1 v.2) l.votes⟩ by
    rw [hfold _ l fun _ => id, hl, foldl_put_entries]
  intro vs
  induction vs with
  | nil => intro l _; rfl
  | cons v vs ih =>
    intro l hmem
    obtain ⟨-, -, hne, hbits⟩ := h.votes v (hmem v (mem_cons_self ..))
    rw [foldl_cons, ih _ fun w hw => hmem w (.tail _ hw), restoreVote, and_voterMask hbits,
      if_neg hne]
    rfl

/-- What the snapshot keeps of a slot: all of it if the window covers its index, else nothing. -/
theorem foldl_onReference_window (hcap : cfg.capacity ≠ 0) {w : Nat → VoidEntry}
    (es : List VoidEntry) (hes : ∀ e ∈ es, e = w (cfg.slot e.index)) (l : VoidLedger) (k : Nat) :
    (es.foldl (fun l e => l.onReference cfg e.index e.id e.sender e.nonce) l).window k
      = if ∃ e ∈ es, cfg.slot e.index = k then w k else l.window k := by
  induction es generalizing l with
  | nil => simp
  | cons e es ih =>
    rw [foldl_cons, ih (fun e' he' => hes e' (.tail _ he')), onReference_window hcap]
    by_cases hin : ∃ e' ∈ es, cfg.slot e'.index = k
    · rw [if_pos hin, if_pos (by obtain ⟨e', he', hk⟩ := hin; exact ⟨e', .tail _ he', hk⟩)]
    · rw [if_neg hin]
      by_cases hk : cfg.slot e.index = k
      · rw [if_pos ⟨e, mem_cons_self .., hk⟩, ← hk, update_self, ← hes e (mem_cons_self ..)]
      · rw [update_of_ne fun h => hk h.symm, if_neg]
        rintro ⟨e', he', hk'⟩
        rcases mem_cons.1 he' with rfl | he'
        · exact hk hk'
        · exact hin ⟨e', he', hk'⟩

theorem mem_heldEntries {count : Int} {l : VoidLedger} {e : VoidEntry} :
    e ∈ l.heldEntries cfg count ↔ cfg.capacity ≠ 0 ∧ 0 ≤ e.index ∧ count - cfg.capacity ≤ e.index ∧
      e.index < count ∧ e = l.window (cfg.slot e.index) := by
  unfold heldEntries heldIndices
  by_cases hcap : cfg.capacity = 0
  · simp [hcap]
  rw [if_neg hcap]
  simp only [mem_map, mem_filter, mem_range, decide_eq_true_iff, ne_eq, hcap,
    not_false_eq_true, true_and]
  constructor
  · rintro ⟨i, ⟨⟨n, hn, rfl⟩, hi⟩, rfl⟩
    refine ⟨?_, ?_, ?_, ?_⟩
    · show 0 ≤ max 0 (count - cfg.capacity) + (n : Int)
      omega
    · show count - cfg.capacity ≤ max 0 (count - cfg.capacity) + (n : Int)
      omega
    · show max 0 (count - cfg.capacity) + (n : Int) < count
      omega
    · exact entryAt_eq hi
  · rintro ⟨hpos, hlo, hhi, he⟩
    have hidx : (l.window (cfg.slot e.index)).index = e.index := by rw [← he]
    refine ⟨e.index, ⟨⟨(e.index - max 0 (count - cfg.capacity)).toNat, by omega, by omega⟩, hidx⟩, ?_⟩
    rw [entryAt_eq hidx, ← he]

theorem length_heldEntries (l : VoidLedger) (count : Int) :
    (l.heldEntries cfg count).length < 2 ^ 31 := by
  unfold heldEntries
  split
  · simp
  · rw [length_map]
    refine lt_of_le_of_lt (length_filter_le _ _) ?_
    rw [length_map, length_range]
    have := cfg.capacity_int
    omega

/-! ## Live and restored -/

/-- The restored ledger `b` holds what the live one `a` holds, but for slots that are free or whose
index is below the window: those are free. -/
structure Ledger.Alike (cfg : VoidConfig) (a b : Ledger) : Prop where
  count : b.count = a.count
  votes : b.ledger.votes = a.ledger.votes
  window : ∀ k, b.ledger.window k = a.ledger.window k ∨ (b.ledger.window k).index = -1 ∧
      ((a.ledger.window k).index = -1 ∨ (a.ledger.window k).index < a.count - cfg.capacity)

/-- **The round trip.** -/
theorem reads_ledger (h : s.WellFormed cfg) (hc : s.count ≤ longMax) :
    ∃ r, Reads (readFrom cfg) (writeTo cfg s.ledger s.count) r ∧ Alike cfg s ⟨r, s.count⟩ := by
  set held := s.ledger.heldEntries cfg s.count with hheld
  set l := held.foldl (fun l e => l.onReference cfg e.index e.id e.sender e.nonce) empty with hl
  have hmem : ∀ e ∈ held, 0 ≤ e.index ∧ e.index ≤ longMax := by
    intro e he
    obtain ⟨-, hpos, -, hlt, -⟩ := mem_heldEntries.1 he
    exact ⟨hpos, by omega⟩
  have hvotes : l.votes = .empty :=
    List.foldlRecOn (motive := fun l : VoidLedger => l.votes = .empty) held _ rfl
      fun l hl e _ => by rw [onReference_votes, hl]
  have hentries : Reads (getSection "entryCount" entryLen (getEntry cfg) empty)
      (putInt held.length ++ held.flatMap putEntry) l :=
    reads_section (length_heldEntries _ _) length_putEntry
      (fun l e he => reads_entry (hmem e he).1 (hmem e he).2 l) empty
  have hopen : Reads (getSection "voteCount" voteLen (getVote cfg) l)
      (putInt s.ledger.votes.size ++ s.ledger.votes.entries.flatMap putVote)
      ⟨l.window, s.ledger.votes⟩ := by
    rw [← foldl_restoreVote h hvotes]
    refine reads_section (lt_of_le_of_lt h.size (by decide)) length_putVote (fun l v hv => ?_) l
    obtain ⟨hlo, hhi, -⟩ := h.votes v hv
    exact reads_vote hlo (by omega) l
  refine ⟨⟨l.window, s.ledger.votes⟩, ?_, rfl, rfl, fun k => ?_⟩
  · have := hentries.bind hopen
    rwa [append_assoc] at this
  · by_cases hcap : cfg.capacity = 0
    · have hnil : held = [] := by rw [hheld, heldEntries, if_pos hcap]
      have hfree : (l.window k).index = -1 := by rw [hl, hnil]; rfl
      refine .inr ⟨hfree, (h.window k).imp_right fun hk => ?_⟩
      omega
    · have hwin := foldl_onReference_window hcap held
        (fun e he => (mem_heldEntries.1 he).2.2.2.2) empty k
      split at hwin
      next => exact .inl hwin
      next hno =>
        refine .inr ⟨by rw [hwin]; rfl, (h.window k).imp_right fun ⟨hpos, hlt, hslot⟩ => ?_⟩
        by_contra hcover
        refine hno ⟨s.ledger.window k, mem_heldEntries.2 ⟨hcap, hpos, by omega, hlt, ?_⟩, hslot⟩
        rw [hslot]

/-- No admitted vote names an index below the window: none names, with its id, a reference that its
ring slot still holds there. -/
def NoStaleVote (cfg : VoidConfig) (s : Ledger) : LedgerOp → Prop
  | .vote voterId index hash => index < s.count - cfg.capacity →
    ¬ (s.ledger.dropVotesBelow (s.count - cfg.capacity)).Admits cfg voterId index hash
  | _ => True

/-- The ledger that a vote finds: the votes below the window are gone. -/
abbrev Ledger.current (cfg : VoidConfig) (s : Ledger) : VoidLedger :=
  s.ledger.dropVotesBelow (s.count - cfg.capacity)

variable {a b : Ledger}

section

variable (h : a.Alike cfg b)
include h

theorem Ledger.Alike.pruned : Alike cfg ⟨a.current cfg, a.count⟩ ⟨b.current cfg, b.count⟩ where
  __ := h
  votes := by simp only [dropVotesBelow, h.votes, h.count]

/-- Two ledgers that are alike admit the same votes, but for those of a stale reference. -/
theorem Ledger.Alike.admits (hop : NoStaleVote cfg a (.vote voterId index hash)) :
    ((b.current cfg).Admits cfg voterId index hash ↔
      (a.current cfg).Admits cfg voterId index hash) ∧
    ((a.current cfg).Admits cfg voterId index hash →
      b.ledger.window (cfg.slot index) = a.ledger.window (cfg.slot index)) := by
  have hvotes : (b.current cfg).votes = (a.current cfg).votes := h.pruned.votes
  rcases h.window (cfg.slot index) with heq | ⟨hfree, hstale⟩
  · refine ⟨?_, fun _ => heq⟩
    unfold Admits
    rw [holds_iff, holds_iff, hvotes, dropVotesBelow_window, dropVotesBelow_window, heq]
  · have hb : ¬ (b.current cfg).Admits cfg voterId index hash := by
      intro hadm
      obtain ⟨-, hpos, hidx, -⟩ := holds_iff.1 hadm.2.1
      rw [dropVotesBelow_window] at hidx
      omega
    have ha : ¬ (a.current cfg).Admits cfg voterId index hash := by
      intro hadm
      obtain ⟨-, hpos, hidx, -⟩ := holds_iff.1 hadm.2.1
      rw [dropVotesBelow_window] at hidx
      exact hop (by omega) hadm
    exact ⟨iff_of_false hb ha, fun hadm => absurd hadm ha⟩

/-- The same entry put into the same slot of both. -/
theorem Ledger.Alike.update (k : Nat) (e : VoidEntry) (j : Nat) :
    update b.ledger.window k e j = update a.ledger.window k e j ∨
      (update b.ledger.window k e j).index = -1 ∧ ((update a.ledger.window k e j).index = -1 ∨
          (update a.ledger.window k e j).index < a.count - cfg.capacity) := by
  by_cases hj : j = k
  · subst hj
    simp
  · rw [update_of_ne hj, update_of_ne hj]
    exact h.window j

/-- A later count leaves more behind the window, never less. -/
theorem Ledger.Alike.advance (n : Nat) : Alike cfg ⟨a.ledger, a.count + n⟩ ⟨b.ledger, b.count + n⟩ where
  count := by dsimp only; rw [h.count]
  votes := h.votes
  window k := (h.window k).imp_right fun ⟨hb, ha⟩ => ⟨hb, ha.imp_right fun _ => by dsimp only; omega⟩

theorem Ledger.Alike.onReference (id : CanonicalId) (sender : Sender) (nonce : UInt64) :
    Alike cfg ⟨a.ledger.onReference cfg a.count id sender nonce, a.count⟩
      ⟨b.ledger.onReference cfg b.count id sender nonce, b.count⟩ := by
  refine ⟨h.count, by rw [onReference_votes, onReference_votes, h.votes], fun k => ?_⟩
  by_cases hcap : cfg.capacity = 0
  · rw [VoidLedger.onReference, if_pos hcap, VoidLedger.onReference, if_pos hcap]
    exact h.window k
  · rw [onReference_window hcap, onReference_window hcap, h.count]
    exact h.update _ _ k

/-- Alike ledgers that both hold the index void it alike. -/
theorem Ledger.Alike.take {index : Int}
    (hslot : b.ledger.window (cfg.slot index) = a.ledger.window (cfg.slot index)) :
    Alike cfg ⟨{ a.ledger.take cfg index with votes := a.ledger.votes.remove index }, a.count⟩
      ⟨{ b.ledger.take cfg index with votes := b.ledger.votes.remove index }, b.count⟩ := by
  refine ⟨h.count, by dsimp only; rw [h.votes], fun k => ?_⟩
  dsimp only [VoidLedger.take]
  rw [hslot]
  exact h.update _ _ k

/-- **One step.** Alike ledgers answer a step alike, and stay alike, unless it votes for a stale
reference. -/
theorem Ledger.Alike.next {op : LedgerOp} (hop : NoStaleVote cfg a op) :
    (step cfg a op).1.Alike cfg (step cfg b op).1 ∧ (step cfg a op).2 = (step cfg b op).2 := by
  cases op with
  | reference id sender nonce => exact ⟨(h.onReference id sender nonce).advance 1, rfl⟩
  | ordered slots => exact ⟨h.advance slots, rfl⟩
  | vote voterId index hash =>
    obtain ⟨hadm, hslot⟩ := h.admits hop
    have hd := h.pruned
    have hmask : (b.current cfg).maskWith index voterId = (a.current cfg).maskWith index voterId := by
      rw [maskWith, maskWith, hd.votes]
    have hopen : ((b.current cfg).votes.get? index).getD 0 = ((a.current cfg).votes.get? index).getD 0 := by
      rw [hd.votes]
    rw [step, step, onVote_eq, onVote_eq]
    by_cases hA : (a.current cfg).Admits cfg voterId index hash
    swap
    · rw [if_pos hA, if_pos fun hB => hA (hadm.1 hB)]
      exact ⟨hd, rfl⟩
    rw [if_neg (not_not.2 hA), if_neg (not_not.2 (hadm.2 hA)), hmask, hopen]
    by_cases hall : (a.current cfg).maskWith index voterId &&& cfg.voterMask = cfg.voterMask
    · rw [if_pos hall, if_pos hall]
      refine ⟨(hd.take (hslot hA)).advance 1, ?_⟩
      dsimp only [entryAt, dropVotesBelow]
      rw [hslot hA]
    rw [if_neg hall, if_neg hall]
    by_cases hrep : (a.current cfg).maskWith index voterId = ((a.current cfg).votes.get? index).getD 0
    · rw [if_pos hrep, if_pos hrep]
      exact ⟨hd, rfl⟩
    · rw [if_neg hrep, if_neg hrep]
      exact ⟨⟨hd.count, by dsimp only; rw [hd.votes], hd.window⟩, rfl⟩

end

/-- Along the steps `ops`, the two ledgers give the same answers, and a vote for an index below the
window is refused. -/
def AnswerAlike (cfg : VoidConfig) (a b : Ledger) : List LedgerOp → Prop
  | [] => True
  | op :: ops =>
    ((step cfg a op).2 = (step cfg b op).2 ∧
      ∀ voterId index hash, op = .vote voterId index hash → index < a.count - cfg.capacity →
        (step cfg a op).2 = some ⟨.refused, none⟩) ∧
    AnswerAlike cfg (step cfg a op).1 (step cfg b op).1 ops

theorem Ledger.step_vote_refused_iff (s : Ledger) (voterId index : Int) (hash : CanonicalId) :
    (step cfg s (.vote voterId index hash)).2 = some ⟨.refused, none⟩ ↔
      ¬ (s.current cfg).Admits cfg voterId index hash := by
  rw [← onVote_refused_iff, step]
  rcases onVote_cases cfg s.ledger voterId index hash s.count with ⟨-, heq⟩ | ⟨-, -, heq⟩ |
      ⟨-, -, -, heq⟩ | ⟨-, -, -, heq⟩ <;>
    simp [heq]

theorem Ledger.Alike.answerAlike_iff (h : a.Alike cfg b) (ops : List LedgerOp) :
    AnswerAlike cfg a b ops ↔ Guarded (step cfg) (NoStaleVote cfg) a ops := by
  induction ops generalizing a b with
  | nil => exact Iff.rfl
  | cons op ops ih =>
    constructor
    · rintro ⟨⟨-, hbelow⟩, htail⟩
      have hop : NoStaleVote cfg a op := by
        cases op with
        | vote voterId index hash =>
          exact fun hlt => (step_vote_refused_iff a voterId index hash).1
            (hbelow voterId index hash rfl hlt)
        | reference | ordered => trivial
      exact ⟨hop, (ih (h.next hop).1).1 htail⟩
    · rintro ⟨hop, htail⟩
      refine ⟨⟨(h.next hop).2, ?_⟩, (ih (h.next hop).1).2 htail⟩
      rintro voterId index hash rfl hlt
      exact (step_vote_refused_iff a voterId index hash).2 (hop hlt)

/-- **The ledger across a restart.** Every ledger that a run of references, votes and other entries
reaches reads back from its snapshot. From then on the restored ledger and the live one answer every
sequence of steps alike, and refuse the votes below the window, exactly as long as no admitted vote
names a reference that a ring slot still holds below the window. -/
theorem restored_answers_alike_iff (cfg : VoidConfig) (start : Nat) (ops : List LedgerOp)
    (hc : (run (step cfg) ⟨.empty, start⟩ ops).1.count ≤ longMax) :
    ∃ restored, Reads (readFrom cfg) (writeTo cfg (run (step cfg) ⟨.empty, start⟩ ops).1.ledger
          (run (step cfg) ⟨.empty, start⟩ ops).1.count) restored ∧
      ∀ later, AnswerAlike cfg (run (step cfg) ⟨.empty, start⟩ ops).1
          ⟨restored, (run (step cfg) ⟨.empty, start⟩ ops).1.count⟩ later ↔
        Guarded (step cfg) (NoStaleVote cfg) (run (step cfg) ⟨.empty, start⟩ ops).1 later := by
  have hwf : (run (step cfg) ⟨.empty, start⟩ ops).1.WellFormed cfg :=
    run_invariant (P := WellFormed cfg) (wellFormed_empty start) (fun _ op h => h.step op) ops
  obtain ⟨restored, hreads, halike⟩ := reads_ledger hwf hc
  exact ⟨restored, hreads, halike.answerAlike_iff⟩

/-- One voter, 0, and a window of two indices. -/
def oneVoter : VoidConfig := ⟨2, 1, by decide, fun _ => by decide, fun h => absurd h (by decide)⟩

/-- One reference, a restart, and the vote for it. -/
theorem restored_answers_alike_of_one : ∃ restored, Reads (readFrom oneVoter) (writeTo oneVoter
          (run (step oneVoter) ⟨.empty, 0⟩ [.reference 9 7 5]).1.ledger 1) restored ∧
      AnswerAlike oneVoter (run (step oneVoter) ⟨.empty, 0⟩ [.reference 9 7 5]).1
        ⟨restored, 1⟩ [.vote 0 0 9] := by
  obtain ⟨restored, hreads, hiff⟩ :=
    restored_answers_alike_iff oneVoter 0 [.reference 9 7 5] (by decide)
  exact ⟨restored, hreads, (hiff [.vote 0 0 9]).2
    ⟨fun h => absurd h (show ¬ (0 : Int) < 1 - 2 by decide), trivial⟩⟩

/-- A reference at index 0, then three entries that are none: the window is past it, its slot is not.
The live ledger decides the void of index 0; the restored one refuses the vote. -/
theorem stale_reference_is_voided : (step oneVoter
        (run (step oneVoter) ⟨.empty, 0⟩ [.reference 9 7 5, .ordered 3]).1
        (.vote 0 0 9)).2 = some ⟨.decided, some ⟨0, 9, 7, 5⟩⟩ ∧
      (readFrom oneVoter (writeTo oneVoter
          (run (step oneVoter) ⟨.empty, 0⟩ [.reference 9 7 5, .ordered 3]).1.ledger
          4)).toOption.map (fun r => (step oneVoter ⟨r.1, 4⟩ (.vote 0 0 9)).2)
        = some (some ⟨.refused, none⟩) := by
  decide +kernel

end VoidLedger

end Kardamom.Sealer
