import Kardamom.Lib.CallTree
import Kardamom.Reader.Delivery
import Kardamom.Reader.Ordering

/-!
# The reader and the exec thread stay aligned

`render` is what the exec thread owes to one item of the order: one message for each slot. A wait for a void
record moves messages from the subscription to the backlog and nothing else (`VoidPark.run_spec`), so the
backlog and the subscription together are always the rest of the order, also when a wait starts inside the
read-ahead of another. What was sent is then the rendering of the items in front (`Progress`), and each item
moves the count of the exec thread as it moves the cursor of the sealer.
-/

namespace Kardamom.Reader

open Wire List

/-! ## The wait for a void record -/

namespace VoidPark

variable {p p' : VoidPark} {read : BPosition × Ordered}

/-- The messages of the order behind the entry, those that are kept first. -/
def unread (p : VoidPark) : ReadAhead := p.ahead ++ p.backlog ++ p.sub

theorem next_eq_some (h : p.next = some (read, p')) :
    p'.void = p.void ∧ p'.ahead = p.ahead ∧ p.backlog ++ p.sub = read :: (p'.backlog ++ p'.sub) := by
  unfold next at h
  split at h
  next hb =>
    obtain ⟨rfl, rfl⟩ := Prod.mk.inj (Option.some.inj h)
    exact ⟨rfl, rfl, by simp [hb]⟩
  next hb hs =>
    obtain ⟨rfl, rfl⟩ := Prod.mk.inj (Option.some.inj h)
    exact ⟨rfl, rfl, by simp [hb, hs]⟩
  · exact nomatch h

variable {ending : ExecutorError} {outcome : ParkOutcome} {clock : List Bool}

/-- A wait that ends keeps every message in its place, and ends voided only behind the void record. -/
theorem wait_spec (h : wait ending clock p = (p', .ok outcome)) :
    p'.unread = p.unread ∧ (outcome = .voided → ∃ d ∈ p.backlog ++ p.sub, d.2 = .message (.void p.void)) := by
  induction clock generalizing p with
  | nil =>
    obtain ⟨rfl, ho⟩ := Prod.mk.inj h
    exact ⟨rfl, by rintro rfl; simp at ho⟩
  | cons revote clock ih =>
    unfold wait at h
    split at h
    · obtain ⟨rfl, ho⟩ := Prod.mk.inj h
      exact ⟨rfl, by rintro rfl; simp at ho⟩
    · have hvote : ∃ q : VoidPark, (if revote then p.vote else p) = q ∧ q.void = p.void
          ∧ q.ahead = p.ahead ∧ q.backlog = p.backlog ∧ q.sub = p.sub := by
        cases revote <;> exact ⟨_, rfl, rfl, rfl, rfl, rfl⟩
      obtain ⟨q, hq, hvoid, hahead, hbacklog, hsub⟩ := hvote
      dsimp only at h
      rw [hq] at h
      split at h
      · simp at h
      next read p₁ hnext =>
        obtain ⟨hv, ha, hrest⟩ := next_eq_some hnext
        rw [hbacklog, hsub] at hrest
        have hunread : (p₁.keep read).unread = p.unread := by
          simp [unread, keep, ha, hahead, hrest]
        split at h
        next hfound =>
          obtain ⟨rfl, -⟩ := Prod.mk.inj h
          refine ⟨hunread, fun _ => ⟨read, by simp [hrest], ?_⟩⟩
          rw [Ordered.asVoid_eq_some_iff.1 hfound, hvoid]
        next =>
          obtain ⟨hsame, hfound⟩ := ih h
          refine ⟨hsame.trans hunread, fun ho => ?_⟩
          obtain ⟨d, hd, hd2⟩ := hfound ho
          refine ⟨d, ?_, by rw [hd2]; simp [keep, hv, hvoid]⟩
          rw [hrest]
          exact mem_cons_of_mem _ hd

/-- A wait that ends leaves the rest of the order as it was, and ends voided only when the rest carries the
void record. -/
theorem run_spec (hempty : p.ahead = []) (h : p.run ending clock = (p', .ok outcome)) :
    p'.backlog ++ p'.sub = p.backlog ++ p.sub
      ∧ (outcome = .voided → ∃ d ∈ p.backlog ++ p.sub, d.2 = .message (.void p.void)) := by
  unfold run at h
  split at h
  next p₁ o hwait =>
    obtain ⟨hsame, hfound⟩ := wait_spec hwait
    obtain ⟨rfl, ho⟩ := Prod.mk.inj h
    obtain rfl := Except.ok.inj ho
    refine ⟨?_, hfound⟩
    simpa [unread, vote, hempty] using hsame
  next => simp at h

end VoidPark

/-! ## What one item sends -/

section

variable (W : ReaderWorld)

/-- The message of a reference: its transaction, or a vacant slot when it is not joined. -/
def renderEntry (position : BPosition) (r : TxRef) : ReaderToExec :=
  match W.join position with
  | .ok (.joined env) => .tx env position r
  | _ => .vacant position

/-- The messages of one item, one for each slot. -/
def render : BPosition × Ordered → List ReaderToExec
  | (position, .message (.txRef r)) => [renderEntry W position r]
  | (_, .message (.epoch e)) => .epoch e :: e.deposits.map .deposit
  | (_, .message (.remoteEpoch rec)) =>
    .remoteEpoch rec :: rec.messages.toList.map (.xchain rec.originChainId)
  | (position, .message (.void _)) => [.vacant position]
  | (_, .message (.depositRef _)) => []
  | (_, .message (.boundaryStart b)) => [.boundary b]
  | (position, .tx tx) => [.tx tx.envelope position (canonicalTxRef tx)]

/-- An entry that is not joined is voided by a later record of the order. -/
def Voided (rest : ReadAhead) (read : BPosition × Ordered) : Prop :=
  ∀ r, read.2 = .message (.txRef r) → (∀ env, W.join read.1 ≠ .ok (.joined env)) →
    ∃ d ∈ rest, d.2 = .message (.void ⟨read.1.asIndex, r.txHash⟩)

end

namespace TxOrderingReader

variable {W : ReaderWorld} {r : TxOrderingReader} {out : TxOrderingReader × Flow}
  {sent want want' : List ReaderToExec} {rest : ReadAhead} {V : Prop}

/-- A handler sends `want` behind `sent`, or stops inside of it, and leaves the rest of the order; it sends
anything only if `V` holds. -/
def Handles (sent : List ReaderToExec) (rest : ReadAhead) (want : List ReaderToExec) (V : Prop)
    (out : TxOrderingReader × Flow) : Prop :=
  ∃ part, out.1.sent = sent ++ part ∧ part <+: want ∧ (part ≠ [] → V)
    ∧ (out.2 = .proceed → part = want ∧ out.1.backlog ++ out.1.sub = rest)

theorem handles_nothing (hsent : out.1.sent = sent) (hflow : out.2 ≠ .proceed) :
    Handles sent rest want V out :=
  ⟨[], by simpa using hsent, nil_prefix, nofun, fun h => absurd h hflow⟩

theorem handles_send (hV : V) (msg : ReaderToExec) :
    Handles r.sent (r.backlog ++ r.sub) [msg] V (r.send msg) := by
  unfold send
  split
  · exact handles_nothing rfl nofun
  · exact ⟨[msg], rfl, prefix_rfl, fun _ => hV, fun _ => ⟨rfl, rfl⟩⟩

theorem handles_stream (item : ExecStreamItem) :
    Handles r.sent (r.backlog ++ r.sub) [] V (r.stream item) := by
  unfold stream
  split
  · exact handles_nothing rfl nofun
  · exact ⟨[], by simp, prefix_rfl, nofun, fun _ => ⟨rfl, rfl⟩⟩

theorem Handles.andThen (h : Handles sent rest want V out)
    {f : TxOrderingReader → TxOrderingReader × Flow}
    (hf : ∀ r : TxOrderingReader, Handles r.sent (r.backlog ++ r.sub) want' V (f r)) :
    Handles sent rest (want ++ want') V (andThen out f) := by
  obtain ⟨part, hsent, hpart, hV, hproceed⟩ := h
  unfold TxOrderingReader.andThen
  split
  next hflow =>
    obtain ⟨rfl, hrest⟩ := hproceed hflow
    obtain ⟨part', hsent', hpart', hV', hproceed'⟩ := hf out.1
    refine ⟨part ++ part', by rw [hsent', hsent, append_assoc],
      (prefix_append_right_inj part).2 hpart', fun hne => ?_, fun h => ?_⟩
    · by_cases hnil : part = []
      · exact hV' (by simpa [hnil] using hne)
      · exact hV hnil
    · obtain ⟨rfl, hrest'⟩ := hproceed' h
      exact ⟨rfl, hrest'.trans hrest⟩
  next hflow =>
    exact ⟨part, hsent, hpart.trans (prefix_append ..), hV, fun h => absurd h (by simpa using hflow)⟩

theorem handles_sendJoined (hV : V) (position : BPosition) (txRef : TxRef) (env : TxEnvelope) :
    Handles r.sent (r.backlog ++ r.sub) [.tx env position txRef] V
      (r.sendJoined position txRef env) :=
  (handles_stream _).andThen fun _ => handles_send hV _

theorem handles_sendExpanded (hV : V) (msgs : List ReaderToExec) :
    Handles r.sent (r.backlog ++ r.sub) msgs V (r.sendExpanded msgs) := by
  induction msgs generalizing r with
  | nil => exact ⟨[], by simp [sendExpanded], prefix_rfl, nofun, fun _ => ⟨rfl, rfl⟩⟩
  | cons msg msgs ih => exact (handles_send hV msg).andThen fun _ => ih

section

variable (txRef : TxRef) (position : BPosition)

theorem handles_onUnjoinable :
    Handles r.sent (r.backlog ++ r.sub) [.vacant position]
      (∃ d ∈ r.backlog ++ r.sub, d.2 = .message (.void ⟨position.asIndex, txRef.txHash⟩))
      (r.onUnjoinable W txRef position) := by
  unfold onUnjoinable
  split
  · exact handles_nothing rfl nofun
  · dsimp only
    split
    next p hrun =>
      obtain ⟨hrest, hfound⟩ := VoidPark.run_spec rfl hrun
      rw [← hrest]
      exact handles_send (by rw [hrest]; exact hfound rfl) _
    · exact handles_nothing rfl nofun
    · exact handles_nothing rfl nofun
    · exact handles_nothing rfl nofun

theorem handles_onTxRef :
    Handles r.sent (r.backlog ++ r.sub) [renderEntry W position txRef]
      (Voided W (r.backlog ++ r.sub) (position, .message (.txRef txRef))) (r.onTxRef W txRef position) := by
  unfold onTxRef renderEntry
  cases hjoin : W.join position with
  | error e => exact handles_nothing rfl nofun
  | ok outcome =>
    cases outcome with
    | joined env => exact handles_sendJoined (fun _ _ hno => absurd hjoin (hno env)) ..
    | unjoinable =>
      obtain ⟨part, hsent, hpart, hV, hproceed⟩ := handles_onUnjoinable txRef position
      refine ⟨part, hsent, hpart, fun hne r' heq _ => ?_, hproceed⟩
      obtain rfl : txRef = r' := by simpa using heq
      exact hV hne
    | timedOut => exact handles_nothing rfl nofun

end

theorem handles_onVoid (hV : V) (void : VoidRecord) (position : BPosition) :
    Handles r.sent (r.backlog ++ r.sub) [.vacant position] V (r.onVoid void position) := by
  unfold onVoid
  split
  · exact handles_nothing rfl nofun
  · exact handles_send hV _

theorem handles_dispatch (read : BPosition × Ordered) :
    Handles r.sent (r.backlog ++ r.sub) (render W read) (Voided W (r.backlog ++ r.sub) read)
      (r.dispatch W read.1 read.2) := by
  obtain ⟨position, x⟩ := read
  -- only a reference can be voided
  have hother : (∀ txRef, x ≠ .message (.txRef txRef)) → Voided W (r.backlog ++ r.sub) (position, x) :=
    fun hne txRef heq => absurd heq (hne txRef)
  match x with
  | .message (.txRef txRef) => exact handles_onTxRef txRef position
  | .message (.epoch e) => exact handles_sendExpanded (hother nofun) _
  | .message (.remoteEpoch rec) => exact handles_sendExpanded (hother nofun) _
  | .message (.void v) => exact handles_onVoid (hother nofun) v position
  | .message (.depositRef d) => exact handles_nothing rfl nofun
  | .message (.boundaryStart b) => exact handles_send (hother nofun) _
  | .tx tx => exact handles_sendJoined (hother nofun) ..

theorem handles_mark (r : TxOrderingReader) (through : Option UInt64) :
    Handles r.sent (r.backlog ++ r.sub) [] V (r.mark through) := by
  cases through with
  | none => exact ⟨[], by simp [mark], prefix_rfl, nofun, fun _ => ⟨rfl, rfl⟩⟩
  | some t => exact handles_stream _

theorem handles_handle (read : BPosition × Ordered) :
    Handles r.sent (r.backlog ++ r.sub) (render W read) (Voided W (r.backlog ++ r.sub) read)
      (r.handle W read) := by
  have hdispatch := handles_dispatch (W := W)
    (r := { r with firstIndex := some (r.firstIndex.getD read.1.asIndex) }) read
  have h := hdispatch.andThen fun r => handles_mark r (lastSlot read.1 read.2)
  rwa [append_nil] at h

end TxOrderingReader

/-! ## What one item counts -/

namespace ExecCount

theorem receiveAll_append (next : Nat) (msgs msgs' : List ReaderToExec) :
    receiveAll next (msgs ++ msgs') = receiveAll next msgs >>= fun next => receiveAll next msgs' :=
  foldlM_append ..

/-- Messages that are no boundaries count one slot each. -/
theorem receiveAll_slots {msgs : List ReaderToExec} (h : ∀ msg ∈ msgs, ∀ b, msg ≠ .boundary b) (next : Nat)
    (hfits : next + msgs.length < 2 ^ 64) : receiveAll next msgs = .ok (next + msgs.length) := by
  induction msgs generalizing next with
  | nil => rfl
  | cons msg msgs ih =>
    rw [length_cons] at hfits
    have hmsg : receive next msg = .ok (next + 1) := by
      have hno := h msg mem_cons_self
      cases msg with
      | boundary b => exact absurd rfl (hno b)
      | _ => exact if_pos (by omega)
    have hrest := ih (fun m hm => h m (mem_cons_of_mem _ hm)) (next + 1) (by omega)
    unfold receiveAll at hrest ⊢
    rw [foldlM_cons, hmsg, length_cons]
    show List.foldlM receive (next + 1) msgs = _
    rw [hrest, Nat.add_assoc, Nat.add_comm 1]

theorem receiveAll_of_prefix {part want : List ReaderToExec} {next m : Nat} (hpart : part <+: want)
    (h : receiveAll next want = .ok m) : ∃ m', receiveAll next part = .ok m' := by
  obtain ⟨rest, rfl⟩ := hpart
  rw [receiveAll_append] at h
  obtain ⟨m', hm', -⟩ := Except.bind_eq_ok_iff.1 h
  exact ⟨m', hm'⟩

/-- The messages of an item move the count as the item moves the cursor of the sealer. -/
theorem receiveAll_render (W : ReaderWorld) {c : ReplayCursor} {x : Ordered} (h : c.Emits x)
    (hx : ∀ d, x ≠ .message (.depositRef d)) (position : BPosition) :
    receiveAll c.nextIndex (render W (position, x)) = .ok (c.after x).nextIndex := by
  -- an item that is no boundary: as many messages as slots, none of them a boundary
  have hslots : x.asBoundary = none → (render W (position, x)).length = x.slots →
      (∀ msg ∈ render W (position, x), ∀ b, msg ≠ .boundary b) →
      receiveAll c.nextIndex (render W (position, x)) = .ok (c.after x).nextIndex := by
    intro hrec hlen hno
    have hlt := h.index_lt
    rw [ReplayCursor.after_of_record hrec] at hlt ⊢
    dsimp only at hlt ⊢
    rw [receiveAll_slots hno _ (by omega), hlen]
  match x with
  | .message (.txRef r) =>
    refine hslots rfl rfl fun msg hmsg b => ?_
    obtain rfl := mem_singleton.1 hmsg
    unfold renderEntry
    split <;> exact nofun
  | .message (.epoch e) =>
    refine hslots rfl (by simp [render, Ordered.slots, epochSlots, Nat.add_comm]) ?_
    simp [render]
  | .message (.remoteEpoch rec) =>
    have hlt : c.nextIndex + remoteEpochSlots rec < 2 ^ 63 := h.index_lt
    refine hslots rfl ?_ (by simp [render])
    unfold remoteEpochSlots at hlt
    simp only [render, Ordered.slots, remoteEpochSlots, length_cons, length_map]
    omega
  | .message (.void v) => exact hslots rfl rfl (by simp [render])
  | .message (.depositRef d) => exact absurd rfl (hx d)
  | .message (.boundaryStart b) =>
    obtain ⟨-, hend⟩ := h.boundary b rfl
    show (receive c.nextIndex (.boundary b) >>= fun next => .ok next) = _
    simp only [receive, checkAlignment, if_pos hend]
    rfl
  | .tx tx => exact hslots rfl rfl (by simp [render])

end ExecCount

end Kardamom.Reader
