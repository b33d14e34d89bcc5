import Kardamom.Reader.Alignment
import Mathlib.Tactic.IntervalCases

/-!
# Runs of the ordering reader

Every step of the loop dispatches the next item of the order, whatever the joins answer and however many
voided entries wait at once, or the reader stops at that item. A reader whose entries are each joined or
voided in time never stops at one.
-/

namespace Kardamom.Reader

open Wire VoidPark ExecCount List Option TxOrderingReader List Nat

/-- The items from a place on, as the subscription yields them. -/
def Emission.ordered (E : Emission) (place : Nat) : ReadAhead := E.deliveries.drop place

namespace TxOrderingReader

variable {E : Emission} {W : ReaderWorld} {place k : Nat} {r : TxOrderingReader}

theorem getElem?_ordered {d : BPosition × Ordered} (h : (E.ordered place)[k]? = some d) :
    E.items[place + k]? = some d.2 := by
  unfold Emission.ordered at h
  rw [getElem?_drop, Session.getElem?_deliveries] at h
  obtain ⟨x, hx, rfl⟩ := map_eq_some_iff.1 h
  exact hx

/-- The first `k` items are dispatched, the others are still to read, and the exec thread stands where the
sealer stood behind them. -/
structure Progress (E : Emission) (W : ReaderWorld) (place k : Nat) (r : TxOrderingReader) : Prop where
  sent : r.sent = ((E.ordered place).take k).flatMap (render W)
  rest : r.backlog ++ r.sub = (E.ordered place).drop k
  voided : ∀ j d, j < k → (E.ordered place)[j]? = some d → Voided W ((E.ordered place).drop (j + 1)) d
  counted : receiveAll (E.cursor place).nextIndex r.sent = .ok (E.cursor (place + k)).nextIndex

/-- The reader sent the items in front of `k` and `part` of the item there. -/
structure Dispatched (E : Emission) (W : ReaderWorld) (place k : Nat) (part : List ReaderToExec)
    (r : TxOrderingReader) : Prop where
  sent : r.sent = ((E.ordered place).take k).flatMap (render W) ++ part
  part_prefix : part <+: (E.ordered place)[k]?.toList.flatMap (render W)
  voided : ∀ j d, (E.ordered place)[j]? = some d → j < k ∨ j = k ∧ part ≠ [] →
    Voided W ((E.ordered place).drop (j + 1)) d
  counted : ∃ next, receiveAll (E.cursor place).nextIndex r.sent = .ok next

theorem Progress.dispatched (h : Progress E W place k r) : Dispatched E W place k [] r where
  sent := by simpa using h.sent
  part_prefix := nil_prefix
  voided j d hd hj := h.voided j d (by simpa using hj) hd
  counted := ⟨_, h.counted⟩

/-- The item that a list goes on with is the item of its place. -/
theorem of_drop_eq_cons {α : Type*} {xs rest : List α} {x : α} (h : xs.drop k = x :: rest) :
    xs[k]? = some x ∧ xs.drop (k + 1) = rest := by
  constructor
  · rw [← head?_drop, h]
    rfl
  · rw [← tail_drop, h]
    rfl

/-- A step reads the next item of the order, or finds the subscription at its end. -/
theorem step_cases (W : ReaderWorld) (r : TxOrderingReader) :
    (r.backlog ++ r.sub = [] ∧ r.step W = (r, if W.ending = .txOrderingClosed then .stop else .fail W.ending))
    ∨ ∃ read r', r.backlog ++ r.sub = read :: (r'.backlog ++ r'.sub) ∧ r.step W = handle W r' read
        ∧ r' = { r with backlog := r'.backlog, sub := r'.sub } := by
  unfold step
  split
  next hb => exact .inr ⟨_, _, by simp [hb], rfl, rfl⟩
  next hb hs => exact .inr ⟨_, _, by simp [hb, hs], rfl, by simp [hb]⟩
  next hb hs => exact .inl ⟨by simp [hb, hs], rfl⟩

variable {read : BPosition × Ordered}

/-- A handler that goes on was not asked for a legacy deposit reference. -/
theorem handle_proceed (h : (r.handle W read).2 = .proceed) : ∀ d, read.2 ≠ .message (.depositRef d) := by
  rintro d hd
  obtain ⟨position, x⟩ := read
  obtain rfl : x = .message (.depositRef d) := hd
  exact nomatch h

section

variable (h : Progress E W place k r)
include h

/-- The next item moves the count of the exec thread to where it moves the sealer. -/
theorem Progress.count
    (hk : (E.ordered place)[k]? = some read) (hno : ∀ d, read.2 ≠ .message (.depositRef d)) :
    receiveAll (E.cursor place).nextIndex
      (((E.ordered place).take k).flatMap (render W) ++ render W read)
      = .ok (E.cursor (place + (k + 1))).nextIndex := by
  have hitem := getElem?_ordered hk
  rw [receiveAll_append, ← h.sent, Except.bind_of_eq_ok h.counted,
    receiveAll_render W (E.emits_at hitem) hno, ← E.cursor_succ hitem, Nat.add_assoc]

theorem Progress.step :
    (∃ part, Dispatched E W place k part (r.step W).1)
      ∧ ((r.step W).2 = .proceed → Progress E W place (k + 1) (r.step W).1) := by
  obtain ⟨-, hstep⟩ | ⟨read, r', hread, hstep, hr'⟩ := step_cases W r
  · rw [hstep]
    refine ⟨⟨[], h.dispatched⟩, fun hflow => ?_⟩
    split at hflow <;> exact nomatch hflow
  · have hsent : r'.sent = r.sent := by rw [hr']
    obtain ⟨hk, hdrop⟩ := of_drop_eq_cons (h.rest.symm.trans hread)
    obtain ⟨part, hout, hpart, hV, hproceed⟩ := handles_handle read
    rw [hsent, h.sent] at hout
    rw [hstep]
    constructor
    · refine ⟨part, hout, ?_, fun j d hd hj => ?_, ?_⟩
      · simpa [hk] using hpart
      · rcases hj with hlt | ⟨rfl, hne⟩
        · exact h.voided j d hlt hd
        · obtain rfl := some.inj (hk.symm.trans hd)
          rw [hdrop]
          exact hV hne
      · rw [hout]
        by_cases hno : ∀ d, read.2 ≠ .message (.depositRef d)
        · exact receiveAll_of_prefix ((prefix_append_right_inj _).2 hpart) (h.count hk hno)
        · -- a legacy reference sends nothing
          push Not at hno
          obtain ⟨d, hd⟩ := hno
          obtain rfl : part = [] := by
            obtain ⟨position, x⟩ := read
            obtain rfl : x = .message (.depositRef d) := hd
            exact prefix_nil.1 hpart
          rw [append_nil, ← h.sent]
          exact ⟨_, h.counted⟩
    · intro hflow
      obtain ⟨rfl, hrest⟩ := hproceed hflow
      have hno := handle_proceed hflow
      refine ⟨?_, hrest.trans hdrop.symm, fun j d hj hd => ?_, ?_⟩
      · rw [hout, take_add_one, hk]
        simp
      · rcases Nat.lt_succ_iff_lt_or_eq.1 hj with hlt | rfl
        · exact h.voided j d hlt hd
        · obtain rfl := some.inj (hk.symm.trans hd)
          rw [hdrop]
          intro txRef heq hjoin
          -- the rendering of a reference is not empty
          refine hV ?_ txRef heq hjoin
          obtain ⟨position, x⟩ := read
          obtain rfl : x = .message (.txRef txRef) := heq
          exact cons_ne_nil _ _
      · rw [hout]
        exact h.count hk hno

theorem Progress.runSteps (n : Nat) :
    (∃ k' part, Dispatched E W place k' part (runSteps W n r).1)
      ∧ ((runSteps W n r).2 = .proceed → Progress E W place (k + n) (runSteps W n r).1) := by
  induction n generalizing k r with
  | zero => exact ⟨⟨k, [], h.dispatched⟩, fun _ => h⟩
  | succ n ih =>
    obtain ⟨⟨part, hpart⟩, hnext⟩ := h.step
    unfold runSteps andThen
    split
    next hflow =>
      rw [show k + (n + 1) = k + 1 + n by omega]
      exact ih (hnext hflow)
    next hflow => exact ⟨⟨k, part, hpart⟩, fun h => absurd h (by simpa using hflow)⟩

end

/-! ## A reader that is answered -/

/-- The reference at a place of the order. -/
def EntryAt (items : ReadAhead) (k : Nat) (q : BPosition) (t : TxRef) : Prop :=
  items[k]? = some (q, .message (.txRef t))

/-- The void record at a place of the order. -/
def VoidAt (items : ReadAhead) (k : Nat) (v : VoidRecord) : Prop :=
  ∃ q, items[k]? = some (q, .message (.void v))

/-- Every entry is joined, or it is refused and the order carries its void record within the read-ahead and
the wait; every void record is the one of such an entry, or of an entry before the first item. -/
structure Answered (W : ReaderWorld) (items : ReadAhead) : Prop where
  noDepositRef : ∀ read ∈ items, ∀ d, read.2 ≠ .message (.depositRef d)
  entries : ∀ k q t, EntryAt items k q t → (∃ env, W.join q = .ok (.joined env))
    ∨ W.join q = .ok .unjoinable ∧ ∃ d, VoidAt items (k + 1 + d) ⟨q.asIndex, t.txHash⟩
        ∧ d < maxReadAhead ∧ d < (W.clock q).length
  voids : ∀ k v, VoidAt items k v → (∃ first, items.head? = some first ∧ v.index < first.1.asIndex)
    ∨ ∃ j q t, j < k ∧ EntryAt items j q t ∧ q.asIndex = v.index ∧ W.join q = .ok .unjoinable
  once : ∀ j k v v', VoidAt items j v → VoidAt items k v' → v.index = v'.index → j = k

variable {clock : List Bool} {d : Nat}

section

variable {p : VoidPark} {q : BPosition} (ending : ExecutorError)

/-- A void record within the bound and the wait ends the wait. -/
theorem VoidPark.exists_wait_voided
    (hd : (p.backlog ++ p.sub)[d]? = some (q, .message (.void p.void)))
    (hbound : p.ahead.length + d < maxReadAhead) (hclock : d < clock.length) :
    ∃ p', wait ending clock p = (p', .ok .voided) := by
  induction clock generalizing p d with
  | nil => exact absurd hclock (Nat.not_lt_zero _)
  | cons revote clock ih =>
    have hvote : ∃ q : VoidPark, (if revote then p.vote else p) = q ∧ q.void = p.void
        ∧ q.ahead = p.ahead ∧ q.backlog = p.backlog ∧ q.sub = p.sub := by
      cases revote <;> exact ⟨_, rfl, rfl, rfl, rfl, rfl⟩
    obtain ⟨p₀, hp₀, hvoid, hahead, hbacklog, hsub⟩ := hvote
    unfold wait
    rw [if_neg (by omega)]
    dsimp only
    rw [hp₀]
    rw [← hbacklog, ← hsub] at hd
    cases hnext : p₀.next with
    | none =>
      unfold VoidPark.next at hnext
      split at hnext
      · cases hnext
      · cases hnext
      next hb hs => simp [hb, hs] at hd
    | some out =>
      obtain ⟨read, p₁⟩ := out
      obtain ⟨hv, ha, hrest⟩ := next_eq_some hnext
      dsimp only
      split
      · exact ⟨_, rfl⟩
      next hno =>
        rw [hrest] at hd
        cases d with
        | zero =>
          obtain rfl := some.inj hd
          exact absurd (congrArg some hvoid.symm) hno
        | succ d =>
          refine ih ?_ ?_ (lt_of_succ_lt_succ hclock)
          · simpa [keep, hv, hvoid] using hd
          · simp [keep, ha, hahead]
            omega

theorem VoidPark.exists_run_voided (hempty : p.ahead = [])
    (hd : (p.backlog ++ p.sub)[d]? = some (q, .message (.void p.void)))
    (hbound : d < maxReadAhead) (hclock : d < clock.length) :
    ∃ p', p.run ending clock = (p', .ok .voided) := by
  obtain ⟨p', hp'⟩ := exists_wait_voided (p := p.vote) ending hd
    (by simpa [vote, hempty] using hbound) hclock
  unfold run
  rw [hp']
  exact ⟨_, rfl⟩

end

/-- A voter whose sinks stay. -/
structure Open (r : TxOrderingReader) : Prop where
  voter : r.voterId.isSome
  exec : r.execRoom = none
  stream : r.streamRoom = none

/-- The handler goes on, with this set of dropped entries. -/
structure Goes (r : TxOrderingReader) (dropped : Finset UInt64) (out : TxOrderingReader × Flow) : Prop where
  flow : out.2 = .proceed
  opened : Open out.1
  first : out.1.firstIndex = r.firstIndex
  dropped : out.1.dropped = dropped

theorem goes_send (h : Open r) (msg : ReaderToExec) : Goes r r.dropped (r.send msg) := by
  unfold send
  rw [h.exec]
  exact ⟨rfl, ⟨h.voter, rfl, h.stream⟩, rfl, rfl⟩

theorem goes_stream (h : Open r) (item : ExecStreamItem) : Goes r r.dropped (r.stream item) := by
  unfold stream
  rw [h.stream]
  exact ⟨rfl, ⟨h.voter, h.exec, rfl⟩, rfl, rfl⟩

theorem Goes.andThen {dropped : Finset UInt64} {out : TxOrderingReader × Flow}
    {f : TxOrderingReader → TxOrderingReader × Flow} (h : Goes r dropped out)
    (hf : ∀ r : TxOrderingReader, Open r → Goes r r.dropped (f r)) : Goes r dropped (andThen out f) := by
  unfold TxOrderingReader.andThen
  rw [h.flow]
  have hnext := hf out.1 h.opened
  exact ⟨hnext.flow, hnext.opened, hnext.first.trans h.first, hnext.dropped.trans h.dropped⟩

theorem goes_sendJoined (h : Open r) (position : BPosition) (txRef : TxRef) (env : TxEnvelope) :
    Goes r r.dropped (r.sendJoined position txRef env) :=
  (goes_stream h _).andThen fun _ h => goes_send h _

theorem goes_sendExpanded (h : Open r) (msgs : List ReaderToExec) :
    Goes r r.dropped (r.sendExpanded msgs) := by
  induction msgs generalizing r with
  | nil => exact ⟨rfl, h, rfl, rfl⟩
  | cons msg msgs ih => exact (goes_send h msg).andThen fun _ h => ih h

theorem goes_mark (h : Open r) (through : Option UInt64) : Goes r r.dropped (r.mark through) := by
  cases through with
  | none => exact ⟨rfl, h, rfl, rfl⟩
  | some t => exact goes_stream h _

variable {position : BPosition}

theorem goes_onUnjoinable (h : Open r) {txRef : TxRef}
    (hd : VoidAt (r.backlog ++ r.sub) d ⟨position.asIndex, txRef.txHash⟩) (hbound : d < maxReadAhead)
    (hclock : d < (W.clock position).length) :
    Goes r (insert position.asIndex r.dropped) (r.onUnjoinable W txRef position) := by
  obtain ⟨q, hq⟩ := hd
  obtain ⟨voterId, hvoter⟩ := isSome_iff_exists.1 h.voter
  unfold onUnjoinable
  rw [hvoter]
  dsimp only
  obtain ⟨p', hp'⟩ := VoidPark.exists_run_voided
    (p := ⟨r.sub, r.backlog, voterId, ⟨position.asIndex, txRef.txHash⟩, [], r.votes⟩) W.ending
    rfl hq hbound hclock
  rw [hp']
  have hopen : Open { r.parked p' with dropped := insert position.asIndex r.dropped } := { h with }
  exact { goes_send hopen (.vacant position) with }

theorem goes_onVoid (h : Open r) {void : VoidRecord}
    (hvoid : void.index ∈ r.dropped ∨ r.firstIndex.any (void.index < ·)) :
    Goes r (r.dropped.erase void.index) (r.onVoid void position) := by
  unfold onVoid
  rw [if_neg (by tauto)]
  have hopen : Open { r with dropped := r.dropped.erase void.index } := { h with }
  exact { goes_send hopen (.vacant position) with }

/-- The reader goes on, knows its first index, and holds each refused entry as dropped until its void record
is dispatched. -/
structure Tracks (W : ReaderWorld) (items : ReadAhead) (k : Nat) (r : TxOrderingReader) : Prop where
  opened : Open r
  first : r.firstIndex = if k = 0 then none else items.head?.map fun read => read.1.asIndex
  dropped : ∀ j q t, j < k → EntryAt items j q t → W.join q = .ok .unjoinable →
    q.asIndex ∈ r.dropped ∨ ∃ i v, i < k ∧ VoidAt items i v ∧ v.index = q.asIndex

/-- The set of dropped entries after the item at `k` still tracks. -/
def StillDropped (W : ReaderWorld) (items : ReadAhead) (k : Nat) (dropped dropped' : Finset UInt64) : Prop :=
  (∀ i ∈ dropped, i ∈ dropped' ∨ ∃ v, VoidAt items k v ∧ v.index = i)
    ∧ ∀ q t, EntryAt items k q t → W.join q = .ok .unjoinable → q.asIndex ∈ dropped'

variable {items : ReadAhead}

theorem StillDropped.of_other
    (hk : items[k]? = some read) (hother : ∀ t, read.2 ≠ .message (.txRef t)) (dropped : Finset UInt64) :
    StillDropped W items k dropped dropped := by
  refine ⟨fun i hi => .inl hi, fun q t ht _ => ?_⟩
  obtain rfl := some.inj (hk.symm.trans ht)
  exact absurd rfl (hother t)

/-- Where every entry is answered, every item is dispatched. -/
theorem goes_dispatch (hA : Answered W items)
    (hk : items[k]? = some read) (hrest : r.backlog ++ r.sub = items.drop (k + 1)) (hopen : Open r)
    (hfirst : r.firstIndex = items.head?.map fun read => read.1.asIndex)
    (hdropped : ∀ j q t, j < k → EntryAt items j q t → W.join q = .ok .unjoinable →
      q.asIndex ∈ r.dropped ∨ ∃ i v, i < k ∧ VoidAt items i v ∧ v.index = q.asIndex) :
    ∃ dropped', Goes r dropped' (r.dispatch W read.1 read.2)
      ∧ StillDropped W items k r.dropped dropped' := by
  obtain ⟨position, x⟩ := read
  match x with
  | .message (.txRef t) =>
    rcases hA.entries k position t hk with ⟨env, hjoin⟩ | ⟨hjoin, d, hvoid, hbound, hclock⟩
    · refine ⟨r.dropped, ?_, fun i hi => .inl hi, fun q t' ht hno => ?_⟩
      · show Goes r r.dropped (r.onTxRef W t position)
        unfold onTxRef
        rw [hjoin]
        exact goes_sendJoined hopen ..
      · obtain ⟨rfl, -⟩ := Prod.mk.inj (some.inj (hk.symm.trans ht))
        simp [hjoin] at hno
    · refine ⟨insert position.asIndex r.dropped, ?_, fun i hi => .inl (Finset.mem_insert_of_mem hi),
        fun q t' ht _ => ?_⟩
      · show Goes r _ (r.onTxRef W t position)
        unfold onTxRef
        rw [hjoin]
        refine goes_onUnjoinable hopen ?_ hbound hclock
        rw [hrest]
        obtain ⟨q, hq⟩ := hvoid
        exact ⟨q, by rwa [getElem?_drop]⟩
      · obtain ⟨rfl, -⟩ := Prod.mk.inj (some.inj (hk.symm.trans ht))
        exact Finset.mem_insert_self ..
  | .message (.epoch e) => exact ⟨_, goes_sendExpanded hopen _, .of_other hk nofun _⟩
  | .message (.remoteEpoch rec) => exact ⟨_, goes_sendExpanded hopen _, .of_other hk nofun _⟩
  | .message (.void v) =>
    refine ⟨r.dropped.erase v.index, goes_onVoid hopen ?_, fun i hi => ?_, fun q t ht _ => ?_⟩
    · -- the entry is before the first item, or it is dropped and this is its one void record
      rcases hA.voids k v ⟨position, hk⟩ with ⟨first, hhead, hlt⟩ | ⟨j, q, t, hj, hentry, hindex, hjoin⟩
      · refine .inr ?_
        rw [hfirst, hhead]
        simpa using hlt
      · refine .inl ?_
        rcases hdropped j q t hj hentry hjoin with hmem | ⟨i, v', hi, hvoid, hv'⟩
        · rwa [← hindex]
        · have := hA.once i k v' v hvoid ⟨position, hk⟩ (hv'.trans hindex)
          omega
    · by_cases heq : i = v.index
      · exact .inr ⟨v, ⟨position, hk⟩, heq.symm⟩
      · exact .inl (Finset.mem_erase.2 ⟨heq, hi⟩)
    · exact nomatch hk.symm.trans ht
  | .message (.depositRef d) => exact absurd rfl (hA.noDepositRef _ (mem_of_getElem? hk) d)
  | .message (.boundaryStart b) => exact ⟨_, goes_send hopen _, .of_other hk nofun _⟩
  | .tx tx => exact ⟨_, goes_sendJoined hopen .., .of_other hk nofun _⟩

section

variable (hA : Answered W (E.ordered place)) (hp : Progress E W place k r)
  (h : Tracks W (E.ordered place) k r)
include hA hp h

theorem Tracks.step (hk : k < (E.ordered place).length) :
    (r.step W).2 = .proceed ∧ Tracks W (E.ordered place) (k + 1) (r.step W).1 := by
  obtain ⟨hend, -⟩ | ⟨read, r', hread, hstep, hr'⟩ := step_cases W r
  · rw [hp.rest, drop_eq_nil_iff] at hend
    omega
  · obtain ⟨hitem, hdrop⟩ := of_drop_eq_cons (hp.rest.symm.trans hread)
    have hfirst : some (r'.firstIndex.getD read.1.asIndex)
        = (E.ordered place).head?.map fun read => read.1.asIndex := by
      have : r'.firstIndex = r.firstIndex := by rw [hr']
      rw [this, h.first]
      split
      next hzero =>
        subst hzero
        rw [head?_eq_getElem?, hitem]
        rfl
      next =>
        rw [head?_eq_getElem?, getElem?_eq_getElem (by omega)]
        rfl
    obtain ⟨dropped', hgoes, hstill⟩ := goes_dispatch
      (r := { r' with firstIndex := some (r'.firstIndex.getD read.1.asIndex) }) hA hitem hdrop.symm
      (by rw [hr']; exact ⟨h.opened.voter, h.opened.exec, h.opened.stream⟩) hfirst
      (by rw [hr']; exact h.dropped)
    have hall := hgoes.andThen fun r hr => goes_mark hr (lastSlot read.1 read.2)
    rw [hstep]
    refine ⟨hall.flow, hall.opened, ?_, fun j q t hj ht hjoin => ?_⟩
    · rw [if_neg (succ_ne_zero k), ← hfirst]
      exact hall.first
    · rw [show (handle W r' read).1.dropped = dropped' from hall.dropped]
      rcases Nat.lt_succ_iff_lt_or_eq.1 hj with hlt | rfl
      · rcases h.dropped j q t hlt ht hjoin with hmem | ⟨i, v, hi, hv⟩
        · have hmem' : q.asIndex ∈ r'.dropped := by rwa [hr']
          rcases hstill.1 _ hmem' with hkeep | ⟨v, hv, hindex⟩
          · exact .inl hkeep
          · exact .inr ⟨k, v, lt_succ_self k, hv, hindex⟩
        · exact .inr ⟨i, v, lt_succ_of_lt hi, hv⟩
      · exact .inl (hstill.2 q t ht hjoin)

theorem Tracks.runSteps {n : Nat} (hn : k + n ≤ (E.ordered place).length) :
    (runSteps W n r).2 = .proceed := by
  induction n generalizing k r with
  | zero => rfl
  | succ n ih =>
    obtain ⟨hflow, hnext⟩ := Tracks.step hA hp h (by omega)
    unfold runSteps andThen
    rw [hflow]
    exact ih (hp.step.2 hflow) hnext (by omega)

end

end TxOrderingReader

end Kardamom.Reader
