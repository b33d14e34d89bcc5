import Kardamom.Lib.KeyedBuffer
import Kardamom.Reader.Reorder

/-!
# The reader delivers the canonical order

A session of the reader with the sources of one emission: frames arrive, a new session or a new request
starts a replay, the marker of a head ends it. The pending set holds exactly what arrived at or behind the
place of delivery (`Buffered`), so the boundary of the open block stands right behind the records that are
still owed to it. While the source delivers in order, every boundary directly in front of an arrived record
has arrived (`Preceded`), and then a boundary that is absent is a future one.
-/

namespace Kardamom.Reader

open Wire KeyedBuffer Emission Machine Reorder Ordered List Prod Option ReplayCursor

namespace Emission

variable (E : Emission)

/-- The position that the item `x` at place `k` is delivered with. -/
def positionOf (k : Nat) (x : Ordered) : BPosition :=
  match x.asBoundary with
  | some b => b.endTxIdx
  | none => .fromIndex (.ofNat (E.cursor k).nextIndex)

/-- The items with their positions, in the canonical order. -/
def deliveries : List (BPosition × Ordered) := E.items.mapIdx fun k x => (E.positionOf k x, x)

/-- The record at a place, under its canonical index. -/
def recordAt (k : Nat) : Option (Nat × Ordered) :=
  (E.items[k]?.filter fun x => !x.isBoundary).map fun x => ((E.cursor k).nextIndex, x)

/-- The boundary at a place, under its block number. -/
def boundaryAt (k : Nat) : Option (Nat × BlockBoundaryStart) :=
  (E.items[k]?.bind asBoundary).map fun b => ((E.cursor k).nextBlock, b)

variable {E} {k i : Nat} {x : Ordered} {b : BlockBoundaryStart}

theorem recordAt_eq_some_iff : E.recordAt k = some (i, x)
      ↔ E.items[k]? = some x ∧ x.asBoundary = none ∧ (E.cursor k).nextIndex = i := by
  simp [recordAt, isBoundary, and_assoc]

theorem boundaryAt_eq_some_iff : E.boundaryAt k = some (i, b)
      ↔ E.items[k]? = some (.message (.boundaryStart b)) ∧ (E.cursor k).nextBlock = i := by
  simp only [boundaryAt, map_eq_some_iff, bind_eq_some_iff, Prod.mk.injEq, asBoundary_eq_some_iff]
  constructor
  · rintro ⟨_, ⟨_, hx, rfl⟩, rfl, rfl⟩
    exact ⟨hx, rfl⟩
  · rintro ⟨hx, rfl⟩
    exact ⟨b, ⟨_, hx, rfl⟩, rfl, rfl⟩

theorem recordAt_eq_none (hx : E.items[k]? = some x) (hb : x.asBoundary = some b) :
    E.recordAt k = none := by
  simp [recordAt, hx, isBoundary, hb]

theorem boundaryAt_eq_none (hx : E.items[k]? = some x) (hb : x.asBoundary = none) :
    E.boundaryAt k = none := by
  simp [boundaryAt, hx, hb]

theorem keysApart_recordAt : KeysApart E.recordAt := by
  intro j k i v w hj hk
  obtain ⟨hxj, hrj, rfl⟩ := recordAt_eq_some_iff.1 hj
  obtain ⟨hxk, hrk, hkey⟩ := recordAt_eq_some_iff.1 hk
  rcases Nat.lt_trichotomy j k with hlt | heq | hgt
  · exact absurd hkey (index_lt_of_record hxj hrj hlt).ne'
  · exact heq
  · exact absurd hkey (index_lt_of_record hxk hrk hgt).ne

theorem keysApart_boundaryAt : KeysApart E.boundaryAt := by
  intro j k i v w hj hk
  obtain ⟨hxj, rfl⟩ := boundaryAt_eq_some_iff.1 hj
  obtain ⟨hxk, hkey⟩ := boundaryAt_eq_some_iff.1 hk
  rcases Nat.lt_trichotomy j k with hlt | heq | hgt
  · exact absurd hkey (block_lt_of_boundary hxj rfl hlt).ne'
  · exact heq
  · exact absurd hkey (block_lt_of_boundary hxk rfl hgt).ne

end Emission

/-! ## Sessions -/

/-- What happens to the reader. Frames are frames of the emission, named by their place. -/
inductive ReaderEvent where
  | arrive (place : Nat)
  | deliver
  | catchUp
  | restart
  /-- A `REPLAY_DONE` marker whose head is the cursor in front of the place. -/
  | endReplay (head : Nat)

/-- The reader with what it was sent. -/
structure Session where
  reorder : Reorder
  /-- The place of the next item to deliver. -/
  place : Nat
  /-- The frames that arrived since the pending set was last emptied. -/
  arrived : List Nat
  /-- The source delivers in the order of emission: no replay is outstanding. -/
  inOrder : Bool
  /-- The error that stopped the reader. -/
  failed : Option ExecutorError

open Session

namespace Session

variable (E : Emission)

/-- A new reader at a place of the emission. -/
def start (place : Nat) : Session := ⟨.new (E.cursor place), place, [], true, none⟩

section

variable (s : Session)

/-- The session after a call of the reorder: an error stops the reader. -/
def settle (next : Reorder → Session) : Except ExecutorError Reorder → Session
  | .ok r => next r
  | .error e => { s with failed := some e }

/-- One event of a reader that has not stopped, with what it delivers. -/
def react : ReaderEvent → Session × Option (BPosition × Ordered)
  | .arrive k =>
    match E.items[k]? with
    | none => (s, none)
    | some x =>
      (s.settle (fun r => { s with reorder := r, arrived := k :: s.arrived })
        (s.reorder.ingest (E.cursor k).nextIndex x), none)
  | .deliver =>
    match s.reorder.tryDeliver with
    | .ok (r, some d) => ({ s with reorder := r, place := s.place + 1 }, some d)
    | .ok (r, none) => ({ s with reorder := r }, none)
    | .error e => ({ s with failed := some e }, none)
  | .catchUp => ({ s with reorder := s.reorder.catchUp, inOrder := false }, none)
  | .restart => ({ s with reorder := s.reorder.restart, arrived := [], inOrder := false }, none)
  | .endReplay head =>
    (s.settle (fun r => { s with reorder := r, inOrder := true })
      (s.reorder.endReplay (E.cursor head).nextIndex (E.cursor head).nextBlock), none)

/-- One event. A reader that stopped does nothing more. -/
def step (e : ReaderEvent) : Session × Option (BPosition × Ordered) :=
  if s.failed.isSome then (s, none) else s.react E e

/-- Everything from the place of delivery up to `k` has arrived. -/
def Complete (k : Nat) : Prop := ∀ j, s.place ≤ j → j < k → j ∈ s.arrived

/-- Every boundary that stands directly in front of an arrived record has arrived. -/
def Preceded : Prop := ∀ k ∈ s.arrived, (E.recordAt k).isSome → ∀ j, s.place ≤ j →
    (∀ i, j ≤ i → i < k → (E.boundaryAt i).isSome) → j < k → j ∈ s.arrived

/-- What the sources owe the reader: outside of a replay a frame arrives behind everything in front of
it, and a replay ends when everything below its head has arrived. -/
def Served : ReaderEvent → Prop
  | .arrive k => s.inOrder = true → s.Complete k
  | .endReplay head => s.Complete head
  | _ => True

/-- A replay ends when no record has come ahead of a boundary directly in front of it. -/
def HeadSettled : ReaderEvent → Prop
  | .endReplay _ => s.Preceded E
  | _ => True

end

variable {E} {s : Session}

/-! ## What the pending set holds -/

/-- The pending set holds what arrived and is owed, and the modes agree with the sources. -/
structure Buffered (E : Emission) (s : Session) : Prop where
  cursor : s.reorder.cursor = E.cursor s.place
  records : Holds E.recordAt s.arrived s.place s.reorder.pendingRecords
  boundaries : Holds E.boundaryAt s.arrived s.place s.reorder.pendingBoundaries
  order : s.inOrder = true → s.Preceded E
  replay : s.inOrder = false → s.reorder.catchingUp = true

theorem buffered_start (E : Emission) (place : Nat) : Buffered E (start E place) where
  cursor := rfl
  records := holds_empty _ _
  boundaries := holds_empty _ _
  order _ := by simp [Preceded, start]
  replay h := nomatch h

variable {x : Ordered}

/-- The item at the place of delivery, when a later one has arrived. -/
theorem exists_item {E : Emission} {place k : Nat} (hx : E.items[k]? = some x)
    (h : place ≤ k) : ∃ y, E.items[place]? = some y := by
  have hlt : k < E.items.length := (List.getElem?_eq_some_iff.1 hx).1
  exact ⟨_, getElem?_eq_getElem (h.trans_lt hlt)⟩

section

variable (h : Buffered E s)
include h

/-- A pending boundary that closes the open block at or below the cursor is the next item. -/
theorem Buffered.next_boundary {b : BlockBoundaryStart}
    (hget : s.reorder.pendingBoundaries.get? s.reorder.cursor.nextBlock = some b)
    (hend : b.endTxIdx.asIndex.toNat ≤ s.reorder.cursor.nextIndex) :
    E.items[s.place]? = some (.message (.boundaryStart b)) := by
  rw [h.cursor] at hget hend
  obtain ⟨k, -, hle, hf⟩ := (h.boundaries _ _).1 hget
  obtain ⟨hx, hblock⟩ := boundaryAt_eq_some_iff.1 hf
  obtain ⟨-, hindex⟩ := (E.emits_at hx).boundary b rfl
  rcases hle.eq_or_lt with heq | hlt
  · rwa [heq]
  · -- an item in front of it would have moved one of the two counters
    obtain ⟨y, hy⟩ := exists_item hx hle
    cases hyb : y.asBoundary with
    | none =>
      have := index_lt_of_record hy hyb hlt
      omega
    | some b' =>
      have := block_lt_of_boundary hy hyb hlt
      omega

omit h in
/-- Between the place and the record that the cursor names stand only boundaries. -/
theorem boundaryAt_of_index_eq {place k i : Nat} (hx : E.items[k]? = some x)
    (hindex : (E.cursor k).nextIndex = (E.cursor place).nextIndex) (hi : place ≤ i) (hk : i < k) :
    (E.boundaryAt i).isSome := by
  obtain ⟨y, hy⟩ := exists_item hx hk.le
  cases hyb : y.asBoundary with
  | none =>
    have hmono := (E.cursor_mono hi).1
    have := index_lt_of_record hy hyb hk
    omega
  | some b =>
    obtain rfl := asBoundary_eq_some_iff.1 hyb
    simp [boundaryAt_eq_some_iff.2 ⟨hy, rfl⟩]

/-- A record that nothing proves to be behind a missing boundary is the next item. -/
theorem Buffered.next_record (hnext : s.reorder.recordIsNext = true)
    (hget : s.reorder.pendingRecords.get? s.reorder.cursor.nextIndex = some x) :
    E.items[s.place]? = some x ∧ x.asBoundary = none := by
  unfold recordIsNext at hnext
  rw [h.cursor] at hget hnext
  obtain ⟨k, hk, hle, hf⟩ := (h.records _ _).1 hget
  obtain ⟨hx, hr, hindex⟩ := recordAt_eq_some_iff.1 hf
  rcases hle.eq_or_lt with heq | hlt
  · exact ⟨by rwa [heq], hr⟩
  · -- otherwise the next item is a boundary; it would be pending, and it closes at the cursor
    have hahead := boundaryAt_of_index_eq hx hindex le_rfl hlt
    obtain ⟨⟨n, b⟩, hb⟩ := isSome_iff_exists.1 hahead
    obtain ⟨hy, rfl⟩ := boundaryAt_eq_some_iff.1 hb
    split at hnext
    next b' hb' =>
      obtain ⟨j, -, hj, hfj⟩ := (h.boundaries _ _).1 hb'
      obtain rfl := keysApart_boundaryAt _ _ _ _ _ hfj hb
      rw [hb] at hfj
      obtain rfl : b = b' := by simpa using hfj
      obtain ⟨-, hend⟩ := (E.emits_at hy).boundary b rfl
      simp [hend] at hnext
    next hnone =>
      have hinOrder : s.inOrder = true := by
        by_contra hno
        simp [h.replay (by simpa using hno)] at hnext
      have harrived : s.place ∈ s.arrived := h.order hinOrder k hk (by simp [hf]) _ le_rfl
          (fun i hi hik => boundaryAt_of_index_eq hx hindex hi hik) hlt
      have := (h.boundaries _ _).2 ⟨_, harrived, le_rfl, hb⟩
      simp [hnone] at this

/-! ## What an event keeps -/

variable {r : Reorder}

/-- The delivered item is the next one, and the rest is still buffered. -/
theorem Buffered.deliver {d : Option (BPosition × Ordered)} (hr : s.reorder.tryDeliver = .ok (r, d)) :
    (r = s.reorder ∧ d = none)
    ∨ ∃ x, E.items[s.place]? = some x ∧ d = some (E.positionOf s.place x, x)
        ∧ Buffered E { s with reorder := r, place := s.place + 1 } := by
  have horder : s.inOrder = true → ({ s with reorder := r, place := s.place + 1 } : Session).Preceded E :=
    fun hin k hk hrec j hj => h.order hin k hk hrec j (Nat.le_of_succ_le hj)
  obtain ⟨rfl, rfl⟩ | ⟨b, hget, hend, rfl, rfl⟩ | ⟨x, hnext, hget, rfl, rfl⟩ := tryDeliver_eq_ok hr
  · exact .inl ⟨rfl, rfl⟩
  · have hx := h.next_boundary hget hend
    have hfits : (E.cursor s.place).nextBlock + 1 < 2 ^ 63 := (E.emits_at hx).block_lt
    refine .inr ⟨_, hx, rfl, ?_, ?_, ?_, horder, h.replay⟩
    · rw [E.cursor_succ hx, after_of_boundary rfl, h.cursor, min_eq_left (by omega)]
    · exact h.records.pass (recordAt_eq_none hx rfl)
    · rw [h.cursor]
      exact h.boundaries.deliver keysApart_boundaryAt (boundaryAt_eq_some_iff.2 ⟨hx, rfl⟩)
  · obtain ⟨hx, hrec⟩ := h.next_record hnext hget
    refine .inr ⟨x, hx, ?_, ?_, ?_, ?_, horder, h.replay⟩
    · simp only [positionOf, hrec, h.cursor]
    · rw [E.cursor_succ hx, after_of_record hrec, h.cursor]
    · rw [h.cursor]
      exact h.records.deliver keysApart_recordAt (recordAt_eq_some_iff.2 ⟨hx, hrec, rfl⟩)
    · exact h.boundaries.pass (boundaryAt_eq_none hx hrec)

omit h in
/-- A frame that comes behind everything in front of it has its boundaries. -/
theorem Preceded.arrive (h : s.Preceded E) {k : Nat} (hk : s.Complete k) (r : Reorder) :
    ({ s with reorder := r, arrived := k :: s.arrived } : Session).Preceded E := by
  intro k' hk' hrec j hj hbetween hjk
  rcases mem_cons.1 hk' with rfl | hold
  · exact mem_cons_of_mem _ (hk j hj hjk)
  · exact mem_cons_of_mem _ (h k' hold hrec j hj hbetween hjk)

theorem Buffered.arriveRecord {k : Nat}
    (hx : E.items[k]? = some x) (hrec : x.asBoundary = none) (hserved : s.inOrder = true → s.Complete k)
    (hr : s.reorder.ingestRecord (E.cursor k).nextIndex x = .ok r) :
    Buffered E { s with reorder := r, arrived := k :: s.arrived } := by
  have hother := h.boundaries.ignore fun _ => boundaryAt_eq_none hx hrec
  have horder := fun hin => (h.order hin).arrive (hserved hin) r
  obtain ⟨hlt, rfl⟩ | ⟨hle, rfl⟩ := ingestRecord_eq_ok hr
  · refine ⟨h.cursor, h.records.ignore fun hk => ?_, hother, horder, h.replay⟩
    rw [h.cursor] at hlt
    have := (E.cursor_mono hk).1
    omega
  · have hk : s.place ≤ k := by
      rw [h.cursor] at hle
      by_contra hlt
      have := index_lt_of_record hx hrec (Nat.lt_of_not_le hlt)
      omega
    refine ⟨h.cursor, h.records.arrive keysApart_recordAt hk
      (recordAt_eq_some_iff.2 ⟨hx, hrec, rfl⟩), hother, horder, fun hin => ?_⟩
    simp [h.replay hin]

theorem Buffered.arriveBoundary {k : Nat} {b : BlockBoundaryStart}
    (hx : E.items[k]? = some (.message (.boundaryStart b)))
    (hserved : s.inOrder = true → s.Complete k) (hr : s.reorder.ingestBoundary b = .ok r) :
    Buffered E { s with reorder := r, arrived := k :: s.arrived } := by
  have hother := h.records.ignore fun _ => recordAt_eq_none hx rfl
  have horder := fun hin => (h.order hin).arrive (hserved hin) r
  obtain ⟨hnumber, -⟩ := (E.emits_at hx).boundary b rfl
  obtain ⟨hlt, rfl⟩ | ⟨hle, rfl⟩ := ingestBoundary_eq_ok hr
  · refine ⟨h.cursor, hother, h.boundaries.ignore fun hk => ?_, horder, h.replay⟩
    rw [h.cursor] at hlt
    have := (E.cursor_mono hk).2
    omega
  · have hk : s.place ≤ k := by
      rw [h.cursor] at hle
      by_contra hlt
      have := block_lt_of_boundary hx rfl (Nat.lt_of_not_le hlt)
      omega
    refine ⟨h.cursor, hother, h.boundaries.arrive keysApart_boundaryAt hk
      (boundaryAt_eq_some_iff.2 ⟨hx, hnumber.symm⟩), horder, fun hin => ?_⟩
    simp [h.replay hin]

theorem Buffered.arrive {k : Nat} (hx : E.items[k]? = some x) (hserved : s.inOrder = true → s.Complete k)
    (hr : s.reorder.ingest (E.cursor k).nextIndex x = .ok r) :
    Buffered E { s with reorder := r, arrived := k :: s.arrived } := by
  unfold ingest at hr
  split at hr
  next b hb =>
    obtain rfl := asBoundary_eq_some_iff.1 hb
    exact h.arriveBoundary hx hserved hr
  next hrec => exact h.arriveRecord hx hrec hserved hr

theorem Buffered.catchUp : Buffered E { s with reorder := s.reorder.catchUp, inOrder := false } :=
  { h with order := nofun, replay := fun _ => rfl }

theorem Buffered.restart :
    Buffered E { s with reorder := s.reorder.restart, arrived := [], inOrder := false } :=
  ⟨h.cursor, holds_empty _ _, holds_empty _ _, nofun, fun _ => rfl⟩

theorem Buffered.endReplay (hsettled : s.Preceded E) {upToIndex upToBlock : Nat}
    (hr : s.reorder.endReplay upToIndex upToBlock = .ok r) :
    Buffered E { s with reorder := r, inOrder := true } := by
  obtain rfl := endReplay_eq_ok hr
  exact { h with order := fun _ => hsettled, replay := nofun }

omit h in
theorem settle_of {P : Session → Prop} {next : Reorder → Session} {x : Except ExecutorError Reorder}
    (herror : ∀ e, P { s with failed := some e }) (hok : ∀ r, x = .ok r → P (next r)) :
    P (s.settle next x) := by
  cases x with
  | ok r => exact hok r rfl
  | error e => exact herror e

omit h in
/-- An event keeps the pending set and the place, or it delivers the item of the place. -/
def Advances (E : Emission) (s : Session) (out : Session × Option (BPosition × Ordered)) : Prop :=
  Buffered E out.1 ∧ ((out.2 = none ∧ out.1.place = s.place)
    ∨ ∃ x, E.items[s.place]? = some x ∧ out.2 = some (E.positionOf s.place x, x)
        ∧ out.1.place = s.place + 1)

theorem Buffered.fail (e : ExecutorError) : Buffered E { s with failed := some e } := { h with }

theorem Buffered.react {e : ReaderEvent} (hserved : s.Served e)
    (hsettled : s.HeadSettled E e) : Advances E s (s.react E e) := by
  cases e with
  | arrive k =>
    unfold Session.react
    dsimp only
    split
    · exact ⟨h, .inl ⟨rfl, rfl⟩⟩
    next x hx =>
      exact settle_of (P := fun s' => Advances E s (s', none)) (fun e => ⟨h.fail e, .inl ⟨rfl, rfl⟩⟩)
        fun r hr => ⟨h.arrive hx hserved hr, .inl ⟨rfl, rfl⟩⟩
  | deliver =>
    unfold Session.react
    dsimp only
    split
    next r d hr =>
      obtain ⟨-, hd⟩ | ⟨x, hx, hd, hnext⟩ := h.deliver hr
      · exact nomatch hd
      · exact ⟨hnext, .inr ⟨x, hx, hd, rfl⟩⟩
    next r hr =>
      obtain ⟨rfl, -⟩ | ⟨x, -, hd, -⟩ := h.deliver hr
      · exact ⟨h, .inl ⟨rfl, rfl⟩⟩
      · exact nomatch hd
    next e _ => exact ⟨h.fail e, .inl ⟨rfl, rfl⟩⟩
  | catchUp => exact ⟨h.catchUp, .inl ⟨rfl, rfl⟩⟩
  | restart => exact ⟨h.restart, .inl ⟨rfl, rfl⟩⟩
  | endReplay head =>
    exact settle_of (P := fun s' => Advances E s (s', none)) (fun e => ⟨h.fail e, .inl ⟨rfl, rfl⟩⟩)
      fun r hr => ⟨h.endReplay hsettled hr, .inl ⟨rfl, rfl⟩⟩

theorem Buffered.step {e : ReaderEvent}
    (hg : s.failed = none → s.Served e ∧ s.HeadSettled E e) : Advances E s (s.step E e) := by
  unfold Session.step
  split
  · exact ⟨h, .inl ⟨rfl, rfl⟩⟩
  next hlive =>
    obtain ⟨hserved, hsettled⟩ := hg (by simpa using hlive)
    exact h.react hserved hsettled

end

/-! ## Every run -/

theorem getElem?_deliveries (E : Emission) (k : Nat) :
    E.deliveries[k]? = E.items[k]?.map fun x => (E.positionOf k x, x) := by
  simp [deliveries]

/-- **The reader delivers the canonical order.** In every run whose sources serve the reader, and whose
replays end when no record has come ahead of a boundary directly in front of it, the delivered items up to
the first error are the next consecutive items from the cursor on, each once. -/
theorem delivers_canonical_order (E : Emission) (place : Nat) (events : List ReaderEvent)
    (hg : Guarded (step E)
      (fun s e => s.failed = none → s.Served e ∧ s.HeadSettled E e) (start E place) events) :
    (run (step E) (start E place) events).2.filterMap snd <+: E.deliveries.drop place := by
  have hrun := run_induction_of_guard (P := fun s τ => Buffered E s ∧ ∃ n, s.place = place + n
      ∧ τ.filterMap snd = (E.deliveries.drop place).take n)
    ⟨buffered_start E place, 0, rfl, by simp⟩
    (fun s τ e h hg => by
      obtain ⟨hbuf, n, hplace, hout⟩ := h
      obtain ⟨hbuf', ⟨hd, hstay⟩ | ⟨x, hx, hd, hmove⟩⟩ := hbuf.step hg
      · refine ⟨hbuf', n, hstay.trans hplace, ?_⟩
        rw [filterMap_snoc, hout, hd]
        simp
      · refine ⟨hbuf', n + 1, by omega, ?_⟩
        have hnext : (E.deliveries.drop place)[n]? = some (E.positionOf s.place x, x) := by
          rw [getElem?_drop, ← hplace, getElem?_deliveries, hx]
          rfl
        rw [filterMap_snoc, hout, hd, take_add_one, hnext])
    hg
  obtain ⟨-, n, -, hout⟩ := hrun
  rw [hout]
  exact take_prefix ..

/-- A replay that has carried nothing above its head ends settled. -/
theorem Complete.preceded {head : Nat} (h : s.Complete head) (hbelow : ∀ k ∈ s.arrived, k < head) :
    s.Preceded E := by
  intro k hk _ j hj _ hjk
  exact h j hj (hjk.trans (hbelow k hk))

/-- Two references around a boundary, in the middle of a chain. -/
def twoBlocks : Emission where
  start := ⟨10, 5⟩
  items := [.message (.txRef ⟨1, 0, ⟨0, 0⟩, 0⟩),
    .message (.boundaryStart ⟨5, .fromIndex 11, 0, 0⟩), .message (.txRef ⟨2, 0, ⟨0, 0⟩, 0⟩)]
  emitted := by decide +kernel

/-- A replay that arrives backwards. -/
theorem delivers_canonical_order_of_replay :
    let events := [.catchUp, .arrive 2, .arrive 1, .arrive 0, .endReplay 3, .deliver, .deliver, .deliver]
    ((run (step twoBlocks) (start twoBlocks 0) events).2.filterMap snd).length = 3
      ∧ (run (step twoBlocks) (start twoBlocks 0) events).2.filterMap snd
        <+: twoBlocks.deliveries.drop 0 := by
  refine ⟨by decide +kernel, delivers_canonical_order twoBlocks 0 _ ?_⟩
  have hcomplete : ∀ s : Session, s.arrived = [0, 1, 2] → s.Complete 3 := by
    intro s hs j _ hj
    have hall : ∀ j < 3, j ∈ [0, 1, 2] := by decide
    exact hs ▸ hall j hj
  refine ⟨fun _ => ⟨trivial, trivial⟩, fun _ => ⟨nofun, trivial⟩, fun _ => ⟨nofun, trivial⟩,
    fun _ => ⟨nofun, trivial⟩, fun _ => ?_, fun _ => ⟨trivial, trivial⟩, fun _ => ⟨trivial, trivial⟩,
    fun _ => ⟨trivial, trivial⟩, trivial⟩
  exact ⟨hcomplete _ (by decide +kernel), (hcomplete _ (by decide +kernel)).preceded (by decide +kernel)⟩

/-- A record above the head of a replay comes before the replay ends; the boundary in front of it comes in
order, and too late. -/
theorem record_overtakes_boundary : ∃ (E : Emission) (place : Nat) (events : List ReaderEvent),
      Guarded (step E) (fun s e => s.Served e) (start E place) events
        ∧ ¬ (run (step E) (start E place) events).2.filterMap snd <+: E.deliveries.drop place := by
  refine ⟨twoBlocks, 0, [.catchUp, .arrive 2, .endReplay 0, .arrive 0, .deliver, .deliver], ?_,
    by decide +kernel⟩
  have hnone : ∀ s : Session, s.Complete 0 := fun s j _ hj => absurd hj (Nat.not_lt_zero j)
  exact ⟨trivial, nofun, hnone _, fun _ => hnone _, trivial, trivial, trivial⟩

end Session

end Kardamom.Reader
