import Kardamom.Cluster.RetainedFrames

/-!
# What a store holds

`Holds s live` says that the store holds exactly the frames `live`, oldest first: for the heap it is
its list, for the file the records from the front position to the head position, with the index of
their boundaries. Every call of the interface is specified once, in terms of `live`, and for both
stores alike; the egress and the member feed look at no store after that.
-/

namespace Kardamom.Cluster

open Sealer (Boundary Bytes)
open Laid RetainedFrames RetainedWalk List FrameKey HeapFrames SortedMap List Emits FrameKey

theorem recordBytes_pos (f : Frame) : 0 < recordBytes f := by
  unfold recordBytes lengthPrefix
  omega

/-! ## The index of the file -/

/-- The boundaries among the records from position `pos` on, with their marks. -/
def marksOf (pos : Nat) : List Frame → List (Int × Mark)
  | [] => []
  | .relayed i payload :: fs => marksOf (pos + recordBytes (.relayed i payload)) fs
  | .boundary b :: fs =>
    (b.blockNumber, ⟨b.endTxIdx, pos + recordBytes (.boundary b)⟩)
      :: marksOf (pos + recordBytes (.boundary b)) fs

theorem marksOf_append (pos : Nat) (fs gs : List Frame) :
    marksOf pos (fs ++ gs) = marksOf pos fs ++ marksOf (pos + span recordBytes fs) gs := by
  induction fs generalizing pos with
  | nil => simp [marksOf]
  | cons f fs ih => cases f <;> simp [marksOf, ih, Nat.add_assoc]

variable {fs : List Frame}

/-- A mark stands for the boundary that it was made of. -/
theorem mem_marksOf {pos : Nat} {k : Int} {m : Mark} :
    (k, m) ∈ marksOf pos fs ↔ ∃ pre b post, fs = pre ++ .boundary b :: post ∧ b.blockNumber = k ∧
      m = ⟨b.endTxIdx, pos + span recordBytes (pre ++ [.boundary b])⟩ := by
  constructor
  · intro h
    induction fs generalizing pos with
    | nil => cases h
    | cons f fs ih =>
      cases f with
      | relayed i payload =>
        obtain ⟨pre, b, post, rfl, hk, hm⟩ := ih h
        exact ⟨.relayed i payload :: pre, b, post, rfl, hk, by simp [hm, Nat.add_assoc]⟩
      | boundary b =>
        rcases mem_cons.1 h with heq | h
        · obtain ⟨rfl, rfl⟩ := Prod.mk.inj heq
          exact ⟨[], b, fs, rfl, rfl, by simp⟩
        · obtain ⟨pre, b', post, rfl, hk, hm⟩ := ih h
          exact ⟨.boundary b :: pre, b', post, rfl, hk, by simp [hm, Nat.add_assoc]⟩
  · rintro ⟨pre, b, post, rfl, rfl, rfl⟩
    rw [marksOf_append]
    refine mem_append_right _ ?_
    refine mem_cons.2 (.inl ?_)
    simp [Nat.add_assoc]

/-- The file holds exactly the frames `live`. -/
structure RetainedFile.Holds (r : RetainedFile) (live : List Frame) : Prop where
  records : ∃ gone, r.records = gone ++ live ∧ r.frontPos = span recordBytes gone
  head : r.headPos = r.frontPos + span recordBytes live
  count : r.count = live.length
  marks : r.boundaries.entries = marksOf r.frontPos live

/-- The store holds exactly the frames `live`, oldest first. -/
def RetainedFrames.Holds (s : RetainedFrames) (live : List Frame) : Prop :=
  match s with
  | .heap h => h.frames = live
  | .file r => r.Holds live

variable {pre post : List Frame} {f : Frame} {a c : Point} {block : Int}

namespace RetainedFile

variable {r : RetainedFile} {live : List Frame}

variable (h : r.Holds live)
include h

theorem Holds.dropTo_front (heq : live = pre ++ post) :
    dropTo recordBytes r.records (r.frontPos + span recordBytes pre) = post := by
  obtain ⟨gone, hrec, hfront⟩ := h.records
  rw [hrec, heq, hfront, ← span_append, ← append_assoc]
  exact dropTo_span_append recordBytes_pos _ _

theorem Holds.frames : dropTo recordBytes r.records r.frontPos = live :=
  h.dropTo_front (nil_append live).symm

theorem Holds.frameAt (heq : live = pre ++ f :: post) :
    r.frameAt (r.frontPos + span recordBytes pre) = some f := by
  rw [RetainedFile.frameAt, h.dropTo_front heq]
  rfl

theorem Holds.walkNext (heq : live = pre ++ f :: post) :
    r.walkNext (r.frontPos + span recordBytes pre) = r.frontPos + span recordBytes (pre ++ [f]) := by
  rw [RetainedFile.walkNext, h.frameAt heq]
  simp [Nat.add_assoc]

/-- The index of a grown file: the boundaries come in ascending order. -/
theorem Holds.append (he : Emits a (live ++ [f]) c) : (r.append f).Holds (live ++ [f]) := by
  obtain ⟨gone, hrec, hfront⟩ := h.records
  refine ⟨⟨gone, ?_, hfront⟩, ?_, ?_, ?_⟩
  · change r.records ++ [f] = _
    rw [hrec, append_assoc]
  · change r.headPos + recordBytes f = r.frontPos + _
    rw [h.head, Nat.add_assoc]
    simp
  · change r.count + 1 = _
    rw [h.count]
    simp
  · change (markBoundary r.boundaries (r.headPos + recordBytes f) f).entries = marksOf r.frontPos _
    rw [marksOf_append, ← h.marks]
    cases f with
    | relayed i payload => simp [markBoundary, marksOf]
    | boundary b =>
      obtain ⟨m, hlive, hb, -⟩ := append_iff.1 he
      have hlt : ∀ e ∈ r.boundaries.entries, e.1 < b.blockNumber := by
        rintro ⟨k, mark⟩ hmem
        rw [h.marks] at hmem
        obtain ⟨pre, b', post, rfl, rfl, -⟩ := mem_marksOf.1 hmem
        have := (hlive.boundary_bounds (b := b') (by simp)).1.2
        omega
      rw [markBoundary, entries_upsert_of_lt hlt, h.head]
      rfl

omit h in
theorem Holds.evictFront (h : r.Holds (f :: live)) : r.evictFront.Holds live := by
  obtain ⟨gone, hrec, hfront⟩ := h.records
  have hat : r.frameAt r.frontPos = some f := h.frameAt (nil_append _).symm
  have hnext : r.walkNext r.frontPos = r.frontPos + recordBytes f := by
    rw [RetainedFile.walkNext, hat]
    rfl
  refine ⟨⟨gone ++ [f], ?_, ?_⟩, ?_, ?_, ?_⟩
  · change r.records = _
    simp [hrec]
  · change r.walkNext r.frontPos = _
    rw [hnext, hfront]
    simp
  · change r.headPos = r.walkNext r.frontPos + _
    rw [h.head, hnext, span_cons, Nat.add_assoc]
  · change r.count - 1 = _
    simp [h.count]
  · have hmarks := h.marks
    rw [RetainedFile.evictFront, hat]
    rw [hnext]
    cases f with
    | relayed i payload => simpa [marksOf] using hmarks
    | boundary b => exact entries_remove_head hmarks

theorem Holds.get?_eq_some {m : Mark} (hm : r.boundaries.get? block = some m) :
    ∃ pre b post, live = pre ++ .boundary b :: post ∧ b.blockNumber = block ∧
      m = ⟨b.endTxIdx, r.frontPos + span recordBytes (pre ++ [.boundary b])⟩ := by
  rw [get?_eq_some_iff, h.marks] at hm
  exact mem_marksOf.1 hm

theorem Holds.get?_eq_none (hm : r.boundaries.get? block = none) (b : Boundary) (hb : .boundary b ∈ live) :
    b.blockNumber ≠ block := by
  rintro rfl
  obtain ⟨pre, post, rfl⟩ := append_of_mem hb
  have hmem : _ ∈ marksOf r.frontPos _ := mem_marksOf.2 ⟨pre, b, post, rfl, rfl, rfl⟩
  rw [← h.marks, ← get?_eq_some_iff, hm] at hmem
  cases hmem

end RetainedFile

namespace HeapFrames

variable {h : HeapFrames}

theorem isBoundaryOf_iff : isBoundaryOf block f = true ↔ ∃ b, f = .boundary b ∧ b.blockNumber = block := by
  cases f with
  | relayed | boundary => simp [isBoundaryOf, of]

theorem boundaryPlace_eq_some {place : Nat} (hp : h.boundaryPlace block = some place) :
    ∃ pre b post, h.frames = pre ++ .boundary b :: post ∧ b.blockNumber = block ∧
      pre.length = place := by
  obtain ⟨hlt, hb, -⟩ := findIdx?_eq_some_iff_getElem.1 hp
  obtain ⟨b, hf, hblock⟩ := isBoundaryOf_iff.1 hb
  refine ⟨h.frames.take place, b, h.frames.drop (place + 1), ?_, hblock, ?_⟩
  · rw [← hf, getElem_cons_drop, take_append_drop]
  · rw [length_take]
    omega

theorem boundaryPlace_eq_none (hp : h.boundaryPlace block = none) (b : Boundary)
    (hb : .boundary b ∈ h.frames) : b.blockNumber ≠ block := by
  intro heq
  have := findIdx?_eq_none_iff.1 hp _ hb
  rw [isBoundaryOf_iff.2 ⟨b, rfl, heq⟩] at this
  cases this

end HeapFrames

/-! ## The interface -/

namespace RetainedFrames

variable {s : RetainedFrames} {live : List Frame}

section

variable (s : RetainedFrames)

theorem width_pos (f : Frame) : 0 < s.width f := by
  cases s with
  | heap h => exact Nat.one_pos
  | file r => exact recordBytes_pos f

@[simp] theorem width_append (f : Frame) : (s.append f).width = s.width := by
  cases s <;> rfl

@[simp] theorem width_evictFront : s.evictFront.width = s.width := by
  cases s <;> rfl

end

variable (h : s.Holds live)
include h

theorem Holds.frames : s.frames = live := by
  cases s with
  | heap h' => exact h
  | file r => exact RetainedFile.Holds.frames h

theorem Holds.count : s.count = live.length := by
  cases s with
  | heap h' => exact congrArg length h
  | file r => exact RetainedFile.Holds.count h

theorem Holds.front : s.front = live.head?.map of := by
  rw [RetainedFrames.front, h.frames]

theorem Holds.append (he : Emits a (live ++ [f]) c) : (s.append f).Holds (live ++ [f]) := by
  cases s with
  | heap h' => exact congrArg (· ++ [f]) h
  | file r => exact RetainedFile.Holds.append h he

omit h in
theorem Holds.evictFront (h : s.Holds (f :: live)) : s.evictFront.Holds live := by
  cases s with
  | heap h' => exact congrArg tail h
  | file r => exact RetainedFile.Holds.evictFront h

omit h in
/-- An append leaves the front where it is. -/
theorem walkFront_append (s : RetainedFrames) (f : Frame) : (s.append f).walkFront = s.walkFront := by
  cases s with
  | heap h =>
    simp only [RetainedFrames.append, walkFront, HeapFrames.walkFront, HeapFrames.append,
      HeapFrames.count, length_append, length_singleton]
    omega
  | file r => rfl

omit h in
/-- An eviction moves the front past the frame that it evicts. -/
theorem Holds.walkFront_evictFront (h : s.Holds (f :: live)) :
    s.evictFront.walkFront = s.walkFront + s.width f := by
  cases s with
  | heap h' =>
    have hf : h'.frames = f :: live := h
    simp only [RetainedFrames.evictFront, walkFront, HeapFrames.walkFront, HeapFrames.evictFront,
      HeapFrames.count, hf, tail_cons, length_cons, width]
    omega
  | file r =>
    have hnext := RetainedFile.Holds.walkNext h (nil_append (f :: live)).symm
    rw [span_nil, Nat.add_zero] at hnext
    simp [RetainedFrames.evictFront, walkFront, RetainedFile.evictFront, hnext, width]

/-- The walk keys from the front to the head are the widths of the frames between. -/
theorem Holds.walkHead : s.walkHead = s.walkFront + span s.width live := by
  cases s with
  | heap h' =>
    have hf : h'.frames = live := h
    simp only [RetainedFrames.walkHead, walkFront, HeapFrames.walkHead, HeapFrames.walkFront,
      HeapFrames.count, hf, width, span_one]
    omega
  | file r =>
    have := RetainedFile.Holds.head h
    simp [RetainedFrames.walkHead, walkFront, this, width]

/-- A walk finds each frame at its key. -/
theorem Holds.view (heq : live = pre ++ f :: post) : s.view (s.walkFront + span s.width pre) = some f := by
  cases s with
  | heap h' =>
    have hf : h'.frames = live := h
    simp [RetainedFrames.view, walkFront, HeapFrames.view, width, span_one, hf, heq]
  | file r =>
    have := RetainedFile.Holds.frameAt h heq
    exact this

theorem Holds.walkNext (heq : live = pre ++ f :: post) :
    s.walkNext (s.walkFront + span s.width pre) = s.walkFront + span s.width (pre ++ [f]) := by
  cases s with
  | heap h' =>
    simp only [walkNext, walkFront, HeapFrames.walkNext, width, span_one,
      length_append, length_singleton]
    omega
  | file r =>
    have := RetainedFile.Holds.walkNext h heq
    exact congrArg Nat.cast this

/-- A boundary that the store holds gives its end; the others give -1. -/
theorem Holds.boundaryEnd_cases (block : Int) :
    (∃ b, .boundary b ∈ live ∧ b.blockNumber = block ∧ s.boundaryEnd block = b.endTxIdx) ∨
      ((∀ b, .boundary b ∈ live → b.blockNumber ≠ block) ∧ s.boundaryEnd block = -1) := by
  cases s with
  | heap h' =>
    obtain rfl : h'.frames = live := h
    cases hp : h'.boundaryPlace block with
    | none => exact .inr ⟨boundaryPlace_eq_none hp, by
        simp [boundaryEnd, HeapFrames.boundaryEnd, hp]⟩
    | some place =>
      obtain ⟨pre, b, post, hf, hb, rfl⟩ := boundaryPlace_eq_some hp
      refine .inl ⟨b, by simp [hf], hb, ?_⟩
      simp [boundaryEnd, HeapFrames.boundaryEnd, hp, hf, endTxIdx]
  | file r =>
    cases hm : r.boundaries.get? block with
    | none => exact .inr ⟨RetainedFile.Holds.get?_eq_none h hm, by
        simp [boundaryEnd, RetainedFile.boundaryEnd, hm]⟩
    | some m =>
      obtain ⟨pre, b, post, hf, hb, rfl⟩ := RetainedFile.Holds.get?_eq_some h hm
      refine .inl ⟨b, by simp [hf], hb, ?_⟩
      simp [boundaryEnd, RetainedFile.boundaryEnd, hm]

/-- A walk starts after the boundary of the block before, or at the front when that boundary is not
retained. -/
theorem Holds.walkStart_cases (fromBlock : Int) :
    ∃ pre post, live = pre ++ post ∧ s.walkStart fromBlock = s.walkFront + span s.width pre ∧
      (pre = [] ∨ ∃ pre' b, pre = pre' ++ [.boundary b] ∧ b.blockNumber = fromBlock - 1) := by
  cases s with
  | heap h' =>
    obtain rfl : h'.frames = live := h
    cases hp : h'.boundaryPlace (fromBlock - 1) with
    | none =>
      refine ⟨[], h'.frames, rfl, ?_, .inl rfl⟩
      simp [walkStart, HeapFrames.walkStart, hp, walkFront]
    | some place =>
      obtain ⟨pre, b, post, hf, hb, rfl⟩ := boundaryPlace_eq_some hp
      refine ⟨pre ++ [.boundary b], post, by simp [hf], ?_, .inr ⟨pre, b, rfl, hb⟩⟩
      simp [walkStart, HeapFrames.walkStart, hp, walkFront, width, span_one, Int.add_assoc]
  | file r =>
    cases hm : r.boundaries.get? (fromBlock - 1) with
    | none =>
      refine ⟨[], live, rfl, ?_, .inl rfl⟩
      simp [walkStart, RetainedFile.walkStart, hm, walkFront]
    | some m =>
      obtain ⟨pre, b, post, hf, hb, rfl⟩ := RetainedFile.Holds.get?_eq_some h hm
      refine ⟨pre ++ [.boundary b], post, by simp [hf], ?_, .inr ⟨pre, b, rfl, hb⟩⟩
      simp [walkStart, RetainedFile.walkStart, hm, walkFront, width]

omit h in
/-- The frames that a walk skips are below the cursor, when the cursor does not lie before the end of
the block before its own. -/
theorem not_wanted_of_skipped {pre : List Frame} {a m p : Point} (he : Emits a pre m)
    (hpre : pre = [] ∨ ∃ pre' b, pre = pre' ++ [.boundary b] ∧ b.blockNumber = p.block - 1)
    (hlower : ∀ b, .boundary b ∈ pre → b.blockNumber = p.block - 1 → b.endTxIdx ≤ p.index)
    (hf : f ∈ pre) : FrameKey.wanted p f = false := by
  rcases hpre with rfl | ⟨pre', b, rfl, hb⟩
  · cases hf
  · obtain rfl := he.eq_of_snoc_boundary
    exact he.not_wanted_of_le (hlower b (by simp) hb) (show b.blockNumber + 1 ≤ p.block by omega) hf

/-- Both stores serve the retained frames that the cursor wants. -/
theorem Holds.wanted {a c p : Point} (he : Emits a live c)
    (hlower : ∀ b, .boundary b ∈ live → b.blockNumber = p.block - 1 → b.endTxIdx ≤ p.index) :
    s.wanted p = live.filter (FrameKey.wanted p) := by
  cases s with
  | heap h' => exact congrArg (filter _) h
  | file r =>
    obtain ⟨pre, post, rfl, hstart, hpre⟩ := RetainedFrames.Holds.walkStart_cases h p.block
    obtain ⟨m, hem, -⟩ := append_iff.1 he
    have hskip : pre.filter (FrameKey.wanted p) = [] :=
      filter_eq_nil_iff.2 fun f hf => Bool.eq_false_iff.1
        (not_wanted_of_skipped hem hpre (fun b hb => hlower b (mem_append_left _ hb)) hf)
    have hpos : (r.walkStart p.block : Int) = r.frontPos + span recordBytes pre := hstart
    norm_cast at hpos
    rw [wanted, RetainedFile.wanted, hpos, RetainedFile.Holds.dropTo_front h rfl,
      filter_append, hskip, nil_append]

end RetainedFrames

/-! ## Restarts -/

namespace HeapFrames

theorem foldl_append (fs : List Frame) (h : HeapFrames) :
    (fs.foldl append h).frames = h.frames ++ fs := by
  induction fs generalizing h with
  | nil => simp
  | cons f fs ih => simp [ih, append]

/-- The floors of a restored retention: the point before its oldest frame, on each axis. -/
theorem foldl_lower {a c floors : Point} (he : Emits a fs c)
    (hi : floors.index ≤ c.index) (hb : floors.block ≤ c.block) :
    fs.foldl (fun floors f => lower floors (of f)) floors
      = ⟨min floors.index a.index, min floors.block a.block⟩ := by
  induction fs generalizing a floors with
  | nil =>
    obtain rfl : a = c := he
    simp [hi, hb]
  | cons f fs ih =>
    cases f with
    | relayed i payload =>
      obtain ⟨rfl, next, hlt, he⟩ := he
      rw [foldl_cons, ih he]
      · simp only [lower, of, Bool.false_eq_true, if_false, Point.mk.injEq, and_true]
        omega
      · simp only [lower, of, Bool.false_eq_true, if_false]
        omega
      · exact hb
    | boundary b =>
      obtain ⟨hblock, -, he⟩ := he
      rw [foldl_cons, ih he]
      · simp only [lower, of, if_true, Point.mk.injEq, true_and]
        omega
      · exact hi
      · simp only [lower, of, if_true]
        omega

/-- A member that restores every frame that was emitted from `a` on has its floors at `a`. -/
theorem foldl_lower_self (he : Emits a fs c) :
    fs.foldl (fun floors f => lower floors (of f)) c = a := by
  rw [foldl_lower he le_rfl le_rfl]
  exact Point.ext (min_eq_right he.le.1) (min_eq_right he.le.2)

end HeapFrames

namespace RetainedWalk

/-- The walk passes the frames that were emitted from a point on, when it stands at or before that
point, and exactly at it after a boundary. -/
theorem frame_ok {sect : RetainedSection} {walk : RetainedWalk} {pos : Nat}
    (he : Emits a [f] c) (hnext : walk.nextIndex ≤ a.index)
    (hafter : walk.afterBoundary = true → walk.nextIndex = a.index)
    (hmark : ∀ k m, (k, m) ∈ marksOf pos [f] → sect.marks.get? k = some m) :
    ∃ walk' : RetainedWalk, walk.frame sect pos f = .ok (walk', pos + recordBytes f) ∧
      walk'.frames = walk.frames + 1 ∧ walk'.marks = walk.marks + (marksOf pos [f]).length ∧
      walk'.nextIndex ≤ c.index ∧ (walk'.afterBoundary = true → walk'.nextIndex = c.index) := by
  cases f with
  | relayed i payload =>
    obtain ⟨rfl, next, hlt, rfl⟩ := he
    have hfits : if walk.afterBoundary then a.index = walk.nextIndex else walk.nextIndex ≤ a.index := by
      split
      · next hb => exact (hafter hb).symm
      · exact hnext
    refine ⟨_, if_pos hfits, rfl, rfl, ?_, ?_⟩
    · change a.index + 1 ≤ next
      omega
    · intro hfalse
      cases hfalse
  | boundary b =>
    obtain ⟨hblock, hend, rfl⟩ := he
    have hget := hmark b.blockNumber ⟨b.endTxIdx, pos + recordBytes (.boundary b)⟩ mem_cons_self
    refine ⟨{ walk with
      frames := walk.frames + 1, marks := walk.marks + 1
      nextIndex := b.endTxIdx, afterBoundary := true }, ?_, rfl, rfl, hend.le, fun _ => hend⟩
    rw [frame]
    dsimp only
    rw [if_neg (not_not.2 hget), if_neg (by omega)]

/-- The walk over the frames that a file holds. -/
theorem loop_ok (sect : RetainedSection) {disk gone live lost : List Frame}
    (hdisk : disk = gone ++ live ++ lost) (hfront : sect.front = span recordBytes gone)
    (hhead : sect.head = sect.front + span recordBytes live)
    (hmarks : sect.marks.entries = marksOf sect.front live)
    (hlive : live = pre ++ post) {fuel : Nat} (hfuel : post.length < fuel) (walk : RetainedWalk)
    (he : Emits a post c) (hnext : walk.nextIndex ≤ a.index)
    (hafter : walk.afterBoundary = true → walk.nextIndex = a.index) :
    ∃ walk' : RetainedWalk,
      loop disk sect fuel walk (sect.front + span recordBytes pre) = .ok (walk', sect.head) ∧
        walk'.frames = walk.frames + post.length ∧
        walk'.marks = walk.marks + (marksOf (sect.front + span recordBytes pre) post).length := by
  induction post generalizing pre fuel walk a with
  | nil =>
    obtain ⟨fuel, rfl⟩ : ∃ k, fuel = k + 1 := ⟨fuel - 1, by simp at hfuel; omega⟩
    have hpos : sect.front + span recordBytes pre = sect.head := by
      rw [hhead, hlive, append_nil]
    refine ⟨walk, ?_, rfl, rfl⟩
    rw [loop, hpos, if_neg (by omega)]
  | cons f post ih =>
    obtain ⟨fuel, rfl⟩ : ∃ k, fuel = k + 1 := ⟨fuel - 1, by omega⟩
    obtain ⟨m, hf, hpost⟩ := append_iff.1 (show Emits a ([f] ++ post) c from he)
    have hlt : sect.front + span recordBytes pre < sect.head := by
      have := recordBytes_pos f
      rw [hhead, hlive, span_append, span_cons]
      omega
    have hat : (dropTo recordBytes disk (sect.front + span recordBytes pre)).head? = some f := by
      rw [hdisk, hlive, hfront, ← span_append, append_assoc, append_assoc,
        ← append_assoc, cons_append, dropTo_span_append recordBytes_pos]
      rfl
    have hmark : ∀ k mark, (k, mark) ∈ marksOf (sect.front + span recordBytes pre) [f] →
        sect.marks.get? k = some mark := by
      intro k mark hmem
      rw [get?_eq_some_iff, hmarks, hlive, marksOf_append,
        show f :: post = [f] ++ post from rfl, marksOf_append]
      exact mem_append_right _ (mem_append_left _ hmem)
    obtain ⟨walk₁, hstep, hframes, hcount, hnext₁, hafter₁⟩ := frame_ok hf hnext hafter hmark
    have hpos : sect.front + span recordBytes (pre ++ [f])
        = sect.front + span recordBytes pre + recordBytes f := by
      simp [Nat.add_assoc]
    obtain ⟨walk₂, hloop, hframes₂, hcount₂⟩ := ih (show live = (pre ++ [f]) ++ post by simp [hlive])
      (by simpa using hfuel) walk₁ hpost hnext₁ hafter₁
    rw [hpos] at hloop hcount₂
    refine ⟨walk₂, ?_, ?_, ?_⟩
    · rw [loop, if_pos hlt, next, hat]
      dsimp only
      rw [hstep]
      exact hloop
    · rw [hframes₂, hframes, length_cons]
      omega
    · rw [hcount₂, hcount, show f :: post = [f] ++ post from rfl, marksOf_append, length_append,
        span_cons, span_nil, Nat.add_zero]
      omega

end RetainedWalk

namespace RetainedFile

/-- A restart reads its own section back, whatever the disk holds past the head. -/
theorem Holds.restore {r : RetainedFile} {live : List Frame} (h : r.Holds live) {a c floors : Point}
    (he : Emits a live c) (hfloor : floors.index ≤ a.index) (lost : List Frame) :
    RetainedFile.restore (r.records ++ lost) (r.writeSnapshot floors) = .ok (r, floors) := by
  obtain ⟨gone, hrec, hfront⟩ := h.records
  have hdisk : r.records ++ lost = gone ++ live ++ lost := by rw [hrec]
  have hfuel : live.length < (r.records ++ lost).length + 1 := by
    simp only [hrec, length_append]
    omega
  obtain ⟨walk, hloop, hframes, hmarks⟩ :=
    loop_ok (r.writeSnapshot floors) hdisk hfront h.head h.marks
      (nil_append live).symm hfuel ⟨0, 0, (r.writeSnapshot floors).floors.index, false⟩ he hfloor (by simp)
  have htotals : totals (r.writeSnapshot floors) walk r.headPos = .ok () := by
    refine if_neg ?_
    rintro (hne | hne | hne)
    · exact hne rfl
    · refine hne ?_
      rw [hframes]
      exact (Nat.zero_add _).trans h.count.symm
    · refine hne ?_
      rw [hmarks]
      exact (Nat.zero_add _).trans (congrArg length h.marks.symm)
  have hproblem : problem (r.records ++ lost) (r.writeSnapshot floors) = .ok () := by
    change (loop _ _ _ _ ((r.writeSnapshot floors).front + span recordBytes [])
      >>= fun out => totals _ out.1 out.2) = _
    rw [hloop]
    exact htotals
  have hcut : takeTo recordBytes (r.records ++ lost) r.headPos = r.records := by
    rw [h.head, hfront, ← span_append, ← hrec]
    exact takeTo_span_append recordBytes_pos _ _
  rw [RetainedFile.restore, hproblem]
  change Except.ok (({ r with records := takeTo recordBytes (r.records ++ lost) r.headPos } :
    RetainedFile), floors) = _
  rw [hcut]

end RetainedFile

namespace RetainedFrames

/-- A restart from a snapshot with a section keeps every frame. The heap finds its floors again in
the frames, the file in its section. -/
theorem Holds.restart {s : RetainedFrames} {live : List Frame} (h : s.Holds live)
    (he : Emits a live c) (floors : Floors) (hfloor : floors.index ≤ a.index)
    (hblock : floors.block = a.block) (lost : List Frame) :
    ∃ s' floors', s.restart floors true lost c = .ok (s', floors') ∧ s'.Holds live ∧
      floors'.block = a.block ∧ floors.index ≤ floors'.index ∧ floors'.index ≤ a.index := by
  cases s with
  | heap h' =>
    obtain rfl : h'.frames = live := h
    refine ⟨.heap (h'.frames.foldl HeapFrames.append .fresh), a, ?_, ?_, rfl, hfloor, le_rfl⟩
    · exact congrArg (fun floors' => Except.ok (_, floors')) (foldl_lower_self he)
    · exact (HeapFrames.foldl_append h'.frames .fresh).trans (nil_append _)
  | file r =>
    refine ⟨.file r, floors, ?_, h, hblock, le_rfl, hfloor⟩
    change (RetainedFile.restore (r.records ++ lost) (r.writeSnapshot floors)
      >>= fun out => pure (file out.1, out.2)) = _
    rw [RetainedFile.Holds.restore h he hfloor lost]
    rfl

end RetainedFrames

end Kardamom.Cluster
