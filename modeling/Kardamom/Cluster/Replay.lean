import Kardamom.Cluster.SealerEgress

/-!
# Replay and retention

The retained frames are the last part of everything that was emitted. `Retains` cuts the emitted
frames at a point `mid` into those that are gone and those that are live, and ties the counters of
the egress to that point: the first retained block is the block of `mid`, and the first retained
index lies above every record that is gone and not above `mid`. Every call keeps it: an eviction
moves `mid` past one frame, and a restart finds the floors again in what the snapshot holds.

A served replay then carries everything that was ever emitted from its cursor on, and a frame at the
front belongs to the first retained block, so the eviction rule reads the block of the frame that it
evicts.
-/

namespace Kardamom.Cluster

open Sealer (Bytes Boundary SealerConfig CanonicalSealerState)
open Sealer.CanonicalSealerState (Started)
open Laid SealerEgress FrameKey List RetainedFrames Machine RetainedFrames

/-! ## The block of a frame -/

/-- The block that is open after a frame. -/
def blockAfter (opened : Int) : Frame → Int
  | .boundary _ => opened + 1
  | .relayed _ _ => opened

/-- The block of a frame of a list that starts in the block `opened`. -/
def blockOf (opened : Int) : List Frame → Frame → Option Int
  | [], _ => none
  | g :: gs, f => if g = f then some opened else blockOf (blockAfter opened g) gs f

variable {f : Frame}

/-- A frame that is emitted at a point is of the open block of that point. -/
theorem blockOf_of_emits {start mid : Point} {gone rest : List Frame}
    (h : Emits start gone mid) (hf : f ∉ gone) :
    blockOf start.block (gone ++ f :: rest) f = some mid.block := by
  induction gone generalizing start with
  | nil =>
    obtain rfl : start = mid := h
    simp [blockOf]
  | cons g gone ih =>
    obtain ⟨hne, hf'⟩ := ne_and_not_mem_of_not_mem_cons hf
    rw [cons_append, blockOf, if_neg (Ne.symm hne)]
    cases g with
    | relayed i payload =>
      obtain ⟨-, next, -, h⟩ := h
      have hnext := ih h hf'
      exact hnext
    | boundary b =>
      obtain ⟨-, -, h⟩ := h
      have hnext := ih h hf'
      exact hnext

/-! ## The retention invariant -/

/-- The frames emitted from `start` to `head` are cut at `mid`: `gone` left the retention, and `live`
is in it. -/
structure Retains (start head : Point) (gone live : List Frame) (mid : Point) (e : SealerEgress) :
    Prop where
  emits_gone : Emits start gone mid
  emits_live : Emits mid live head
  holds : e.retained.Holds live
  block : e.firstRetainedBlock = mid.block
  index_le : e.firstRetainedIndex ≤ mid.index
  gone_below : ∀ i payload, .relayed i payload ∈ gone → i < e.firstRetainedIndex

namespace Retains

variable {start head mid : Point} {gone live : List Frame} {e : SealerEgress} {f : Frame} {cap : Nat}

theorem emits (h : Retains start head gone live mid e) : Emits start (gone ++ live) head :=
  h.emits_gone.append h.emits_live

variable (h : Retains start head gone (f :: live) mid e)
include h

/-- What the front of the store reads as. -/
theorem front : e.retained.front = some (of f) := by
  rw [h.holds.front]
  rfl

/-- The oldest frame is of the first retained block. -/
theorem front_block : blockOf start.block (gone ++ f :: live) f = some e.firstRetainedBlock := by
  rw [h.block]
  refine blockOf_of_emits h.emits_gone fun hmem => ?_
  have hnodup := h.emits.nodup
  exact (nodup_append.1 hnodup).2.2 f hmem f mem_cons_self rfl

/-- The rule reads the block of the frame that it lets go. -/
theorem oldestIsPosted_iff : e.oldestIsPosted = true ↔ e.firstRetainedBlock ≤ e.postedHead := by
  rw [oldestIsPosted, h.front]
  cases f with
  | relayed i payload => simp [of]
  | boundary b =>
    obtain ⟨hb, -⟩ := h.emits_live
    simp [of, hb, h.block]

/-- **One eviction** moves the cut past the oldest frame. -/
theorem evictFront : ∃ mid', Retains start head (gone ++ [f]) live mid' e.evictFront := by
  obtain ⟨mid', hf, hlive⟩ := Emits.append_iff.1 (show Emits mid ([f] ++ live) head from h.emits_live)
  have hgone := h.emits_gone.append hf
  have hle := h.index_le
  rw [SealerEgress.evictFront, h.front]
  cases f with
  | relayed i payload =>
    obtain ⟨rfl, next, hlt, rfl⟩ := hf
    refine ⟨_, hgone, hlive, h.holds.evictFront, h.block, ?_, ?_⟩
    · change mid.index + 1 ≤ next
      omega
    · intro j payload' hmem
      change j < mid.index + 1
      rcases mem_append.1 hmem with hmem | hmem
      · have := h.gone_below j payload' hmem
        omega
      · obtain ⟨rfl, -⟩ := Frame.relayed.inj (mem_singleton.1 hmem)
        omega
  | boundary b =>
    obtain ⟨hb, -, rfl⟩ := hf
    refine ⟨_, hgone, hlive, h.holds.evictFront, ?_, h.index_le, ?_⟩
    · change b.blockNumber + 1 = mid.block + 1
      rw [hb]
    · intro j payload' hmem
      rcases mem_append.1 hmem with hmem | hmem
      · exact h.gone_below j payload' hmem
      · cases mem_singleton.1 hmem

end Retains

/-- What a prune does: it evicts the oldest frames one by one, with the walk keys that they took, and
stops where the rule stops it. -/
structure Pruned (cap : Nat) (start head : Point) (gone live : List Frame) (e : SealerEgress)
    (evicted : List Frame) (e' : SealerEgress) : Prop where
  cut : ∃ rest mid', live = evicted ++ rest ∧ Retains start head (gone ++ evicted) rest mid' e'
  postedHead : e'.postedHead = e.postedHead
  windowOnly : e'.windowOnly = e.windowOnly
  width : e'.retained.width = e.retained.width
  walkFront : e'.retained.walkFront = e.retained.walkFront + span e.retained.width evicted
  /-- Under the posted rule, a frame that leaves is of a posted block. -/
  posted : e.windowOnly = false → ∀ f ∈ evicted, ∃ b,
    blockOf start.block (gone ++ live) f = some b ∧ b ≤ e.postedHead
  /-- The loop ran to its end. -/
  done : e'.mayEvict cap = false

variable {e : SealerEgress}

namespace SealerEgress

@[simp] theorem evictFront_rules (e : SealerEgress) :
    e.evictFront.postedHead = e.postedHead ∧ e.evictFront.windowOnly = e.windowOnly := by
  unfold evictFront
  split
  · exact ⟨rfl, rfl⟩
  · split <;> exact ⟨rfl, rfl⟩

theorem evictFront_retained {k : FrameKey} (h : e.retained.front = some k) :
    e.evictFront.retained = e.retained.evictFront := by
  rw [evictFront, h]
  dsimp only
  split <;> rfl

end SealerEgress

namespace Retains

variable {start head mid : Point} {gone live : List Frame} {e : SealerEgress} {cap : Nat}

variable (h : Retains start head gone live mid e)
include h

/-- A prune that stops at once. -/
theorem pruned_nil (hdone : e.mayEvict cap = false) : Pruned cap start head gone live e [] e :=
  ⟨⟨live, mid, rfl, by simpa using h⟩, rfl, rfl, rfl, by simp, by simp, hdone⟩

variable {e' : SealerEgress}

omit h in
/-- A prune that evicts a frame and goes on. -/
theorem pruned_cons (h : Retains start head gone (f :: live) mid e)
    (hmay : e.mayEvict cap = true) {evicted : List Frame}
    (hp : Pruned cap start head (gone ++ [f]) live e.evictFront evicted e') :
    Pruned cap start head gone (f :: live) e (f :: evicted) e' := by
  have hret := evictFront_retained h.front
  obtain ⟨rest, mid', rfl, hrest⟩ := hp.cut
  refine ⟨⟨rest, mid', rfl, by simpa using hrest⟩, ?_, ?_, ?_, ?_, ?_, hp.done⟩
  · exact hp.postedHead.trans e.evictFront_rules.1
  · exact hp.windowOnly.trans e.evictFront_rules.2
  · rw [hp.width, hret, width_evictFront]
  · rw [hp.walkFront, hret, h.holds.walkFront_evictFront, width_evictFront, span_cons]
    omega
  · intro hoff g hg
    rcases mem_cons.1 hg with rfl | hg
    · refine ⟨_, h.front_block, h.oldestIsPosted_iff.1 ?_⟩
      simpa [hoff] using (Bool.and_eq_true_iff.1 hmay).2
    · simpa using hp.posted (by simpa using hoff) g hg

/-- **The loop**, by induction on its rounds. -/
theorem pruneLoop {fuel : Nat} (hfuel : live.length ≤ fuel) :
    Pruned cap start head gone live e (e.pruneLoop cap fuel).2 (e.pruneLoop cap fuel).1 := by
  induction fuel generalizing gone live mid e with
  | zero =>
    obtain rfl : live = [] := eq_nil_of_length_eq_zero (by omega)
    exact h.pruned_nil (by simp [mayEvict, h.holds.count])
  | succ fuel ih =>
    rw [pruneLoop]
    split
    case isFalse hmay => exact h.pruned_nil (by simpa using hmay)
    case isTrue hmay =>
      cases live with
      | nil => simp [mayEvict, h.holds.count] at hmay
      | cons f live =>
        obtain ⟨mid', h'⟩ := h.evictFront
        rw [h.holds.frames]
        exact h.pruned_cons hmay (ih h' (by simpa using hfuel))

theorem prune : Pruned cap start head gone live e (e.prune cap).2 (e.prune cap).1 :=
  h.pruneLoop h.holds.count.ge

/-- A frame that is emitted at the head is live. -/
theorem append {head' : Point} (hf : Emits head [f] head') :
    Retains start head' gone (live ++ [f]) mid { e with retained := e.retained.append f } where
  __ := h
  emits_live := h.emits_live.append hf
  holds := h.holds.append (h.emits_live.append hf)

omit h in
/-- A start with an empty retention. -/
theorem openEmpty (retained : RetainedFrames) (start : Point) :
    Retains start start [] [] start (.openEmpty retained start) where
  emits_gone := rfl
  emits_live := rfl
  holds := by
    cases retained with
    | heap h => rfl
    | file r => exact ⟨⟨[], rfl, rfl⟩, rfl, rfl, rfl⟩
  block := rfl
  index_le := le_rfl
  gone_below := by simp

/-- A restart from a snapshot with a section keeps the cut. -/
theorem restart (lost : List Frame) :
    ∃ e', e.restart true lost head = .ok e' ∧ Retains start head gone live mid e' := by
  obtain ⟨s', floors, hs, hholds, hblock, hle, hmid⟩ :=
    h.holds.restart h.emits_live e.floors h.index_le h.block lost
  refine ⟨_, by rw [SealerEgress.restart, hs]; rfl, ?_⟩
  exact
    { emits_gone := h.emits_gone
      emits_live := h.emits_live
      holds := hholds
      block := hblock
      index_le := hmid
      gone_below := fun i payload hmem => (h.gone_below i payload hmem).trans_le hle }

/-- A restart from a snapshot without a section leaves nothing behind, or stops the member. -/
theorem restart_unsectioned (lost : List Frame) (he : e.restart false lost head = .ok e') :
    Retains start head (gone ++ live) [] head e' := by
  obtain ⟨s, fi, fb, ph, wo⟩ := e
  cases s with
  | heap h' =>
    obtain rfl : _ = e' := Except.ok.inj he
    exact
      { emits_gone := h.emits
        emits_live := rfl
        holds := rfl
        block := rfl
        index_le := le_rfl
        gone_below := fun i payload hmem => (h.emits.relayed_bounds hmem).2 }
  | file r => cases he

end Retains

/-! ## Calls and runs -/

/-- What a call does to the log: the head moves with the frames that it emits, and the cut moves with
those that it evicts. -/
structure Moved (start : Point) (gone live : List Frame) (s : EgressLog) (out : EgressOut)
    (s' : EgressLog) : Prop where
  emits : Emits s.head out.emitted s'.head
  cut : ∃ rest mid', live ++ out.emitted = out.evicted ++ rest ∧
    Retains start s'.head (gone ++ out.evicted) rest mid' s'.egress
  width : s'.egress.retained.width = s.egress.retained.width
  walkFront : s'.egress.retained.walkFront
    = s.egress.retained.walkFront + span s.egress.retained.width out.evicted
  posted : s'.egress.windowOnly = false → ∀ f ∈ out.evicted, ∃ b,
    blockOf start.block (gone ++ (live ++ out.emitted)) f = some b ∧ b ≤ s'.egress.postedHead

namespace EgressLog

variable {start mid : Point} {gone live : List Frame} {s : EgressLog} {cap : Nat}

/-- A prune of the egress that a call changed is a move of the log. -/
theorem moved_of_pruned {fs : List Frame} {head : Point} (hem : Emits s.head fs head)
    (hw : e.retained.width = s.egress.retained.width)
    (hf : e.retained.walkFront = s.egress.retained.walkFront)
    (hp : Pruned cap start head gone (live ++ fs) e (e.prune cap).2 (e.prune cap).1) :
    Moved start gone live s ⟨fs, (e.prune cap).2⟩ ⟨head, (e.prune cap).1⟩ where
  emits := hem
  cut := hp.cut
  width := hp.width.trans hw
  walkFront := by rw [hp.walkFront, hw, hf]
  posted := fun hoff f hf' => by
    obtain ⟨b, hb, hle⟩ := hp.posted (hp.windowOnly ▸ hoff) f hf'
    exact ⟨b, hb, hp.postedHead ▸ hle⟩

section

variable (h : Retains start s.head gone live mid s.egress)
include h

theorem moved_emit {head : Point} (hem : Emits s.head [f] head) :
    Moved start gone live s (s.emit cap f head).2 (s.emit cap f head).1 :=
  moved_of_pruned hem (width_append _ f) (walkFront_append _ f) (h.append hem).prune

/-- **One call.** -/
theorem moved_call (c : EgressCall) :
    Moved start gone live s (s.call cap c).2 (s.call cap c).1 := by
  have hquiet {e : SealerEgress} (h' : Retains start s.head gone live mid e)
      (hretained : e.retained = s.egress.retained) :
      Moved start gone live s ⟨[], (e.prune cap).2⟩ ⟨s.head, (e.prune cap).1⟩ := by
    rw [← append_nil live] at h'
    exact moved_of_pruned (Emits.nil s.head) (by rw [hretained]) (by rw [hretained]) h'.prune
  cases c with
  | relayed payload more =>
    exact moved_emit h ⟨rfl, s.head.index + 1 + more, by omega, rfl⟩
  | boundary l2Timestamp l1Origin => exact moved_emit h ⟨rfl, rfl, rfl⟩
  | setPostedHead postedHead =>
    exact hquiet (e := { s.egress with postedHead := postedHead }) { h with } rfl
  | setRules version carryWindow =>
    exact hquiet (e := { s.egress with
      windowOnly := version == Sealer.carryVersion
        && (carryWindow || s.egress.retained.carriesBytes) }) { h with } rfl

end

/-- The frames that were emitted up to a state of the log, with the cut of its retention. -/
def Retained (start : Point) (s : EgressLog) (fs : List Frame) : Prop :=
  ∃ gone live mid, gone ++ live = fs ∧ Retains start s.head gone live mid s.egress

/-- **One step.** -/
theorem Retained.step {fs : List Frame} (h : Retained start s fs) (op : EgressOp) :
    Retained start (s.step cap op).1 (fs ++ (s.step cap op).2.emitted) := by
  obtain ⟨gone, live, mid, rfl, h⟩ := h
  cases op with
  | call c =>
    have hmoved : Moved start gone live s (s.call cap c).2 _ := moved_call h c
    obtain ⟨rest, mid', heq, hcut⟩ := hmoved.cut
    refine ⟨_, rest, mid', ?_, hcut⟩
    rw [append_assoc, append_assoc]
    exact congrArg (gone ++ ·) heq.symm
  | restart sectioned lost =>
    cases sectioned with
    | true =>
      obtain ⟨e', he, h'⟩ := h.restart lost
      rw [EgressLog.step, he, append_nil]
      exact ⟨gone, live, mid, rfl, h'⟩
    | false =>
      cases he : s.egress.restart false lost s.head with
      | error _ =>
        rw [EgressLog.step, he, append_nil]
        exact ⟨gone, live, mid, rfl, h⟩
      | ok e' =>
        rw [EgressLog.step, he, append_nil]
        exact ⟨gone ++ live, [], s.head, append_nil _, h.restart_unsectioned lost he⟩

/-- **Every run**: the retained frames are the last part of everything emitted. -/
theorem run_retained (cap : Nat) (retained : RetainedFrames) (start : Point) (ops : List EgressOp) :
    Retained start (run (step cap) (openEmpty retained start) ops).1
      (emitted (run (step cap) (openEmpty retained start) ops).2) :=
  run_induction (P := fun s τ => Retained start s (emitted τ))
    ⟨[], [], start, rfl, Retains.openEmpty retained start⟩
    (fun s τ op h => by
      rw [emitted_append, emitted_singleton]
      exact h.step op)
    ops

end EgressLog

/-! ## Verdicts -/

/-- The cursor lies inside the block it names, as far as the boundaries of the list tell. -/
structure Inside (live : List Frame) (p : Point) : Prop where
  lower : ∀ b, .boundary b ∈ live → b.blockNumber = p.block - 1 → b.endTxIdx ≤ p.index
  upper : ∀ b, .boundary b ∈ live → b.blockNumber = p.block → p.index ≤ b.endTxIdx

section

variable {s : RetainedFrames} {live : List Frame} {a c : Point} (h : s.Holds live) (he : Emits a live c)
  (h0 : 0 ≤ a.index)
include h he h0

/-- A check of one end: it looks at the boundary that the store holds. -/
theorem end_check_iff (block : Int) {P : Int → Prop} :
    (s.boundaryEnd block < 0 ∨ P (s.boundaryEnd block)) ↔
      ∀ b, .boundary b ∈ live → b.blockNumber = block → P b.endTxIdx := by
  rcases h.boundaryEnd_cases block with ⟨b, hb, rfl, hend⟩ | ⟨hnone, hend⟩
  · rw [hend]
    have hpos : 0 ≤ b.endTxIdx := h0.trans (he.boundary_bounds hb).2.1
    constructor
    · rintro (hneg | hP) b' hb' heq
      · omega
      · rwa [he.boundary_inj hb' hb heq]
    · exact fun hall => .inr (hall b hb rfl)
  · exact ⟨fun _ b hb heq => absurd heq (hnone b hb), fun _ => .inl (by omega)⟩

theorem cursorInsideBlock_iff (p : Point) :
    cursorInsideBlock p.index (s.boundaryEnd (p.block - 1)) (s.boundaryEnd p.block) = true ↔
      Inside live p := by
  have hlower := end_check_iff h he h0 (p.block - 1) (P := (· ≤ p.index))
  have hupper := end_check_iff h he h0 p.block (P := (p.index ≤ ·))
  simp only [cursorInsideBlock, Bool.and_eq_true, Bool.or_eq_true, decide_eq_true_eq, hlower, hupper]
  exact ⟨fun hin => ⟨hin.1, hin.2⟩, fun hin => ⟨hin.lower, hin.upper⟩⟩

end

namespace SealerEgress

/-- When a request is served. -/
theorem replayVerdict_serve_iff {p upTo : Point} : (e.replayVerdict p upTo).kind = .serve ↔
      (p.index ≤ upTo.index ∧ p.block ≤ upTo.block) ∧
        cursorInsideBlock p.index (e.retained.boundaryEnd (p.block - 1))
          (e.retained.boundaryEnd p.block) = true ∧
        e.firstRetainedIndex ≤ p.index ∧ e.firstRetainedBlock ≤ p.block := by
  unfold replayVerdict
  dsimp only
  split
  case isTrue h =>
    simp only [reduceCtorEq, false_iff]
    omega
  case isFalse h =>
    split
    case isTrue hskew => simp_all
    case isFalse hskew =>
      have hin : cursorInsideBlock p.index (e.retained.boundaryEnd (p.block - 1))
          (e.retained.boundaryEnd p.block) = true := by simpa using hskew
      split
      case isTrue hfloor =>
        simp only [reduceCtorEq, false_iff]
        omega
      case isFalse hfloor =>
        simp only [ReplayVerdict.SERVE, hin, true_and, true_iff]
        omega

end SealerEgress

namespace Retains

variable {start head mid p : Point} {gone live : List Frame} {e : SealerEgress}

variable (h : Retains start head gone live mid e)
include h

section

variable (hi : e.firstRetainedIndex ≤ p.index) (hb : e.firstRetainedBlock ≤ p.block)
include hi hb

/-- No frame that is gone is wanted from a cursor at or above the floors. -/
theorem not_wanted_gone (hf : f ∈ gone) : wanted p f = false := by
  cases f with
  | relayed i payload =>
    have := h.gone_below i payload hf
    simpa using by omega
  | boundary b =>
    have := (h.emits_gone.boundary_bounds hf).1.2
    have := h.block
    simpa using by omega

/-- From a cursor at or above the floors, everything that is wanted is live. -/
theorem filter_eq : (gone ++ live).filter (wanted p) = live.filter (wanted p) := by
  have hnone : gone.filter (wanted p) = [] :=
    filter_eq_nil_iff.2 fun f hf => Bool.eq_false_iff.1 (h.not_wanted_gone hi hb hf)
  rw [filter_append, hnone, nil_append]

end

theorem inside_iff (h0 : 0 ≤ start.index) : cursorInsideBlock p.index (e.retained.boundaryEnd (p.block - 1))
      (e.retained.boundaryEnd p.block) = true ↔ Inside live p :=
  cursorInsideBlock_iff h.holds h.emits_live (h0.trans h.emits_gone.le.1) p

end Retains

/-! ## The results -/

theorem start_nonneg {cfg : SealerConfig} {s₀ : CanonicalSealerState} (h₀ : Started cfg s₀) :
    0 ≤ (pointOf s₀.cursor).index := by
  cases h₀ with
  | genesis => exact le_rfl
  | seeded seed _ => exact seed.endTxIdx_range.1

namespace EgressLog

/-- A log of two blocks: a record, and an epoch of three slots. -/
def twoBlocks : List EgressOp :=
  [.call (.relayed [7] 0), .call (.boundary 1000 0), .call (.relayed [8] 2), .call (.boundary 2000 0)]

/-- The run of a log from genesis, with a window of two frames on the heap. -/
def heapRun (ops : List EgressOp) : EgressLog × List (EgressOp × EgressOut) :=
  run (step 2) (openEmpty (.heap .fresh) (pointOf CanonicalSealerState.genesis.cursor)) ops

/-- **Replay is complete.** In every run from genesis or a seed, on either store, through any calls
and restarts, a cursor that is served finds every frame ever emitted from it on still retained, and
the answer is exactly those frames, in the order they were emitted, each once. -/
theorem replay_complete {cfg : SealerConfig} {s₀ : CanonicalSealerState} (h₀ : Started cfg s₀)
    (retained : RetainedFrames) (cap : Nat) (ops : List EgressOp) {s : EgressLog}
    {τ : List (EgressOp × EgressOut)}
    (hrun : run (step cap) (openEmpty retained (pointOf s₀.cursor)) ops = (s, τ))
    {cursor : Point} (hserve : (s.egress.replayVerdict cursor s.head).kind = .serve) :
    (∀ f ∈ emitted τ, wanted cursor f = true → f ∈ s.egress.retained.frames) ∧
      s.egress.retained.wanted cursor = (emitted τ).filter (wanted cursor) ∧
      s.egress.handleReplayRequest cursor s.head
        = ((emitted τ).filter (wanted cursor)).map s.egress.retained.forSession
          ++ [.replayDone s.head] ∧
      ((emitted τ).map of).Nodup := by
  obtain ⟨gone, live, mid, heq, h⟩ : Retained (pointOf s₀.cursor) s (emitted τ) := by
    have := run_retained cap retained (pointOf s₀.cursor) ops
    rwa [hrun] at this
  obtain ⟨-, hin, hi, hb⟩ := replayVerdict_serve_iff.1 hserve
  have hinside := (h.inside_iff (start_nonneg h₀)).1 hin
  have hwanted : s.egress.retained.wanted cursor = (emitted τ).filter (wanted cursor) := by
    rw [h.holds.wanted h.emits_live hinside.lower, ← heq, h.filter_eq hi hb]
  refine ⟨fun f hf hw => ?_, hwanted, ?_, ?_⟩
  · rw [h.holds.frames]
    rw [← heq] at hf
    refine (mem_append.1 hf).resolve_left fun hgone => ?_
    rw [h.not_wanted_gone hi hb hgone] at hw
    cases hw
  · rw [handleReplayRequest, hserve, hwanted]
  · rw [← heq]
    exact h.emits.nodup_keys

/-- Two blocks of which the first is posted, then a restart. -/
def restarted : List EgressOp := twoBlocks ++ [.call (.setPostedHead 1), .restart true []]

/-- With block 1 posted the first two frames are gone. After a restart a cursor inside the epoch of
block 2 is served the boundary of that block. -/
theorem replay_complete_of_restart :
    Started SealerConfig.default .genesis ∧
      ((heapRun restarted).1.egress.replayVerdict ⟨2, 2⟩ (heapRun restarted).1.head).kind = .serve ∧
      (heapRun restarted).1.egress.retained.wanted ⟨2, 2⟩
        = (emitted (heapRun restarted).2).filter (wanted ⟨2, 2⟩) ∧
      (heapRun restarted).1.egress.retained.wanted ⟨2, 2⟩ = [.boundary ⟨2, 4, 2000, 0⟩] := by
  have hstart : Started SealerConfig.default .genesis := .genesis
  have hserve : ((heapRun restarted).1.egress.replayVerdict ⟨2, 2⟩ (heapRun restarted).1.head).kind
      = .serve := by decide +kernel
  exact ⟨hstart, hserve, (replay_complete hstart (.heap .fresh) 2 restarted rfl hserve).2.1,
    by decide +kernel⟩

/-- **A member always restarts with the frames it had.** In every run, on either store, a restart from a snapshot with
a section succeeds, whatever came after the snapshot and was lost. It holds the frames that the member held, which are
the last part of everything emitted. -/
theorem restart_keeps_frames (cap : Nat) (retained : RetainedFrames) (start : Point) (ops : List EgressOp)
    (lost : List Frame) :
    let r := run (step cap) (openEmpty retained start) ops
    ∃ gone live e, gone ++ live = emitted r.2 ∧ r.1.egress.retained.Holds live ∧
      r.1.egress.restart true lost r.1.head = .ok e ∧ e.retained.Holds live ∧
        e.firstRetainedBlock = r.1.egress.firstRetainedBlock := by
  obtain ⟨gone, live, mid, heq, h⟩ := run_retained cap retained start ops
  obtain ⟨e, he, h'⟩ := h.restart lost
  exact ⟨gone, live, e, heq, h.holds, he, h'.holds, h'.block.trans h.block.symm⟩

/-- **Retention is safe.** At every step of every run: under the posted rule, a frame that the step
evicts is of a block at or below the posted head, and after it, also when the step is a restart, the
oldest retained frame is of the first retained block. -/
theorem evicts_posted_blocks_only (retained : RetainedFrames) (start : Point) (cap : Nat)
    (ops : List EgressOp) (op : EgressOp) {s s' : EgressLog} {τ : List (EgressOp × EgressOut)}
    {out : EgressOut} (hrun : run (step cap) (openEmpty retained start) ops = (s, τ))
    (hstep : s.step cap op = (s', out)) :
    (s'.egress.windowOnly = false → ∀ f ∈ out.evicted, ∃ b,
      blockOf start.block (emitted τ ++ out.emitted) f = some b ∧ b ≤ s'.egress.postedHead) ∧
    ∀ f, s'.egress.retained.frames.head? = some f →
      blockOf start.block (emitted τ ++ out.emitted) f = some s'.egress.firstRetainedBlock := by
  have hs : Retained start s (emitted τ) := by
    have := run_retained cap retained start ops
    rwa [hrun] at this
  constructor
  · obtain ⟨gone, live, mid, heq, h⟩ := hs
    cases op with
    | call c =>
      have hmoved : Moved start gone live s (s.call cap c).2 (s.call cap c).1 := moved_call h c
      rw [show s.call cap c = (s', out) from hstep] at hmoved
      rw [← heq, append_assoc]
      exact hmoved.posted
    | restart sectioned lost =>
      have hnone : out.evicted = [] := by
        have : (s.step cap (.restart sectioned lost)).2.evicted = [] := by
          rw [step]
          split <;> rfl
        rwa [hstep] at this
      intro _ f hf
      rw [hnone] at hf
      cases hf
  · have hs' : Retained start s' (emitted τ ++ out.emitted) := by
      have : Retained start (s.step cap op).1 _ := hs.step op
      rwa [hstep] at this
    obtain ⟨gone, live, mid, heq, h⟩ := hs'
    intro f hf
    rw [h.holds.frames] at hf
    obtain ⟨rest, rfl⟩ := List.head?_eq_some_iff.1 hf
    rw [← heq]
    exact h.front_block

/-- Posting block 1 evicts its record and its boundary, and the epoch of block 2 is then the oldest
frame. -/
theorem evicts_posted_blocks_only_of_two :
    ((heapRun twoBlocks).1.step 2 (.call (.setPostedHead 1))).2.evicted
        = [.relayed 0 [7], .boundary ⟨1, 1, 1000, 0⟩] ∧
      (∀ f ∈ ((heapRun twoBlocks).1.step 2 (.call (.setPostedHead 1))).2.evicted, ∃ b,
        blockOf 1 (emitted (heapRun twoBlocks).2 ++ []) f = some b ∧ b ≤ 1) ∧
      blockOf 1 (emitted (heapRun twoBlocks).2 ++ []) (.relayed 1 [8]) = some 2 := by
  have hsafe := evicts_posted_blocks_only (.heap .fresh) ⟨0, 1⟩ 2 twoBlocks
    (.call (.setPostedHead 1)) rfl rfl
  exact ⟨by decide +kernel, hsafe.1 rfl, hsafe.2 _ rfl⟩

end EgressLog

end Kardamom.Cluster
