import Kardamom.Cluster.FeedDelivery

/-!
# Runs of the member feed

A step of either thread keeps what the service has written in step with the log (`Feeds`), numbers the
answers in the order of the requests (`Generations`), and moves the messages through the ring in the order
of their writes (`Queues`). From this, in every run, a subscriber gets the wanted frames of its request in
the order of their emission, and a gap marker names the frames that come next.
-/

namespace Kardamom.Cluster

open EgressLog FeedMessage

open Sealer (SealerConfig CanonicalSealerState)
open Sealer.CanonicalSealerState (Started)
open FrameKey FeedEvent Laid EgressLog FeedSystem MemberFeed Machine List Nat Option FrameRing

variable {start h₀ : Point} {fs gone live sent rest : List Frame} {log : EgressLog} {feed : MemberFeed}
  {ring : FrameRing} {T : List FeedEvent}

/-! ## Requests -/

namespace MemberFeed

/-- The newest control message gives the generation and the request of the answer. -/
theorem readControl_cases (feed : MemberFeed) (asked : Option FeedRequest)
    (ms : List (Nat × Option FeedRequest)) :
    (ms = [] ∧ readControl feed asked ms = (feed, asked)) ∨
      ∃ pre g r state, ms = pre ++ [(g, r)] ∧ (r = none → state = .idle) ∧
        readControl feed asked ms = ({ feed with generation := g, state := state }, r) := by
  induction ms generalizing feed asked with
  | nil => exact .inl ⟨rfl, rfl⟩
  | cons m ms ih =>
    right
    obtain ⟨g, r⟩ := m
    rcases ih (feed.onControl (g, r)).1 (feed.onControl (g, r)).2 with
      ⟨rfl, hread⟩ | ⟨pre, g', r', state, rfl, hidle, hread⟩
    · refine ⟨[], g, r, if r.isNone then .idle else feed.state, rfl, fun hr => ?_, hread⟩
      rw [hr]
      rfl
    · exact ⟨(g, r) :: pre, g', r', state, rfl, hidle, hread⟩

end MemberFeed

namespace Feeds

section

variable (h : Feeds start fs h₀ log feed T []) (h0 : 0 ≤ start.index)
include h h0

/-- The answer to a request of a new generation. -/
theorem answered {g : Nat}
    (hg : feed.generation < g) {next : FeedRequest} (hasked : .asked g (some next) ∈ T)
    (state : FeedState) :
    Feeds start fs h₀ log
      ({ feed with generation := g, state := state }.answer next log.egress log.head) T [] := by
  obtain ⟨gone, live, mid, heq, hret, -⟩ := h.answer
  have hnew : wroteIn g T = [] := h.fresh g hg
  unfold MemberFeed.answer
  split
  case h_1 =>
    exact h.change hg.le ⟨gone, live, mid, heq, hret, .refusing rfl hasked hnew ⟨_, .inl rfl⟩⟩
  case h_2 =>
    exact h.change hg.le ⟨gone, live, mid, heq, hret, .refusing rfl hasked hnew ⟨_, .inr rfl⟩⟩
  case h_3 hserve =>
    have hcursor := CursorAt.serve hret h0 hserve
    obtain ⟨-, -, hi, hb⟩ := SealerEgress.replayVerdict_serve_iff.1 hserve
    obtain ⟨pre, post, rfl, hkey, hpre⟩ := hret.holds.walkStart_cases next.fromBlock
    obtain ⟨m, hem, -⟩ := Emits.append_iff.1 hret.emits_live
    have hsent : Sent [] false (wroteIn g T) := hnew ▸ Sent.walking []
    -- what the walk skips is below the cursor of the request
    have hskip : (gone ++ pre).filter (wanted next.cursor) = [] := by
      refine filter_eq_nil_iff.2 fun f hf => Bool.eq_false_iff.1 ?_
      rcases mem_append.1 hf with hf | hf
      · exact hret.not_wanted_gone hi hb hf
      · exact RetainedFrames.not_wanted_of_skipped hem hpre
          (fun b hmem => hcursor.inside.lower b (mem_append_left _ hmem)) hf
    have hwalk : Walks gone (pre ++ post) log { feed with
          generation := g, state := .walking, request := next, cursor := next.cursor
          walkKey := log.egress.retained.walkStart next.fromBlock } [] (gone ++ pre) post := by
      refine ⟨(append_assoc _ _ _).symm, hskip.symm, ?_⟩
      show log.egress.retained.walkStart next.fromBlock = _
      rw [span_append]
      omega
    exact h.change hg.le
      ⟨gone, pre ++ post, mid, heq, hret, .walking rfl ⟨hasked, hsent, hcursor⟩ hwalk⟩

/-- The service read its control messages. -/
theorem controlled {control : List (Nat × Option FeedRequest)}
    (hasked : ∀ m ∈ control, .asked m.1 m.2 ∈ T) (hlt : ∀ m ∈ control, feed.generation < m.1) :
    Feeds start fs h₀ log (match (readControl feed none control).2 with
        | some next => (readControl feed none control).1.answer next log.egress log.head
        | none => (readControl feed none control).1) T [] := by
  rcases feed.readControl_cases none control with
    ⟨-, hread⟩ | ⟨pre, g, r, state, rfl, hidle, hread⟩
  · rw [hread]
    exact h
  · have hmem : (g, r) ∈ pre ++ [(g, r)] := by simp
    rw [hread]
    cases r with
    | some next => exact h.answered h0 (hlt _ hmem) (hasked _ hmem) state
    | none =>
      have hg := hlt _ hmem
      obtain ⟨gone, live, mid, heq, hret, -⟩ := h.answer
      exact h.change hg.le ⟨gone, live, mid, heq, hret, .idle (hidle rfl)⟩

end

/-! ## Calls -/

/-- More events that write nothing, and more frames in the log: the answer keeps its place, and what was
emitted is wanted after it. -/
theorem grow {log' : EgressLog} {gone' live' out : List Frame} {T' : List FeedEvent}
    (h : Answer start gone live log feed T []) (hwrote : ∀ g, wroteIn g (T ++ T') = wroteIn g T)
    (hcursor : ∀ {sent rest}, CursorAt start log.head gone live feed.request.cursor feed.cursor sent rest →
      CursorAt start log'.head gone' live' feed.request.cursor feed.cursor sent (rest ++ out))
    (hwalk : ∀ {sent walked ahead}, Walks gone live log feed sent walked ahead →
      Walks gone' live' log' feed sent walked (ahead ++ out)) :
    Answer start gone' live' log' feed (T ++ T') out := by
  have hrunning : ∀ {sent rest done}, Running start gone live log feed T sent rest done →
      Running start gone' live' log' feed (T ++ T') sent (rest ++ out) done := fun hrun =>
    ⟨mem_append_left _ hrun.asked, (hwrote feed.generation).symm ▸ hrun.wrote, hcursor hrun.cursor⟩
  cases h with
  | idle hs => exact .idle hs
  | refusing hs hasked hnew hrefusal =>
    exact .refusing hs (mem_append_left _ hasked) ((hwrote _).trans hnew) hrefusal
  | gapped hs hat => exact .gapped hs (hcursor hat)
  | live hs hrun => exact .live hs (hrunning hrun)
  | walking hs hrun hwalks => exact .walking hs (hrunning hrun) (hwalk hwalks)

theorem framesIn_emitted (frames : List Frame) (head : Point) :
    framesIn (frames.map fun f => .emitted f head) = frames := by
  rw [framesIn, filterMap_map]
  exact filterMap_some

theorem wroteIn_emitted (g : Nat) (frames : List Frame) (head : Point) :
    wroteIn g (frames.map fun f => .emitted f head) = [] := by
  rw [wroteIn, filterMap_map]
  exact filterMap_eq_nil_iff.2 fun _ _ => rfl

theorem headIn_emitted {head head' : Point} {frames : List Frame} (h : Emits head frames head') :
    headIn head (frames.map fun f => .emitted f head') = head' := by
  rcases eq_nil_or_concat frames with rfl | ⟨init, f, rfl⟩
  · exact h
  · rw [headIn, foldl_map, concat_eq_append, foldl_append]
    rfl

/-- A call of the service, up to the point where it hands over what it emitted. -/
theorem call (h : Feeds start fs h₀ log feed T []) (cap : Nat) (c : EgressCall) :
    Feeds start fs h₀ (log.call cap c).1 feed
      (T ++ (log.call cap c).2.emitted.map fun f => .emitted f (log.call cap c).1.head)
      (log.call cap c).2.emitted := by
  obtain ⟨gone, live, mid, heq, hret, hanswer⟩ := h.answer
  have hmoved : Moved start gone live log (log.call cap c).2 (log.call cap c).1 := moved_call hret c
  generalize (log.call cap c).1 = log' at hmoved ⊢
  generalize (log.call cap c).2 = out at hmoved ⊢
  obtain ⟨live', mid', hcut, hret'⟩ := hmoved.cut
  have hwrote : ∀ g, wroteIn g (T ++ out.emitted.map fun f => .emitted f log'.head) = wroteIn g T :=
    fun g => by rw [wroteIn_append, wroteIn_emitted, append_nil]
  have hall : gone ++ out.evicted ++ live' = gone ++ live ++ out.emitted := by
    rw [append_assoc, append_assoc, hcut]
  refine ⟨h.ok.append fun e he g m => ?_, ?_, fun g hg => (hwrote g).trans (h.fresh g hg),
    gone ++ out.evicted, live', mid', ?_, hret', ?_⟩
  · obtain ⟨f, -, rfl⟩ := mem_map.1 he
    simp
  · rw [headIn_append, ← h.head, headIn_emitted hmoved.emits]
  · rw [hall, heq, framesIn_append, framesIn_emitted, append_assoc]
  · refine grow hanswer hwrote (fun hcursor => hcursor.emit hmoved.emits hcut) fun hwalk => ?_
    refine ⟨by rw [hall, hwalk.frames, append_assoc], hwalk.sent, ?_⟩
    rw [hwalk.key, hmoved.width, hmoved.walkFront, span_append]
    omega

/-- An event of the feeder thread. -/
theorem feeder (h : Feeds start fs h₀ log feed T []) {e : FeedEvent}
    (he : (∃ g r, e = .asked g r) ∨ ∃ g m, e = .delivered g m) :
    Feeds start fs h₀ log feed (T ++ [e]) [] := by
  obtain ⟨hwrote, hframes, hhead, hok⟩ : (∀ g, wroteIn g (T ++ [e]) = wroteIn g T) ∧
      framesIn (T ++ [e]) = framesIn T ∧ headIn h₀ (T ++ [e]) = headIn h₀ T ∧ EventOk fs h₀ T e := by
    rcases he with ⟨g', r, rfl⟩ | ⟨g', m, rfl⟩
    · exact ⟨by simp [wroteIn], by simp [framesIn], headIn_append T _ h₀, trivial⟩
    · exact ⟨by simp [wroteIn], by simp [framesIn], headIn_append T _ h₀, trivial⟩
  obtain ⟨gone, live, mid, heq, hret, hanswer⟩ := h.answer
  refine ⟨h.ok.snoc hok, h.head.trans hhead.symm, fun g hg => (hwrote g).trans (h.fresh g hg),
    gone, live, mid, by rw [hframes, heq], hret, grow hanswer hwrote (fun hcursor => ?_) fun hwalk => ?_⟩
  · rwa [append_nil]
  · rwa [append_nil]

/-- The start of a turn. -/
theorem turn {lag : List Frame} (h : Feeds start fs h₀ log feed T lag) (answers : List RingAnswer) :
    Turn start fs h₀ log T feed ⟨answers, []⟩ lag where
  feeds := by
    rw [events, map_nil, append_nil]
    exact h
  marker g next id hmem := by cases hmem

end Feeds

/-- A call emits at most one frame. -/
theorem EgressLog.call_emitted (log : EgressLog) (cap : Nat) (c : EgressCall) :
    (log.call cap c).2.emitted = [] ∨ ∃ f, (log.call cap c).2.emitted = [f] := by
  cases c with
  | relayed | boundary => exact .inr ⟨_, rfl⟩
  | setPostedHead | setRules => exact .inl rfl

namespace Turn

/-- The service hands over what a call emitted. -/
theorem onFrames {frames : List Frame} (hframes : frames = [] ∨ ∃ f, frames = [f])
    (h : Turn start fs h₀ log T feed ring frames) :
    Turn start fs h₀ log T (onFrames ring frames feed).1 (onFrames ring frames feed).2 [] := by
  rcases hframes with rfl | ⟨f, rfl⟩
  · exact h
  · exact h.onFrame

/-- What the replay rules say about the cursor of a gap marker. -/
theorem verdict (h : Turn start fs h₀ log T feed ring []) (h0 : 0 ≤ start.index) {g : Nat}
    {next : Point} {id : Int} (hmem : .wrote g (.feedGap next id) ∈ ring.events) :
    (log.egress.replayVerdict next log.head).kind ≠ .ahead ∧
      ((log.egress.replayVerdict next log.head).kind = .serve ↔
        log.egress.firstRetainedIndex ≤ next.index ∧ log.egress.firstRetainedBlock ≤ next.block) := by
  obtain ⟨⟨g', m⟩, hwrote, heq⟩ := mem_map.1 hmem
  cases heq
  obtain ⟨hs, rfl⟩ := h.marker _ next id hwrote
  obtain ⟨gone, live, mid, -, hret, hanswer⟩ := h.feeds.answer
  cases hanswer with
  | idle hs' | refusing hs' | walking hs' | live hs' => rw [hs'] at hs; cases hs
  | gapped _ hcursor => exact hcursor.verdict hret h0

end Turn

/-! ## Generations -/

/-- The answers are numbered in the order of the requests. -/
structure Generations (S : FeedSystem) (T : List FeedEvent) : Prop where
  sorted : S.feeder.control.Pairwise fun a b => a.1 < b.1
  feed_lt : ∀ m ∈ S.feeder.control, S.feed.generation < m.1
  feed_le : S.feed.generation ≤ S.feeder.generation
  control_le : ∀ m ∈ S.feeder.control, m.1 ≤ S.feeder.generation
  asked : ∀ m ∈ S.feeder.control, .asked m.1 m.2 ∈ T
  asked_le : ∀ g r, .asked g r ∈ T → g ≤ S.feeder.generation
  asked_once : ∀ g r r', .asked g r ∈ T → .asked g r' ∈ T → r = r'

namespace Generations

variable {S : FeedSystem}

/-- Events that ask for nothing. -/
theorem append (h : Generations S T) {T' : List FeedEvent}
    (hquiet : ∀ e ∈ T', ∀ g r, e ≠ .asked g r) : Generations S (T ++ T') := by
  have hold : ∀ {g r}, .asked g r ∈ T ++ T' → .asked g r ∈ T := fun {g r} hmem =>
    (mem_append.1 hmem).resolve_right fun hnew => hquiet _ hnew g r rfl
  exact { h with
    asked := fun m hm => mem_append_left _ (h.asked m hm)
    asked_le := fun g r hmem => h.asked_le g r (hold hmem)
    asked_once := fun g r r' hr hr' => h.asked_once g r r' (hold hr) (hold hr') }

/-- The feeder starts the next generation. -/
theorem commit (h : Generations S T) (message : Option FeedRequest) : Generations
      { S with feeder := { S.feeder with
        generation := S.feeder.generation + 1
        control := S.feeder.control ++ [(S.feeder.generation + 1, message)] } }
      (T ++ [.asked (S.feeder.generation + 1) message]) where
  sorted := pairwise_snoc.2 ⟨h.sorted, fun a ha => lt_succ_of_le (h.control_le a ha)⟩
  feed_lt := forall_mem_snoc.2 ⟨h.feed_lt, lt_succ_of_le h.feed_le⟩
  feed_le := le_succ_of_le h.feed_le
  control_le := forall_mem_snoc.2 ⟨fun m hm => le_succ_of_le (h.control_le m hm), le_rfl⟩
  asked := forall_mem_snoc.2 ⟨fun m hm => mem_append_left _ (h.asked m hm), by simp⟩
  asked_le g r hmem := by
    rcases mem_append.1 hmem with hmem | hmem
    · exact le_succ_of_le (h.asked_le g r hmem)
    · cases mem_singleton.1 hmem
      exact le_rfl
  asked_once g r r' hr hr' := by
    rcases mem_append.1 hr with hr | hr <;> rcases mem_append.1 hr' with hr' | hr'
    · exact h.asked_once g r r' hr hr'
    · cases mem_singleton.1 hr'
      exact absurd (h.asked_le _ r hr) (not_succ_le_self _)
    · cases mem_singleton.1 hr
      exact absurd (h.asked_le _ r' hr') (not_succ_le_self _)
    · cases mem_singleton.1 hr
      cases mem_singleton.1 hr'
      rfl

end Generations

namespace MemberFeed

variable (feed : MemberFeed) (ring : FrameRing)

theorem generation_carry (f : Frame) : (feed.carry ring f).1.generation = feed.generation := by
  unfold carry
  dsimp only
  split <;> rfl

theorem generation_onFrame (f : Frame) : (feed.onFrame ring f).1.generation = feed.generation := by
  have hcarry := feed.generation_carry ring f
  unfold onFrame
  split
  case isTrue =>
    split
    case h_1 heq => rwa [heq] at hcarry
    case h_2 heq => rwa [heq] at hcarry
  case isFalse => rfl

theorem generation_onFrames (frames : List Frame) :
    (onFrames ring frames feed).1.generation = feed.generation := by
  induction frames generalizing feed ring with
  | nil => rfl
  | cons f frames ih => exact (ih _ _).trans (feed.generation_onFrame ring f)

section

variable (retained : RetainedFrames) (upTo : Point)

theorem generation_walkStep (w : Walk) :
    (Walk.step retained upTo w).1.feed.generation = w.feed.generation := by
  unfold Walk.step
  split
  case isTrue =>
    unfold finishWalk
    dsimp only
    split <;> rfl
  case isFalse =>
    split
    case isTrue => rfl
    case isFalse =>
      split
      case h_1 => rfl
      case h_2 f _ =>
        have hcarry := w.feed.generation_carry w.ring f
        split
        case isTrue =>
          split
          case h_1 heq => rwa [heq] at hcarry
          case h_2 heq => rwa [heq] at hcarry
        case isFalse => rfl

theorem generation_walkLoop (fuel : Nat) (w : Walk) :
    (Walk.loop retained upTo fuel w).feed.generation = w.feed.generation := by
  induction fuel generalizing w with
  | zero => rfl
  | succ fuel ih =>
    rw [Walk.loop]
    split
    case isTrue => rw [ih, generation_walkStep]
    case isFalse => rw [generation_walkStep]

theorem generation_step : (feed.step ring retained upTo).1.generation = feed.generation := by
  unfold step
  split
  case h_1 =>
    unfold sendRefusal
    dsimp only
    split <;> rfl
  case h_2 => exact generation_walkLoop retained upTo walkBytes ⟨feed, ring, walkBytes⟩
  all_goals rfl

end

theorem generation_answer (next : FeedRequest) (egress : SealerEgress) (upTo : Point) :
    (feed.answer next egress upTo).generation = feed.generation := by
  unfold answer
  split <;> rfl

/-- A duty cycle works for the generation of the newest message that it read. -/
theorem generation_doWork (egress : SealerEgress) (upTo : Point)
    (control : List (Nat × Option FeedRequest)) :
    (control = [] ∧ (feed.doWork ring egress upTo control).1.generation = feed.generation) ∨
      ∃ pre r, control = pre ++ [((feed.doWork ring egress upTo control).1.generation, r)] := by
  unfold doWork
  rw [generation_step]
  rcases feed.readControl_cases none control with
    ⟨hnil, hread⟩ | ⟨pre, g, r, state, hcontrol, -, hread⟩
  · exact .inl ⟨hnil, by rw [hread]⟩
  · refine .inr ⟨pre, r, ?_⟩
    rw [hread]
    cases r with
    | none => exact hcontrol
    | some next =>
      rw [generation_answer]
      exact hcontrol

end MemberFeed

/-- The service read the first control messages. -/
theorem Generations.doWork {S : FeedSystem} (h : Generations S T) (n : Nat) (ring : FrameRing)
    (frames : List (Nat × FeedMessage)) :
    Generations { S with
        feed := (S.feed.doWork ring S.log.egress S.log.head (S.feeder.control.take n)).1
        feeder := ⟨S.feeder.generation, S.feeder.control.drop n, frames⟩ } T := by
  have hsplit := take_append_drop n S.feeder.control
  have hdrop : ∀ m ∈ S.feeder.control.drop n, m ∈ S.feeder.control := fun m hm =>
    mem_of_mem_drop hm
  have hsorted := h.sorted
  rw [← hsplit] at hsorted
  obtain ⟨-, hrest, hlt⟩ := pairwise_append.1 hsorted
  rcases S.feed.generation_doWork ring S.log.egress S.log.head (S.feeder.control.take n) with
    ⟨-, hgen⟩ | ⟨pre, r, hlast⟩
  · exact ⟨hrest, fun m hm => hgen ▸ h.feed_lt m (hdrop m hm), hgen ▸ h.feed_le,
      fun m hm => h.control_le m (hdrop m hm), fun m hm => h.asked m (hdrop m hm), h.asked_le,
      h.asked_once⟩
  · have hmem := hlast ▸ mem_append_right pre (mem_singleton.2 rfl)
    exact ⟨hrest, fun m hm => hlt _ hmem m hm, h.control_le _ (mem_of_mem_take hmem),
      fun m hm => h.control_le m (hdrop m hm), fun m hm => h.asked m (hdrop m hm), h.asked_le,
      h.asked_once⟩

/-! ## Queues -/

/-- The messages of a generation in a ring. -/
def ringIn (g : Nat) (frames : List (Nat × FeedMessage)) : List FeedMessage :=
  frames.filterMap fun m => if m.1 = g then some m.2 else none

@[simp] theorem ringIn_append (g : Nat) (xs ys : List (Nat × FeedMessage)) :
    ringIn g (xs ++ ys) = ringIn g xs ++ ringIn g ys := filterMap_append

/-- The subscriber gets the messages of a generation in the order of their writes. What was written in the
current generation and not delivered is in the ring. -/
structure Queues (feeder : Feeder) (T : List FeedEvent) : Prop where
  inOrder : ∀ g, deliveredIn g T <+: wroteIn g T
  pending : ∀ g, feeder.generation ≤ g → wroteIn g T = deliveredIn g T ++ ringIn g feeder.frames

namespace Queues

variable {feeder : Feeder}

theorem wroteIn_events (g : Nat) (ring : FrameRing) :
    wroteIn g ring.events = ringIn g ring.wrote := by
  rw [wroteIn, events, filterMap_map]
  rfl

theorem deliveredIn_events (g : Nat) (ring : FrameRing) : deliveredIn g ring.events = [] := by
  rw [deliveredIn, events, filterMap_map]
  exact filterMap_eq_nil_iff.2 fun _ _ => rfl

section

variable (h : Queues feeder T)
include h

/-- Events that neither write nor deliver. -/
theorem append {T' : List FeedEvent} (hw : ∀ g, wroteIn g T' = [])
    (hd : ∀ g, deliveredIn g T' = []) : Queues feeder (T ++ T') := by
  refine ⟨fun g => ?_, fun g hg => ?_⟩
  · rw [deliveredIn_append, wroteIn_append, hw, hd, append_nil, append_nil]
    exact h.inOrder g
  · rw [deliveredIn_append, wroteIn_append, hw, hd, append_nil, append_nil]
    exact h.pending g hg

/-- The service wrote into the ring. -/
theorem push (ring : FrameRing) :
    Queues { feeder with frames := feeder.frames ++ ring.wrote } (T ++ ring.events) := by
  refine ⟨fun g => ?_, fun g hg => ?_⟩
  · rw [deliveredIn_append, wroteIn_append, deliveredIn_events, append_nil]
    exact (h.inOrder g).trans (prefix_append _ _)
  · rw [deliveredIn_append, wroteIn_append, deliveredIn_events, wroteIn_events, h.pending g hg,
      append_nil, ringIn_append, append_assoc]

/-- The feeder offered the oldest message. -/
theorem offer (hfresh : ∀ g, feeder.generation < g → wroteIn g T = [])
    (accepted : Bool) :
    Queues (feeder.offer accepted).1
      (T ++ (feeder.offer accepted).2.toList.map fun m => .delivered m.1 m.2) := by
  unfold Feeder.offer
  split
  case h_1 =>
    rw [toList_none, map_nil, append_nil]
    exact h
  case h_2 m rest hframes =>
    split
    case isTrue hold =>
      rw [toList_none, map_nil, append_nil]
      refine ⟨h.inOrder, fun g hg => ?_⟩
      have hle : feeder.generation ≤ g := hg
      have hpending := h.pending g hle
      -- a message of a later generation was never written
      have hne : m.1 ≠ g := by
        intro heq
        rw [hfresh g (by omega), hframes] at hpending
        simp [ringIn, heq] at hpending
      rw [hpending, hframes, ringIn, filterMap_cons_none (by simp [hne])]
      rfl
    case isFalse hcurrent =>
      split
      case isTrue =>
        have hpending : ∀ g, feeder.generation ≤ g →
            wroteIn g T = deliveredIn g (T ++ [.delivered m.1 m.2]) ++ ringIn g rest := by
          intro g hg
          rw [h.pending g hg, hframes]
          by_cases heq : m.1 = g
          · simp [deliveredIn, ringIn, heq]
          · simp [deliveredIn, ringIn, heq]
        have hsame : ∀ g, wroteIn g (T ++ [.delivered m.1 m.2]) = wroteIn g T := fun g => by
          simp [wroteIn]
        refine ⟨fun g => ?_, fun g hg => (hsame g).trans (hpending g hg)⟩
        rw [toList_some, map_singleton, hsame]
        by_cases heq : m.1 = g
        · exact ⟨_, (hpending g (by omega)).symm⟩
        · have hkeep : deliveredIn g (T ++ [.delivered m.1 m.2]) = deliveredIn g T := by
            simp [deliveredIn, heq]
          rw [hkeep]
          exact h.inOrder g
      case isFalse =>
        rw [toList_none, map_nil, append_nil]
        exact h

end

end Queues

/-! ## Runs -/

/-- The system after a trace, from a log that emitted `fs` up to `h₀`. -/
structure Feeding (start : Point) (fs : List Frame) (h₀ : Point) (S : FeedSystem)
    (T : List FeedEvent) : Prop where
  feeds : Feeds start fs h₀ S.log S.feed T []
  generations : Generations S T
  queues : Queues S.feeder T

namespace Feeding

variable {S : FeedSystem}

/-- The state after a turn of the service whose writes go into the ring. -/
theorem push {log : EgressLog} {feed : MemberFeed} {control : List (Nat × Option FeedRequest)}
    (hturn : Turn start fs h₀ log T feed ring [])
    (hgen : Generations ⟨log, feed, S.feeder.generation, control, S.feeder.frames⟩ T)
    (hqueues : Queues S.feeder T) :
    Feeding start fs h₀
      (push ⟨log, S.feed, S.feeder.generation, control, S.feeder.frames⟩ feed ring).1
      (T ++ ring.events) where
  feeds := hturn.feeds
  generations := by
    have hquiet : ∀ e ∈ ring.events, ∀ g r, e ≠ .asked g r := by
      intro e he g r
      obtain ⟨m, -, rfl⟩ := mem_map.1 he
      simp
    exact { hgen.append hquiet with }
  queues := by
    exact { hqueues.push ring with }

variable (h : Feeding start fs h₀ S T)
include h

/-- The feeder writes a control message. -/
theorem commit (fits : Bool) (message : Option FeedRequest) :
    Feeding start fs h₀ (S.commit fits message).1 (T ++ (S.commit fits message).2) := by
  cases fits with
  | false =>
    show Feeding start fs h₀ S (T ++ [])
    rw [append_nil]
    exact h
  | true =>
    have hquiet : Queues S.feeder (T ++ [.asked (S.feeder.generation + 1) message]) :=
      h.queues.append (fun g => rfl) fun g => rfl
    have hqueues : Queues (S.commit true message).1.feeder
        (T ++ [.asked (S.feeder.generation + 1) message]) :=
      ⟨hquiet.inOrder, fun g hg => hquiet.pending g (le_of_succ_le hg)⟩
    exact ⟨h.feeds.feeder (.inl ⟨_, _, rfl⟩), h.generations.commit message, hqueues⟩

/-- The feeder offers the oldest message. -/
theorem offer (cap : Nat) (accepted : Bool) :
    Feeding start fs h₀ (S.step cap (.offer accepted)).1 (T ++ (S.step cap (.offer accepted)).2) := by
  have hqueues := h.queues.offer
    (fun g hg => h.feeds.fresh g (lt_of_le_of_lt h.generations.feed_le hg)) accepted
  have hgen : Generations ⟨S.log, S.feed, (S.feeder.offer accepted).1⟩ T := by
    unfold Feeder.offer
    split
    case h_1 => exact h.generations
    case h_2 =>
      split
      case isTrue => exact { h.generations with }
      case isFalse => split <;> exact { h.generations with }
  show Feeding start fs h₀ ⟨S.log, S.feed, (S.feeder.offer accepted).1⟩
    (T ++ (S.feeder.offer accepted).2.toList.map fun m => .delivered m.1 m.2)
  cases hout : (S.feeder.offer accepted).2 with
  | none =>
    rw [hout] at hqueues
    refine ⟨?_, ?_, hqueues⟩
    · exact (append_nil T).symm ▸ h.feeds
    · exact (append_nil T).symm ▸ hgen
  | some m =>
    rw [hout] at hqueues
    refine ⟨h.feeds.feeder (.inr ⟨m.1, m.2, rfl⟩), hgen.append fun e he g r => ?_, hqueues⟩
    cases mem_singleton.1 he
    simp

/-- A call of the service, as a turn that writes into the ring. -/
theorem callTurn (cap : Nat) (c : EgressCall) (answers : List RingAnswer) :
    Turn start fs h₀ (S.log.call cap c).1
      (T ++ (S.log.call cap c).2.emitted.map fun f => .emitted f (S.log.call cap c).1.head)
      (onFrames ⟨answers, []⟩ (S.log.call cap c).2.emitted S.feed).1
      (onFrames ⟨answers, []⟩ (S.log.call cap c).2.emitted S.feed).2 [] :=
  Turn.onFrames (S.log.call_emitted cap c) ((h.feeds.call cap c).turn answers)

/-- A duty cycle, as a turn that writes into the ring. -/
theorem doWorkTurn (h0 : 0 ≤ start.index) (n : Nat) (answers : List RingAnswer) : Turn start fs h₀ S.log T
      (S.feed.doWork ⟨answers, []⟩ S.log.egress S.log.head (S.feeder.control.take n)).1
      (S.feed.doWork ⟨answers, []⟩ S.log.egress S.log.head (S.feeder.control.take n)).2 [] :=
  (Feeds.turn (h.feeds.controlled h0 (fun m hm => h.generations.asked m (mem_of_mem_take hm))
    fun m hm => h.generations.feed_lt m (mem_of_mem_take hm)) answers).step

/-- **One step.** -/
theorem step (h0 : 0 ≤ start.index) (cap : Nat) (op : FeedOp) :
    Feeding start fs h₀ (S.step cap op).1 (T ++ (S.step cap op).2) := by
  cases op with
  | request r fits => exact h.commit fits (some r)
  | lost fits => exact h.commit fits none
  | offer accepted => exact h.offer cap accepted
  | doWork visible answers =>
    have hturn := h.doWorkTurn h0 (min visible controlBatch) answers
    exact push hturn (h.generations.doWork _ _ _) h.queues
  | call c answers =>
    have hturn := h.callTurn cap c answers
    have hquiet : ∀ e ∈ (S.log.call cap c).2.emitted.map
        (fun f => FeedEvent.emitted f (S.log.call cap c).1.head), ∀ g r, e ≠ .asked g r := by
      intro e he g r
      obtain ⟨f, -, rfl⟩ := mem_map.1 he
      simp
    have hgens := h.generations.append hquiet
    have hgen := S.feed.generation_onFrames ⟨answers, []⟩ (S.log.call cap c).2.emitted
    have hqueues := h.queues.append
      (fun g => Feeds.wroteIn_emitted g (S.log.call cap c).2.emitted (S.log.call cap c).1.head)
      (fun g => by
        rw [deliveredIn, filterMap_map]
        exact filterMap_eq_nil_iff.2 fun _ _ => rfl)
    have hpush := push hturn { hgens with
      feed_lt := hgen.symm ▸ hgens.feed_lt, feed_le := hgen.symm ▸ hgens.feed_le } hqueues
    rw [append_assoc] at hpush
    exact hpush

end Feeding

namespace FeedSystem

/-- What happened in a run. -/
def trace (σ : List (FeedOp × List FeedEvent)) : List FeedEvent := σ.flatMap Prod.snd

/-- The feed of a log that emitted `fs` from `start` on. -/
theorem run_feeding {fs : List Frame} (hret : Retained start log fs) (h0 : 0 ≤ start.index)
    (cap : Nat) (ops : List FeedOp) :
    Feeding start fs log.head (run (fun s => s.step cap) (FeedSystem.start log) ops).1
      (trace (run (fun s => s.step cap) (FeedSystem.start log) ops).2) := by
  obtain ⟨gone, live, mid, heq, hret⟩ := hret
  refine run_induction
    (P := fun S σ => Feeding start fs log.head S (trace σ)) ?_ (fun S σ op h => ?_) ops
  · exact ⟨⟨.nil, rfl, fun _ _ => rfl, gone, live, mid, heq.trans (append_nil _).symm, hret,
      .idle rfl⟩, ⟨.nil, by simp [FeedSystem.start, Feeder.start], Nat.zero_le _,
        by simp [FeedSystem.start, Feeder.start], by simp [FeedSystem.start, Feeder.start],
        by simp [trace], by simp [trace]⟩, ⟨fun _ => prefix_rfl, fun _ _ => rfl⟩⟩
  · rw [trace, flatMap_append, flatMap_singleton]
    exact h.step h0 cap op

/-- A log of two blocks, a request from its start, and two records while the feed is live, of which the
second finds the ring full. The feeder offers five messages. -/
def overflowing : List FeedOp :=
  [.request ⟨0, 1, 7⟩ true, .doWork 1 (List.replicate 5 ⟨1024, true⟩),
    .call (.relayed [9] 0) [⟨1024, true⟩], .call (.relayed [10] 0) [⟨128, true⟩, ⟨128, true⟩]]
    ++ List.replicate 8 (.offer true)

/-- **The feed delivers.** In every run of the service and the feeder, over the log of any run from
genesis or a seed, with any requests, ring sizes and back-pressure:

* every write is what its answer may send next: the next wanted frame, `REPLAY_DONE` when all wanted
  frames are sent, or a gap marker whose cursor wants exactly the frames that are emitted and not sent;
* in each generation the subscriber gets the messages in the order of their writes, from the first on;
* so the frames that it gets are the first wanted frames of its request, in the order of emission;
* while the feed is live, the frames written are all the wanted frames;
* the cursor of a gap marker is never ahead, and only the retention floor can refuse it. -/
theorem feed_delivers {cfg : SealerConfig} {s₀ : CanonicalSealerState}
    (h₀ : Started cfg s₀) (retained : RetainedFrames) (cap : Nat) (before : List EgressOp)
    {log : EgressLog} {τ : List (EgressOp × EgressOut)}
    (hlog : run (EgressLog.step cap) (openEmpty retained (pointOf s₀.cursor)) before = (log, τ))
    (ops : List FeedOp) {S : FeedSystem} {σ : List (FeedOp × List FeedEvent)}
    (hrun : run (fun s => s.step cap) (FeedSystem.start log) ops = (S, σ)) :
    TraceOk (emitted τ) log.head (trace σ) ∧
      (∀ g, deliveredIn g (trace σ) <+: wroteIn g (trace σ)) ∧
      (∀ g r, .asked g (some r) ∈ trace σ → frames (deliveredIn g (trace σ))
        <+: (emitted τ ++ framesIn (trace σ)).filter (wanted r.cursor)) ∧
      (S.feed.state = .live → frames (wroteIn S.feed.generation (trace σ))
        = (emitted τ ++ framesIn (trace σ)).filter (wanted S.feed.request.cursor)) ∧
      ∀ op g next id, .wrote g (.feedGap next id) ∈ (S.step cap op).2 →
        ((S.step cap op).1.log.egress.replayVerdict next (S.step cap op).1.log.head).kind ≠ .ahead ∧
        (((S.step cap op).1.log.egress.replayVerdict next (S.step cap op).1.log.head).kind = .serve ↔
          (S.step cap op).1.log.egress.firstRetainedIndex ≤ next.index ∧
          (S.step cap op).1.log.egress.firstRetainedBlock ≤ next.block) := by
  have h0 := start_nonneg h₀
  have hret := run_retained cap retained (pointOf s₀.cursor) before
  rw [hlog] at hret
  have h := run_feeding hret h0 cap ops
  rw [hrun] at h
  refine ⟨h.feeds.ok, h.queues.inOrder, fun g r hasked => ?_, fun hlive => ?_, ?_⟩
  · have hframes := h.feeds.ok.frames_prefix fun r' hr' => by
      cases h.generations.asked_once g _ _ hr' hasked
      rfl
    exact ((h.queues.inOrder g).filterMap _).trans hframes
  · obtain ⟨gone, live, mid, heq, -, hanswer⟩ := h.feeds.answer
    cases hanswer with
    | idle hs | refusing hs | walking hs | gapped hs => rw [hs] at hlive; cases hlive
    | live _ hrun =>
      have hwanted := hrun.cursor.wanted
      rw [append_nil, heq] at hwanted
      rw [hrun.wrote.frames_eq, ← hwanted]
  · intro op g next id hmem
    cases op with
    | request r fits | lost fits => cases fits <;> simp [step, commit, Feeder.commit] at hmem
    | offer accepted => simp [step] at hmem
    | doWork visible answers =>
      exact (h.doWorkTurn h0 (min visible controlBatch) answers).verdict h0 hmem
    | call c answers =>
      rcases mem_append.1 hmem with hmem | hmem
      · simp at hmem
      · exact (h.callTurn cap c answers).verdict h0 hmem

/-- In the run above the subscriber gets the four frames, `REPLAY_DONE`, the first live record and the
marker, whose cursor wants the second record. -/
theorem feed_delivers_overflowing : Started SealerConfig.default .genesis ∧
      deliveredIn 2 (trace (run (fun s => s.step 2)
          (FeedSystem.start (heapRun twoBlocks).1) overflowing).2)
        = [.frame (.relayed 0 [7]), .frame (.boundary ⟨1, 1, 1000, 0⟩), .frame (.relayed 1 [8]),
          .frame (.boundary ⟨2, 4, 2000, 0⟩), .replayDone ⟨4, 3⟩ 7, .frame (.relayed 4 [9]),
          .feedGap ⟨5, 3⟩ 7] ∧
      TraceOk (emitted (heapRun twoBlocks).2) (heapRun twoBlocks).1.head
        (trace (run (fun s => s.step 2)
          (FeedSystem.start (heapRun twoBlocks).1) overflowing).2) := by
  have hstart : Started SealerConfig.default .genesis := .genesis
  exact ⟨hstart, by decide +kernel,
    (feed_delivers hstart (.heap .fresh) 2 twoBlocks rfl overflowing rfl).1⟩

end FeedSystem

end Kardamom.Cluster
