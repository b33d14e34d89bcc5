import Kardamom.Cluster.FeedTrace

/-!
# Delivery of the member feed

Every message that the service writes is one that its answer may send: the answer keeps its walk key, its
cursor and what it carried in step with the log (`Answer`), through every call that emits or evicts and
through every step of the walk. The rings are queues, so the subscriber gets a prefix of what was written
in a generation (`Queues`).
-/

namespace Kardamom.Cluster

open FrameKey FeedEvent Laid MemberFeed.Walk List FrameRing

variable {start h₀ : Point} {fs gone live sent rest : List Frame} {log : EgressLog} {feed : MemberFeed}
  {ring : FrameRing} {T : List FeedEvent} {done : Bool}

/-! ## The answer of the service -/

/-- An answer that sends frames: the request started its generation, and the cursor is after what it
sent. -/
structure Running (start : Point) (gone live : List Frame) (log : EgressLog) (feed : MemberFeed)
    (T : List FeedEvent) (sent rest : List Frame) (done : Bool) : Prop where
  asked : .asked feed.generation (some feed.request) ∈ T
  wrote : Sent sent done (wroteIn feed.generation T)
  cursor : CursorAt start log.head gone live feed.request.cursor feed.cursor sent rest

/-- The walk of an answer stands between the frames that it walked and those ahead of it. -/
structure Walks (gone live : List Frame) (log : EgressLog) (feed : MemberFeed)
    (sent walked ahead : List Frame) : Prop where
  frames : gone ++ live = walked ++ ahead
  sent : sent = walked.filter (wanted feed.request.cursor)
  key : feed.walkKey = log.egress.retained.walkFront - span log.egress.retained.width gone
    + span log.egress.retained.width walked

/-- The state of the feed, in step with the log. A live feed lags behind it by the frame that the service
is about to hand over. -/
inductive Answer (start : Point) (gone live : List Frame) (log : EgressLog) (feed : MemberFeed)
    (T : List FeedEvent) (lag : List Frame) : Prop
  | idle (hs : feed.state = .idle)
  | refusing (hs : feed.state = .refusing) (hasked : .asked feed.generation (some feed.request) ∈ T)
      (hnew : wroteIn feed.generation T = [])
      (hrefusal : ∃ p, feed.refusal = .replayAhead p feed.request.requestId ∨
        feed.refusal = .replayUnavailable p feed.request.requestId)
  | walking {sent rest walked ahead : List Frame} (hs : feed.state = .walking)
      (hrun : Running start gone live log feed T sent rest false)
      (hwalk : Walks gone live log feed sent walked ahead)
  | live {sent : List Frame} (hs : feed.state = .live)
      (hrun : Running start gone live log feed T sent lag true)
  | gapped {sent rest : List Frame} (hs : feed.state = .gapped)
      (hcursor : CursorAt start log.head gone live feed.request.cursor feed.cursor sent rest)

variable {lag lag' : List Frame}

theorem Answer.of_ne_live (h : Answer start gone live log feed T lag)
    (hne : feed.state ≠ .live) : Answer start gone live log feed T lag' := by
  cases h with
  | idle hs => exact .idle hs
  | refusing hs hasked hnew hrefusal => exact .refusing hs hasked hnew hrefusal
  | walking hs hrun hwalk => exact .walking hs hrun hwalk
  | live hs => exact absurd hs hne
  | gapped hs hcursor => exact .gapped hs hcursor

/-- The feed is in step with a log that emitted the frames. -/
def InStep (start : Point) (frames : List Frame) (log : EgressLog) (feed : MemberFeed)
    (T : List FeedEvent) (lag : List Frame) : Prop :=
  ∃ gone live mid, gone ++ live = frames ∧ Retains start log.head gone live mid log.egress ∧
    Answer start gone live log feed T lag

/-- The service side of the system after a trace. -/
structure Feeds (start : Point) (fs : List Frame) (h₀ : Point) (log : EgressLog) (feed : MemberFeed)
    (T : List FeedEvent) (lag : List Frame) : Prop where
  ok : TraceOk fs h₀ T
  head : log.head = headIn h₀ T
  /-- Nothing was written in a generation that the service did not see. -/
  fresh : ∀ g, feed.generation < g → wroteIn g T = []
  answer : ∃ gone live mid, gone ++ live = fs ++ framesIn T ∧
    Retains start log.head gone live mid log.egress ∧ Answer start gone live log feed T lag

/-! ## One write -/

theorem wroteIn_wrote_self (g : Nat) (m : FeedMessage) :
    wroteIn g (T ++ [.wrote g m]) = wroteIn g T ++ [m] := by
  simp [wroteIn]

theorem wroteIn_wrote_of_ne {g g' : Nat} (h : g ≠ g') (m : FeedMessage) :
    wroteIn g' (T ++ [.wrote g m]) = wroteIn g' T := by
  simp [wroteIn, h]

variable {feed' : MemberFeed} {m : FeedMessage}

/-- The service writes a message that its answer may send. -/
theorem Feeds.write (h : Feeds start fs h₀ log feed T lag)
    (hgen : feed'.generation = feed.generation)
    (hasked : .asked feed.generation (some feed.request) ∈ T)
    (hm : WriteOk (fs ++ framesIn T) log.head feed.request (wroteIn feed.generation T) m)
    (hanswer : InStep start (fs ++ framesIn T) log feed' (T ++ [.wrote feed.generation m]) lag') :
    Feeds start fs h₀ log feed' (T ++ [.wrote feed.generation m]) lag' where
  ok := h.ok.snoc ⟨feed.request, hasked, h.head ▸ hm⟩
  head := by rw [headIn_append]; exact h.head
  fresh g hg := by
    rw [hgen] at hg
    rw [wroteIn_wrote_of_ne (by omega)]
    exact h.fresh g hg
  answer := by
    rw [framesIn_append, show framesIn [.wrote feed.generation m] = [] from rfl, append_nil]
    exact hanswer

variable {f : Frame}

namespace Running

section

variable (h : Running start gone live log feed T sent (f :: rest) done)
include h

/-- An answer that carries the next wanted frame. -/
theorem carried :
    Running start gone live log { feed with cursor := feed.cursor.pass f }
      (T ++ [.wrote feed.generation (.frame f)]) (sent ++ [f]) rest done where
  asked := mem_append_left _ h.asked
  wrote := by
    rw [wroteIn_wrote_self]
    exact h.wrote.carry f
  cursor := h.cursor.pass

theorem frame_ok (heq : gone ++ live = fs ++ framesIn T) (hdone : done = true → rest = []) :
    WriteOk (fs ++ framesIn T) log.head feed.request (wroteIn feed.generation T) (.frame f) := by
  have hwanted := h.cursor.wanted
  rw [heq] at hwanted
  refine ⟨sent, done, h.wrote, ⟨rest, ?_⟩, fun hd => ?_⟩
  · rw [hwanted, append_assoc]
    rfl
  · rw [hwanted, hdone hd]

end

theorem gap_ok (h : Running start gone live log feed T sent rest done)
    (heq : gone ++ live = fs ++ framesIn T) :
    WriteOk (fs ++ framesIn T) log.head feed.request (wroteIn feed.generation T)
      (.feedGap feed.cursor feed.request.requestId) := by
  have hwanted := h.cursor.wanted
  have hrest := h.cursor.rest_eq
  rw [heq] at hwanted hrest
  exact ⟨rfl, sent, done, h.wrote, by rw [hwanted, hrest], h.cursor.le.1, h.cursor.le.2⟩

end Running

/-- A change of the feed that writes nothing. -/
theorem Feeds.change (h : Feeds start fs h₀ log feed T lag) (hgen : feed.generation ≤ feed'.generation)
    (hanswer : InStep start (fs ++ framesIn T) log feed' T lag') :
    Feeds start fs h₀ log feed' T lag' :=
  ⟨h.ok, h.head, fun g hg => h.fresh g (by omega), hanswer⟩

/-! ## One turn of the service -/

/-- The service within a turn that wrote `ring.wrote` so far. A gap marker is the last write of an
answer, and it names the cursor. -/
structure Turn (start : Point) (fs : List Frame) (h₀ : Point) (log : EgressLog) (T : List FeedEvent)
    (feed : MemberFeed) (ring : FrameRing) (lag : List Frame) : Prop where
  feeds : Feeds start fs h₀ log feed (T ++ ring.events) lag
  marker : ∀ g next id, (g, .feedGap next id) ∈ ring.wrote →
    feed.state = .gapped ∧ feed.cursor = next

namespace Turn

variable {ring' : FrameRing} {feed' : MemberFeed} {lag lag' : List Frame}

section

variable (h : Turn start fs h₀ log T feed ring lag)
include h

/-- A turn that wrote nothing since. -/
theorem change (hring : ring'.wrote = ring.wrote) (hgen : feed.generation ≤ feed'.generation)
    (hmark : feed.state ≠ .gapped ∨ feed'.state = .gapped ∧ feed'.cursor = feed.cursor)
    (hanswer : InStep start (fs ++ framesIn (T ++ ring.events)) log feed' (T ++ ring.events) lag') :
    Turn start fs h₀ log T feed' ring' lag' where
  feeds := by
    have hev : ring'.events = ring.events := by rw [events, hring]; rfl
    rw [hev]
    exact h.feeds.change hgen hanswer
  marker g next id hmem := by
    rw [hring] at hmem
    obtain ⟨hs, hc⟩ := h.marker g next id hmem
    rcases hmark with hne | ⟨hs', hc'⟩
    · exact absurd hs hne
    · exact ⟨hs', hc'.trans hc⟩

/-- A turn that writes one message of its answer. -/
theorem write (hring : ring'.wrote = ring.wrote ++ [(feed.generation, m)])
    (hgen : feed'.generation = feed.generation) (hstate : feed.state ≠ .gapped)
    (hmark : ∀ next id, m = .feedGap next id → feed'.state = .gapped ∧ feed'.cursor = next)
    (hasked : .asked feed.generation (some feed.request) ∈ T ++ ring.events)
    (hm : WriteOk (fs ++ framesIn (T ++ ring.events)) log.head feed.request
      (wroteIn feed.generation (T ++ ring.events)) m)
    (hanswer : InStep start (fs ++ framesIn (T ++ ring.events)) log feed'
      (T ++ ring.events ++ [.wrote feed.generation m]) lag') :
    Turn start fs h₀ log T feed' ring' lag' where
  feeds := by
    rw [events_of_wrote _ _ hring, ← append_assoc]
    exact h.feeds.write hgen hasked hm hanswer
  marker g next id hmem := by
    rw [hring] at hmem
    rcases mem_append.1 hmem with hmem | hmem
    · exact absurd (h.marker g next id hmem).1 hstate
    · cases mem_singleton.1 hmem
      exact hmark next id rfl

/-- An answer that ends with a gap. -/
theorem gap (hstate : feed.state ≠ .gapped)
    (heq : gone ++ live = fs ++ framesIn (T ++ ring.events)) {mid : Point}
    (hret : Retains start log.head gone live mid log.egress)
    (hrun : Running start gone live log feed (T ++ ring.events) sent rest done) :
    Turn start fs h₀ log T (feed.gap ring).1 (feed.gap ring).2 [] := by
  have hgapped : ∀ T', Answer start gone live log (feed.gap ring).1 T' [] := fun T' =>
    .gapped rfl hrun.cursor
  rcases ring.writeIf_cases feed.generation (.feedGap feed.cursor feed.request.requestId)
    (fun _ => true) with ⟨-, hring⟩ | ⟨-, hring⟩
  · exact h.change hring le_rfl (.inl hstate) ⟨gone, live, mid, heq, hret, hgapped _⟩
  · refine h.write hring rfl hstate (fun next id hm => ?_) hrun.asked (hrun.gap_ok heq)
      ⟨gone, live, mid, heq, hret, hgapped _⟩
    cases hm
    exact ⟨rfl, rfl⟩

end

/-- The service hands a frame to the feed. -/
theorem onFrame (h : Turn start fs h₀ log T feed ring [f]) :
    Turn start fs h₀ log T (feed.onFrame ring f).1 (feed.onFrame ring f).2 [] := by
  obtain ⟨gone, live, mid, heq, hret, hanswer⟩ := h.feeds.answer
  unfold MemberFeed.onFrame
  by_cases hlive : feed.state = .live
  case neg =>
    rw [if_neg hlive]
    refine h.change rfl le_rfl ?_ ⟨gone, live, mid, heq, hret, hanswer.of_ne_live hlive⟩
    exact (em _).imp id fun hs => ⟨not_not.1 hs, rfl⟩
  cases hanswer with
  | idle hs | refusing hs | walking hs | gapped hs =>
    rw [hs] at hlive
    cases hlive
  | live hs hrun =>
    rw [if_pos hs]
    have hne : feed.state ≠ .gapped := by rw [hs]; simp
    unfold MemberFeed.carry
    rcases ring.put_cases feed.generation (.frame f) with ⟨hfull, hring⟩ | ⟨hfit, hring⟩
    · -- the ring has no room: the frame stays with the log
      have hturn : Turn start fs h₀ log T feed (ring.put feed.generation (.frame f)).1 [f] :=
        h.change hring le_rfl (.inl hne) ⟨gone, live, mid, heq, hret, .live hs hrun⟩
      have hev : (ring.put feed.generation (.frame f)).1.events = ring.events := by
        rw [events, hring]; rfl
      simp only [hfull]
      rw [← hev] at heq hrun
      exact hturn.gap hne heq hret hrun
    · simp only [hfit]
      exact h.write hring rfl hne (by simp) hrun.asked (hrun.frame_ok heq fun _ => rfl)
        ⟨gone, live, mid, heq, hret, .live hs hrun.carried⟩

/-- The refusal of a request that the log cannot serve. -/
theorem sendRefusal (h : Turn start fs h₀ log T feed ring []) (hstate : feed.state = .refusing) :
    Turn start fs h₀ log T (feed.sendRefusal ring).1 (feed.sendRefusal ring).2 [] := by
  obtain ⟨gone, live, mid, heq, hret, hanswer⟩ := h.feeds.answer
  have hne : feed.state ≠ .gapped := by rw [hstate]; simp
  cases hanswer with
  | idle hs | walking hs | live hs | gapped hs => rw [hs] at hstate; cases hstate
  | refusing hs hasked hnew hrefusal =>
    unfold MemberFeed.sendRefusal
    rcases ring.put_cases feed.generation feed.refusal with ⟨hfull, hring⟩ | ⟨hfit, hring⟩
    · simp only [hfull]
      exact h.change hring le_rfl (.inl hne)
        ⟨gone, live, mid, heq, hret, .refusing hs hasked hnew hrefusal⟩
    · simp only [hfit]
      refine h.write hring rfl hne ?_ hasked ?_ ⟨gone, live, mid, heq, hret, .idle rfl⟩
      · intro next id hm
        obtain ⟨p, hp | hp⟩ := hrefusal
        · rw [hp] at hm; cases hm
        · rw [hp] at hm; cases hm
      · obtain ⟨p, hp | hp⟩ := hrefusal
        · rw [hp]; exact ⟨rfl, hnew⟩
        · rw [hp]; exact ⟨rfl, hnew⟩

end Turn

/-! ## The walk -/

namespace MemberFeed.Walk

theorem left_of_more {retained : RetainedFrames} {upTo : Point} {w : Walk}
    (hmore : (Walk.step retained upTo w).2 = true) :
    0 < (Walk.step retained upTo w).1.left ∧ (Walk.step retained upTo w).1.left < w.left := by
  have hmove : ∀ (w' : Walk) (f : Frame), w'.left = w.left → (w'.move retained f).2 = true →
      0 < (w'.move retained f).1.left ∧ (w'.move retained f).1.left < w.left := by
    intro w' f hleft hpos
    have hlen : 0 < f.length := by
      cases f with
      | relayed i payload => exact Nat.lt_of_lt_of_le (by decide) (Nat.le_add_right relayedHeaderLen _)
      | boundary b => show 0 < boundaryLen; decide
    have hpos' : 0 < w'.left - f.length := of_decide_eq_true hpos
    refine ⟨hpos', ?_⟩
    show w'.left - f.length < w.left
    omega
  revert hmore
  unfold Walk.step
  split
  case isTrue => exact fun hmore => Bool.noConfusion hmore
  case isFalse =>
    split
    case isTrue => exact fun hmore => Bool.noConfusion hmore
    case isFalse =>
      split
      case h_1 => exact fun hmore => Bool.noConfusion hmore
      case h_2 f _ =>
        split
        case isTrue =>
          split
          case h_1 => exact hmove _ f rfl
          case h_2 => exact fun hmore => Bool.noConfusion hmore
        case isFalse => exact hmove w f rfl

/-- The byte budget bounds the rounds: more fuel than bytes changes nothing. -/
theorem loop_fuel (retained : RetainedFrames) (upTo : Point) (more : Nat) {fuel : Nat} {w : Walk}
    (hpos : 0 < w.left) (hfuel : w.left ≤ fuel) :
    Walk.loop retained upTo (fuel + more) w = Walk.loop retained upTo fuel w := by
  induction fuel generalizing w with
  | zero => omega
  | succ fuel ih =>
    rw [Nat.succ_add, Walk.loop, Walk.loop]
    split
    case isTrue hmore =>
      obtain ⟨hpos', hlt⟩ := left_of_more hmore
      exact ih hpos' (by omega)
    case isFalse => rfl

end MemberFeed.Walk

namespace Walks

variable {walked ahead : List Frame} {f : Frame}

section

variable (h : Walks gone live log feed sent walked ahead)
include h

/-- What is still wanted is ahead of the walk. -/
theorem rest_eq (hrun : Running start gone live log feed T sent rest done) :
    rest = ahead.filter (wanted feed.request.cursor) := by
  have hall := hrun.cursor.wanted
  rw [h.frames, filter_append, ← h.sent] at hall
  exact (append_cancel_left hall).symm

/-- A walk at the head has no frame ahead. -/
theorem ahead_eq_nil
    (hholds : log.egress.retained.Holds live) (hhead : log.egress.retained.walkHead ≤ feed.walkKey) :
    ahead = [] := by
  have hspan := congrArg (span log.egress.retained.width) h.frames
  have hkey := h.key
  rw [span_append, span_append] at hspan
  rw [hholds.walkHead] at hhead
  by_contra hne
  have hpos := span_pos log.egress.retained.width_pos hne
  omega

/-- A walk between the front and the head finds the frame ahead of it. -/
theorem next (hholds : log.egress.retained.Holds live) (hhead : ¬ log.egress.retained.walkHead ≤ feed.walkKey)
    (hfront : ¬ feed.walkKey < log.egress.retained.walkFront) :
    ∃ f ahead', ahead = f :: ahead' ∧ log.egress.retained.view feed.walkKey = some f ∧
      log.egress.retained.walkNext feed.walkKey = feed.walkKey + log.egress.retained.width f := by
  have hspan := congrArg (span log.egress.retained.width) h.frames
  have hkey := h.key
  rw [span_append, span_append] at hspan
  rw [hholds.walkHead] at hhead
  cases ahead with
  | nil =>
    rw [span_nil] at hspan
    omega
  | cons f ahead =>
    -- the walk is not behind the front, so what it walked covers what is gone
    obtain ⟨pre, rfl, hlive⟩ : ∃ pre, walked = gone ++ pre ∧ live = pre ++ f :: ahead := by
      rcases append_eq_append_iff.1 h.frames with ⟨pre, hw, hl⟩ | ⟨behind, hg, hl⟩
      · exact ⟨pre, hw, hl⟩
      · rw [hg, span_append] at hkey
        have hbehind : behind = [] := by
          by_contra hne
          have hpos := span_pos log.egress.retained.width_pos hne
          omega
        subst hbehind
        exact ⟨[], by rw [hg, append_nil, append_nil], hl.symm⟩
    have hat : feed.walkKey
        = log.egress.retained.walkFront + span log.egress.retained.width pre := by
      rw [span_append] at hkey
      omega
    refine ⟨f, ahead, rfl, by rw [hat, hholds.view hlive], ?_⟩
    rw [hat, hholds.walkNext hlive, span_append, span_cons, span_nil]
    omega

end

/-- The walk moves past a frame. -/
theorem moved (h : Walks gone live log feed sent walked (f :: ahead)) (hrequest : feed'.request = feed.request)
    (hkey : feed'.walkKey = feed.walkKey + log.egress.retained.width f) :
    Walks gone live log feed'
      (sent ++ if wanted feed.request.cursor f then [f] else []) (walked ++ [f]) ahead where
  frames := by rw [h.frames, append_assoc]; rfl
  sent := by rw [hrequest, filter_append, ← h.sent, filter_singleton, Bool.cond_eq_ite]
  key := by
    rw [hkey, h.key, span_append, span_cons, span_nil]
    omega

end Walks

namespace Turn

section Walking

variable {mid : Point} (hstate : feed.state = .walking) (heq : gone ++ live = fs ++ framesIn (T ++ ring.events))
  (hret : Retains start log.head gone live mid log.egress)
include hstate heq hret

variable (h : Turn start fs h₀ log T feed ring [])
include h

/-- The end of the walk. -/
theorem finishWalk (hrun : Running start gone live log feed (T ++ ring.events) sent [] false)
    (hstay : Answer start gone live log feed (T ++ ring.events) []) :
    Turn start fs h₀ log T (feed.finishWalk ring log.head).1 (feed.finishWalk ring log.head).2 [] := by
  have hne : feed.state ≠ .gapped := by rw [hstate]; simp
  have hall := hrun.cursor.wanted
  rw [heq, append_nil] at hall
  have hsent : wroteIn feed.generation (T ++ ring.events) = sent.map .frame := hrun.wrote.eq_map
  unfold MemberFeed.finishWalk
  rcases ring.put_cases feed.generation (.replayDone log.head feed.request.requestId) with
    ⟨hfull, hring⟩ | ⟨hfit, hring⟩
  · simp only [hfull]
    exact h.change hring le_rfl (.inl hne) ⟨gone, live, mid, heq, hret, hstay⟩
  · simp only [hfit]
    refine h.write hring rfl hne (by simp) hrun.asked ⟨rfl, rfl, by rw [hall, hsent]⟩
      ⟨gone, live, mid, heq, hret, .live rfl ⟨mem_append_left _ hrun.asked, ?_, hrun.cursor⟩⟩
    show Sent sent true (wroteIn feed.generation _)
    rw [wroteIn_wrote_self]
    exact hrun.wrote.finish log.head feed.request.requestId

/-- The walk moved past a frame that the request does not want. -/
theorem skipped {walked ahead : List Frame}
    (hrun : Running start gone live log feed (T ++ ring.events) sent rest false)
    (hwalk : Walks gone live log feed sent walked (f :: ahead))
    (hunwanted : wanted feed.request.cursor f = false) {key : Int}
    (hkey : key = feed.walkKey + log.egress.retained.width f) :
    Turn start fs h₀ log T { feed with walkKey := key } ring [] := by
  have hmoved : Walks gone live log { feed with walkKey := key } _ _ _ := hwalk.moved rfl hkey
  rw [hunwanted, if_neg Bool.false_ne_true, append_nil] at hmoved
  exact h.change rfl le_rfl (.inl (by rw [hstate]; simp))
    ⟨gone, live, mid, heq, hret, .walking hstate { hrun with } hmoved⟩

/-- The walk carried a frame that the request wants, and moved past it. -/
theorem carried {ring' : FrameRing} {walked ahead : List Frame}
    (hring : ring'.wrote = ring.wrote ++ [(feed.generation, .frame f)])
    (hrun : Running start gone live log feed (T ++ ring.events) sent rest false)
    (hwalk : Walks gone live log feed sent walked (f :: ahead))
    (hwanted : wanted feed.request.cursor f = true) {key : Int}
    (hkey : key = feed.walkKey + log.egress.retained.width f) :
    Turn start fs h₀ log T { feed with cursor := feed.cursor.pass f, walkKey := key } ring' [] := by
  -- the frame ahead of the walk is the next wanted one
  have hrest := hwalk.rest_eq hrun
  rw [filter_cons_of_pos hwanted] at hrest
  subst hrest
  have hmoved : Walks gone live log { feed with cursor := feed.cursor.pass f, walkKey := key } _ _ _ :=
    hwalk.moved rfl hkey
  rw [if_pos hwanted] at hmoved
  exact h.write hring rfl (by rw [hstate]; simp) (by simp) hrun.asked
    (hrun.frame_ok heq fun hd => Bool.noConfusion hd)
    ⟨gone, live, mid, heq, hret, .walking hstate { hrun.carried with } hmoved⟩

end Walking

variable {w : MemberFeed.Walk}

/-- **One round of the walk.** -/
theorem walkStep (h : Turn start fs h₀ log T w.feed w.ring []) (hstate : w.feed.state = .walking) :
    Turn start fs h₀ log T (step log.egress.retained log.head w).1.feed
        (step log.egress.retained log.head w).1.ring [] ∧
      ((step log.egress.retained log.head w).2 = true →
        (step log.egress.retained log.head w).1.feed.state = .walking) := by
  obtain ⟨gone, live, mid, heq, hret, hanswer⟩ := h.feeds.answer
  have hstay := hanswer
  have hne : w.feed.state ≠ .gapped := by rw [hstate]; simp
  cases hanswer with
  | idle hs | refusing hs | live hs | gapped hs => rw [hs] at hstate; cases hstate
  | walking hs hrun hwalk =>
    unfold step
    by_cases hhead : log.egress.retained.walkHead ≤ w.feed.walkKey
    · rw [if_pos hhead]
      have hrest := hwalk.rest_eq hrun
      rw [hwalk.ahead_eq_nil hret.holds hhead] at hrest
      subst hrest
      exact ⟨h.finishWalk hstate heq hret hrun hstay, fun hmore => Bool.noConfusion hmore⟩
    rw [if_neg hhead]
    by_cases hfront : w.feed.walkKey < log.egress.retained.walkFront
    · rw [if_pos hfront]
      exact ⟨h.gap hne heq hret hrun, fun hmore => Bool.noConfusion hmore⟩
    rw [if_neg hfront]
    obtain ⟨f, ahead, rfl, hview, hnext⟩ := hwalk.next hret.holds hhead hfront
    simp only [hview]
    by_cases hwanted : wanted w.feed.request.cursor f = true
    · rw [if_pos hwanted]
      unfold MemberFeed.carry
      rcases w.ring.put_cases w.feed.generation (.frame f) with ⟨hfull, hring⟩ | ⟨hfit, hring⟩
      · -- the ring is full: the walk pauses at this frame
        simp only [hfull]
        exact ⟨h.change hring le_rfl (.inl hne) ⟨gone, live, mid, heq, hret, hstay⟩,
          fun hmore => Bool.noConfusion hmore⟩
      · simp only [hfit]
        exact ⟨h.carried hstate heq hret hring hrun hwalk hwanted hnext, fun _ => hstate⟩
    · rw [if_neg hwanted]
      exact ⟨h.skipped hstate heq hret hrun hwalk (by simpa using hwanted) hnext, fun _ => hstate⟩

/-- The walk of one duty cycle. -/
theorem walkLoop (fuel : Nat) (h : Turn start fs h₀ log T w.feed w.ring [])
    (hstate : w.feed.state = .walking) :
    Turn start fs h₀ log T (loop log.egress.retained log.head fuel w).feed
      (loop log.egress.retained log.head fuel w).ring [] := by
  induction fuel generalizing w with
  | zero => exact h
  | succ fuel ih =>
    obtain ⟨hturn, hmore⟩ := h.walkStep hstate
    rw [loop]
    split
    case isTrue htrue => exact ih hturn (hmore htrue)
    case isFalse => exact hturn

theorem step (h : Turn start fs h₀ log T feed ring []) :
    Turn start fs h₀ log T (feed.step ring log.egress.retained log.head).1
      (feed.step ring log.egress.retained log.head).2 [] := by
  unfold MemberFeed.step
  split
  case h_1 hs => exact h.sendRefusal hs
  case h_2 hs => exact walkLoop _ h hs
  all_goals exact h

end Turn

end Kardamom.Cluster
