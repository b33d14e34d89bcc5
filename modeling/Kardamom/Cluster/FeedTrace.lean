import Kardamom.Cluster.FeedCursor

/-!
# What the member feed may send

What the feed sends is judged against the trace of the system: the frames that were emitted, the requests
that started a generation, and what was written and delivered in each generation, in order. `WriteOk` says
what the next message of an answer may be, given what the log has emitted and what the answer has sent:
the next wanted frame, the end of the replay when every wanted frame is sent, or a gap marker whose
cursor wants exactly the rest.
-/

namespace Kardamom.Cluster

open FrameKey Laid List FeedMessage

/-! ## Traces -/

namespace FeedEvent

/-- The frames that were emitted. -/
def framesIn (T : List FeedEvent) : List Frame := T.filterMap fun
    | .emitted f _ => some f
    | _ => none

/-- The head after a trace. -/
def headIn (h₀ : Point) (T : List FeedEvent) : Point :=
  T.foldl (fun h e => match e with
    | .emitted _ h' => h'
    | _ => h) h₀

/-- What was written in a generation. -/
def wroteIn (g : Nat) (T : List FeedEvent) : List FeedMessage := T.filterMap fun
    | .wrote g' m => if g' = g then some m else none
    | _ => none

/-- What the subscriber got in a generation. -/
def deliveredIn (g : Nat) (T : List FeedEvent) : List FeedMessage := T.filterMap fun
    | .delivered g' m => if g' = g then some m else none
    | _ => none

variable (g : Nat) (T T' : List FeedEvent)

@[simp] theorem framesIn_append : framesIn (T ++ T') = framesIn T ++ framesIn T' := filterMap_append

@[simp] theorem wroteIn_append : wroteIn g (T ++ T') = wroteIn g T ++ wroteIn g T' :=
  filterMap_append

@[simp] theorem deliveredIn_append : deliveredIn g (T ++ T') = deliveredIn g T ++ deliveredIn g T' :=
  filterMap_append

@[simp] theorem headIn_append (h₀ : Point) : headIn h₀ (T ++ T') = headIn (headIn h₀ T) T' :=
  foldl_append

end FeedEvent

open FeedEvent

/-- The frames of an answer. -/
def FeedMessage.frames (ms : List FeedMessage) : List Frame := ms.filterMap fun
    | .frame f => some f
    | _ => none

/-! ## What an answer may send -/

/-- The messages of an answer that goes on, with its frames: before the end of the replay, or after it. -/
inductive Sent : List Frame → Bool → List FeedMessage → Prop
  | walking (frames : List Frame) : Sent frames false (frames.map .frame)
  | live (replayed frames : List Frame) (upTo : Point) (id : Int) : Sent (replayed ++ frames) true
        (replayed.map .frame ++ .replayDone upTo id :: frames.map .frame)

namespace Sent

variable {frames : List Frame} {done : Bool} {ms : List FeedMessage}

theorem carry (h : Sent frames done ms) (f : Frame) :
    Sent (frames ++ [f]) done (ms ++ [.frame f]) := by
  cases h with
  | walking =>
    have hmap := walking (frames ++ [f])
    rwa [map_append] at hmap
  | live replayed frames upTo id =>
    have hmap := live replayed (frames ++ [f]) upTo id
    rw [map_append, map_singleton] at hmap
    simpa only [append_assoc, cons_append] using hmap

theorem finish (h : Sent frames false ms) (upTo : Point) (id : Int) :
    Sent frames true (ms ++ [.replayDone upTo id]) := by
  cases h with
  | walking =>
    have hlive := live frames [] upTo id
    rwa [append_nil] at hlive

theorem eq_map (h : Sent frames false ms) : ms = frames.map .frame := by
  cases h with
  | walking => rfl

theorem frames_eq (h : Sent frames done ms) : FeedMessage.frames ms = frames := by
  have hmap : ∀ fs : List Frame, FeedMessage.frames (fs.map .frame) = fs := by
    intro fs
    unfold FeedMessage.frames
    rw [filterMap_map]
    exact filterMap_some
  cases h with
  | walking => exact hmap frames
  | live replayed frames upTo id =>
    have happ : FeedMessage.frames (replayed.map .frame ++ .replayDone upTo id :: frames.map .frame)
        = FeedMessage.frames (replayed.map .frame) ++ FeedMessage.frames (frames.map .frame) := by
      simp [FeedMessage.frames]
    rw [happ, hmap, hmap]

end Sent

/-- The next message of the answer to `r`, when the frames `emitted` led to `head` and the answer sent
`sent` so far. -/
def WriteOk (emitted : List Frame) (head : Point) (r : FeedRequest) (sent : List FeedMessage) :
    FeedMessage → Prop
  -- the next wanted frame; after the end of the replay it is also the newest
  | .frame f => ∃ frames done, Sent frames done sent ∧
      frames ++ [f] <+: emitted.filter (wanted r.cursor) ∧
      (done = true → frames ++ [f] = emitted.filter (wanted r.cursor))
  -- every wanted frame is sent
  | .replayDone upTo id =>
      id = r.requestId ∧ upTo = head ∧ sent = (emitted.filter (wanted r.cursor)).map .frame
  -- the cursor wants exactly what is not sent
  | .feedGap next id => id = r.requestId ∧ ∃ frames done, Sent frames done sent ∧
      emitted.filter (wanted r.cursor) = frames ++ emitted.filter (wanted next) ∧
      next.index ≤ head.index ∧ next.block ≤ head.block
  -- a refusal is the whole answer
  | .replayAhead _ id => id = r.requestId ∧ sent = []
  | .replayUnavailable _ id => id = r.requestId ∧ sent = []

/-- What may happen after a trace, from a log that emitted `fs` up to `h₀`. -/
def EventOk (fs : List Frame) (h₀ : Point) (T : List FeedEvent) : FeedEvent → Prop
  | .wrote g m => ∃ r, .asked g (some r) ∈ T ∧
      WriteOk (fs ++ framesIn T) (headIn h₀ T) r (wroteIn g T) m
  | _ => True

/-- Every event of the trace may happen after those before it. -/
def TraceOk (fs : List Frame) (h₀ : Point) (T : List FeedEvent) : Prop :=
  ∀ pre e post, T = pre ++ e :: post → EventOk fs h₀ pre e

namespace TraceOk

variable {fs : List Frame} {h₀ : Point} {T : List FeedEvent}

theorem nil : TraceOk fs h₀ [] := fun pre e post h => by simp at h

variable (h : TraceOk fs h₀ T)
include h

theorem snoc {e : FeedEvent} (he : EventOk fs h₀ T e) : TraceOk fs h₀ (T ++ [e]) := by
  intro pre e' post heq
  rcases Machine.snoc_eq_append_cons heq with ⟨rfl, rfl, -⟩ | ⟨post', -, hT⟩
  · exact he
  · exact h pre e' post' hT

/-- Events that write nothing. -/
theorem append {T' : List FeedEvent}
    (hquiet : ∀ e ∈ T', ∀ g m, e ≠ .wrote g m) : TraceOk fs h₀ (T ++ T') := by
  induction T' generalizing T with
  | nil => rwa [append_nil]
  | cons e T' ih =>
    rw [show T ++ e :: T' = (T ++ [e]) ++ T' by simp]
    refine ih (h.snoc ?_) fun e' he' => hquiet e' (mem_cons_of_mem _ he')
    cases e with
    | wrote g m => exact absurd rfl (hquiet _ mem_cons_self g m)
    | emitted | asked | delivered => exact trivial

/-- The frames of an answer are the first wanted frames, in the order of their emission. -/
theorem frames_prefix {g : Nat} {r : FeedRequest} (hasked : ∀ r', .asked g (some r') ∈ T → r' = r) :
    frames (wroteIn g T) <+: (fs ++ framesIn T).filter (wanted r.cursor) := by
  induction T using List.reverseRecOn with
  | nil => exact nil_prefix
  | append_singleton T e ih =>
    have hT : TraceOk fs h₀ T := fun pre e' post heq => h pre e' (post ++ [e]) (by
      rw [heq, append_assoc]
      rfl)
    have hold := ih hT fun r' hr' => hasked r' (mem_append_left _ hr')
    have hgrow : (fs ++ framesIn T).filter (wanted r.cursor)
        <+: (fs ++ framesIn (T ++ [e])).filter (wanted r.cursor) := by
      rw [framesIn_append, ← append_assoc]
      exact (prefix_append _ _).filter _
    have hsilent (hnone : wroteIn g [e] = []) : frames (wroteIn g (T ++ [e]))
        <+: (fs ++ framesIn (T ++ [e])).filter (wanted r.cursor) := by
      rw [wroteIn_append, hnone, append_nil]
      exact hold.trans hgrow
    cases e with
    | emitted | asked | delivered => exact hsilent rfl
    | wrote g' m =>
      by_cases heq : g' = g
      · subst heq
        rw [framesIn_append, show framesIn [.wrote g' m] = [] from rfl, append_nil]
        obtain ⟨r', hr', hm⟩ := h T (.wrote g' m) [] rfl
        obtain rfl := hasked r' (mem_append_left _ hr')
        rw [wroteIn_append, show wroteIn g' [.wrote g' m] = [m] by simp [wroteIn],
          frames, filterMap_append]
        cases m with
        | frame f =>
          -- the one message that adds a frame
          obtain ⟨frames, done, hsent, hprefix, -⟩ := hm
          have hframes := hsent.frames_eq
          rw [FeedMessage.frames] at hframes
          rw [hframes]
          exact hprefix
        | replayUnavailable | replayDone | replayAhead | feedGap =>
          rw [filterMap_cons_none rfl, filterMap_nil, append_nil]
          exact hold
      · exact hsilent (by simp [wroteIn, heq])

end TraceOk

/-! ## The rings -/

namespace FrameRing

variable (ring : FrameRing) (type : Nat) (m : FeedMessage)

/-- The events of the writes. -/
def events : List FeedEvent := ring.wrote.map fun m => .wrote m.1 m.2

theorem writeIf_cases (fits : RingAnswer → Bool) :
    ((ring.writeIf fits type m).2 = false ∧ (ring.writeIf fits type m).1.wrote = ring.wrote) ∨
      ((ring.writeIf fits type m).2 = true ∧
        (ring.writeIf fits type m).1.wrote = ring.wrote ++ [(type, m)]) := by
  unfold writeIf
  split
  case h_1 => exact .inl ⟨rfl, rfl⟩
  case h_2 =>
    split
    case isTrue => exact .inr ⟨rfl, rfl⟩
    case isFalse => exact .inl ⟨rfl, rfl⟩

theorem put_cases : ((ring.put type m).2 = false ∧ (ring.put type m).1.wrote = ring.wrote) ∨
      ((ring.put type m).2 = true ∧ (ring.put type m).1.wrote = ring.wrote ++ [(type, m)]) :=
  ring.writeIf_cases type m _

theorem events_of_wrote {ring ring' : FrameRing} (h : ring'.wrote = ring.wrote ++ [(type, m)]) :
    ring'.events = ring.events ++ [.wrote type m] := by
  rw [events, h, map_append]
  rfl

end FrameRing

end Kardamom.Cluster
