import Kardamom.Lib.Run
import Kardamom.Sealer.Basic
import Mathlib.Logic.Function.Basic

/-!
# The backlogs of the egress sessions

An offer to a session never waits: a frame that meets back-pressure goes to the backlog of its
session, and so does every later one while the backlog lasts. A drain sends from the front, and a
session that cannot take its backlog is closed. A session here is its entry in the map of backlogs,
its `isClosing`, and the frames that it was offered and that its publication took.
-/

namespace Kardamom.Cluster.SessionBacklogs

open List Function Machine Option

open Sealer (Bytes)

/-! ## The publication -/

/-- The answers of a publication to an offer, and to the retry that a term rotation asks for: a
position, or one of the negative results below. -/
structure Answers where
  offer : Int
  retry : Int

def notConnected : Int := -1
def backPressured : Int := -2
def adminAction : Int := -3
def publicationClosed : Int := -4

def Answers.attempt (a : Answers) : Int := if a.offer = adminAction then a.retry else a.offer

/-- Whether a negative result can clear later. -/
def retryable (result : Int) : Bool :=
  result = backPressured ∨ result = adminAction ∨ result = notConnected

/-! ## One session -/

/-- What happened to an offered frame. -/
inductive Outcome where
  | sent
  | queued
  | dropped
  deriving DecidableEq, Repr

/-- The frames that a session could not take yet, oldest first. -/
structure Backlog where
  frames : List Bytes
  bytes : Int
  /-- When the backlog opened, or when a frame last left it. -/
  progressNs : Int

def Backlog.add (b : Backlog) (frame : Bytes) : Backlog :=
  { b with frames := b.frames ++ [frame], bytes := b.bytes + frame.length }

/-- Send head frames while the session takes them: the backlog left, the frames taken, and the last
result. -/
def flush (nowNs : Int) : List Bytes → Int → Int → (Nat → Answers) → Backlog × List Bytes × Int
  | [], bytes, progressNs, _ => (⟨[], bytes, progressNs⟩, [], 0)
  | head :: frames, bytes, progressNs, answers =>
    if 0 ≤ (answers 0).attempt then
      let r := flush nowNs frames (bytes - head.length) nowNs fun i => answers (i + 1)
      (r.1, head :: r.2.1, r.2.2)
    else (⟨head :: frames, bytes, progressNs⟩, [], (answers 0).attempt)

structure Session where
  backlog : Option Backlog
  isClosing : Bool
  /-- The session ended: its publication answered `CLOSED`, or its close came through the log. -/
  gone : Bool
  offered : List Bytes
  accepted : List Bytes

/-- The limits of a backlog. -/
structure BacklogLimits where
  stallDeadlineNs : Int
  byteLimit : Int

namespace Session

def new : Session := ⟨none, false, false, [], []⟩

def closeOnTerminal (c : Session) (result : Int) : Session :=
  if result = publicationClosed then { c with gone := true } else { c with isClosing := true }

variable (limits : BacklogLimits)

section

variable (c : Session)

def append (b : Backlog) (frame : Bytes) : Session × Outcome :=
  if (b.add frame).bytes ≤ limits.byteLimit then ({ c with backlog := some (b.add frame) }, .queued)
  else ({ c with backlog := none, isClosing := true }, .dropped)

/-- Both `offer`s: they differ in when the frame is copied. -/
def offer (holding : Bool) (frame : Bytes) (nowNs : Int) (answers : Answers) : Session × Outcome :=
  let c := { c with offered := c.offered ++ [frame] }
  match c.backlog with
  | some b => c.append limits b frame
  | none =>
    if c.isClosing then (c, .dropped)
    else if holding then c.append limits ⟨[], 0, nowNs⟩ frame
    else if 0 ≤ answers.attempt then ({ c with accepted := c.accepted ++ [frame] }, .sent)
    else if retryable answers.attempt then c.append limits ⟨[], 0, nowNs⟩ frame
    else (c.closeOnTerminal answers.attempt, .dropped)

/-- `Backlog.drain`, and the removal of a backlog that is done. The first drain after the start hold
restarts the clock. -/
def drain (restart : Bool) (nowNs : Int) (answers : Nat → Answers) : Session :=
  match c.backlog with
  | none => c
  | some b =>
    let r := flush nowNs b.frames b.bytes (if restart then nowNs else b.progressNs) answers
    let c := { c with accepted := c.accepted ++ r.2.1 }
    if r.1.frames = [] then { c with backlog := none }
    else if retryable r.2.2 = false then { c with backlog := none }.closeOnTerminal r.2.2
    else if nowNs - r.1.progressNs > limits.stallDeadlineNs then
      { c with backlog := none, isClosing := true }
    else { c with backlog := some r.1 }

/-- The frames that wait. -/
def held : List Bytes := (c.backlog.map Backlog.frames).getD []

/-- The session was not closed. -/
def IsOpen : Prop := c.isClosing = false ∧ c.gone = false

end

/-- What an open session was offered, it took or it waits for, in this order; and the bytes of a
backlog are counted right. -/
structure InOrder (c : Session) : Prop where
  frames : c.IsOpen → c.offered = c.accepted ++ c.held
  bytes : ∀ b, c.backlog = some b → b.bytes = (b.frames.map length).sum

variable {limits} {c : Session}

/-- A session that is closed is in order. -/
theorem inOrder_of_closed (hclosed : ¬ c.IsOpen) (hnone : c.backlog = none) : c.InOrder :=
  ⟨fun h => absurd h hclosed, fun b hb => by rw [hnone] at hb; cases hb⟩

theorem inOrder_closeOnTerminal (hnone : c.backlog = none) (result : Int) :
    (c.closeOnTerminal result).InOrder := by
  unfold closeOnTerminal
  split <;> exact inOrder_of_closed (by simp [IsOpen]) hnone

/-- A frame is put behind the frames that wait. -/
theorem inOrder_append {b : Backlog} {frame : Bytes} (hopen : c.IsOpen →
      c.offered = c.accepted ++ b.frames ++ [frame])
    (hbytes : b.bytes = (b.frames.map length).sum) : (c.append limits b frame).1.InOrder := by
  unfold append
  split
  · refine ⟨fun h => (hopen h).trans (append_assoc ..), fun b' hb' => ?_⟩
    obtain rfl := some.inj hb'
    simp [Backlog.add, hbytes]
  · exact inOrder_of_closed (by simp [IsOpen]) rfl

variable (h : c.InOrder)
include h

theorem InOrder.offer (holding : Bool) (frame : Bytes) (nowNs : Int) (answers : Answers) :
    (c.offer limits holding frame nowNs answers).1.InOrder := by
  have hold := h.frames
  unfold Session.offer held at *
  cases hb : c.backlog with
  | some b =>
    rw [hb] at hold
    exact inOrder_append (fun hopen => congrArg (· ++ [frame]) (hold hopen)) (h.bytes b hb)
  | none =>
    rw [hb] at hold
    have hempty : c.IsOpen → c.offered ++ [frame] = c.accepted ++ [] ++ [frame] :=
      fun hopen => congrArg (· ++ [frame]) (hold hopen)
    dsimp only
    split
    next hclosing => exact inOrder_of_closed (by simp [IsOpen, hclosing]) rfl
    split
    · exact inOrder_append hempty rfl
    split
    · exact ⟨fun hopen => by simpa [held] using hempty hopen, nofun⟩
    split
    · exact inOrder_append hempty rfl
    · exact inOrder_closeOnTerminal rfl _

omit h in
/-- A flush takes frames off the front, and counts the rest. -/
theorem flush_eq (nowNs : Int) (frames : List Bytes) {bytes : Int} (progressNs : Int)
    (answers : Nat → Answers) (hbytes : bytes = (frames.map length).sum) :
    frames = (flush nowNs frames bytes progressNs answers).2.1
        ++ (flush nowNs frames bytes progressNs answers).1.frames ∧
      (flush nowNs frames bytes progressNs answers).1.bytes
        = ((flush nowNs frames bytes progressNs answers).1.frames.map length).sum := by
  induction frames generalizing bytes progressNs answers with
  | nil => exact ⟨rfl, hbytes⟩
  | cons head frames ih =>
    unfold flush
    split
    · have hleft : bytes - head.length = (frames.map length).sum := by
        rw [hbytes, map_cons, sum_cons]
        omega
      obtain ⟨hframes, hrest⟩ := ih nowNs (fun i => answers (i + 1)) hleft
      exact ⟨congrArg (head :: ·) hframes, hrest⟩
    · exact ⟨rfl, hbytes⟩

theorem InOrder.drain (restart : Bool) (nowNs : Int) (answers : Nat → Answers) :
    (c.drain limits restart nowNs answers).InOrder := by
  have hold := h.frames
  unfold Session.drain held at *
  cases hb : c.backlog with
  | none => exact h
  | some b =>
    rw [hb] at hold
    dsimp only
    generalize hr : flush nowNs b.frames b.bytes (if restart then nowNs else b.progressNs) answers = r
    obtain ⟨hframes, hbytes⟩ := hr ▸ flush_eq nowNs b.frames _ answers (h.bytes b hb)
    have hopen : c.IsOpen → c.offered = c.accepted ++ r.2.1 ++ r.1.frames := by
      intro hopen
      rw [append_assoc, ← hframes]
      exact hold hopen
    split
    next hnil => exact ⟨fun ho => by rw [hopen ho, hnil]; rfl, nofun⟩
    split
    · exact inOrder_closeOnTerminal rfl _
    split
    · exact inOrder_of_closed (by simp [IsOpen]) rfl
    · exact ⟨hopen, fun b' hb' => some.inj hb' ▸ hbytes⟩

end Session

/-! ## All sessions -/

/-- The sessions by their id, and whether a drain saw the start hold over. -/
structure State (S : Type) where
  session : S → Session
  released : Bool

/-- A call, with what the hold, the clock and the publications answer it. -/
inductive Call (S : Type) where
  | offer (x : S) (frame : Bytes) (hold : Bool) (nowNs : Int) (answers : Answers)
  | drain (hold : Bool) (nowNs : Int) (answers : S → Nat → Answers)
  | drop (x : S)

variable {S : Type} [DecidableEq S] (limits : BacklogLimits)

def step (s : State S) : Call S → State S × Option Outcome
  | .offer x frame hold nowNs answers =>
    let r := (s.session x).offer limits (!s.released && hold) frame nowNs answers
    ({ s with session := update s.session x r.1 }, some r.2)
  | .drain hold nowNs answers =>
    if !s.released && hold then (s, none)
    else (⟨fun x => (s.session x).drain limits (!s.released) nowNs (answers x), true⟩, none)
  | .drop x =>
    ({ s with
      session := update s.session x { s.session x with backlog := none, gone := true } },
      none)

theorem step_inOrder (s : State S) (call : Call S) (h : ∀ x, (s.session x).InOrder) (x : S) :
    ((step limits s call).1.session x).InOrder := by
  have hput : ∀ y {c : Session}, c.InOrder → (update s.session y c x).InOrder := by
    intro y c hc
    by_cases hxy : x = y
    · rw [hxy, update_self]
      exact hc
    · rw [update_of_ne hxy]
      exact h x
  cases call with
  | offer y frame hold nowNs answers => exact hput y ((h y).offer ..)
  | drop y => exact hput y (Session.inOrder_of_closed (by simp [Session.IsOpen]) rfl)
  | drain hold nowNs answers =>
    rw [step]
    split
    exacts [h x, (h x).drain _ nowNs (answers x)]

/-- **The backlogs keep the order.** Whatever the calls, the publications and the clock do, the
frames that a session took are a prefix of those it was offered and the rest waits in its backlog,
unless the session was closed; and the bytes of every backlog are the bytes of its frames. -/
theorem session_in_order (released : Bool) (calls : List (Call S)) (x : S) {c : Session}
    (hc : c = (run (step limits) ⟨fun _ => .new, released⟩ calls).1.session x) :
    (c.IsOpen → c.accepted <+: c.offered ∧ c.offered = c.accepted ++ c.held) ∧
      ∀ b, c.backlog = some b → b.bytes = (b.frames.map length).sum := by
  have hnew : Session.new.InOrder := ⟨fun _ => rfl, nofun⟩
  have h : c.InOrder := hc ▸ run_invariant (P := fun s : State S => ∀ x, (s.session x).InOrder)
    (fun _ => hnew) (fun s call h => step_inOrder limits s call h) calls x
  exact ⟨fun hopen => ⟨⟨_, (h.frames hopen).symm⟩, h.frames hopen⟩, h.bytes⟩

/-- Three frames to a session that pushes back at first and then takes one. -/
theorem session_in_order_sample :
    let calls : List (Call Unit) := [.offer () [1] false 0 ⟨backPressured, 0⟩,
      .offer () [2] false 1 ⟨64, 0⟩, .offer () [3, 4] false 2 ⟨64, 0⟩,
      .drain false 3 fun _ i => if i = 0 then ⟨64, 0⟩ else ⟨backPressured, 0⟩]
    let c := (run (step ⟨10, 10⟩) ⟨fun _ => .new, true⟩ calls).1.session ()
    c.accepted = [[1]] ∧ c.held = [[2], [3, 4]] ∧ c.accepted <+: c.offered :=
  ⟨by decide +kernel, by decide +kernel,
    ((session_in_order ⟨10, 10⟩ true _ () rfl).1 ⟨by decide +kernel, by decide +kernel⟩).1⟩

end Kardamom.Cluster.SessionBacklogs
