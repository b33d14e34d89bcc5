import Kardamom.Lib.CallTree
import Kardamom.Wire.Basic

/-!
# Recordings of a session

The recordings of one publisher session on a remote archive, and the choice of the one that holds a wanted
position. An archive starts a new recording when the image of a session comes back; the recordings of a
session lie behind one another, in the order of their ids (`WellFormed`), so at most one of them holds a
position, and it is the one that `resolve` takes (`resolve_of_holds`).
-/

namespace Kardamom.Archive

open Wire (BPosition)
open Except List

/-- What a refetch fails with. Only a refusal names an archive that holds no byte of the range. -/
inductive LogError where
  | aeron (reason : String)
  | rangeAbsent (archive detail : String)
  deriving DecidableEq, Repr

/-! ## Term layouts -/

/-- A power-of-two term length and the initial term id. -/
structure TermLayout where
  bits : Nat
  initialTermId : Int32
  deriving DecidableEq, Repr

namespace TermLayout

/-- The layout of a term length that is a positive power of two. -/
def new (termBufferLength initialTermId : Int32) : Except String TermLayout :=
  let termLen := termBufferLength.toInt.toNat
  if 0 < termBufferLength.toInt ∧ 2 ^ termLen.log2 = termLen then .ok ⟨termLen.log2, initialTermId⟩
  else .error ("non-power-of-two term length " ++ toString termBufferLength.toInt)

/-- The raw stream position of `pos`. -/
def positionOf (l : TermLayout) (pos : BPosition) : Except String Int :=
  let termCount := pos.termId.toInt - l.initialTermId.toInt
  if termCount < 0 then
    .error ("position term " ++ toString pos.termId.toInt ++ " precedes the initial term "
      ++ toString l.initialTermId.toInt)
  else .ok (termCount * 2 ^ l.bits + pos.termOffset.toInt)

end TermLayout

/-! ## What an archive holds -/

/-- A recording of the stream on an archive. -/
structure Recording where
  recordingId : Int
  sessionId : Int32
  termBufferLength : Int32
  initialTermId : Int32
  startPosition : Int
  /-- The recorded position of a live recording, the stop position of one that ended. -/
  position : Int
  live : Bool
  deriving DecidableEq, Repr

/-- The raw position of `pos` in a recording of this layout. -/
def rawPosition (recordingId : Int) (layout : Except String TermLayout) (pos : BPosition) :
    Except LogError Int :=
  match layout with
  | .error e => .error (.aeron ("refetch: recording " ++ toString recordingId ++ " has " ++ e))
  | .ok l =>
    match l.positionOf pos with
    | .error e => .error (.aeron ("refetch: recording " ++ toString recordingId ++ ": " ++ e))
    | .ok raw => .ok raw

variable {pos : BPosition}

namespace Recording

def layout (r : Recording) : Except String TermLayout :=
  TermLayout.new r.termBufferLength r.initialTermId

/-- The recording holds the byte at a position. -/
def Holds (r : Recording) (pos : BPosition) : Prop :=
  ∃ raw, rawPosition r.recordingId r.layout pos = .ok raw ∧ r.startPosition ≤ raw ∧ raw < r.position

/-- The recording goes on as `r'`: it only grows, and not once it ended. -/
structure GrowsTo (r r' : Recording) : Prop where
  id : r'.recordingId = r.recordingId
  session : r'.sessionId = r.sessionId
  layout : r'.layout = r.layout
  start : r'.startPosition = r.startPosition
  position : r.position ≤ r'.position
  ended : r.live = false → r' = r

theorem GrowsTo.holds {r r' : Recording} (h : r.GrowsTo r') (hr : r.Holds pos) : r'.Holds pos := by
  obtain ⟨raw, hraw, hstart, hlt⟩ := hr
  refine ⟨raw, ?_, by rw [h.start]; exact hstart, lt_of_lt_of_le hlt h.position⟩
  rw [h.id, h.layout]
  exact hraw

end Recording

/-- The catalog of one stream: ids are unique, and the recordings of a session share its layout and lie
behind one another in the order of their ids. -/
structure WellFormed (recs : List Recording) : Prop where
  unique : ∀ r ∈ recs, ∀ r' ∈ recs, r.recordingId = r'.recordingId → r = r'
  nonneg : ∀ r ∈ recs, 0 ≤ r.position
  layout : ∀ r ∈ recs, ∀ r' ∈ recs, r.sessionId = r'.sessionId → r.layout = r'.layout
  behind : ∀ r ∈ recs, ∀ r' ∈ recs, r.sessionId = r'.sessionId → r.recordingId < r'.recordingId →
    r.position ≤ r'.startPosition

/-! ## The choice of the recording -/

/-- How far a recording reaches, as two control calls report it. -/
structure RecordedLimit where
  position : Int
  active : Bool
  deriving DecidableEq, Repr

namespace RecordedLimit

section

variable (l : RecordedLimit) (fromRaw : Int)

/-- The length of the replay from a position to the limit. -/
def replayLen : Int := l.position - fromRaw

/-- The recording ended at or before the position. -/
def endedBefore : Bool := !l.active && decide (l.position ≤ fromRaw)

end

end RecordedLimit

/-- A recording read from the catalog. -/
structure FoundRecording where
  recordingId : Int
  sessionId : Int32
  startPosition : Int
  /-- `none` while the archive still writes the recording. -/
  stopPosition : Option Int
  termLayout : Except String TermLayout

open FoundRecording

/-- The descriptor of a recording: its stop position is null while it is live. -/
def FoundRecording.ofCatalog (r : Recording) : FoundRecording where
  recordingId := r.recordingId
  sessionId := r.sessionId
  startPosition := r.startPosition
  stopPosition := if r.live then none else (some r.position).filter (0 ≤ ·)
  termLayout := r.layout

/-- A recording, and the wanted position as a raw position in it. -/
structure Located where
  found : FoundRecording
  fromRaw : Int

open Located

/-- Why one archive cannot serve a range now. -/
inductive Unresolved where
  | absent (detail : String)
  | layout (e : LogError)

/-- The error of the archive; only an absent range is a refusal. -/
def Unresolved.refusedBy (archive : String) : Unresolved → LogError
  | .absent detail => .rangeAbsent archive detail
  | .layout e => e

def FoundRecording.locate (r : FoundRecording) (pos : BPosition) : Except LogError Located := do
  let fromRaw ← rawPosition r.recordingId r.termLayout pos
  return ⟨r, fromRaw⟩

namespace Located

def startsAtOrBefore (l : Located) : Bool := decide (l.found.startPosition ≤ l.fromRaw)

/-- The catalog does not show that the recording ended at or before the position. -/
def covers (l : Located) : Bool := l.found.stopPosition.all (l.fromRaw < ·)

/-- The replay length from the position to the limit; `none` when a live recording does not reach the
position yet. -/
def replayLen (l : Located) (limit : RecordedLimit) : Except Unresolved (Option Int) :=
  if limit.endedBefore l.fromRaw then
    .error (.absent ("recording " ++ toString l.found.recordingId ++ " of session "
      ++ toString l.found.sessionId.toInt ++ " ended at position " ++ toString limit.position
      ++ ", at or before the requested position " ++ toString l.fromRaw
      ++ " — this copy holds no byte of the range"))
  else .ok (if 0 < limit.replayLen l.fromRaw then some (limit.replayLen l.fromRaw) else none)

end Located

/-- The range that a refetch asks for. -/
structure Wanted where
  streamId : Int
  sessionId : Int32
  «from» : BPosition

namespace Wanted

/-- The preferred of two recordings: one that covers the position, then the newer one. -/
def better (best l : Located) : Located :=
  if best.covers && !l.covers || best.covers == l.covers && decide (l.found.recordingId < best.found.recordingId)
  then best else l

/-- `max_by_key` over the recordings: the last of the greatest. -/
def newest : List Located → Option Located
  | [] => none
  | l :: ls => some (ls.foldl better l)

/-- The oldest recording: the first of the smallest starts. -/
def oldest : List Located → Option Located
  | [] => none
  | l :: ls => some (ls.foldl (fun o l => if l.found.startPosition < o.found.startPosition then l else o) l)

/-- The detail of a refusal with no recording at or before the position. -/
def absentDetail (w : Wanted) : Option Located → String
  | none => "no recording for stream " ++ toString w.streamId ++ " session " ++ toString w.sessionId.toInt
  | some l => "position " ++ toString l.fromRaw ++ " precedes the oldest recording "
      ++ toString l.found.recordingId ++ " of session " ++ toString w.sessionId.toInt ++ ", which starts at "
      ++ toString l.found.startPosition ++ " — this copy holds no byte of the range"

section

variable (w : Wanted) (recs : List FoundRecording)

/-- The recordings of the session, each with the wanted position in it. -/
def locateAll : Except LogError (List Located) :=
  (recs.filter fun r => r.sessionId = w.sessionId).mapM fun r => r.locate w.from

/-- Pick the recording of the session that holds the position. -/
def resolve : Except Unresolved Located :=
  match w.locateAll recs with
  | .error e => .error (.layout e)
  | .ok located =>
    match newest (located.filter startsAtOrBefore) with
    | some l => .ok l
    | none => .error (.absent (w.absentDetail (oldest (located.filter fun l => !l.startsAtOrBefore))))

end

/-! ### What the choice guarantees -/

theorem covers_better {best l m : Located} (hm : m = best ∨ m = l) (hcovers : m.covers = true) :
    (better best l).covers = true ∧ m.found.recordingId ≤ (better best l).found.recordingId := by
  unfold better
  rcases hm with rfl | rfl
  · split
    · exact ⟨hcovers, le_rfl⟩
    next h => cases hl : l.covers <;> simp_all
  · split
    next h => cases hb : best.covers <;> simp_all; omega
    · exact ⟨hcovers, le_rfl⟩

theorem foldl_better_spec (ls : List Located) (best : Located) :
    ls.foldl better best ∈ best :: ls ∧ ∀ l ∈ best :: ls, l.covers = true →
      (ls.foldl better best).covers = true
        ∧ l.found.recordingId ≤ (ls.foldl better best).found.recordingId := by
  induction ls generalizing best with
  | nil => simp
  | cons l ls ih =>
    obtain ⟨hmem, hmax⟩ := ih (better best l)
    rw [foldl_cons]
    have hbetter : better best l = best ∨ better best l = l := by
      unfold better
      split
      · exact .inl rfl
      · exact .inr rfl
    constructor
    · rcases mem_cons.1 hmem with heq | hmem
      · rcases hbetter with h | h <;> rw [heq, h] <;> simp
      · simp [hmem]
    · intro m hm hcovers
      have hcase : (m = best ∨ m = l) ∨ m ∈ ls := by simpa [or_assoc] using hm
      rcases hcase with hm | hm
      · obtain ⟨hc, hle⟩ := covers_better hm hcovers
        obtain ⟨hc', hle'⟩ := hmax _ mem_cons_self hc
        exact ⟨hc', hle.trans hle'⟩
      · exact hmax m (mem_cons_of_mem _ hm) hcovers

variable {ls : List Located}

/-- The chosen recording is one of those that start at or before the position, and is not older than one
that covers it. -/
theorem newest_spec {best : Located} (h : newest ls = some best) :
    best ∈ ls ∧ ∀ l ∈ ls, l.covers = true →
      best.covers = true ∧ l.found.recordingId ≤ best.found.recordingId := by
  cases ls with
  | nil => exact nomatch h
  | cons l ls =>
    obtain rfl := Option.some.inj h
    exact foldl_better_spec ls l

theorem newest_eq_none (h : newest ls = none) : ls = [] := by
  cases ls with
  | nil => rfl
  | cons l ls => exact nomatch h

/-- The located recordings are those of the session, each with its raw position. -/
theorem mem_locateAll {w : Wanted} {recs : List FoundRecording} {located : List Located}
    (h : w.locateAll recs = .ok located) (l : Located) :
    l ∈ located ↔ l.found ∈ recs ∧ l.found.sessionId = w.sessionId
      ∧ rawPosition l.found.recordingId l.found.termLayout w.from = .ok l.fromRaw := by
  have hmem : ∀ {rs : List FoundRecording} {ls : List Located}, rs.mapM (fun r => r.locate w.from) = .ok ls →
      (l ∈ ls ↔ l.found ∈ rs ∧ rawPosition l.found.recordingId l.found.termLayout w.from = .ok l.fromRaw) := by
    intro rs
    induction rs with
    | nil =>
      intro ls h
      obtain rfl : [] = ls := ok.inj h
      simp
    | cons r rs ih =>
      intro ls h
      rw [mapM_cons] at h
      obtain ⟨x, hx, h⟩ := bind_eq_ok_iff.1 h
      obtain ⟨xs, hxs, h⟩ := bind_eq_ok_iff.1 h
      obtain rfl : x :: xs = ls := ok.inj h
      obtain ⟨raw, hraw, hmk⟩ := bind_eq_ok_iff.1 hx
      obtain rfl : (⟨r, raw⟩ : Located) = x := ok.inj hmk
      rw [mem_cons, mem_cons, ih hxs, or_and_right]
      refine or_congr ⟨?_, ?_⟩ Iff.rfl
      · rintro rfl
        exact ⟨rfl, hraw⟩
      · rintro ⟨rfl, hl⟩
        obtain rfl := ok.inj (hraw.symm.trans hl)
        rfl
  rw [hmem h]
  simp [and_assoc]

variable {layout : Except String TermLayout} {e : LogError}

theorem rawPosition_eq_error {id : Int}
    (h : rawPosition id layout pos = .error e) : ∃ reason, e = .aeron reason := by
  unfold rawPosition at h
  split at h
  · exact ⟨_, (error.inj h).symm⟩
  · split at h
    · exact ⟨_, (error.inj h).symm⟩
    · exact nomatch h

/-- An error of the search is that of a recording whose layout cannot place the position. -/
theorem locateAll_eq_error {w : Wanted} {recs : List FoundRecording}
    (h : w.locateAll recs = .error e) : ∃ r ∈ recs, r.sessionId = w.sessionId
      ∧ rawPosition r.recordingId r.termLayout w.from = .error e := by
  have hmap : ∀ rs : List FoundRecording, rs.mapM (fun r => r.locate w.from) = .error e →
      ∃ r ∈ rs, rawPosition r.recordingId r.termLayout w.from = .error e := by
    intro rs
    induction rs with
    | nil => exact nofun
    | cons r rs ih =>
      intro h
      rw [mapM_cons] at h
      cases hraw : rawPosition r.recordingId r.termLayout w.from with
      | error e' =>
        have hlocate : r.locate w.from = .error e' := by
          rw [locate, hraw]
          rfl
        rw [hlocate] at h
        exact ⟨r, mem_cons_self, hraw.trans (congrArg error (error.inj h))⟩
      | ok raw =>
        have hlocate : r.locate w.from = .ok ⟨r, raw⟩ := bind_of_eq_ok hraw _
        rw [bind_of_eq_ok hlocate] at h
        cases hrest : rs.mapM (fun r => r.locate w.from) with
        | error e' =>
          rw [hrest] at h
          obtain ⟨r', hr', he⟩ := ih (hrest.trans (congrArg error (error.inj h)))
          exact ⟨r', mem_cons_of_mem _ hr', he⟩
        | ok ls =>
          rw [hrest] at h
          exact nomatch h
  obtain ⟨r, hr, he⟩ := hmap _ h
  obtain ⟨hmem, hsession⟩ := mem_filter.1 hr
  exact ⟨r, hmem, by simpa using hsession, he⟩

theorem resolve_eq_layout {w : Wanted} {recs : List FoundRecording}
    (h : w.resolve recs = .error (.layout e)) : w.locateAll recs = .error e := by
  unfold resolve at h
  split at h
  next hlocated => exact hlocated.trans (congrArg error (Unresolved.layout.inj (error.inj h)))
  · split at h <;> exact nomatch h

/-- The id of a recording is in the text of an error only. -/
theorem rawPosition_congr {id id' : Int} {raw : Int}
    (h : rawPosition id layout pos = .ok raw) : rawPosition id' layout pos = .ok raw := by
  unfold rawPosition at h ⊢
  split at h
  · exact nomatch h
  · split at h
    · exact nomatch h
    · exact h

variable {w : Wanted} {recs : List Recording} {r : Recording} {l : Located}

theorem covers_of_holds (hnonneg : 0 ≤ r.position) {raw : Int} (hlt : raw < r.position) :
    covers ⟨.ofCatalog r, raw⟩ = true := by
  simp only [covers, ofCatalog]
  split
  · rfl
  · simpa [Option.filter, hnonneg] using hlt

/-- A refusal of the choice: no recording of the session holds the position. -/
theorem not_holds_of_resolve_absent {detail : String}
    (h : w.resolve (recs.map .ofCatalog) = .error (.absent detail)) (hr : r ∈ recs)
    (hsession : r.sessionId = w.sessionId) : ¬ r.Holds w.from := by
  rintro ⟨raw, hraw, hstart, -⟩
  unfold resolve at h
  split at h
  · exact nomatch h
  next located hlocated =>
    split at h
    · exact nomatch h
    next hnone =>
      have hmem : (⟨.ofCatalog r, raw⟩ : Located) ∈ located :=
        (mem_locateAll hlocated _).2 ⟨mem_map_of_mem hr, hsession, hraw⟩
      have hin := mem_filter.2 ⟨hmem, show startsAtOrBefore ⟨.ofCatalog r, raw⟩ = true from
        decide_eq_true hstart⟩
      rw [newest_eq_none hnone] at hin
      exact absurd hin not_mem_nil

/-- The chosen recording starts at or before the position, and no other recording of the session holds it. -/
theorem resolve_eq_ok (hwf : WellFormed recs) (h : w.resolve (recs.map .ofCatalog) = .ok l) :
    ∃ r ∈ recs, l.found = .ofCatalog r ∧ r.sessionId = w.sessionId
      ∧ rawPosition r.recordingId r.layout w.from = .ok l.fromRaw
      ∧ ∀ r' ∈ recs, r'.sessionId = w.sessionId → r'.Holds w.from → r' = r := by
  unfold resolve at h
  split at h
  · exact nomatch h
  next located hlocated =>
    split at h
    next best hbest =>
      obtain rfl := ok.inj h
      obtain ⟨hmem, hmax⟩ := newest_spec hbest
      obtain ⟨hloc, hstart⟩ := mem_filter.1 hmem
      obtain ⟨hfound, hsession, hraw⟩ := (mem_locateAll hlocated best).1 hloc
      obtain ⟨r, hr, hr'⟩ := mem_map.1 hfound
      rw [← hr'] at hsession hraw
      refine ⟨r, hr, hr'.symm, hsession, hraw, fun r' hr'' hsession' hholds => ?_⟩
      obtain ⟨raw', hraw', hstart', hlt'⟩ := hholds
      -- both positions are the same: the recordings share the layout of the session
      have heq : raw' = best.fromRaw := by
        have hlayout := hwf.layout r' hr'' r hr (hsession'.trans hsession.symm)
        rw [hlayout] at hraw'
        exact ok.inj ((rawPosition_congr hraw').symm.trans hraw)
      have hin : (⟨.ofCatalog r', raw'⟩ : Located) ∈ located.filter startsAtOrBefore :=
        mem_filter.2 ⟨(mem_locateAll hlocated _).2 ⟨mem_map_of_mem hr'', hsession', hraw'⟩,
          decide_eq_true hstart'⟩
      obtain ⟨-, hle⟩ := hmax _ hin (covers_of_holds (hwf.nonneg r' hr'') hlt')
      rw [← hr'] at hle
      rcases hle.lt_or_eq with hlt | hid
      · have hbehind := hwf.behind r' hr'' r hr (hsession'.trans hsession.symm) hlt
        have hbefore : r.startPosition ≤ best.fromRaw := by
          have := of_decide_eq_true hstart
          rwa [← hr'] at this
        omega
      · exact hwf.unique r' hr'' r hr hid
    · exact nomatch h

/-- A recording that holds the position is chosen. -/
theorem resolve_of_holds (hwf : WellFormed recs) (hr : r ∈ recs) (hsession : r.sessionId = w.sessionId)
    (hholds : r.Holds w.from) :
    ∃ l, w.resolve (recs.map .ofCatalog) = .ok l ∧ l.found = .ofCatalog r
      ∧ rawPosition r.recordingId r.layout w.from = .ok l.fromRaw := by
  cases hres : w.resolve (recs.map .ofCatalog) with
  | ok l =>
    obtain ⟨r₀, hr₀, hfound, -, hraw, honly⟩ := resolve_eq_ok hwf hres
    obtain rfl := honly r hr hsession hholds
    exact ⟨l, rfl, hfound, hraw⟩
  | error u =>
    cases u with
    | absent detail => exact absurd hholds (not_holds_of_resolve_absent hres hr hsession)
    | layout e =>
      -- the recording that holds the position has the layout of its session, which places it
      obtain ⟨f, hf, hf', he⟩ := locateAll_eq_error (resolve_eq_layout hres)
      obtain ⟨r', hr', rfl⟩ := mem_map.1 hf
      obtain ⟨raw, hraw, -⟩ := hholds
      have hlayout : (ofCatalog r').termLayout = r.layout :=
        hwf.layout r' hr' r hr (hf'.trans hsession.symm)
      rw [hlayout, rawPosition_congr hraw] at he
      exact nomatch he

end Wanted

end Kardamom.Archive
