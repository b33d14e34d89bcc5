import Kardamom.Archive.Recording

/-!
# The refetch client

One archive control session at a time, rotated on a failure. Every answer of an archive is read from its
catalog at the moment of the call; the catalogs grow meanwhile, and every call may fail. `planTxData` is the
part of a refetch that decides: it lists the recordings, chooses one and bounds the replay with what two
control calls say about it.
-/

namespace Kardamom.Archive

open Wire (BPosition TxEnvelope)
open Except List Wanted List RecordedLimit LogError Option

/-- The archives and the discovery during one join, read at moments. -/
structure World where
  /-- The archives that discovery shows. -/
  archives : Nat → List String
  /-- The recordings of the stream on an archive. -/
  catalog : Nat → String → List Recording
  /-- The error of a call that fails. -/
  fails : Nat → Option String
  /-- How long a call takes beyond one moment. -/
  delay : Nat → Nat
  /-- How many fragments a drained replay delivers. -/
  delivered : Nat → Nat
  /-- The envelope that a lookup in the join buffer finds. -/
  buffered : Nat → Option TxEnvelope
  wellFormed : ∀ t a, WellFormed (catalog t a)
  grows : ∀ t t' a, t ≤ t' → ∀ r ∈ catalog t a, ∃ r' ∈ catalog t' a, r.GrowsTo r'

namespace World

variable (W : World)

/-- The moment after a call at `t`. -/
def after (t : Nat) : Nat := t + 1 + W.delay t

theorem lt_after (t : Nat) : t < W.after t := by
  unfold after
  omega

variable (t : Nat) (archive : String) (recordingId : Int)

/-- The recording with an id on an archive. -/
def lookup : Option Recording := (W.catalog t archive).find? fun r => r.recordingId = recordingId

/-- `get_recording_position`: the position of a live recording, null for one that ended. -/
def getRecordingPosition : Except String Int :=
  match W.fails t, W.lookup t archive recordingId with
  | some e, _ => .error e
  | none, none => .error "unknown recording"
  | none, some r => .ok (if r.live then r.position else -1)

/-- `get_stop_position`: the stop of a recording that ended, null for a live one. -/
def getStopPosition : Except String Int :=
  match W.fails t, W.lookup t archive recordingId with
  | some e, _ => .error e
  | none, none => .error "unknown recording"
  | none, some r => .ok (if r.live then -1 else r.position)

end World

/-- The refetch client: the archive of its control session and the rotation cursor, with the time and the
limits it read. -/
structure ArchiveRefetcher where
  live : Option String
  nextEndpoint : Nat
  now : Nat
  limits : List RecordedLimit

/-- A resolved bounded replay. -/
structure ReplayPlan where
  fromRaw : Int
  len : Int
  limit : RecordedLimit

namespace ArchiveRefetcher

/-- `wrapping_add` of a `usize`. -/
def wrappingAdd (a b : Nat) : Nat := (a + b) % 2 ^ 64

def rotate (r : ArchiveRefetcher) : ArchiveRefetcher :=
  { r with live := none, nextEndpoint := wrappingAdd r.nextEndpoint 1 }

section Calls

variable (W : World)

/-- Time passes over one call. -/
def called (r : ArchiveRefetcher) : ArchiveRefetcher := { r with now := W.after r.now }

/-- Connect to the endpoint at rotation offset `attempt`. -/
def tryEndpoint (r : ArchiveRefetcher) (endpoints : List String) (attempt : Nat) :
    ArchiveRefetcher × Except LogError String :=
  let idx := wrappingAdd r.nextEndpoint attempt % endpoints.length
  match W.fails r.now, endpoints[idx]? with
  | none, some ep => ({ r.called W with nextEndpoint := idx }, .ok ep)
  | some e, _ => (r.called W, .error (.aeron e))
  | none, none => (r.called W, .error (.aeron "refetch: no endpoint reachable"))

/-- Try the endpoints from `attempt` on, `left` of them, until one connects. -/
def reconnect (r : ArchiveRefetcher) (endpoints : List String) (lastErr : LogError) :
    (attempt left : Nat) → ArchiveRefetcher × Except LogError String
  | _, 0 => ({ r with nextEndpoint := wrappingAdd r.nextEndpoint 1 }, .error lastErr)
  | attempt, left + 1 =>
    match r.tryEndpoint W endpoints attempt with
    | (r', .ok ep) => ({ r' with live := some ep }, .ok ep)
    | (r', .error e) => r'.reconnect endpoints e (attempt + 1) left

variable (r : ArchiveRefetcher)

section

variable (endpoints : List String)

/-- Make sure a control session exists against one of the endpoints. -/
def ensureSession : ArchiveRefetcher × Except LogError String :=
  if endpoints.isEmpty then (r, .error (.aeron "refetch: no archive endpoints configured"))
  else
    match r.live.filter fun ep => ep ∈ endpoints with
    | some ep => (r, .ok ep)
    | none =>
      reconnect W { r with live := none } endpoints (.aeron "refetch: no endpoint reachable") 0
        endpoints.length

/-- List the recordings of the stream on the connected archive. -/
def listOrRotate : ArchiveRefetcher × Except LogError (List FoundRecording) :=
  match r.ensureSession W endpoints with
  | (r, .error e) => (r, .error e)
  | (r, .ok ep) =>
    match W.fails r.now with
    | some e => ((r.called W).rotate, .error (.aeron ("list_recordings_for_uri: " ++ e)))
    | none => (r.called W, .ok ((W.catalog r.now ep).map .ofCatalog))

/-- The error of the connected archive for a range that it cannot serve, and the rotation. -/
def refuse (why : Unresolved) : ArchiveRefetcher × LogError :=
  (r.rotate, why.refusedBy (r.live.getD "?"))

/-- `RecordedLimit::read`: a recording that gives no position is taken for one that ended. -/
def readLimit (archive : String) (recordingId : Int) :
    ArchiveRefetcher × Except LogError RecordedLimit :=
  match (W.getRecordingPosition r.now archive recordingId).toOption.filter (0 ≤ ·) with
  | some position =>
    ({ r.called W with limits := ⟨position, true⟩ :: r.limits }, .ok ⟨position, true⟩)
  | none =>
    match W.getStopPosition (W.after r.now) archive recordingId with
    | .error e => ((r.called W).called W, .error (.aeron ("get_stop_position: " ++ e)))
    | .ok position =>
      ({ (r.called W).called W with limits := ⟨position, false⟩ :: r.limits }, .ok ⟨position, false⟩)

/-- The recorded limit of a recording on the connected archive. -/
def recordedLimit (recordingId : Int) : ArchiveRefetcher × Except LogError RecordedLimit :=
  match r.ensureSession W endpoints with
  | (r, .error e) => (r, .error e)
  | (r, .ok ep) => r.readLimit W ep recordingId

/-- Bound the replay; `none` when a live recording does not reach the position yet. -/
def prepareReplay (found : Located) : ArchiveRefetcher × Except LogError (Option ReplayPlan) :=
  match r.recordedLimit W endpoints found.found.recordingId with
  | (r, .error e) => (r.rotate, .error e)
  | (r, .ok limit) =>
    match found.replayLen limit with
    | .error u => ((r.refuse u).1, .error (r.refuse u).2)
    | .ok len => (r, .ok (len.map fun len => ⟨found.fromRaw, len, limit⟩))

end

/-- The decision of a refetch: the recording and the bounds of its replay. -/
def planTxData (wanted : Wanted) :
    ArchiveRefetcher × Except LogError (Option (Located × ReplayPlan)) :=
  let endpoints := W.archives r.now
  match r.listOrRotate W endpoints with
  | (r, .error e) => (r, .error e)
  | (r, .ok recs) =>
    match wanted.resolve recs with
    | .error u => ((r.refuse u).1, .error (r.refuse u).2)
    | .ok found =>
      match r.prepareReplay W endpoints found with
      | (r, .error e) => (r, .error e)
      | (r, .ok plan) => (r, .ok (plan.map fun plan => (found, plan)))

/-- Run a planned replay: open the subscription, start the replay, drain it. -/
def replay (endpoints : List String) (found : Located) (plan : ReplayPlan) :
    ArchiveRefetcher × Except LogError Nat :=
  match W.fails r.now with
  | some e => (r.called W, .error (.aeron e))
  | none =>
    match (r.called W).ensureSession W endpoints with
    | (r, .error e) => (r, .error e)
    | (r, .ok _) =>
      match W.fails r.now with
      | some e =>
        ((r.called W).rotate, .error (.aeron ("start_replay of recording "
          ++ toString found.found.recordingId ++ " from " ++ toString plan.fromRaw ++ " for "
          ++ toString plan.len ++ " bytes (planned against limit " ++ toString plan.limit.position
          ++ ", active=" ++ toString plan.limit.active ++ "): " ++ e)))
      | none =>
        let r := (r.called W).called W
        if W.delivered r.now = 0 then (r.rotate, .ok 0) else (r, .ok (W.delivered r.now))

/-- Refetch the envelopes from the wanted position on. -/
def fetchTxData (wanted : Wanted) : ArchiveRefetcher × Except LogError Nat :=
  match r.planTxData W wanted with
  | (r', .error e) => (r', .error e)
  | (r', .ok none) => (r', .ok 0)
  | (r', .ok (some (found, plan))) => r'.replay W (W.archives r.now) found plan

end Calls

/-! ## What each call can do -/

variable {W : World} {r r' : ArchiveRefetcher} {endpoints : List String} {a : String}

/-- Time passes, and the limits that were read stay. -/
structure Passes (r r' : ArchiveRefetcher) : Prop where
  now : r.now ≤ r'.now
  limits : r.limits ⊆ r'.limits

section

variable (r : ArchiveRefetcher)

theorem Passes.refl : Passes r r := ⟨le_rfl, Subset.refl _⟩

theorem Passes.trans {r₁ r₂ r₃ : ArchiveRefetcher} (h : Passes r₁ r₂) (h' : Passes r₂ r₃) : Passes r₁ r₃ :=
  ⟨h.now.trans h'.now, fun _ hl => h'.limits (h.limits hl)⟩

theorem passes_called : Passes r (r.called W) := ⟨(W.lt_after r.now).le, Subset.refl _⟩

theorem passes_rotate : Passes r r.rotate := ⟨le_rfl, Subset.refl _⟩

/-- An error that is no refusal. -/
def Faulty (out : ArchiveRefetcher × Except LogError α) : Prop :=
  ∀ a detail, out.2 ≠ .error (.rangeAbsent a detail)

variable (endpoints : List String)

theorem tryEndpoint_spec (attempt : Nat) :
    Passes r (r.tryEndpoint W endpoints attempt).1 ∧ Faulty (r.tryEndpoint W endpoints attempt)
      ∧ ∀ ep, (r.tryEndpoint W endpoints attempt).2 = .ok ep → ep ∈ endpoints := by
  unfold tryEndpoint
  dsimp only
  split
  next hep =>
    refine ⟨⟨(passes_called r).now, Subset.refl _⟩, nofun, fun ep h => ?_⟩
    obtain rfl := ok.inj h
    exact mem_of_getElem? hep
  · exact ⟨passes_called r, nofun, nofun⟩
  · exact ⟨passes_called r, nofun, nofun⟩

theorem reconnect_spec (lastErr : LogError)
    (hlast : ∀ a detail, lastErr ≠ .rangeAbsent a detail) (attempt left : Nat) (r : ArchiveRefetcher) :
    Passes r (r.reconnect W endpoints lastErr attempt left).1
      ∧ Faulty (r.reconnect W endpoints lastErr attempt left)
      ∧ ∀ ep, (r.reconnect W endpoints lastErr attempt left).2 = .ok ep →
        ep ∈ endpoints ∧ (r.reconnect W endpoints lastErr attempt left).1.live = some ep := by
  induction left generalizing r lastErr attempt with
  | zero => exact ⟨⟨le_rfl, Subset.refl _⟩, fun a d h => hlast a d (error.inj h), nofun⟩
  | succ left ih =>
    obtain ⟨hpass, hfaulty, hmem⟩ := tryEndpoint_spec r endpoints attempt
    unfold reconnect
    split
    next r₁ ep htry =>
      rw [htry] at hpass hmem
      refine ⟨⟨hpass.now, hpass.limits⟩, nofun, fun ep' h => ?_⟩
      obtain rfl := ok.inj h
      exact ⟨hmem ep rfl, rfl⟩
    next r₁ e htry =>
      rw [htry] at hpass hfaulty
      obtain ⟨hpass', hrest⟩ := ih e (fun a d h => hfaulty a d (congrArg error h)) (attempt + 1) r₁
      exact ⟨hpass.trans hpass', hrest⟩

theorem ensureSession_spec :
    Passes r (r.ensureSession W endpoints).1 ∧ Faulty (r.ensureSession W endpoints)
      ∧ ∀ ep, (r.ensureSession W endpoints).2 = .ok ep →
        ep ∈ endpoints ∧ (r.ensureSession W endpoints).1.live = some ep := by
  unfold ensureSession
  split
  · exact ⟨.refl r, nofun, nofun⟩
  · split
    next ep hlive =>
      obtain ⟨hep, hmem⟩ := filter_eq_some_iff.1 hlive
      refine ⟨.refl r, nofun, fun ep' h => ?_⟩
      obtain rfl := ok.inj h
      exact ⟨by simpa using hmem, hep⟩
    · have hspec := reconnect_spec (W := W) endpoints (.aeron "refetch: no endpoint reachable")
        (fun a d h => LogError.noConfusion h) 0 endpoints.length { r with live := none }
      exact ⟨⟨hspec.1.now, hspec.1.limits⟩, hspec.2⟩

end

/-- A connected session stays. -/
theorem ensureSession_of_live (hlive : r.live = some a) (ha : a ∈ endpoints) :
    r.ensureSession W endpoints = (r, .ok a) := by
  unfold ensureSession
  rw [if_neg (by simpa using ne_nil_of_mem ha), hlive]
  simp [Option.filter, ha]

theorem listOrRotate_spec (r : ArchiveRefetcher) (endpoints : List String) :
    Passes r (r.listOrRotate W endpoints).1 ∧ Faulty (r.listOrRotate W endpoints)
      ∧ ∀ recs, (r.listOrRotate W endpoints).2 = .ok recs → ∃ t a, r.now ≤ t
          ∧ t ≤ (r.listOrRotate W endpoints).1.now ∧ recs = (W.catalog t a).map .ofCatalog ∧ a ∈ endpoints
          ∧ (r.listOrRotate W endpoints).1.live = some a := by
  obtain ⟨hpass, hfaulty, hep⟩ := ensureSession_spec r endpoints
  unfold listOrRotate
  split
  next r₁ e hsession =>
    rw [hsession] at hpass hfaulty
    exact ⟨hpass, fun a d h => hfaulty a d (congrArg error (error.inj h)), nofun⟩
  next r₁ ep hsession =>
    rw [hsession] at hpass hep
    obtain ⟨hmem, hlive⟩ := hep ep rfl
    split
    · exact ⟨(hpass.trans (passes_called _)).trans (passes_rotate _), nofun, nofun⟩
    · refine ⟨hpass.trans (passes_called _), nofun, fun recs h => ?_⟩
      obtain rfl := ok.inj h
      exact ⟨r₁.now, ep, hpass.now, (passes_called r₁).now, rfl, hmem, hlive⟩

variable {rec : Recording} {t : Nat}

theorem mem_of_lookup {id : Int} (h : W.lookup t a id = some rec) :
    rec ∈ W.catalog t a ∧ rec.recordingId = id :=
  ⟨mem_of_find?_eq_some h, by simpa using find?_some h⟩

/-- A stop position that is not null is the one of a recording that ended. -/
theorem getStopPosition_eq_ok {id position : Int} (h : W.getStopPosition t a id = .ok position)
    (hnonneg : 0 ≤ position) :
    ∃ rec ∈ W.catalog t a, rec.recordingId = id ∧ rec.live = false ∧ rec.position = position := by
  unfold World.getStopPosition at h
  split at h
  · exact nomatch h
  · exact nomatch h
  next rec _ hlookup =>
    obtain ⟨hmem, hid⟩ := mem_of_lookup hlookup
    have h := ok.inj h
    split at h
    · omega
    next hended => exact ⟨rec, hmem, hid, by simpa using hended, h⟩

theorem readLimit_spec (r : ArchiveRefetcher) (a : String) (id : Int) :
    Passes r (r.readLimit W a id).1 ∧ Faulty (r.readLimit W a id)
      ∧ ∀ limit, (r.readLimit W a id).2 = .ok limit → limit ∈ (r.readLimit W a id).1.limits
          ∧ (r.readLimit W a id).1.live = r.live
          ∧ (limit.active = false → 0 ≤ limit.position → ∃ t, r.now ≤ t
              ∧ ∃ rec ∈ W.catalog t a, rec.recordingId = id ∧ rec.live = false
                ∧ rec.position = limit.position) := by
  have hnow : r.now ≤ W.after (W.after r.now) := ((W.lt_after _).trans (W.lt_after _)).le
  unfold readLimit
  split
  · refine ⟨⟨(passes_called r).now, subset_cons_self ..⟩, nofun, fun limit h => ?_⟩
    obtain rfl := ok.inj h
    exact ⟨mem_cons_self, rfl, nofun⟩
  · split
    · exact ⟨⟨hnow, Subset.refl _⟩, nofun, nofun⟩
    next position hstop =>
      refine ⟨⟨hnow, subset_cons_self ..⟩, nofun, fun limit h => ?_⟩
      obtain rfl := ok.inj h
      exact ⟨mem_cons_self, rfl, fun _ hnonneg =>
        ⟨W.after r.now, (W.lt_after _).le, getStopPosition_eq_ok hstop hnonneg⟩⟩

/-- A refusal at the bound: the chosen recording ended at or before the position. -/
theorem prepareReplay_spec (hlive : r.live = some a) (ha : a ∈ endpoints) (found : Located) :
    Passes r (r.prepareReplay W endpoints found).1
      ∧ ∀ a' detail, (r.prepareReplay W endpoints found).2 = .error (.rangeAbsent a' detail) →
        (∀ l ∈ (r.prepareReplay W endpoints found).1.limits, 0 ≤ l.position) →
        a' = a ∧ ∃ t, r.now ≤ t ∧ ∃ rec ∈ W.catalog t a, rec.recordingId = found.found.recordingId
          ∧ rec.live = false ∧ rec.position ≤ found.fromRaw := by
  obtain ⟨hpass, hfaulty, hok⟩ := readLimit_spec r a found.found.recordingId
  unfold prepareReplay recordedLimit
  rw [ensureSession_of_live hlive ha]
  dsimp only
  split
  next r₁ e hread =>
    rw [hread] at hpass hfaulty
    refine ⟨hpass.trans (passes_rotate _), fun a' d h => ?_⟩
    exact absurd (congrArg error (error.inj h)) (hfaulty a' d)
  next r₁ limit hread =>
    rw [hread] at hpass hok
    obtain ⟨hmem, hlive', hended⟩ := hok limit rfl
    unfold Located.replayLen
    split
    next u hlen =>
      refine ⟨hpass.trans (passes_rotate _), fun a' d h hlimits => ?_⟩
      split at hlen
      next hbefore =>
        obtain rfl := error.inj hlen
        obtain ⟨hactive, hle⟩ : limit.active = false ∧ limit.position ≤ found.fromRaw := by
          simpa [endedBefore] using hbefore
        have harchive : a' = a := by
          have hlive₁ : r₁.live = some a := hlive'.trans hlive
          have := error.inj h
          simp only [refuse, hlive₁] at this
          exact (rangeAbsent.inj this).1.symm
        obtain ⟨t, ht, rec, hrec, hid, hnotlive, hpos⟩ := hended hactive (hlimits limit hmem)
        exact ⟨harchive, t, ht, rec, hrec, hid, hnotlive, hpos.le.trans hle⟩
      · exact nomatch hlen
    next => exact ⟨hpass, nofun⟩

/-- A recording that ended at or before the position never held its byte. -/
theorem not_holds_of_ended {t' : Nat} (ht : t ≤ t') {rec ended : Recording} {pos : BPosition} {raw : Int}
    (hrec : rec ∈ W.catalog t a) (hended : ended ∈ W.catalog t' a) (hid : ended.recordingId = rec.recordingId)
    (hraw : rawPosition rec.recordingId rec.layout pos = .ok raw) (hle : ended.position ≤ raw) :
    ¬ rec.Holds pos := by
  rintro ⟨raw', hraw', -, hlt⟩
  obtain rfl := ok.inj (hraw.symm.trans hraw')
  obtain ⟨rec', hrec', hgrows⟩ := W.grows t t' a ht rec hrec
  obtain rfl := (W.wellFormed t' a).unique rec' hrec' ended hended (hgrows.id.trans hid.symm)
  have := hgrows.position
  omega

/-- What a refetch answers: when no limit that was read is null, an archive that answers that the range is absent
held no byte of it at some moment of the call. -/
structure Asks (W : World) (r : ArchiveRefetcher) (w : Wanted) (out : ArchiveRefetcher × Except LogError α) :
    Prop where
  passes : Passes r out.1
  refused : ∀ a detail, out.2 = .error (.rangeAbsent a detail) → (∀ l ∈ out.1.limits, 0 ≤ l.position) →
    ∃ t, r.now ≤ t ∧ t ≤ out.1.now ∧ ∀ rec ∈ W.catalog t a, rec.sessionId = w.sessionId → ¬ rec.Holds w.from

variable {w : Wanted}

theorem Asks.of_faulty {out : ArchiveRefetcher × Except LogError α} (hpass : Passes r out.1) (h : Faulty out) :
    Asks W r w out :=
  ⟨hpass, fun a d he => absurd he (h a d)⟩

section

variable (r : ArchiveRefetcher)

/-- **A refusal is true.** -/
theorem planTxData_asks (w : Wanted) : Asks W r w (r.planTxData W w) := by
  obtain ⟨hpass, hfaulty, hok⟩ := listOrRotate_spec r (W.archives r.now)
  unfold planTxData
  dsimp only
  split
  next hlist =>
    rw [hlist] at hpass hfaulty
    exact .of_faulty hpass fun a d h => hfaulty a d (congrArg error (error.inj h))
  next r₁ recs hlist =>
    rw [hlist] at hpass hok
    obtain ⟨t, a₀, ht, ht', rfl, ha, hlive⟩ := hok recs rfl
    split
    next u hres =>
      refine ⟨hpass.trans (passes_rotate _), fun a d h _ => ?_⟩
      have hname := error.inj h
      cases u with
      | absent =>
        simp only [refuse, show r₁.live = some a₀ from hlive] at hname
        obtain rfl : a₀ = a := (rangeAbsent.inj hname).1
        exact ⟨t, ht, ht', fun rec hrec hsession => not_holds_of_resolve_absent hres hrec hsession⟩
      | layout =>
        obtain ⟨_, -, -, he⟩ := locateAll_eq_error (resolve_eq_layout hres)
        obtain ⟨reason, rfl⟩ := rawPosition_eq_error he
        exact LogError.noConfusion hname
    next found hres =>
      obtain ⟨hpass', hrefused⟩ := prepareReplay_spec (W := W) hlive ha found
      split
      next hprep =>
        rw [hprep] at hpass' hrefused
        refine ⟨hpass.trans hpass', fun a d h hlimits => ?_⟩
        obtain ⟨rfl, t', ht₁, ended, hended, hid, -, hle⟩ :=
          hrefused a d (congrArg error (error.inj h)) hlimits
        obtain ⟨rec₀, -, hfound, -, hraw, honly⟩ := resolve_eq_ok (W.wellFormed t _) hres
        refine ⟨t, ht, ht'.trans hpass'.now, fun rec hrec hsession hholds => ?_⟩
        obtain rfl := honly rec hrec hsession hholds
        rw [hfound] at hid
        exact not_holds_of_ended (ht'.trans ht₁) hrec hended hid hraw hle hholds
      next hprep =>
        rw [hprep] at hpass'
        exact ⟨hpass.trans hpass', nofun⟩

theorem replay_spec (endpoints : List String) (found : Located) (plan : ReplayPlan) :
    Passes r (r.replay W endpoints found plan).1 ∧ Faulty (r.replay W endpoints found plan) := by
  obtain ⟨hpass, hfaulty, -⟩ := ensureSession_spec (r.called W) endpoints
  unfold replay
  split
  · exact ⟨passes_called r, nofun⟩
  · split
    next hsession =>
      rw [hsession] at hpass hfaulty
      exact ⟨(passes_called r).trans hpass, fun a d h => hfaulty a d (congrArg error (error.inj h))⟩
    next r₁ _ hsession =>
      rw [hsession] at hpass
      have hpass₁ := (passes_called r).trans hpass
      split
      · exact ⟨(hpass₁.trans (passes_called _)).trans (passes_rotate _), nofun⟩
      · have hpass₂ := (hpass₁.trans (passes_called (W := W) r₁)).trans (passes_called (W := W) _)
        dsimp only
        split
        · exact ⟨hpass₂.trans (passes_rotate _), nofun⟩
        · exact ⟨hpass₂, nofun⟩

/-- A refetch refuses where its plan does. -/
theorem fetchTxData_asks (w : Wanted) : Asks W r w (r.fetchTxData W w) := by
  have hplan := planTxData_asks (W := W) r w
  unfold fetchTxData
  split
  next hout =>
    rw [hout] at hplan
    exact ⟨hplan.passes, fun a d h => hplan.refused a d (congrArg error (error.inj h))⟩
  next hout =>
    rw [hout] at hplan
    exact ⟨hplan.passes, nofun⟩
  next r₁ found plan hout =>
    rw [hout] at hplan
    obtain ⟨hpass, hfaulty⟩ := replay_spec r₁ (W.archives r.now) found plan
    exact .of_faulty (hplan.passes.trans hpass) hfaulty

end

/-! ## What a refetch finds -/

theorem lookup_of_mem (h : rec ∈ W.catalog t a) : W.lookup t a rec.recordingId = some rec := by
  cases hl : W.lookup t a rec.recordingId with
  | none =>
    have := find?_eq_none.1 hl rec h
    simp at this
  | some rec' =>
    obtain ⟨hmem, hid⟩ := mem_of_lookup hl
    rw [(W.wellFormed t a).unique rec' hmem rec h hid]

/-- Calls that do not fail read the limit of a recording: a position at or behind its own. -/
theorem readLimit_of_mem (hfails : ∀ t, W.fails t = none) (hrec : rec ∈ W.catalog r.now a) :
    ∃ limit, (r.readLimit W a rec.recordingId).2 = .ok limit ∧ rec.position ≤ limit.position := by
  have hnonneg := (W.wellFormed r.now a).nonneg rec hrec
  obtain ⟨rec', hrec', hgrows⟩ := W.grows r.now (W.after r.now) a (W.lt_after _).le rec hrec
  have hposition : W.getRecordingPosition r.now a rec.recordingId
      = .ok (if rec.live then rec.position else -1) := by
    simp only [World.getRecordingPosition, hfails, lookup_of_mem hrec]
  have hstop : W.getStopPosition (W.after r.now) a rec.recordingId
      = .ok (if rec'.live then -1 else rec'.position) := by
    simp only [World.getStopPosition, hfails, ← hgrows.id, lookup_of_mem hrec']
  unfold readLimit
  rw [hposition, hstop]
  cases hlive : rec.live with
  | true =>
    exact ⟨⟨rec.position, true⟩, by simp [Except.toOption, Option.filter, hnonneg], le_rfl⟩
  | false =>
    obtain rfl := hgrows.ended hlive
    exact ⟨⟨rec'.position, false⟩, by simp [Except.toOption, Option.filter, hlive], le_rfl⟩

/-- **A refetch finds what is there.** When no call fails and a recording of the asked archive holds the wanted
byte, the plan is a replay of that recording from exactly the wanted position. -/
theorem planTxData_of_holds (hfails : ∀ t, W.fails t = none) {r₁ : ArchiveRefetcher}
    (hasked : r.ensureSession W (W.archives r.now) = (r₁, .ok a))
    (hrec : rec ∈ W.catalog r₁.now a) (hsession : rec.sessionId = w.sessionId) (hholds : rec.Holds w.from) :
    ∃ found plan, (r.planTxData W w).2 = .ok (some (found, plan)) ∧ found.found = .ofCatalog rec
      ∧ rawPosition rec.recordingId rec.layout w.from = .ok plan.fromRaw ∧ 0 < plan.len := by
  obtain ⟨-, -, hep⟩ := ensureSession_spec r (W.archives r.now)
  rw [hasked] at hep
  obtain ⟨ha, hlive⟩ := hep a rfl
  have hlist : r.listOrRotate W (W.archives r.now)
      = (r₁.called W, .ok ((W.catalog r₁.now a).map .ofCatalog)) := by
    simp only [listOrRotate, hasked, hfails]
  obtain ⟨found, hres, hfound, hraw⟩ := resolve_of_holds (W.wellFormed _ a) hrec hsession hholds
  have hlive' : (r₁.called W).live = some a := hlive
  obtain ⟨rec', hrec', hgrows⟩ := W.grows r₁.now (r₁.called W).now a (W.lt_after _).le rec hrec
  obtain ⟨limit, hlimit, hle⟩ := readLimit_of_mem hfails hrec'
  obtain ⟨r₂, hread⟩ : ∃ r₂, (r₁.called W).readLimit W a rec'.recordingId = (r₂, .ok limit) :=
    ⟨_, Prod.ext rfl hlimit⟩
  have hlt : found.fromRaw < limit.position := by
    obtain ⟨raw, hraw', -, hlt⟩ := hgrows.holds hholds
    rw [hgrows.id, hgrows.layout] at hraw'
    obtain rfl := ok.inj (hraw.symm.trans hraw')
    omega
  have hlen : found.replayLen limit = .ok (some (limit.position - found.fromRaw)) := by
    have hnot : ¬ limit.endedBefore found.fromRaw = true := by
      simp only [endedBefore, Bool.and_eq_true, decide_eq_true_eq]
      omega
    rw [Located.replayLen, if_neg hnot, if_pos (by unfold replayLen; omega)]
    rfl
  have hid : found.found.recordingId = rec'.recordingId := by
    rw [hfound, hgrows.id]
    rfl
  refine ⟨found, ⟨found.fromRaw, limit.position - found.fromRaw, limit⟩, ?_, hfound, hraw, by
    show 0 < limit.position - found.fromRaw
    omega⟩
  simp only [planTxData, hlist, hres, prepareReplay, recordedLimit, ensureSession_of_live hlive' ha, hid, hread,
    hlen, map_some]

end ArchiveRefetcher

end Kardamom.Archive
