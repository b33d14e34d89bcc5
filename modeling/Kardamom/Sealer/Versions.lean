import Kardamom.Sealer.Basic

/-!
# Decision rules and the version switch

The decision version of the open block is replicated state: 3, 4 after its activation, 5 with the
carry flag. It moves only at a block boundary, from the schedules that feature activation records
stored. `VersionSwitch` is the switch with its three schedules; `DecisionRules` is the tail that a
snapshot carries for members of an older release and that changes no decision.

Origins and times are `u64` values of the wire, so every comparison here is unsigned. The flag that
the member keeps its retained frames in a file is set once before the first entry, so it is an
argument of `onActivation` here and not a field.
-/

namespace Kardamom.Sealer

open List

/-- One held activation: the epoch that schedules it, and its time in ms. -/
structure Activation where
  origin : UInt64
  time : UInt64
  deriving DecidableEq, Repr, Inhabited

/-- The most activations of one feature that a state holds (`MAX_HELD`). -/
def maxHeld : Nat := 3

/-- The held activations of one feature, oldest first. -/
@[ext] structure Schedule where
  held : List Activation
  held_le : held.length ≤ maxHeld
  deriving DecidableEq, Repr

open Schedule

namespace Schedule

/-- The schedule with no activation. -/
def empty : Schedule := ⟨[], Nat.zero_le _⟩

section

variable (s : Schedule)

/-- The origin of the newest held activation, or 0 when none. -/
def newest : UInt64 := (s.held.getLast?.map Activation.origin).getD 0

/-- How many held activations, from the oldest, have an epoch at or below `l1Origin`. -/
def visibleAt (l1Origin : UInt64) : Nat := (s.held.takeWhile fun a => a.origin ≤ l1Origin).length

/-- The time of a held activation: a 0 of one that becomes visible now is `sealedBlockMs`. -/
def resolvedTime (sealedOrigin : UInt64) (a : Activation) (sealedBlockMs : UInt64) : UInt64 :=
  if sealedOrigin < a.origin ∧ a.time = 0 then sealedBlockMs else a.time

/-- Whether the feature is on after the boundary of a block with L1 origin `l1Origin`: with no
visible activation it stays as `current`. -/
def onAt (sealedOrigin l1Origin sealedBlockMs l2Timestamp : UInt64) (current : Bool) : Bool :=
  let visible := s.visibleAt l1Origin
  if visible = 0 then current
  else
    let time := resolvedTime sealedOrigin (s.held.getD (visible - 1) default) sealedBlockMs
    time ≠ 0 && time ≤ l2Timestamp

/-- Resolve the time of the newest visible activation, and drop the older ones. -/
def settle (sealedOrigin l1Origin sealedBlockMs : UInt64) : Schedule :=
  let visible := s.visibleAt l1Origin
  if visible = 0 then s
  else
    let a := s.held.getD (visible - 1) default
    ⟨(s.held.set (visible - 1) ⟨a.origin, resolvedTime sealedOrigin a sealedBlockMs⟩).drop
        (visible - 1),
      by
        have := s.held_le
        simp only [length_drop, length_set]
        omega⟩

/-- Hold one more activation, after the ones held. The callers check that there is room. -/
def hold (a : Activation) : Schedule :=
  if h : s.held.length < maxHeld then
    ⟨s.held ++ [a], by simp only [length_append, length_singleton]; omega⟩
  else s

theorem visibleAt_le (l1Origin : UInt64) : s.visibleAt l1Origin ≤ s.held.length :=
  (takeWhile_sublist _).length_le

end

variable {s : Schedule}

/-- A boundary never empties a schedule: the newest visible activation stays. -/
theorem settle_held_ne_nil (h : s.held ≠ []) (sealedOrigin l1Origin sealedBlockMs : UInt64) :
    (s.settle sealedOrigin l1Origin sealedBlockMs).held ≠ [] := by
  unfold settle
  dsimp only
  split
  case isTrue => exact h
  case isFalse hv =>
    have hle := s.visibleAt_le l1Origin
    refine ne_nil_of_length_pos ?_
    simp only [length_drop, length_set]
    omega

theorem settle_of_held_nil (h : s.held = []) (sealedOrigin l1Origin sealedBlockMs : UInt64) :
    s.settle sealedOrigin l1Origin sealedBlockMs = s :=
  if_pos (by simp [visibleAt, h])

theorem onAt_of_held_nil (h : s.held = [])
    (sealedOrigin l1Origin sealedBlockMs l2Timestamp : UInt64) (current : Bool) :
    s.onAt sealedOrigin l1Origin sealedBlockMs l2Timestamp current = current :=
  if_pos (by simp [visibleAt, h])

theorem hold_held_ne_nil (h : s.held ≠ []) (a : Activation) : (s.hold a).held ≠ [] := by
  unfold hold
  split
  · simp
  · exact h

end Schedule

/-- The rules that a snapshot carries: always version 3, with the activations it was loaded with. -/
structure DecisionRules where
  activations : Schedule
  /-- The L1 origin of the last block that a boundary sealed. -/
  sealedOrigin : UInt64
  deriving DecidableEq, Repr

namespace DecisionRules

/-- The rules of a state that starts at genesis or from a seed. -/
def start : DecisionRules := ⟨.empty, 0⟩

/-- The boundary of a block with L1 origin `l1Origin` seals that block. -/
def atBoundary (r : DecisionRules) (l1Origin : UInt64) : DecisionRules :=
  { r with sealedOrigin := l1Origin }

end DecisionRules

/-- The features that the switch follows. -/
inductive Feature where
  /-- `FEATURE_SEALER_V4`, id 3. -/
  | sealerV4
  /-- `FEATURE_SEALER_V5`, the carry flag, id 4. -/
  | sealerV5
  /-- `FEATURE_CARRY_WINDOW`, id 5. -/
  | carryWindow
  deriving DecidableEq, Repr

/-- The feature of an id on the wire, if the switch follows it. -/
def Feature.ofId (id : UInt64) : Option Feature :=
  if id = 3 then some .sealerV4
  else if id = 4 then some .sealerV5
  else if id = 5 then some .carryWindow
  else none

/-- A feature activation record: the epoch at `l1Origin` schedules `featureId`. -/
structure FeatureActivation where
  l1Origin : UInt64
  featureId : UInt64
  activationMs : UInt64
  deriving DecidableEq, Repr

/-- What a feature activation record did. -/
inductive ActivationOutcome where
  | ignored
  | stored
  | storedLate
  | missed
  | full
  | early
  | unsupported
  deriving DecidableEq, Repr

/-- The version of a state that holds no visible activation (`OFF_VERSION`). -/
def offVersion : Nat := 3

/-- The version of an active `sealerV4` (`ON_VERSION`). -/
def onVersion : Nat := 4

/-- The version of an active carry flag (`CARRY_VERSION`). -/
def carryVersion : Nat := 5

/-- The switch between decision versions 3, 4 and 5, with the version of the open block. -/
structure VersionSwitch where
  v4 : Schedule
  carry : Schedule
  window : Schedule
  /-- The carry window flag of the open block; its rules apply only under version 5. -/
  carryWindow : Bool
  /-- The L1 origin of the last block that a boundary sealed. -/
  sealedOrigin : UInt64
  version : Nat
  version_range : offVersion ≤ version ∧ version ≤ carryVersion
  deriving DecidableEq, Repr

namespace VersionSwitch

/-- The switch of a state that starts at genesis or from a seed. -/
def start : VersionSwitch where
  v4 := .empty
  carry := .empty
  window := .empty
  carryWindow := false
  sealedOrigin := 0
  version := offVersion
  version_range := by decide

section

variable (vs : VersionSwitch)

/-- The schedule of a feature (`scheduleOf`). -/
def scheduleOf : Feature → Schedule
  | .sealerV4 => vs.v4
  | .sealerV5 => vs.carry
  | .carryWindow => vs.window

/-- The switch with another schedule for one feature. -/
def withSchedule (f : Feature) (s : Schedule) : VersionSwitch :=
  match f with
  | .sealerV4 => { vs with v4 := s }
  | .sealerV5 => { vs with carry := s }
  | .carryWindow => { vs with window := s }

/-- Whether the rules of the carry window apply in the open block. -/
def carryWindowRules : Bool := vs.carryWindow && vs.version == carryVersion

/-- Take a feature activation record, with `stateOrigin` the L1 origin of the state and
`openBlockMs` the time that the open block executes with. It only stores the schedule. -/
def onActivation (fileStore : Bool) (activation : FeatureActivation)
    (stateOrigin openBlockMs : UInt64) : VersionSwitch × ActivationOutcome :=
  match Feature.ofId activation.featureId with
  | none => (vs, .ignored)
  | some feature =>
    let schedule := vs.scheduleOf feature
    let origin := activation.l1Origin
    if origin ≤ schedule.newest then (vs, .ignored)
    else if stateOrigin ≠ 0 ∧ origin < stateOrigin then (vs, .missed)
    else if stateOrigin ≠ 0 ∧ origin ≠ stateOrigin ∧ origin ≠ stateOrigin + 1 then (vs, .ignored)
    else if feature = .carryWindow ∧ fileStore then (vs, .unsupported)
    else if (feature = .sealerV5 ∧ vs.version < onVersion)
        ∨ (feature = .carryWindow ∧ vs.version ≠ carryVersion) then (vs, .early)
    else if schedule.held.length = maxHeld then (vs, .full)
    else
      let late := origin ≤ vs.sealedOrigin
      let time := activation.activationMs
      (vs.withSchedule feature
          (schedule.hold ⟨origin, if late ∧ time = 0 then openBlockMs else time⟩),
        if late then .storedLate else .stored)

/-- The version that `atBoundary` would set for the same boundary. -/
def versionAtBoundary (l1Origin sealedBlockMs l2Timestamp : UInt64) : Nat :=
  if !vs.v4.onAt vs.sealedOrigin l1Origin sealedBlockMs l2Timestamp (decide (onVersion ≤ vs.version))
  then offVersion
  else if vs.carry.onAt vs.sealedOrigin l1Origin sealedBlockMs l2Timestamp
      (vs.version == carryVersion)
  then carryVersion
  else onVersion

end

section

variable (vs : VersionSwitch) (l1Origin sealedBlockMs l2Timestamp : UInt64)

theorem versionAtBoundary_range :
    offVersion ≤ vs.versionAtBoundary l1Origin sealedBlockMs l2Timestamp ∧
      vs.versionAtBoundary l1Origin sealedBlockMs l2Timestamp ≤ carryVersion := by
  unfold versionAtBoundary
  split
  · decide
  · split <;> decide

/-- Set the version of the next block at the boundary of a block with L1 origin `l1Origin`. -/
def atBoundary :
    VersionSwitch where
  v4 := vs.v4.settle vs.sealedOrigin l1Origin sealedBlockMs
  carry := vs.carry.settle vs.sealedOrigin l1Origin sealedBlockMs
  window := vs.window.settle vs.sealedOrigin l1Origin sealedBlockMs
  carryWindow := vs.window.onAt vs.sealedOrigin l1Origin sealedBlockMs l2Timestamp vs.carryWindow
  sealedOrigin := l1Origin
  version := vs.versionAtBoundary l1Origin sealedBlockMs l2Timestamp
  version_range := vs.versionAtBoundary_range l1Origin sealedBlockMs l2Timestamp

end

/-- What every switch that ran from `start` satisfies: a feature without a held activation was never
on. It is what lets a snapshot leave an empty schedule out. -/
structure Settled (vs : VersionSwitch) : Prop where
  version_of_v4 : vs.v4.held = [] → vs.version = offVersion
  version_of_carry : vs.carry.held = [] → vs.version ≠ carryVersion
  flag_of_window : vs.window.held = [] → vs.carryWindow = false

theorem settled_start : Settled start where
  version_of_v4 _ := rfl
  version_of_carry _ := by decide
  flag_of_window _ := rfl

/-- An activation record changes at most one schedule, by holding one more activation. -/
theorem onActivation_cases (vs : VersionSwitch) (fileStore : Bool) (activation : FeatureActivation)
    (stateOrigin openBlockMs : UInt64) :
    (vs.onActivation fileStore activation stateOrigin openBlockMs).1 = vs ∨
      ∃ feature a, (vs.onActivation fileStore activation stateOrigin openBlockMs).1
        = vs.withSchedule feature ((vs.scheduleOf feature).hold a) := by
  unfold onActivation
  split
  case h_1 => exact .inl rfl
  case h_2 feature _ =>
    dsimp only
    split_ifs
    all_goals first
      | exact .inl rfl
      | exact .inr ⟨feature, _, rfl⟩

variable {vs : VersionSwitch}

/-- An activation record never takes an activation away from a schedule. -/
theorem onActivation_v4_held_nil {fileStore : Bool}
    {activation : FeatureActivation} {stateOrigin openBlockMs : UInt64}
    (h : (vs.onActivation fileStore activation stateOrigin openBlockMs).1.v4.held = []) :
    vs.v4.held = [] := by
  by_contra hne
  rcases vs.onActivation_cases fileStore activation stateOrigin openBlockMs with heq | ⟨f, a, heq⟩
  · exact hne (heq ▸ h)
  · rw [heq] at h
    cases f with
    | sealerV4 => exact hold_held_ne_nil hne a h
    | sealerV5 | carryWindow => exact hne h

theorem Settled.onActivation (hs : vs.Settled) (fileStore : Bool)
    (activation : FeatureActivation) (stateOrigin openBlockMs : UInt64) :
    (vs.onActivation fileStore activation stateOrigin openBlockMs).1.Settled := by
  rcases vs.onActivation_cases fileStore activation stateOrigin openBlockMs with h | ⟨f, a, h⟩
  · rw [h]; exact hs
  · rw [h]
    -- a schedule that is empty after the hold was empty before it
    have hnil : ∀ s : Schedule, (s.hold a).held = [] → s.held = [] := fun s hs =>
      by_contra fun hne => hold_held_ne_nil hne a hs
    cases f with
    | sealerV4 =>
      exact ⟨fun hv => hs.version_of_v4 (hnil _ hv), hs.version_of_carry, hs.flag_of_window⟩
    | sealerV5 =>
      exact ⟨hs.version_of_v4, fun hv => hs.version_of_carry (hnil _ hv), hs.flag_of_window⟩
    | carryWindow =>
      exact ⟨hs.version_of_v4, hs.version_of_carry, fun hv => hs.flag_of_window (hnil _ hv)⟩

theorem atBoundary_v4_held_nil {l1Origin sealedBlockMs l2Timestamp : UInt64}
    (h : (vs.atBoundary l1Origin sealedBlockMs l2Timestamp).v4.held = []) : vs.v4.held = [] :=
  by_contra fun hne => settle_held_ne_nil hne _ _ _ h

theorem Settled.atBoundary (hs : vs.Settled) (l1Origin sealedBlockMs l2Timestamp : UInt64) :
    (vs.atBoundary l1Origin sealedBlockMs l2Timestamp).Settled where
  version_of_v4 h := by
    have hnil := atBoundary_v4_held_nil h
    show vs.versionAtBoundary l1Origin sealedBlockMs l2Timestamp = offVersion
    rw [versionAtBoundary, onAt_of_held_nil hnil, hs.version_of_v4 hnil]
    rfl
  version_of_carry h := by
    have hnil : vs.carry.held = [] := by_contra fun hne => settle_held_ne_nil hne _ _ _ h
    show vs.versionAtBoundary l1Origin sealedBlockMs l2Timestamp ≠ carryVersion
    have hoff : (vs.version == carryVersion) = false := by simpa using hs.version_of_carry hnil
    rw [versionAtBoundary, onAt_of_held_nil hnil, hoff]
    split <;> simp [offVersion, onVersion, carryVersion]
  flag_of_window h := by
    have hnil : vs.window.held = [] := by_contra fun hne => settle_held_ne_nil hne _ _ _ h
    show vs.window.onAt vs.sealedOrigin l1Origin sealedBlockMs l2Timestamp vs.carryWindow = false
    rw [onAt_of_held_nil hnil, hs.flag_of_window hnil]

end VersionSwitch

end Kardamom.Sealer
