import Mathlib.Data.List.GetD
import Kardamom.Sealer.Versions

/-!
# A version switch that starts over

The snapshot of a state that holds no activation leaves the switch out, so a restored member starts
with the sealed origin 0 while the others know the origin of the last block. An activation of that
very origin is then late for them and not for the restored member: they fix its time when they store
it, the restored member at the next boundary. `Restarted` relates the two switches. They give every
activation the same effect but for the report that it was late (`Restarted.onActivation`), they see
the same version at the next boundary (`Restarted.versionAtBoundary`), and from that boundary on they
are equal (`Restarted.atBoundary`).
-/

namespace Kardamom.Sealer

open Schedule List Activation List

/-- Two activations of one epoch that a boundary resolves to the same time, given the sealed origins
of their switches. One whose epoch is not sealed has the same time already. -/
structure Activation.Alike (sealedOrigin sealedOrigin' sealedBlockMs : UInt64) (a a' : Activation) :
    Prop where
  origin : a.origin = a'.origin
  resolved : resolvedTime sealedOrigin a sealedBlockMs = resolvedTime sealedOrigin' a' sealedBlockMs
  time : sealedOrigin < a.origin → a.time = a'.time

namespace Schedule

variable {s s' : Schedule} {sealedOrigin sealedOrigin' sealedBlockMs l1Origin : UInt64}

/-- The schedules of two switches: activation by activation alike, in rising epochs. -/
structure Alike (sealedOrigin sealedOrigin' sealedBlockMs : UInt64) (s s' : Schedule) : Prop where
  held : Forall₂ (Activation.Alike sealedOrigin sealedOrigin' sealedBlockMs) s.held s'.held
  rising : s.held.Pairwise fun a b => a.origin < b.origin

variable (h : Alike sealedOrigin sealedOrigin' sealedBlockMs s s')
include h

theorem Alike.origins : s.held.map origin = s'.held.map origin := by
  have hheld := h.held
  generalize s.held = l at hheld
  generalize s'.held = l' at hheld
  induction hheld with
  | nil => rfl
  | cons hab _ ih => rw [map_cons, map_cons, hab.origin, ih]

theorem Alike.visibleAt (l1Origin : UInt64) : s.visibleAt l1Origin = s'.visibleAt l1Origin := by
  have hmap (l : List Activation) : (l.takeWhile fun a => a.origin ≤ l1Origin).length
      = ((l.map origin).takeWhile fun o => o ≤ l1Origin).length := by
    rw [takeWhile_map, length_map]
    rfl
  rw [Schedule.visibleAt, Schedule.visibleAt, hmap, hmap, h.origins]

theorem Alike.newest : s.newest = s'.newest := by
  rw [Schedule.newest, Schedule.newest, ← getLast?_map, ← getLast?_map, h.origins]

/-- The newest visible activations resolve to the same time. -/
theorem Alike.resolvedTime {i : Nat} (hi : i < s.held.length) :
    (s.held.getD i default).origin = (s'.held.getD i default).origin ∧
      resolvedTime sealedOrigin (s.held.getD i default) sealedBlockMs
        = resolvedTime sealedOrigin' (s'.held.getD i default) sealedBlockMs := by
  have hi' : i < s'.held.length := h.held.length_eq ▸ hi
  rw [getD_eq_getElem _ _ hi, getD_eq_getElem _ _ hi']
  have := forall₂_iff_get.1 h.held |>.2 i hi hi'
  exact ⟨this.origin, this.resolved⟩

theorem Alike.onAt (l1Origin l2Timestamp : UInt64) (current : Bool) :
    s.onAt sealedOrigin l1Origin sealedBlockMs l2Timestamp current
      = s'.onAt sealedOrigin' l1Origin sealedBlockMs l2Timestamp current := by
  unfold Schedule.onAt
  rw [← h.visibleAt l1Origin]
  dsimp only
  split
  · rfl
  · have hle := s.visibleAt_le l1Origin
    rw [(h.resolvedTime (by omega)).2]

omit h in
/-- In rising epochs, what is not visible is above the boundary's origin. -/
theorem lt_origin_of_mem_drop {held : List Activation}
    (hrising : held.Pairwise fun a b => a.origin < b.origin) (l1Origin : UInt64) :
    ∀ a ∈ held.drop (held.takeWhile fun a => a.origin ≤ l1Origin).length, l1Origin < a.origin := by
  induction held with
  | nil => simp
  | cons b held ih =>
    obtain ⟨hb, hrest⟩ := pairwise_cons.1 hrising
    rw [takeWhile_cons]
    by_cases hvis : b.origin ≤ l1Origin
    · simpa [hvis] using ih hrest
    · intro a ha
      have hlt : l1Origin < b.origin := UInt64.not_le.1 hvis
      simp only [hvis, decide_false, Bool.false_eq_true, if_false, length_nil, drop_zero]
        at ha
      rcases mem_cons.1 ha with rfl | ha
      · exact hlt
      · exact UInt64.lt_trans hlt (hb a ha)

omit h in
/-- What a boundary leaves: the newest visible activation with its time, and the later ones. -/
theorem settle_held (s : Schedule) (sealedOrigin l1Origin sealedBlockMs : UInt64) :
    (s.settle sealedOrigin l1Origin sealedBlockMs).held = (if s.visibleAt l1Origin = 0 then []
        else [⟨(s.held.getD (s.visibleAt l1Origin - 1) default).origin,
          resolvedTime sealedOrigin (s.held.getD (s.visibleAt l1Origin - 1) default)
            sealedBlockMs⟩]) ++ s.held.drop (s.visibleAt l1Origin) := by
  unfold settle
  dsimp only
  split
  next h => rw [h, drop_zero, nil_append]
  next h =>
    have hle := s.visibleAt_le l1Origin
    have hdrop : ∀ x : Activation, (s.held.set (s.visibleAt l1Origin - 1) x).drop
        (s.visibleAt l1Origin - 1) = x :: s.held.drop (s.visibleAt l1Origin) := by
      intro x
      rw [drop_eq_getElem_cons (by rw [length_set]; omega), getElem_set_self,
        drop_set_of_lt (by omega), Nat.sub_add_cancel (by omega)]
    exact hdrop _

/-- **The next boundary makes alike schedules equal.** -/
theorem Alike.settle (hsealed : sealedOrigin ≤ l1Origin) :
    s.settle sealedOrigin l1Origin sealedBlockMs = s'.settle sealedOrigin' l1Origin sealedBlockMs := by
  refine Schedule.ext ?_
  rw [settle_held, settle_held, ← h.visibleAt l1Origin]
  congr 1
  · split
    · rfl
    · have hle := s.visibleAt_le l1Origin
      obtain ⟨horigin, htime⟩ := h.resolvedTime (i := s.visibleAt l1Origin - 1) (by omega)
      rw [horigin, htime]
  · -- the later activations are not sealed yet, so they have their times already
    have hlater := lt_origin_of_mem_drop h.rising l1Origin
    have hheld := forall₂_drop (s.visibleAt l1Origin) h.held
    change ∀ a ∈ s.held.drop (s.visibleAt l1Origin), _ at hlater
    generalize s.held.drop (s.visibleAt l1Origin) = l at hheld hlater
    generalize s'.held.drop (s.visibleAt l1Origin) = l' at hheld
    induction hheld with
    | nil => rfl
    | @cons a a' l l' haa' _ ih =>
      have hlt := UInt64.lt_of_le_of_lt hsealed (hlater a mem_cons_self)
      have heq : a = a' := by
        cases a
        cases a'
        exact Activation.mk.injEq .. ▸ ⟨haa'.origin, haa'.time hlt⟩
      rw [heq, ih fun b hb => hlater b (mem_cons_of_mem _ hb)]

/-- Holding one more alike activation of a later epoch. -/
theorem Alike.hold {a a' : Activation} (ha : Activation.Alike sealedOrigin sealedOrigin' sealedBlockMs a a')
    (hnew : ∀ b ∈ s.held, b.origin < a.origin) :
    Alike sealedOrigin sealedOrigin' sealedBlockMs (s.hold a) (s'.hold a') := by
  have hlen := h.held.length_eq
  unfold Schedule.hold
  by_cases hroom : s.held.length < maxHeld
  · rw [dif_pos hroom, dif_pos (hlen ▸ hroom)]
    exact ⟨rel_append h.held (.cons ha .nil),
      by simpa [pairwise_append] using ⟨h.rising, hnew⟩⟩
  · rw [dif_neg hroom, dif_neg (hlen ▸ hroom)]
    exact h

end Schedule

namespace VersionSwitch

/-- A running switch and one that started over, both without an active feature, while the state's
origin is `stateOrigin` and the last block's time is `sealedBlockMs`. -/
structure Restarted (stateOrigin sealedBlockMs : UInt64) (vs vs' : VersionSwitch) : Prop where
  version : vs.version = offVersion
  version' : vs'.version = offVersion
  carry : vs.carry = .empty
  carry' : vs'.carry = .empty
  window : vs.window = .empty
  window' : vs'.window = .empty
  flag : vs.carryWindow = false
  flag' : vs'.carryWindow = false
  sealedOrigin' : vs'.sealedOrigin = 0
  sealed_le : vs.sealedOrigin ≤ stateOrigin
  v4 : Schedule.Alike vs.sealedOrigin 0 sealedBlockMs vs.v4 vs'.v4

variable {vs vs' : VersionSwitch} {stateOrigin sealedBlockMs : UInt64}

/-- A switch that never held an activation, and a new one. -/
theorem restarted_start (hset : vs.Settled) (h4 : vs.v4.held = []) (hc : vs.carry.held = [])
    (hw : vs.window.held = []) (hsealed : vs.sealedOrigin ≤ stateOrigin) (sealedBlockMs : UInt64) :
    Restarted stateOrigin sealedBlockMs vs start where
  version := hset.version_of_v4 h4
  version' := rfl
  carry := Schedule.ext hc
  carry' := rfl
  window := Schedule.ext hw
  window' := rfl
  flag := hset.flag_of_window hw
  flag' := rfl
  sealedOrigin' := rfl
  sealed_le := hsealed
  v4 := ⟨by rw [h4]; exact .nil, by rw [h4]; exact .nil⟩

section

variable (h : Restarted stateOrigin sealedBlockMs vs vs')
include h

theorem Restarted.advance {stateOrigin' : UInt64}
    (hle : stateOrigin ≤ stateOrigin') : Restarted stateOrigin' sealedBlockMs vs vs' :=
  { h with sealed_le := UInt64.le_trans h.sealed_le hle }

theorem Restarted.versionAtBoundary (l2Timestamp : UInt64) :
    vs.versionAtBoundary stateOrigin sealedBlockMs l2Timestamp
      = vs'.versionAtBoundary stateOrigin sealedBlockMs l2Timestamp := by
  unfold VersionSwitch.versionAtBoundary
  rw [h.version, h.version', h.sealedOrigin', h.v4.onAt stateOrigin l2Timestamp, h.carry, h.carry',
    onAt_of_held_nil (s := .empty) rfl, onAt_of_held_nil (s := .empty) rfl]

/-- **From the next boundary on the two are equal.** -/
theorem Restarted.atBoundary (l2Timestamp : UInt64) : vs.atBoundary stateOrigin sealedBlockMs l2Timestamp
      = vs'.atBoundary stateOrigin sealedBlockMs l2Timestamp := by
  have hversion := h.versionAtBoundary l2Timestamp
  have hv4 := h.v4.settle h.sealed_le
  have hempty : ∀ sealedOrigin, empty.settle sealedOrigin stateOrigin sealedBlockMs
      = empty := fun _ => settle_of_held_nil rfl _ _ _
  unfold VersionSwitch.atBoundary
  simp only [h.carry, h.carry', h.window, h.window', h.flag, h.flag', hempty, hversion,
    onAt_of_held_nil (s := empty) rfl, mk.injEq, and_self, and_true]
  rw [h.sealedOrigin']
  exact hv4

end

/-- Every held activation of a rising schedule is below one above its newest. -/
theorem lt_of_newest_lt {s : Schedule} (hrising : s.held.Pairwise fun a b => a.origin < b.origin)
    {origin : UInt64} (h : s.newest < origin) : ∀ b ∈ s.held, b.origin < origin := by
  intro b hb
  rcases eq_nil_or_concat s.held with hnil | ⟨pre, last, hlast⟩
  · rw [hnil] at hb
    cases hb
  · rw [concat_eq_append] at hlast
    have hnewest : s.newest = last.origin := by simp [newest, hlast]
    rw [hlast] at hb hrising
    rcases mem_append.1 hb with hb | hb
    · have := (pairwise_append.1 hrising).2.2 b hb last mem_cons_self
      exact UInt64.lt_trans this (hnewest ▸ h)
    · rw [mem_singleton.1 hb]
      exact hnewest ▸ h

/-- An activation that is late for the running switch only: the boundary resolves both alike. -/
theorem alike_of_stored {sealedOrigin origin time : UInt64} (hpos : 0 < origin)
    (sealedBlockMs : UInt64) :
    Activation.Alike sealedOrigin 0 sealedBlockMs
      ⟨origin, if origin ≤ sealedOrigin ∧ time = 0 then sealedBlockMs else time⟩
      ⟨origin, if origin ≤ 0 ∧ time = 0 then sealedBlockMs else time⟩ := by
  have hnot : ¬ origin ≤ 0 := UInt64.not_le.2 hpos
  refine ⟨rfl, ?_, fun hlt => ?_⟩
  · simp only [resolvedTime, hnot, false_and, if_false, hpos, true_and]
    by_cases hlate : origin ≤ sealedOrigin
    · simp [hlate, UInt64.not_lt.2 hlate]
    · simp [hlate, UInt64.not_le.1 hlate]
  · simp [hnot, UInt64.not_le.2 hlt]

end VersionSwitch

/-- What an activation's outcome says beside whether it was late. -/
def ActivationOutcome.stripLate : ActivationOutcome → ActivationOutcome
  | .storedLate => .stored
  | o => o

namespace VersionSwitch

variable {vs vs' : VersionSwitch} {stateOrigin sealedBlockMs : UInt64}

/-- **Both switches take an activation alike**, but for the report that it was late. -/
theorem Restarted.onActivation (h : Restarted stateOrigin sealedBlockMs vs vs') (fileStore : Bool)
    (activation : FeatureActivation) :
    Restarted stateOrigin sealedBlockMs
        (vs.onActivation fileStore activation stateOrigin sealedBlockMs).1
        (vs'.onActivation fileStore activation stateOrigin sealedBlockMs).1 ∧
      (vs.onActivation fileStore activation stateOrigin sealedBlockMs).2.stripLate
        = (vs'.onActivation fileStore activation stateOrigin sealedBlockMs).2.stripLate := by
  unfold VersionSwitch.onActivation
  cases Feature.ofId activation.featureId with
  | none => exact ⟨h, rfl⟩
  | some feature =>
    have hsealed' := h.sealedOrigin'
    have hversion := h.version
    have hversion' := h.version'
    -- every check before the last compares values that the two share
    have hnewest : (vs.scheduleOf feature).newest = (vs'.scheduleOf feature).newest := by
      cases feature
      exacts [h.v4.newest, by rw [scheduleOf, scheduleOf, h.carry, h.carry'],
        by rw [scheduleOf, scheduleOf, h.window, h.window']]
    have hlen : (vs.scheduleOf feature).held.length = (vs'.scheduleOf feature).held.length := by
      cases feature
      exacts [h.v4.held.length_eq, by rw [scheduleOf, scheduleOf, h.carry, h.carry'],
        by rw [scheduleOf, scheduleOf, h.window, h.window']]
    dsimp only
    rw [hversion, hversion', ← hnewest, ← hlen]
    by_cases hnew : activation.l1Origin ≤ (vs.scheduleOf feature).newest
    · rw [if_pos hnew, if_pos hnew]
      exact ⟨h, rfl⟩
    rw [if_neg hnew]
    split
    · exact ⟨h, rfl⟩
    split
    · exact ⟨h, rfl⟩
    split
    · exact ⟨h, rfl⟩
    split
    · exact ⟨h, rfl⟩
    next hearly =>
    split
    · exact ⟨h, rfl⟩
    -- under version 3 only `sealerV4` gets this far
    have hfeature : feature = .sealerV4 := by
      cases feature
      · rfl
      · exact absurd (.inl ⟨rfl, by decide⟩) hearly
      · exact absurd (.inr ⟨rfl, by decide⟩) hearly
    subst hfeature
    have hlt : vs.v4.newest < activation.l1Origin := UInt64.not_le.1 hnew
    have hpos : 0 < activation.l1Origin := UInt64.lt_of_le_of_lt UInt64.zero_le hlt
    refine ⟨{ h with v4 := ?_ }, ?_⟩
    · rw [hsealed']
      exact h.v4.hold (alike_of_stored hpos sealedBlockMs) (lt_of_newest_lt h.v4.rising hlt)
    · dsimp only
      split <;> split <;> rfl

end VersionSwitch

end Kardamom.Sealer
