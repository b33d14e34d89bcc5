import Kardamom.Sealer.Restorable

/-!
# The image table of the replay windows

Over every sequence of references, of more images than slots, a search of the open-address table ends
at the slot of its image. A new image that finds every slot taken gets the one silent longest, and the
other images keep their slots and their windows. Silence is in canonical counts: a refused reference
does not raise the count, so of two images with the same count the one heard of later may go. Windows
that a snapshot restored decide every later reference as before.
-/

namespace Kardamom.Sealer

open ByteCodec Machine

namespace SessionWindows

variable {lay : WindowLayout} {w a b : SessionWindows}

/-- One reference, and whether the caller takes it if it is fresh. -/
structure Offered where
  lane : UInt32
  session : UInt32
  position : UInt64
  now : Int
  taken : Bool

/-- `check`, then `mark` when the reference is fresh; a caller that refuses it for another reason does
not mark it. -/
def offer (lay : WindowLayout) (w : SessionWindows) (o : Offered) : SessionWindows × Seen :=
  let r := w.check lay o.lane o.session o.position o.now
  (if r.2 = .fresh ∧ o.taken then r.1.mark lay else r.1, r.2)

theorem Within.offer {count : Int} (h : Within lay count w) {o : Offered}
    (ho : 0 ≤ o.now ∧ o.now ≤ count) : Within lay count (w.offer lay o).1 := by
  have hcheck := h.check ho.1 ho.2 o.lane o.session o.position
  unfold SessionWindows.offer
  dsimp only
  split
  case isTrue => exact hcheck.mark (check_unit_lt ..)
  case isFalse => exact hcheck

theorem Same.offer (h : Same lay a b) (o : Offered) :
    Same lay (a.offer lay o).1 (b.offer lay o).1 ∧ (a.offer lay o).2 = (b.offer lay o).2 := by
  obtain ⟨hseen, hsame, hslot, hunit, hlt⟩ := h.check o.lane o.session o.position o.now
  refine ⟨?_, hseen⟩
  unfold SessionWindows.offer
  dsimp only
  rw [← hseen]
  split
  case isTrue => exact hsame.mark hslot hunit hlt
  case isFalse => exact hsame

/-- A new image takes the slot silent longest; the others keep their slots and their windows. -/
theorem slotOf_of_full (hv : Valid lay w) (hfull : w.used = lay.slots) {key : UInt64}
    (hnew : w.find lay key = none) :
    let r := w.slotOf lay key
    r.2 = w.oldestSlot lay ∧
    (∀ key', r.1.find lay key' = if key' = key then some r.2
      else if key' = w.keys r.2 then none else w.find lay key') ∧
    ∀ s ≠ r.2, r.1.highest s = w.highest s ∧ r.1.bits s = w.bits s := by
  have hr : w.slotOf lay key = ((w.remove lay (w.keys (w.oldestSlot lay))).takeSlot lay key
      (w.oldestSlot lay), w.oldestSlot lay) := by
    unfold slotOf freeSlot
    rw [hnew, if_neg (by omega)]
  have hv' := (hv.slotOf key).1
  have hlt := (oldestSlot_spec lay w).1
  rw [hr] at hv' ⊢
  refine ⟨rfl, fun key' => Option.ext fun s => ?_, fun s hs => ?_⟩
  · have hold := hv.find_eq_none_iff.1 hnew
    have hfind : w.find lay key' = some s ↔ _ := hv.find_eq_some_iff
    have hone : w.keys s = w.keys (w.oldestSlot lay) → s < w.used → s = w.oldestSlot lay :=
      fun h hs => hv.keys_inj s hs _ (hfull ▸ hlt) h
    rw [hv'.find_eq_some_iff]
    simp only [takeSlot, remove, Function.update_apply]
    grind
  · simp [takeSlot, remove, hs]

/-- **The image table.** After every sequence of references:
* a search finds the slot of every image that has one, and no other slot;
* the probe from every key meets an empty entry, so it ends;
* with all slots taken, a new image takes the slot whose last reference has the lowest canonical count,
  the lowest slot of a tie, and no other image's slot or window changes;
* what `readFrom` reads of the written windows decides every later sequence alike. -/
theorem images_found (lay : WindowLayout) (hslots : lay.slots < 2 ^ 31)
    (hwidth : lay.width < 2 ^ 31) (offers : List Offered)
    (hnow : ∀ o ∈ offers, 0 ≤ o.now ∧ o.now ≤ longMax) :
    let w := (run (offer lay) empty offers).1
    (∀ key s, w.find lay key = some s ↔ s < w.used ∧ w.keys s = key) ∧
    (∀ key, ∃ d < tableSize lay, w.table ((hash lay key + d) % tableSize lay) = none) ∧
    (∀ key, w.used = lay.slots → w.find lay key = none →
      let r := w.slotOf lay key
      (∀ s < w.used, w.lastSeen r.2 ≤ w.lastSeen s ∧ (s < r.2 → w.lastSeen r.2 < w.lastSeen s)) ∧
      (∀ key', r.1.find lay key' = if key' = key then some r.2
        else if key' = w.keys r.2 then none else w.find lay key') ∧
      ∀ s ≠ r.2, r.1.highest s = w.highest s ∧ r.1.bits s = w.bits s) ∧
    ∃ restored, Reads (readFrom lay) (w.writeTo lay) restored ∧
      ∀ later, (run (offer lay) w later).2 = (run (offer lay) restored later).2 := by
  have hwithin : Within lay longMax (run (offer lay) empty offers).1 :=
    run_invariant_of_guard (within_empty lay longMax) (fun _ _ h ho => h.offer ho)
      (Guarded.of_inputs _ hnow)
  intro w
  have hv : Valid lay w := hwithin.valid
  refine ⟨fun key s => hv.find_eq_some_iff, fun key => ?_, fun key hfull hnew => ?_, ?_⟩
  · obtain ⟨d, hd, hempty, -⟩ := hv.table.exists_first_empty (hash_lt lay key)
    exact ⟨d, hd, hempty⟩
  · obtain ⟨hslot, hfind, hkept⟩ := slotOf_of_full hv hfull hnew
    refine ⟨?_, hfind, hkept⟩
    rw [hslot, hfull]
    exact (oldestSlot_spec lay w).2
  · refine ⟨_, reads_windows (hwithin.storable le_rfl) hslots hwidth, fun later => ?_⟩
    have hrun := (run_simulation (fun _ _ o h => h.offer o) (same_reloaded hv) later).2
    rw [← List.forall₂_eq_eq_eq]
    exact hrun.imp fun _ _ h => Prod.ext h.1 h.2

/-- Two slots. -/
def twoSlots : WindowLayout := ⟨2, 64, ⟨1, rfl⟩, ⟨6, rfl, le_rfl⟩⟩

/-- The image 1 and the image 2, then a copy of the reference of each, at one canonical count. -/
def tiedOffers : List Offered :=
  [⟨0, 1, 32, 0, true⟩, ⟨0, 2, 32, 1, true⟩, ⟨0, 2, 32, 2, true⟩, ⟨0, 1, 32, 2, true⟩]

theorem images_found_twoSlots : (∀ o ∈ tiedOffers, 0 ≤ o.now ∧ o.now ≤ longMax) ∧
    ∃ restored, Reads (readFrom twoSlots)
      ((run (offer twoSlots) empty tiedOffers).1.writeTo twoSlots) restored := by
  have hnow : ∀ o ∈ tiedOffers, 0 ≤ o.now ∧ o.now ≤ longMax := by decide
  obtain ⟨restored, hread, -⟩ :=
    (images_found twoSlots (by decide) (by decide) tiedOffers hnow).2.2.2
  exact ⟨hnow, restored, hread⟩

/-- The image 3 takes the slot of image 1, though image 2 has been silent for longer. -/
theorem tie_evicts_recent :
    let w := (run (offer twoSlots) empty tiedOffers).1
    let v := (w.offer twoSlots ⟨0, 3, 32, 2, true⟩).1
    w.find twoSlots (keyOf 0 1) = some 0 ∧ w.find twoSlots (keyOf 0 2) = some 1 ∧
      v.find twoSlots (keyOf 0 1) = none ∧ v.find twoSlots (keyOf 0 2) = some 1 := by
  decide +kernel

end SessionWindows

end Kardamom.Sealer
