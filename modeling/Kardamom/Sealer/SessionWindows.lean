import Kardamom.Lib.ProbeTable
import Kardamom.Sealer.Basic

/-!
# The replay windows

From decision version 4 on, a transaction reference is ordered by the replay window of its ingress
image: the highest unit seen, and one bit for each of the `width` units below it. The images hold
slots; an open-addressing table finds the slot of an image, and a new image takes a free slot or the
one whose image has been silent longest.

The Java arrays are functions of the slot, and a bitmap is the list of its words. `Valid` is the
invariant of the slots and the table, `Same` relates two windows that hold the same images in the
same slots but may have filled their tables in different orders. Windows that are `Same` decide
every reference alike (`check_same`, `mark_same`).
-/

namespace Kardamom.Sealer

open Function ProbeTable UInt64 List Option Nat

/-- The slot count and the window width, both powers of two, the width at least 64. -/
structure WindowLayout where
  slots : Nat
  width : Nat
  slots_pow : ∃ a, slots = 2 ^ a
  width_pow : ∃ b, width = 2 ^ b ∧ 64 ≤ width

/-- `DEFAULT_SLOTS` and `DEFAULT_WIDTH`: the layout every sealer runs. -/
def WindowLayout.default : WindowLayout := ⟨256, 2 ^ 18, ⟨8, by decide⟩, ⟨18, by decide, by decide⟩⟩

/-- The words of one bitmap. -/
def WindowLayout.wordsPerSlot (lay : WindowLayout) : Nat := lay.width / 64

/-- What a window says about a reference. -/
inductive Seen where
  | fresh
  | duplicate
  | expired
  deriving DecidableEq, Repr

/-- The windows of the images that hold a slot, and the table that finds them. -/
structure SessionWindows where
  keys : Nat → UInt64
  /-- The highest unit of each image; -1 before the first. -/
  highest : Nat → Int
  /-- The canonical count at the last reference of each image. -/
  lastSeen : Nat → Int
  /-- The bitmap words of each image, a ring over the units. -/
  bits : Nat → List UInt64
  table : Table
  used : Nat
  /-- The slot and the unit of the last `check`. -/
  checkedSlot : Nat
  checkedUnit : Nat

open SessionWindows

namespace SessionWindows

/-- The windows of a new state: no image. -/
def empty : SessionWindows where
  keys _ := 2 ^ 64 - 1
  highest _ := 0
  lastSeen _ := 0
  bits _ := []
  table _ := none
  used := 0
  checkedSlot := 0
  checkedUnit := 0

section Model

variable (lay : WindowLayout)

/-- Positions of the open-address table: two for each slot. -/
def tableSize : Nat := lay.slots * 2

/-- The home position of a key; `& tableMask` keeps the low bits. -/
def hash (key : UInt64) : Nat :=
  let z := key * 0x9E3779B97F4A7C15
  (z ^^^ (z >>> 32)).toNat % tableSize lay

/-- The key of an image: its lane byte over its session id. -/
def keyOf (lane session : UInt32) : UInt64 := ((lane &&& 0xFF).toUInt64 <<< 32) ||| session.toUInt64

/-- The bitmap word of a unit: the low bits of the unit, in words of 64. -/
def wordOf (unit : Nat) : Nat := unit % lay.width / 64

section

variable (w : SessionWindows)

section

variable (key : UInt64)

/-- The slot of `key`, if it has one. -/
def find : Option Nat :=
  ProbeTable.find (tableSize lay) (fun s => w.keys s == key) w.table (hash lay key)

/-- The slot silent longest; the lowest slot wins a tie. -/
def oldestSlot : Nat := (range' 1 (lay.slots - 1)).foldl
    (fun oldest s => if w.lastSeen s < w.lastSeen oldest then s else oldest) 0

/-- Remove `key` from the open-address table, and shift its probe chain back. -/
def remove : SessionWindows :=
  { w with
    table := ProbeTable.remove (tableSize lay) (fun s => hash lay (w.keys s))
      (fun s => w.keys s == key) w.table (hash lay key) }

/-- The windows with the free slot to take, and that slot: the next unused one, else the one freed
by `evictSilent`. -/
def freeSlot : SessionWindows × Nat :=
  if w.used < lay.slots then ({ w with used := w.used + 1 }, w.used)
  else
    let oldest := w.oldestSlot lay
    (w.remove lay (w.keys oldest), oldest)

/-- Give a slot to `key`: an empty bitmap, and its entry in the table. -/
def takeSlot (slot : Nat) : SessionWindows :=
  { w with
    keys := update w.keys slot key
    highest := update w.highest slot (-1)
    bits := update w.bits slot (replicate lay.wordsPerSlot 0)
    table := insert (tableSize lay) w.table (hash lay key) slot }

/-- The slot of `key`: its own, a free one, or the one silent longest. -/
def slotOf : SessionWindows × Nat :=
  match w.find lay key with
  | some slot => (w, slot)
  | none =>
    let (w, slot) := w.freeSlot lay
    (w.takeSlot lay key slot, slot)

end

/-- What the window of `slot` says about `unit`. -/
def verdict (slot unit : Nat) : Seen :=
  if (lay.width : Int) ≤ w.highest slot - unit then .expired
  else if (unit : Int) ≤ w.highest slot
      ∧ ((w.bits slot).getD (wordOf lay unit) 0 &&& (1 <<< ofNat unit)) ≠ 0
  then .duplicate
  else .fresh

/-- Note the slot and the unit for `mark`, and when the image was last heard of. -/
def remember (slot unit : Nat) (now : Int) : SessionWindows :=
  { w with
    checkedSlot := slot, checkedUnit := unit, lastSeen := update w.lastSeen slot now }

/-- Decide one reference and remember it for `mark`. A unit is a position in frames of 32 bytes. -/
def check (lane session : UInt32) (position : UInt64) (now : Int) : SessionWindows × Seen :=
  let (w, slot) := w.slotOf lay (keyOf lane session)
  let unit := position.toNat / 32
  (w.remember slot unit now, w.verdict lay slot unit)

end

section

variable (window : List UInt64)

/-- Clear the masked bits of the ring word that holds window word `word`. -/
def clearRange (word : Nat) (mask : UInt64) : List UInt64 :=
  window.modify (word % lay.wordsPerSlot) fun bits => bits &&& ~~~mask

/-- `Arrays.fill(window, from, to, 0)`. -/
def fillZero (lo hi : Nat) : List UInt64 :=
  window.mapIdx fun i bits => if lo ≤ i ∧ i < hi then 0 else bits

/-- Clear the window words from `lo` up to `hi`, not inclusive, around the ring. -/
def clearWords (lo hi : Nat) : List UInt64 :=
  let start := lo % lay.wordsPerSlot
  let stop := start + (hi - lo)
  if stop ≤ lay.wordsPerSlot then fillZero window start stop
  else fillZero (fillZero window start lay.wordsPerSlot) 0 (stop - lay.wordsPerSlot)

/-- Clear the bits of the units from `top + 1` through `unit`: they enter the window. -/
def clearAbove (top : Int) (unit : Nat) : List UInt64 :=
  if (lay.width : Int) ≤ unit - top then window.map fun _ => 0
  else
    let first := (top + 1).toNat
    let firstWord := first / 64
    let lastWord := unit / 64
    let fromFirst : UInt64 := (2 ^ 64 - 1) <<< ofNat first
    let toLast : UInt64 := (2 ^ 64 - 1) >>> ofNat (63 - unit % 64)
    if firstWord = lastWord then clearRange lay window firstWord (fromFirst &&& toLast)
    else
      let window := clearRange lay window firstWord fromFirst
      let window := clearWords lay window (firstWord + 1) lastWord
      clearRange lay window lastWord toLast

end

/-- Take the reference of the last `check`, which was fresh, into its window. -/
def mark (w : SessionWindows) : SessionWindows :=
  let slot := w.checkedSlot
  let unit := w.checkedUnit
  let top := w.highest slot
  let window := if top < unit then clearAbove lay (w.bits slot) top unit else w.bits slot
  { w with
    highest := if top < unit then update w.highest slot unit else w.highest
    bits := update w.bits slot
      (window.modify (wordOf lay unit) fun bits => bits ||| (1 <<< ofNat unit)) }

end Model

/-! ## The invariant -/

variable {lay : WindowLayout} {w : SessionWindows}

/-- The home of each slot's key. -/
def home (lay : WindowLayout) (w : SessionWindows) (s : Nat) : Nat := hash lay (w.keys s)

/-- The used slots hold distinct images, and the table holds exactly them. -/
structure Valid (lay : WindowLayout) (w : SessionWindows) : Prop where
  used_le : w.used ≤ lay.slots
  keys_inj : ∀ s < w.used, ∀ s' < w.used, w.keys s = w.keys s' → s = s'
  table : ProbeTable.Valid (tableSize lay) lay.slots (w.home lay) w.table fun s => s < w.used

section

variable (lay : WindowLayout)

theorem slots_pos : 0 < lay.slots := by
  obtain ⟨a, ha⟩ := lay.slots_pow
  rw [ha]
  exact Nat.two_pow_pos a

theorem slots_lt_tableSize : lay.slots < tableSize lay := by
  have := slots_pos lay
  unfold tableSize
  omega

theorem hash_lt (key : UInt64) : hash lay key < tableSize lay :=
  mod_lt _ (by have := slots_lt_tableSize lay; omega)

theorem valid_empty : Valid lay empty where
  used_le := Nat.zero_le _
  keys_inj := by simp [empty]
  table := (ProbeTable.valid_empty (slots_lt_tableSize lay)).congr_live (by simp [empty])

end

/-- A search finds the used slot of a key, and only that. -/
theorem Valid.find_eq_some_iff (hv : Valid lay w) {key : UInt64} {s : Nat} :
    w.find lay key = some s ↔ s < w.used ∧ w.keys s = key := by
  constructor
  · intro hfind
    by_cases hex : ∃ s' < w.used, w.keys s' = key
    · obtain ⟨s', hs', rfl⟩ := hex
      have hfound : w.find lay (w.keys s') = some s' := find_eq_some hv.table hs' fun x hx =>
          ⟨fun h => hv.keys_inj x hx s' hs' (by simpa using h), fun h => by simp [h]⟩
      rw [hfind] at hfound
      obtain rfl := some.inj hfound
      exact ⟨hs', rfl⟩
    · have hnone : w.find lay key = none := find_eq_none hv.table (hash_lt lay key) fun x hx => by
          simpa using fun h => hex ⟨x, hx, h⟩
      rw [hnone] at hfind
      cases hfind
  · rintro ⟨hs, rfl⟩
    exact find_eq_some hv.table hs fun x hx =>
      ⟨fun h => hv.keys_inj x hx s hs (by simpa using h), fun h => by simp [h]⟩

theorem Valid.find_eq_none_iff (hv : Valid lay w) {key : UInt64} :
    w.find lay key = none ↔ ∀ s < w.used, w.keys s ≠ key := by
  rw [eq_none_iff_forall_ne_some]
  simp only [ne_eq, hv.find_eq_some_iff, not_and]

/-- The slot silent longest, the lowest one of a tie. -/
theorem oldestSlot_spec (lay : WindowLayout) (w : SessionWindows) :
    w.oldestSlot lay < lay.slots ∧ ∀ s < lay.slots, w.lastSeen (w.oldestSlot lay) ≤ w.lastSeen s ∧
        (s < w.oldestSlot lay → w.lastSeen (w.oldestSlot lay) < w.lastSeen s) := by
  -- the fold has it of the slots up to `n`
  have hfold : ∀ n, ∃ oldest ≤ n, (range' 1 n).foldl
        (fun oldest s => if w.lastSeen s < w.lastSeen oldest then s else oldest) 0 = oldest ∧
      ∀ s ≤ n, w.lastSeen oldest ≤ w.lastSeen s ∧ (s < oldest → w.lastSeen oldest < w.lastSeen s) := by
    intro n
    induction n with
    | zero => exact ⟨0, le_rfl, rfl, fun s hs => by simp [le_zero.1 hs]⟩
    | succ n ih =>
      obtain ⟨oldest, hle, heq, hmin⟩ := ih
      rw [range'_1_concat, foldl_concat, heq, Nat.add_comm 1 n]
      refine ⟨_, ?_, rfl, fun s hs => ?_⟩
      · split <;> omega
      · rcases hs.lt_or_eq with hs | rfl
        · have := hmin s (le_of_lt_succ hs)
          split <;> omega
        · split <;> omega
  obtain ⟨oldest, hle, heq, hmin⟩ := hfold (lay.slots - 1)
  have hpos := slots_pos lay
  rw [oldestSlot, heq]
  exact ⟨by omega, fun s hs => hmin s (by omega)⟩

/-- The table after the slot to take is free: it holds the other used slots. -/
theorem Valid.freeSlot_table (hv : Valid lay w) :
    ProbeTable.Valid (tableSize lay) lay.slots (w.home lay) (w.freeSlot lay).1.table
      fun s => s < (w.freeSlot lay).1.used ∧ s ≠ (w.freeSlot lay).2 := by
  unfold freeSlot
  split
  case isTrue h =>
    refine hv.table.congr_live fun s => ?_
    dsimp only
    omega
  case isFalse h =>
    have hfull : w.used = lay.slots := Nat.le_antisymm hv.used_le (Nat.le_of_not_lt h)
    have hlt : w.oldestSlot lay < w.used := hfull ▸ (oldestSlot_spec lay w).1
    exact remove_valid hv.table hlt fun x hx =>
      ⟨fun hk => hv.keys_inj x hx _ hlt (by simpa using hk), fun hk => by simp [hk]⟩

theorem Valid.freeSlot_lt (hv : Valid lay w) :
    (w.freeSlot lay).2 < (w.freeSlot lay).1.used ∧ (w.freeSlot lay).1.used ≤ lay.slots := by
  unfold freeSlot
  split
  case isTrue h => exact ⟨lt_succ_self _, h⟩
  case isFalse h =>
    have hfull : w.used = lay.slots := Nat.le_antisymm hv.used_le (Nat.le_of_not_lt h)
    exact ⟨hfull ▸ (oldestSlot_spec lay w).1, hv.used_le⟩

@[simp] theorem freeSlot_keys (lay : WindowLayout) (w : SessionWindows) :
    (w.freeSlot lay).1.keys = w.keys := by
  unfold freeSlot
  split <;> rfl

/-- A slot below the old count, or the taken one: the slots that are used afterwards. -/
theorem Valid.used_of_freeSlot {s : Nat} (h : s < (w.freeSlot lay).1.used)
    (hne : s ≠ (w.freeSlot lay).2) : s < w.used := by
  unfold freeSlot at h hne
  split at h
  case isTrue hu =>
    rw [if_pos hu] at hne
    dsimp only at h hne
    omega
  case isFalse hu => exact h

/-- Taking a slot for a new image keeps the windows valid. -/
theorem Valid.takeSlot (hv : Valid lay w) {key : UInt64} (hkey : ∀ s < w.used, w.keys s ≠ key) :
    Valid lay ((w.freeSlot lay).1.takeSlot lay key (w.freeSlot lay).2) := by
  obtain ⟨hlt, hle⟩ := hv.freeSlot_lt
  have htable := hv.freeSlot_table
  have hkeys := freeSlot_keys lay w
  have hold : ∀ s, s < (w.freeSlot lay).1.used → s ≠ (w.freeSlot lay).2 → s < w.used :=
    fun s hs hne => used_of_freeSlot hs hne
  set slot := (w.freeSlot lay).2 with hslot
  set w' := (w.freeSlot lay).1 with hw'
  refine ⟨hle, ?_, ?_⟩
  · intro s hs s' hs' heq
    simp only [SessionWindows.takeSlot, hkeys] at heq hs hs'
    by_cases h1 : s = slot <;> by_cases h2 : s' = slot
    · rw [h1, h2]
    · rw [h1, update_self, update_of_ne h2] at heq
      exact absurd heq.symm (hkey s' (hold s' hs' h2))
    · rw [h2, update_self, update_of_ne h1] at heq
      exact absurd heq (hkey s (hold s hs h1))
    · rw [update_of_ne h1, update_of_ne h2] at heq
      exact hv.keys_inj s (hold s hs h1) s' (hold s' hs' h2) heq
  · -- the home of the taken slot is the new key's, the other homes are as before
    have hhome : ∀ s, (w'.takeSlot lay key slot).home lay s
        = if s = slot then hash lay key else w.home lay s := by
      intro s
      by_cases h : s = slot
      · simp [home, SessionWindows.takeSlot, h]
      · simp [home, SessionWindows.takeSlot, h, hkeys]
    have hthome : ProbeTable.Valid (tableSize lay) lay.slots ((w'.takeSlot lay key slot).home lay)
        w'.table fun s => s < w'.used ∧ s ≠ slot :=
      htable.congr_home fun s hs => by rw [hhome, if_neg hs.2]
    have hins := insert_valid hthome (s := slot) (by simp) (Nat.lt_of_lt_of_le hlt hle)
      (by rw [hhome, if_pos rfl]; exact hash_lt lay key)
    rw [hhome, if_pos rfl] at hins
    refine hins.congr_live fun s => ?_
    constructor
    · intro hs
      by_cases h : s = slot
      exacts [.inr h, .inl ⟨hs, h⟩]
    · rintro (hs | rfl)
      exacts [hs.1, hlt]

/-! ## Windows that hold the same images -/

/-- The same images in the same slots, with the same windows. The tables need not be equal. -/
structure Same (lay : WindowLayout) (a b : SessionWindows) : Prop where
  used : a.used = b.used
  keys : ∀ s < a.used, a.keys s = b.keys s
  highest : ∀ s < a.used, a.highest s = b.highest s
  lastSeen : ∀ s < a.used, a.lastSeen s = b.lastSeen s
  bits : ∀ s < a.used, a.bits s = b.bits s
  left : Valid lay a
  right : Valid lay b

variable {a b : SessionWindows}

section

variable (h : Same lay a b)
include h

theorem Same.find (key : UInt64) : a.find lay key = b.find lay key := by
  refine ext fun s => ?_
  rw [h.left.find_eq_some_iff, h.right.find_eq_some_iff, ← h.used]
  refine and_congr_right fun hs => ?_
  rw [h.keys s hs]

theorem Same.oldestSlot (hfull : a.used = lay.slots) : a.oldestSlot lay = b.oldestSlot lay := by
  obtain ⟨ha, hmina⟩ := oldestSlot_spec lay a
  obtain ⟨hb, hminb⟩ := oldestSlot_spec lay b
  have hla := h.lastSeen _ (hfull ▸ ha)
  have hlb := h.lastSeen _ (hfull ▸ hb)
  have hab := hmina _ hb
  have hba := hminb _ ha
  omega

theorem Same.freeSlot_slot : (a.freeSlot lay).2 = (b.freeSlot lay).2 := by
  unfold freeSlot
  rw [← h.used]
  split
  case isTrue => rfl
  case isFalse hu => exact h.oldestSlot (Nat.le_antisymm h.left.used_le (Nat.le_of_not_lt hu))

theorem Same.freeSlot_used : (a.freeSlot lay).1.used = (b.freeSlot lay).1.used := by
  unfold freeSlot
  rw [← h.used]
  split
  · rfl
  · exact h.used

end

theorem freeSlot_highest (lay : WindowLayout) (w : SessionWindows) :
    (w.freeSlot lay).1.highest = w.highest ∧ (w.freeSlot lay).1.lastSeen = w.lastSeen
      ∧ (w.freeSlot lay).1.bits = w.bits := by
  unfold freeSlot
  split <;> exact ⟨rfl, rfl, rfl⟩

/-- The slot that `slotOf` answers is used afterwards. -/
theorem Valid.slotOf (hv : Valid lay w) (key : UInt64) :
    Valid lay (w.slotOf lay key).1 ∧ (w.slotOf lay key).2 < (w.slotOf lay key).1.used := by
  unfold SessionWindows.slotOf
  cases hfind : w.find lay key with
  | some s => exact ⟨hv, (hv.find_eq_some_iff.1 hfind).1⟩
  | none => exact ⟨hv.takeSlot (hv.find_eq_none_iff.1 hfind), hv.freeSlot_lt.1⟩

/-- All but the silence count of the taken slot: a new image has none yet, and `remember` sets it. -/
structure SameBut (lay : WindowLayout) (a b : SessionWindows) (slot : Nat) : Prop where
  used : a.used = b.used
  keys : ∀ s < a.used, a.keys s = b.keys s
  highest : ∀ s < a.used, a.highest s = b.highest s
  lastSeen : ∀ s < a.used, s ≠ slot → a.lastSeen s = b.lastSeen s
  bits : ∀ s < a.used, a.bits s = b.bits s
  left : Valid lay a
  right : Valid lay b

theorem Same.slotOf (h : Same lay a b) (key : UInt64) :
    (a.slotOf lay key).2 = (b.slotOf lay key).2 ∧
      SameBut lay (a.slotOf lay key).1 (b.slotOf lay key).1 (a.slotOf lay key).2 := by
  have hva := (h.left.slotOf key).1
  have hvb := (h.right.slotOf key).1
  unfold SessionWindows.slotOf at hva hvb ⊢
  rw [← h.find key] at hvb ⊢
  cases hfind : a.find lay key with
  | some s =>
    exact ⟨rfl, { h with lastSeen := fun s hs _ => h.lastSeen s hs }⟩
  | none =>
    rw [hfind] at hva hvb
    refine ⟨h.freeSlot_slot, h.freeSlot_used, ?_, ?_, ?_, ?_, hva, hvb⟩
    all_goals
      intro s hs
      have hold : s ≠ (a.freeSlot lay).2 → s < a.used := Valid.used_of_freeSlot hs
      obtain ⟨ha1, ha2, ha3⟩ := freeSlot_highest lay a
      obtain ⟨hb1, hb2, hb3⟩ := freeSlot_highest lay b
      simp only [takeSlot, ← h.freeSlot_slot, freeSlot_keys, ha1, ha2, ha3, hb1, hb2, hb3]
    · by_cases hne : s = (a.freeSlot lay).2
      · simp [hne]
      · simp [hne, h.keys s (hold hne)]
    · by_cases hne : s = (a.freeSlot lay).2
      · simp [hne]
      · simp [hne, h.highest s (hold hne)]
    · exact fun hne => h.lastSeen s (hold hne)
    · by_cases hne : s = (a.freeSlot lay).2
      · simp [hne]
      · simp [hne, h.bits s (hold hne)]

/-- Remembering a reference touches neither the table nor the images. -/
theorem Valid.remember (hv : Valid lay w) (slot unit : Nat) (now : Int) :
    Valid lay (w.remember slot unit now) :=
  { hv with }

/-- Windows that hold the same images decide a reference alike and stay alike. -/
theorem Same.check (h : Same lay a b) (lane session : UInt32) (position : UInt64) (now : Int) :
    (a.check lay lane session position now).2 = (b.check lay lane session position now).2 ∧
      Same lay (a.check lay lane session position now).1 (b.check lay lane session position now).1 ∧
      (a.check lay lane session position now).1.checkedSlot
        = (b.check lay lane session position now).1.checkedSlot ∧
      (a.check lay lane session position now).1.checkedUnit
        = (b.check lay lane session position now).1.checkedUnit ∧
      (a.check lay lane session position now).1.checkedSlot
        < (a.check lay lane session position now).1.used := by
  obtain ⟨hslot, hbut⟩ := h.slotOf (keyOf lane session)
  obtain ⟨-, hlt⟩ := h.left.slotOf (keyOf lane session)
  unfold SessionWindows.check
  dsimp only
  rw [← hslot]
  generalize (a.slotOf lay (keyOf lane session)).2 = slot at hbut hlt
  generalize (a.slotOf lay (keyOf lane session)).1 = a' at hbut hlt
  generalize (b.slotOf lay (keyOf lane session)).1 = b' at hbut
  refine ⟨?_, ?_, rfl, rfl, hlt⟩
  · unfold verdict
    rw [hbut.highest slot hlt, hbut.bits slot hlt]
  · refine ⟨hbut.used, hbut.keys, hbut.highest, fun s hs => ?_, hbut.bits, hbut.left.remember ..,
      hbut.right.remember ..⟩
    by_cases hne : s = slot
    · simp [remember, hne]
    · simpa [remember, hne] using hbut.lastSeen s hs hne

/-- Taking the reference of the last check changes only its window. -/
theorem Valid.mark (hv : Valid lay w) : Valid lay (w.mark lay) := { hv with }

/-- Windows that hold the same images take a fresh reference alike. -/
theorem Same.mark (h : Same lay a b) (hslot : a.checkedSlot = b.checkedSlot)
    (hunit : a.checkedUnit = b.checkedUnit) (hlt : a.checkedSlot < a.used) :
    Same lay (a.mark lay) (b.mark lay) := by
  have htop := h.highest _ hlt
  have hbits := h.bits _ hlt
  refine ⟨h.used, h.keys, fun s hs => ?_, h.lastSeen, fun s hs => ?_, h.left.mark, h.right.mark⟩
  · simp only [SessionWindows.mark, ← hslot, ← hunit, ← htop]
    split
    · by_cases hne : s = a.checkedSlot
      · simp [hne]
      · simpa [hne] using h.highest s hs
    · exact h.highest s hs
  · simp only [SessionWindows.mark, ← hslot, ← hunit, ← htop, ← hbits]
    by_cases hne : s = a.checkedSlot
    · simp [hne]
    · simpa [hne] using h.bits s hs

end SessionWindows

end Kardamom.Sealer
