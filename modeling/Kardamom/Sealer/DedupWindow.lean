import Kardamom.Lib.LinkedMap
import Kardamom.Lib.SortedMap
import Kardamom.Sealer.Basic

/-!
# The dedup window

The first-seen window of the sealer: each canonical id with the block until which it is held. The
source keeps it twice, as an insertion-ordered map (`dedup`) and grouped by the deadline that frees
each id (`byDeadline`), so that a tick drops whole groups. `DedupWindow.Agree` says that the two
hold the same ids, and under it each operation is described on the map alone:

* `insertFresh_entries`: a new id is appended;
* `pruneExpired_entries`: exactly the ids held below the open block go;
* `forget_entries`: one id goes.
-/

namespace Kardamom.Sealer

open SortedMap List Prod

/-- The first-seen window and its index by deadline. -/
structure DedupWindow where
  /-- The held deadline of each id, in insertion order. -/
  dedup : LinkedMap CanonicalId Int
  /-- The ids grouped by the deadline that frees them; a group is insertion ordered. -/
  byDeadline : SortedMap Int (List CanonicalId)

namespace DedupWindow

/-- The window of a new state. -/
def empty : DedupWindow := ⟨.empty, .empty⟩

/-- How many ids the window holds. -/
def size (w : DedupWindow) : Nat := w.dedup.size

section

variable (w : DedupWindow) (key : CanonicalId)

/-- Whether the window holds `key`. -/
def containsKey : Bool := w.dedup.contains key

/-- Add `key` to its deadline group: `LinkedHashSet.add`, on a new group when there is none. -/
def addToGroup (key : CanonicalId) : Option (List CanonicalId) → List CanonicalId
  | none => [key]
  | some group => if key ∈ group then group else group ++ [key]

/-- The store half of `insertFresh`: `held` is the clamped deadline. -/
def insertFresh (held : Int) : DedupWindow :=
  ⟨w.dedup.put key held, w.byDeadline.upsert held (addToGroup key)⟩

/-- Drop every id whose deadline is below the open block. -/
def pruneExpired (w : DedupWindow) (blockNumber : Int) : DedupWindow :=
  let expired := w.byDeadline.headMap blockNumber
  ⟨(expired.entries.flatMap snd).foldl LinkedMap.remove w.dedup,
    w.byDeadline.filter fun e => !decide (e.1 < blockNumber)⟩

/-- Remove one id from the window and from its deadline group. -/
def forget : DedupWindow :=
  match w.dedup.get? key with
  | none => w
  | some held =>
    let group := ((w.byDeadline.get? held).getD []).erase key
    ⟨w.dedup.remove key,
      if group.isEmpty then w.byDeadline.remove held
      else w.byDeadline.upsert held fun _ => group⟩

end

/-- The map and the index hold the same ids under the same deadlines, each id once in its group. -/
structure Agree (w : DedupWindow) : Prop where
  mem_iff : ∀ id held, (id, held) ∈ w.dedup.entries ↔
    ∃ group, (held, group) ∈ w.byDeadline.entries ∧ id ∈ group
  nodup : ∀ held group, (held, group) ∈ w.byDeadline.entries → group.Nodup

theorem agree_empty : Agree empty where
  mem_iff := by simp [empty]
  nodup := by simp [empty]

variable {w : DedupWindow} {key : CanonicalId}

theorem containsKey_iff : w.containsKey key = true ↔ key ∈ w.dedup.keys := LinkedMap.contains_iff

variable {group : Option (List CanonicalId)}

theorem mem_addToGroup {key id : CanonicalId} :
    id ∈ addToGroup key group ↔ id = key ∨ id ∈ group.getD [] := by
  unfold addToGroup
  split
  case h_1 => simp
  case h_2 g =>
    split
    case isTrue h =>
      constructor
      · exact .inr
      · rintro (rfl | h')
        exacts [h, h']
    case isFalse h => simp [or_comm]

theorem nodup_addToGroup (h : (group.getD []).Nodup) : (addToGroup key group).Nodup := by
  unfold addToGroup
  split
  case h_1 => simp
  case h_2 g =>
    split
    case isTrue => exact h
    case isFalse hk =>
      refine nodup_append.2 ⟨h, by simp, ?_⟩
      intro a ha b hb hab
      have hbk : b = key := by simpa using hb
      exact hk (hbk ▸ hab ▸ ha)

/-! ## Inserting -/

/-- A new id goes to the end of the window. -/
theorem insertFresh_entries (h : key ∉ w.dedup.keys)
    (held : Int) : (w.insertFresh key held).dedup.entries = w.dedup.entries ++ [(key, held)] :=
  LinkedMap.entries_put_of_not_mem h held

theorem insertFresh_agree (hw : w.Agree)
    (h : key ∉ w.dedup.keys) (held : Int) : (w.insertFresh key held).Agree where
  mem_iff id d := by
    rw [insertFresh_entries h, mem_append, hw.mem_iff]
    simp only [insertFresh, mem_entries_upsert, mem_singleton, Prod.mk.injEq]
    constructor
    · rintro (⟨group, hg, hid⟩ | ⟨rfl, rfl⟩)
      · by_cases hd : d = held
        · subst hd
          refine ⟨_, .inl ⟨rfl, rfl⟩, mem_addToGroup.2 (.inr ?_)⟩
          rw [get?_eq_some_iff.2 hg]
          exact hid
        · exact ⟨group, .inr ⟨hd, hg⟩, hid⟩
      · exact ⟨_, .inl ⟨rfl, rfl⟩, mem_addToGroup.2 (.inl rfl)⟩
    · rintro ⟨group, ⟨rfl, rfl⟩ | ⟨hd, hg⟩, hid⟩
      · rcases mem_addToGroup.1 hid with rfl | hid
        · exact .inr ⟨rfl, rfl⟩
        · cases hget : w.byDeadline.get? d with
          | none => simp [hget] at hid
          | some g =>
            exact .inl ⟨g, get?_eq_some_iff.1 hget, by simpa [hget] using hid⟩
      · exact .inl ⟨group, hg, hid⟩
  nodup d group hg := by
    simp only [insertFresh, mem_entries_upsert, Prod.mk.injEq] at hg
    rcases hg with ⟨rfl, rfl⟩ | ⟨-, hg⟩
    · apply nodup_addToGroup
      cases hget : w.byDeadline.get? d with
      | none => simp
      | some g => simpa using hw.nodup d g (get?_eq_some_iff.1 hget)
    · exact hw.nodup d group hg

section

variable (es : List (CanonicalId × Int))

theorem foldl_insertFresh_dedup (w : DedupWindow) :
    (es.foldl (fun w e => w.insertFresh e.1 e.2) w).dedup
      = es.foldl (fun m e => m.put e.1 e.2) w.dedup :=
  (foldl_hom DedupWindow.dedup fun _ _ => rfl).symm

/-- Filling a window with distinct new ids keeps the index in step. -/
theorem foldl_insertFresh_agree (hw : w.Agree)
    (hnd : ((w.dedup.entries ++ es).map fst).Nodup) :
    (es.foldl (fun w e => w.insertFresh e.1 e.2) w).Agree := by
  induction es generalizing w with
  | nil => exact hw
  | cons e es ih =>
    have hnot : e.1 ∉ w.dedup.keys := by
      intro hmem
      rw [map_append, nodup_append] at hnd
      exact hnd.2.2 _ hmem _ (by simp) rfl
    refine ih (insertFresh_agree hw hnot e.2) ?_
    rwa [insertFresh_entries hnot, append_assoc]

end

/-! ## Pruning -/

theorem foldl_remove_entries (m : LinkedMap CanonicalId Int) (ids : List CanonicalId) :
    (ids.foldl LinkedMap.remove m).entries = m.entries.filter fun e => e.1 ∉ ids := by
  induction ids generalizing m with
  | nil => simp
  | cons id ids ih =>
    rw [foldl_cons, ih, LinkedMap.remove, LinkedMap.entries_filter, filter_filter]
    refine filter_congr fun e _ => ?_
    by_cases he : e.1 = id <;> simp [he]

/-- A prune drops exactly the ids held below the open block, and keeps the order of the rest. -/
theorem pruneExpired_entries (hw : w.Agree) (blockNumber : Int) : (w.pruneExpired blockNumber).dedup.entries
      = w.dedup.entries.filter fun e => blockNumber ≤ e.2 := by
  simp only [pruneExpired, foldl_remove_entries]
  refine filter_congr fun e he => ?_
  obtain ⟨id, held⟩ := e
  -- the id stands in the group of its own deadline, and in no other
  have hiff : id ∈ (w.byDeadline.headMap blockNumber).entries.flatMap snd ↔ held < blockNumber := by
    simp only [headMap, entries_filter, mem_flatMap, mem_filter, decide_eq_true_eq, Prod.exists]
    constructor
    · rintro ⟨d, group, ⟨hg, hd⟩, hid⟩
      have hmem := (hw.mem_iff id d).2 ⟨group, hg, hid⟩
      have : some held = some d := by
        rw [← LinkedMap.get?_eq_some_iff.2 he, ← LinkedMap.get?_eq_some_iff.2 hmem]
      rwa [Option.some.inj this]
    · intro hd
      obtain ⟨group, hg, hid⟩ := (hw.mem_iff id held).1 he
      exact ⟨held, group, ⟨hg, hd⟩, hid⟩
  simp [hiff]

theorem pruneExpired_agree (hw : w.Agree) (blockNumber : Int) : (w.pruneExpired blockNumber).Agree where
  mem_iff id d := by
    rw [pruneExpired_entries hw, mem_filter, hw.mem_iff]
    simp only [pruneExpired, entries_filter, mem_filter]
    constructor
    · rintro ⟨⟨group, hg, hid⟩, hd⟩
      exact ⟨group, ⟨hg, by simpa using hd⟩, hid⟩
    · rintro ⟨group, ⟨hg, hd⟩, hid⟩
      exact ⟨⟨group, hg, hid⟩, by simpa using hd⟩
  nodup d group hg := by
    simp only [pruneExpired, entries_filter, mem_filter] at hg
    exact hw.nodup d group hg.1

/-! ## Forgetting -/

section

variable (w : DedupWindow) (key : CanonicalId)

theorem forget_dedup : (w.forget key).dedup = w.dedup.remove key := by
  unfold forget
  split
  case h_1 h => exact (LinkedMap.remove_of_not_mem (LinkedMap.get?_eq_none_iff.1 h)).symm
  case h_2 => rfl

theorem forget_entries :
    (w.forget key).dedup.entries = w.dedup.entries.filter fun e => e.1 ≠ key := by
  rw [forget_dedup]
  rfl

end

theorem forget_agree (hw : w.Agree) (key : CanonicalId) : (w.forget key).Agree := by
  cases hget : w.dedup.get? key with
  | none => simpa [forget, hget] using hw
  | some held =>
    -- only the group of `held` changes, and it loses `key`
    obtain ⟨g, hg, hkey⟩ := (hw.mem_iff key held).1 (LinkedMap.get?_eq_some_iff.1 hget)
    have hgnd := hw.nodup held g hg
    have hgroup : w.byDeadline.get? held = some g := get?_eq_some_iff.2 hg
    have hother : ∀ d group, (d, group) ∈ w.byDeadline.entries → key ∈ group → d = held := by
      intro d group hdg hk
      have := LinkedMap.get?_eq_some_iff.2 ((hw.mem_iff key d).2 ⟨group, hdg, hk⟩)
      rw [hget] at this
      exact (Option.some.inj this).symm
    have hindex : ∀ d group, (d, group) ∈ (w.forget key).byDeadline.entries ↔
        (d ≠ held ∧ (d, group) ∈ w.byDeadline.entries) ∨
          (d = held ∧ group = g.erase key ∧ group ≠ []) := by
      intro d group
      simp only [forget, hget, hgroup]
      by_cases hemp : g.erase key = []
      · rw [if_pos (by simp [hemp])]
        simp only [remove, entries_filter, mem_filter, decide_eq_true_eq]
        constructor
        · rintro ⟨hm, hd⟩
          exact .inl ⟨hd, hm⟩
        · rintro (⟨hd, hm⟩ | ⟨-, rfl, hne⟩)
          · exact ⟨hm, hd⟩
          · exact absurd hemp hne
      · rw [if_neg (by simpa using hemp)]
        simp only [mem_entries_upsert, Prod.mk.injEq]
        constructor
        · rintro (⟨rfl, rfl⟩ | ⟨hd, hm⟩)
          · exact .inr ⟨rfl, rfl, hemp⟩
          · exact .inl ⟨hd, hm⟩
        · rintro (⟨hd, hm⟩ | ⟨rfl, rfl, -⟩)
          · exact .inr ⟨hd, hm⟩
          · exact .inl ⟨rfl, rfl⟩
    constructor
    · intro id d
      rw [forget_entries, mem_filter, hw.mem_iff]
      constructor
      · rintro ⟨⟨group, hgd, hid⟩, hne⟩
        have hne : id ≠ key := by simpa using hne
        by_cases hd : d = held
        · subst hd
          have : group = g := Option.some.inj (by
            rw [← get?_eq_some_iff.2 hgd, ← hgroup])
          subst this
          have hmem := (mem_erase_of_ne hne).2 hid
          exact ⟨_, (hindex _ _).2 (.inr ⟨rfl, rfl, ne_nil_of_mem hmem⟩), hmem⟩
        · exact ⟨group, (hindex _ _).2 (.inl ⟨hd, hgd⟩), hid⟩
      · rintro ⟨group, hgd, hid⟩
        rcases (hindex _ _).1 hgd with ⟨hd, hm⟩ | ⟨rfl, rfl, -⟩
        · refine ⟨⟨group, hm, hid⟩, ?_⟩
          have hne : id ≠ key := fun h => hd (hother d group hm (h ▸ hid))
          simpa using hne
        · have hne := (hgnd.mem_erase_iff.1 hid)
          exact ⟨⟨g, hg, hne.2⟩, by simpa using hne.1⟩
    · intro d group hgd
      rcases (hindex _ _).1 hgd with ⟨-, hm⟩ | ⟨rfl, rfl, -⟩
      · exact hw.nodup d group hm
      · exact hgnd.erase key

end DedupWindow

end Kardamom.Sealer
