import Mathlib.Data.List.Sort
import Kardamom.Lib.LinkedMap

/-!
# Sorted maps

A tree map as its list of entries in ascending key order, with the order as a field. `upsert` covers
both `computeIfAbsent` and `merge`: it replaces the value under a key by a function of the value
there, if any. Its entries are those of a `LinkedMap`, which gives the facts that do not need the order.
-/

/-- A map whose entries are kept in ascending key order. -/
@[ext] structure SortedMap (κ ν : Type*) [LinearOrder κ] where
  /-- The entries, in ascending key order. -/
  entries : List (κ × ν)
  sorted : entries.Pairwise fun a b => a.1 < b.1

namespace SortedMap

open List Prod List

variable {κ ν : Type*} [LinearOrder κ]

/-- The map with no entry. -/
def empty : SortedMap κ ν := ⟨[], .nil⟩

section

variable (m : SortedMap κ ν)

/-- The value stored under `k`. -/
def get? (k : κ) : Option ν := (m.entries.find? fun e => e.1 = k).map snd

/-- The entries whose key and value pass the test. -/
def filter (p : κ × ν → Bool) : SortedMap κ ν :=
  ⟨m.entries.filter p, m.sorted.sublist filter_sublist⟩

/-- The entries strictly below `k`. -/
def headMap (k : κ) : SortedMap κ ν := m.filter fun e => e.1 < k

/-- The map without `k`. -/
def remove (k : κ) : SortedMap κ ν := m.filter fun e => e.1 ≠ k

/-- The map without its first entry. -/
def popFirst : SortedMap κ ν := ⟨m.entries.tail, m.sorted.sublist (tail_sublist _)⟩

/-- The map with every value changed by `f`. -/
def mapValues (f : ν → ν) : SortedMap κ ν :=
  ⟨m.entries.map fun e => (e.1, f e.2), pairwise_map.2 m.sorted⟩

end

/-- `upsert` on the list of entries. -/
def upsertList (k : κ) (f : Option ν → ν) : List (κ × ν) → List (κ × ν)
  | [] => [(k, f none)]
  | e :: es =>
    if k < e.1 then (k, f none) :: e :: es
    else if e.1 = k then (k, f (some e.2)) :: es
    else e :: upsertList k f es

variable {f : Option ν → ν} {es : List (κ × ν)} {k : κ}

/-- Every entry of `upsertList` is the new one or an old one under another key. -/
theorem mem_upsertList (hs : es.Pairwise fun a b => a.1 < b.1) {x : κ × ν} : x ∈ upsertList k f es ↔
      (x = (k, f ((es.find? fun e => e.1 = k).map snd))) ∨ (x.1 ≠ k ∧ x ∈ es) := by
  induction es with
  | nil => simp [upsertList]
  | cons e es ih =>
    obtain ⟨hlt, hes⟩ := pairwise_cons.1 hs
    unfold upsertList
    split
    case isTrue h =>
      -- the new key goes before every entry, so the search finds nothing
      have hgt : ∀ y ∈ e :: es, k < y.1 := by
        intro y hy
        rcases mem_cons.1 hy with rfl | hy
        · exact h
        · exact h.trans (hlt y hy)
      have hnone : (e :: es).find? (fun e => e.1 = k) = none :=
        find?_eq_none.2 fun y hy => by simpa using (hgt y hy).ne'
      rw [hnone, mem_cons]
      exact or_congr_right ⟨fun hx => ⟨(hgt x hx).ne', hx⟩, fun hx => hx.2⟩
    case isFalse h =>
      split
      case isTrue hk =>
        have hne : ∀ y ∈ es, y.1 ≠ k := fun y hy => hk ▸ (hlt y hy).ne'
        rw [find?_cons_of_pos (by simpa using hk), mem_cons]
        refine or_congr_right ⟨fun hx => ⟨hne x hx, mem_cons_of_mem _ hx⟩, ?_⟩
        rintro ⟨hxk, hx⟩
        exact (mem_cons.1 hx).resolve_left fun hxe => hxk (hxe ▸ hk)
      case isFalse hk =>
        rw [mem_cons, ih hes, find?_cons_of_neg (by simpa using hk)]
        constructor
        · rintro (rfl | hx | ⟨hxk, hx⟩)
          · exact .inr ⟨hk, mem_cons_self⟩
          · exact .inl hx
          · exact .inr ⟨hxk, mem_cons_of_mem _ hx⟩
        · rintro (hx | ⟨hxk, hx⟩)
          · exact .inr (.inl hx)
          · rcases mem_cons.1 hx with rfl | hx
            · exact .inl rfl
            · exact .inr (.inr ⟨hxk, hx⟩)

theorem sorted_upsertList (k : κ) (f : Option ν → ν) (hs : es.Pairwise fun a b => a.1 < b.1) :
    (upsertList k f es).Pairwise fun a b => a.1 < b.1 := by
  induction es with
  | nil => simp [upsertList]
  | cons e es ih =>
    obtain ⟨hlt, hes⟩ := pairwise_cons.1 hs
    unfold upsertList
    split
    case isTrue h =>
      refine pairwise_cons.2 ⟨fun y hy => ?_, hs⟩
      rcases mem_cons.1 hy with rfl | hy
      · exact h
      · exact h.trans (hlt y hy)
    case isFalse h =>
      split
      case isTrue hk => exact pairwise_cons.2 ⟨fun y hy => hk ▸ hlt y hy, hes⟩
      case isFalse hk =>
        refine pairwise_cons.2 ⟨fun y hy => ?_, ih hes⟩
        rcases (mem_upsertList hes).1 hy with rfl | ⟨-, hy⟩
        · exact lt_of_le_of_ne (not_lt.1 h) hk
        · exact hlt y hy

/-- Replace the value under `k` by `f` of the value there, or insert `f none`. -/
def upsert (m : SortedMap κ ν) (k : κ) (f : Option ν → ν) : SortedMap κ ν :=
  ⟨upsertList k f m.entries, sorted_upsertList k f m.sorted⟩

@[simp] theorem entries_empty : (empty : SortedMap κ ν).entries = [] := rfl

section

variable (m : SortedMap κ ν)

@[simp] theorem entries_filter (p : κ × ν → Bool) : (m.filter p).entries = m.entries.filter p := rfl

/-- The same entries as a linked map. -/
def linked : LinkedMap κ ν := ⟨m.entries, pairwise_map.2 (m.sorted.imp LT.lt.ne)⟩

variable {m} {v : ν}

/-- The key decides the entry: the order is strict. -/
theorem get?_eq_some_iff : m.get? k = some v ↔ (k, v) ∈ m.entries := m.linked.get?_eq_some_iff

theorem upsertList_of_lt (h : ∀ e ∈ es, e.1 < k) : upsertList k f es = es ++ [(k, f none)] := by
  induction es with
  | nil => rfl
  | cons e es ih =>
    have he : e.1 < k := h e mem_cons_self
    rw [upsertList, if_neg he.not_gt, if_neg he.ne, cons_append,
      ih fun x hx => h x (mem_cons_of_mem _ hx)]

/-- A key above all others goes to the end. -/
theorem entries_upsert_of_lt
    (h : ∀ e ∈ m.entries, e.1 < k) : (m.upsert k f).entries = m.entries ++ [(k, f none)] :=
  upsertList_of_lt h

@[simp] theorem entries_popFirst : m.popFirst.entries = m.entries.tail := rfl

@[simp] theorem entries_mapValues (f : ν → ν) :
    (m.mapValues f).entries = m.entries.map fun e => (e.1, f e.2) := rfl

theorem get?_eq_none_iff : m.get? k = none ↔ ∀ e ∈ m.entries, e.1 ≠ k := by
  rw [Option.eq_none_iff_forall_ne_some]
  simp only [ne_eq, get?_eq_some_iff]
  exact ⟨fun h e he hk => h e.2 (hk ▸ he), fun h v hv => h _ hv rfl⟩

/-- Removal takes out the entry of the key. -/
theorem perm_entries_remove (h : m.get? k = some v) :
    m.entries.Perm ((k, v) :: (m.remove k).entries) :=
  LinkedMap.perm_entries_remove (m := m.linked) h

/-- The map without its first key. -/
theorem entries_remove_head (h : m.entries = (k, v) :: es) : (m.remove k).entries = es := by
  have hlt := (pairwise_cons.1 (h ▸ m.sorted)).1
  rw [remove, entries_filter, h, filter_cons_of_neg (by simp), filter_eq_self]
  intro e he
  simpa using (hlt e he).ne'

theorem mem_entries_upsert {x : κ × ν} :
    x ∈ (m.upsert k f).entries ↔ x = (k, f (m.get? k)) ∨ (x.1 ≠ k ∧ x ∈ m.entries) :=
  mem_upsertList m.sorted

theorem get?_congr {m' : SortedMap κ ν} {k k' : κ}
    (h : ∀ v, (k, v) ∈ m.entries ↔ (k', v) ∈ m'.entries) : m.get? k = m'.get? k' :=
  show m.linked.get? k = m'.linked.get? k' from LinkedMap.get?_congr h

variable (m)

@[simp] theorem get?_upsert_self (k : κ) (f : Option ν → ν) : (m.upsert k f).get? k = some (f (m.get? k)) :=
  get?_eq_some_iff.2 (mem_entries_upsert.2 (.inl rfl))

theorem get?_upsert_of_ne {k k' : κ} (h : k' ≠ k) (f : Option ν → ν) : (m.upsert k f).get? k' = m.get? k' :=
  get?_congr fun v => by simp [mem_entries_upsert, h]

@[simp] theorem get?_remove_self (k : κ) : (m.remove k).get? k = none :=
  get?_eq_none_iff.2 fun e he => by simpa using (mem_filter.1 he).2

theorem get?_remove_of_ne {k k' : κ} (h : k' ≠ k) : (m.remove k).get? k' = m.get? k' :=
  get?_congr fun v => by simp [remove, h]

theorem get?_filter_of_key (p : κ → Bool) (k : κ) :
    (m.filter fun e => p e.1).get? k = if p k then m.get? k else none := by
  split
  case isTrue h => exact get?_congr fun v => by simp [h]
  case isFalse h =>
    refine get?_eq_none_iff.2 fun e he hk => h ?_
    rw [← hk]
    exact (mem_filter.1 he).2

theorem remove_of_get?_none {m : SortedMap κ ν} (h : m.get? k = none) : m.remove k = m :=
  SortedMap.ext (congrArg LinkedMap.entries (m.linked.remove_of_not_mem (LinkedMap.get?_eq_none_iff.1 h)))

/-- An upsert is a removal and one new entry, up to the order. -/
theorem perm_entries_upsert_remove (k : κ) (f : Option ν → ν) :
    (m.upsert k f).entries.Perm ((k, f (m.get? k)) :: (m.remove k).entries) :=
  show (m.upsert k f).linked.entries.Perm (_ :: (m.linked.remove k).entries) from
    LinkedMap.perm_cons_remove fun _ => mem_entries_upsert

/-- A new key adds one entry. -/
theorem perm_entries_upsert {m : SortedMap κ ν} (h : m.get? k = none) :
    (m.upsert k f).entries.Perm ((k, f none) :: m.entries) := by
  simpa only [h, remove_of_get?_none h] using m.perm_entries_upsert_remove k f

end

/-- What a map holds after entries were put one after the other was there before, or is one of the entries. -/
theorem get?_foldl_upsert {α : Type*} (key : α → κ) (value : α → ν) {xs : List α} {m : SortedMap κ ν}
    (h : (xs.foldl (fun m x => m.upsert (key x) fun _ => value x) m).get? k = some v) :
    m.get? k = some v ∨ ∃ x ∈ xs, key x = k ∧ value x = v := by
  induction xs generalizing m with
  | nil => exact .inl h
  | cons x xs ih =>
    rcases ih h with hm | ⟨y, hy, hkey, hvalue⟩
    · by_cases hk : k = key x
      · subst hk
        rw [get?_upsert_self] at hm
        exact .inr ⟨x, mem_cons_self, rfl, Option.some.inj hm⟩
      · rw [get?_upsert_of_ne _ hk] at hm
        exact .inl hm
    · exact .inr ⟨y, mem_cons_of_mem _ hy, hkey, hvalue⟩

/-- Putting the entries of a map one after the other makes the map again. -/
theorem foldl_upsert_entries {α : Type*} (m : SortedMap κ ν) (key : α → κ) (value : α → ν) (g : κ × ν → α)
    (hkey : ∀ e, key (g e) = e.1) (hvalue : ∀ e, value (g e) = e.2) :
    (m.entries.map g).foldl (fun m x => m.upsert (key x) fun _ => value x) empty = m := by
  have hrun : ∀ (es : List (κ × ν)) (a : SortedMap κ ν), (a.entries ++ es).Pairwise (fun x y => x.1 < y.1) →
      ((es.map g).foldl (fun m x => m.upsert (key x) fun _ => value x) a).entries = a.entries ++ es := by
    intro es
    induction es with
    | nil => simp
    | cons e es ih =>
      intro a hs
      -- the next key is above all that the map holds
      have hput : (a.upsert (key (g e)) fun _ => value (g e)).entries = a.entries ++ [e] := by
        rw [hkey, hvalue]
        exact entries_upsert_of_lt fun x hx => (pairwise_append.1 hs).2.2 x hx e mem_cons_self
      rw [map_cons, foldl_cons, ih _ (by rwa [hput, append_assoc]), hput, append_assoc]
      rfl
  ext1
  exact hrun m.entries empty m.sorted

/-- The keys after a run of insertions into a set. -/
theorem mem_keys_foldl_upsert {ks : List κ} {set : SortedMap κ Unit} :
    k ∈ (ks.foldl (fun set k => set.upsert k fun _ => ()) set).entries.map fst ↔
      k ∈ set.entries.map fst ∨ k ∈ ks := by
  induction ks generalizing set with
  | nil => simp
  | cons k' ks ih =>
    rw [foldl_cons, ih, mem_cons]
    have hone : k ∈ (set.upsert k' fun _ => ()).entries.map fst ↔
        k = k' ∨ k ∈ set.entries.map fst := by
      simp only [mem_map, mem_entries_upsert]
      constructor
      · rintro ⟨e, rfl | ⟨-, he⟩, rfl⟩
        · exact .inl rfl
        · exact .inr ⟨e, he, rfl⟩
      · rintro (rfl | ⟨e, he, rfl⟩)
        · exact ⟨_, .inl rfl, rfl⟩
        · by_cases heq : e.1 = k'
          · exact ⟨_, .inl rfl, heq.symm⟩
          · exact ⟨e, .inr ⟨heq, he⟩, rfl⟩
    rw [hone, or_assoc, or_left_comm]

end SortedMap
