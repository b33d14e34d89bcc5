import Mathlib.Data.Finset.Card

/-!
# Linked maps: insertion order and access order

A linked hash map is a finite map that also remembers an order of its keys. `LinkedMap` is its list
of entries, oldest first, with distinct keys as a field. Two disciplines share the type:

* *insertion order*: `put` leaves a known key where it stands and appends a new one;
* *access order*: `touch` and `putLast` move the key to the end, and `dropEldestOver` bounds the
  size, which together are a least-recently-used map. `Newest` says which keys stand at its end:
  as long as they are at most as many as the bound, no eviction takes one of them.

Lookups are characterised by `get?_eq_some_iff`, so that two maps are compared through membership
and never through the search.
-/

/-- A map with an order of its keys: the entries, oldest first, under distinct keys. -/
@[ext] structure LinkedMap (κ ν : Type*) where
  /-- The entries, oldest first. -/
  entries : List (κ × ν)
  nodup : (entries.map Prod.fst).Nodup

namespace LinkedMap

open List Function

variable {κ ν : Type*}

/-- The map with no entry. -/
def empty : LinkedMap κ ν := ⟨[], nodup_nil⟩

section

variable (m : LinkedMap κ ν)

/-- The keys, oldest first. -/
def keys : List κ := m.entries.map Prod.fst

/-- How many entries the map holds. -/
def size : Nat := m.entries.length

/-- The entries whose key and value pass the test, in their order. -/
def filter (p : κ × ν → Bool) : LinkedMap κ ν :=
  ⟨m.entries.filter p, m.nodup.sublist (filter_sublist.map _)⟩

/-- The map with every value changed by `f`. -/
def mapValues (f : ν → ν) : LinkedMap κ ν :=
  ⟨m.entries.map fun e => (e.1, f e.2), by simpa [comp_def] using m.nodup⟩

end

/-- Drop the oldest entry when the map holds more than `cap` of them. -/
def dropEldestOver (cap : Nat) (m : LinkedMap κ ν) : LinkedMap κ ν :=
  if cap < m.size then ⟨m.entries.tail, m.nodup.sublist ((tail_sublist _).map _)⟩ else m

@[simp] theorem entries_empty : (empty : LinkedMap κ ν).entries = [] := rfl

section

variable (m : LinkedMap κ ν) (p : κ × ν → Bool)

@[simp] theorem entries_filter :
    (m.filter p).entries = m.entries.filter p := rfl

theorem size_filter_le : (m.filter p).size ≤ m.size := length_filter_le _ _

end

variable {cap : Nat} {m : LinkedMap κ ν}

theorem size_dropEldestOver_le (h : m.size ≤ cap + 1) : (m.dropEldestOver cap).size ≤ cap := by
  unfold dropEldestOver
  split
  · simp only [size, length_tail] at *; omega
  · omega

theorem dropEldestOver_of_le (h : m.size ≤ cap) : m.dropEldestOver cap = m := if_neg (by omega)

variable [DecidableEq κ]

section

variable (m : LinkedMap κ ν) (k : κ)

/-- The value stored under `k`. -/
def get? : Option ν := (m.entries.find? fun e => e.1 = k).map Prod.snd

/-- Whether `k` is a key. -/
def contains : Bool := m.keys.contains k

/-- The map without `k`. -/
def remove : LinkedMap κ ν := m.filter fun e => e.1 ≠ k

/-- Store `v` under `k` and make it the newest entry: a put into an access-ordered map. -/
def putLast (v : ν) : LinkedMap κ ν where
  entries := (m.remove k).entries ++ [(k, v)]
  nodup := by
    rw [map_append]
    refine nodup_append.2 ⟨(m.remove k).nodup, by simp, ?_⟩
    intro a ha b hb
    obtain ⟨e, he, rfl⟩ := mem_map.1 ha
    have hne : e.1 ≠ k := by simpa using (mem_filter.1 he).2
    simpa using fun h => hne (h.trans (by simpa using hb))

/-- Read `k` in an access-ordered map: a known key becomes the newest, an unknown one changes
nothing. -/
def touch : LinkedMap κ ν :=
  match m.get? k with
  | some v => m.putLast k v
  | none => m

/-- Store `v` under `k` in an insertion-ordered map: a known key keeps its place. -/
def put (v : ν) : LinkedMap κ ν where
  entries :=
    if k ∈ m.keys then m.entries.map fun e => if e.1 = k then (k, v) else e
    else m.entries ++ [(k, v)]
  nodup := by
    split
    case isTrue h =>
      have hkeys : (m.entries.map fun e => if e.1 = k then (k, v) else e).map Prod.fst = m.keys := by
        rw [map_map, keys]
        refine map_congr_left fun e _ => ?_
        by_cases he : e.1 = k <;> simp [he]
      rw [hkeys]
      exact m.nodup
    case isFalse h =>
      rw [map_append]
      refine nodup_append.2 ⟨m.nodup, by simp, ?_⟩
      intro a ha b hb hab
      have : b = k := by simpa using hb
      exact h (this ▸ hab ▸ ha)

end

/-! ## Lookups -/

@[simp] theorem get?_empty (k : κ) : (empty : LinkedMap κ ν).get? k = none := rfl

variable {k : κ} {v : ν}

/-- With distinct keys the search finds `(k, v)` exactly when it is an entry. -/
theorem get?_eq_some_iff : m.get? k = some v ↔ (k, v) ∈ m.entries := by
  obtain ⟨es, hnd⟩ := m
  simp only [get?]
  induction es with
  | nil => simp
  | cons e es ih =>
    simp only [map_cons, nodup_cons] at hnd
    by_cases he : e.1 = k
    · subst he
      have hno : (e.1, v) ∉ es := fun h => hnd.1 (mem_map.2 ⟨_, h, rfl⟩)
      simp [hno, Prod.ext_iff, eq_comm]
    · rw [List.find?_cons_of_neg (by simpa using he), ih hnd.2]
      have : (k, v) ≠ e := fun h => he (by rw [← h])
      simp [this]

theorem get?_eq_none_iff : m.get? k = none ↔ k ∉ m.keys := by
  rw [Option.eq_none_iff_forall_ne_some]
  simp [get?_eq_some_iff, keys]

theorem contains_iff : m.contains k = true ↔ k ∈ m.keys := by
  simp [contains]

theorem contains_eq_false_iff : m.contains k = false ↔ k ∉ m.keys := by
  simp [contains]

theorem mem_keys_iff_get? : k ∈ m.keys ↔ ∃ v, m.get? k = some v := by
  simp [get?_eq_some_iff, keys]

variable {k k' : κ}

/-- Two lookups agree when their maps have the same entries under that key. -/
theorem get?_congr {m' : LinkedMap κ ν}
    (h : ∀ v, (k, v) ∈ m.entries ↔ (k', v) ∈ m'.entries) : m.get? k = m'.get? k' :=
  Option.ext fun v => by rw [get?_eq_some_iff, get?_eq_some_iff, h v]

section

variable (m)

theorem get?_mapValues (f : ν → ν) (k : κ) : (m.mapValues f).get? k = (m.get? k).map f := by
  simp [get?, mapValues, comp_def]

/-! ## Removal -/

theorem get?_remove_self (k : κ) : (m.remove k).get? k = none := by
  simp [get?_eq_none_iff, remove, keys]

theorem get?_remove_of_ne (h : k' ≠ k) : (m.remove k).get? k' = m.get? k' :=
  get?_congr fun v => by simp [remove, h]

variable {m}

theorem remove_of_not_mem (h : k ∉ m.keys) : m.remove k = m := by
  refine LinkedMap.ext (filter_eq_self.2 fun e he => ?_)
  have hne : e.1 ≠ k := fun hek => h (hek ▸ mem_map_of_mem he)
  simpa using hne

/-- A map that holds `(k, v)` and the entries of another map under the other keys. -/
theorem perm_cons_remove {m' : LinkedMap κ ν}
    (h : ∀ e, e ∈ m'.entries ↔ e = (k, v) ∨ e.1 ≠ k ∧ e ∈ m.entries) :
    m'.entries.Perm ((k, v) :: (m.remove k).entries) := by
  have hnew : (k, v) ∉ (m.remove k).entries := by simp [remove]
  refine (perm_ext_iff_of_nodup (.of_map _ m'.nodup)
    (nodup_cons.2 ⟨hnew, .of_map _ (m.remove k).nodup⟩)).2 fun e => ?_
  rw [h, mem_cons, remove, entries_filter, mem_filter]
  simp only [decide_eq_true_eq, and_comm]

/-- Removal takes out the entry of the key. -/
theorem perm_entries_remove (h : m.get? k = some v) :
    m.entries.Perm ((k, v) :: (m.remove k).entries) := by
  refine perm_cons_remove fun ⟨k', v'⟩ => ?_
  by_cases hk : k' = k
  · subst hk
    rw [← get?_eq_some_iff, h]
    simp [eq_comm]
  · simp [hk]

theorem size_remove_of_mem (h : k ∈ m.keys) : (m.remove k).size + 1 = m.size := by
  obtain ⟨v, hv⟩ := mem_keys_iff_get?.1 h
  exact (perm_entries_remove hv).length_eq.symm

/-! ## Insertion order -/

theorem entries_put_of_not_mem (h : k ∉ m.keys) (v : ν) :
    (m.put k v).entries = m.entries ++ [(k, v)] :=
  if_neg h

theorem mem_entries_put {v' : ν} :
    (k', v') ∈ (m.put k v).entries ↔ (k' = k ∧ v' = v) ∨ (k' ≠ k ∧ (k', v') ∈ m.entries) := by
  by_cases h : k ∈ m.keys
  · obtain ⟨v₀, hv₀⟩ : ∃ v₀, (k, v₀) ∈ m.entries := by simpa [keys] using h
    simp only [put, if_pos h, mem_map, Prod.exists]
    constructor
    · rintro ⟨a, b, hab, heq⟩
      split at heq
      · exact .inl ⟨(Prod.ext_iff.1 heq).1.symm, (Prod.ext_iff.1 heq).2.symm⟩
      · next hne =>
        obtain ⟨rfl, rfl⟩ := Prod.mk.injEq .. ▸ heq
        exact .inr ⟨hne, hab⟩
    · rintro (⟨rfl, rfl⟩ | ⟨hne, hmem⟩)
      · exact ⟨k', v₀, hv₀, by simp⟩
      · exact ⟨k', v', hmem, by simp [hne]⟩
  · rw [entries_put_of_not_mem h]
    have hno : (k, v') ∉ m.entries := fun hm => h (mem_map_of_mem hm)
    by_cases hk : k' = k
    · subst hk; simp [hno]
    · simp [hk]

variable (m)

@[simp] theorem get?_put_self (k : κ) (v : ν) : (m.put k v).get? k = some v :=
  get?_eq_some_iff.2 (mem_entries_put.2 (.inl ⟨rfl, rfl⟩))

theorem get?_put_of_ne (h : k' ≠ k) (v : ν) : (m.put k v).get? k' = m.get? k' :=
  get?_congr fun v' => by simp [mem_entries_put, h]

/-- A put is a removal and one new entry, up to the order. -/
theorem perm_entries_put (k : κ) (v : ν) :
    (m.put k v).entries.Perm ((k, v) :: (m.remove k).entries) :=
  perm_cons_remove fun _ => by rw [mem_entries_put, Prod.ext_iff]

variable {m}

theorem size_put_of_mem (h : k ∈ m.keys) (v : ν) : (m.put k v).size = m.size := by
  simp [size, put, h]

theorem size_put_of_not_mem (h : k ∉ m.keys) (v : ν) : (m.put k v).size = m.size + 1 := by
  simp [size, entries_put_of_not_mem h]

/-- New keys that are put one after the other stand in that order. -/
theorem entries_foldl_put (es : List (κ × ν)) (m : LinkedMap κ ν)
    (h : ((m.entries ++ es).map Prod.fst).Nodup) :
    (es.foldl (fun acc e => acc.put e.1 e.2) m).entries = m.entries ++ es := by
  induction es generalizing m with
  | nil => simp
  | cons e es ih =>
    have hnew : e.1 ∉ m.keys := by
      rw [map_append, nodup_append] at h
      exact fun hm => h.2.2 _ hm _ (mem_cons_self ..) rfl
    have hput := entries_put_of_not_mem hnew e.2
    rw [foldl_cons, ih _ (by rw [hput]; simpa using h), hput]
    simp

variable (m)

/-- A map is rebuilt by putting its entries in order. -/
theorem foldl_put_entries : m.entries.foldl (fun acc e => acc.put e.1 e.2) empty = m :=
  LinkedMap.ext (by rw [entries_foldl_put _ _ (by simpa using m.nodup)]; simp)

/-- Put entries one after the other. -/
def putAll (m : LinkedMap κ ν) (es : List (κ × ν)) : LinkedMap κ ν :=
  es.foldl (fun acc e => acc.put e.1 e.2) m

/-- The last of the entries under a key. -/
def lastOf (es : List (κ × ν)) (k : κ) : Option ν :=
  es.foldl (fun acc e => if e.1 = k then some e.2 else acc) none

/-- Of the entries under a key the last one stays. -/
theorem get?_putAll (es : List (κ × ν)) (k : κ) : (m.putAll es).get? k = (lastOf es k).or (m.get? k) := by
  induction es using List.reverseRecOn with
  | nil => rfl
  | append_singleton es e ih =>
    rw [putAll, lastOf, foldl_append, foldl_append, foldl_cons, foldl_cons, foldl_nil, foldl_nil]
    by_cases hk : e.1 = k
    · subst hk
      rw [if_pos rfl, get?_put_self]
      rfl
    · rw [if_neg hk, get?_put_of_ne _ (Ne.symm hk)]
      exact ih

theorem lastOf_entries (k : κ) : lastOf m.entries k = m.get? k := by
  have h := get?_putAll empty m.entries k
  rw [putAll, foldl_put_entries, get?_empty, Option.or_none] at h
  exact h.symm

/-- A map written over another. -/
theorem get?_putAll_entries (m d : LinkedMap κ ν) (k : κ) :
    (m.putAll d.entries).get? k = (d.get? k).or (m.get? k) := by
  rw [get?_putAll, lastOf_entries]

/-- Every key of the first map is a key of the second. -/
def KeysWithin (m₀ m : LinkedMap κ ν) : Prop := ∀ k, m.get? k = none → m₀.get? k = none

namespace KeysWithin

variable {m₀ m : LinkedMap κ ν} (h : m₀.KeysWithin m)
include h

theorem putAll (es : List (κ × ν)) : (m₀.putAll es).KeysWithin (m.putAll es) := by
  intro k hnone
  rw [get?_putAll, Option.or_eq_none_iff] at hnone ⊢
  exact ⟨hnone.1, h k hnone.2⟩

theorem putAll_right (es : List (κ × ν)) : m₀.KeysWithin (m.putAll es) := by
  intro k hnone
  rw [get?_putAll, Option.or_eq_none_iff] at hnone
  exact h k hnone.2

theorem filter (p : κ × ν → Bool) : (m₀.filter p).KeysWithin m := by
  refine fun k hnone => Option.eq_none_iff_forall_ne_some.2 fun v hv => ?_
  have hget := get?_eq_some_iff.2 (mem_filter.1 (get?_eq_some_iff.1 hv)).1
  exact Option.some_ne_none v (hget.symm.trans (h k hnone))

/-- All entries of a map, over a map with no other keys. -/
theorem get?_putAll_entries (k : κ) : (m₀.putAll m.entries).get? k = m.get? k := by
  rw [LinkedMap.get?_putAll_entries]
  cases hget : m.get? k with
  | none => exact h k hget
  | some v => rfl

end KeysWithin

/-! ## Access order -/

theorem entries_putLast (k : κ) (v : ν) : (m.putLast k v).entries = (m.remove k).entries ++ [(k, v)] := rfl

@[simp] theorem get?_putLast_self (k : κ) (v : ν) : (m.putLast k v).get? k = some v :=
  get?_eq_some_iff.2 (by simp [entries_putLast])

theorem get?_putLast_of_ne (h : k' ≠ k) (v : ν) : (m.putLast k v).get? k' = m.get? k' :=
  get?_congr fun v' => by simp [entries_putLast, remove, h]

@[simp] theorem get?_touch (k k' : κ) : (m.touch k).get? k' = m.get? k' := by
  unfold touch
  split
  case h_1 v hv =>
    by_cases h : k' = k
    · subst h; simp [hv]
    · exact get?_putLast_of_ne m h v
  case h_2 => rfl

theorem touch_of_get?_some {m : LinkedMap κ ν} (h : m.get? k = some v) : m.touch k = m.putLast k v := by
  simp [touch, h]

/-- A put right after a read of the same key leaves no trace of the read. -/
@[simp] theorem putLast_touch (k : κ) (v : ν) : (m.touch k).putLast k v = m.putLast k v := by
  unfold touch
  split
  case h_1 v' _ =>
    refine LinkedMap.ext ?_
    simp [entries_putLast, remove]
  case h_2 => rfl

variable {m}

theorem size_putLast_of_mem (h : k ∈ m.keys) (v : ν) : (m.putLast k v).size = m.size := by
  rw [← size_remove_of_mem h]
  simp [size, entries_putLast]

theorem size_putLast_of_not_mem (h : k ∉ m.keys) (v : ν) : (m.putLast k v).size = m.size + 1 := by
  simp [size, entries_putLast, remove_of_not_mem h]

variable (m)

theorem size_putLast_le (k : κ) (v : ν) : (m.putLast k v).size ≤ m.size + 1 := by
  by_cases h : k ∈ m.keys
  · rw [size_putLast_of_mem h]; omega
  · exact Nat.le_of_eq (size_putLast_of_not_mem h v)

@[simp] theorem size_touch (k : κ) : (m.touch k).size = m.size := by
  unfold touch
  split
  case h_1 v hv => exact size_putLast_of_mem (mem_keys_iff_get?.2 ⟨v, hv⟩) v
  case h_2 => rfl

end

/-! ## The newest keys of an access-ordered map -/

omit [DecidableEq κ] in
/-- The keys that satisfy `P` stand behind all the others. -/
def Newest (P : κ → Prop) (m : LinkedMap κ ν) : Prop := m.keys.Pairwise fun a b => P a → P b

variable {P : κ → Prop}

omit [DecidableEq κ] in
theorem newest_none (m : LinkedMap κ ν) : m.Newest fun _ => False :=
  pairwise_of_forall fun _ _ => False.elim

theorem keys_putLast (m : LinkedMap κ ν) (k : κ) (v : ν) :
    (m.putLast k v).keys = m.keys.filter (· ≠ k) ++ [k] := by
  simp [keys, entries_putLast, remove, filter_map, comp_def]

variable (h : m.Newest P)
include h

theorem Newest.putLast (k : κ) (v : ν) : (m.putLast k v).Newest fun x => P x ∨ x = k := by
  unfold Newest
  rw [keys_putLast, pairwise_append]
  refine ⟨?_, pairwise_singleton _ _, fun a _ b hb _ => .inr (mem_singleton.1 hb)⟩
  refine (List.Pairwise.filter _ h).imp_of_mem fun {a b} ha _ hab hP => ?_
  have hne : a ≠ k := by simpa using (mem_filter.1 ha).2
  exact .inl (hab (hP.resolve_right hne))

theorem Newest.touch (hk : k ∈ m.keys) : (m.touch k).Newest fun x => P x ∨ x = k := by
  obtain ⟨v, hv⟩ := mem_keys_iff_get?.1 hk
  rw [touch_of_get?_some hv]
  exact h.putLast k v

omit [DecidableEq κ] in
theorem Newest.dropEldestOver (cap : Nat) : (m.dropEldestOver cap).Newest P := by
  unfold LinkedMap.dropEldestOver
  split
  · exact List.Pairwise.sublist ((tail_sublist _).map _) h
  · exact h

/-- An eviction takes none of the newest keys while they are at most `cap`: were the eldest one of
them, then every key would be. -/
theorem Newest.get?_dropEldestOver {S : Finset κ} (hS : ∀ k, P k → k ∈ S)
    (hcap : S.card ≤ cap) (hk : P k) :
    (m.dropEldestOver cap).get? k = m.get? k := by
  unfold LinkedMap.dropEldestOver
  split
  next hlt =>
    obtain ⟨es, hnd⟩ := m
    cases es with
    | nil => rfl
    | cons e es =>
      have hne : e.1 ≠ k := by
        rintro rfl
        have hall : ∀ x ∈ (e :: es).map Prod.fst, x ∈ S := by
          intro x hx
          rcases mem_cons.1 hx with rfl | hx
          · exact hS _ hk
          · exact hS _ ((pairwise_cons.1 h).1 x hx hk)
        have hle : ((e :: es).map Prod.fst).length ≤ S.card := by
          rw [← toFinset_card_of_nodup hnd]
          exact Finset.card_le_card fun x hx => hall x (mem_toFinset.1 hx)
        rw [length_map] at hle
        exact absurd (hle.trans hcap) (Nat.not_le.2 hlt)
      refine get?_congr fun v => ?_
      have : (k, v) ≠ e := fun heq => hne (by rw [← heq])
      simp [this]
  next => rfl

end LinkedMap
