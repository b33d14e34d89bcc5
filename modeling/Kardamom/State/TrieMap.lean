import Kardamom.Lib.LinkedMap
import Kardamom.State.Mpt

/-!
# Maps and their canonical tries

A finite map of 32-byte keys, as a list of entries, has one canonical trie and one root (`mapRoot`). The
root determines the map (`SecureRoot.eq_iff`). The keys of the state tries are hashes of what they stand for:
`keyed` is the map of 32-byte keys behind a map of addresses or slots.
-/

namespace Kardamom.Mpt

open Patricia Patricia.Trie Function List Function LinkedMap
open Prod (fst)

variable {H : Type} {C : Codec H}

/-- A map as a list of entries, each key once. -/
structure IsMap {α β : Type} (es : List (α × β)) (m : α → Option β) : Prop where
  nodup : (es.map fst).Nodup
  mem_iff : ∀ k v, (k, v) ∈ es ↔ m k = some v

/-- Entries under different keys are the map of their lookups. -/
theorem isMap_lookup {α β : Type} [DecidableEq α] {es : List (α × β)} (h : (es.map fst).Nodup) :
    IsMap es fun k => es.lookup k := by
  refine ⟨h, fun k v => ?_⟩
  induction es with
  | nil => simp
  | cons e es ih =>
    obtain ⟨hfresh, hnodup⟩ := nodup_cons.1 h
    rw [mem_cons, lookup_cons]
    by_cases hk : k = e.1
    · subst hk
      rw [beq_self_eq_true]
      refine ⟨?_, fun hv => .inl (by rw [← Option.some.inj hv])⟩
      rintro (heq | hmem)
      · rw [← heq]
      · exact absurd (mem_map_of_mem (f := fst) hmem) hfresh
    · rw [beq_eq_false_iff_ne.2 hk, ← ih hnodup]
      refine ⟨fun hmem => hmem.resolve_left fun heq => hk (by rw [← heq]), .inr⟩

/-- The canonical trie of a map. -/
def mapTrie (es : List (B256 × Bytes)) : MptTrie := Trie.ofEntries 64 (es.map fun e => (unpack e.1, e.2))

/-- The canonical root of a map. -/
def mapRoot (C : Codec H) (es : List (B256 × Bytes)) : H := C.rootOf (es.map fun e => (unpack e.1, e.2))

/-- The trie reads as the map. -/
def ReadsAs (t : MptTrie) (m : B256 → Option Bytes) : Prop :=
  ∀ p v, t.get p = some v ↔ ∃ k, unpack k = p ∧ m k = some v

namespace ReadsAs

variable {t t' : MptTrie} {m : B256 → Option Bytes}

variable (h : ReadsAs t m)
include h

theorem get_unpack (k : B256) : t.get (unpack k) = m k := by
  refine Option.ext fun v => ?_
  rw [h]
  refine ⟨fun ⟨k', hk', hv⟩ => ?_, fun hv => ⟨k, rfl, hv⟩⟩
  rwa [← unpack_injective hk']

theorem length_eq {p : Nibbles} {v : Bytes} (hp : t.get p = some v) : p.length = 64 := by
  obtain ⟨k, rfl, -⟩ := (h p v).1 hp
  exact length_unpack k

theorem get_eq (h' : ReadsAs t' m) (p : Nibbles) : t.get p = t'.get p :=
  Option.ext fun v => by rw [h, h']

/-- The trie with one key changed reads as the map with it changed. -/
theorem update {k : B256} {x : Option Bytes}
    (hget : ∀ p, t'.get p = if p = unpack k then x else t.get p) :
    ReadsAs t' (update m k x) := by
  intro p v
  rw [hget]
  by_cases hp : p = unpack k
  · subst hp
    rw [if_pos rfl]
    refine ⟨fun hx => ⟨k, rfl, by rw [update_self, hx]⟩, fun ⟨k', hk', hv⟩ => ?_⟩
    rwa [unpack_injective hk', update_self] at hv
  · rw [if_neg hp, h]
    have hne : ∀ {k'}, unpack k' = p → k' ≠ k := fun hk' heq => hp (heq ▸ hk'.symm)
    refine ⟨fun ⟨k', hk', hv⟩ => ⟨k', hk', ?_⟩, fun ⟨k', hk', hv⟩ => ⟨k', hk', ?_⟩⟩
    · rwa [update_of_ne (hne hk')]
    · rwa [update_of_ne (hne hk')] at hv

end ReadsAs

/-- The trie of a map is canonical and reads as the map. -/
theorem IsMap.ofEntries {es : List (B256 × Bytes)} {m : B256 → Option Bytes} (h : IsMap es m) :
    Canonical (mapTrie es) ∧ ReadsAs (mapTrie es) m := by
  have hfree : PrefixFree (es.map fun e => (unpack e.1, e.2)) := by
    refine pairwise_map.2 ((pairwise_map.1 h.nodup).imp fun {e e'} hne => ?_)
    -- keys of one length are prefixes of each other only when they are equal
    have hlen : (unpack e.1).length = (unpack e'.1).length := by simp
    exact ⟨fun hp => hne (unpack_injective (hp.eq_of_length_le hlen.ge)),
      fun hp => hne (unpack_injective (hp.eq_of_length_le hlen.le)).symm⟩
  have hspec := Trie.ofEntries_spec (n := 64) hfree fun e he => by
    obtain ⟨x, -, rfl⟩ := mem_map.1 he
    exact (length_unpack x.1).le
  refine ⟨hspec.1, fun p v => (hspec.2 p v).trans ⟨fun hmem => ?_, fun ⟨k, hk, hv⟩ => ?_⟩⟩
  · obtain ⟨⟨k, w⟩, he, heq⟩ := mem_map.1 hmem
    cases heq
    exact ⟨k, rfl, (h.mem_iff k w).1 he⟩
  · exact mem_map.2 ⟨(k, v), (h.mem_iff k v).2 hv, by rw [hk]⟩

/-! ## Hashed keys -/

section Keyed

open Classical in
/-- The map of 32-byte keys behind a map whose keys are hashed. -/
noncomputable def keyed {α β : Type} (key : α → B256) (f : α → Option β) : B256 → Option β :=
  fun k => if h : ∃ a, key a = k then f h.choose else none

variable {α β : Type} {key : α → B256} (hkey : Injective key)

include hkey

theorem keyed_apply (f : α → Option β) (a : α) : keyed key f (key a) = f a := by
  have hex : ∃ b, key b = key a := ⟨a, rfl⟩
  rw [keyed, dif_pos hex, hkey hex.choose_spec]

theorem keyed_eq_some_iff {f : α → Option β} {k : B256} {v : β} :
    keyed key f k = some v ↔ ∃ a, key a = k ∧ f a = some v := by
  constructor
  · intro h
    by_cases hex : ∃ a, key a = k
    · obtain ⟨a, rfl⟩ := hex
      exact ⟨a, rfl, (keyed_apply hkey f a).symm.trans h⟩
    · rw [keyed, dif_neg hex] at h
      cases h
  · rintro ⟨a, rfl, hv⟩
    rw [keyed_apply hkey, hv]

theorem keyed_injective {f g : α → Option β} (h : keyed key f = keyed key g) : f = g := by
  funext a
  rw [← keyed_apply hkey f, h, keyed_apply hkey]

theorem keyed_update [DecidableEq α] (f : α → Option β) (a : α) (x : Option β) :
    keyed key (update f a x) = update (keyed key f) (key a) x := by
  funext k
  by_cases hk : k = key a
  · subst hk
    rw [keyed_apply hkey, update_self, update_self]
  · rw [update_of_ne hk]
    refine Option.ext fun v => ?_
    rw [keyed_eq_some_iff hkey, keyed_eq_some_iff hkey]
    refine exists_congr fun b => and_congr_right fun hb => ?_
    have hba : b ≠ a := by
      rintro rfl
      exact hk hb.symm
    rw [update_of_ne hba]

/-- Entries with their keys hashed. -/
theorem IsMap.keyed {es : List (α × β)} {f : α → Option β} (h : IsMap es f) :
    IsMap (es.map fun e => (key e.1, e.2)) (Mpt.keyed key f) := by
  constructor
  · rw [map_map]
    have hmap : (es.map fst).map key = es.map (fst ∘ fun e => (key e.1, e.2)) := by
      rw [map_map]
      rfl
    exact hmap ▸ h.nodup.map hkey
  · intro k v
    rw [keyed_eq_some_iff hkey, mem_map]
    constructor
    · rintro ⟨e, he, heq⟩
      obtain ⟨rfl, rfl⟩ := Prod.mk.inj heq
      exact ⟨e.1, rfl, (h.mem_iff e.1 e.2).1 he⟩
    · rintro ⟨a, rfl, hv⟩
      exact ⟨(a, v), (h.mem_iff a v).2 hv, rfl⟩

end Keyed

/-- A list of entries seen through a partial view of the values. -/
theorem IsMap.filterMap {α β γ : Type} {es : List (α × β)} {f : α → Option β} (h : IsMap es f)
    (g : α → β → Option γ) :
    IsMap (es.filterMap fun e => (g e.1 e.2).map fun v => (e.1, v)) fun a => (f a).bind (g a) := by
  constructor
  · refine h.nodup.sublist ?_
    have hfst : ∀ e : α × β, ((g e.1 e.2).map fun v => (e.1, v)).map fst = (g e.1 e.2).map fun _ => e.1 :=
      fun e => by rw [Option.map_map]; rfl
    clear h hfst
    induction es with
    | nil => simp
    | cons e es ih =>
      cases hg : g e.1 e.2 with
      | none =>
        rw [filterMap_cons_none (by rw [hg]; rfl)]
        exact ih.cons _
      | some v =>
        rw [filterMap_cons_some (by rw [hg]; rfl)]
        exact ih.cons_cons _
  · intro a v
    rw [mem_filterMap, Option.bind_eq_some_iff]
    constructor
    · rintro ⟨e, he, heq⟩
      obtain ⟨w, hw, hpair⟩ := Option.map_eq_some_iff.1 heq
      obtain ⟨rfl, rfl⟩ := Prod.mk.inj hpair
      exact ⟨e.2, (h.mem_iff e.1 e.2).1 he, hw⟩
    · rintro ⟨b, hb, hv⟩
      exact ⟨(a, b), (h.mem_iff a b).2 hb, by rw [hv]; rfl⟩

/-- Later entries would win, but a key has one entry only. -/
theorem IsMap.lastOf {α β : Type} [DecidableEq α] {es : List (α × β)} {f : α → Option β} (h : IsMap es f)
    (a : α) : lastOf es a = f a := by
  refine (lastOf_entries ⟨es, h.nodup⟩ a).trans (Option.ext fun v => ?_)
  rw [get?_eq_some_iff, h.mem_iff]

/-- A map has one canonical trie. -/
theorem ReadsAs.unique {t t' : MptTrie} {m : B256 → Option Bytes} (h : ReadsAs t m) (h' : ReadsAs t' m)
    (hcan : Canonical t) (hcan' : Canonical t') : t = t' :=
  hcan.eq_of_get_eq hcan' (h.get_eq h')

/-- The root is the canonical root of the map, its keys hashed. -/
def SecureRoot {α : Type} (C : Codec H) (key : α → B256) (f : α → Option Bytes) (root : H) : Prop :=
  ∃ t, Canonical t ∧ ReadsAs t (keyed key f) ∧ root = C.root t

namespace SecureRoot

variable {α : Type} {key : α → B256} {f g : α → Option Bytes} {r r' : H}

theorem of_isMap (hkey : Injective key) {es : List (α × Bytes)} (h : IsMap es f) :
    SecureRoot C key f (mapRoot C (es.map fun e => (key e.1, e.2))) :=
  ⟨_, (h.keyed hkey).ofEntries.1, (h.keyed hkey).ofEntries.2, rfl⟩

theorem empty (hkey : Injective key) : SecureRoot C key (fun _ => none) C.emptyRootHash := by
  have hes : IsMap ([] : List (α × Bytes)) fun _ => none := ⟨nodup_nil, fun _ _ => by simp⟩
  exact of_isMap hkey hes

/-- **Equal roots are equal maps.** -/
theorem eq_iff (hC : C.Lawful) (hkey : Injective key) (h : SecureRoot C key f r)
    (h' : SecureRoot C key g r') : r = r' ↔ f = g := by
  obtain ⟨t, hcan, hreads, rfl⟩ := h
  obtain ⟨t', hcan', hreads', rfl⟩ := h'
  constructor
  · intro heq
    have htrie := hC.root_injective heq
    refine keyed_injective hkey (funext fun k => ?_)
    rw [← hreads.get_unpack k, ← hreads'.get_unpack k, htrie]
  · rintro rfl
    exact congrArg C.root (hreads.unique hreads' hcan hcan')

end SecureRoot

end Kardamom.Mpt
