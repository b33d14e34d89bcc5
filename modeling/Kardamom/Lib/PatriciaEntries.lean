import Kardamom.Lib.Patricia

/-!
# The trie of a list of entries

`ofEntries` builds the canonical trie of a list of entries from the top, as the definition of the trie
reads: one entry is a leaf, and several are a branch on the digit after the digits that they share. It
holds exactly the entries, whenever no key is a prefix of another (`ofEntries_spec`).
-/

namespace Patricia

open List

variable {A V : Type*}

/-- No key is a prefix of another. -/
def PrefixFree (es : List (List A × V)) : Prop :=
  es.Pairwise fun e e' => ¬ e.1 <+: e'.1 ∧ ¬ e'.1 <+: e.1

/-- The entries with the first digits of their keys dropped. -/
def dropAll (n : Nat) (es : List (List A × V)) : List (List A × V) := es.map fun e => (e.1.drop n, e.2)

variable {es : List (List A × V)} {p : List A}

theorem mem_dropAll {key : List A} {v : V} (hall : ∀ e ∈ es, key <+: e.1) :
    (p, v) ∈ dropAll key.length es ↔ (key ++ p, v) ∈ es := by
  refine mem_map.trans ⟨fun ⟨e, he, heq⟩ => ?_, fun hmem => ⟨(key ++ p, v), hmem, ?_⟩⟩
  · obtain ⟨q, hq⟩ := hall e he
    cases heq
    rw [← hq, drop_left, hq]
    exact he
  · rw [drop_left]

theorem PrefixFree.dropAll (h : PrefixFree es) {key : List A} (hall : ∀ e ∈ es, key <+: e.1) :
    PrefixFree (dropAll key.length es) := by
  refine pairwise_map.2 (h.imp_of_mem fun {e e'} he he' hfree => ?_)
  obtain ⟨p, hp⟩ := hall e he
  obtain ⟨q, hq⟩ := hall e' he'
  rw [← hp, ← hq, prefix_append_right_inj, prefix_append_right_inj] at hfree
  rw [← hp, ← hq, drop_left, drop_left]
  exact hfree

variable [DecidableEq A]

/-! ## Shared prefixes -/

/-- The digits that two keys share from the start. -/
def lcp : List A → List A → List A
  | a :: p, b :: q => if a = b then a :: lcp p q else []
  | _, _ => []

theorem lcp_prefix_left (p q : List A) : lcp p q <+: p := by
  fun_induction lcp p q with
  | case1 p b q ih => exact cons_prefix_cons.2 ⟨rfl, ih⟩
  | case2 => exact nil_prefix
  | case3 => exact nil_prefix

theorem lcp_prefix_right (p q : List A) : lcp p q <+: q := by
  fun_induction lcp p q with
  | case1 p b q ih => exact cons_prefix_cons.2 ⟨rfl, ih⟩
  | case2 => exact nil_prefix
  | case3 => exact nil_prefix

variable {r : List A}

theorem prefix_lcp {q : List A} (hp : r <+: p) (hq : r <+: q) : r <+: lcp p q := by
  induction r generalizing p q with
  | nil => exact nil_prefix
  | cons c r ih =>
    obtain ⟨p', rfl⟩ := hp
    obtain ⟨q', rfl⟩ := hq
    simp only [cons_append, lcp, if_pos, cons_prefix_cons, true_and]
    exact ih (prefix_append r p') (prefix_append r q')

/-- Keys of which neither is a prefix of the other part at one digit. -/
theorem lcp_diverge {q : List A} (hpq : ¬ p <+: q) (hqp : ¬ q <+: p) :
    ∃ a b p' q', a ≠ b ∧ p = lcp p q ++ a :: p' ∧ q = lcp p q ++ b :: q' := by
  fun_induction lcp p q with
  | case1 p a q ih =>
    obtain ⟨a', b', p', q', hab, hp, hq⟩ := ih
      (fun h => hpq (cons_prefix_cons.2 ⟨rfl, h⟩)) fun h => hqp (cons_prefix_cons.2 ⟨rfl, h⟩)
    exact ⟨a', b', p', q', hab, congrArg (a :: ·) hp, congrArg (a :: ·) hq⟩
  | case2 a p b q hab => exact ⟨a, b, p, q, hab, rfl, rfl⟩
  | case3 p q hnot =>
    cases p with
    | nil => exact absurd nil_prefix hpq
    | cons a p =>
      cases q with
      | nil => exact absurd nil_prefix hqp
      | cons b q => exact (hnot a p b q rfl rfl).elim

/-! ## Entries -/

/-- The digits that all keys share. -/
def shared : List (List A × V) → List A
  | [] => []
  | e :: es => es.foldl (fun p e' => lcp p e'.1) e.1

/-- The entries below a digit. -/
def under (a : A) (es : List (List A × V)) : List (List A × V) :=
  es.filterMap fun e => match e.1 with
    | [] => none
    | b :: p => if b = a then some (p, e.2) else none

/-- The canonical trie of the entries, whose keys have at most `n` digits. -/
def Trie.ofEntries : Nat → List (List A × V) → Trie A V
  | _, [] => nil
  | _, [e] => leaf e.1 e.2
  | 0, _ :: _ :: _ => nil
  | n + 1, e :: e' :: es =>
    (branch fun a => ofEntries n
      (under a (dropAll (shared (e :: e' :: es)).length (e :: e' :: es)))).wrap (shared (e :: e' :: es))

theorem prefix_foldl_lcp :
    r <+: es.foldl (fun p e => lcp p e.1) p ↔ r <+: p ∧ ∀ e ∈ es, r <+: e.1 := by
  induction es generalizing p with
  | nil => simp
  | cons e es ih =>
    rw [foldl_cons, ih]
    refine ⟨fun ⟨hlcp, hall⟩ => ⟨hlcp.trans (lcp_prefix_left p e.1), fun e' he' => ?_⟩,
      fun ⟨hp, hall⟩ => ⟨prefix_lcp hp (hall e mem_cons_self),
        fun e' he' => hall e' (mem_cons_of_mem _ he')⟩⟩
    rcases mem_cons.1 he' with rfl | he'
    · exact hlcp.trans (lcp_prefix_right p e'.1)
    · exact hall e' he'

/-- The shared digits are the longest prefix of all keys. -/
theorem prefix_shared_iff (hne : es ≠ []) : r <+: shared es ↔ ∀ e ∈ es, r <+: e.1 := by
  cases es with
  | nil => exact absurd rfl hne
  | cons e es =>
    rw [shared, prefix_foldl_lcp]
    simp

theorem shared_isPrefix {e : List A × V} (he : e ∈ es) : shared es <+: e.1 :=
  (prefix_shared_iff (ne_nil_of_mem he)).1 prefix_rfl e he

theorem mem_under {a : A} {v : V} : (p, v) ∈ under a es ↔ (a :: p, v) ∈ es := by
  refine mem_filterMap.trans ⟨fun ⟨e, he, heq⟩ => ?_, fun hmem => ⟨_, hmem, by simp⟩⟩
  obtain ⟨k, w⟩ := e
  cases k with
  | nil => cases heq
  | cons b k =>
    dsimp only at heq
    split at heq
    case isTrue hba =>
      cases heq
      exact hba ▸ he
    case isFalse => cases heq

namespace PrefixFree

variable {es : List (List A × V)}

theorem under (h : PrefixFree es) (a : A) : PrefixFree (under a es) := by
  refine pairwise_filterMap.2 (h.imp fun {e e'} hfree x hx y hy => ?_)
  obtain ⟨k, w⟩ := e
  obtain ⟨k', w'⟩ := e'
  cases k with
  | nil => cases hx
  | cons b k =>
    cases k' with
    | nil => cases hy
    | cons b' k' =>
      dsimp only at hx hy
      split at hx
      case isFalse => cases hx
      case isTrue hb =>
        split at hy
        case isFalse => cases hy
        case isTrue hb' =>
          cases hx
          cases hy
          subst hb
          subst hb'
          simpa only [cons_prefix_cons, true_and] using hfree

variable {e e' : List A × V} (h : PrefixFree (e :: e' :: es))
include h

/-- Of two entries or more, each goes on after the shared digits. -/
theorem exists_digit {x : List A × V}
    (hx : x ∈ e :: e' :: es) : ∃ a p, x.1 = shared (e :: e' :: es) ++ a :: p := by
  obtain ⟨rest, hrest⟩ := shared_isPrefix hx
  cases rest with
  | cons a p => exact ⟨a, p, hrest.symm⟩
  | nil =>
    -- its key would be a prefix of all keys
    exfalso
    rw [append_nil] at hrest
    have hall : ∀ y ∈ e :: e' :: es, x.1 <+: y.1 := fun y hy => hrest ▸ shared_isPrefix hy
    rcases mem_cons.1 hx with rfl | hx
    · exact (rel_of_pairwise_cons h mem_cons_self).1 (hall e' (by simp))
    · exact (rel_of_pairwise_cons h hx).2 (hall e (by simp))

/-- Two entries or more go on with different digits. -/
theorem exists_fork :
    ∃ a b p q v w, a ≠ b ∧ (shared (e :: e' :: es) ++ a :: p, v) ∈ e :: e' :: es ∧
      (shared (e :: e' :: es) ++ b :: q, w) ∈ e :: e' :: es := by
  obtain ⟨a, p, hp⟩ := h.exists_digit mem_cons_self
  by_contra hnone
  -- else all keys share that digit too
  have hall : ∀ x ∈ e :: e' :: es, shared (e :: e' :: es) ++ [a] <+: x.1 := by
    intro x hx
    obtain ⟨b, q, hq⟩ := h.exists_digit hx
    by_cases hab : a = b
    · exact ⟨q, by rw [hq, hab, append_assoc]; rfl⟩
    · exact (hnone ⟨a, b, p, q, e.2, x.2, hab, hp ▸ mem_cons_self, hq ▸ hx⟩).elim
  have hle := ((prefix_shared_iff (cons_ne_nil _ _)).2 hall).length_le
  rw [length_append, length_singleton] at hle
  omega

end PrefixFree

namespace Trie

theorem ofEntries_singleton_spec (n : Nat) (e : List A × V) :
    Canonical (ofEntries n [e]) ∧ ∀ p v, (ofEntries n [e]).get p = some v ↔ (p, v) ∈ [e] := by
  have heq : ofEntries n [e] = leaf e.1 e.2 := by cases n <;> rfl
  rw [heq]
  refine ⟨.inr (.ofLeaf _ _), fun p v => ⟨fun h => ?_, fun hmem => ?_⟩⟩
  · obtain ⟨rfl, rfl⟩ := get_leaf_eq_some h
    exact mem_singleton.2 rfl
  · rw [← mem_singleton.1 hmem, get_leaf_self]

/-- **The trie of a list of entries** is canonical and holds exactly the entries. -/
theorem ofEntries_spec {n : Nat} (hfree : PrefixFree es) (hlen : ∀ e ∈ es, e.1.length ≤ n) :
    Canonical (ofEntries n es) ∧ ∀ p v, (ofEntries n es).get p = some v ↔ (p, v) ∈ es := by
  induction n generalizing es with
  | zero =>
    rcases es with _ | ⟨e, _ | ⟨e', es⟩⟩
    · exact ⟨.inl rfl, by simp [ofEntries]⟩
    · exact ofEntries_singleton_spec 0 e
    · -- both keys would be empty
      have he : e.1 = [] := length_eq_zero_iff.1 (Nat.le_zero.1 (hlen e (by simp)))
      exact ((rel_of_pairwise_cons hfree mem_cons_self).1 (he ▸ nil_prefix)).elim
  | succ n ih =>
    rcases es with _ | ⟨e, _ | ⟨e', es⟩⟩
    · exact ⟨.inl rfl, by simp [ofEntries]⟩
    · exact ofEntries_singleton_spec (n + 1) e
    · have hall : ∀ x ∈ e :: e' :: es, shared (e :: e' :: es) <+: x.1 := fun x hx => shared_isPrefix hx
      have hchild : ∀ a, Canonical (ofEntries n
            (under a (dropAll (shared (e :: e' :: es)).length (e :: e' :: es)))) ∧
          ∀ p v, (ofEntries n (under a
            (dropAll (shared (e :: e' :: es)).length (e :: e' :: es)))).get p = some v ↔
            (shared (e :: e' :: es) ++ a :: p, v) ∈ e :: e' :: es := by
        intro a
        have hspec := ih ((hfree.dropAll hall).under a) fun x hx => by
          have hmem := (mem_dropAll hall).1 (mem_under.1 hx)
          have hx := hlen _ hmem
          rw [length_append, length_cons] at hx
          omega
        exact ⟨hspec.1, fun p v => by rw [hspec.2, mem_under, mem_dropAll hall]⟩
      have hne : ∀ {a p v}, (shared (e :: e' :: es) ++ a :: p, v) ∈ e :: e' :: es → ofEntries n
          (under a (dropAll (shared (e :: e' :: es)).length (e :: e' :: es))) ≠ nil := by
        intro a p v hmem hnil
        have hget := ((hchild a).2 p v).2 hmem
        rw [hnil] at hget
        cases hget
      obtain ⟨a, b, p, q, v, w, hab, ha, hb⟩ := hfree.exists_fork
      have hred : Reduced (branch fun a => ofEntries n
          (under a (dropAll (shared (e :: e' :: es)).length (e :: e' :: es)))) :=
        .ofBranch hab (hne ha) (hne hb) fun c hc => (hchild c).1.reduced hc
      refine ⟨.inr hred.wrap, fun p v => ?_⟩
      rw [ofEntries]
      by_cases hp : shared (e :: e' :: es) <+: p
      · obtain ⟨rest, rfl⟩ := hp
        rw [get_wrap_append]
        cases rest with
        | nil =>
          refine ⟨fun h => (by cases h), fun hmem => ?_⟩
          obtain ⟨a, q, hq⟩ := hfree.exists_digit hmem
          exact absurd (append_cancel_left hq) (cons_ne_nil a q).symm
        | cons a rest => exact (hchild a).2 rest v
      · rw [get_wrap_of_not_isPrefix hp]
        exact ⟨fun h => (by cases h), fun hmem => absurd (shared_isPrefix hmem) hp⟩

end Trie

end Patricia
