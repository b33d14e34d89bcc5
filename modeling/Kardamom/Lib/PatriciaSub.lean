import Kardamom.Lib.PatriciaEntries

/-!
# Subtries

`sub t p` is the trie of what `t` holds below the path `p`. It is canonical when `t` is, and so it depends
on nothing but the keys below `p` (`Canonical.sub_congr`). A node stands at the path `p` of a canonical trie
exactly when it is the top of `sub t p`: an extension or a leaf that the path cuts shows with the rest of
its key.

`map` changes the values and keeps the shape.
-/

namespace Patricia

open List

namespace Trie

variable {A V W : Type*}

/-! ## Values -/

/-- The trie with every value changed. -/
def map (f : V → W) : Trie A V → Trie A W
  | nil => nil
  | leaf key value => leaf key (f value)
  | ext key child => ext key (map f child)
  | branch children => branch fun a => map f (children a)

@[simp] theorem map_branch (f : V → W) (children : A → Trie A V) :
    (branch children).map f = branch fun a => (children a).map f := rfl

variable {t : Trie A V}

theorem map_eq_nil_iff {f : V → W} : t.map f = nil ↔ t = nil := by
  cases t <;> simp [map]

theorem isNil_map (f : V → W) (t : Trie A V) : (t.map f).isNil = t.isNil := by
  cases t <;> rfl

theorem Reduced.map (h : Reduced t) (f : V → W) : Reduced (t.map f) := by
  induction h with
  | ofLeaf key value => exact .ofLeaf key (f value)
  | ofExt hkey _ ih => exact .ofExt hkey ih
  | @ofBranch children a b hab ha hb _ ih =>
    refine .ofBranch hab (fun hnil => ha (map_eq_nil_iff.1 hnil)) (fun hnil => hb (map_eq_nil_iff.1 hnil)) ?_
    exact fun c hc => ih c fun hnil => hc (map_eq_nil_iff.2 hnil)

theorem Canonical.map (h : Canonical t) (f : V → W) : Canonical (t.map f) := by
  rcases h with rfl | h
  · exact .inl rfl
  · exact .inr (h.map f)

variable [DecidableEq A]

theorem get_map (f : V → W) (t : Trie A V) (p : List A) : (t.map f).get p = (t.get p).map f := by
  induction t generalizing p with
  | nil => rfl
  | leaf key value =>
    rw [map, get_leaf, get_leaf]
    split <;> rfl
  | ext key child ih =>
    rw [map, get, get]
    split
    · exact ih _
    · rfl
  | branch children ih =>
    cases p with
    | nil => rfl
    | cons a p => exact ih a p

/-! ## Below a path -/

/-- What stands below a path. -/
def sub : Trie A V → List A → Trie A V
  | nil, _ => nil
  | leaf key value, p => if p <+: key then leaf (key.drop p.length) value else nil
  | ext key child, p =>
    if p <+: key then child.wrap (key.drop p.length)
    else if key <+: p then sub child (p.drop key.length)
    else nil
  | branch children, [] => branch children
  | branch children, a :: p => sub (children a) p

/-- **The map below a path.** -/
theorem get_sub (t : Trie A V) (p q : List A) : (t.sub p).get q = t.get (p ++ q) := by
  induction t generalizing p with
  | nil => rfl
  | leaf key value =>
    rw [sub]
    split
    case isTrue hp =>
      obtain ⟨r, rfl⟩ := hp
      rw [drop_left, get_leaf, get_leaf]
      simp only [append_cancel_left_eq]
    case isFalse hp =>
      rw [get_nil, get_leaf, if_neg]
      rintro rfl
      exact hp (prefix_append p q)
  | ext key child ih =>
    rw [sub]
    split
    case isTrue hp =>
      obtain ⟨r, rfl⟩ := hp
      rw [drop_left]
      by_cases hr : r <+: q
      · obtain ⟨s, rfl⟩ := hr
        rw [get_wrap_append, ← append_assoc, get_ext_append]
      · rw [get_wrap_of_not_isPrefix hr, get_ext_of_not_isPrefix]
        rwa [prefix_append_right_inj]
    case isFalse hp =>
      split
      case isTrue hkey =>
        obtain ⟨r, rfl⟩ := hkey
        rw [drop_left, ih, append_assoc, get_ext_append]
      case isFalse hkey =>
        rw [get_nil, get_ext_of_not_isPrefix]
        intro hboth
        exact (List.prefix_or_prefix_of_prefix hboth (prefix_append p q)).elim hkey hp
  | branch children ih =>
    cases p with
    | nil => rfl
    | cons a p => exact ih a p

theorem Canonical.sub (h : Canonical t) (p : List A) : Canonical (t.sub p) := by
  induction t generalizing p with
  | nil => exact .inl rfl
  | leaf key value =>
    rw [Trie.sub]
    split
    · exact .inr (.ofLeaf _ value)
    · exact .inl rfl
  | ext key child ih =>
    cases h.reduced (by simp) with
    | ofExt hkey hchild =>
      rw [Trie.sub]
      split
      · exact .inr hchild.wrap
      · split
        · exact ih (.inr hchild) _
        · exact .inl rfl
  | branch children ih =>
    have hred := h.reduced (by simp)
    cases p with
    | nil => exact h
    | cons a p => exact ih a (hred.children_of_branch a) p

/-- What stands below a path depends on the keys below it only. -/
theorem Canonical.sub_congr {t t' : Trie A V} (h : Canonical t) (h' : Canonical t') {p p' : List A}
    (hget : ∀ q, t.get (p ++ q) = t'.get (p' ++ q)) : t.sub p = t'.sub p' :=
  (h.sub p).eq_of_get_eq (h'.sub p') fun q => by rw [get_sub, get_sub, hget]

theorem Canonical.sub_nil (h : Canonical t) : t.sub [] = t :=
  (h.sub []).eq_of_get_eq h fun q => by rw [get_sub, nil_append]

theorem Canonical.sub_append (h : Canonical t) (p q : List A) : t.sub (p ++ q) = (t.sub p).sub q :=
  (h.sub (p ++ q)).eq_of_get_eq ((h.sub p).sub q) fun r => by
    rw [get_sub, get_sub, get_sub, append_assoc]

theorem Canonical.sub_map (h : Canonical t) (f : V → W) (p : List A) : (t.map f).sub p = (t.sub p).map f :=
  ((h.map f).sub p).eq_of_get_eq ((h.sub p).map f) fun q => by rw [get_sub, get_map, get_map, get_sub]

/-- The children of a branch are what stands below its digits. -/
theorem Canonical.sub_singleton_of_branch {children : A → Trie A V} (h : Canonical (branch children)) (a : A) :
    (branch children).sub [a] = children a := by
  have hred := h.reduced (by simp)
  exact (hred.children_of_branch a).sub_nil

/-- No key of a trie is a proper prefix of another. -/
theorem eq_of_get_of_isPrefix {p q : List A} {v w : V} (hp : t.get p = some v)
    (hq : t.get q = some w) (h : p <+: q) : p = q := by
  induction t generalizing p q with
  | nil => cases hp
  | leaf key value => rw [(get_leaf_eq_some hp).1, (get_leaf_eq_some hq).1]
  | ext key child ih =>
    obtain ⟨p', rfl, hp'⟩ := get_ext_eq_some hp
    obtain ⟨q', rfl, hq'⟩ := get_ext_eq_some hq
    rw [ih hp' hq' ((prefix_append_right_inj key).1 h)]
  | branch children ih =>
    cases p with
    | nil => cases hp
    | cons a p =>
      cases q with
      | nil => cases hq
      | cons b q =>
        obtain ⟨rfl, hpq⟩ := cons_prefix_cons.1 h
        rw [ih a hp hq hpq]

/-! ## A trie by its first digits -/

/-- A canonical trie without the empty key that has keys behind two digits is a branch. -/
theorem Canonical.eq_branch (h : Canonical t) {a b : A} (hab : a ≠ b) (ha : t.sub [a] ≠ nil)
    (hb : t.sub [b] ≠ nil) : t = branch fun c => t.sub [c] := by
  obtain ⟨p, v, hp⟩ := ((h.sub [a]).reduced ha).exists_get
  obtain ⟨q, w, hq⟩ := ((h.sub [b]).reduced hb).exists_get
  rw [get_sub] at hp hq
  have hdigit : ∀ key : List A, key ≠ [] → ¬ Below key t := by
    intro key hkey hbelow
    cases key with
    | nil => exact hkey rfl
    | cons c key =>
      have hca := (cons_prefix_cons.1 (hbelow _ _ hp)).1
      have hcb := (cons_prefix_cons.1 (hbelow _ _ hq)).1
      exact hab (hca.symm.trans hcb)
  cases h.reduced (fun hnil => by rw [hnil] at hp; cases hp) with
  | ofLeaf key value =>
    -- a leaf has one key
    have heq := (get_leaf_eq_some hp).1.trans (get_leaf_eq_some hq).1.symm
    exact absurd (List.cons.inj heq).1 hab
  | ofExt hkey hchild => exact absurd (below_ext _ _) (hdigit _ hkey)
  | ofBranch hab' ha' hb' hchildren =>
    refine congrArg branch (funext fun c => ?_)
    rw [h.sub_singleton_of_branch]

omit [DecidableEq A] in
theorem Canonical.join (h : Canonical t) (a : A) : Canonical (t.join [a]) := by
  rcases h with rfl | hred
  · exact .inl rfl
  · exact .inr (hred.join (by simp))

/-- A canonical trie whose keys all start with one digit is what stands below the digit, joined to it. -/
theorem Canonical.eq_join (h : Canonical t) (hnil : t.get [] = none) {a : A}
    (hothers : ∀ b, b ≠ a → t.sub [b] = nil) : t = (t.sub [a]).join [a] := by
  refine h.eq_of_get_eq ((h.sub [a]).join a) fun p => ?_
  cases p with
  | nil => rw [hnil, get_join_of_not_isPrefix (by simp)]
  | cons b p =>
    by_cases hba : b = a
    · subst hba
      exact ((get_join_append [b] p _).trans (get_sub t [b] p)).symm
    · rw [get_join_of_not_isPrefix fun hp => hba (cons_prefix_cons.1 hp).1.symm]
      have hget := get_sub t [b] p
      rw [hothers b hba] at hget
      exact hget.symm

/-- **Canonical tries gather into one**, each below its digit. -/
theorem exists_gather {ts : A → Trie A V} (h : ∀ a, Canonical (ts a)) :
    ∃ t, Canonical t ∧ t.get [] = none ∧ ∀ a, t.sub [a] = ts a := by
  by_cases htwo : ∃ a b, a ≠ b ∧ ts a ≠ nil ∧ ts b ≠ nil
  · obtain ⟨a, b, hab, ha, hb⟩ := htwo
    have hcanon : Canonical (branch ts) := .inr (.ofBranch hab ha hb fun c hc => (h c).reduced hc)
    exact ⟨branch ts, hcanon, rfl, hcanon.sub_singleton_of_branch⟩
  by_cases hone : ∃ a, ts a ≠ nil
  · obtain ⟨a, ha⟩ := hone
    have hcanon := (h a).join a
    refine ⟨(ts a).join [a], hcanon, get_join_of_not_isPrefix (by simp) _, fun b => ?_⟩
    refine (hcanon.sub [b]).eq_of_get_eq (h b) fun p => ?_
    rw [get_sub]
    by_cases hba : b = a
    · subst hba
      exact get_join_append [b] p _
    · have hb : ts b = nil := by
        by_contra hne
        exact htwo ⟨b, a, hba, hne, ha⟩
      have hdigit : ¬ [a] <+: [b] ++ p := fun hp => hba (cons_prefix_cons.1 hp).1.symm
      rw [get_join_of_not_isPrefix hdigit, hb, get_nil]
  · refine ⟨nil, .inl rfl, rfl, fun a => ?_⟩
    by_contra hne
    exact hone ⟨a, fun hnil => hne hnil.symm⟩

end Trie

end Patricia
