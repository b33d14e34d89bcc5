import Mathlib.Data.List.Infix

/-!
# Patricia tries

A trie over keys that are lists of digits, with the digits that all keys of a subtrie share folded into
one node. `get` reads it as a map, and `Reduced` is its canonical shape: no extension is empty or points
at anything but a branch, and no branch has fewer than two children. The shape is canonical because a
reduced trie is determined by the map that it reads as (`eq_of_get_eq`).

The digits and the values are arbitrary. The keys need not have one length: a key that is a prefix of
another never meets it, since a branch holds no value.
-/

namespace Patricia

open Function List List

variable {A V : Type*}

inductive Trie (A V : Type*) where
  /-- No key. -/
  | nil
  | leaf (key : List A) (value : V)
  | ext (key : List A) (child : Trie A V)
  | branch (children : A → Trie A V)

namespace Trie

/-- The trie has no key. -/
def isNil : Trie A V → Bool
  | nil => true
  | _ => false

variable {t : Trie A V}

@[simp] theorem isNil_iff : t.isNil = true ↔ t = nil := by
  cases t <;> simp [isNil]

/-! ## The map of a trie -/

variable {key p : List A}

section Get

variable [DecidableEq A]

/-- The value of a key. -/
def get : Trie A V → List A → Option V
  | nil, _ => none
  | leaf key value, p => if p = key then some value else none
  | ext key child, p => if key <+: p then child.get (p.drop key.length) else none
  | branch _, [] => none
  | branch children, a :: p => (children a).get p

@[simp] theorem get_nil (p : List A) : (nil : Trie A V).get p = none := rfl

theorem get_leaf (key : List A) (value : V) (p : List A) :
    (leaf key value).get p = if p = key then some value else none := rfl

@[simp] theorem get_leaf_self (key : List A) (value : V) : (leaf key value).get key = some value :=
  if_pos rfl

theorem get_leaf_eq_some {value v : V} (h : (leaf key value).get p = some v) : p = key ∧ v = value := by
  rw [get_leaf] at h
  split at h
  case isTrue heq => exact ⟨heq, (Option.some.inj h).symm⟩
  case isFalse => cases h

@[simp] theorem get_branch_cons (children : A → Trie A V) (a : A) (p : List A) :
    (branch children).get (a :: p) = (children a).get p := rfl

@[simp] theorem get_ext_append (key p : List A) (child : Trie A V) :
    (ext key child).get (key ++ p) = child.get p := by
  rw [get, if_pos (prefix_append key p), drop_left]

theorem get_ext_of_not_isPrefix (h : ¬ key <+: p) (child : Trie A V) : (ext key child).get p = none := if_neg h

/-- What an extension holds is below its key. -/
theorem get_ext_eq_some {child : Trie A V} {v : V}
    (h : (ext key child).get p = some v) : ∃ q, p = key ++ q ∧ child.get q = some v := by
  by_cases hp : key <+: p
  · obtain ⟨q, rfl⟩ := hp
    exact ⟨q, rfl, by rwa [get_ext_append] at h⟩
  · rw [get_ext_of_not_isPrefix hp] at h
    cases h

end Get

/-! ## The canonical shape -/

/-- The shape of a trie with at least one key. -/
inductive Reduced : Trie A V → Prop
  | ofLeaf (key : List A) (value : V) : Reduced (leaf key value)
  | ofExt {key : List A} {children : A → Trie A V} (hkey : key ≠ []) (hchild : Reduced (branch children)) :
      Reduced (ext key (branch children))
  | ofBranch {children : A → Trie A V} {a b : A} (hab : a ≠ b) (ha : children a ≠ nil)
      (hb : children b ≠ nil) (hchildren : ∀ c, children c ≠ nil → Reduced (children c)) :
      Reduced (branch children)

/-- The shape of any trie. -/
def Canonical (t : Trie A V) : Prop := t = nil ∨ Reduced t

theorem Reduced.ne_nil (h : Reduced t) : t ≠ nil := by
  cases h <;> simp

theorem Canonical.reduced (h : Canonical t) (hne : t ≠ nil) : Reduced t := h.resolve_left hne

variable {children : A → Trie A V}

theorem Reduced.children_of_branch (h : Reduced (branch children)) (c : A) : Canonical (children c) := by
  cases h with
  | ofBranch hab ha hb hchildren =>
    by_cases hc : children c = nil
    · exact .inl hc
    · exact .inr (hchildren c hc)

variable {key : List A}

section Unique

variable [DecidableEq A]

/-- A reduced trie has a key. -/
theorem Reduced.exists_get (h : Reduced t) : ∃ p v, t.get p = some v := by
  induction h with
  | ofLeaf key value => exact ⟨key, value, get_leaf_self key value⟩
  | @ofExt key children _ _ ih =>
    obtain ⟨p, v, hp⟩ := ih
    exact ⟨key ++ p, v, by rw [get_ext_append, hp]⟩
  | @ofBranch children a b _ ha _ _ ih =>
    obtain ⟨p, v, hp⟩ := ih a ha
    exact ⟨a :: p, v, hp⟩

section

variable (h : Reduced (branch children))
include h

/-- A reduced branch has keys with different first digits. -/
theorem Reduced.fork : ∃ a b p q v w, a ≠ b ∧ (branch children).get (a :: p) = some v ∧
      (branch children).get (b :: q) = some w := by
  cases h with
  | @ofBranch _ a b hab ha hb hchildren =>
    obtain ⟨p, v, hp⟩ := (hchildren a ha).exists_get
    obtain ⟨q, w, hq⟩ := (hchildren b hb).exists_get
    exact ⟨a, b, p, q, v, w, hab, hp, hq⟩

omit h in
/-- All keys of a trie start with `key`. -/
def Below (key : List A) (t : Trie A V) : Prop := ∀ p v, t.get p = some v → key <+: p

omit h in
theorem below_leaf (key : List A) (value : V) : Below key (leaf key value) := by
  intro p v h
  rw [(get_leaf_eq_some h).1]

omit h in
theorem below_ext (key : List A) (child : Trie A V) : Below key (ext key child) := by
  intro p v h
  obtain ⟨q, rfl, -⟩ := get_ext_eq_some h
  exact prefix_append key q

theorem Reduced.not_below_of_branch (hkey : key ≠ []) : ¬ Below key (branch children) := by
  intro hbelow
  obtain ⟨a, b, p, q, v, w, hab, hp, hq⟩ := h.fork
  cases key with
  | nil => exact hkey rfl
  | cons c key =>
    have ha := (cons_prefix_cons.1 (hbelow _ _ hp)).1
    have hb := (cons_prefix_cons.1 (hbelow _ _ hq)).1
    exact hab (ha.symm.trans hb)

/-- Of the two keys of extensions that hold the same keys, neither goes further than the other. -/
theorem Reduced.prefix_of_below {key key' : List A} (hbelow : Below key' (ext key (branch children))) :
    key' <+: key := by
  obtain ⟨a, b, p, q, v, w, hab, hp, hq⟩ := h.fork
  have ha := hbelow (key ++ a :: p) v (by rw [get_ext_append, hp])
  have hb := hbelow (key ++ b :: q) w (by rw [get_ext_append, hq])
  by_contra hnot
  -- else both keys go on with the same digit
  rcases prefix_or_prefix_of_prefix ha (prefix_append key (a :: p)) with hle | ⟨rest, rfl⟩
  · exact hnot hle
  · cases rest with
    | nil => exact hnot (by rw [append_nil])
    | cons c rest =>
      rw [prefix_append_right_inj, cons_prefix_cons] at ha hb
      exact hab (ha.1.symm.trans hb.1)

/-- An extension holds more than one key. -/
theorem Reduced.ext_ne_leaf {key key' : List A} {value : V}
    (hget : ∀ p, (ext key (branch children)).get p = (leaf key' value).get p) : False := by
  obtain ⟨a, b, p, q, v, w, hab, hp, hq⟩ := h.fork
  have ha : (leaf key' value).get (key ++ a :: p) = some v := by rw [← hget, get_ext_append, hp]
  have hb : (leaf key' value).get (key ++ b :: q) = some w := by rw [← hget, get_ext_append, hq]
  have heq := (get_leaf_eq_some ha).1.trans (get_leaf_eq_some hb).1.symm
  exact hab (cons.inj (append_cancel_left heq)).1

/-- The keys of a branch start with different digits. -/
theorem Reduced.branch_ne_ext {child : Trie A V} (hkey : key ≠ [])
    (hget : ∀ p, (branch children).get p = (ext key child).get p) : False :=
  h.not_below_of_branch hkey fun p v hv => below_ext key child p v ((hget p).symm.trans hv)

theorem Reduced.branch_ne_leaf {value : V}
    (hget : ∀ p, (branch children).get p = (leaf key value).get p) : False := by
  by_cases hkey : key = []
  · have hnil := hget []
    rw [hkey] at hnil
    cases hnil
  · exact h.not_below_of_branch hkey fun p v hv => below_leaf key value p v ((hget p).symm.trans hv)

end

/-- **A reduced trie is determined by its map.** -/
theorem Reduced.eq_of_get_eq {t t' : Trie A V} (h : Reduced t) (h' : Reduced t')
    (hget : ∀ p, t.get p = t'.get p) : t = t' := by
  have hget' : ∀ p, t'.get p = t.get p := fun p => (hget p).symm
  have hall' := h'
  induction h generalizing t' with
  | ofLeaf key value =>
    cases h' with
    | ofLeaf key' value' =>
      obtain ⟨rfl, rfl⟩ := get_leaf_eq_some ((hget' key).trans (get_leaf_self key value))
      rfl
    | ofExt _ hchild => exact (hchild.ext_ne_leaf hget').elim
    | ofBranch => exact (hall'.branch_ne_leaf hget').elim
  | @ofExt key children hkey hchild ih =>
    cases h' with
    | ofLeaf => exact (hchild.ext_ne_leaf hget).elim
    | ofBranch => exact (hall'.branch_ne_ext hkey hget').elim
    | @ofExt key' children' hkey' hchild' =>
      -- each key is a prefix of the other
      have hle : key <+: key' := hchild'.prefix_of_below fun p v hv =>
        below_ext key (branch children) p v ((hget p).trans hv)
      have hge : key' <+: key := hchild.prefix_of_below fun p v hv =>
        below_ext key' (branch children') p v ((hget' p).trans hv)
      obtain rfl := hle.eq_of_length_le hge.length_le
      have hbelow : ∀ p, (branch children).get p = (branch children').get p := fun p => by
        have hp := hget (key ++ p)
        rwa [get_ext_append, get_ext_append] at hp
      rw [ih hchild' hbelow (fun p => (hbelow p).symm) hchild']
  | @ofBranch children a b hab ha hb hchildren ih =>
    have hall : Reduced (branch children) := .ofBranch hab ha hb hchildren
    cases h' with
    | ofLeaf => exact (hall.branch_ne_leaf hget).elim
    | ofExt hkey' => exact (hall.branch_ne_ext hkey' hget).elim
    | @ofBranch children' =>
      have hsame : children = children' := by
        funext c
        have hc : ∀ p, (children c).get p = (children' c).get p := fun p => hget (c :: p)
        by_cases hnil : children c = nil
        · by_contra hne
          rw [hnil] at hne hc
          obtain ⟨p, v, hp⟩ := ((hall'.children_of_branch c).reduced (Ne.symm hne)).exists_get
          rw [← hc p] at hp
          cases hp
        · have hne : children' c ≠ nil := by
            intro hnil'
            obtain ⟨p, v, hp⟩ := (hchildren c hnil).exists_get
            rw [hc p, hnil'] at hp
            cases hp
          have hr' := (hall'.children_of_branch c).reduced hne
          exact ih c hnil hr' hc (fun p => (hc p).symm) hr'
      rw [hsame]

theorem Canonical.eq_nil_iff (h : Canonical t) : t = nil ↔ ∀ p, t.get p = none := by
  refine ⟨fun heq p => heq ▸ rfl, fun hnone => ?_⟩
  by_contra hne
  obtain ⟨p, v, hp⟩ := (h.reduced hne).exists_get
  rw [hnone p] at hp
  cases hp

/-- **A canonical trie is determined by its map.** -/
theorem Canonical.eq_of_get_eq {t t' : Trie A V} (h : Canonical t) (h' : Canonical t')
    (hget : ∀ p, t.get p = t'.get p) : t = t' := by
  by_cases hnil : t' = nil
  · rw [hnil, h.eq_nil_iff]
    intro p
    rw [hget, hnil]
    rfl
  · have hr' := h'.reduced hnil
    have hne : t ≠ nil := fun heq => by
      obtain ⟨p, v, hp⟩ := hr'.exists_get
      rw [← hget, heq] at hp
      cases hp
    exact (h.reduced hne).eq_of_get_eq hr' hget

end Unique

/-! ## Putting tries together -/

/-- The trie with `key` before every key, with no extension above a leaf or another extension. -/
def join (key : List A) : Trie A V → Trie A V
  | nil => nil
  | leaf k v => leaf (key ++ k) v
  | ext k child => ext (key ++ k) child
  | branch children => ext key (branch children)

/-- An extension above a trie, unless its key is empty. -/
def wrap (key : List A) (t : Trie A V) : Trie A V :=
  match key with
  | [] => t
  | a :: p => ext (a :: p) t

theorem Reduced.join (h : Reduced t) (hkey : key ≠ []) : Reduced (t.join key) := by
  cases h with
  | ofLeaf k v => exact .ofLeaf (key ++ k) v
  | ofExt _ hchild => exact .ofExt (by simp [hkey]) hchild
  | ofBranch hab ha hb hchildren => exact .ofExt hkey (.ofBranch hab ha hb hchildren)

theorem Reduced.wrap (h : Reduced (branch children)) : Reduced ((branch children).wrap key) := by
  cases key with
  | nil => exact h
  | cons a key => exact .ofExt (cons_ne_nil a key) h

section Build

variable [DecidableEq A]

theorem get_join_append (key p : List A) (t : Trie A V) : (t.join key).get (key ++ p) = t.get p := by
  cases t with
  | nil => rfl
  | leaf k v => simp only [join, get_leaf, append_cancel_left_eq]
  | ext k child =>
    by_cases hk : k <+: p
    · obtain ⟨q, rfl⟩ := hk
      rw [join, ← append_assoc, get_ext_append, get_ext_append]
    · rw [join, get_ext_of_not_isPrefix hk, get_ext_of_not_isPrefix]
      rwa [prefix_append_right_inj]
  | branch children => rw [join, get_ext_append]

theorem get_join_of_not_isPrefix (h : ¬ key <+: p) (t : Trie A V) : (t.join key).get p = none := by
  cases t with
  | nil => rfl
  | leaf k v =>
    rw [join, get_leaf, if_neg]
    rintro rfl
    exact h (prefix_append key k)
  | ext k child =>
    exact get_ext_of_not_isPrefix (fun hp => h ((prefix_append key k).trans hp)) child
  | branch children => exact get_ext_of_not_isPrefix h _

theorem get_wrap_append (key p : List A) (t : Trie A V) : (t.wrap key).get (key ++ p) = t.get p := by
  cases key with
  | nil => rfl
  | cons a key => exact get_ext_append (a :: key) p t

theorem get_wrap_of_not_isPrefix (h : ¬ key <+: p) (t : Trie A V) : (t.wrap key).get p = none := by
  cases key with
  | nil => exact absurd nil_prefix h
  | cons a key => exact get_ext_of_not_isPrefix h t

/-- A branch that gets a child. -/
theorem Reduced.update (h : Reduced (branch children)) (a : A)
    (ht : Reduced t) : Reduced (branch (Function.update children a t)) := by
  have hne : ∀ c, children c ≠ nil → Function.update children a t c ≠ nil := by
    intro c hc
    by_cases hca : c = a
    · rw [hca, update_self]
      exact ht.ne_nil
    · rwa [update_of_ne hca]
  cases h with
  | @ofBranch _ b c hbc hb hc hchildren =>
    refine .ofBranch hbc (hne b hb) (hne c hc) fun d hd => ?_
    by_cases hda : d = a
    · rw [hda, update_self]
      exact ht
    · rw [update_of_ne hda] at hd ⊢
      exact hchildren d hd

theorem get_branch_update (children : A → Trie A V) (a : A) (t : Trie A V) (b : A) (p : List A) :
    (branch (update children a t)).get (b :: p)
      = if b = a then t.get p else (children b).get p := by
  rw [get_branch_cons]
  by_cases hba : b = a
  · rw [if_pos hba, hba, update_self]
  · rw [if_neg hba, update_of_ne hba]

/-- Two tries below the digits after a key. -/
def fork (key : List A) (a : A) (t : Trie A V) (b : A) (u : Trie A V) : Trie A V :=
  (branch (update (update (fun _ => nil) a t) b u)).wrap key

theorem reduced_fork (key : List A) {a b : A} (hab : a ≠ b) {t u : Trie A V} (ht : Reduced t)
    (hu : Reduced u) : Reduced (fork key a t b u) := by
  have ha : update (update (fun _ => nil) a t) b u a = t := by
    rw [update_of_ne hab, update_self]
  refine Reduced.wrap (.ofBranch hab (by rw [ha]; exact ht.ne_nil) (by simpa using hu.ne_nil) ?_)
  intro c hc
  by_cases hcb : c = b
  · rw [hcb, update_self]
    exact hu
  · rw [update_of_ne hcb] at hc ⊢
    by_cases hca : c = a
    · rw [hca, update_self]
      exact ht
    · rw [update_of_ne hca] at hc
      exact absurd rfl hc

/-- The map of a fork with a leaf on one side: what was below the other side, and the leaf. -/
theorem get_fork_leaf {a b : A} (hab : a ≠ b) {t old : Trie A V} {rest : List A} {v : V}
    (hbelow : ∀ q, old.get (key ++ a :: q) = t.get q)
    (hother : ∀ p, ¬ key ++ [a] <+: p → old.get p = none) (p : List A) :
    (fork key a t b (leaf rest v)).get p = if p = key ++ b :: rest then some v else old.get p := by
  by_cases hkey : key <+: p
  · obtain ⟨q, rfl⟩ := hkey
    rw [fork, get_wrap_append]
    cases q with
    | nil =>
      rw [append_nil, if_neg (fun h => by simpa using congrArg length h)]
      exact (hother key fun h => absurd h.length_le (by simp)).symm
    | cons c q =>
      rw [get_branch_update]
      by_cases hcb : c = b
      · subst hcb
        rw [if_pos rfl, get_leaf, hother]
        · simp only [append_cancel_left_eq, cons.injEq, true_and]
        · rw [prefix_append_right_inj, cons_prefix_cons]
          exact fun h => hab h.1
      · have hne : key ++ c :: q ≠ key ++ b :: rest := fun h =>
          hcb (cons.inj (append_cancel_left h)).1
        rw [if_neg hcb, if_neg hne]
        by_cases hca : c = a
        · rw [hca, update_self, hbelow]
        · rw [update_of_ne hca, hother]
          · rfl
          · rw [prefix_append_right_inj, cons_prefix_cons]
            exact fun h => hca h.1.symm
  · rw [fork, get_wrap_of_not_isPrefix hkey, if_neg, hother]
    · exact fun h => hkey ((prefix_append key [a]).trans h)
    · rintro rfl
      exact hkey (prefix_append key _)

/-! ## A branch that lost a child -/

theorem get_branch_of_all_nil (h : ∀ a, children a = nil) (p : List A) : (branch children).get p = none := by
  cases p with
  | nil => rfl
  | cons a p => rw [get_branch_cons, h a, get_nil]

/-- A branch with one child reads as that child, joined to its digit. -/
theorem get_join_of_one_child {a : A} (h : ∀ b, b ≠ a → children b = nil)
    (p : List A) : ((children a).join [a]).get p = (branch children).get p := by
  by_cases hp : [a] <+: p
  · obtain ⟨q, rfl⟩ := hp
    rw [get_join_append]
    rfl
  · rw [get_join_of_not_isPrefix hp]
    cases p with
    | nil => rfl
    | cons b p =>
      have hba : b ≠ a := fun heq => hp (heq ▸ ⟨p, rfl⟩)
      rw [get_branch_cons, h b hba, get_nil]

end Build

end Trie

end Patricia
