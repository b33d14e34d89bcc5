import Mathlib.Data.Finset.Card
import Mathlib.Data.Nat.Find
import Mathlib.Data.Nat.ModEq

/-!
# Open addressing with linear probing and backward-shift deletion

A table of `m` positions holds slot numbers; a slot has a home position, and an entry stands at the
first position from its home that was free when it came in. Deletion leaves no tombstone: it closes
the hole by moving later entries of the probe chain back.

`Valid` says that the table holds exactly the live slots, each once, and that no probe path from a
home to its entry crosses an empty position. The three operations keep it (`insert_valid`,
`remove_valid`), and under it a search finds a live slot and nothing else (`find_eq_some`,
`find_eq_none`). So a valid table is determined, as far as searches go, by its live slots: two tables
filled in different orders answer alike.
-/

namespace ProbeTable

open Function Nat Option Finset

/-- A table: the slot at each position, `none` for an empty one. Only positions below `m` matter. -/
abbrev Table := Nat → Option Nat

/-- The position after `i`, around the table. -/
def next (m i : Nat) : Nat := (i + 1) % m

/-- The distance from `a` on to `b`, around the table. -/
def dist (m a b : Nat) : Nat := (b + m - a) % m

/-- The first position from `i` on where `stop` holds, within `fuel` steps. -/
def seek (m : Nat) (stop : Nat → Bool) : Nat → Nat → Nat
  | 0, i => i
  | fuel + 1, i => if stop i then i else seek m stop fuel (next m i)

/-- Search from position `h`: the probe stops at a matching slot or at the first empty position. -/
def find (m : Nat) (isMatch : Nat → Bool) (t : Table) (h : Nat) : Option Nat :=
  t (seek m (fun i => (t i).all isMatch) m h)

/-- Put `slot` at the first empty position from `h` on. -/
def insert (m : Nat) (t : Table) (h slot : Nat) : Table :=
  update t (seek m (fun i => (t i).isNone) m h) (some slot)

/-- Close `hole`: walk from `i` to the end of the chain, and move an entry back into the hole when
its home allows it. -/
def shift (m : Nat) (home : Nat → Nat) : Nat → Nat → Nat → Table → Table
  | 0, _, _, t => t
  | fuel + 1, hole, i, t =>
    match t i with
    | none => t
    | some s =>
      if dist m hole i ≤ dist m (home s) i then
        shift m home fuel i (next m i) (update (update t hole (some s)) i none)
      else shift m home fuel hole (next m i) t

/-- Remove the matching slot, which the search from `h` meets. -/
def remove (m : Nat) (home : Nat → Nat) (isMatch : Nat → Bool) (t : Table) (h : Nat) : Table :=
  let hole := seek m (fun i => (t i).any isMatch) m h
  shift m home m hole (next m hole) (update t hole none)

variable {m : Nat} {home : Nat → Nat} {t : Table}

/-! ## Positions around the table -/

theorem add_mod_inj {a x y : Nat} (hx : x < m) (hy : y < m) (h : (a + x) % m = (a + y) % m) :
    x = y :=
  ModEq.eq_of_lt_of_lt (ModEq.add_left_cancel' a h) hx hy

/-- Fewer steps than around the table lead elsewhere. -/
theorem add_mod_ne {a x : Nat} (ha : a < m) (h0 : 0 < x) (hx : x < m) : (a + x) % m ≠ a := by
  intro h
  have := add_mod_inj hx (h0.trans hx) (h.trans (mod_eq_of_lt ha).symm)
  omega

theorem dist_lt (hm : 0 < m) (a b : Nat) : dist m a b < m := mod_lt _ hm

/-- Walking the distance from `a` leads to `b`. -/
theorem add_dist {a b : Nat} (ha : a < m) (hb : b < m) : (a + dist m a b) % m = b := by
  unfold dist
  rw [add_mod_mod, show a + (b + m - a) = b + m by omega, add_mod_right, mod_eq_of_lt hb]

theorem dist_eq {a b x : Nat} (ha : a < m) (hx : x < m) (h : (a + x) % m = b) : dist m a b = x := by
  have hm : 0 < m := by omega
  have hb : b < m := h ▸ mod_lt _ hm
  exact add_mod_inj (dist_lt hm a b) hx ((add_dist ha hb).trans h.symm)

variable {stop : Nat → Bool} {h : Nat}

/-- A bounded search finds the first stopping position, given that one is in reach. -/
theorem seek_eq {d : Nat} (hm : 0 < m) :
    ∀ {fuel : Nat}, d < fuel → stop ((h + d) % m) = true →
      (∀ e < d, stop ((h + e) % m) = false) → h < m → seek m stop fuel h = (h + d) % m := by
  induction d generalizing h with
  | zero =>
    intro fuel hfuel hstop _ hh
    obtain ⟨n, rfl⟩ : ∃ n, fuel = n + 1 := ⟨fuel - 1, by omega⟩
    rw [Nat.add_zero, mod_eq_of_lt hh] at hstop
    rw [seek, if_pos hstop, Nat.add_zero, mod_eq_of_lt hh]
  | succ d ih =>
    intro fuel hfuel hstop hbefore hh
    obtain ⟨n, rfl⟩ : ∃ n, fuel = n + 1 := ⟨fuel - 1, by omega⟩
    have hshift : ∀ e, (next m h + e) % m = (h + (e + 1)) % m := fun e => by
      rw [next, mod_add_mod, Nat.add_assoc, Nat.add_comm 1 e]
    have h0 := hbefore 0 (by omega)
    rw [Nat.add_zero, mod_eq_of_lt hh] at h0
    have hrest : seek m stop n (next m h) = (next m h + d) % m :=
      ih (by omega) (by rw [hshift]; exact hstop)
        (fun e he => by rw [hshift]; exact hbefore (e + 1) (by omega)) (mod_lt _ hm)
    rw [seek, if_neg (by simp [h0]), hrest, hshift]

/-! ## Valid tables -/

/-- The probe path of slot `s` to position `p`: every position before it, from the home on, is
taken. -/
def Path (m : Nat) (home : Nat → Nat) (t : Table) (s p : Nat) : Prop :=
  ∃ d < m, (home s + d) % m = p ∧ ∀ e < d, t ((home s + e) % m) ≠ none

/-- The table holds exactly the live slots, each once, in reach of its home. At most `n` slots are
live, and `n < m`, so the table always has an empty position. -/
structure Valid (m n : Nat) (home : Nat → Nat) (t : Table) (live : Nat → Prop) : Prop where
  slots_lt : n < m
  live_lt : ∀ s, live s → s < n
  home_lt : ∀ s, live s → home s < m
  live_of_at : ∀ p < m, ∀ s, t p = some s → live s
  at_of_live : ∀ s, live s → ∃ p < m, t p = some s
  inj : ∀ p < m, ∀ q < m, ∀ s, t p = some s → t q = some s → p = q
  path : ∀ p < m, ∀ s, t p = some s → Path m home t s p

variable {n : Nat} {live : Nat → Prop} {isMatch : Nat → Bool}

section

variable (hv : Valid m n home t live)
include hv

theorem Valid.pos : 0 < m := Nat.lt_of_le_of_lt (Nat.zero_le n) hv.slots_lt

omit hv in
/-- The table with no entry. -/
theorem valid_empty (h : n < m) : Valid m n home (fun _ => none) fun _ => False where
  slots_lt := h
  live_lt _ h := h.elim
  home_lt _ h := h.elim
  live_of_at := by simp
  at_of_live _ h := h.elim
  inj := by simp
  path := by simp

/-- Only the homes of live slots matter. -/
theorem Valid.congr_home {home' : Nat → Nat} (h : ∀ s, live s → home' s = home s) : Valid m n home' t live :=
  { hv with
    home_lt := fun s hs => h s hs ▸ hv.home_lt s hs
    path := fun p hp s hs => by
      have := hv.path p hp s hs
      unfold Path at this ⊢
      rwa [h s (hv.live_of_at p hp s hs)] }

theorem Valid.congr_live {live' : Nat → Prop} (h : ∀ s, live' s ↔ live s) : Valid m n home t live' := by
  have : live' = live := funext fun s => propext (h s)
  exact this ▸ hv

/-- More positions than slots: some position is empty. -/
theorem Valid.exists_empty : ∃ p < m, t p = none := by
  by_contra hno
  have hfull : ∀ p < m, ∃ s, t p = some s := fun p hp =>
    ne_none_iff_exists'.1 fun h => hno ⟨p, hp, h⟩
  -- `t` would map the positions into the slots without a collision
  obtain ⟨p, hp, q, hq, hne, heq⟩ :=
    exists_ne_map_eq_of_card_lt_of_maps_to (s := range m) (t := range n)
      (f := fun p => (t p).getD 0) (by simpa using hv.slots_lt) (by
        intro p hp
        obtain ⟨s, hs⟩ := hfull p (by simpa using hp)
        simpa [hs] using hv.live_lt s (hv.live_of_at p (by simpa using hp) s hs))
  rw [mem_range] at hp hq
  obtain ⟨s, hs⟩ := hfull p hp
  obtain ⟨s', hs'⟩ := hfull q hq
  have : s = s' := by simpa [hs, hs'] using heq
  exact hne (hv.inj p hp q hq s hs (this ▸ hs'))

/-- The first empty position from `h` on, as a distance. -/
theorem Valid.exists_first_empty (hh : h < m) :
    ∃ d < m, t ((h + d) % m) = none ∧ ∀ e < d, t ((h + e) % m) ≠ none := by
  classical
  obtain ⟨p, hp, hnone⟩ := hv.exists_empty
  have hex : ∃ d, d < m ∧ t ((h + d) % m) = none :=
    ⟨dist m h p, dist_lt hv.pos h p, by rw [add_dist hh hp]; exact hnone⟩
  refine ⟨Nat.find hex, (Nat.find_spec hex).1, (Nat.find_spec hex).2, fun e he hnone => ?_⟩
  exact Nat.find_min hex he ⟨he.trans (Nat.find_spec hex).1, hnone⟩

/-! ## Searching -/

/-- A search from the home of a live slot passes the other slots and stops at it. -/
theorem Valid.seek_eq_at {s p : Nat} (hp : p < m) (hps : t p = some s) (hstop : stop p = true)
    (hpass : ∀ q < m, ∀ s', live s' → t q = some s' → s' ≠ s → stop q = false) :
    seek m stop m (home s) = p := by
  obtain ⟨d, hd, rfl, hpath⟩ := hv.path p hp s hps
  refine seek_eq hv.pos hd hstop (fun e he => ?_) (hv.home_lt s (hv.live_of_at _ hp s hps))
  obtain ⟨s', hs'⟩ := ne_none_iff_exists'.1 (hpath e he)
  have hlt : (home s + e) % m < m := mod_lt _ hv.pos
  refine hpass _ hlt s' (hv.live_of_at _ hlt s' hs') hs' ?_
  rintro rfl
  exact he.ne (add_mod_inj (he.trans hd) hd (hv.inj _ hlt _ hp s' hs' hps))

/-- A search from the home of a live slot finds it, when no other live slot matches. -/
theorem find_eq_some {s : Nat} (hs : live s) (hmatch : ∀ s', live s' → (isMatch s' = true ↔ s' = s)) :
    find m isMatch t (home s) = some s := by
  obtain ⟨p, hp, hps⟩ := hv.at_of_live s hs
  have hstop : seek m (fun i => (t i).all isMatch) m (home s) = p := by
    refine hv.seek_eq_at hp hps (by simp [hps, (hmatch s hs).2 rfl]) fun q _ s' hl hq hne => ?_
    simpa [hq] using mt (hmatch s' hl).1 hne
  rw [find, hstop, hps]

/-- A search that no live slot matches ends at an empty position. -/
theorem find_eq_none (hh : h < m)
    (hmatch : ∀ s, live s → isMatch s = false) : find m isMatch t h = none := by
  obtain ⟨d, hd, hnone, hbefore⟩ := hv.exists_first_empty hh
  have hstop : seek m (fun i => (t i).all isMatch) m h = (h + d) % m := by
    refine seek_eq hv.pos hd (by simp [hnone]) ?_ hh
    intro e he
    obtain ⟨s, hs⟩ := ne_none_iff_exists'.1 (hbefore e he)
    simp [hs, hmatch s (hv.live_of_at _ (mod_lt _ hv.pos) s hs)]
  rw [find, hstop, hnone]

/-! ## Inserting -/

omit hv in
/-- Taking a free position breaks no path. -/
theorem Path.update_some {s p i s' : Nat} (h : Path m home t s p) :
    Path m home (update t i (some s')) s p := by
  obtain ⟨d, hd, hdp, hpath⟩ := h
  refine ⟨d, hd, hdp, fun e he => ?_⟩
  by_cases hi : (home s + e) % m = i
  · rw [hi, update_self]; exact some_ne_none _
  · rw [update_of_ne hi]; exact hpath e he

theorem insert_valid {s : Nat} (hs : ¬ live s) (hsn : s < n)
    (hhome : home s < m) : Valid m n home (insert m t (home s) s) fun x => live x ∨ x = s := by
  obtain ⟨d, hd, hnone, hbefore⟩ := hv.exists_first_empty hhome
  set i := (home s + d) % m with hi
  have hilt : i < m := mod_lt _ hv.pos
  have hseek : seek m (fun i => (t i).isNone) m (home s) = i := by
    refine seek_eq hv.pos hd (by simpa using hnone) (fun e he => ?_) hhome
    simpa using isSome_iff_ne_none.2 (hbefore e he)
  have hins : insert m t (home s) s = update t i (some s) := by rw [insert, hseek]
  have hat : ∀ p < m, ∀ x, update t i (some s) p = some x ↔
      (p = i ∧ x = s) ∨ (p ≠ i ∧ t p = some x) := by
    intro p _ x
    by_cases hpi : p = i
    · subst hpi; simp [eq_comm]
    · simp [hpi]
  rw [hins]
  constructor
  · exact hv.slots_lt
  · rintro x (hx | rfl)
    exacts [hv.live_lt x hx, hsn]
  · rintro x (hx | rfl)
    exacts [hv.home_lt x hx, hhome]
  · intro p hp x hx
    rcases (hat p hp x).1 hx with ⟨-, rfl⟩ | ⟨-, hx⟩
    exacts [.inr rfl, .inl (hv.live_of_at p hp x hx)]
  · rintro x (hx | rfl)
    · obtain ⟨p, hp, hpx⟩ := hv.at_of_live x hx
      have hpi : p ≠ i := by rintro rfl; rw [hnone] at hpx; cases hpx
      exact ⟨p, hp, (hat p hp x).2 (.inr ⟨hpi, hpx⟩)⟩
    · exact ⟨i, hilt, update_self ..⟩
  · intro p hp q hq x hpx hqx
    rcases (hat p hp x).1 hpx with ⟨rfl, rfl⟩ | ⟨-, hpx⟩ <;>
      rcases (hat q hq _).1 hqx with ⟨rfl, hqs⟩ | ⟨-, hqx⟩
    · rfl
    · exact absurd (hv.live_of_at q hq _ hqx) hs
    · exact absurd (hqs ▸ hv.live_of_at p hp _ hpx) hs
    · exact hv.inj p hp q hq x hpx hqx
  · intro p hp x hx
    rcases (hat p hp x).1 hx with ⟨rfl, rfl⟩ | ⟨-, hx⟩
    · exact Path.update_some ⟨d, hd, hi.symm, hbefore⟩
    · exact (hv.path p hp x hx).update_some

end

/-! ## Removing

While the hole moves along the chain, every path is whole but possibly at the hole, and the entries
already passed, between the hole and the walk, have whole paths. When the walk meets an empty
position, no entry beyond it can have a path through the hole, so every path is whole. -/

/-- The probe path of `s` to `p`, whole but possibly at `hole`. -/
def PathBut (m : Nat) (home : Nat → Nat) (t : Table) (hole s p : Nat) : Prop :=
  ∃ d < m, (home s + d) % m = p ∧ ∀ e < d, (home s + e) % m ≠ hole → t ((home s + e) % m) ≠ none

theorem Path.pathBut {s p : Nat} (h : Path m home t s p) (hole : Nat) :
    PathBut m home (update t hole none) hole s p := by
  obtain ⟨d, hd, hdp, hpath⟩ := h
  exact ⟨d, hd, hdp, fun e he hne => by rw [update_of_ne hne]; exact hpath e he⟩

/-- The state of the walk: the hole is empty, the walk is `c` positions past it, and an empty
position ends the chain `w` positions past it. -/
structure Closing (m n : Nat) (home : Nat → Nat) (t : Table) (live : Nat → Prop)
    (hole c w : Nat) : Prop where
  slots_lt : n < m
  live_lt : ∀ s, live s → s < n
  home_lt : ∀ s, live s → home s < m
  live_of_at : ∀ p < m, ∀ s, t p = some s → live s
  at_of_live : ∀ s, live s → ∃ p < m, t p = some s
  inj : ∀ p < m, ∀ q < m, ∀ s, t p = some s → t q = some s → p = q
  hole_lt : hole < m
  hole_none : t hole = none
  pathBut : ∀ p < m, ∀ s, t p = some s → PathBut m home t hole s p
  passed : ∀ x, 0 < x → x < c → ∀ s, t ((hole + x) % m) = some s → Path m home t s ((hole + x) % m)
  walk_pos : 0 < c
  walk_le : c ≤ w
  end_lt : w < m
  end_none : t ((hole + w) % m) = none

section

variable {hole c w s : Nat} (hc : Closing m n home t live hole c w)
include hc

/-- The walk has not come to the end of the chain while it meets entries. -/
theorem Closing.walk_lt (hs : t ((hole + c) % m) = some s) : c < w := by
  refine lt_of_le_of_ne hc.walk_le ?_
  rintro rfl
  exact some_ne_none s (hs.symm.trans hc.end_none)

/-- At an empty position the walk is over and the table is valid. -/
theorem Closing.valid (hend : t ((hole + c) % m) = none) : Valid m n home t live := by
  refine { hc with path := ?_ }
  intro p hp s hs
  obtain ⟨d, hd, hdp, hbut⟩ := hc.pathBut p hp s hs
  refine ⟨d, hd, hdp, fun e he => ?_⟩
  by_cases hhole : (home s + e) % m = hole
  swap
  · exact hbut e he hhole
  -- the path crosses the hole, `x` positions before `p`
  exfalso
  obtain ⟨x, rfl⟩ : ∃ x, d = e + x := ⟨d - e, by omega⟩
  have hfrom : ∀ y, (hole + y) % m = (home s + (e + y)) % m := fun y => by
    rw [← hhole, mod_add_mod, Nat.add_assoc]
  have hpx : (hole + x) % m = p := by rw [hfrom, hdp]
  rcases Nat.lt_trichotomy x c with hxc | rfl | hcx
  · -- `p` was passed, so its path is whole, but it crosses the empty hole
    obtain ⟨d', hd', hdp', hwhole⟩ := hc.passed x (by omega) hxc s (hpx ▸ hs)
    have hdd : d' = e + x := add_mod_inj hd' hd (hdp'.trans (hpx.trans hdp.symm))
    exact hwhole e (by omega) (hhole ▸ hc.hole_none)
  · rw [hpx, hs] at hend
    cases hend
  · -- the end of the chain lies on the path
    have hne := add_mod_ne hc.hole_lt hc.walk_pos (by omega)
    rw [hfrom] at hne hend
    exact hbut (e + c) (by omega) hne hend

/-- An entry whose home lies after the hole stays where it is: its path does not cross the hole. -/
theorem Closing.keep (hs : t ((hole + c) % m) = some s)
    (hmove : ¬ dist m hole ((hole + c) % m) ≤ dist m (home s) ((hole + c) % m)) :
    Closing m n home t live hole (c + 1) w := by
  have hcm : c < m := lt_of_le_of_lt hc.walk_le hc.end_lt
  have hlt : (hole + c) % m < m := mod_lt _ (by omega)
  obtain ⟨d, hd, hdp, hbut⟩ := hc.pathBut _ hlt s hs
  have hhome := hc.home_lt s (hc.live_of_at _ hlt s hs)
  rw [dist_eq hc.hole_lt hcm rfl, dist_eq hhome hd hdp] at hmove
  refine { hc with passed := ?_, walk_pos := by omega, walk_le := hc.walk_lt hs }
  intro x hx hxc s' hs'
  rcases Nat.lt_succ_iff_lt_or_eq.1 hxc with hxc | rfl
  · exact hc.passed x hx hxc s' hs'
  · obtain rfl : s = s' := by rw [hs] at hs'; exact some.inj hs'
    refine ⟨d, hd, hdp, fun e he => hbut e he fun hhole => ?_⟩
    -- a crossing would put the home at or before the hole
    have heq : (home s + d + (e + x - d)) % m = (home s + d + 0) % m := by
      rw [Nat.add_zero, hdp, Nat.add_assoc, Nat.add_sub_cancel' (by omega), ← Nat.add_assoc,
        ← mod_add_mod (home s + e), hhole]
    have := add_mod_inj (by omega) (by omega) heq
    omega

/-- Moving the entry back: its old position becomes the hole. -/
theorem Closing.move (hs : t ((hole + c) % m) = some s)
    (hmove : dist m hole ((hole + c) % m) ≤ dist m (home s) ((hole + c) % m)) :
    Closing m n home (update (update t hole (some s)) ((hole + c) % m) none) live
      ((hole + c) % m) 1 (w - c) := by
  have hcm : c < m := lt_of_le_of_lt hc.walk_le hc.end_lt
  have hne := add_mod_ne hc.hole_lt hc.walk_pos hcm
  set i := (hole + c) % m with hi
  have hlt : i < m := mod_lt _ (by omega)
  obtain ⟨d, hd, hdp, hbut⟩ := hc.pathBut i hlt s hs
  have hhome := hc.home_lt s (hc.live_of_at _ hlt s hs)
  rw [dist_eq hc.hole_lt hcm hi.symm, dist_eq hhome hd hdp] at hmove
  have hcw := hc.walk_lt hs
  -- what stands where after the move
  have hat : ∀ p, ∀ x, update (update t hole (some s)) i none p = some x ↔
      (p = hole ∧ x = s) ∨ (p ≠ hole ∧ p ≠ i ∧ t p = some x) := by
    intro p x
    by_cases hpi : p = i
    · subst hpi
      simp [hne]
    · by_cases hph : p = hole
      · subst hph
        simp [hpi, eq_comm]
      · simp [hpi, hph]
  have htaken : ∀ p, p ≠ i → (p ≠ hole → t p ≠ none) →
      update (update t hole (some s)) i none p ≠ none := by
    intro p hpi hp
    by_cases hph : p = hole
    · subst hph; simp [hpi]
    · simpa [hpi, hph] using hp hph
  -- the hole lies on the path, so the moved entry's new path is a part of it
  have hback : (home s + (d - c)) % m = hole := by
    have h1 : ((home s + (d - c)) % m + c) % m = (hole + c) % m := by
      rw [mod_add_mod, Nat.add_assoc, Nat.sub_add_cancel hmove, hdp]
    have h2 := ModEq.add_right_cancel' c h1
    unfold ModEq at h2
    rwa [mod_mod, mod_eq_of_lt hc.hole_lt] at h2
  constructor
  · exact hc.slots_lt
  · exact hc.live_lt
  · exact hc.home_lt
  · intro p hp x hx
    rcases (hat p x).1 hx with ⟨-, rfl⟩ | ⟨-, -, hx⟩
    exacts [hc.live_of_at i hlt x hs, hc.live_of_at p hp x hx]
  · intro x hx
    obtain ⟨p, hp, hpx⟩ := hc.at_of_live x hx
    by_cases hpi : p = i
    · subst hpi
      rw [hs] at hpx
      exact ⟨hole, hc.hole_lt, (hat hole x).2 (.inl ⟨rfl, (some.inj hpx).symm⟩)⟩
    · have hph : p ≠ hole := by rintro rfl; rw [hc.hole_none] at hpx; cases hpx
      exact ⟨p, hp, (hat p x).2 (.inr ⟨hph, hpi, hpx⟩)⟩
  · intro p hp q hq x hpx hqx
    rcases (hat p x).1 hpx with ⟨hph, hps⟩ | ⟨-, hpi, hpt⟩ <;>
      rcases (hat q x).1 hqx with ⟨hqh, hqs⟩ | ⟨-, hqi, hqt⟩
    · rw [hph, hqh]
    · exact absurd (hc.inj q hq i hlt x hqt (hps ▸ hs)) hqi
    · exact absurd (hc.inj p hp i hlt x hpt (hqs ▸ hs)) hpi
    · exact hc.inj p hp q hq x hpt hqt
  · exact hlt
  · exact update_self ..
  · intro p hp x hx
    rcases (hat p x).1 hx with ⟨rfl, rfl⟩ | ⟨hph, hpi, hx⟩
    · refine ⟨d - c, by omega, hback, fun e he hei => htaken _ hei fun hep => ?_⟩
      exact hbut e (by omega) hep
    · obtain ⟨d', hd', hdp', hbut'⟩ := hc.pathBut p hp x hx
      exact ⟨d', hd', hdp', fun e he hei => htaken _ hei (hbut' e he)⟩
  · intro x hx hx1
    omega
  · exact Nat.one_pos
  · omega
  · have := hc.end_lt
    omega
  · -- the end of the chain is still empty: it is neither the hole nor the walk
    have hpos : (i + (w - c)) % m = (hole + w) % m := by
      rw [mod_add_mod, Nat.add_assoc, Nat.add_sub_cancel' hcw.le]
    rw [hpos]
    have hwh := add_mod_ne hc.hole_lt (by omega) hc.end_lt
    by_cases hwi : (hole + w) % m = i
    · rw [hwi, update_self]
    · rw [update_of_ne hwi, update_of_ne hwh, hc.end_none]

end

/-- The walk ends in a valid table, given fuel to reach the end of the chain. -/
theorem shift_valid {hole c w fuel : Nat} (hc : Closing m n home t live hole c w)
    (hfuel : w - c < fuel) :
    Valid m n home (shift m home fuel hole ((hole + c) % m) t) live := by
  induction fuel generalizing t hole c w with
  | zero => omega
  | succ fuel ih =>
    have hnext : ∀ a x, next m ((a + x) % m) = (a + (x + 1)) % m := fun a x => by
      rw [next, mod_add_mod, Nat.add_assoc]
    cases hi : t ((hole + c) % m) with
    | none =>
      rw [shift, hi]
      exact hc.valid hi
    | some s =>
      have hcw := hc.walk_lt hi
      rw [shift, hi]
      dsimp only
      split
      case isTrue hmove =>
        have := ih (hc.move hi hmove) (by omega)
        rwa [show ((hole + c) % m + 1) % m = next m ((hole + c) % m) from rfl] at this
      case isFalse hmove =>
        have := ih (hc.keep hi hmove) (by omega)
        rwa [← hnext] at this

theorem remove_valid (hv : Valid m n home t live) {s : Nat} (hs : live s)
    (hmatch : ∀ s', live s' → (isMatch s' = true ↔ s' = s)) :
    Valid m n home (remove m home isMatch t (home s)) fun x => live x ∧ x ≠ s := by
  obtain ⟨hole, hlt, hhole⟩ := hv.at_of_live s hs
  have hseek : seek m (fun i => (t i).any isMatch) m (home s) = hole := by
    refine hv.seek_eq_at hlt hhole (by simp [hhole, (hmatch s hs).2 rfl]) fun q _ s' hl hq hne => ?_
    simpa [hq] using mt (hmatch s' hl).1 hne
  -- some other position is empty already, and it ends the chain
  obtain ⟨q, hq, hqn⟩ := hv.exists_empty
  have hqh : q ≠ hole := by rintro rfl; rw [hhole] at hqn; cases hqn
  set w := dist m hole q with hw
  have hwq : (hole + w) % m = q := add_dist hlt hq
  have hw0 : 0 < w := by
    rcases Nat.eq_zero_or_pos w with h0 | hpos
    · rw [h0, Nat.add_zero, mod_eq_of_lt hlt] at hwq
      exact absurd hwq.symm hqh
    · exact hpos
  have hat : ∀ p x, update t hole none p = some x ↔ p ≠ hole ∧ t p = some x := by
    intro p x
    by_cases hp : p = hole
    · subst hp; simp
    · simp [hp]
  have hc : Closing m n home (update t hole none) (fun x => live x ∧ x ≠ s) hole 1 w := by
    constructor
    · exact hv.slots_lt
    · exact fun x hx => hv.live_lt x hx.1
    · exact fun x hx => hv.home_lt x hx.1
    · intro p hp x hx
      obtain ⟨hph, hx⟩ := (hat p x).1 hx
      refine ⟨hv.live_of_at p hp x hx, ?_⟩
      rintro rfl
      exact hph (hv.inj p hp hole hlt x hx hhole)
    · rintro x ⟨hx, hxs⟩
      obtain ⟨p, hp, hpx⟩ := hv.at_of_live x hx
      refine ⟨p, hp, (hat p x).2 ⟨?_, hpx⟩⟩
      rintro rfl
      rw [hhole] at hpx
      exact hxs (some.inj hpx).symm
    · intro p hp q' hq' x hpx hqx
      exact hv.inj p hp q' hq' x ((hat p x).1 hpx).2 ((hat q' x).1 hqx).2
    · exact hlt
    · exact update_self ..
    · exact fun p hp x hx => (hv.path p hp x ((hat p x).1 hx).2).pathBut hole
    · intro x hx hx1
      omega
    · exact Nat.one_pos
    · exact hw0
    · exact dist_lt hv.pos hole q
    · rw [hwq, update_of_ne hqh, hqn]
  have := (shift_valid hc (by have := hc.end_lt; omega) : Valid m n home (shift m home m _ _ _) _)
  rw [remove, hseek]
  exact this

end ProbeTable
