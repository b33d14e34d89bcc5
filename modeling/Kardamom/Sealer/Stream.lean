import Kardamom.Lib.Run
import Kardamom.Lib.Tiling
import Kardamom.Sealer.Effects

/-!
# The canonical stream

What a consumer of the sealer may rely on, stated without the sealer: a stream of entries and block
boundaries grown one emission at a time. `Stream` lists the two ways it can grow. The numbering of
the entries, the shape of the blocks and the order of the boundaries follow from it alone.
-/

namespace Kardamom.Sealer

open CanonicalSealerState (Emission Entry EntryKind)
open List Machine Option

/-- Where a stream stands: what the next emission builds on. -/
structure StreamCursor where
  /-- The next canonical index. -/
  count : Int
  /-- The open block. -/
  block : Int
  /-- The time of the last boundary. -/
  time : Int
  origin : Int64
  /-- Whether the open block holds no entry yet. -/
  openEmpty : Bool

/-- The L1 origin after an entry. -/
def EntryKind.originAfter (origin : Int64) : EntryKind → Int64
  | .origin o => o
  | _ => origin

open EntryKind

/-- The L1 origin that an entry adopts may only be the next one, once there is one. -/
def EntryKind.OriginOk (origin : Int64) : EntryKind → Prop
  | .origin o => origin < o ∧ (0 < origin → o = origin + 1)
  | _ => True

/-- A stream that grew from `start` to the cursor. -/
inductive Stream (start : StreamCursor) : List Emission → StreamCursor → Prop where
  | nil : Stream start [] start
  | entry {ems : List Emission} {c : StreamCursor} (h : Stream start ems c) (e : Entry)
      (hindex : e.index = c.count) (hslots : 1 ≤ e.slots)
      (hleads : e.kind.leads = true → c.openEmpty = true)
      (horigin : OriginOk c.origin e.kind) :
      Stream start (ems ++ [.entry e]) { c with
          count := c.count + e.slots
          origin := originAfter c.origin e.kind
          openEmpty := false }
  | boundary {ems : List Emission} {c : StreamCursor} (h : Stream start ems c) (b : Boundary)
      (hblock : b.blockNumber = c.block) (hend : b.endTxIdx = c.count)
      (htime : c.time < b.l2Timestamp) (horigin : b.l1Origin = c.origin) :
      Stream start (ems ++ [.boundary b])
        { c with block := c.block + 1, time := b.l2Timestamp, openEmpty := true }

/-! ## Reading a stream -/

section

variable (ems : List Emission)

/-- The entries of a stream, in order. -/
def entriesOf : List Entry := ems.filterMap fun
    | .entry e => some e
    | .boundary _ => none

/-- The boundaries of a stream, in order. -/
def boundariesOf : List Boundary := ems.filterMap fun
    | .entry _ => none
    | .boundary b => some b

/-- The index ranges of the entries. -/
def rangesOf : List (Int × Int) := (entriesOf ems).map fun e => (e.index, e.slots)

/-- The L1 origin that an entry adopts. -/
def EntryKind.adopted : EntryKind → Option Int64
  | .origin o => some o
  | _ => none

/-- The L1 origins that the entries adopt, in order. -/
def originsOf : List Int64 := (entriesOf ems).filterMap fun e => adopted e.kind

/-- The entries of each block, in order; the last block is the open one. -/
def blocksOf : List (List Entry) := ems.foldl (fun blocks em =>
    match em with
    | .entry e => blocks.dropLast ++ [blocks.getLastD [] ++ [e]]
    | .boundary _ => blocks ++ [[]]) [[]]

end

@[simp] theorem entriesOf_append (xs ys : List Emission) :
    entriesOf (xs ++ ys) = entriesOf xs ++ entriesOf ys := filterMap_append

@[simp] theorem boundariesOf_append (xs ys : List Emission) :
    boundariesOf (xs ++ ys) = boundariesOf xs ++ boundariesOf ys := filterMap_append

@[simp] theorem entriesOf_entry (e : Entry) : entriesOf [.entry e] = [e] := rfl
@[simp] theorem entriesOf_boundary (b : Boundary) : entriesOf [.boundary b] = [] := rfl
@[simp] theorem boundariesOf_entry (e : Entry) : boundariesOf [.entry e] = [] := rfl
@[simp] theorem boundariesOf_boundary (b : Boundary) : boundariesOf [.boundary b] = [b] := rfl

@[simp] theorem blocksOf_entry (ems : List Emission) (e : Entry) :
    blocksOf (ems ++ [.entry e]) = (blocksOf ems).dropLast ++ [(blocksOf ems).getLastD [] ++ [e]] := by
  simp [blocksOf]

@[simp] theorem blocksOf_boundary (ems : List Emission) (b : Boundary) :
    blocksOf (ems ++ [.boundary b]) = blocksOf ems ++ [[]] := by
  simp [blocksOf]

namespace Stream

variable {start c : StreamCursor} {ems : List Emission}

section

variable (h : Stream start ems c)
include h

/-- The entries fill the indices from the start to the cursor. -/
theorem tiles : Tiles start.count (rangesOf ems) c.count := by
  induction h with
  | nil => exact rfl
  | entry _ e hindex hslots _ _ ih => simpa [rangesOf, hindex] using ih.snoc hslots
  | boundary _ b _ _ _ _ ih => simpa [rangesOf] using ih

/-- A boundary ends where the entries before it end. -/
theorem endTxIdx {pre post : List Emission} {b : Boundary}
    (heq : ems = pre ++ .boundary b :: post) : Tiles start.count (rangesOf pre) b.endTxIdx := by
  induction h generalizing post with
  | nil => simp at heq
  | entry h e _ _ _ _ ih =>
    rcases snoc_eq_append_cons heq with ⟨-, hbad, -⟩ | ⟨post', -, hpre⟩
    · cases hbad
    · exact ih hpre
  | boundary h b' _ hend _ _ ih =>
    rcases snoc_eq_append_cons heq with ⟨rfl, hb, -⟩ | ⟨post', -, hpre⟩
    · obtain rfl : b = b' := by simpa using hb
      rw [hend]
      exact h.tiles
    · exact ih hpre

/-- The boundaries number their blocks one after the other. -/
theorem blockNumbers : (boundariesOf ems).map Boundary.blockNumber
        = (List.range (boundariesOf ems).length).map (fun k : Nat => start.block + (k : Int))
      ∧ c.block = start.block + ((boundariesOf ems).length : Int) := by
  induction h with
  | nil => simp [boundariesOf]
  | entry _ e _ _ _ _ ih => simpa using ih
  | boundary _ b hblock _ _ _ ih =>
    obtain ⟨hnum, hblk⟩ := ih
    simp only [boundariesOf_append, boundariesOf_boundary, map_append, length_append,
      length_singleton, range_succ, map_singleton, hnum, hblock, hblk]
    refine ⟨trivial, ?_⟩
    omega

/-- The times of the boundaries increase. -/
theorem times : (boundariesOf ems).Pairwise (fun b b' => b.l2Timestamp < b'.l2Timestamp)
      ∧ ∀ b ∈ boundariesOf ems, b.l2Timestamp ≤ c.time := by
  induction h with
  | nil => simp [boundariesOf]
  | entry _ e _ _ _ _ ih => simpa using ih
  | boundary _ b _ _ htime _ ih =>
    obtain ⟨hpair, hle⟩ := ih
    rw [boundariesOf_append]
    refine ⟨pairwise_snoc.2 ⟨hpair, fun b₁ hb₁ => lt_of_le_of_lt (hle b₁ hb₁) htime⟩, ?_⟩
    exact forall_mem_snoc.2 ⟨fun b₁ hb₁ => (hle b₁ hb₁).trans htime.le, le_rfl⟩

omit h in
theorem originAfter_le {origin : Int64} {kind : EntryKind} (h : OriginOk origin kind) :
    origin ≤ originAfter origin kind := by
  cases kind with
  | origin o => exact Int64.le_of_lt h.1
  | _ => exact Int64.le_refl _

/-- The L1 origins of the boundaries do not decrease. -/
theorem boundaryOrigins : (boundariesOf ems).Pairwise (fun b b' => b.l1Origin ≤ b'.l1Origin)
      ∧ ∀ b ∈ boundariesOf ems, b.l1Origin ≤ c.origin := by
  induction h with
  | nil => simp [boundariesOf]
  | entry _ e _ _ _ horigin ih =>
    obtain ⟨hpair, hle⟩ := ih
    simp only [boundariesOf_append, boundariesOf_entry, append_nil]
    exact ⟨hpair, fun b hb => Int64.le_trans (hle b hb) (originAfter_le horigin)⟩
  | boundary _ b _ _ _ horigin ih =>
    obtain ⟨hpair, hle⟩ := ih
    rw [boundariesOf_append]
    refine ⟨pairwise_snoc.2 ⟨hpair, fun b₁ hb₁ => horigin ▸ hle b₁ hb₁⟩, ?_⟩
    exact forall_mem_snoc.2 ⟨hle, horigin ▸ Int64.le_refl _⟩

/-- An entry that must lead its block is the first of its block. -/
theorem leads : (∀ block ∈ blocksOf ems, ∀ e ∈ block.tail, e.kind.leads = false)
      ∧ (blocksOf ems).getLastD [] ∈ blocksOf ems
      ∧ (c.openEmpty = true → (blocksOf ems).getLastD [] = []) := by
  induction h with
  | nil => simp [blocksOf]
  | @entry ems' c' _ e _ _ hleads _ ih =>
    obtain ⟨htail, hmem, hopen⟩ := ih
    rw [blocksOf_entry]
    refine ⟨?_, by simp, by simp⟩
    intro block hblock x hx
    rcases mem_append.1 hblock with hblock | hblock
    · exact htail block (mem_of_mem_dropLast hblock) x hx
    · obtain rfl := mem_singleton.1 hblock
      -- the open block had an entry, so the new one does not lead
      cases hlast : (blocksOf ems').getLastD [] with
      | nil =>
        rw [hlast] at hx
        cases hx
      | cons y ys =>
        rw [hlast] at hx
        rcases mem_append.1 hx with hx | hx
        · exact htail _ hmem x (by rw [hlast]; exact hx)
        · obtain rfl := mem_singleton.1 hx
          rw [← Bool.not_eq_true]
          intro hl
          rw [hopen (hleads hl)] at hlast
          cases hlast
  | boundary _ b _ _ _ _ ih =>
    obtain ⟨htail, -, -⟩ := ih
    rw [blocksOf_boundary]
    refine ⟨?_, by simp, by simp⟩
    exact forall_mem_snoc.2 ⟨htail, nofun⟩

/-- A block holds at most one entry that must lead it. -/
theorem leads_atMostOne (block : List Entry) (hb : block ∈ blocksOf ems) :
    (block.filter fun e => e.kind.leads).length ≤ 1 := by
  cases block with
  | nil => simp
  | cons e es =>
    have htail : es.filter (fun e => e.kind.leads) = [] :=
      filter_eq_nil_iff.2 fun x hx => by simpa using h.leads.1 _ hb x hx
    rw [filter_cons, htail]
    split <;> simp

end

theorem toInt_add_one {a : Int64} (h : a < a + 1) : (a + 1).toInt = a.toInt + 1 := by
  have hlt := Int64.lt_iff_toInt_lt.1 h
  have hadd : (a + 1).toInt = (a.toInt + 1).bmod (2 ^ 64) := Int64.toInt_add a 1
  have hlo := a.le_toInt
  rw [hadd] at hlt ⊢
  rw [Int.bmod_def] at hlt ⊢
  split at hlt <;> split <;> omega

/-- The origin that a stream started with, if it started with one. -/
def startOrigins (start : StreamCursor) : List Int64 :=
  if start.origin = 0 then [] else [start.origin]

theorem originsOf_entry (ems : List Emission) (e : Entry) :
    originsOf (ems ++ [.entry e]) = originsOf ems ++ (adopted e.kind).toList := by
  simp only [originsOf]
  cases h : adopted e.kind <;> simp [h]

theorem originsOf_boundary (ems : List Emission) (b : Boundary) :
    originsOf (ems ++ [.boundary b]) = originsOf ems := by
  simp [originsOf]

/-- Every adopted origin after the first one known is the next number. -/
theorem origins (h : Stream start ems c) (h0 : 0 ≤ start.origin) :
    (startOrigins start ++ originsOf ems).IsChain (fun a b => b.toInt = a.toInt + 1) ∧ 0 ≤ c.origin
      ∧ ∀ last ∈ (startOrigins start ++ originsOf ems).getLast?, 0 < last ∧ last = c.origin := by
  induction h with
  | nil =>
    unfold startOrigins
    split
    · simp [originsOf, entriesOf, h0]
    · next hne =>
      refine ⟨by simp [originsOf, entriesOf], h0, ?_⟩
      simp only [originsOf, entriesOf, filterMap_nil, append_nil, List.getLast?_singleton,
        mem_def, some.injEq, forall_eq', and_true]
      exact Int64.lt_of_le_of_ne h0 fun h => hne h.symm
  | @entry ems' c' _ e _ _ _ horigin ih =>
    obtain ⟨hchain, hpos, hlast⟩ := ih
    rw [originsOf_entry]
    cases hk : e.kind with
    | origin o =>
      rw [hk] at horigin
      obtain ⟨hlt, hnext⟩ := horigin
      have ho : 0 < o := Int64.lt_of_le_of_lt hpos hlt
      rw [adopted, ← append_assoc]
      refine ⟨isChain_append.2 ⟨hchain, .singleton _, ?_⟩, Int64.le_of_lt ho, ?_⟩
      · intro x hx y hy
        obtain ⟨hx0, rfl⟩ := hlast x hx
        obtain rfl : o = y := by simpa using hy
        obtain rfl := hnext hx0
        exact toInt_add_one hlt
      · intro x hx
        obtain rfl : o = x := by simpa using hx
        exact ⟨ho, rfl⟩
    | _ =>
      simp only [adopted, toList_none, append_nil]
      exact ⟨hchain, hpos, hlast⟩
  | boundary _ b _ _ _ _ ih =>
    rw [originsOf_boundary]
    exact ih

end Stream

end Kardamom.Sealer
