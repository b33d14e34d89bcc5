import Kardamom.Sealer.Numbering

/-!
# Egress frames

The frames that the egress of the sealer retains: the relayed records and the block boundaries. A
frame is selected by its replay key, a record index or a block number, so a replay cursor is a pair,
one bound for each axis (`Point`).

`Emits a fs c` says that the frames `fs` were emitted one after the other while the head of the
stream moved from `a` to `c`. It is all that the retention knows about the frames: on both axes the
frames before a point are below it and those after it are at or above it.
-/

namespace Kardamom.Cluster

open Sealer (Bytes Boundary Stream StreamCursor)
open Sealer.CanonicalSealerState (Emission Entry)
open List

/-- A point of the canonical stream: the next record index, and the next block. A replay cursor, the
head, and the floors of the retention are such pairs. -/
@[ext] structure Point where
  index : Int
  block : Int
  deriving DecidableEq, Repr

/-- A retained egress frame. -/
inductive Frame where
  /-- `kind(1) | index(8) | payload_len(4) | payload`. -/
  | relayed (index : Int) (payload : Bytes)
  /-- `kind(1) | blockNumber(8) | endTxIdx(8) | l2Timestamp(8) | l1Origin(8)`. -/
  | boundary (b : Boundary)
  deriving DecidableEq, Repr

/-- `RELAYED_HEADER_LEN`. -/
def relayedHeaderLen : Nat := 1 + 8 + 4

/-- `BOUNDARY_LEN`. -/
def boundaryLen : Nat := 1 + 4 * 8

/-- The bytes of a frame. -/
def Frame.length : Frame → Nat
  | .relayed _ payload => relayedHeaderLen + payload.length
  | .boundary _ => boundaryLen

/-- The replay key of a frame: a record index, or the block number of a boundary. -/
structure FrameKey where
  boundary : Bool
  key : Int
  deriving DecidableEq, Repr

open FrameKey

variable {f : Frame}

namespace FrameKey

def of : Frame → FrameKey
  | .relayed index _ => ⟨false, index⟩
  | .boundary b => ⟨true, b.blockNumber⟩

/-- Whether a replay from the point includes the frame. -/
def wanted (p : Point) (frame : Frame) : Bool :=
  if (of frame).boundary then p.block ≤ (of frame).key else p.index ≤ (of frame).key

@[simp] theorem wanted_relayed (p : Point) (i : Int) (payload : Bytes) :
    wanted p (.relayed i payload) = decide (p.index ≤ i) := rfl

@[simp] theorem wanted_boundary (p : Point) (b : Boundary) :
    wanted p (.boundary b) = decide (p.block ≤ b.blockNumber) := rfl

/-- A later point wants no more frames. -/
theorem wanted_mono {p q : Point} (hi : p.index ≤ q.index) (hb : p.block ≤ q.block)
    (h : wanted q f = true) : wanted p f = true := by
  cases f <;> simp at h ⊢ <;> omega

end FrameKey

/-! ## Emission -/

/-- The frames were emitted one after the other while the head moved from the first point to the
second. A record takes the next index, and at least that one; a boundary closes the open block at
the next index. -/
def Emits : Point → List Frame → Point → Prop
  | a, [], c => a = c
  | a, .relayed i _ :: fs, c => i = a.index ∧ ∃ next, i < next ∧ Emits ⟨next, a.block⟩ fs c
  | a, .boundary b :: fs, c =>
    b.blockNumber = a.block ∧ b.endTxIdx = a.index ∧ Emits ⟨a.index, a.block + 1⟩ fs c

namespace Emits

open FrameKey

variable {a c : Point} {fs gs : List Frame}

theorem nil (a : Point) : Emits a [] a := rfl

theorem append_iff : Emits a (fs ++ gs) c ↔ ∃ m, Emits a fs m ∧ Emits m gs c := by
  induction fs generalizing a with
  | nil => simp [Emits]
  | cons f fs ih =>
    cases f with
    | relayed i payload =>
      simp only [cons_append, Emits, ih]
      constructor
      · rintro ⟨hi, next, hlt, m, hfs, hgs⟩
        exact ⟨m, ⟨hi, next, hlt, hfs⟩, hgs⟩
      · rintro ⟨m, ⟨hi, next, hlt, hfs⟩, hgs⟩
        exact ⟨hi, next, hlt, m, hfs, hgs⟩
    | boundary b =>
      simp only [cons_append, Emits, ih]
      constructor
      · rintro ⟨hb, he, m, hfs, hgs⟩
        exact ⟨m, ⟨hb, he, hfs⟩, hgs⟩
      · rintro ⟨m, ⟨hb, he, hfs⟩, hgs⟩
        exact ⟨hb, he, m, hfs, hgs⟩

theorem append {m : Point} (h : Emits a fs m) (h' : Emits m gs c) : Emits a (fs ++ gs) c :=
  append_iff.2 ⟨m, h, h'⟩

variable (h : Emits a fs c)
include h

/-- The head only moves up. -/
theorem le : a.index ≤ c.index ∧ a.block ≤ c.block := by
  induction fs generalizing a with
  | nil =>
    obtain rfl : a = c := h
    exact ⟨le_rfl, le_rfl⟩
  | cons f fs ih =>
    cases f with
    | relayed i payload =>
      obtain ⟨rfl, next, hlt, h⟩ := h
      have hle : next ≤ c.index ∧ a.block ≤ c.block := ih h
      exact ⟨by omega, hle.2⟩
    | boundary b =>
      obtain ⟨-, -, h⟩ := h
      have hle : a.index ≤ c.index ∧ a.block + 1 ≤ c.block := ih h
      exact ⟨hle.1, by omega⟩

theorem relayed_bounds {i : Int} {payload : Bytes}
    (hf : .relayed i payload ∈ fs) : a.index ≤ i ∧ i < c.index := by
  obtain ⟨pre, post, rfl⟩ := append_of_mem hf
  obtain ⟨m, hpre, rfl, next, hlt, hpost⟩ := append_iff.1 h
  have hle : next ≤ c.index := hpost.le.1
  exact ⟨hpre.le.1, by omega⟩

variable {b : Boundary}

theorem boundary_bounds (hf : .boundary b ∈ fs) :
    (a.block ≤ b.blockNumber ∧ b.blockNumber < c.block) ∧
      a.index ≤ b.endTxIdx ∧ b.endTxIdx ≤ c.index := by
  obtain ⟨pre, post, rfl⟩ := append_of_mem hf
  obtain ⟨m, hpre, hb, he, hpost⟩ := append_iff.1 h
  have hle : m.index ≤ c.index ∧ m.block + 1 ≤ c.block := hpost.le
  have hle' := hpre.le
  exact ⟨by omega, by omega⟩

/-- No frame that was emitted before a point is wanted from it. -/
theorem not_wanted (hf : f ∈ fs) : wanted c f = false := by
  cases f with
  | relayed i payload => simpa using (h.relayed_bounds hf).2
  | boundary b => simpa using (h.boundary_bounds hf).1.2

/-- Nor from any later point. -/
theorem not_wanted_of_le {p : Point} (hi : c.index ≤ p.index)
    (hb : c.block ≤ p.block) (hf : f ∈ fs) : wanted p f = false := by
  rw [← Bool.not_eq_true]
  intro hp
  have := wanted_mono hi hb hp
  rw [h.not_wanted hf] at this
  cases this

omit h in
/-- After a boundary the head is at its end index, in the block after it. -/
theorem eq_of_snoc_boundary (h : Emits a (fs ++ [.boundary b]) c) :
    c = ⟨b.endTxIdx, b.blockNumber + 1⟩ := by
  obtain ⟨m, -, hb, he, rfl⟩ := append_iff.1 h
  rw [hb, he]

/-- Every frame that was emitted from a point on is wanted from it. -/
theorem wanted_of_mem (hf : f ∈ fs) : wanted a f = true := by
  cases f with
  | relayed i payload => simpa using (h.relayed_bounds hf).1
  | boundary b => simpa using (h.boundary_bounds hf).1.1

/-- No two frames share a replay key. -/
theorem nodup_keys : (fs.map of).Nodup := by
  induction fs generalizing a with
  | nil => exact .nil
  | cons f fs ih =>
    -- the head after the frame wants everything that follows, and not the frame itself
    obtain ⟨m, hf, hfs⟩ := append_iff.1 (show Emits a ([f] ++ fs) c from h)
    refine nodup_cons.2 ⟨?_, ih hfs⟩
    intro hmem
    obtain ⟨g, hg, heq⟩ := mem_map.1 hmem
    have hwanted : wanted m f = wanted m g := by
      rw [wanted, wanted, heq]
    rw [hf.not_wanted (mem_singleton_self f), hfs.wanted_of_mem hg] at hwanted
    cases hwanted

theorem nodup : fs.Nodup := h.nodup_keys.of_map

/-- A block has one boundary. -/
theorem boundary_inj {b' : Boundary} (hb : .boundary b ∈ fs)
    (hb' : .boundary b' ∈ fs) (heq : b.blockNumber = b'.blockNumber) : b = b' := by
  have := inj_on_of_nodup_map h.nodup_keys hb hb' (by rw [of, of, heq])
  exact Frame.boundary.inj this

end Emits

/-- The point where a stream of the sealer stands. -/
def pointOf (c : StreamCursor) : Point := ⟨c.count, c.block⟩

end Kardamom.Cluster
