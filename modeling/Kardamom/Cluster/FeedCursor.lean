import Kardamom.Cluster.MemberFeed
import Kardamom.Cluster.Replay

/-!
# The cursor of an answer

A cursor that is served cuts the stream: it wants no frame before the cut and every frame after it
(`AtCut`). The cursor of an answer starts at the cursor of its request and passes the frames that the
answer carries, and it stays at such a cut (`CursorAt.pass`). It wants what the answer did not carry, and
it stays inside the block that it names, so the replay rules refuse it only below the floor.
-/

namespace Kardamom.Cluster

open Sealer (Bytes Boundary)
open FrameKey List SealerEgress

variable {start head mid m c p : Point} {fs gone live : List Frame} {f : Frame} {e : SealerEgress}

/-- The frames of a stream that cross a block hold its boundary. -/
theorem Emits.exists_boundary (h : Emits m fs c) {k : Int} (hk : m.block ≤ k) (hlt : k < c.block) :
    ∃ b, .boundary b ∈ fs ∧ b.blockNumber = k := by
  induction fs generalizing m with
  | nil =>
    obtain rfl : m = c := h
    omega
  | cons f fs ih =>
    cases f with
    | relayed i payload =>
      obtain ⟨-, next, -, h⟩ := h
      obtain ⟨b, hb, heq⟩ := ih h hk
      exact ⟨b, mem_cons_of_mem _ hb, heq⟩
    | boundary b =>
      obtain ⟨hb, -, h⟩ := h
      by_cases heq : m.block = k
      · exact ⟨b, mem_cons_self, hb.trans heq⟩
      · obtain ⟨b', hb', heq'⟩ := ih h (by show m.block + 1 ≤ k; omega)
        exact ⟨b', mem_cons_of_mem _ hb', heq'⟩

/-! ## Cuts -/

/-- The cursor `c` is at the cut `m` of the stream: it wants nothing of what came before, and it is not
past the cut. -/
structure AtCut (before : List Frame) (m c : Point) : Prop where
  unwanted : ∀ f ∈ before, wanted c f = false
  index_le : c.index ≤ m.index
  block_le : c.block ≤ m.block

namespace AtCut

variable {before after : List Frame}

section

variable (h : AtCut before m c) (he : Emits m after head)
include h he

theorem wanted_after (hf : f ∈ after) :
    wanted c f = true :=
  wanted_mono h.index_le h.block_le (he.wanted_of_mem hf)

/-- What the cursor wants is what comes after the cut. -/
theorem filter_eq :
    (before ++ after).filter (wanted c) = after := by
  have hnone : before.filter (wanted c) = [] :=
    filter_eq_nil_iff.2 fun f hf => Bool.eq_false_iff.1 (h.unwanted f hf)
  have hall : after.filter (wanted c) = after := filter_eq_self.2 fun f hf => h.wanted_after he hf
  rw [filter_append, hnone, hall, nil_append]

end

/-- A cursor that passes the frame at the cut is at the next cut. -/
theorem pass (h : AtCut before m c) (hb : Emits start before m) (hf : Emits m [f] head) :
    AtCut (before ++ [f]) head (c.pass f) := by
  cases f with
  | relayed i payload =>
    obtain ⟨rfl, next, hlt, rfl⟩ := hf
    refine ⟨fun g hg => ?_, ?_, h.block_le⟩
    · rcases mem_append.1 hg with hg | hg
      · have hold := h.unwanted g hg
        cases g with
        | relayed j payload' =>
          have hj := (hb.relayed_bounds hg).2
          simp only [Point.pass, wanted_relayed, decide_eq_false_iff_not]
          omega
        | boundary b => simpa [Point.pass] using hold
      · cases mem_singleton.1 hg
        simp [Point.pass]
    · show m.index + 1 ≤ next
      omega
  | boundary b =>
    obtain ⟨hblock, hend, rfl⟩ := hf
    have hpass : c.pass (.boundary b) = ⟨m.index, m.block + 1⟩ := by rw [Point.pass, hblock, hend]
    have hall : Emits start (before ++ [.boundary b]) ⟨m.index, m.block + 1⟩ :=
      hb.append ⟨hblock, hend, rfl⟩
    rw [hpass]
    exact ⟨fun g hg => hall.not_wanted hg, le_rfl, le_rfl⟩

end AtCut

/-- **A cursor that is served cuts the stream.** -/
theorem Retains.exists_cut (h : Retains start head gone live mid e)
    (hle : p.index ≤ head.index ∧ p.block ≤ head.block) (hin : Inside live p)
    (hi : e.firstRetainedIndex ≤ p.index) (hb : e.firstRetainedBlock ≤ p.block) :
    ∃ before after m, gone ++ live = before ++ after ∧ Emits start before m ∧ Emits m after head ∧
      AtCut before m p := by
  -- look for the first wanted frame, from the front of the retention on
  suffices hlook : ∀ post pre, live = pre ++ post → (∀ f ∈ pre, wanted p f = false) →
      ∃ before after m, gone ++ live = before ++ after ∧ Emits start before m ∧ Emits m after head ∧
        AtCut before m p from hlook live [] rfl (by simp)
  intro post
  induction post with
  | nil =>
    intro pre hlive hpre
    rw [append_nil] at hlive
    subst hlive
    refine ⟨gone ++ live, [], head, (append_nil _).symm, h.emits, rfl, ?_, hle.1, hle.2⟩
    exact forall_mem_append.2 ⟨fun f hf => h.not_wanted_gone hi hb hf, hpre⟩
  | cons f post ih =>
    intro pre hlive hpre
    by_cases hf : wanted p f = true
    · obtain ⟨m, hmid, hrest⟩ := Emits.append_iff.1 (hlive ▸ h.emits_live)
      refine ⟨gone ++ pre, f :: post, m, by rw [hlive, append_assoc], h.emits_gone.append hmid,
        hrest, ?_⟩
      have hunwanted : ∀ g ∈ gone ++ pre, wanted p g = false :=
        forall_mem_append.2 ⟨fun g hg => h.not_wanted_gone hi hb hg, hpre⟩
      cases f with
      | relayed i payload =>
        obtain ⟨rfl, next, hlt, hpost⟩ := hrest
        have hidx : p.index ≤ m.index := by simpa using hf
        refine ⟨hunwanted, hidx, ?_⟩
        -- else the boundary before the block of the cursor comes later, and ends above the cursor
        by_contra hblock
        obtain ⟨b, hmem, hnum⟩ := hpost.exists_boundary
          (by show m.block ≤ p.block - 1; omega) (by omega)
        have hend := (hpost.boundary_bounds hmem).2.1
        have hlow := hin.lower b (by
          rw [hlive]
          exact mem_append_right _ (mem_cons_of_mem _ hmem)) hnum
        have hnext : next ≤ b.endTxIdx := hend
        omega
      | boundary b =>
        obtain ⟨hnum, hend, -⟩ := hrest
        have hblk : p.block ≤ b.blockNumber := by simpa using hf
        refine ⟨hunwanted, ?_, by omega⟩
        by_cases heq : p.block = m.block
        · have hup := hin.upper b (by rw [hlive]; simp) (by omega)
          omega
        · -- the boundary of the block of the cursor came before, and is wanted
          have hfirst := h.block
          obtain ⟨b', hmem, hnum'⟩ := hmid.exists_boundary (k := p.block) (by omega) (by omega)
          have hno := hpre _ hmem
          simp [hnum'] at hno
    · exact ih (pre ++ [f]) (by rw [hlive, append_assoc]; rfl)
        (Machine.forall_mem_snoc.2 ⟨hpre, by simpa using hf⟩)

/-! ## The cursor of an answer -/

/-- The cursor `c` of the answer to a request from `r` that carried `sent`, with `rest` still wanted. -/
structure CursorAt (start head : Point) (gone live : List Frame) (r c : Point)
    (sent rest : List Frame) : Prop where
  request_le : r.index ≤ head.index ∧ r.block ≤ head.block
  wanted : (gone ++ live).filter (FrameKey.wanted r) = sent ++ rest
  cut : ∃ before m, gone ++ live = before ++ rest ∧ Emits start before m ∧ Emits m rest head ∧
    AtCut before m c
  inside : Inside live c

namespace CursorAt

variable {r : Point} {sent rest : List Frame}

/-- The start of an answer. -/
theorem serve (h : Retains start head gone live mid e) (h0 : 0 ≤ start.index)
    (hserve : (e.replayVerdict r head).kind = .serve) :
    CursorAt start head gone live r r [] ((gone ++ live).filter (FrameKey.wanted r)) := by
  obtain ⟨hle, hin, hi, hb⟩ := replayVerdict_serve_iff.1 hserve
  have hinside := (h.inside_iff h0).1 hin
  obtain ⟨before, after, m, heq, hbefore, hafter, hcut⟩ := h.exists_cut hle hinside hi hb
  have hfilter : (gone ++ live).filter (FrameKey.wanted r) = after := by
    rw [heq, hcut.filter_eq hafter]
  rw [hfilter]
  exact ⟨hle, hfilter, ⟨before, m, heq, hbefore, hafter, hcut⟩, hinside⟩

section

variable (h : CursorAt start head gone live r c sent rest)
include h

/-- The cursor wants what the answer did not carry. -/
theorem rest_eq : (gone ++ live).filter (FrameKey.wanted c) = rest := by
  obtain ⟨before, m, heq, -, hafter, hcut⟩ := h.cut
  rw [heq, hcut.filter_eq hafter]

theorem le : c.index ≤ head.index ∧ c.block ≤ head.block := by
  obtain ⟨before, m, -, -, hafter, hcut⟩ := h.cut
  have hle := hafter.le
  exact ⟨hcut.index_le.trans hle.1, hcut.block_le.trans hle.2⟩

/-- What the replay rules say about the cursor: only the floor can refuse it. -/
theorem verdict (hr : Retains start head gone live mid e) (h0 : 0 ≤ start.index) :
    (e.replayVerdict c head).kind ≠ .ahead ∧ ((e.replayVerdict c head).kind = .serve ↔
        e.firstRetainedIndex ≤ c.index ∧ e.firstRetainedBlock ≤ c.block) := by
  have hin := (hr.inside_iff h0).2 h.inside
  have hle := h.le
  refine ⟨?_, ?_⟩
  · unfold replayVerdict
    dsimp only
    rw [if_neg (by omega)]
    split
    case isTrue => simp
    case isFalse =>
      split
      case isTrue => simp
      case isFalse => simp [ReplayVerdict.SERVE]
  · rw [replayVerdict_serve_iff]
    exact ⟨fun hs => hs.2.2, fun hfloor => ⟨hle, hin, hfloor⟩⟩

/-- Frames that are emitted are wanted, and frames that are evicted move nothing. -/
theorem emit {head' : Point} {emitted evicted live' : List Frame} (he : Emits head emitted head')
    (hcut : live ++ emitted = evicted ++ live') :
    CursorAt start head' (gone ++ evicted) live' r c sent (rest ++ emitted) := by
  have hall : gone ++ evicted ++ live' = gone ++ live ++ emitted := by
    rw [append_assoc, append_assoc, hcut]
  have hup := he.le
  obtain ⟨before, m, heq, hbefore, hafter, hat⟩ := h.cut
  refine ⟨⟨h.request_le.1.trans hup.1, h.request_le.2.trans hup.2⟩, ?_, ?_, ?_⟩
  · have hnew : emitted.filter (FrameKey.wanted r) = emitted := filter_eq_self.2 fun f hf =>
      wanted_mono h.request_le.1 h.request_le.2 (he.wanted_of_mem hf)
    rw [hall, filter_append, h.wanted, hnew, append_assoc]
  · exact ⟨before, m, by rw [hall, heq, append_assoc], hbefore, hafter.append he, hat⟩
  · have hmem : ∀ b, .boundary b ∈ live' → .boundary b ∈ live ∨ .boundary b ∈ emitted := fun b hb =>
      mem_append.1 (hcut ▸ mem_append_right evicted hb)
    have hle := h.le
    refine ⟨fun b hb hnum => ?_, fun b hb hnum => ?_⟩
    · rcases hmem b hb with hb | hb
      · exact h.inside.lower b hb hnum
      · have := (he.boundary_bounds hb).1.1
        omega
    · rcases hmem b hb with hb | hb
      · exact h.inside.upper b hb hnum
      · exact hle.1.trans (he.boundary_bounds hb).2.1

end

/-- A frame that the answer carries. -/
theorem pass (h : CursorAt start head gone live r c sent (f :: rest)) :
    CursorAt start head gone live r (c.pass f) (sent ++ [f]) rest := by
  obtain ⟨before, m, heq, hbefore, hafter, hat⟩ := h.cut
  obtain ⟨m', hf, hrest⟩ := Emits.append_iff.1 (show Emits m ([f] ++ rest) head from hafter)
  have hcut := hat.pass hbefore hf
  refine ⟨h.request_le, by rw [h.wanted, append_assoc]; rfl,
    ⟨before ++ [f], m', by rw [heq, append_assoc]; rfl, hbefore.append hf, hrest, hcut⟩, ?_⟩
  -- where a boundary of the retention can be
  have hwhere : ∀ b, .boundary b ∈ live →
      .boundary b ∈ before ∨ .boundary b = f ∨ .boundary b ∈ rest := by
    intro b hb
    have hmem : .boundary b ∈ before ++ f :: rest := heq ▸ mem_append_right gone hb
    simpa using hmem
  cases f with
  | relayed i payload =>
    obtain ⟨rfl, next, hlt, rfl⟩ := hf
    refine ⟨fun b hb hnum => ?_, fun b hb hnum => ?_⟩
    · have hnum' : b.blockNumber = c.block - 1 := hnum
      show b.endTxIdx ≤ m.index + 1
      rcases hwhere b hb with hb | hb | hb
      · have := (hbefore.boundary_bounds hb).2.2
        omega
      · cases hb
      · have hblock : m.block ≤ b.blockNumber := (hrest.boundary_bounds hb).1.1
        have := hat.block_le
        omega
    · have hnum' : b.blockNumber = c.block := hnum
      show m.index + 1 ≤ b.endTxIdx
      rcases hwhere b hb with hb | hb | hb
      · have hno := hat.unwanted _ hb
        simp [hnum'] at hno
      · cases hb
      · have hend : next ≤ b.endTxIdx := (hrest.boundary_bounds hb).2.1
        omega
  | boundary b₀ =>
    obtain ⟨hnum₀, hend₀, rfl⟩ := hf
    refine ⟨fun b hb hnum => ?_, fun b hb hnum => ?_⟩
    · have hnum' : b.blockNumber = b₀.blockNumber := by
        have : b.blockNumber = b₀.blockNumber + 1 - 1 := hnum
        omega
      show b.endTxIdx ≤ b₀.endTxIdx
      rcases hwhere b hb with hb | hb | hb
      · have := (hbefore.boundary_bounds hb).2.2
        omega
      · cases hb
        exact le_rfl
      · have hblock : m.block + 1 ≤ b.blockNumber := (hrest.boundary_bounds hb).1.1
        omega
    · have hnum' : b.blockNumber = b₀.blockNumber + 1 := hnum
      show b₀.endTxIdx ≤ b.endTxIdx
      rcases hwhere b hb with hb | hb | hb
      · have := (hbefore.boundary_bounds hb).1.2
        omega
      · cases hb
        omega
      · have hend : m.index ≤ b.endTxIdx := (hrest.boundary_bounds hb).2.1
        omega

end CursorAt

end Kardamom.Cluster
