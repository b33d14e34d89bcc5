import Mathlib.Data.Int.Interval
import Kardamom.Lib.Run
import Kardamom.Sealer.Window

/-!
# How far the dedup window grows past its cap

A record enters the window only while there is room, but an origin-advancing record, a marker, does
not meet the cap. It leads its block, and a block has one first record, so each block holds at most
one marker; and a marker leaves the window with its deadline, at most a horizon after the block it
leads. So the markers in the window lead distinct blocks of the last horizon, and
`Kept.size_le` bounds the window by its cap, the horizon and one. The restore of a snapshot refuses a
window more than `MARKER_SLACK` past its cap.
-/

namespace Kardamom.Sealer

open DedupWindow List Prod Machine Int

/-- `ms` are the markers that a window holds, each with the block it leads. They lead distinct blocks
up to the open one, and the open one only when it holds a record; each is held at most a horizon past
its block; and the other ids stay below the cap. -/
structure Led (horizon : Int) (cap : Nat) (entries : List (CanonicalId × Int)) (block : Int)
    (nonempty : Prop) (ms : List (CanonicalId × Int)) : Prop where
  nodup : (ms.map snd).Nodup
  block_le : ∀ m ∈ ms, m.2 ≤ block
  nonempty_of : ∀ m ∈ ms, m.2 = block → nonempty
  present : ∀ m ∈ ms, m.1 ∈ entries.map fst
  held : ∀ m ∈ ms, ∀ d, (m.1, d) ∈ entries → d ≤ m.2 + horizon
  others : (entries.filter fun e => e.1 ∉ ms.map fst).length ≤ cap

variable {key : CanonicalId}

namespace Led

variable {horizon : Int} {cap : Nat} {entries : List (CanonicalId × Int)} {block : Int}
  {nonempty nonempty' : Prop} {ms : List (CanonicalId × Int)}

theorem nil : Led horizon cap [] block nonempty [] where
  nodup := nodup_nil
  block_le := by simp
  nonempty_of := by simp
  present := by simp
  held := by simp
  others := by simp

variable (h : Led horizon cap entries block nonempty ms)
include h

/-- The open block may fill up. -/
theorem fill (himp : nonempty → nonempty') : Led horizon cap entries block nonempty' ms :=
  { h with nonempty_of := fun m hm hb => himp (h.nonempty_of m hm hb) }

/-- The next block opens: no marker leads it yet. -/
theorem next (nonempty' : Prop) : Led horizon cap entries (block + 1) nonempty' ms where
  __ := h
  block_le m hm := (h.block_le m hm).trans (by omega)
  nonempty_of m hm hb := by
    have := h.block_le m hm
    omega

theorem held_append
    (hk : key ∉ entries.map fst) (held : Int) {m : CanonicalId × Int} (hm : m ∈ ms) {d : Int}
    (hd : (m.1, d) ∈ entries ++ [(key, held)]) : d ≤ m.2 + horizon := by
  rcases mem_append.1 hd with hd | hd
  · exact h.held m hm d hd
  · obtain ⟨hkey, -⟩ := Prod.mk.inj (mem_singleton.1 hd)
    exact absurd (hkey ▸ h.present m hm) hk

/-- A record enters while there is room. -/
theorem insert (hk : key ∉ entries.map fst) (hroom : entries.length < cap) (held : Int) :
    Led horizon cap (entries ++ [(key, held)]) block nonempty ms where
  __ := h
  present m hm := by
    rw [map_append]
    exact mem_append_left _ (h.present m hm)
  held _ hm _ hd := h.held_append hk held hm hd
  others := (length_filter_le _ _).trans (by simpa using Nat.succ_le_of_lt hroom)

/-- A marker enters and leads the open block, which held no record. -/
theorem lead (hempty : ¬ nonempty) (hk : key ∉ entries.map fst) {held : Int}
    (hheld : held ≤ block + horizon) :
    Led horizon cap (entries ++ [(key, held)]) block True (ms ++ [(key, block)]) where
  nodup := by
    rw [map_append, nodup_append]
    refine ⟨h.nodup, by simp, fun b hb c hc hbc => ?_⟩
    obtain ⟨m, hm, rfl⟩ := mem_map.1 hb
    exact hempty (h.nonempty_of m hm (hbc.trans (by simpa using hc)))
  block_le := forall_mem_snoc.2 ⟨h.block_le, le_rfl⟩
  nonempty_of _ _ _ := trivial
  present := by
    rw [map_append]
    exact forall_mem_snoc.2 ⟨fun m hm => mem_append_left _ (h.present m hm), by simp⟩
  held := by
    refine forall_mem_snoc.2 ⟨fun m hm d hd => h.held_append hk held hm hd, fun d hd => ?_⟩
    rcases mem_append.1 hd with hd | hd
    · exact absurd (mem_map_of_mem hd) hk
    · rw [(Prod.mk.inj (mem_singleton.1 hd)).2]
      exact hheld
  others := by
    refine le_trans (List.Sublist.length_le ?_) h.others
    rw [filter_append]
    have hnew : [(key, held)].filter (fun e => e.1 ∉ (ms ++ [(key, block)]).map fst) = [] := by simp
    rw [hnew, append_nil]
    refine monotone_filter_right _ fun e he => ?_
    simp only [map_append, mem_append, decide_eq_true_eq, not_or] at he ⊢
    exact he.1

/-- Ids leave the window, markers among them. -/
theorem prune (p : CanonicalId × Int → Bool) : Led horizon cap (entries.filter p) block nonempty
      (ms.filter fun m => m.1 ∈ (entries.filter p).map fst) where
  nodup := h.nodup.sublist (filter_sublist.map _)
  block_le m hm := h.block_le m (mem_filter.1 hm).1
  nonempty_of m hm := h.nonempty_of m (mem_filter.1 hm).1
  present m hm := by simpa using (mem_filter.1 hm).2
  held m hm d hd := h.held m (mem_filter.1 hm).1 d (mem_filter.1 hd).1
  others := by
    refine le_trans (List.Sublist.length_le ?_) h.others
    -- an id that stays and is no marker now was none before
    have hsub : (entries.filter p).filter (fun e => e.1 ∉
        (ms.filter fun m => m.1 ∈ (entries.filter p).map fst).map fst)
        = (entries.filter p).filter fun e => e.1 ∉ ms.map fst := by
      refine filter_congr fun e he => decide_eq_decide.2 (not_congr ?_)
      simp only [mem_map, mem_filter, decide_eq_true_eq]
      constructor
      · rintro ⟨m, ⟨hm, -⟩, hme⟩
        exact ⟨m, hm, hme⟩
      · rintro ⟨m, hm, hme⟩
        exact ⟨m, ⟨hm, e, mem_filter.1 he, hme.symm⟩, hme⟩
    rw [hsub]
    exact filter_sublist.filter _

/-- While no id has outlived its deadline, the markers lead blocks of the last horizon. -/
theorem length_le (hkeys : (entries.map fst).Nodup) (hlive : ∀ e ∈ entries, block ≤ e.2) :
    entries.length ≤ cap + (horizon + 1).toNat := by
  have hsplit := length_eq_length_filter_add (l := entries) (fun e => decide (e.1 ∉ ms.map fst))
  have hothers := h.others
  have hmarkers : (entries.filter fun e => !decide (e.1 ∉ ms.map fst)).length ≤ ms.length := by
    have hlen : (ms.map fst).length = ms.length := length_map _
    rw [← length_map fst, ← hlen]
    refine ((hkeys.sublist (filter_sublist.map _)).subperm fun k hk => ?_).length_le
    obtain ⟨e, he, rfl⟩ := mem_map.1 hk
    simpa using (mem_filter.1 he).2
  have hblocks : ms.length ≤ (horizon + 1).toNat := by
    rw [← length_map snd, ← toFinset_card_of_nodup h.nodup]
    have hcard : (Finset.Icc (block - horizon) block).card = (horizon + 1).toNat := by
      rw [card_Icc]
      congr 1
      omega
    rw [← hcard]
    refine Finset.card_le_card fun b hb => ?_
    obtain ⟨m, hm, rfl⟩ := mem_map.1 (mem_toFinset.1 hb)
    obtain ⟨e, he, hme⟩ := mem_map.1 (h.present m hm)
    have hheld := h.held m hm e.2 (hme ▸ he)
    have hle := h.block_le m hm
    have := hlive e he
    exact Finset.mem_Icc.2 ⟨by omega, hle⟩
  omega

end Led

namespace CanonicalSealerState

variable {cfg : SealerConfig} {s s' : CanonicalSealerState} {op : Op} {ans : Answer}

/-- The markers of the state's window. -/
def Markers (cfg : SealerConfig) (s : CanonicalSealerState) : Prop :=
  ∃ ms, Led cfg.inclusionHorizonBlocks cfg.dedupCapacity s.dedup.dedup.entries s.blockNumber
    (s.lastBoundaryCount < s.canonicalCount) ms

/-- Every id of the window is held at least until the open block and at most for a horizon. -/
structure Held (cfg : SealerConfig) (s : CanonicalSealerState) : Prop where
  block_nonneg : 0 ≤ s.blockNumber
  agree : s.dedup.Agree
  live : s.blockNumber ≤ longMax → ∀ e ∈ s.dedup.dedup.entries, s.blockNumber ≤ e.2
  clamped : ∀ e ∈ s.dedup.dedup.entries, e.2 ≤ s.assignedDeadline cfg

/-- The dedup window along a run. -/
structure Kept (cfg : SealerConfig) (s : CanonicalSealerState) : Prop extends Held cfg s where
  counted : s.lastBoundaryCount ≤ s.canonicalCount
  markers : s.Markers cfg

/-- **The window never holds more than its cap, the horizon and one.** -/
theorem Kept.size_le (h : s.Kept cfg) (hb : s.blockNumber ≤ longMax) :
    s.dedup.size ≤ cfg.dedupCapacity + (cfg.inclusionHorizonBlocks + 1).toNat := by
  obtain ⟨ms, hled⟩ := h.markers
  exact hled.length_le s.dedup.dedup.nodup (h.live hb)

section

variable (hs : 0 ≤ s.blockNumber)
include hs

theorem assignedDeadline_mono (hle : s.blockNumber ≤ s'.blockNumber) :
    s.assignedDeadline cfg ≤ s'.assignedDeadline cfg := by
  have hpos := cfg.horizon_pos
  rw [assignedDeadline, assignedDeadline, saturatingAdd_eq_min hs hpos.le,
    saturatingAdd_eq_min (hs.trans hle) hpos.le]
  omega

theorem blockNumber_le_assignedDeadline (hb : s.blockNumber ≤ longMax) :
    s.blockNumber ≤ s.assignedDeadline cfg := by
  have hpos := cfg.horizon_pos
  rw [assignedDeadline, saturatingAdd_eq_min hs hpos.le]
  omega

theorem assignedDeadline_le :
    s.assignedDeadline cfg ≤ s.blockNumber + cfg.inclusionHorizonBlocks := by
  rw [assignedDeadline, saturatingAdd_eq_min hs cfg.horizon_pos.le]
  exact min_le_left _ _

end

section

variable (h : s.Held cfg)
include h

theorem Held.of_dedup_eq (hd : s'.dedup = s.dedup)
    (hb : s'.blockNumber = s.blockNumber) : s'.Held cfg where
  block_nonneg := hb ▸ h.block_nonneg
  agree := hd ▸ h.agree
  live := by
    rw [hd, hb]
    exact h.live
  clamped := by
    rw [hd, assignedDeadline, hb]
    exact h.clamped

theorem Held.insertFresh (hk : key ∉ s.dedup.dedup.keys)
    {deadline : Int} (hd : s.blockNumber ≤ longMax → s.blockNumber ≤ deadline) :
    (s.insertFresh cfg key deadline).Held cfg where
  block_nonneg := h.block_nonneg
  agree := insertFresh_agree cfg h.agree hk deadline
  live hb := by
    rw [CanonicalSealerState.insertFresh, insertFresh_entries hk]
    exact forall_mem_snoc.2
      ⟨h.live hb, le_min (hd hb) (blockNumber_le_assignedDeadline h.block_nonneg hb)⟩
  clamped := by
    rw [CanonicalSealerState.insertFresh, insertFresh_entries hk]
    exact forall_mem_snoc.2 ⟨h.clamped, min_le_right _ _⟩

theorem Held.onTick_entries (clock : Int) :
    (s.onTick clock).1.dedup.dedup.entries
      = s.dedup.dedup.entries.filter fun e => s.blockNumber + 1 ≤ e.2 :=
  pruneExpired_entries h.agree _

theorem Held.onTick (clock : Int) : (s.onTick clock).1.Held cfg := by
  refine ⟨le_add_one h.block_nonneg, pruneExpired_agree h.agree _, ?_, ?_⟩
  · intro _ e he
    rw [h.onTick_entries] at he
    exact of_decide_eq_true (mem_filter.1 he).2
  · intro e he
    rw [h.onTick_entries] at he
    refine (h.clamped e (mem_filter.1 he).1).trans (assignedDeadline_mono h.block_nonneg ?_)
    exact le_add_one le_rfl

end

section

variable (h : s.Kept cfg)
include h

/-- A step that leaves the window and the block alone. -/
theorem Kept.of_dedup_eq (hd : s'.dedup = s.dedup)
    (hb : s'.blockNumber = s.blockNumber) (hl : s'.lastBoundaryCount = s.lastBoundaryCount)
    (hc : s.canonicalCount ≤ s'.canonicalCount) : s'.Kept cfg := by
  obtain ⟨ms, hled⟩ := h.markers
  refine ⟨h.toHeld.of_dedup_eq hd hb, hl.le.trans (h.counted.trans hc), ms, ?_⟩
  rw [hd, hb, hl]
  exact hled.fill fun hlt => lt_of_lt_of_le hlt hc

/-- A record that fits takes its place among the ids below the cap. -/
theorem Kept.accept {id : CanonicalId} {deadline : Int}
    (hadm : Admissible cfg s id deadline) : (s.insertFresh cfg id deadline).Kept cfg := by
  obtain ⟨ms, hled⟩ := h.markers
  refine ⟨h.toHeld.insertFresh hadm.fresh fun _ => hadm.inTime, h.counted, ms, ?_⟩
  show Led _ _ (s.dedup.insertFresh id _).dedup.entries _ _ _
  rw [insertFresh_entries hadm.fresh]
  exact hled.insert hadm.fresh hadm.room _

/-- A decided void takes one id out of the window. -/
theorem Kept.appendVoid (entry : VoidEntry) : (s.appendVoid entry).1.Kept cfg := by
  obtain ⟨ms, hled⟩ := h.markers
  have hprune := hled.prune fun e => e.1 ≠ entry.id
  rw [← forget_entries] at hprune
  have hsub : ∀ e ∈ (s.dedup.forget entry.id).dedup.entries, e ∈ s.dedup.dedup.entries := by
    rw [forget_entries]
    exact fun e he => (mem_filter.1 he).1
  have hcount : s.canonicalCount ≤ (s.appendVoid entry).1.canonicalCount := le_add_one le_rfl
  exact ⟨⟨h.block_nonneg, forget_agree h.agree _, fun hb e he => h.live hb e (hsub e he),
    fun e he => h.clamped e (hsub e he)⟩, h.counted.trans hcount, _,
    hprune.fill fun hlt => lt_of_lt_of_le hlt hcount⟩

/-- A boundary drops the ids whose deadline passed. -/
theorem Kept.onTick (clock : Int) : (s.onTick clock).1.Kept cfg := by
  obtain ⟨ms, hled⟩ := h.markers
  have hprune := (hled.next (s.canonicalCount < s.canonicalCount)).prune
    fun e => s.blockNumber + 1 ≤ e.2
  rw [← h.onTick_entries clock] at hprune
  exact ⟨h.toHeld.onTick clock, le_rfl, _, hprune⟩

/-- A marker leads the open block when that holds no record, and the next one otherwise. -/
theorem Kept.lead (hk : key ∉ s.dedup.dedup.keys) {clock : Int}
    (hd : s'.dedup = (s.leadBlock cfg key clock).1.dedup)
    (hb : s'.blockNumber = (s.leadBlock cfg key clock).1.blockNumber)
    (hl : s'.lastBoundaryCount = (s.leadBlock cfg key clock).1.lastBoundaryCount)
    (hc : s.canonicalCount < s'.canonicalCount) : s'.Kept cfg := by
  obtain ⟨ms, hled⟩ := h.markers
  have hentries : (s.insertFresh cfg key (s.assignedDeadline cfg)).dedup.dedup.entries
      = s.dedup.dedup.entries ++ [(key, s.assignedDeadline cfg)] := by
    rw [CanonicalSealerState.insertFresh, insertFresh_entries hk, min_self]
  have hins : (s.insertFresh cfg key (s.assignedDeadline cfg)).Held cfg :=
    h.toHeld.insertFresh hk (blockNumber_le_assignedDeadline h.block_nonneg)
  have hdl : s.assignedDeadline cfg ≤ s.blockNumber + cfg.inclusionHorizonBlocks :=
    assignedDeadline_le h.block_nonneg
  rcases leadBlock_cases cfg s key clock with ⟨-, hlead⟩ | ⟨hne, hlead⟩
  · have hdl' : s.assignedDeadline cfg ≤ s.blockNumber + 1 + cfg.inclusionHorizonBlocks := by omega
    have hprune := ((hled.next False).lead not_false hk hdl').prune fun e => s.blockNumber + 1 ≤ e.2
    rw [hlead] at hd hb hl
    have hticked : s'.dedup.dedup.entries
        = (s.dedup.dedup.entries ++ [(key, s.assignedDeadline cfg)]).filter
          fun e => s.blockNumber + 1 ≤ e.2 := by
      rw [hd, ← hentries]
      exact hins.onTick_entries clock
    rw [← hticked] at hprune
    have hnonempty : s'.lastBoundaryCount < s'.canonicalCount := lt_of_eq_of_lt hl hc
    rw [show s.blockNumber + 1 = s'.blockNumber from hb.symm] at hprune
    exact ⟨(hins.onTick clock).of_dedup_eq hd hb, hnonempty.le, _, hprune.fill fun _ => hnonempty⟩
  · have hmark := hled.lead hne hk hdl
    rw [hlead] at hd hb hl
    rw [← hentries, ← hd] at hmark
    have hnonempty : s'.lastBoundaryCount < s'.canonicalCount :=
      lt_of_le_of_lt (hl.le.trans h.counted) hc
    rw [show s.blockNumber = s'.blockNumber from hb.symm] at hmark
    exact ⟨hins.of_dedup_eq hd hb, hnonempty.le, _, hmark.fill fun _ => hnonempty⟩

end

/-- The window is kept by every step. -/
theorem Effect.kept (he : Effect cfg s op s' ans) (h : s.Kept cfg) : s'.Kept cfg := by
  have hc := he.canonicalCount_le
  cases he with
  | inserted hadm => exact h.accept hadm
  | recordZero hadm | recordFrom hadm => exact (h.accept hadm).of_dedup_eq rfl rfl rfl hc
  | voided =>
    refine Kept.appendVoid ?_ _
    exact h.of_dedup_eq rfl rfl rfl le_rfl
  | ticked => exact h.onTick _
  | originAdopted hslots hfresh | remoteAdopted hfresh _ _ hslots =>
    exact h.lead hfresh rfl rfl rfl (Int.lt_add_of_pos_right _ (by omega))
  | _ => exact h.of_dedup_eq rfl rfl rfl hc

theorem Started.kept {s₀ : CanonicalSealerState} (h : Started cfg s₀) : s₀.Kept cfg := by
  have hempty : ∀ s : CanonicalSealerState, 0 ≤ s.blockNumber → s.dedup = .empty →
      s.lastBoundaryCount ≤ s.canonicalCount → s.Kept cfg := by
    intro s hb hd hc
    refine ⟨⟨hb, hd ▸ agree_empty, ?_, ?_⟩, hc, [], ?_⟩
    · simp [hd, empty]
    · simp [hd, empty]
    · rw [hd]
      exact Led.nil
  cases h with
  | genesis => exact hempty _ (by decide) rfl le_rfl
  | seeded seed _ =>
    have := seed.block_pos
    exact hempty _ (show 0 ≤ seed.block + 1 by omega) rfl le_rfl

end CanonicalSealerState

end Kardamom.Sealer
