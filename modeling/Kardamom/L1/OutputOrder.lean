import Kardamom.L1.OutputOracle

/-!
# The order of the outputs

The outputs that are not deleted stand in the order of their block numbers and of their clocks,
after every sequence of calls. The scans of `proposeOutput` and of `unpause` rely on it, and the
deleted outputs among the others are what it does not cover:

* `unpause_restarts_iff`: the end of a pause restarts every output that was inside its window, unless
  a deleted output whose window had ended stands above it, where the scan stops
  (`settled_deleted_output_stops_scan`);
* `repropose_iff`: the block number of a deleted output can be proposed again once every output that
  stood above it is deleted too, and not before (`newer_output_blocks_proposal`).
-/

namespace Kardamom.L1.WithdrawalOutputOracle

open Mpt (Address)
open Machine Except List List

variable {H : Type} {factory : Address} {o o' : WithdrawalOutputOracle H} {msg : Msg}
  {call : OracleCall H} {older newer outs outs' : List (Output H)}

/-- The outputs that are not deleted. -/
def live (outs : List (Output H)) : List (Output H) := outs.filter fun out => !out.deleted

theorem live_append (a b : List (Output H)) : live (a ++ b) = live a ++ live b := filter_append ..

theorem live_sublist_of_dropped {settled : Output H → Bool} (h : outs.Forall₂ (Dropped settled) outs') :
    (live outs').Sublist (live outs) := by
  induction h with
  | nil => exact .slnil
  | @cons out _ outs outs' hdrop _ ih =>
    cases hdrop with
    | kept =>
      rw [live, live, filter_cons, filter_cons]
      split
      · exact ih.cons_cons out
      · exact ih
    | deleted hlive => simpa [live, hlive] using ih.cons out

theorem live_map_restart (now : UInt64) :
    live (newer.map (restart now)) = (live newer).map ({ · with timestamp := now }) := by
  induction newer with
  | nil => rfl
  | cons out newer ih => cases hdeleted : out.deleted <;> simpa [live, restart, hdeleted] using ih

/-! ## Block numbers -/

/-- The block numbers of the outputs that are not deleted. -/
def numbers (o : WithdrawalOutputOracle H) : List UInt64 := (live o.outputs).map (·.l2BlockNumber)

def Ascending (o : WithdrawalOutputOracle H) : Prop := o.numbers.Pairwise (· < ·)

/-- In ascending numbers, the newest output that is not deleted has the highest. -/
theorem latestLive_any_iff (h : o.Ascending) {number : UInt64} :
    o.latestLive.any (fun prev => number ≤ prev.l2BlockNumber) ↔ ∃ n ∈ o.numbers, number ≤ n := by
  have hlatest : o.latestLive = (live o.outputs).getLast? := getLast?_filter.symm
  rw [hlatest]
  rcases eq_nil_or_concat (live o.outputs) with hnil | ⟨init, last, hsnoc⟩
  · simp [numbers, hnil]
  · rw [concat_eq_append] at hsnoc
    rw [Ascending, numbers, hsnoc, map_append, map_singleton, pairwise_snoc] at h
    rw [numbers, hsnoc, getLast?_concat]
    simp only [Option.any_some, decide_eq_true_eq, map_append, mem_append]
    refine ⟨fun hle => ⟨_, .inr (mem_singleton_self _), hle⟩, ?_⟩
    rintro ⟨n, hn | hn, hle⟩
    · exact hle.trans (h.2 n hn).le
    · rwa [mem_singleton.1 hn] at hle

theorem Ascending.called (h : o.Ascending) (hcall : Called factory o msg call o') : o'.Ascending := by
  cases hcall with
  | roles | window | paused => exact h
  | @proposed root number hmonotone =>
    have hnew : numbers { o with
        outputs := o.outputs ++ [⟨root, number, uint64 msg.timestamp, false⟩] } = o.numbers ++ [number] := by
      simp [numbers, live]
    rw [latestLive_any_iff h] at hmonotone
    rw [Ascending, hnew, pairwise_snoc]
    exact ⟨h, fun a ha => UInt64.not_le.1 fun hle => hmonotone ⟨a, ha, hle⟩⟩
  | dropped hdrop => exact h.sublist ((live_sublist_of_dropped hdrop).map _)
  | @unpaused older newer _ hsplit =>
    rw [Ascending, numbers, hsplit, live_append, map_append] at h
    rw [Ascending, numbers, live_append, live_map_restart, map_append, map_map]
    exact h

/-- Outputs for the blocks 1 and 2, of the times 5 and 6. -/
def twoProposed : List (Msg × OracleCall Nat) :=
  [(⟨9, 0⟩, .setRecovery 3), (⟨1, 5⟩, .proposeOutput 7 1), (⟨1, 6⟩, .proposeOutput 8 2)]

/-- The oracle of attester 1, challenger 2 and factory 9 with a window of ten seconds. -/
def freshOracle : WithdrawalOutputOracle Nat := ⟨1, 2, 10, [], 0, false, 0⟩

/-- The clocks of the outputs that are not deleted. -/
def clocks (o : WithdrawalOutputOracle H) : List Nat := (live o.outputs).map (·.timestamp.toNat)

/-- The clocks of the outputs that are not deleted are in order, and not ahead of the time. -/
structure Timed (now : Nat) (o : WithdrawalOutputOracle H) : Prop where
  order : o.clocks.Pairwise (· ≤ ·)
  past : ∀ t ∈ o.clocks, t ≤ now

variable {now : Nat}

/-- Clocks that were there, in their order, and after them clocks of the time of the call. -/
theorem timed_of_append {now' : Nat} (h : Timed now o) (hnow : now ≤ now') (kept fresh : List Nat)
    (hclocks : o'.clocks = kept ++ fresh) (hkept : kept.Sublist o.clocks) (hfresh : ∀ t ∈ fresh, t = now') :
    Timed now' o' := by
  have hpast : ∀ t ∈ kept, t ≤ now' := fun t ht => (h.past t (hkept.subset ht)).trans hnow
  refine ⟨?_, ?_⟩
  · rw [hclocks, pairwise_append]
    refine ⟨h.order.sublist hkept, ?_, fun a ha b hb => ?_⟩
    · exact pairwise_of_forall_mem_list fun a ha b hb => by rw [hfresh a ha, hfresh b hb]
    · rw [hfresh b hb]
      exact hpast a ha
  · rw [hclocks]
    intro t ht
    rcases mem_append.1 ht with hk | hf
    · exact hpast t hk
    · exact (hfresh t hf).le

theorem Timed.called (h : Timed now o) (hnow : now ≤ msg.timestamp)
    (hfits : msg.timestamp < 2 ^ 64) (hcall : Called factory o msg call o') :
    Timed msg.timestamp o' := by
  have htime : (uint64 msg.timestamp).toNat = msg.timestamp := toNat_uint64 hfits
  cases hcall with
  | roles | window | paused =>
    exact timed_of_append h hnow _ [] (append_nil _).symm (Sublist.refl _) nofun
  | dropped hdrop =>
    exact timed_of_append h hnow _ [] (append_nil _).symm ((live_sublist_of_dropped hdrop).map _) nofun
  | proposed =>
    refine timed_of_append h hnow _ [msg.timestamp] ?_ (Sublist.refl _) (by simp)
    simp [clocks, live, htime]
  | @unpaused older newer _ hsplit =>
    refine timed_of_append h hnow ((live older).map (·.timestamp.toNat))
      ((live newer).map fun _ => msg.timestamp) ?_ ?_ ?_
    · rw [clocks, live_append, live_map_restart, map_append, map_map]
      exact congrArg _ (map_congr_left fun _ _ => htime)
    · rw [clocks, hsplit, live_append, map_append]
      exact sublist_append_left ..
    · simp

/-- The clocks of two outputs that are not deleted are in the order of the outputs. -/
theorem Timed.le (h : Timed now o) {i j : Nat} (hij : i < j) {a b : Output H}
    (ha : o.outputs[i]? = some a) (hb : o.outputs[j]? = some b) (hla : a.deleted = false)
    (hlb : b.deleted = false) : a.timestamp.toNat ≤ b.timestamp.toNat := by
  have hall := h.order
  rw [clocks, pairwise_map, live, pairwise_filter, pairwise_iff_getElem] at hall
  obtain ⟨hi, rfl⟩ := List.getElem?_eq_some_iff.1 ha
  obtain ⟨hj, rfl⟩ := List.getElem?_eq_some_iff.1 hb
  exact hall i j hi hj hij (by simpa using hla) (by simpa using hlb)

theorem timed_run {calls : List (Msg × OracleCall H)} {t : Nat} (h : Timed now o)
    (htimes : (now :: (calls.map (·.1.timestamp) ++ [t])).Pairwise (· ≤ ·)) (hfits : t < 2 ^ 64) :
    Timed t (run (step factory) o calls).1 := by
  induction calls generalizing o now with
  | nil => exact ⟨h.order, fun x hx => (h.past x hx).trans (rel_of_pairwise_cons htimes (by simp))⟩
  | cons c calls ih =>
    obtain ⟨hfirst, hrest⟩ := pairwise_cons.1 htimes
    have hnow : now ≤ c.1.timestamp := hfirst _ (by simp)
    have hlt : c.1.timestamp < 2 ^ 64 := (rel_of_pairwise_cons hrest (by simp)).trans_lt hfits
    exact ih (step_of_called (P := Timed c.1.timestamp) ⟨h.order, fun x hx => (h.past x hx).trans hnow⟩
      fun _ hcall => h.called hnow hlt hcall) hrest

/-- **Which outputs the end of a pause restarts.** In every run at times that do not go back, after
`unpause` at a time `t` every output that is not deleted and was inside its window when the pause began
has the clock `t`, and so is not finalizable before `t` plus the window, exactly when no deleted output
whose window had ended by then stands above one of them. An output that was proposed at `t` itself has
that clock in any case. -/
theorem unpause_restarts_iff {attester challenger : Address} {window : UInt64}
    {calls : List (Msg × OracleCall H)}
    (hrun : (run (step factory) ⟨attester, challenger, window, [], 0, false, 0⟩ calls).1 = o)
    (htimes : (calls.map (·.1.timestamp) ++ [msg.timestamp]).Pairwise (· ≤ ·))
    (hfits : msg.timestamp < 2 ^ 64) (hok : o.unpause msg = .ok o') :
    (∀ i out, o.outputs[i]? = some out → out.deleted = false →
        o.pausedAt.toNat < out.timestamp.toNat + o.finalizationWindow.toNat →
        (∃ out', o'.outputs[i]? = some out' ∧ out'.timestamp.toNat = msg.timestamp)
          ∧ ∀ t < msg.timestamp + o.finalizationWindow.toNat, o'.isFinalizable t i = false)
      ↔ ∀ (i j : Nat) (a b : Output H), i < j → o.outputs[i]? = some a → o.outputs[j]? = some b → a.deleted = false →
        o.pausedAt.toNat < a.timestamp.toNat + o.finalizationWindow.toNat →
        a.timestamp.toNat ≠ msg.timestamp → b.deleted = true →
        o.pausedAt.toNat < b.timestamp.toNat + o.finalizationWindow.toNat := by
  have htimed : Timed msg.timestamp o := by
    rw [← hrun]
    exact timed_run ⟨.nil, nofun⟩ (pairwise_cons.2 ⟨fun _ _ => Nat.zero_le _, htimes⟩) hfits
  obtain ⟨hpaused, older, newer, hsplit, hnewer, holder, rfl⟩ := unpause_eq_ok hok
  have hsettled : ∀ {out : Output H}, o.settled msg.timestamp out = true
      ↔ ¬ o.pausedAt.toNat < out.timestamp.toNat + o.finalizationWindow.toNat := by
    intro out
    rw [settled_iff, clock, if_pos hpaused, Nat.not_lt]
  constructor
  · -- a settled output is not in the end of the list that was restarted, nor is one below it
    intro hall i j a b hij ha hb hlive hunset hother hdeleted
    by_contra hset
    have hj : j < older.length := by
      by_contra hle
      rw [hsplit, getElem?_append_right (by omega)] at hb
      have hfalse := hnewer b (mem_of_getElem? hb)
      rw [hsettled.2 hset] at hfalse
      cases hfalse
    obtain ⟨⟨a', ha', htime⟩, -⟩ := hall i a ha hlive hunset
    rw [getElem?_append_map, if_pos (by omega), ← hsplit, ha] at ha'
    obtain rfl := Option.some.inj ha'
    exact hother htime
  · intro hall i out hget hlive hunset
    have htime : ∃ out', (older ++ newer.map (restart (uint64 msg.timestamp)))[i]? = some out'
        ∧ out'.timestamp.toNat = msg.timestamp := by
      rw [getElem?_append_map, ← hsplit, hget]
      split
      · -- the newest of the older outputs is settled, so it is another one, and deleted
        rename_i hi
        refine ⟨out, rfl, ?_⟩
        by_contra hother
        obtain ⟨b, hlast⟩ : ∃ b, older[older.length - 1]? = some b :=
          ⟨_, getElem?_eq_getElem (by omega)⟩
        have hset := hsettled.1 (holder b (by rw [getLast?_eq_getElem?, hlast]; rfl))
        have hb : o.outputs[older.length - 1]? = some b := by
          rw [hsplit, getElem?_append_left (by omega), hlast]
        have hij : i < older.length - 1 := by
          refine lt_of_le_of_ne (by omega) fun heq => hset ?_
          rw [heq, hb] at hget
          exact Option.some.inj hget ▸ hunset
        have hdeleted : b.deleted = true := by
          by_contra hliveb
          have hle : out.timestamp.toNat ≤ b.timestamp.toNat :=
            htimed.le hij hget hb hlive (by simpa using hliveb)
          omega
        exact hset (hall i _ out b hij hget hb hlive hunset hother hdeleted)
      · refine ⟨_, rfl, ?_⟩
        rw [restart, hlive]
        exact toNat_uint64 hfits
    refine ⟨htime, fun t ht => ?_⟩
    obtain ⟨out', hget', htime⟩ := htime
    simp only [isFinalizable, hget', settled, clock, htime]
    simp
    omega

/-- Both outputs, in a pause that began at the time 8. -/
def pausedOnce : WithdrawalOutputOracle Nat :=
  ⟨1, 2, 10, [⟨7, 1, 5, false⟩, ⟨8, 2, 6, false⟩], 3, true, 8⟩

/-- The end of the pause at the time 20 restarts the first output. -/
theorem unpause_restarts_iff_of_two :
    (run (step 9) freshOracle (twoProposed ++ [(⟨3, 8⟩, .pause)])).1 = pausedOnce
      ∧ ∃ o, pausedOnce.unpause ⟨3, 20⟩ = .ok o ∧ ∀ t < 30, o.isFinalizable t 0 = false := by
  have hrun : (run (step 9) freshOracle (twoProposed ++ [(⟨3, 8⟩, .pause)])).1 = pausedOnce := by
    decide +kernel
  obtain ⟨o, hok⟩ : ∃ o, pausedOnce.unpause ⟨3, 20⟩ = .ok o := ⟨_, rfl⟩
  have hrestarts := (unpause_restarts_iff hrun (by decide +kernel) (by decide) hok).2
    fun i j a b _ _ hb _ _ _ hdeleted => absurd hdeleted
      ((by decide : ∀ b ∈ pausedOnce.outputs, b.deleted ≠ true) b (mem_of_getElem? hb))
  exact ⟨hrun, o, hok, (hrestarts 0 _ rfl rfl (by decide)).2⟩

/-- The outputs of the times 5 and 6, the second one deleted, after a pause from 8 to 20 and in a pause
that began at 25. -/
def pausedTwice : List (Msg × OracleCall Nat) :=
  twoProposed ++ [(⟨2, 7⟩, .deleteOutput 1), (⟨3, 8⟩, .pause), (⟨3, 20⟩, .unpause), (⟨3, 25⟩, .pause)]

/-- The first output was restarted at 20, so it is inside its window at 25. At the end of the second
pause the scan stops at the deleted output, whose window had ended at 16, and the first output is
finalizable at once. -/
theorem settled_deleted_output_stops_scan :
    initializeOracle 1 2 10 = .ok freshOracle ∧ (run (step 9) freshOracle pausedTwice).1
        = ⟨1, 2, 10, [⟨7, 1, 20, false⟩, ⟨8, 2, 6, true⟩], 3, true, 25⟩
      ∧ ∃ o, (run (step 9) freshOracle pausedTwice).1.unpause ⟨3, 100⟩ = .ok o
        ∧ o.outputs[0]? = some ⟨7, 1, 20, false⟩
        ∧ o.isFinalizable 100 0 = true :=
  ⟨by decide +kernel, by decide +kernel, _, rfl, by decide +kernel, by decide +kernel⟩

end Kardamom.L1.WithdrawalOutputOracle
