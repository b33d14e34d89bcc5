import Mathlib.Algebra.Order.Group.Multiset
import Kardamom.Sequencer.Pool

/-!
# No transaction is dropped or duplicated by the filter

The log of every list of calls is a path of the pool (`path_log`), from the empty pool to the parked
transactions of all senders. Three counts along a path of the pool then give the conservation law of
the filter: the transactions that came in are the ones that went out and the ones that are left, each
as often, and an ack goes to a transaction that has no final verdict, once.
-/

namespace Kardamom.Sequencer

open Wire (Address)
open Labelled (Path)
open Pool Candidate SenderState LinkedMap Multiset Machine

variable {T : Type}

/-! ## The filter refines the pool -/

namespace Admission

/-- The parked transactions of every sender of a map. -/
def poolOf (m : LinkedMap Address (SenderState T)) : Multiset (Candidate T) :=
  m.entries.flatMap fun e => e.2.waiting

variable {cfg : AdmissionConfig} {m m' : Senders T} {x : Address}
  {s' : SenderState T} {o : List (Candidate T)} {es : List (Event T)}

theorem poolOf_put (m : Senders T) (x : Address) (s : SenderState T) :
    poolOf (m.put x s) = s.pool + poolOf (m.remove x) :=
  coe_eq_coe.2 ((perm_entries_put m x s).flatMap_right _)

/-- The pool is the part of one sender, known or not, and the part of the others. -/
theorem poolOf_eq (m : Senders T) (x : Address) :
    poolOf m = (senderOf m x).pool + poolOf (m.remove x) := by
  cases h : m.get? x with
  | some s =>
    rw [senderOf_eq h]
    exact coe_eq_coe.2 ((perm_entries_remove h).flatMap_right _)
  | none =>
    rw [remove_of_not_mem (get?_eq_none_iff.1 h), senderOf, h]
    exact (zero_add _).symm

/-- What one sender settles, the filter settles. -/
theorem settles_put (vs : List (Verdict T)) (h : Settles (senderOf m x).pool vs s'.pool) :
    Settles (poolOf m) vs (poolOf (m.put x s')) := by
  rw [poolOf_eq m x, poolOf_put]
  exact h.frame _

/-- An idle sender holds no transaction. -/
theorem poolOf_filter_idle (m : Senders T) : poolOf (m.filter fun e => !e.2.isIdle) = poolOf m := by
  rw [poolOf, entries_filter]
  congr 1
  induction m.entries with
  | nil => rfl
  | cons e es ih =>
    cases hidle : e.2.isIdle with
    | false => rw [List.filter_cons_of_pos (by simp [hidle]), List.flatMap_cons, List.flatMap_cons, ih]
    | true =>
      have hnil : e.2.waiting = [] := by
        simp only [isIdle, Bool.and_eq_true, List.isEmpty_iff] at hidle
        rw [waiting, hidle.2, List.map_nil]
      rw [List.filter_cons_of_neg (by simp [hidle]), List.flatMap_cons, hnil, ih, List.nil_append]

theorem poolOf_forgetState (m : Senders T) : poolOf (m.mapValues forgetState) = poolOf m := by
  rw [poolOf, mapValues, List.flatMap_map]
  rfl

/-- One touch of the senders refines the pool. -/
theorem Touch.path (h : Touch cfg m o es m') : Path Step (poolOf m) es (poolOf m') := by
  cases h with
  | offer c =>
    have hone : Settles (c ::ₘ poolOf m) ((senderOf m c.sender).offer cfg c).2.1
        (poolOf (m.put c.sender ((senderOf m c.sender).offer cfg c).1)) := by
      rw [poolOf_eq m c.sender, poolOf_put, ← cons_add]
      exact (settles_offer _ c).frame _
    exact .cons (.offered c _) hone
  | applied x st fromLookup =>
    exact .cons (.applied x st _) (settles_put _ (settles_onState _ st fromLookup))
  | stale x st fromLookup => exact settles_put _ (settles_onState _ st fromLookup)
  | lost x nonce => exact .cons (.lost x _) (settles_put _ (settles_onLost _ nonce))
  | @expired x _ _ c s' hunpark r =>
    have hone : Settles (senderOf m x).pool [.reject c r] s'.pool := by
      rw [pool_unpark hunpark]
      exact .reject c r _
    exact settles_put _ hone
  | relooked x =>
    refine settles_put _ ?_
    split
    case isTrue => exact .lookup x _
    case isFalse => exact .refl _
  | queued x | same x => exact settles_put [] (.refl _)
  | forgotIdle =>
    rw [poolOf_filter_idle]
    exact .nil _
  | rolledBack =>
    rw [poolOf_forgetState]
    exact .nil _

theorem Touches.path (h : Touches cfg m o es m') : Path Step (poolOf m) es (poolOf m') := by
  induction h with
  | nil m => exact .nil _
  | cons htouch _ ih => exact htouch.path.append ih

/-- Every list of calls refines the pool. -/
theorem path_log (cfg : AdmissionConfig) (now : Nat) (calls : List (Call T)) :
    Path Step 0 (log cfg now calls) ((after cfg now calls).held : Multiset (Candidate T)) := by
  refine run_induction
    (P := fun (a : Admission T) τ => Path Step 0 (τ.flatMap Prod.snd) (poolOf a.senders)) (.nil _)
    ?_ calls
  intro a τ call h
  rw [List.flatMap_append, List.flatMap_singleton]
  exact h.append (traces_step a call).touches.path

end Admission

/-! ## Counting along a path of the pool -/

section

variable (es : List (Event T))

/-- The transactions offered in a log. -/
def offered : List (Candidate T) := es.filterMap fun
    | .offered c => some c
    | _ => none

/-- The transactions with a final verdict in a log. -/
def finals : List (Candidate T) := es.filterMap fun
    | .verdict (.forward c) => some c
    | .verdict (.reject c _) => some c
    | _ => none

/-- The transactions forwarded in a log. -/
def sent : List (Candidate T) := es.filterMap fun
    | .verdict (.forward c) => some c
    | _ => none

/-- The transactions refused in a log. -/
def refused : List (Candidate T) := es.filterMap fun
    | .verdict (.reject c _) => some c
    | _ => none

end

theorem length_finals (es : List (Event T)) :
    (finals es).length = (sent es).length + (refused es).length := by
  induction es with
  | nil => rfl
  | cons e es ih =>
    simp only [finals, sent, refused, List.filterMap_cons] at ih ⊢
    rcases e with _ | _ | _ | _ | _ | _ | _ <;> simp only [List.length_cons] <;> omega

/-- The acks of a log. -/
def accepts (es : List (Event T)) : List Ack := es.filterMap fun
    | .verdict (.accept k) => some k
    | _ => none

/-- The transaction as it was offered, with no answer. -/
def Candidate.unmarked (c : Candidate T) : Candidate T := { c with answered := false }

/-- How many transactions of a list have the ack `k`. -/
def countAck (k : Ack) (cs : List (Candidate T)) : Nat := cs.countP (·.ack = k)

namespace Pool

variable {M M' : Multiset (Candidate T)} {es : List (Event T)}

variable (h : Path Step M es M')
include h

/-- What was there and what came in is what went out and what is left, but for the answers. -/
theorem balance :
    M.map unmarked + ((offered es).map unmarked : List (Candidate T))
      = ((finals es).map unmarked : List (Candidate T)) + M'.map unmarked := by
  induction h with
  | nil => simp [offered, finals]
  | cons hst _ ih =>
    cases hst with
    | offered c => simpa [offered, finals, ← cons_coe] using ih
    | applied | lost | lookup => simpa [offered, finals] using ih
    | forward c | reject c =>
      simpa [offered, finals, ← cons_coe] using congrArg (c.unmarked ::ₘ ·) ih
    | accept c M hc => simpa [offered, finals, unmarked, marked] using ih

/-- The same for the transactions of one ack. -/
theorem countAck_balance (k : Ack) :
    M.countP (·.ack = k) + countAck k (offered es)
      = countAck k (finals es) + M'.countP (·.ack = k) := by
  have hk := congrArg (countP (·.ack = k)) (balance h)
  have hack : ∀ c : Candidate T, c.unmarked.ack = c.ack := fun _ => rfl
  simpa only [countP_add, countP_map, ← countP_eq_card_filter,
    coe_countP, List.countP_map, Function.comp_def, hack, countAck] using hk

/-- An ack goes to a transaction that was there with no answer, or that came in since. -/
theorem accepts_le (k : Ack) :
    (accepts es).count k + M'.countP (fun c => c.answered = false ∧ c.ack = k)
      ≤ M.countP (fun c => c.answered = false ∧ c.ack = k) + countAck k (offered es) := by
  induction h with
  | nil => simp [accepts, offered]
  | cons hst _ ih =>
    cases hst with
    | applied | lost | lookup => simpa [accepts, offered] using ih
    | offered c =>
      simp only [accepts, offered, countAck, List.filterMap_cons, List.countP_cons,
        countP_cons] at ih ⊢
      split at ih <;> simp_all <;> omega
    | forward c | reject c =>
      simp only [accepts, offered, List.filterMap_cons, countP_cons] at ih ⊢
      omega
    | accept c M hc =>
      simp only [accepts, offered, countAck, List.filterMap_cons, countP_cons,
        List.count_cons, marked] at ih ⊢
      by_cases hk : c.ack = k
      · simp_all
        omega
      · simp_all

end Pool

/-! ## The conservation law -/

@[simp] theorem offered_append (es fs : List (Event T)) :
    offered (es ++ fs) = offered es ++ offered fs := List.filterMap_append

@[simp] theorem offered_verdicts (vs : List (Verdict T)) : offered (vs.map .verdict) = [] :=
  List.filterMap_eq_nil_iff.2 fun e he => by
    obtain ⟨v, -, rfl⟩ := List.mem_map.1 he
    rfl

namespace Admission

variable {cfg : AdmissionConfig} {m m' : Senders T} {o : List (Candidate T)} {es : List (Event T)}

/-- The log names the transactions that the touches offer, and no other. -/
theorem Touches.offered (h : Touches cfg m o es m') : Sequencer.offered es = o := by
  induction h with
  | nil => rfl
  | cons htouch _ ih =>
    rw [offered_append]
    congr 1
    cases htouch with
    | offer c => exact congrArg (c :: ·) (offered_verdicts _)
    | applied | stale | lost | relooked => exact offered_verdicts _
    | _ => rfl

theorem offered_log (cfg : AdmissionConfig) (now : Nat) (calls : List (Call T)) :
    offered (log cfg now calls) = offers calls := by
  suffices h : ∀ a : Admission T, offered ((run step a calls).2.flatMap Prod.snd)
      = offers calls from h _
  induction calls with
  | nil => exact fun _ => rfl
  | cons call calls ih =>
    intro a
    have hcons : offers (call :: calls) = offers [call] ++ offers calls :=
      List.filterMap_append (l := [call])
    rw [run_cons, List.flatMap_cons, offered_append, ih, (traces_step a call).touches.offered,
      hcons]

/-- **Conservation.** After every list of calls:

* the transactions offered are the ones with a final verdict and the ones that are parked, each as
  often (but for the mark of the answer);
* so the offers are the forwards, the refusals and the parked transactions, in number;
* wherever the log is cut, the acks after the cut go to transactions that have no final verdict
  before it, one each. -/
theorem filter_conserves (cfg : AdmissionConfig) (now : Nat) (calls : List (Call T)) :
    ((offers calls).map unmarked).Perm
        ((finals (log cfg now calls) ++ (after cfg now calls).held).map unmarked)
      ∧ (offers calls).length
          = (sent (log cfg now calls)).length + (refused (log cfg now calls)).length
            + (after cfg now calls).held.length
      ∧ ∀ n k, (accepts ((log cfg now calls).drop n)).count k
            + countAck k (finals ((log cfg now calls).take n)) ≤ countAck k (offers calls) := by
  have hpath := path_log cfg now calls
  have hperm : ((offers calls).map unmarked).Perm
      ((finals (log cfg now calls) ++ (after cfg now calls).held).map unmarked) := by
    have h := balance hpath
    rw [map_zero, zero_add, map_coe, coe_add, coe_eq_coe, offered_log, ← List.map_append] at h
    exact h
  refine ⟨hperm, ?_, ?_⟩
  · have hlen := hperm.length_eq
    rw [List.length_map, List.length_map, List.length_append, length_finals] at hlen
    exact hlen
  · intro n k
    have hcut := List.take_append_drop n (log cfg now calls)
    generalize (log cfg now calls).take n = before at hcut ⊢
    generalize (log cfg now calls).drop n = since at hcut ⊢
    -- the pool at the cut holds the transactions that have no final verdict yet
    obtain ⟨M, hbefore, hsince⟩ := (hcut ▸ hpath).split
    have hin := countAck_balance hbefore k
    have hacks := accepts_le hsince k
    have hfree : M.countP (fun c => c.answered = false ∧ c.ack = k) ≤ M.countP (·.ack = k) :=
      by
        rw [countP_eq_card_filter, countP_eq_card_filter]
        exact card_le_card (monotone_filter_right M fun _ h => h.2)
    have hall : countAck k (offers calls) = countAck k (offered before) + countAck k (offered since) := by
      rw [← offered_log cfg now calls, ← hcut, offered_append]
      exact List.countP_append
    rw [countP_zero] at hin
    omega

end Admission

end Kardamom.Sequencer
