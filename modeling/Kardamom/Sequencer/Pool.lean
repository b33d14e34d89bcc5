import Kardamom.Lib.Path
import Kardamom.Sequencer.Admission

/-!
# The mempool of the filter

What the filter is for, seen from the outside: a pool of transactions. An offer adds a transaction, a
forward or a refusal takes one out, an ack marks one that had no answer, and nothing else touches the
pool. `Pool.Step` says this for one event of the log, over the multiset of the transactions that the
pool holds.

Every function of the filter refines it: its log is a path of the pool from the parked transactions
before the call to the ones after it (`settles_…` for one sender, `path_…` for the filter). The
conservation law of the filter is then the conservation law of the pool.
-/

namespace Kardamom.Sequencer

open Wire (Address)
open Labelled (Path)
open Multiset Prod SortedMap List Multiset

variable {T : Type}

/-! ## The pool -/

namespace Pool

/-- One event of the log, over the transactions that the pool holds. -/
inductive Step : Multiset (Candidate T) → Event T → Multiset (Candidate T) → Prop
  | offered (c : Candidate T) (M : Multiset (Candidate T)) : Step M (.offered c) (c ::ₘ M)
  | applied (x : Address) (st : AccountState) (M : Multiset (Candidate T)) :
      Step M (.applied x st) M
  | lost (x : Address) (M : Multiset (Candidate T)) : Step M (.lost x) M
  | forward (c : Candidate T) (M : Multiset (Candidate T)) :
      Step (c ::ₘ M) (.verdict (.forward c)) M
  | reject (c : Candidate T) (r : Refusal) (M : Multiset (Candidate T)) :
      Step (c ::ₘ M) (.verdict (.reject c r)) M
  | lookup (x : Address) (M : Multiset (Candidate T)) : Step M (.verdict (.lookup x)) M
  | accept (c : Candidate T) (M : Multiset (Candidate T)) (h : c.answered = false) :
      Step (c ::ₘ M) (.verdict (.accept c.ack)) (c.marked ::ₘ M)

/-- The rest of the pool stays as it is. -/
theorem Step.frame {M M' : Multiset (Candidate T)} {e : Event T} (h : Step M e M')
    (F : Multiset (Candidate T)) : Step (M + F) e (M' + F) := by
  cases h with
  | offered c => exact cons_add c M F ▸ .offered c _
  | applied x st => exact .applied x st _
  | lost x => exact .lost x _
  | forward c => exact cons_add c M' F ▸ .forward c _
  | reject c r => exact cons_add c M' F ▸ .reject c r _
  | lookup x => exact .lookup x _
  | accept c M hc =>
    rw [cons_add, cons_add]
    exact .accept c _ hc

/-- The verdicts lead from one content of the pool to another. -/
def Settles (M : Multiset (Candidate T)) (vs : List (Verdict T)) (M' : Multiset (Candidate T)) :
    Prop := Path Step M (vs.map .verdict) M'

namespace Settles

variable {M M' M'' F : Multiset (Candidate T)} {vs ws : List (Verdict T)}

theorem refl (M : Multiset (Candidate T)) : Settles M [] M := .nil M

section

variable (h : Settles M vs M')
include h

theorem append (h' : Settles M' ws M'') : Settles M (vs ++ ws) M'' := by
  unfold Settles
  rw [map_append]
  exact Path.append h h'

theorem frame (F : Multiset (Candidate T)) : Settles (M + F) vs (M' + F) := by
  have hmap := Labelled.Path.map (f := fun M => M + F) (g := id) (fun _ _ _ hst => Step.frame hst F) h
  rwa [List.map_id] at hmap

theorem cons (c : Candidate T) : Settles (c ::ₘ M) vs (c ::ₘ M') := by
  rw [← singleton_add, ← singleton_add, Multiset.add_comm, Multiset.add_comm _ M']
  exact h.frame {c}

end

section

variable (c : Candidate T) (M : Multiset (Candidate T))

theorem forward :
    Settles (c ::ₘ M) [.forward c] M := .single (.forward c M)

theorem reject (c : Candidate T) (r : Refusal) (M : Multiset (Candidate T)) :
    Settles (c ::ₘ M) [.reject c r] M := .single (.reject c r M)

theorem lookup (x : Address) (M : Multiset (Candidate T)) : Settles M [.lookup x] M :=
  .single (.lookup x M)

/-- The answer of a transaction in the pool: an ack for one that had none. -/
theorem answer : Settles (c ::ₘ M) (c.answer.2.map .accept).toList (c.answer.1 ::ₘ M) := by
  cases hc : c.answered with
  | false =>
    have : c.answer = (c.marked, some c.ack) := by simp [Candidate.answer, hc]
    rw [this]
    exact .single (.accept c M hc)
  | true =>
    have : c.answer = (c, none) := by
      simp only [Candidate.answer, hc, if_pos]
      rw [Candidate.marked, ← hc]
    rw [this]
    exact refl _

end

/-- The answers of every transaction of a list. -/
theorem answers (cs : List (Candidate T)) :
    Settles (cs : Multiset (Candidate T)) (cs.filterMap fun c => c.answer.2.map .accept)
      (cs.map fun c => c.answer.1 : List (Candidate T)) := by
  induction cs with
  | nil => exact refl _
  | cons c cs ih =>
    have hhead := answer c (cs : Multiset (Candidate T))
    have hall := hhead.append (ih.cons c.answer.1)
    cases ho : c.answer.2 <;> simpa [ho] using hall

/-- The refusals of every transaction of a list. -/
theorem rejects (cs : List (Candidate T)) (r : Refusal) (M : Multiset (Candidate T)) :
    Settles (cs + M : Multiset (Candidate T)) (cs.map fun c => .reject c r) M := by
  induction cs with
  | nil => simpa using refl M
  | cons c cs ih =>
    have hhead := reject c r (cs + M : Multiset (Candidate T))
    rw [← cons_coe, cons_add]
    exact hhead.append ih

end Settles

end Pool

/-! ## One sender -/

namespace SenderState

open Pool

variable {cfg : AdmissionConfig}

/-- The parked transactions of a sender, as a part of the pool. -/
def pool (s : SenderState T) : Multiset (Candidate T) := s.waiting

variable {c : Candidate T}

section

variable (s : SenderState T)

theorem pool_upsert {n : UInt64} (h : s.parked.get? n = none) :
    pool { s with parked := s.parked.upsert n fun _ => c } = c ::ₘ s.pool := by
  rw [pool, pool, cons_coe, coe_eq_coe]
  exact (perm_entries_upsert h).map snd

theorem pool_popParked {s : SenderState T} {n : UInt64}
    {rest : List (UInt64 × Candidate T)} (h : s.parked.entries = (n, c) :: rest) :
    s.pool = c ::ₘ s.popParked.pool := by
  simp [pool, waiting, popParked, h]

section

variable (c : Candidate T)

theorem settles_park (answer : Answer) :
    Settles (c ::ₘ s.pool) (s.park cfg c answer).2.1 (s.park cfg c answer).1.pool := by
  unfold park
  split
  case isTrue => exact .reject c _ _
  case isFalse hfree =>
    have hnone : s.parked.get? c.nonce = none := by simpa using hfree
    split
    case isTrue => exact .reject c _ _
    case isFalse =>
      cases answer with
      | accept =>
        rw [pool_upsert s hnone]
        exact .answer c _
      | wait =>
        rw [pool_upsert s hnone]
        exact .refl _

theorem settles_parkForLookup :
    Settles (c ::ₘ s.pool) (s.parkForLookup cfg c).2.1 (s.parkForLookup cfg c).1.pool := by
  have hpark : Settles (c ::ₘ s.pool) (s.park cfg c .wait).2.1 _ := settles_park s c .wait
  unfold parkForLookup
  dsimp only
  split
  case isTrue => exact hpark.append (.lookup c.sender _)
  case isFalse => exact hpark

theorem settles_forwardOrPark (st : AccountState) :
    Settles (c ::ₘ s.pool) (s.forwardOrPark cfg c st).2.1 (s.forwardOrPark cfg c st).1.pool := by
  unfold forwardOrPark
  split
  case isTrue => exact settles_park s c .accept
  case isFalse =>
    split
    case isTrue => exact .reject c _ _
    case isFalse => exact .forward c _

end

theorem settles_releaseOne : Settles s.pool (s.releaseOne cfg).2.1 (s.releaseOne cfg).1.pool := by
  have hr := released cfg s
  generalize s.releaseOne cfg = r at hr
  cases hr with
  | stuck => exact .refl _
  | refused _ hes =>
    rw [pool_popParked hes]
    exact .reject _ _ _
  | sent _ hes =>
    rw [pool_popParked hes]
    exact .forward _ _

theorem settles_release : Settles s.pool (s.release cfg).2 (s.release cfg).1.pool :=
  release_induction (P := fun s vs t => Settles s.pool vs t.pool) settles_releaseOne
    (fun _ _ _ _ _ => Settles.append) (fun _ => .refl _) s

theorem settles_offer (c : Candidate T) :
    Settles (c ::ₘ s.pool) (s.offer cfg c).2.1 (s.offer cfg c).1.pool := by
  unfold offer
  cases s.state with
  | none => exact settles_parkForLookup s c
  | some st =>
    dsimp only
    split
    case isTrue => exact .reject c _ _
    case isFalse =>
      split
      case isTrue => exact .reject c _ _
      case isFalse =>
        split
        case isTrue => exact settles_park s c .accept
        case isFalse => exact (settles_forwardOrPark s c st).append (settles_release _)

theorem parked_confirm (k : UInt64) (s : SenderState T) : (s.confirm k).parked = s.parked := by
  unfold confirm
  generalize s.forwarded.length + 1 = n
  induction n generalizing s with
  | zero => rfl
  | succ n ih =>
    rw [confirmLoop]
    cases h : s.confirmOne k with
    | none => rfl
    | some s' =>
      have hs' : s'.parked = s.parked := by
        unfold confirmOne at h
        split at h
        · cases h
        · split at h
          · cases h
          · cases h; rfl
      exact (ih s').trans hs'

theorem settles_acceptParked : Settles s.pool s.acceptParked.2 s.acceptParked.1.pool := by
  have h := Settles.answers s.waiting
  simpa [pool, waiting, acceptParked, Function.comp_def] using h

/-- The parked transactions below a nonce are refused, the others stay. -/
theorem settles_below (k : UInt64) (r : Refusal) :
    Settles s.pool ((s.parked.headMap k).entries.map fun e => .reject e.2 r) (s.keepFrom k).pool := by
  have hsplit : s.pool
      = ((s.parked.headMap k).entries.map snd : List (Candidate T)) + (s.keepFrom k).pool := by
    rw [pool, pool, coe_add, coe_eq_coe, waiting, waiting, ← map_append]
    exact ((filter_append_perm (fun e => decide (e.1 < k)) s.parked.entries).map snd).symm
  have h := Settles.rejects ((s.parked.headMap k).entries.map Prod.snd) r (s.keepFrom k).pool
  rw [List.map_map] at h
  exact hsplit ▸ h

theorem settles_onState (st : AccountState) (fromLookup : Bool) :
    Settles s.pool (s.onState cfg st fromLookup).2 (s.onState cfg st fromLookup).1.pool := by
  have hasked : (s.endLookup fromLookup).pool = s.pool := by
    unfold endLookup
    split <;> rfl
  rw [← hasked, onState]
  generalize s.endLookup fromLookup = s
  split
  case isTrue =>
    have hpool : s.pool = ((s.adopt st fromLookup).confirm st.nonce).pool := by
      rw [pool, pool, waiting, waiting, parked_confirm, adopt]
    rw [hpool]
    exact ((settles_below _ st.nonce _).append (settles_release _)).append (settles_acceptParked _)
  case isFalse => exact .refl _

theorem settles_onLost (nonce : UInt64) :
    Settles s.pool (s.onLost cfg nonce).2.1 (s.onLost cfg nonce).1.pool := by
  unfold onLost
  split
  case isTrue => exact .refl _
  case isFalse => exact settles_release s.clearRun

end

theorem pool_unpark {s s' : SenderState T} {nonce unit : UInt64}
    (h : s.unpark nonce unit = some (c, s')) : s.pool = c ::ₘ s'.pool := by
  unfold unpark at h
  split at h
  case h_1 c' hget =>
    split at h
    case isTrue =>
      obtain ⟨rfl, rfl⟩ : c' = c ∧ _ = s' := by simpa using h
      rw [pool, pool, cons_coe, coe_eq_coe]
      exact (perm_entries_remove hget).map snd
    case isFalse => cases h
  case h_2 => cases h

end SenderState

end Kardamom.Sequencer
