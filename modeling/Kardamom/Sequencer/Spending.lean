import Kardamom.Lib.Path
import Kardamom.Sequencer.Admission

/-!
# What the filter lets a sender spend

The books that an observer of the log keeps for a sender: the newest state that the filter applied,
and the run of transactions that it forwarded and that no state confirmed. A newer state confirms the
run from its front while the nonces are below its own; a lost transaction ends the run.

`Account.Step` says when a forward is sound for those books, and the filter refines it: after every
list of calls each sender is tracked by its books (`Tracks`), and every forward of the log was sound.
Saturation is excluded there: the stored `spend` is the sum of the run.
-/

namespace Kardamom.Sequencer

open Wire (Address)
open Labelled (Path)
open Words List List Candidate UInt64

variable {T : Type}

/-- The worst-case cost of a run. -/
def total (run : List (Candidate T)) : Nat := (run.map fun c => c.cost.toNat).sum

@[simp] theorem total_nil : total ([] : List (Candidate T)) = 0 := rfl

@[simp] theorem total_cons (c : Candidate T) (run : List (Candidate T)) :
    total (c :: run) = c.cost.toNat + total run := by simp [total]

@[simp] theorem total_append (run run' : List (Candidate T)) :
    total (run ++ run') = total run + total run' := by simp [total]

/-- The nonces of the run follow each other from `n` on, as words do. -/
def Consecutive : UInt64 → List (Candidate T) → Prop
  | _, [] => True
  | n, c :: run => c.nonce = n ∧ Consecutive (n + 1) run

variable {c : Candidate T}

theorem consecutive_snoc {n : UInt64} {run : List (Candidate T)} :
    Consecutive n (run ++ [c]) ↔ Consecutive n run ∧ c.nonce = n + ofNat run.length := by
  induction run generalizing n with
  | nil => simp [Consecutive]
  | cons d run ih =>
    rw [cons_append, Consecutive, ih, Consecutive, length_cons, ofNat_add,
      and_assoc, UInt64.add_assoc, UInt64.add_comm 1]
    rfl

/-- Words that follow each other are consecutive numbers exactly when they do not wrap. -/
theorem Consecutive.toNat_iff {n : UInt64} {run : List (Candidate T)} (h : Consecutive n run) :
    run.map (fun c => c.nonce.toNat) = range' n.toNat run.length
      ↔ run = [] ∨ n.toNat + run.length ≤ 2 ^ 64 := by
  induction run generalizing n with
  | nil => simp
  | cons c run ih =>
    obtain ⟨rfl, hrun⟩ := h
    have hc := c.nonce.toNat_lt
    rw [map_cons, length_cons, range'_succ, cons_inj_right]
    cases run with
    | nil => simpa using by omega
    | cons d run =>
      by_cases hwrap : c.nonce.toNat + 1 < 2 ^ 64
      · have hn : (c.nonce + 1).toNat = c.nonce.toNat + 1 := by
          exact Nat.mod_eq_of_lt hwrap
        rw [← hn, ih hrun]
        simp [length_cons]
        omega
      · have hd : d.nonce.toNat = 0 := by
          rw [hrun.1]
          show (c.nonce.toNat + 1) % 2 ^ 64 = 0
          omega
        refine iff_of_false (fun heq => ?_) (by simp; omega)
        rw [map_cons] at heq
        have hhead := (cons.inj heq).1
        omega

/-! ## The books of one sender -/

/-- The books of one sender: the newest state applied, and the run since it was last forgotten. -/
structure Account (T : Type) where
  newest : Option AccountState
  run : List (Candidate T)

open Account

namespace Account

/-- No state was applied and nothing forwarded. -/
def empty : Account T := ⟨none, []⟩

section

variable (acc : Account T)

def push (c : Candidate T) : Account T := { acc with run := acc.run ++ [c] }

/-- A newer state confirms the run from its front. -/
def apply (st : AccountState) : Account T :=
  ⟨some st, acc.run.dropWhile fun c => c.nonce < st.nonce⟩

def lose : Account T := { acc with run := [] }

end

/-- A forward that the books allow: the run with it is consecutive and within the length limits, and
either the balance covers it, or it costs nothing while the balance is below the run already. -/
structure Sound (cfg : AdmissionConfig) (acc : Account T) (c : Candidate T) : Prop where
  state : ∃ st, acc.newest = some st ∧ (st.delegated = true → acc.run = []) ∧
    (total acc.run + c.cost.toNat ≤ st.balance.toNat ∨
      c.cost.toNat = 0 ∧ st.balance.toNat < total acc.run)
  first : ∃ n, Consecutive n (acc.run ++ [c])
  room : acc.run.length < cfg.maxForwarded
  exact : total acc.run + c.cost.toNat < 2 ^ 256

/-- One verdict, over the books of the sender `x`. -/
inductive Step (cfg : AdmissionConfig) (x : Address) : Account T → Verdict T → Account T → Prop
  | forward (acc : Account T) (c : Candidate T) (hx : c.sender = x) (h : acc.Sound cfg c) :
      Step cfg x acc (.forward c) (acc.push c)
  | reject (acc : Account T) (c : Candidate T) (r : Refusal) : Step cfg x acc (.reject c r) acc
  | lookup (acc : Account T) (y : Address) : Step cfg x acc (.lookup y) acc
  | accept (acc : Account T) (k : Ack) : Step cfg x acc (.accept k) acc

variable {cfg : AdmissionConfig} {x : Address}

/-- Refusals change no books. -/
theorem path_rejects {α : Type*} (acc : Account T) (l : List α) (c : α → Candidate T) (r : Refusal) :
    Path (Step cfg x) acc (l.map fun e => .reject (c e) r) acc := by
  induction l with
  | nil => exact .nil _
  | cons e l ih => exact .cons (.reject _ _ _) ih

/-- Acks change no books. -/
theorem path_accepts (acc : Account T) (ks : List Ack) :
    Path (Step cfg x) acc (ks.map .accept) acc := by
  induction ks with
  | nil => exact .nil _
  | cons k ks ih => exact .cons (.accept _ _) ih

end Account

/-! ## A sender is tracked by its books -/

/-- The state of the sender `x` is what its books say. -/
structure Tracks (x : Address) (s : SenderState T) (acc : Account T) : Prop where
  newest : ∀ st, s.state = some st → acc.newest = some st
  costs : s.forwarded = acc.run.map cost
  nonces : Consecutive s.first acc.run
  spend : s.spend.toNat = total acc.run
  parked : ∀ e ∈ s.parked.entries, e.2.sender = x ∧ e.2.nonce = e.1

namespace Tracks

open SenderState

variable {cfg : AdmissionConfig} {x : Address} {s : SenderState T} {acc : Account T}

/-- A fresh sender has an empty run. -/
theorem of_default {acc : Account T} (h : acc.run = []) : Tracks x (.default : SenderState T) acc where
  newest := nofun
  costs := by rw [h]; rfl
  nonces := by rw [h]; trivial
  spend := by rw [h]; rfl
  parked := nofun

variable (h : Tracks x s acc)
include h

/-- A change of the marks and of the parked transactions only. -/
theorem of_parked {s' : SenderState T}
    (hstate : ∀ st, s'.state = some st → s.state = some st) (hcosts : s'.forwarded = s.forwarded)
    (hfirst : s'.first = s.first) (hspend : s'.spend = s.spend)
    (hparked : ∀ e ∈ s'.parked.entries, e.2.sender = x ∧ e.2.nonce = e.1) : Tracks x s' acc where
  newest st hst := h.newest st (hstate st hst)
  costs := hcosts.trans h.costs
  nonces := hfirst ▸ h.nonces
  spend := hspend ▸ h.spend
  parked := hparked

theorem length_forwarded : s.forwarded.length = acc.run.length := by
  rw [h.costs, length_map]

theorem isEmpty_forwarded : s.forwarded.isEmpty = acc.run.isEmpty := by
  rw [h.costs, isEmpty_map]

/-- A forward at the next nonce, of a run that is not busy, with the funds for it. -/
theorem push {st : AccountState} (hst : s.state = some st)
    (hfree : s.busy cfg st = false) (hfunds : ¬ satSub st.balance s.spend < c.cost)
    (hnonce : c.nonce = s.nextNonce st) :
    acc.Sound cfg c ∧ Tracks x (s.pushForwarded c) (acc.push c) := by
  have hcover : total acc.run + c.cost.toNat ≤ st.balance.toNat ∨
      c.cost.toNat = 0 ∧ st.balance.toNat < total acc.run := by
    rw [BitVec.lt_def, toNat_satSub, h.spend] at hfunds
    omega
  have hexact : total acc.run + c.cost.toNat < 2 ^ 256 := by
    have hspend := h.spend ▸ s.spend.isLt
    omega
  have hnonces : Consecutive (s.pushForwarded c).first (acc.run ++ [c]) := by
    rw [consecutive_snoc, pushForwarded, h.isEmpty_forwarded]
    rw [nextNonce, h.isEmpty_forwarded, h.length_forwarded] at hnonce
    cases hrun : acc.run with
    | nil => simp [Consecutive]
    | cons d run => simpa [hrun] using ⟨hrun ▸ h.nonces, by simpa [hrun] using hnonce⟩
  rw [busy, Bool.or_eq_false_iff, h.isEmpty_forwarded, h.length_forwarded] at hfree
  obtain ⟨hroom, hdelegated⟩ := hfree
  refine ⟨⟨⟨st, h.newest st hst, fun hd => ?_, hcover⟩, ⟨_, hnonces⟩, by simpa using hroom, hexact⟩,
    ⟨h.newest, ?_, hnonces, ?_, h.parked⟩⟩
  · simpa [hd] using hdelegated
  · rw [pushForwarded, h.costs, Account.push, map_append]
    rfl
  · rw [pushForwarded, toNat_satAdd_of_lt (h.spend ▸ hexact), h.spend, Account.push, total_append]
    simp

theorem popParked : Tracks x s.popParked acc :=
  h.of_parked (fun _ hst => hst) rfl rfl rfl fun e he => h.parked e (mem_of_mem_tail he)

/-- A new parked transaction under its own nonce. -/
theorem upsert (hx : c.sender = x) : Tracks x { s with parked := s.parked.upsert c.nonce fun _ => c } acc := by
  refine h.of_parked (fun _ hst => hst) rfl rfl rfl fun e he => ?_
  rcases SortedMap.mem_entries_upsert.1 he with rfl | ⟨-, he⟩
  · exact ⟨hx, rfl⟩
  · exact h.parked e he

theorem endLookup (fromLookup : Bool) : Tracks x (s.endLookup fromLookup) acc := by
  unfold SenderState.endLookup
  split
  case isTrue => exact h.of_parked (fun _ hst => hst) rfl rfl rfl h.parked
  case isFalse => exact h

theorem adopt (st : AccountState) (fromLookup : Bool) :
    Tracks x (s.adopt st fromLookup) { acc with newest := some st } :=
  { h with newest := fun _ hst => hst }

theorem keepFrom (k : UInt64) : Tracks x (s.keepFrom k) acc :=
  h.of_parked (fun _ hst => hst) rfl rfl rfl fun e he => h.parked e (mem_filter.1 he).1

theorem clearRun : Tracks x s.clearRun acc.lose := ⟨h.newest, rfl, trivial, rfl, h.parked⟩

/-- Confirmation drops the front of the run while its nonces are below `k`. The induction is on the
run of the books. -/
theorem confirm (k : UInt64) :
    Tracks x (s.confirm k) { acc with run := acc.run.dropWhile fun c => c.nonce < k } := by
  obtain ⟨newest, run⟩ := acc
  induction run generalizing s with
  | nil =>
    have hnone : s.confirmOne k = none := by simp [confirmOne, h.costs]
    rw [confirm_eq, hnone]
    exact h
  | cons c run ih =>
    have hcosts : s.forwarded = c.cost :: run.map cost := h.costs
    obtain ⟨hfirst, hnonces⟩ := h.nonces
    rw [confirm_eq, confirmOne, hcosts]
    by_cases hlt : c.nonce < k
    · have hspend : (satSub s.spend c.cost).toNat = total run := by
        rw [toNat_satSub, h.spend, total_cons, Nat.add_sub_cancel_left]
      dsimp only
      rw [if_neg (not_le.2 (hfirst ▸ hlt)), dropWhile_cons_of_pos (by simpa using hlt)]
      exact ih ⟨h.newest, rfl, hnonces, hspend, h.parked⟩
    · dsimp only
      rw [if_pos (not_lt.1 (hfirst ▸ hlt)), dropWhile_cons_of_neg (by simpa using hlt)]
      exact h

theorem unpark {s' : SenderState T} {nonce unit : UInt64}
    (hunpark : s.unpark nonce unit = some (c, s')) : Tracks x s' acc := by
  unfold SenderState.unpark at hunpark
  split at hunpark
  · split at hunpark
    · cases hunpark
      exact h.of_parked (fun _ hst => hst) rfl rfl rfl fun e he => h.parked e (mem_filter.1 he).1
    · cases hunpark
  · cases hunpark

end Tracks

theorem SenderState.takes_endLookup (s : SenderState T) (st : AccountState) (fromLookup : Bool) :
    (s.endLookup fromLookup).takes st = s.takes st := by
  unfold endLookup
  split <;> rfl

/-! ## The functions of a sender keep the books -/

/-- The verdicts are sound for the books, which track the sender again at the end. -/
def Keeps (cfg : AdmissionConfig) (x : Address) (acc : Account T) (vs : List (Verdict T))
    (s' : SenderState T) : Prop :=
  ∃ acc', Path (Step cfg x) acc vs acc' ∧ Tracks x s' acc'

namespace Keeps

open SenderState

variable {cfg : AdmissionConfig} {x : Address} {s s' : SenderState T} {acc : Account T}
  {vs ws : List (Verdict T)}

variable (h : Tracks x s acc)
include h

theorem refl : Keeps cfg x acc [] s := ⟨acc, .nil _, h⟩

omit h in
theorem of_path (hpath : Path (Step cfg x) acc vs acc) (h : Tracks x s acc) :
    Keeps cfg x acc vs s := ⟨acc, hpath, h⟩

omit h in
theorem append (h : Keeps cfg x acc vs s)
    (h' : ∀ acc', Tracks x s acc' → Keeps cfg x acc' ws s') : Keeps cfg x acc (vs ++ ws) s' := by
  obtain ⟨acc', hpath, htracks⟩ := h
  obtain ⟨acc'', hpath', htracks'⟩ := h' acc' htracks
  exact ⟨acc'', hpath.append hpath', htracks'⟩

theorem park (hx : c.sender = x) (answer : Answer) :
    Keeps cfg x acc (s.park cfg c answer).2.1 (s.park cfg c answer).1 := by
  unfold SenderState.park
  split
  case isTrue => exact .of_path (.single (.reject _ _ _)) h
  case isFalse =>
    split
    case isTrue => exact .of_path (.single (.reject _ _ _)) h
    case isFalse =>
      cases answer with
      | wait => exact .refl (h.upsert hx)
      | accept =>
        have hpath : Path (Step cfg x) acc (c.answer.2.map Verdict.accept).toList acc := by
          cases c.answer.2 with
          | none => exact .nil _
          | some k => exact .single (.accept _ _)
        exact .of_path hpath (h.upsert (c := c.marked) hx)

theorem parkForLookup (hx : c.sender = x) :
    Keeps cfg x acc (s.parkForLookup cfg c).2.1 (s.parkForLookup cfg c).1 := by
  have hpark : Keeps cfg x acc _ _ := Keeps.park h hx .wait
  unfold SenderState.parkForLookup
  dsimp only
  split
  case isTrue =>
    refine hpark.append fun acc' h' => .of_path (.single (.lookup _ _)) ?_
    exact h'.of_parked (fun _ hst => hst) rfl rfl rfl h'.parked
  case isFalse => exact hpark

theorem forwardOrPark (hx : c.sender = x)
    {st : AccountState} (hst : s.state = some st) (hnonce : c.nonce = s.nextNonce st) :
    Keeps cfg x acc (s.forwardOrPark cfg c st).2.1 (s.forwardOrPark cfg c st).1 := by
  unfold SenderState.forwardOrPark
  split
  case isTrue => exact .park h hx .accept
  case isFalse hfree =>
    split
    case isTrue => exact .of_path (.single (.reject _ _ _)) h
    case isFalse hfunds =>
      obtain ⟨hsound, htracks⟩ := h.push hst (by simpa using hfree) hfunds hnonce
      exact ⟨_, .single (.forward _ _ hx hsound), htracks⟩

theorem releaseOne : Keeps cfg x acc (s.releaseOne cfg).2.1 (s.releaseOne cfg).1 := by
  have hr := released cfg s
  generalize s.releaseOne cfg = r at hr
  cases hr with
  | stuck => exact .refl h
  | refused => exact .of_path (.single (.reject _ _ _)) h.popParked
  | @sent st c rest hst hes hfree hfunds =>
    obtain ⟨hx, hnonce⟩ := h.parked _ (hes ▸ mem_cons_self)
    obtain ⟨hsound, htracks⟩ : acc.Sound cfg c ∧ _ := h.popParked.push hst hfree hfunds hnonce
    exact ⟨_, .single (.forward _ _ hx hsound), htracks⟩

theorem release : Keeps cfg x acc (s.release cfg).2 (s.release cfg).1 :=
  release_induction (P := fun s vs t => ∀ acc, Tracks x s acc → Keeps cfg x acc vs t)
    (fun _ _ h => releaseOne h) (fun _ _ _ _ _ h h' acc hs => (h acc hs).append h')
    (fun _ _ h => .refl h) s acc h

theorem offer (hx : c.sender = x) : Keeps cfg x acc (s.offer cfg c).2.1 (s.offer cfg c).1 := by
  unfold SenderState.offer
  split
  case h_1 => exact .parkForLookup h hx
  case h_2 st hst =>
    split
    case isTrue => exact .of_path (.single (.reject _ _ _)) h
    case isFalse =>
      split
      case isTrue => exact .of_path (.single (.reject _ _ _)) h
      case isFalse hlow =>
        split
        case isTrue => exact .park h hx .accept
        case isFalse hhigh =>
          have hnonce : c.nonce = s.nextNonce st := le_antisymm (not_lt.1 hhigh) (not_lt.1 hlow)
          exact (Keeps.forwardOrPark h hx hst hnonce).append fun _ h' => .release h'

theorem acceptParked : Keeps cfg x acc s.acceptParked.2 s.acceptParked.1 := by
  refine .of_path ?_ (h.of_parked (fun _ hst => hst) rfl rfl rfl fun e he => ?_)
  · rw [SenderState.acceptParked, ← map_filterMap]
    exact path_accepts acc _
  · obtain ⟨e', he', rfl⟩ := mem_map.1 he
    exact h.parked e' he'

section

variable (st : AccountState) (fromLookup : Bool)

/-- A state that replaces the one held is applied to the books, and then the verdicts follow. -/
theorem onState (htakes : s.takes st = true) :
    Keeps cfg x (acc.apply st) (s.onState cfg st fromLookup).2 (s.onState cfg st fromLookup).1 := by
  have hend : Tracks x (s.endLookup fromLookup) acc := h.endLookup fromLookup
  have htakes' : (s.endLookup fromLookup).takes st = true := takes_endLookup s st fromLookup ▸ htakes
  have hconfirmed := (hend.adopt st fromLookup).confirm st.nonce
  rw [SenderState.onState]
  rw [if_pos htakes']
  refine (append ?_ fun _ h' => .release h').append fun _ h' => .acceptParked h'
  exact .of_path (path_rejects _ _ _ _) (hconfirmed.keepFrom st.nonce)

/-- A state that is not newer changes no books. -/
theorem onState_stale (htakes : s.takes st = false) :
    Keeps cfg x acc (s.onState cfg st fromLookup).2 (s.onState cfg st fromLookup).1 := by
  have htakes' : (s.endLookup fromLookup).takes st = false := takes_endLookup s st fromLookup ▸ htakes
  rw [SenderState.onState]
  rw [htakes']
  exact .refl (h.endLookup fromLookup)

end

/-- A lost transaction ends the run, and then the verdicts follow. -/
theorem onLost {nonce : UInt64} (hlost : s.holdsForwarded nonce = true) :
    Keeps cfg x acc.lose (s.onLost cfg nonce).2.1 (s.onLost cfg nonce).1 := by
  rw [SenderState.onLost, hlost]
  exact .release h.clearRun

end Keeps

end Kardamom.Sequencer
