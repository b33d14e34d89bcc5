import Kardamom.Sequencer.Spending

/-!
# The spending bound of the filter

The books of all senders, from the log alone (`books`), and the proof that the filter keeps them:
every touch of the senders posts a log whose forwards are sound (`posts_touch`), so at each forward the run of the
sender is consecutive, within its length limits and covered by the newest balance, but for a
transaction that costs nothing when the balance fell below the run.
-/

namespace Kardamom.Sequencer

open Wire (Address)
open Labelled (Path)
open LinkedMap Function List SenderState

variable {T : Type}

/-- The books of every sender. -/
abbrev Books (T : Type) := Address → Account T

variable {vs : List (Verdict T)} {acc : Account T}

namespace Books

/-- The books after one event of the log. -/
def next (b : Books T) : Event T → Books T
  | .applied x st => update b x ((b x).apply st)
  | .lost x => update b x (b x).lose
  | .verdict (.forward c) => update b c.sender ((b c.sender).push c)
  | _ => b

/-- One event, with every forward sound. -/
inductive Step (cfg : AdmissionConfig) : Books T → Event T → Books T → Prop
  | offered (b : Books T) (c : Candidate T) : Step cfg b (.offered c) b
  | applied (b : Books T) (x : Address) (st : AccountState) :
      Step cfg b (.applied x st) (update b x ((b x).apply st))
  | lost (b : Books T) (x : Address) : Step cfg b (.lost x) (update b x (b x).lose)
  | verdict {b : Books T} {x : Address} {v : Verdict T} {acc : Account T}
      (h : Account.Step cfg x (b x) v acc) : Step cfg b (.verdict v) (update b x acc)

variable {cfg : AdmissionConfig} {b b' : Books T}

theorem Step.eq_next {e : Event T} (h : Step cfg b e b') : b' = b.next e := by
  cases h with
  | offered | applied | lost => rfl
  | verdict h =>
    cases h with
    | forward c hx => rw [next, hx]
    | reject | lookup | accept => exact update_eq_self _ _

/-- The books at the end of a path are the ones that the log gives. -/
theorem eq_foldl_of_path {es : List (Event T)} (h : Path (Step cfg) b es b') :
    b' = es.foldl next b := by
  induction h with
  | nil => rfl
  | cons hst _ ih => rw [ih, hst.eq_next, foldl_cons]

/-- What one sender posts, the books of all senders take. -/
theorem path_of_account {x : Address} (h : Path (Account.Step cfg x) (b x) vs acc) :
    Path (Step cfg) b (vs.map .verdict) (update b x acc) := by
  have hmap : Path (Step cfg) (update b x (b x)) (vs.map .verdict)
      (update b x acc) := Labelled.Path.map (fun acc v acc' hst => ?_) h
  · rwa [update_eq_self] at hmap
  · have hidem : update b x acc' = update (update b x acc) x acc' := (update_idem ..).symm
    rw [hidem]
    exact .verdict (by rwa [update_self])

end Books

/-- The books of a log, from nothing. -/
def books (es : List (Event T)) : Books T := es.foldl Books.next fun _ => .empty

/-! ## The filter keeps the books -/

namespace Admission

/-- Each sender of the map is tracked by its books. -/
def Follows (m : LinkedMap Address (SenderState T)) (b : Books T) : Prop :=
  ∀ x, Tracks x ((m.get? x).getD .default) (b x)

/-- The log is sound for the books, which track the senders again at the end. -/
def Posts (cfg : AdmissionConfig) (b : Books T) (es : List (Event T))
    (m : LinkedMap Address (SenderState T)) : Prop :=
  ∃ b', Path (Books.Step cfg) b es b' ∧ Follows m b'

variable {cfg : AdmissionConfig} {b : Books T} {m m' : LinkedMap Address (SenderState T)}
  {x : Address} {s' : SenderState T} {es fs : List (Event T)}

theorem Posts.refl (h : Follows m b) : Posts cfg b [] m := ⟨b, .nil _, h⟩

theorem Posts.append (h : Posts cfg b es m) (h' : ∀ b', Follows m b' → Posts cfg b' fs m') :
    Posts cfg b (es ++ fs) m' := by
  obtain ⟨b', hpath, hfollows⟩ := h
  obtain ⟨b'', hpath', hfollows'⟩ := h' b' hfollows
  exact ⟨b'', hpath.append hpath', hfollows'⟩

section

variable (h : ∀ y, y ≠ x → Tracks y (senderOf m y) (b y))
include h

theorem Follows.put (hx : Tracks x s' acc) : Follows (m.put x s') (update b x acc) := by
  intro y
  by_cases hy : y = x
  · subst hy
    rw [get?_put_self, update_self]
    exact hx
  · rw [get?_put_of_ne _ hy, update_of_ne hy]
    exact h y hy

/-- One sender posts its verdicts; the books of the others may have been anything that tracks them. -/
theorem posts_put (hx : Keeps cfg x (b x) vs s') : Posts cfg b (vs.map .verdict) (m.put x s') := by
  obtain ⟨acc, hpath, htracks⟩ := hx
  exact ⟨_, Books.path_of_account hpath, .put h htracks⟩

end

/-- A change of the marks of a sender. -/
theorem Follows.put_same (h : Follows m b) (hx : Tracks x s' (b x)) : Follows (m.put x s') b := by
  have hput := Follows.put (fun y _ => h y) hx
  rwa [update_eq_self] at hput

/-- One event on the books of `x`, and then its verdicts. -/
theorem posts_update {e : Event T} (h : Follows m b)
    (hstep : Books.Step cfg b e (update b x acc)) (hx : Keeps cfg x acc vs s') :
    Posts cfg b (e :: vs.map .verdict) (m.put x s') := by
  have hothers : ∀ y, y ≠ x → Tracks y (senderOf m y) (update b x acc y) := fun y hy => by
    rw [update_of_ne hy]
    exact h y
  obtain ⟨b', hpath, hfollows⟩ := posts_put hothers (by rwa [update_self])
  exact ⟨b', .cons hstep hpath, hfollows⟩

section

variable (h : Follows m b)
include h

/-- A sender that is forgotten has an empty run. -/
theorem Follows.forgotIdle : Follows (m.filter fun e => !e.2.isIdle) b := by
  intro x
  cases hs : (m.filter fun e => !e.2.isIdle).get? x with
  | some s =>
    have hget : m.get? x = some s := by
      rw [get?_eq_some_iff] at hs ⊢
      exact (mem_filter.1 hs).1
    have htracks := h x
    rwa [hget] at htracks
  | none =>
    refine .of_default ?_
    have htracks := h x
    cases hget : m.get? x with
    | none => simpa [hget, SenderState.default] using htracks.costs.symm
    | some s =>
      have hidle : s.isIdle = true := by
        by_contra hbusy
        rw [get?_eq_none_iff] at hs
        refine hs (mem_map.2 ⟨(x, s), mem_filter.2 ⟨?_, by simpa using hbusy⟩, rfl⟩)
        exact get?_eq_some_iff.1 hget
      have hempty : s.forwarded = [] := by
        simp only [isIdle, Bool.and_eq_true, List.isEmpty_iff] at hidle
        exact hidle.1
      rw [hget] at htracks
      simpa [hempty] using htracks.costs.symm

theorem Follows.rolledBack : Follows (m.mapValues forgetState) b := by
  intro x
  have htracks := h x
  rw [get?_mapValues]
  cases hs : m.get? x with
  | none => rwa [hs] at htracks
  | some s =>
    rw [hs] at htracks
    exact htracks.of_parked nofun rfl rfl rfl htracks.parked

/-- One touch of the senders keeps the books. -/
theorem posts_touch {o : List (Candidate T)} (htouch : Touch cfg m o es m') : Posts cfg b es m' := by
  cases htouch with
  | offer c =>
    obtain ⟨b', hpath, hfollows⟩ := posts_put (fun y _ => h y) (.offer (h c.sender) rfl)
    exact ⟨b', .cons (.offered b c) hpath, hfollows⟩
  | applied x st fromLookup htakes =>
    exact posts_update h (.applied b x st) (.onState (h x) st fromLookup htakes)
  | stale x st fromLookup htakes =>
    exact posts_put (fun y _ => h y) (.onState_stale (h x) st fromLookup htakes)
  | lost x nonce hlost => exact posts_update h (.lost b x) (.onLost (h x) hlost)
  | @expired x _ _ c _ hunpark r =>
    have hpath : Path (Account.Step cfg x) (b x) [.reject c r] (b x) := .single (.reject _ _ _)
    exact posts_put (fun y _ => h y) (.of_path hpath ((h x).unpark hunpark))
  | relooked x =>
    refine posts_put (fun y _ => h y) (.of_path ?_
      ((h x).of_parked (fun _ hst => hst) rfl rfl rfl (h x).parked))
    split
    case isTrue => exact .single (.lookup _ _)
    case isFalse => exact .nil _
  | queued x =>
    exact .refl (h.put_same ((h x).of_parked (fun _ hst => hst) rfl rfl rfl (h x).parked))
  | same x => exact .refl (h.put_same (h x))
  | forgotIdle => exact .refl h.forgotIdle
  | rolledBack => exact .refl h.rolledBack

end

theorem posts_touches {o : List (Candidate T)} (htouches : Touches cfg m o es m') (h : Follows m b) :
    Posts cfg b es m' := by
  induction htouches generalizing b with
  | nil => exact .refl h
  | cons htouch _ ih => exact (posts_touch h htouch).append fun _ h' => ih h'

/-! ## The bound -/

section

variable (cfg : AdmissionConfig) (now : Nat) (calls : List (Call T))

/-- Every list of calls keeps the books of its log. -/
theorem posts_log :
    Posts cfg (fun _ => .empty) (log cfg now calls) (after cfg now calls).senders := by
  refine (Machine.run_induction (P := fun (a : Admission T) τ => a.cfg = cfg ∧
    Posts cfg (fun _ => .empty) (τ.flatMap Prod.snd) a.senders) ⟨rfl, ?_⟩ ?_ calls).2
  · exact .refl fun _ => .of_default rfl
  · rintro a τ call ⟨rfl, h⟩
    refine ⟨(traces_step a call).cfg, ?_⟩
    rw [flatMap_append, flatMap_singleton]
    exact h.append fun _ h' => posts_touches (traces_step a call).touches h'

/-- The forward at any place of the log was sound for the books before it. -/
theorem sound_of_log {cfg : AdmissionConfig} {now : Nat} {calls : List (Call T)}
    {before since : List (Event T)} {c : Candidate T}
    (h : log cfg now calls = before ++ .verdict (.forward c) :: since) :
    (books before c.sender).Sound cfg c := by
  obtain ⟨b', hpath, -⟩ := posts_log cfg now calls
  obtain ⟨b, hbefore, hsince⟩ := (h ▸ hpath).split
  cases hsince with
  | cons hstep _ =>
    cases hstep with
    | verdict hstep =>
      cases hstep with
      | forward _ hx hsound =>
        have hb : b = books before := Books.eq_foldl_of_path hbefore
        rw [← hb, hx]
        exact hsound

/-- The stored state of each sender is what the books of the log say. -/
theorem tracks_after (x : Address) :
    Tracks x ((after cfg now calls).sender x) (books (log cfg now calls) x) := by
  obtain ⟨b', hpath, hfollows⟩ := posts_log cfg now calls
  have hb : b' = books (log cfg now calls) := Books.eq_foldl_of_path hpath
  exact hb ▸ hfollows x

end

/-- **The spending bound.** At each forward, `run` being the forwarded and unconfirmed run of the
sender before it and `st` the newest state applied for the sender:

* the run with the new transaction costs at most the balance of `st`, or the new one costs nothing
  and the run without it was above the balance already;
* its nonces follow each other as 64-bit words, so they are consecutive numbers unless they wrap;
* its length is at most the limit, and 1 when `st` is delegated;
* its cost is a 256-bit number, so the saturating sum is exact.

After the calls the stored `spend` of every sender is the exact sum of its run, whose costs and first
nonce are the stored ones. -/
theorem forward_bound {cfg : AdmissionConfig} {now : Nat} {calls : List (Call T)}
    {before since : List (Event T)} {c : Candidate T}
    (h : log cfg now calls = before ++ .verdict (.forward c) :: since) :
    (∃ st first, (books before c.sender).newest = some st ∧
      let run := (books before c.sender).run
      (total (run ++ [c]) ≤ st.balance.toNat ∨ c.cost = 0 ∧ st.balance.toNat < total run) ∧
      Consecutive first (run ++ [c]) ∧
      (first.toNat + run.length < 2 ^ 64 →
        (run ++ [c]).map (fun d => d.nonce.toNat) = range' first.toNat (run.length + 1)) ∧
      (run ++ [c]).length ≤ cfg.maxForwarded ∧
      (st.delegated = true → (run ++ [c]).length = 1) ∧
      total (run ++ [c]) < 2 ^ 256) ∧
    ∀ x, let s := (after cfg now calls).sender x
      let run := (books (log cfg now calls) x).run
      s.spend.toNat = total run ∧ s.forwarded = run.map Candidate.cost ∧ Consecutive s.first run := by
  have hsound := sound_of_log h
  refine ⟨?_, fun x => ?_⟩
  · obtain ⟨st, hst, hdelegated, hcover⟩ := hsound.state
    obtain ⟨first, hfirst⟩ := hsound.first
    have hlength : ((books before c.sender).run ++ [c]).length
        = (books before c.sender).run.length + 1 := by simp
    refine ⟨st, first, hst, ?_, hfirst, fun hwrap => ?_, ?_, fun hd => ?_, ?_⟩
    · refine hcover.imp (fun hle => by simpa using hle) fun hfree => ⟨?_, hfree.2⟩
      exact BitVec.eq_of_toNat_eq hfree.1
    · rw [← hlength]
      exact hfirst.toNat_iff.2 (.inr (by omega))
    · exact hlength ▸ hsound.room
    · rw [hdelegated hd]
      rfl
    · simpa using hsound.exact
  · have htracks := tracks_after cfg now calls x
    exact ⟨htracks.spend, htracks.costs, htracks.nonces⟩

/-! A balance that falls below the run: the account of `0` has 10, forwards a transaction that costs
10, and a newer state at the same nonce has 5. A transaction that costs nothing goes out still. -/

def sampleCfg : AdmissionConfig where
  maxParked := 4
  maxForwarded := 4
  lossBlocks := 8
  parkWidth := 64
  parkTtl := 100
  relookAfter := 10
  maxSenders := 16
  maxInstant := 1000
  maxParked_pos := by decide
  maxForwarded_pos := by decide
  lossBlocks_pos := by decide
  parkWidth_pos := by decide
  maxSenders_pos := by decide

def sampleCandidate (nonce : UInt64) (cost : U256) : Candidate Unit :=
  ⟨0, nonce, 0, cost, ⟨0, 0, 0⟩, 0, false, ()⟩

def fallenBalance : List (Call Unit) :=
  [.onLookup 0 ⟨0, 10, false, 5⟩, .offer (sampleCandidate 0 10), .onRows 1 [(0, ⟨0, 5, false, 6⟩)],
    .offer (sampleCandidate 1 0)]

def fallenBefore : List (Event Unit) :=
  [.applied 0 ⟨0, 10, false, 5⟩, .offered (sampleCandidate 0 10),
    .verdict (.forward (sampleCandidate 0 10)), .applied 0 ⟨0, 5, false, 6⟩,
    .offered (sampleCandidate 1 0)]

/-- The free transaction is forwarded while its run costs more than the newest balance. -/
theorem free_forward_above_balance : log sampleCfg 0 fallenBalance
        = fallenBefore ++ .verdict (.forward (sampleCandidate 1 0)) :: [] ∧
      (books fallenBefore 0).newest = some ⟨0, 5, false, 6⟩ ∧
      total ((books fallenBefore 0).run ++ [sampleCandidate 1 0]) = 10 := by
  refine ⟨?_, ?_, ?_⟩ <;> decide +kernel

/-- The bound at the first forward of that run. -/
theorem forward_bound_sample : log sampleCfg 0 fallenBalance
        = fallenBefore.take 2 ++ .verdict (.forward (sampleCandidate 0 10)) ::
          (fallenBefore.drop 3 ++ [.verdict (.forward (sampleCandidate 1 0))]) ∧
      ((after sampleCfg 0 fallenBalance).sender 0).spend.toNat
        = total (books (log sampleCfg 0 fallenBalance) 0).run := by
  have h : log sampleCfg 0 fallenBalance
      = fallenBefore.take 2 ++ .verdict (.forward (sampleCandidate 0 10)) ::
        (fallenBefore.drop 3 ++ [.verdict (.forward (sampleCandidate 1 0))]) := by decide +kernel
  exact ⟨h, ((forward_bound h).2 0).1⟩

end Admission

end Kardamom.Sequencer
