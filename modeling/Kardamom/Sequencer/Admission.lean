import Kardamom.Lib.LinkedMap
import Kardamom.Lib.Run
import Kardamom.Sequencer.Sender

/-!
# The admission filter

The filter of one sequencer replica: the senders, and three queues of marks that are cleaned lazily
(the forwards for the loss expiry, the parked transactions of each ingress image, the relooks).

Each call returns its log. Besides the verdicts, which are what the source pushes to `out`, the log
has three marks that name what the call did to the books: a transaction was offered, a state replaced
the one held for an account, the run of a sender was forgotten as lost. No function reads them.

The images live in a hash map, so a sweep visits them in an order of its own; the sweep takes that
order as an argument.
-/

namespace Kardamom.Sequencer

open Wire (Address)
open Words List SenderState Machine

/-- A forwarded transaction, for the loss expiry. `block` is the block of the first rows after the
forward. -/
structure ForwardMark where
  block : UInt64
  sender : Address
  nonce : UInt64
  deriving DecidableEq, Repr

/-- The forwarded transactions in forward order; the first `stamped` of them have their block. -/
structure ForwardMarks where
  marks : List ForwardMark
  stamped : Nat
  /-- So the range of the marks that wait for rows exists. -/
  stamped_le : stamped ≤ marks.length

namespace ForwardMarks

def empty : ForwardMarks := ⟨[], 0, Nat.le_refl _⟩

section

variable (f : ForwardMarks)

/-- Append marks with no block. -/
def extend (ms : List ForwardMark) : ForwardMarks :=
  ⟨f.marks ++ ms, f.stamped, by rw [length_append]; exact Nat.le_add_right_of_le f.stamped_le⟩

/-- Stamp the marks that wait for rows. -/
def stamp (block : UInt64) : ForwardMarks where
  marks := f.marks.take f.stamped ++ (f.marks.drop f.stamped).map fun m => { m with block := block }
  stamped := f.marks.length
  stamped_le := by
    have h := f.stamped_le
    simp only [length_append, length_take, length_map, length_drop]
    omega

/-- Take the mark at the front, when it has its block. -/
def popStamped : Option (ForwardMark × ForwardMarks) :=
  match f with
  | ⟨m :: ms, n + 1, h⟩ => some (m, ⟨ms, n, Nat.le_of_succ_le_succ h⟩)
  | _ => none

end

end ForwardMarks

/-- A parked transaction, for the park expiry. -/
structure ParkMark where
  unit : UInt64
  /-- The time of the last sweep before it parked. -/
  at_ : Nat
  sender : Address
  nonce : UInt64
  deriving DecidableEq, Repr

/-- A sender that asks for a lookup again at `due`, if its gap is still there. -/
structure Relook where
  due : Nat
  sender : Address
  deriving DecidableEq, Repr

/-- The highest unit seen in one image, and its parked transactions in arrival order. -/
structure ImageMarks where
  highest : UInt64
  parked : List ParkMark
  deriving DecidableEq, Repr

/-- When a parked transaction expires: `width` units behind the highest unit of its image, or parked
at or before `oldest`. -/
structure ParkLimit where
  width : UInt64
  oldest : Option Nat
  deriving DecidableEq, Repr

def ParkLimit.passed (l : ParkLimit) (mark : ParkMark) (highest : UInt64) : Bool :=
  decide (l.width ≤ highest - mark.unit) || l.oldest.any fun oldest => decide (mark.at_ ≤ oldest)

/-- The log of the filter: its verdicts, and what its calls did to the books. -/
inductive Event (T : Type) where
  | offered (c : Candidate T)
  | applied (account : Address) (st : AccountState)
  | lost (sender : Address)
  | verdict (v : Verdict T)
  deriving DecidableEq, Repr

/-- The key of an ingress image: its lane and session. -/
abbrev ImageKey := UInt8 × Int32

/-- The filter of one replica. -/
structure Admission (T : Type) where
  cfg : AdmissionConfig
  senders : LinkedMap Address (SenderState T)
  images : LinkedMap ImageKey ImageMarks
  forwards : ForwardMarks
  relooks : List Relook
  /-- The newest block of rows. -/
  block : UInt64
  /-- The time of the last sweep. -/
  now : Nat

variable {T : Type}

namespace Admission

def new (cfg : AdmissionConfig) (now : Nat) : Admission T :=
  ⟨cfg, .empty, .empty, .empty, [], 0, now⟩

variable (a : Admission T)

section

variable (x : Address)

/-- The state of a sender, a fresh one for an unknown sender. -/
def sender : SenderState T := (a.senders.get? x).getD .default

/-- The marks of an image, fresh ones for an unknown image. -/
def image (k : ImageKey) : ImageMarks := (a.images.get? k).getD ⟨0, []⟩

def setSender (s : SenderState T) : Admission T :=
  { a with senders := a.senders.put x s }

/-- Mark each forward of `verdicts` for the loss expiry. -/
def recordForwards (verdicts : List (Verdict T)) : Admission T :=
  { a with
    forwards := a.forwards.extend <| verdicts.filterMap fun
      | .forward c => some ⟨0, c.sender, c.nonce⟩
      | _ => none }

/-- Queue a relook of `x` when its parked transaction waits for a gap over a state from a lookup. -/
def queueRelook : Admission T :=
  match a.senders.get? x with
  | none => a
  | some s =>
    if s.waitsOnLookupGap then
      let a' := a.setSender x s.queueRelook.1
      if s.queueRelook.2 then
        -- a due time past the end of the clock is due at once
        let due := if a.now + a.cfg.relookAfter ≤ a.cfg.maxInstant then a.now + a.cfg.relookAfter
          else a.now
        { a' with relooks := a'.relooks ++ [⟨due, x⟩] }
      else a'
    else a

/-- Decide one transaction. -/
def offer (c : Candidate T) : Admission T × List (Event T) :=
  let key := (c.image.lane, c.image.session)
  let mark : ParkMark := ⟨c.image.unit, a.now, c.sender, c.nonce⟩
  let marks := { a.image key with highest := max (a.image key).highest mark.unit }
  let a := { a with images := a.images.put key marks }
  let r := (a.sender c.sender).offer a.cfg c
  let a := a.setSender c.sender r.1
  let a :=
    if r.2.2 then
      { a with images := a.images.put key { marks with parked := marks.parked ++ [mark] } }.queueRelook
        c.sender
    else a
  (a.recordForwards r.2.1, .offered c :: r.2.1.map .verdict)

/-- Apply the state of one account: a row, or the answer of a lookup. -/
def applyState (st : AccountState) (fromLookup : Bool) :
    Admission T × List (Event T) :=
  let r := (a.sender x).onState a.cfg st fromLookup
  ((a.setSender x r.1).recordForwards r.2,
    (if (a.sender x).takes st then [.applied x st] else []) ++ r.2.map .verdict)

end

/-- `apply_state` over the rows of a block. -/
def applyRows : Admission T → List (Address × AccountState) → Admission T × List (Event T)
  | a, [] => (a, [])
  | a, (x, st) :: rows =>
    let r := a.applyState x st false
    ((applyRows r.1 rows).1, r.2 ++ (applyRows r.1 rows).2)

/-- Apply the account rows of `block`. -/
def onRows (block : UInt64) (rows : List (Address × AccountState)) : Admission T × List (Event T) :=
  let r := applyRows { a with block := max a.block block } rows
  ({ r.1 with forwards := r.1.forwards.stamp block }, r.2)

def onLookup (x : Address) (st : AccountState) : Admission T × List (Event T) :=
  let r := a.applyState x st true
  (r.1.queueRelook x, r.2)

/-- The executor rolled back: every sender forgets its state. -/
def onRollback : Admission T := { a with senders := a.senders.mapValues forgetState }

/-- The forwarded transaction of `x` at `nonce` is gone. -/
def lose (x : Address) (nonce : UInt64) : Admission T × List (Event T) :=
  match a.senders.get? x with
  | none => (a, [])
  | some s =>
    let r := s.onLost a.cfg nonce
    let a := a.setSender x r.1
    if r.2.2 then (a.recordForwards r.2.1, .lost x :: r.2.1.map .verdict)
    else (a, r.2.1.map .verdict)

/-- The sealer refused the forwarded transaction of `x` at `nonce`. -/
def onRefused (x : Address) (nonce : UInt64) : Admission T × List (Event T) := a.lose x nonce

/-- Lose the stamped marks at the front whose loss window is over, at most `n` of them. -/
def expireForwardsLoop : Nat → Admission T → Admission T × List (Event T)
  | 0, a => (a, [])
  | n + 1, a =>
    match a.forwards.popStamped with
    | none => (a, [])
    | some (mark, rest) =>
      if satAdd64 mark.block a.cfg.lossBlocks ≤ a.block then
        let r := { a with forwards := rest }.lose mark.sender mark.nonce
        ((expireForwardsLoop n r.1).1, r.2 ++ (expireForwardsLoop n r.1).2)
      else (a, [])

/-- The whole loop: each round takes one stamped mark, and the marks it adds have no block. -/
def expireForwards : Admission T × List (Event T) := expireForwardsLoop a.forwards.stamped a

/-- Expire the parked transaction of one mark. The mark of a transaction that left the park drops
with no verdict. -/
def expireFront (senders : LinkedMap Address (SenderState T)) (mark : ParkMark) :
    LinkedMap Address (SenderState T) × List (Verdict T) :=
  match senders.get? mark.sender with
  | none => (senders, [])
  | some s =>
    match s.unpark mark.nonce mark.unit with
    | none => (senders, [])
    | some (c, s') => (senders.put mark.sender s', [.reject c (.expired s'.expectedNonce)])

/-- Expire the marks at the front of one image that are past the limit. -/
def expireMarks (limit : ParkLimit) (highest : UInt64) :
    List ParkMark → LinkedMap Address (SenderState T) →
      List ParkMark × LinkedMap Address (SenderState T) × List (Verdict T)
  | [], senders => ([], senders, [])
  | mark :: marks, senders =>
    if limit.passed mark highest then
      let f := expireFront senders mark
      let r := expireMarks limit highest marks f.1
      (r.1, r.2.1, f.2 ++ r.2.2)
    else (mark :: marks, senders, [])

/-- Expire the parked transactions of one image. -/
def expireImage (limit : ParkLimit) (k : ImageKey) : Admission T × List (Verdict T) :=
  match a.images.get? k with
  | none => (a, [])
  | some marks =>
    let r := expireMarks limit marks.highest marks.parked a.senders
    ({ a with images := a.images.put k { marks with parked := r.1 }, senders := r.2.1 }, r.2.2)

/-- Expire the parked transactions of the images, in the order of their keys in the list. -/
def expireImages (limit : ParkLimit) : List ImageKey → Admission T → Admission T × List (Verdict T)
  | [], a => (a, [])
  | k :: ks, a =>
    let r := a.expireImage limit k
    ((expireImages limit ks r.1).1, r.2 ++ (expireImages limit ks r.1).2)

/-- The images in the order of `order`; the ones it does not name come last. -/
def visit (order : List ImageKey) : List ImageKey :=
  (order.filter (· ∈ a.images.keys)).dedup ++ a.images.keys.filter (· ∉ order)

/-- Ask again for each sender whose relook is due at `now`. -/
def relookDue (now : Nat) : List Relook → Admission T → Admission T × List (Verdict T)
  | [], a => ({ a with relooks := [] }, [])
  | r :: rs, a =>
    if r.due ≤ now then
      match a.senders.get? r.sender with
      | none => relookDue now rs a
      | some s =>
        let next := relookDue now rs (a.setSender r.sender s.relook.1)
        (next.1, (if s.relook.2 then [.lookup r.sender] else []) ++ next.2)
    else ({ a with relooks := r :: rs }, [])

/-- When a parked transaction expires at `now`. -/
def parkLimit (now : Nat) : ParkLimit :=
  ⟨a.cfg.parkWidth, if a.cfg.parkTtl ≤ now then some (now - a.cfg.parkTtl) else none⟩

/-- Forget the idle senders above the sender bound. -/
def forgetIdle : Admission T :=
  if a.cfg.maxSenders < a.senders.size then
    { a with senders := a.senders.filter fun e => !e.2.isIdle }
  else a

/-- Expire the forwarded runs and the parked transactions, ask again where a relook is due, and
forget the idle senders. -/
def sweep (now : Nat) (order : List ImageKey) : Admission T × List (Event T) :=
  let l := { a with now := now }.expireForwards
  let p := l.1.expireImages (a.parkLimit now) (l.1.visit order)
  let k := relookDue now p.1.relooks p.1
  (k.1.forgetIdle, l.2 ++ p.2.map .verdict ++ k.2.map .verdict)

/-- One call. -/
inductive Call (T : Type) where
  | offer (c : Candidate T)
  | onRows (block : UInt64) (rows : List (Address × AccountState))
  | onLookup (account : Address) (st : AccountState)
  | onRollback
  | onRefused (sender : Address) (nonce : UInt64)
  | sweep (now : Nat) (order : List ImageKey)

/-- The filter over one call. -/
def step : Call T → Admission T × List (Event T)
  | .offer c => a.offer c
  | .onRows block rows => a.onRows block rows
  | .onLookup x st => a.onLookup x st
  | .onRollback => (a.onRollback, [])
  | .onRefused x nonce => a.onRefused x nonce
  | .sweep now order => a.sweep now order

section

variable (cfg : AdmissionConfig) (now : Nat) (calls : List (Call T))

/-- The filter after a list of calls. -/
def after : Admission T := (run step (new cfg now) calls).1

/-- The whole log of a list of calls. -/
def log : List (Event T) := (run step (new cfg now) calls).2.flatMap Prod.snd

end

/-- The parked transactions of every sender. -/
def held : List (Candidate T) := a.senders.entries.flatMap fun e => e.2.waiting

/-- The transactions that the calls offer. -/
def offers (calls : List (Call T)) : List (Candidate T) := calls.filterMap fun
    | .offer c => some c
    | _ => none

/-! ## What a call does to the senders

Every call is a list of touches of the senders (`traces_step`), each with the transactions it offers
and its part of the log. So what every touch keeps, every call keeps. -/

/-- The senders of a filter. -/
abbrev Senders (T : Type) := LinkedMap Address (SenderState T)

variable {cfg : AdmissionConfig} {m m' m'' : Senders T} {o o' : List (Candidate T)}
  {es fs : List (Event T)}

/-- The state of a sender of the map, a fresh one for an unknown sender. -/
def senderOf (m : Senders T) (x : Address) : SenderState T := (m.get? x).getD .default

/-- One touch of the senders. -/
inductive Touch (cfg : AdmissionConfig) (m : Senders T) :
    List (Candidate T) → List (Event T) → Senders T → Prop
  | offer (c : Candidate T) :
      Touch cfg m [c] (.offered c :: ((senderOf m c.sender).offer cfg c).2.1.map .verdict)
        (m.put c.sender ((senderOf m c.sender).offer cfg c).1)
  | applied (x : Address) (st : AccountState) (fromLookup : Bool)
      (h : (senderOf m x).takes st = true) :
      Touch cfg m [] (.applied x st :: ((senderOf m x).onState cfg st fromLookup).2.map .verdict)
        (m.put x ((senderOf m x).onState cfg st fromLookup).1)
  | stale (x : Address) (st : AccountState) (fromLookup : Bool)
      (h : (senderOf m x).takes st = false) :
      Touch cfg m [] (((senderOf m x).onState cfg st fromLookup).2.map .verdict)
        (m.put x ((senderOf m x).onState cfg st fromLookup).1)
  | lost (x : Address) (nonce : UInt64) (h : (senderOf m x).holdsForwarded nonce = true) :
      Touch cfg m [] (.lost x :: ((senderOf m x).onLost cfg nonce).2.1.map .verdict)
        (m.put x ((senderOf m x).onLost cfg nonce).1)
  | expired {x : Address} {nonce unit : UInt64} {c : Candidate T} {s' : SenderState T}
      (h : (senderOf m x).unpark nonce unit = some (c, s')) (r : Refusal) :
      Touch cfg m [] [.verdict (.reject c r)] (m.put x s')
  | relooked (x : Address) :
      Touch cfg m [] ((if (senderOf m x).relook.2 then [.lookup x] else []).map .verdict)
        (m.put x (senderOf m x).relook.1)
  | queued (x : Address) : Touch cfg m [] [] (m.put x (senderOf m x).queueRelook.1)
  | same (x : Address) : Touch cfg m [] [] (m.put x (senderOf m x))
  | forgotIdle : Touch cfg m [] [] (m.filter fun e => !e.2.isIdle)
  | rolledBack : Touch cfg m [] [] (m.mapValues forgetState)

/-- Touches one after the other. -/
inductive Touches (cfg : AdmissionConfig) :
    Senders T → List (Candidate T) → List (Event T) → Senders T → Prop
  | nil (m : Senders T) : Touches cfg m [] [] m
  | cons {m m' m'' : Senders T} {o o' : List (Candidate T)}
      {es fs : List (Event T)} (h : Touch cfg m o es m') (h' : Touches cfg m' o' fs m'') :
      Touches cfg m (o ++ o') (es ++ fs) m''

theorem Touches.single (h : Touch cfg m o es m') : Touches cfg m o es m' := by
  have hone := Touches.cons h (.nil m')
  rwa [append_nil, append_nil] at hone

theorem Touches.append (h : Touches cfg m o es m') (h' : Touches cfg m' o' fs m'') :
    Touches cfg m (o ++ o') (es ++ fs) m'' := by
  induction h with
  | nil => exact h'
  | cons htouch _ ih =>
    rw [append_assoc, append_assoc]
    exact .cons htouch (ih h')

/-- From one filter to another the limits stay, and the senders are touched. -/
structure Traces (a : Admission T) (o : List (Candidate T)) (es : List (Event T))
    (a' : Admission T) : Prop where
  cfg : a'.cfg = a.cfg
  touches : Touches a.cfg a.senders o es a'.senders

theorem Traces.refl (a : Admission T) : Traces a [] [] a := ⟨rfl, .nil _⟩

section

variable {a a' a'' : Admission T}

theorem Traces.append (h : Traces a o es a') (h' : Traces a' o' fs a'') :
    Traces a (o ++ o') (es ++ fs) a'' :=
  ⟨h'.cfg.trans h.cfg, h.touches.append (h.cfg ▸ h'.touches)⟩

/-- One more touch that logs nothing. -/
theorem Traces.touch (h : Traces a o es a') (hcfg : a''.cfg = a'.cfg)
    (htouch : Touch a'.cfg a'.senders [] [] a''.senders) : Traces a o es a'' := by
  have hboth := h.append ⟨hcfg, .single htouch⟩
  rwa [append_nil, append_nil] at hboth

end

theorem senderOf_eq {x : Address} {s : SenderState T} (h : m.get? x = some s) : senderOf m x = s := by
  rw [senderOf, h, Option.getD_some]

section

variable {a a' : Admission T} (h : Traces a o es a')
include h

theorem Traces.queueRelook (x : Address) :
    Traces a o es (a'.queueRelook x) := by
  unfold Admission.queueRelook
  split
  case h_1 => exact h
  case h_2 s hs =>
    obtain rfl := senderOf_eq hs
    split
    case isTrue =>
      split <;> exact h.touch rfl (.queued x)
    case isFalse => exact h

theorem Traces.forgetIdle :
    Traces a o es a'.forgetIdle := by
  unfold Admission.forgetIdle
  split
  case isTrue => exact h.touch rfl .forgotIdle
  case isFalse => exact h

end

theorem traces_offer (c : Candidate T) : Traces a [c] (a.offer c).2 (a.offer c).1 := by
  have htouch : Touches a.cfg a.senders [c] _ _ := .single (.offer c)
  have hrecord : ∀ a' vs, Traces a [c] (a.offer c).2 a' →
      Traces a [c] (a.offer c).2 (a'.recordForwards vs) := fun _ _ h => ⟨h.cfg, h.touches⟩
  refine hrecord _ _ ?_
  split
  case isTrue =>
    refine Traces.queueRelook ?_ c.sender
    exact ⟨rfl, htouch⟩
  case isFalse => exact ⟨rfl, htouch⟩

theorem traces_applyState (x : Address) (st : AccountState) (fromLookup : Bool) :
    Traces a [] (a.applyState x st fromLookup).2 (a.applyState x st fromLookup).1 := by
  unfold applyState
  cases htakes : (a.sender x).takes st with
  | true => exact ⟨rfl, .single (.applied x st fromLookup htakes)⟩
  | false => exact ⟨rfl, .single (.stale x st fromLookup htakes)⟩

theorem traces_applyRows (rows : List (Address × AccountState)) :
    Traces a [] (applyRows a rows).2 (applyRows a rows).1 := by
  induction rows generalizing a with
  | nil => exact .refl a
  | cons row rows ih => exact (traces_applyState a row.1 row.2 false).append (ih _)

theorem traces_lose (x : Address) (nonce : UInt64) :
    Traces a [] (a.lose x nonce).2 (a.lose x nonce).1 := by
  unfold lose
  split
  case h_1 => exact .refl a
  case h_2 s hs =>
    obtain rfl := senderOf_eq hs
    cases hlost : (senderOf a.senders x).holdsForwarded nonce with
    | true =>
      have hfreed : ((senderOf a.senders x).onLost a.cfg nonce).2.2 = true := by
        simp [onLost, hlost]
      rw [if_pos hfreed]
      exact ⟨rfl, .single (.lost x nonce hlost)⟩
    | false =>
      have hsame : (senderOf a.senders x).onLost a.cfg nonce = (senderOf a.senders x, [], false) := by
        simp [onLost, hlost]
      rw [hsame]
      exact ⟨rfl, .single (.same x)⟩

theorem traces_expireForwardsLoop (n : Nat) :
    Traces a [] (expireForwardsLoop n a).2 (expireForwardsLoop n a).1 := by
  induction n generalizing a with
  | zero => exact .refl a
  | succ n ih =>
    unfold expireForwardsLoop
    split
    case h_1 => exact .refl a
    case h_2 mark rest _ =>
      split
      case isTrue =>
        have hlose := traces_lose { a with forwards := rest } mark.sender mark.nonce
        exact Traces.append (a := a) ⟨hlose.cfg, hlose.touches⟩ (ih _)
      case isFalse => exact .refl a

theorem touches_expireFront (m : Senders T) (mark : ParkMark) :
    Touches cfg m [] ((expireFront m mark).2.map .verdict) (expireFront m mark).1 := by
  unfold expireFront
  split
  case h_1 => exact .nil m
  case h_2 s hs =>
    obtain rfl := senderOf_eq hs
    split
    case h_1 => exact .nil m
    case h_2 hunpark => exact .single (.expired hunpark _)

theorem touches_expireMarks (limit : ParkLimit) (highest : UInt64) (marks : List ParkMark)
    (m : Senders T) :
    Touches cfg m [] ((expireMarks limit highest marks m).2.2.map .verdict)
      (expireMarks limit highest marks m).2.1 := by
  induction marks generalizing m with
  | nil => exact .nil m
  | cons mark marks ih =>
    unfold expireMarks
    split
    case isTrue =>
      rw [map_append]
      exact (touches_expireFront m mark).append (ih _)
    case isFalse => exact .nil m

theorem traces_expireImages (limit : ParkLimit) (ks : List ImageKey) :
    Traces a [] ((expireImages limit ks a).2.map .verdict) (expireImages limit ks a).1 := by
  induction ks generalizing a with
  | nil => exact .refl a
  | cons k ks ih =>
    have hone : Traces a [] ((a.expireImage limit k).2.map .verdict) (a.expireImage limit k).1 := by
      unfold expireImage
      split
      case h_1 => exact .refl a
      case h_2 => exact ⟨rfl, touches_expireMarks _ _ _ _⟩
    rw [expireImages, map_append]
    exact hone.append (ih _)

theorem traces_relookDue (now : Nat) (rs : List Relook) :
    Traces a [] ((relookDue now rs a).2.map .verdict) (relookDue now rs a).1 := by
  induction rs generalizing a with
  | nil => exact ⟨rfl, .nil _⟩
  | cons r rs ih =>
    unfold relookDue
    split
    case isTrue =>
      split
      case h_1 => exact ih a
      case h_2 s hs =>
        obtain rfl := senderOf_eq hs
        rw [map_append]
        have hnext := ih (a.setSender r.sender (senderOf a.senders r.sender).relook.1)
        exact ⟨hnext.cfg, Touches.append (.single (.relooked r.sender)) hnext.touches⟩
    case isFalse => exact ⟨rfl, .nil _⟩

theorem traces_sweep (now : Nat) (order : List ImageKey) :
    Traces a [] (a.sweep now order).2 (a.sweep now order).1 := by
  have hforwards := traces_expireForwardsLoop { a with now := now } a.forwards.stamped
  have hall : Traces { a with now := now } [] (a.sweep now order).2 (a.sweep now order).1 :=
    ((hforwards.append (traces_expireImages _ _ _)).append (traces_relookDue _ _ _)).forgetIdle
  exact ⟨hall.cfg, hall.touches⟩

/-- One call is a list of touches of the senders. -/
theorem traces_step (call : Call T) : Traces a (offers [call]) (a.step call).2 (a.step call).1 := by
  cases call with
  | offer c => exact traces_offer a c
  | onRows block rows =>
    have hrows := traces_applyRows { a with block := max a.block block } rows
    exact ⟨hrows.cfg, hrows.touches⟩
  | onLookup x st => exact (traces_applyState a x st true).queueRelook x
  | onRollback => exact ⟨rfl, .single .rolledBack⟩
  | onRefused x nonce => exact traces_lose a x nonce
  | sweep now order => exact traces_sweep a now order

end Admission

end Kardamom.Sequencer
