import Mathlib.Algebra.BigOperators.Group.List.Basic
import Mathlib.Algebra.Order.Group.Multiset
import Kardamom.Lib.LinkedMap
import Kardamom.Lib.SortedMap

/-!
# Custody

A component that keeps items logs what it takes and what it gives up. `Conserves` is its balance over a
piece of the log: what it held and took is what it holds and gave up, each item as often. An item is
given up for good (settled), or another item of its key takes its place (replaced); a replacement never
gives up the last item of a key. Balances compose (`append`) and hold beside whatever else the component
keeps (`frame`), so the balance of a loop is the balance of its body.

The items that a map keeps are a multiset (`pool`) that a change of one key splits at that key.
-/

open Multiset List

namespace LinkedMap

variable {κ ν α : Type*}

/-- The items that the entries of a map keep. -/
def pool (f : κ → ν → Multiset α) (m : LinkedMap κ ν) : Multiset α :=
  (m.entries.map fun e => f e.1 e.2).sum

variable (f : κ → ν → Multiset α)

variable [DecidableEq κ]

theorem pool_put (m : LinkedMap κ ν) (k : κ) (v : ν) :
    (m.put k v).pool f = f k v + (m.remove k).pool f :=
  ((perm_entries_put m k v).map fun (e : κ × ν) => f e.1 e.2).sum_eq

/-- The part of one key and the part of the others. -/
theorem pool_eq_add (m : LinkedMap κ ν) (k : κ) :
    m.pool f = (m.get? k).elim 0 (f k) + (m.remove k).pool f := by
  cases h : m.get? k with
  | some v => exact ((perm_entries_remove h).map fun e => f e.1 e.2).sum_eq
  | none =>
    rw [remove_of_not_mem (get?_eq_none_iff.1 h)]
    exact (zero_add _).symm

end LinkedMap

namespace SortedMap

variable {κ ν α : Type*} [LinearOrder κ]

/-- The items that the entries of a map keep. -/
def pool (f : κ → ν → Multiset α) (m : SortedMap κ ν) : Multiset α :=
  (m.entries.map fun e => f e.1 e.2).sum

variable (f : κ → ν → Multiset α)

section

variable (m : SortedMap κ ν)

theorem pool_upsert (k : κ) (v : ν) :
    (m.upsert k fun _ => v).pool f = f k v + (m.remove k).pool f :=
  ((perm_entries_upsert_remove m k _).map fun (e : κ × ν) => f e.1 e.2).sum_eq

/-- The part of one key and the part of the others. -/
theorem pool_eq_add (k : κ) :
    m.pool f = (m.get? k).elim 0 (f k) + (m.remove k).pool f :=
  m.linked.pool_eq_add f k

theorem pool_singleton (g : κ → ν → α) (m : SortedMap κ ν) :
    m.pool (fun k v => {g k v}) = ↑(m.entries.map fun e => g e.1 e.2) := by
  unfold pool
  induction m.entries with
  | nil => rfl
  | cons e es ih => rw [List.map_cons, List.sum_cons, ih]; rfl

/-- The part of the entries that pass a test and the part of the others. -/
theorem pool_filter_add (p : κ × ν → Bool) :
    (m.filter p).pool f + (m.filter fun e => !p e).pool f = m.pool f := by
  have hsum := ((filter_append_perm p m.entries).map fun (e : κ × ν) => f e.1 e.2).sum_eq
  rw [map_append, sum_append] at hsum
  exact hsum

end

end SortedMap

namespace Custody

variable {ε α κ : Type*}

/-- The sum over a log. -/
def total (f : ε → Multiset α) (log : List ε) : Multiset α := (log.map f).sum

section

variable (f : ε → Multiset α)

@[simp] theorem total_nil : total f [] = 0 := rfl

@[simp] theorem total_cons (e : ε) (log : List ε) :
    total f (e :: log) = f e + total f log := sum_cons

@[simp] theorem total_append (log log' : List ε) :
    total f (log ++ log') = total f log + total f log' := by
  rw [total, map_append, sum_append]; rfl

end

variable {a : α}

theorem mem_total {f : ε → Multiset α} {log : List ε} : a ∈ total f log ↔ ∃ e ∈ log, a ∈ f e := by
  induction log with
  | nil => simp
  | cons e log ih => simp [ih]

/-- What an event says about items. -/
structure Flow (ε α κ : Type*) where
  /-- The items that enter. -/
  took : ε → Multiset α
  /-- The items that leave for good. -/
  settled : ε → Multiset α
  /-- The items that leave for another item of their key. -/
  replaced : ε → Multiset α
  key : α → κ

/-- What was held and taken is what is held and given up, and no key is given up by replacements. -/
structure Conserves (F : Flow ε α κ) (M : Multiset α) (log : List ε) (M' : Multiset α) : Prop where
  balance : M + total F.took log = M' + (total F.settled log + total F.replaced log)
  succeeded : ∀ a ∈ M + total F.took log, ∃ b ∈ M' + total F.settled log, F.key b = F.key a

/-- A balance over events of one kind, none of which takes an item. -/
structure Releases (F : Flow ε α κ) (P : ε → Prop) (M : Multiset α) (log : List ε) (M' : Multiset α) :
    Prop extends Conserves F M log M' where
  only : ∀ e ∈ log, P e
  nothing_taken : ∀ e ∈ log, F.took e = 0

variable {F : Flow ε α κ} {P : ε → Prop} {M M' M'' : Multiset α} {log log' : List ε}

/-- A log that says nothing sums to nothing. -/
theorem total_eq_zero {f : ε → Multiset α} (h : ∀ e ∈ log, f e = 0) : total f log = 0 := by
  refine eq_zero_of_forall_notMem fun a ha => ?_
  obtain ⟨e, he, hae⟩ := mem_total.1 ha
  rw [h e he] at hae
  exact notMem_zero a hae

namespace Conserves

theorem append (h : Conserves F M log M') (h' : Conserves F M' log' M'') :
    Conserves F M (log ++ log') M'' := by
  constructor
  · have hb := h.balance
    have hb' := h'.balance
    simp only [total_append]
    calc M + (total F.took log + total F.took log')
        = M + total F.took log + total F.took log' := (add_assoc ..).symm
      _ = M' + total F.took log' + (total F.settled log + total F.replaced log) := by
          rw [hb]; ac_rfl
      _ = M'' + (total F.settled log + total F.settled log'
            + (total F.replaced log + total F.replaced log')) := by rw [hb']; ac_rfl
  · -- an item of the first part is succeeded by one that the first part settles, or that the second
    -- part still holds at its start
    intro a ha
    rw [total_append, ← add_assoc] at ha
    have hlater : ∀ b ∈ M' + total F.took log',
        ∃ c ∈ M'' + total F.settled (log ++ log'), F.key c = F.key b := by
      intro b hb
      obtain ⟨c, hc, hkey⟩ := h'.succeeded b hb
      refine ⟨c, ?_, hkey⟩
      rw [total_append]
      simp only [mem_add] at hc ⊢
      exact hc.elim .inl fun hc => .inr (.inr hc)
    rcases mem_add.1 ha with ha | ha
    · obtain ⟨b, hb, hkey⟩ := h.succeeded a ha
      rcases mem_add.1 hb with hb | hb
      · obtain ⟨c, hc, hkey'⟩ := hlater b (mem_add.2 (.inl hb))
        exact ⟨c, hc, hkey'.trans hkey⟩
      · refine ⟨b, ?_, hkey⟩
        rw [total_append]
        simp only [mem_add]
        exact .inr (.inl hb)
    · exact hlater a (mem_add.2 (.inr ha))

/-- Whatever else is held stays. -/
theorem frame (h : Conserves F M log M') (N : Multiset α) : Conserves F (N + M) log (N + M') := by
  constructor
  · rw [add_assoc, h.balance, add_assoc]
  · intro a ha
    rw [add_assoc] at ha
    rcases mem_add.1 ha with ha | ha
    · exact ⟨a, by simp only [mem_add]; exact .inl (.inl ha), rfl⟩
    · obtain ⟨b, hb, hkey⟩ := h.succeeded a ha
      exact ⟨b, by rw [add_assoc]; exact mem_add.2 (.inr hb), hkey⟩

/-- An item that enters. -/
theorem of_took {e : ε} (htook : F.took e = {a}) (hsettled : F.settled e = 0)
    (hreplaced : F.replaced e = 0) (M : Multiset α) : Conserves F M [e] (a ::ₘ M) := by
  have hin : M + total F.took [e] = a ::ₘ M := by
    rw [total_cons, total_nil, htook, add_zero, add_comm, singleton_add]
  have hout : total F.settled [e] = 0 ∧ total F.replaced [e] = 0 :=
    ⟨total_eq_zero (by simpa using hsettled), total_eq_zero (by simpa using hreplaced)⟩
  constructor
  · rw [hin, hout.1, hout.2, add_zero, add_zero]
  · intro b hb
    rw [hin] at hb
    exact ⟨b, mem_add.2 (.inl hb), rfl⟩

end Conserves

namespace Releases

/-- What leaves without a replacement is succeeded by itself. -/
theorem of_settled (hbal : M = M' + total F.settled log) (hrep : ∀ e ∈ log, F.replaced e = 0)
    (htook : ∀ e ∈ log, F.took e = 0) (honly : ∀ e ∈ log, P e) : Releases F P M log M' where
  balance := by rw [total_eq_zero htook, total_eq_zero hrep, add_zero, add_zero, hbal]
  succeeded a ha := by
    rw [total_eq_zero htook, add_zero, hbal] at ha
    exact ⟨a, ha, rfl⟩
  only := honly
  nothing_taken := htook

theorem refl (M : Multiset α) : Releases F P M [] M :=
  of_settled (add_zero M).symm (by simp) (by simp) (by simp)

section

variable (h : Releases F P M log M')
include h

theorem append (h' : Releases F P M' log' M'') :
    Releases F P M (log ++ log') M'' where
  toConserves := h.toConserves.append h'.toConserves
  only e he := (mem_append.1 he).elim (h.only e) (h'.only e)
  nothing_taken e he := (mem_append.1 he).elim (h.nothing_taken e) (h'.nothing_taken e)

theorem frame (N : Multiset α) : Releases F P (N + M) log (N + M') :=
  ⟨h.toConserves.frame N, h.only, h.nothing_taken⟩

/-- What is held at the end was held at the start. -/
theorem mem (ha : a ∈ M') : a ∈ M := by
  have hb := h.balance
  rw [total_eq_zero h.nothing_taken, add_zero] at hb
  rw [hb]
  exact mem_add.2 (.inl ha)

end

/-- A log that moves nothing. -/
theorem of_quiet (h : ∀ e ∈ log, F.took e = 0 ∧ F.settled e = 0 ∧ F.replaced e = 0)
    (honly : ∀ e ∈ log, P e) (M : Multiset α) : Releases F P M log M :=
  of_settled (by rw [total_eq_zero fun e he => (h e he).2.1, add_zero]) (fun e he => (h e he).2.2)
    (fun e he => (h e he).1) honly

/-- An item that leaves for good. -/
theorem settle {e : ε} (htook : F.took e = 0) (hsettled : F.settled e = {a})
    (hreplaced : F.replaced e = 0) (honly : P e) (M : Multiset α) :
    Releases F P (a ::ₘ M) [e] M :=
  of_settled (by rw [total_cons, total_nil, hsettled, add_zero, add_comm, singleton_add])
    (by simpa using hreplaced) (by simpa using htook) (by simpa using honly)

variable {β : Type*}

/-- Items that leave for good, one with each piece of the log. -/
theorem flatMap_settle (ev : β → List ε) (item : β → α) (bs : List β)
    (h : ∀ b ∈ bs, ∀ M : Multiset α, Releases F P (item b ::ₘ M) (ev b) M) (M : Multiset α) :
    Releases F P (↑(bs.map item) + M) (bs.flatMap ev) M := by
  induction bs with
  | nil =>
    show Releases F P (0 + M) [] M
    rw [zero_add]
    exact refl M
  | cons b bs ih =>
    have hone := h b mem_cons_self (↑(bs.map item) + M)
    rw [← cons_add] at hone
    exact hone.append (ih fun b hb => h b (mem_cons_of_mem _ hb))

variable (ev : β → ε) (item : β → α)

/-- Items that leave for good, one with each event. -/
theorem map_settle (bs : List β)
    (h : ∀ b ∈ bs, ∀ M : Multiset α, Releases F P (item b ::ₘ M) [ev b] M) (M : Multiset α) :
    Releases F P (↑(bs.map item) + M) (bs.map ev) M := by
  rw [show bs.map ev = bs.flatMap fun b => [ev b] from map_eq_flatMap]
  exact flatMap_settle (fun b => [ev b]) item bs h M

/-- Items of one key leave for an item that stays. -/
theorem displace {b : α} (old : List β)
    (hkey : ∀ c ∈ old, F.key (item c) = F.key b) (htook : ∀ c ∈ old, F.took (ev c) = 0)
    (hsettled : ∀ c ∈ old, F.settled (ev c) = 0) (hreplaced : ∀ c ∈ old, F.replaced (ev c) = {item c})
    (honly : ∀ c ∈ old, P (ev c)) (M : Multiset α) :
    Releases F P (b ::ₘ (↑(old.map item) + M)) (old.map ev) (b ::ₘ M) := by
  have hmap : ∀ {p : ε → Prop}, (∀ c ∈ old, p (ev c)) → ∀ e ∈ old.map ev, p e := by
    intro p hp e he
    obtain ⟨c, hc, rfl⟩ := mem_map.1 he
    exact hp c hc
  have hsum : total F.replaced (old.map ev) = ↑(old.map item) := by
    clear hkey htook hsettled honly hmap
    induction old with
    | nil => rfl
    | cons c old ih =>
      rw [List.map_cons, total_cons, hreplaced c List.mem_cons_self,
        ih fun c hc => hreplaced c (List.mem_cons_of_mem _ hc), List.map_cons, ← cons_coe,
        singleton_add]
  have hzero := total_eq_zero (hmap htook)
  have hzero' := total_eq_zero (hmap hsettled)
  refine ⟨⟨?_, ?_⟩, hmap honly, hmap htook⟩
  · rw [hzero, hzero', hsum, add_zero, zero_add, cons_add, add_comm M]
  · intro a ha
    rw [hzero, add_zero, Multiset.mem_cons, mem_add] at ha
    rw [hzero', add_zero]
    rcases ha with rfl | ha | ha
    · exact ⟨a, mem_cons_self a M, rfl⟩
    · obtain ⟨c, hc, rfl⟩ := mem_map.1 (mem_coe.1 ha)
      exact ⟨b, mem_cons_self b M, (hkey c hc).symm⟩
    · exact ⟨a, mem_cons_of_mem ha, rfl⟩

end Releases

end Custody
