import Mathlib.Data.List.Basic
import Mathlib.Algebra.Order.Ring.Nat

/-!
# Byte buffers: writers and readers

A writer is a list of bytes; a reader (`Get`) takes bytes from the front of a buffer and may fail.
`Reads g bs a` says that `g` reads exactly `bs`, whatever follows it, and answers `a`. Readers are
put together with `bind`, and the rules `Reads.bind`, `Reads.times` and `Reads.ensure` put their
round trips together in the same way, so that a format is proved section by section.
-/

namespace ByteCodec

open List UInt8 Nat

variable {ε α β : Type*}

/-! ## Integers as bytes -/

/-- The `n` low bytes of `x`, most significant first. -/
def beBytes : Nat → Nat → List UInt8
  | 0, _ => []
  | n + 1, x => ofNat (x / 256 ^ n) :: beBytes n x

/-- The value of bytes, most significant first. -/
def beValue (bs : List UInt8) : Nat := bs.foldl (fun acc b => acc * 256 + b.toNat) 0

/-- The `n` low bytes of `x`, least significant first. -/
def leBytes (n x : Nat) : List UInt8 := (beBytes n x).reverse

@[simp] theorem length_beBytes (n x : Nat) : (beBytes n x).length = n := by
  induction n with
  | zero => rfl
  | succ n ih => simp [beBytes, ih]

@[simp] theorem length_leBytes (n x : Nat) : (leBytes n x).length = n := by
  simp [leBytes]

theorem foldl_beBytes (n x acc : Nat) :
    (beBytes n x).foldl (fun acc b => acc * 256 + b.toNat) acc = acc * 256 ^ n + x % 256 ^ n := by
  induction n generalizing acc with
  | zero => simp [beBytes, mod_one]
  | succ n ih =>
    -- the first byte is the top digit, the rest is the remainder
    have hdigit : (ofNat (x / 256 ^ n)).toNat = x / 256 ^ n % 256 := toNat_ofNat'
    have hsplit : x % 256 ^ (n + 1) = x / 256 ^ n % 256 * 256 ^ n + x % 256 ^ n := by
      rw [Nat.pow_succ, mod_mul, Nat.add_comm, Nat.mul_comm]
    rw [beBytes, foldl_cons, ih, hdigit, hsplit, Nat.add_mul, Nat.pow_succ, Nat.mul_assoc,
      Nat.mul_comm 256, Nat.add_assoc]

/-- Bytes of a value that fits read back as the value. -/
theorem beValue_beBytes {n x : Nat} (h : x < 256 ^ n) : beValue (beBytes n x) = x := by
  rw [beValue, foldl_beBytes, Nat.zero_mul, Nat.zero_add, mod_eq_of_lt h]

/-! ## Readers -/

/-- A reader: it takes bytes from the front of the buffer, or fails. -/
abbrev Get (ε α : Type*) := List UInt8 → Except ε (α × List UInt8)

namespace Get

/-- Read nothing. -/
def pure (a : α) : Get ε α := fun buf => .ok (a, buf)

/-- Read with `g`, then with what `f` makes of it. -/
def bind (g : Get ε α) (f : α → Get ε β) : Get ε β := fun buf =>
  match g buf with
  | .error e => .error e
  | .ok (a, rest) => f a rest

instance : Monad (Get ε) where
  pure := Get.pure
  bind := Get.bind

/-- Fail. -/
def fail (e : ε) : Get ε α := fun _ => .error e

/-- The next `n` bytes, or `underflow` when fewer remain. -/
def take (underflow : ε) (n : Nat) : Get ε (List UInt8) := fun buf =>
  if n ≤ buf.length then .ok (buf.take n, buf.drop n) else .error underflow

/-- Fail with `e remaining` unless the number of remaining bytes is `ok`. -/
def ensure (ok : Nat → Prop) [DecidablePred ok] (e : Nat → ε) : Get ε Unit := fun buf =>
  if ok buf.length then .ok ((), buf) else .error (e buf.length)

/-- Fail with `e` unless `p` holds. -/
def check (p : Prop) [Decidable p] (e : ε) : Get ε Unit :=
  if p then Get.pure () else Get.fail e

/-- An unsigned big-endian integer of `n` bytes. -/
def be (underflow : ε) (n : Nat) : Get ε Nat :=
  (take underflow n).bind fun bs => Get.pure (beValue bs)

/-- Read `n` items in turn, threading a state through them. -/
def times (step : α → Get ε α) : Nat → α → Get ε α
  | 0, a => Get.pure a
  | n + 1, a => (step a).bind (times step n)

end Get

/-- `g` reads exactly `bs`, whatever follows, and answers `a`. -/
def Reads (g : Get ε α) (bs : List UInt8) (a : α) : Prop := ∀ rest, g (bs ++ rest) = .ok (a, rest)

namespace Reads

variable {g : Get ε α} {bs bs' : List UInt8} {a : α} {b : β}

theorem pure (a : α) : Reads (Get.pure a : Get ε α) [] a := fun _ => rfl

/-- Sections read one after the other. -/
theorem bind {f : α → Get ε β} (hg : Reads g bs a) (hf : Reads (f a) bs' b) :
    Reads (g.bind f) (bs ++ bs') b := by
  intro rest
  rw [append_assoc, Get.bind, hg]
  exact hf rest

/-- A last step that reads nothing. -/
theorem map (f : α → β) (hg : Reads g bs a) : Reads (g.bind fun a => Get.pure (f a)) bs (f a) := by
  have := hg.bind (f := fun a => Get.pure (f a)) (Reads.pure (f a))
  rwa [append_nil] at this

theorem take {underflow : ε} {n : Nat} (h : bs.length = n) :
    Reads (Get.take underflow n) bs bs := by
  intro rest
  subst h
  simp [Get.take]

theorem be {underflow : ε} {n x : Nat} (h : x < 256 ^ n) :
    Reads (Get.be underflow n) (beBytes n x) x := by
  have hbytes : Reads (Get.take underflow n) (beBytes n x) (beBytes n x) :=
    take (length_beBytes n x)
  have := hbytes.map beValue
  rwa [beValue_beBytes h] at this

variable {f : Unit → Get ε β}

/-- A check that holds reads nothing. -/
theorem check {p : Prop} [Decidable p] {e : ε} (hp : p)
    (hf : Reads (f ()) bs b) : Reads ((Get.check p e).bind f) bs b := by
  intro rest
  rw [Get.check, if_pos hp]
  exact hf rest

/-- A length check passes when the section behind it is long enough. -/
theorem ensure {ok : Nat → Prop} [DecidablePred ok] {e : Nat → ε}
    (hok : ∀ r, bs.length ≤ r → ok r) (hf : Reads (f ()) bs b) :
    Reads ((Get.ensure ok e).bind f) bs b := by
  intro rest
  have : ok (bs ++ rest).length := hok _ (by rw [length_append]; omega)
  rw [Get.bind, Get.ensure, if_pos this]
  exact hf rest

variable {step : α → Get ε α} {γ : Type*}

/-- A counted run of items reads back when each item does, from the state before it to the state
after it. -/
theorem times {write : γ → List UInt8} {next : α → γ → α} {P : α → γ → Prop}
    (hstep : ∀ a x, P a x → Reads (step a) (write x) (next a x)) (xs : List γ) (a : α)
    (hP : ∀ pre x post, xs = pre ++ x :: post → P (pre.foldl next a) x) :
    Reads (Get.times step xs.length a) (xs.flatMap write) (xs.foldl next a) := by
  induction xs generalizing a with
  | nil => exact Reads.pure a
  | cons x xs ih =>
    refine (hstep a x (hP [] x xs rfl)).bind (ih (next a x) ?_)
    intro pre y post h
    exact hP (x :: pre) y post (by rw [h]; rfl)

/-- A counted run whose items all read back from any state. -/
theorem times_of_mem {write : γ → List UInt8} {next : α → γ → α}
    {xs : List γ} (hstep : ∀ a, ∀ x ∈ xs, Reads (step a) (write x) (next a x)) (a : α) :
    Reads (Get.times step xs.length a) (xs.flatMap write) (xs.foldl next a) :=
  Reads.times (P := fun _ x => x ∈ xs) (fun a x hx => hstep a x hx) xs a
    fun _ _ _ h => h ▸ mem_append_right _ (mem_cons_self ..)

end Reads

/-- The bytes of a run of items of one width. -/
theorem length_flatMap_of_width {write : γ → List UInt8} {width : Nat} {xs : List γ}
    (h : ∀ x ∈ xs, (write x).length = width) : (xs.flatMap write).length = xs.length * width := by
  rw [length_flatMap, map_congr_left h, map_const', sum_replicate_nat]

end ByteCodec
