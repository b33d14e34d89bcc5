import Kardamom.Lib.Words

/-!
# Values of the canonical sealer

The ids, addresses and results that every part of the sealer passes around. Java's `byte[]` keys of
a fixed length are bit vectors of that width, so the length checks of the source (`checkId`, the
sender length) hold by type. Counters that only count up (`canonicalCount`, `blockNumber`, the block
times) are integers; a value from the wire whose arithmetic can wrap or that is compared unsigned
keeps its 64 bits.
-/

namespace Kardamom.Sealer

/-- A payload, relayed as it came. -/
abbrev Bytes := List UInt8

/-- A 32-byte canonical id. -/
abbrev CanonicalId := BitVec 256

/-- A 20-byte sender address. -/
abbrev Sender := BitVec 160

/-- The sender of a record that the contiguity guard does not look at. -/
def zeroSender : Sender := 0

/-- `isZeroSender`. -/
def isZeroSender (sender : Sender) : Bool := sender == zeroSender

/-- `Long.MAX_VALUE`. -/
def longMax : Int := 2 ^ 63 - 1

/-- 0 is a Java `int`. -/
theorem zero_int : 0 < 2 ^ 31 := by decide

/-- `Long.MIN_VALUE`. -/
def longMin : Int := -2 ^ 63

/-- `a + b`, held at `longMax` instead of wrapping. -/
def saturatingAdd (a b : Int) : Int :=
  if a + b < longMin ∨ longMax < a + b then longMax else a + b

theorem saturatingAdd_eq_min {a b : Int} (ha : 0 ≤ a) (hb : 0 ≤ b) :
    saturatingAdd a b = min (a + b) longMax := by
  unfold saturatingAdd longMin longMax
  split <;> omega

/-- The unchecked exceptions that an entry point can throw, with their texts. -/
inductive SealerException where
  | illegalArgument (message : String)
  | illegalState (message : String)
  | bufferUnderflow
  deriving DecidableEq, Repr

/-- A block boundary, as a tick stamps it. -/
structure Boundary where
  blockNumber : Int
  /-- The canonical count at the tick. -/
  endTxIdx : Int
  l2Timestamp : Int
  l1Origin : Int64
  deriving DecidableEq, Repr

/-- A record relayed at a canonical index, with its payload. -/
structure Relayed where
  index : Int
  payload : Bytes
  deriving DecidableEq, Repr

/-- An origin-advancing record relayed, and the boundary it forced before it, if any. -/
structure OriginAdvance where
  forced : Option Boundary
  relayed : Relayed
  deriving DecidableEq, Repr

end Kardamom.Sealer
