import Octets.Number.Power

/-!
# Big integers

Integers without bounds, and the 64-bit integers among them.
-/

namespace Octets.BigInteger

/-- The magnitude is greater than `2 ^ bits`. -/
def exceeds (n : Int) (bits : Nat) : Bool := decide (2 ^ bits < n.natAbs)

/-- The integer, if it is a signed 64-bit integer. -/
def signed64? (n : Int) : Option Int :=
  if -0x8000000000000000 ≤ n ∧ n ≤ 0x7FFFFFFFFFFFFFFF then some n else none

/-- The integer, if it is an unsigned 64-bit integer. -/
def unsigned64? (n : Int) : Option Int :=
  if 0 ≤ n ∧ n ≤ 0xFFFFFFFFFFFFFFFF then some n else none

end Octets.BigInteger
