import Octets.Number.Binary64

/-!
# The 32-bit format

A 32-bit pattern widens to the `Binary64` of the same value, and a `Binary64` narrows to the
32-bit pattern nearest to it, a tie going to the even pattern and magnitudes beyond the last
finite single going to infinity.

One unit of the 32-bit format is `2 ^ -149`, which is `2 ^ 925` units of the 64-bit format.
-/

namespace Octets.Binary32

/-- The rank of infinity among the 32-bit patterns. -/
def infinityRank : Nat := 0x7F800000

theorem infinityRank_eq : infinityRank = Format.binary32.infinityRank := by decide

/-- The least positive single is `2 ^ -unitExponent`. -/
def unitExponent : Nat := 149

/-- The units of the 64-bit format in one unit of this one. -/
def unit : Nat := 2 ^ (Binary64.unitExponent - unitExponent)

/-- The number with the given 32-bit pattern. -/
def widen (pattern : Nat) : Binary64 :=
  if infinityRank < pattern % 0x80000000 then .nan
  else if pattern % 0x80000000 = infinityRank then .infinity (pattern / 0x80000000 % 2 == 1)
  else .ofRatio (pattern / 0x80000000 % 2 == 1)
    (Format.binary32.magnitude (pattern % 0x80000000) * unit) 1

/-- The 32-bit pattern nearest to a number. For something that is not a number, conversion leaves
the sign and the payload of the pattern open; all of these become the one quiet pattern
`0x7FC00000`. -/
def narrow (x : Binary64) : Nat :=
  if x.isNaN then 0x7FC00000
  else (if x.negative then 0x80000000 else 0) + Format.binary32.nearestRank x.magnitude unit

end Octets.Binary32
