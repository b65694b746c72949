import Octets.Number.Power

/-!
# Rounding to a binary grid

A binary interchange format numbers its non-negative values in increasing order: the number of
a value is its `rank`, the low bits of its bit pattern. Rank `0` is zero, the ranks below
`2 ^ (precision - 1)` are the subnormal values, and from there on every `2 ^ (precision - 1)`
consecutive ranks share one exponent.

* `Format.magnitude` — the value of a rank, counted in the format's least positive value;
* `Format.nearestRank` — the rank nearest to a quotient, a tie going to the even rank.

Because consecutive ranks are consecutive values, the carry of a significand that rounds up to
the next power of two is plain addition, and so is the step from the subnormal to the normal
values.
-/

namespace Octets

/-- The natural number nearest to `num / den`; a half goes to the even neighbour. -/
def roundHalfEven (num den : Nat) : Nat :=
  if 2 * (num % den) < den then num / den
  else if den < 2 * (num % den) then num / den + 1
  else num / den + num / den % 2

/-- A binary interchange format: the number of significant bits and the width of the exponent
field. -/
structure Format where
  precision : Nat
  exponentBits : Nat

namespace Format

/-- The number of ranks that share an exponent. -/
def binade (f : Format) : Nat := 2 ^ (f.precision - 1)

/-- The rank of infinity, the first one after the finite values. -/
def infinityRank (f : Format) : Nat := (2 ^ f.exponentBits - 1) * f.binade

/-- The value of a rank in units of the least positive value. The ranks of the first two
binades are their own value. -/
def magnitude (f : Format) (rank : Nat) : Nat :=
  if rank < f.binade then rank
  else (f.binade + rank % f.binade) * 2 ^ (rank / f.binade - 1)

/-- The exponent that leaves `precision` significant bits of `num / den`, never below the
exponent of the subnormal values. -/
def exponentOf (f : Format) (num den : Nat) : Nat :=
  (num / den).log2 + 1 - f.precision

/-- The rank nearest to `num / den` units, a tie going to the even rank; quotients beyond the
last finite value get the rank of infinity. -/
def nearestRank (f : Format) (num den : Nat) : Nat :=
  min f.infinityRank
    (f.exponentOf num den * f.binade + roundHalfEven num (den * 2 ^ f.exponentOf num den))

@[simp] theorem magnitude_zero (f : Format) : f.magnitude 0 = 0 := by
  simp [magnitude, binade]

theorem nearestRank_le (f : Format) (num den : Nat) : f.nearestRank num den ≤ f.infinityRank :=
  Nat.min_le_left _ _

end Format

/-- The 64-bit format: 53 significant bits, 11 bits of exponent. -/
def Format.binary64 : Format := ⟨53, 11⟩

/-- The 32-bit format: 24 significant bits, 8 bits of exponent. -/
def Format.binary32 : Format := ⟨24, 8⟩

end Octets
