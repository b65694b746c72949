/-!
# Integers in 64 bits

Counts and positions are natural numbers of any size. Where a field or a search is placed, their
sums and differences are kept in 64 bits with a sign: an integer that does not fit becomes the
one in the range that differs from it by a multiple of `2 ^ 64`. Nothing is lost as long as the
sum itself fits (`wrapped_eq_self`), which it does for the bytes of a block.

The lengths of buffers that are joined are added in 64 bits without a sign (`wrappedSum`). A buffer
may be joined with itself any number of times, so that their sum need not fit.
-/

namespace Octets

/-- The least signed 64-bit integer. -/
def minInt64 : Int := -0x8000000000000000

/-- The greatest signed 64-bit integer. -/
def maxInt64 : Int := 0x7FFFFFFFFFFFFFFF

/-- The signed 64-bit integer that an integer stands for. -/
def wrapped (n : Int) : Int := n.bmod 0x10000000000000000

/-- An integer that fits stands for itself. -/
theorem wrapped_eq_self {n : Int} (hlo : minInt64 ≤ n) (hhi : n ≤ maxInt64) : wrapped n = n := by
  unfold wrapped
  unfold minInt64 at hlo
  unfold maxInt64 at hhi
  exact Int.bmod_eq_of_le (by omega) (by omega)

/-- The sum of counts that are added in 64 bits without a sign, each sum wrapped as it is made. -/
def wrappedSum (counts : List Nat) : Nat :=
  counts.foldl (fun total n => (total + n) % 2 ^ 64) 0

example : wrappedSum [2 ^ 63, 7, 2 ^ 63] = 7 := by decide

end Octets
