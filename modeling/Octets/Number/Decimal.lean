import Octets.Number.Binary64
import Octets.Text.Digit

/-!
# Decimal numbers

A `Decimal` is a coefficient and a power of ten. The module holds the two directions between
decimals and binary64 numbers:

* `Binary64.ofDecimal` — the nearest number, a tie going to the even pattern;
* `Binary64.shortest` — the decimal with the fewest digits that reads back as the number; among
  those the nearest, and the larger one in a tie.

Every finite number has an exact decimal (`Binary64.expansion`), so the search for the shortest
one cannot fail: at the last, full length it tries the exact one.
-/

namespace Octets

/-- The number `coefficient * 10 ^ exponent`. -/
structure Decimal where
  coefficient : Nat
  exponent : Int
deriving DecidableEq

namespace Decimal

/-- The number of digits of the coefficient. -/
def length (d : Decimal) : Nat := (Text.decimal d.coefficient).length

/-- The position of the decimal point, counted from the first digit. -/
def point (d : Decimal) : Int := d.length + d.exponent

end Decimal

namespace Binary64

/-- The number nearest to a decimal, with the given sign. A decimal whose point is more than 400
places from its first digit is far outside the range of the numbers, and is not expanded. -/
def ofDecimal (negative : Bool) (d : Decimal) : Binary64 :=
  if d.coefficient = 0 then zero negative
  else if 400 < d.point then infinity negative
  else if d.point < -400 then zero negative
  else if 0 ≤ d.exponent then
    ofRatio negative (d.coefficient * 10 ^ d.exponent.toNat * one) 1
  else ofRatio negative (d.coefficient * one) (10 ^ (-d.exponent).toNat)

/-- The magnitude of a finite number, exactly: `2 ^ -k` is `5 ^ k * 10 ^ -k`. -/
def expansion (x : Binary64) : Decimal := ⟨x.magnitude * 5 ^ unitExponent, -unitExponent⟩

/-- The decimal reads back as the number. -/
def readsBack (x : Binary64) (d : Decimal) : Bool := ofDecimal x.negative d == x

/-- The neighbours of the magnitude among the decimals with `places` digits fewer than the exact
one: the nearest of those that read back, the upper one in a tie. -/
def shortened (x : Binary64) (places : Nat) : Option Decimal :=
  let exact := x.expansion.coefficient
  let below : Decimal := ⟨exact / 10 ^ places, places - unitExponent⟩
  let above : Decimal := ⟨exact / 10 ^ places + 1, places - unitExponent⟩
  if x.readsBack below && (!x.readsBack above || decide (2 * (exact % 10 ^ places) < 10 ^ places))
  then some below
  else if x.readsBack above then some above
  else none

/-- The decimal with the fewest digits that reads back as the number. -/
def shortest (x : Binary64) : Decimal :=
  ((List.range x.expansion.length).findSome? fun i =>
    x.shortened (x.expansion.length - 1 - i)).getD x.expansion

end Binary64

end Octets
