import Octets.Json.Token
import Octets.Number.Decimal

/-!
# The numbers of JSON text

A number without point and exponent is an integer as long as it fits 64 bits. Any other number is
read in two steps: as many leading digits as fit 64 bits make an integer, which is rounded to a
binary64 number, and this is multiplied or divided by the power of ten of the remaining exponent,
with another rounding. A magnitude that rounds to infinity is refused; one that is too small
becomes zero.
-/

namespace Octets.Json

/-- What a number stands for. -/
inductive Amount where
  /-- A natural number that fits 64 bits. -/
  | natural (n : Nat)
  /-- A negative integer that fits 64 bits. -/
  | negative (n : Int)
  | real (x : Binary64)

/-- The greatest unsigned 64-bit integer. -/
def maxSignificand : Nat := 0xFFFFFFFFFFFFFFFF

/-- Take in digits as long as the integer fits 64 bits: the integer, and the digits that are
left. -/
def absorb (significand : Nat) : List Char → Nat × List Char
  | [] => (significand, [])
  | c :: rest =>
    let next := significand * 10 + (c.toNat - 0x30)
    if maxSignificand < next then (significand, c :: rest) else absorb next rest

/-- The power of ten, rounded. -/
def powerOfTen (exponent : Nat) : Binary64 := .ofDecimal false ⟨1, exponent⟩

/-- Divide by a power of ten, in steps of at most `10 ^ 308`. -/
def scaleDown (x : Binary64) (exponent : Nat) : Binary64 :=
  if exponent ≤ 308 then x.div (powerOfTen exponent)
  else if x.isZero then x
  else scaleDown (x.div (powerOfTen 308)) (exponent - 308)
termination_by exponent

/-- Multiply by a power of ten, if that does not lead beyond the finite numbers. -/
def scaleUp? (x : Binary64) (exponent : Nat) : Option Binary64 :=
  if exponent ≤ 308 then
    let scaled := x.mul (powerOfTen exponent)
    if scaled.isFinite then some scaled else none
  else if x.isZero then some x
  else none

/-- The number `significand * 10 ^ exponent`, rounded in two steps. -/
def scale? (significand : Nat) (exponent : Int) : Option Binary64 :=
  if 0 ≤ exponent then scaleUp? (.ofNat significand) exponent.toNat
  else some (scaleDown (.ofNat significand) (-exponent).toNat)

/-- The greatest exponent that is looked at; beyond it only its sign counts. -/
def maxExponent : Nat := 0x7FFFFFFF

/-- The magnitude of a number with a point, an exponent or too many digits. -/
def magnitude? (n : Numeral) : Option Binary64 :=
  let (whole, left) := absorb 0 n.whole
  let (significand, dropped) := absorb whole n.fraction
  let exponent : Int := left.length - (n.fraction.length - dropped.length : Nat)
  match n.exponent with
  | none => scale? significand exponent
  | some (negative, digits) =>
    let power := Nat.ofDigitChars 10 digits 0
    if maxExponent < power then
      if significand ≠ 0 && !negative then none else some (.zero false)
    else scale? significand (if negative then exponent - power else exponent + power)

/-- What a number stands for; none if it is beyond the finite numbers. A negative zero, and an
integer that does not fit, are real. -/
def amount? (n : Numeral) : Option Amount :=
  let (whole, left) := absorb 0 n.whole
  if left.isEmpty && n.fraction.isEmpty && n.exponent.isNone then
    if !n.negative then some (.natural whole)
    else if whole ≠ 0 && decide (whole ≤ 0x8000000000000000) then some (.negative (-whole))
    else some (.real (Binary64.ofNat whole).neg)
  else
    (magnitude? n).map fun x => .real (if n.negative then x.neg else x)

/-- The binary64 number that is nearest. -/
def Amount.toNumber : Amount → Binary64
  | .natural n => .ofNat n
  | .negative n => .ofInt n
  | .real x => x

end Octets.Json
