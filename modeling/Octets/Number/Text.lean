import Octets.Number.Decimal
import Octets.Text.Blank
import Octets.Text.Digit

/-!
# Numbers as text

`Binary64.text` writes a number: plainly from one millionth up to below `10 ^ 21`, and with an
exponent outside that range. `Binary64.ofText` reads one the way a text argument is coerced:
blanks at the ends do not count, an empty text is zero, `Infinity` and literals in base 16, 8 and
2 are known, and everything that is not a number reads as such.

The digits of a literal in another base are taken in one by one, each step being a rounded
product and a rounded sum.
-/

namespace Octets

/-! ## Writing -/

namespace Decimal

/-- The digits of the coefficient without zeros at the end. -/
def significant (d : Decimal) : List Char :=
  ((Text.decimal d.coefficient).reverse.dropWhile (· == '0')).reverse

/-- All places between the first digit and the decimal point, and the digits after it. -/
def plain (d : Decimal) : List Char :=
  let digits := d.significant
  if d.point ≤ 0 then '0' :: '.' :: (List.replicate (-d.point).toNat '0' ++ digits)
  else if d.point.toNat < digits.length then
    digits.take d.point.toNat ++ '.' :: digits.drop d.point.toNat
  else digits ++ List.replicate (d.point.toNat - digits.length) '0'

/-- The digits with the point after the first one. -/
def mantissa (d : Decimal) : List Char :=
  match d.significant with
  | [] => []
  | [first] => [first]
  | first :: more => first :: '.' :: more

/-- The mantissa and a signed exponent. -/
def withExponent (d : Decimal) : List Char :=
  d.mantissa ++ 'e' :: (if d.point - 1 < 0 then '-' else '+') ::
    Text.decimal (d.point - 1).natAbs

end Decimal

namespace Binary64

/-- One millionth, the least number that is written plainly. -/
def leastPlain : Binary64 := ofDecimal false ⟨1, -6⟩

/-- The greatest number of digits before the point that are written plainly. -/
def plainDigits : Nat := 21

/-- The magnitude is written without an exponent. -/
def isPlain (x : Binary64) : Bool :=
  decide (leastPlain.magnitude ≤ x.magnitude ∧ x.magnitude < 10 ^ plainDigits * one)

/-- The characters of a number. -/
def chars (x : Binary64) : List Char :=
  if x.isNaN then "NaN".toList
  else if x.isInfinite then (if x.negative then "-Infinity" else "Infinity").toList
  else if x.isZero then ['0']
  else
    let digits := if x.isPlain then x.shortest.plain else x.shortest.withExponent
    if x.negative then '-' :: digits else digits

/-- The text of a number; both zeros are written alike. -/
def text (x : Binary64) : String := String.ofList x.chars

end Binary64

/-! ## Reading -/

namespace Decimal

/-- An optional sign: whether it is a minus, and the rest. -/
def takeSign : List Char → Bool × List Char
  | '-' :: rest => (true, rest)
  | '+' :: rest => (false, rest)
  | rest => (false, rest)

/-- The value of a sequence of digits. -/
def ofDigits (digits : List Char) : Nat := Nat.ofDigitChars 10 digits 0

/-- A signed exponent that takes up the whole text. -/
def exponent? (text : List Char) : Option Int :=
  let (negative, digits) := takeSign text
  if digits.isEmpty || !digits.all Char.isDigit then none
  else some (if negative then -(ofDigits digits : Int) else ofDigits digits)

/-- The digits after a decimal point, if there is one, and the rest. -/
def takeFraction : List Char → List Char × List Char
  | '.' :: rest => (rest.takeWhile Char.isDigit, rest.dropWhile Char.isDigit)
  | rest => ([], rest)

/-- An unsigned decimal literal that takes up the whole text: digits with at most one point,
at least one digit, and an optional exponent. -/
def ofLiteral? (text : List Char) : Option Decimal :=
  let whole := text.takeWhile Char.isDigit
  let (fraction, rest) := takeFraction (text.dropWhile Char.isDigit)
  if whole.isEmpty && fraction.isEmpty then none
  else
    let scaled (exponent : Int) : Decimal :=
      ⟨ofDigits (whole ++ fraction), exponent - fraction.length⟩
    match rest with
    | [] => some (scaled 0)
    | 'e' :: power => (exponent? power).map scaled
    | 'E' :: power => (exponent? power).map scaled
    | _ => none

end Decimal

namespace Binary64

/-- A signed decimal literal. -/
def ofDecimalLiteral (text : List Char) : Binary64 :=
  let (negative, rest) := Decimal.takeSign text
  match Decimal.ofLiteral? rest with
  | some d => ofDecimal negative d
  | none => nan

/-- One digit more in a literal of the given base. -/
def appendDigit (base : Nat) (x : Binary64) (digit : Nat) : Binary64 :=
  (x.mul (ofNat base)).add (ofNat digit)

/-- The digits of a literal in the given base, at least one. -/
def ofRadixDigits (base : Nat) (digits : List Char) : Binary64 :=
  if digits.isEmpty then nan
  else match digits.mapM (Text.digitIn? base) with
    | some values => values.foldl (appendDigit base) (zero false)
    | none => nan

/-- The number that a text without blanks at its ends stands for. -/
def ofTrimmed : List Char → Binary64
  | [] => zero false
  | '0' :: 'x' :: digits => ofRadixDigits 16 digits
  | '0' :: 'X' :: digits => ofRadixDigits 16 digits
  | '0' :: 'o' :: digits => ofRadixDigits 8 digits
  | '0' :: 'O' :: digits => ofRadixDigits 8 digits
  | '0' :: 'b' :: digits => ofRadixDigits 2 digits
  | '0' :: 'B' :: digits => ofRadixDigits 2 digits
  | text =>
    if text = "Infinity".toList || text = "+Infinity".toList then infinity false
    else if text = "-Infinity".toList then infinity true
    else ofDecimalLiteral text

/-- The number that a text stands for. -/
def ofText (text : String) : Binary64 := ofTrimmed (Text.trim Text.isBlankOrMark text.toList)

end Binary64

end Octets
